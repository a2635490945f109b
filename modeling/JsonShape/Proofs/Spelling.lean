import JsonShape.Number.Rational
import Mathlib.Algebra.Order.Field.Rat
import Mathlib.Data.Rat.Lemmas
import Mathlib.Tactic.FieldSimp
import Mathlib.Tactic.Ring

/-! Decimal numerals as documents spell them, with the rationals that they denote. Reading a numeral
gives what it denotes, unless its exponent is out of bounds. -/
namespace JsonShape.Number
open List Option

def digitsNumber (before : Nat) (digits : List (Fin 10)) : Nat :=
  digits.foldl (fun n d => 10 * n + d) before

def digitChars (digits : List (Fin 10)) : List Char := digits.map fun d => d.val.digitChar

structure Exponent where
  capital : Bool
  sign? : Option Bool
  digits : List (Fin 10)
  nonempty : digits ≠ []

namespace Exponent

def signChars : Option Bool → List Char
  | none => []
  | some false => ['+']
  | some true => ['-']

def chars (e : Exponent) : List Char :=
  (if e.capital then 'E' else 'e') :: (signChars e.sign? ++ digitChars e.digits)

def size (e : Exponent) : Nat := digitsNumber 0 e.digits

def value (e : Exponent) : Int := if e.sign? = some true then -e.size else e.size

end Exponent

structure Spelling where
  negative : Bool
  whole : List (Fin 10)
  fraction : List (Fin 10)
  exponent? : Option Exponent
  nonempty : whole ≠ []

namespace Spelling

def pointChars (fraction : List (Fin 10)) : List Char :=
  if fraction = [] then [] else '.' :: digitChars fraction

def exponentChars (e? : Option Exponent) : List Char := (e?.map (·.chars)).getD []

def text (d : Spelling) : String :=
  String.ofList ((if d.negative then ['-'] else []) ++
    (digitChars d.whole ++ (pointChars d.fraction ++ exponentChars d.exponent?)))

def magnitude (d : Spelling) : Nat := digitsNumber 0 (d.whole ++ d.fraction)

def power (d : Spelling) : Int := (d.exponent?.map (·.value)).getD 0 - d.fraction.length

def value (d : Spelling) : Rat := (if d.negative then -1 else 1) * d.magnitude * 10 ^ d.power

def Moderate (d : Spelling) : Prop :=
  (∀ e, d.exponent? = some e → fitsSigned64 e.value) ∧ (d.magnitude = 0 ∨ d.power.natAbs ≤ fiveLimit)

def Denote (d c : Spelling) : Prop := d.value = c.value

/-- Numerals are told to be equal if they are written alike, or denote the same with exponents in
bounds. -/
def Told (d c : Spelling) : Prop := d.text = c.text ∨ d.Moderate ∧ c.Moderate ∧ d.value = c.value

end Spelling

theorem digitsNumber_append (before : Nat) (first second : List (Fin 10)) :
    digitsNumber before (first ++ second) = digitsNumber (digitsNumber before first) second := by
  simp [digitsNumber]

theorem digit_facts (d : Fin 10) :
    digitValue? d.val.digitChar = some d.val ∧ d.val.digitChar ≠ '.' ∧ d.val.digitChar ≠ '_' ∧
      d.val.digitChar ≠ '/' ∧ d.val.digitChar ≠ '+' ∧ d.val.digitChar ≠ '-' ∧
      baseMark? d.val.digitChar = none := by
  decide +revert

theorem takeDigits_digitChars (pointAllowed pointed : Bool) (run : DigitRun)
    (digits : List (Fin 10)) (rest : List Char) :
    takeDigits 10 pointAllowed pointed run (digitChars digits ++ rest) = takeDigits 10 pointAllowed
    pointed { run with
          value := digitsNumber run.value digits
          count := run.count + digits.length
          fraction := if pointed then run.fraction + digits.length else run.fraction
          previous := if digits = [] then run.previous else .digit } rest := by
  induction digits generalizing run with
  | nil => cases pointed <;> rfl
  | cons d digits ih =>
    obtain ⟨value, point, underscore, -⟩ := digit_facts d
    have step : takeDigits 10 pointAllowed pointed run (digitChars (d :: digits) ++ rest) =
        takeDigits 10 pointAllowed pointed
          { run with
            value := 10 * run.value + d
            count := run.count + 1
            fraction := if pointed then run.fraction + 1 else run.fraction
            previous := .digit } (digitChars digits ++ rest) := by
      simp only [digitChars, map_cons, cons_append]
      rw [takeDigits]
      simp [value, point, underscore, Option.filter, d.isLt]
    rw [step, ih]
    congr 1
    cases pointed <;> simp [digitsNumber, Nat.add_assoc, Nat.add_comm]

theorem takeSign_of_ne {c : Char} (plus : c ≠ '+') (minus : c ≠ '-') (cs : List Char) :
    takeSign (c :: cs) = (false, c :: cs) := by
  rw [takeSign]
  · rintro _ equal
    exact plus (cons.inj equal).1
  · rintro _ equal
    exact minus (cons.inj equal).1

theorem takeSign_digitChars {digits : List (Fin 10)} (nonempty : digits ≠ []) (rest : List Char) :
    takeSign (digitChars digits ++ rest) = (false, digitChars digits ++ rest) := by
  obtain ⟨d, digits, rfl⟩ := exists_cons_of_ne_nil nonempty
  obtain ⟨-, -, -, -, plus, minus, -⟩ := digit_facts d
  exact takeSign_of_ne plus minus _

theorem takeSign_signChars (sign? : Option Bool) {digits : List (Fin 10)} (nonempty : digits ≠ []) :
    takeSign (Exponent.signChars sign? ++ digitChars digits) =
      (sign? == some true, digitChars digits) := by
  rcases sign? with _ | _ | _
  · simpa [Exponent.signChars] using takeSign_digitChars nonempty []
  · rfl
  · rfl

theorem takeExponent?_chars (e? : Option Exponent) :
    takeExponent? (Spelling.exponentChars e?) = if ∀ e, e? = some e → fitsSigned64 e.value then
      some (10, (e?.map (·.value)).getD 0, []) else none := by
  cases e? with
  | none => simp [Spelling.exponentChars, takeExponent?]
  | some e =>
    obtain ⟨capital, sign?, digits, nonempty⟩ := e
    have digitsRead : takeDigits 10 false false {} (digitChars digits) =
        ({ value := digitsNumber 0 digits, count := digits.length, previous := .digit }, []) := by
      have read := takeDigits_digitChars false false {} digits []
      simpa [takeDigits, nonempty] using read
    have mark : Text.lowerChar (if capital then 'E' else 'e') = 'e' := by cases capital <;> decide
    rw [Spelling.exponentChars, map_some, getD_some, Exponent.chars, takeExponent?]
    by_cases fits : fitsSigned64 (Exponent.value ⟨capital, sign?, digits, nonempty⟩) <;>
      simp [mark, takeSign_signChars sign? nonempty, digitsRead, nonempty, Exponent.size,
        Exponent.value] at fits ⊢ <;>
      simp [fits]

theorem cut_of_not_mem {separator : Char} {cs : List Char} (absent : separator ∉ cs) :
    Text.cut separator cs = (cs, none) := by
  induction cs with
  | nil => rfl
  | cons c rest ih =>
    simp only [mem_cons, not_or] at absent
    rw [Text.cut, if_neg (by simpa using Ne.symm absent.1), ih absent.2]

theorem scale_eq (base : Nat) (positive : 0 < base) (exponent : Int) (n d : Nat)
    (denominator : d ≠ 0) :
    (scale base exponent n d).2 ≠ 0 ∧ ((scale base exponent n d).1 : Rat) /
      (scale base exponent n d).2 = n / d * (base : Rat) ^ exponent := by
  have nonzero : (base : Rat) ≠ 0 := by exact_mod_cast positive.ne'
  cases exponent with
  | ofNat k =>
    refine ⟨denominator, ?_⟩
    simp [scale]
    ring
  | negSucc k =>
    refine ⟨Nat.mul_ne_zero denominator (pow_ne_zero _ positive.ne'), ?_⟩
    simp [scale]
    field_simp

theorem rationalOf_eq (negative : Bool) (n : Nat) (power : Int) :
    rationalOf negative n power power = (if negative then -1 else 1) * n * 10 ^ power := by
  obtain ⟨nonzero, fives⟩ := scale_eq 5 (by decide) power n 1 (by decide)
  unfold rationalOf
  generalize scale 5 power n 1 = first at nonzero fives
  obtain ⟨a, b⟩ := first
  obtain ⟨nonzero', twos⟩ := scale_eq 2 (by decide) power a b nonzero
  dsimp only
  generalize scale 2 power a b = second at nonzero' twos
  obtain ⟨c, d⟩ := second
  dsimp only at fives twos ⊢
  rw [fives] at twos
  have power_ten : (10 : Rat) ^ power = 5 ^ power * 2 ^ power := by
    rw [← mul_zpow]
    norm_num
  rw [Rat.mkRat_eq_div, power_ten]
  cases negative with
  | false => simp_all [mul_assoc]
  | true => simp_all [neg_div, mul_assoc]

theorem takeDigits_exponentChars (pointAllowed pointed : Bool) (run : DigitRun)
    (e? : Option Exponent) :
    takeDigits 10 pointAllowed pointed run (Spelling.exponentChars e?) =
      (run, Spelling.exponentChars e?) := by
  cases e? with
  | none => rfl
  | some e =>
    obtain ⟨capital, sign?, digits, nonempty⟩ := e
    have stops : ∀ c : Char, c = 'E' ∨ c = 'e' → (digitValue? c).filter (· < 10) = none ∧
        c ≠ '.' ∧ c ≠ '_' := by
      rintro c (rfl | rfl) <;> decide
    obtain ⟨digit, point, underscore⟩ := stops (if capital then 'E' else 'e') (by cases capital <;> simp)
    rw [Spelling.exponentChars, map_some, getD_some, Exponent.chars, takeDigits]
    simp [digit, point, underscore]

theorem takeDigits_spelling (whole fraction : List (Fin 10)) (nonempty : whole ≠ [])
    (e? : Option Exponent) :
    takeDigits 10 true false {}
    (digitChars whole ++ (Spelling.pointChars fraction ++ Spelling.exponentChars e?)) =
      ({ value := digitsNumber 0 (whole ++
      fraction), count := whole.length + fraction.length, fraction := fraction.length
         previous := .digit }, Spelling.exponentChars e?) := by
  rw [takeDigits_digitChars]
  by_cases pointed : fraction = []
  · subst pointed
    simp [Spelling.pointChars, takeDigits_exponentChars, nonempty]
  · rw [Spelling.pointChars, if_neg pointed, cons_append, takeDigits]
    simp [takeDigits_digitChars, takeDigits_exponentChars, nonempty, pointed, digitsNumber_append]

theorem baseMark?_second {whole fraction : List (Fin 10)} {e? : Option Exponent}
    (nonempty : whole ≠ []) {first second : Char} {rest : List Char}
    (equal : digitChars whole ++ (Spelling.pointChars fraction ++ Spelling.exponentChars e?) =
      first :: second :: rest) : baseMark? second = none := by
  obtain ⟨d, more, rfl⟩ := exists_cons_of_ne_nil nonempty
  have tail := (cons.inj equal).2
  cases more with
  | cons d' more =>
    obtain rfl := (cons.inj tail).1
    exact (digit_facts d').2.2.2.2.2.2
  | nil =>
    simp only [map_nil, Spelling.pointChars] at tail
    split_ifs at tail with pointed
    · cases e? with
      | none => cases tail
      | some e =>
        obtain rfl := (cons.inj tail).1
        split_ifs <;> decide
    · obtain rfl := (cons.inj tail).1
      decide

theorem takeUnsigned?_spelling (whole fraction : List (Fin 10)) (nonempty : whole ≠ [])
    (e? : Option Exponent) :
    takeUnsigned? true (digitChars whole ++
      (Spelling.pointChars fraction ++ Spelling.exponentChars e?)) = some
      (⟨10, digitsNumber 0 (whole ++ fraction), fraction.length⟩, Spelling.exponentChars e?) := by
  have digits := takeDigits_spelling whole fraction nonempty e?
  have second := @baseMark?_second whole fraction e? nonempty
  generalize digitChars whole ++ (Spelling.pointChars fraction ++ Spelling.exponentChars e?) =
    cs at digits second
  unfold takeUnsigned?
  split
  · rename_i c rest
    rw [second rfl]
    simp [digits, nonempty]
  · simp [digits, nonempty]

theorem slash_not_mem (d : Spelling) : '/' ∉ d.text.toList := by
  have digits : ∀ ds : List (Fin 10), '/' ∉ digitChars ds := by
    intro ds member
    obtain ⟨d, -, equal⟩ := mem_map.mp member
    exact (digit_facts d).2.2.2.1 equal
  obtain ⟨negative, whole, fraction, exponent?, -⟩ := d
  have point : '/' ∉ Spelling.pointChars fraction := by
    unfold Spelling.pointChars
    split_ifs
    · simp
    · simp [digits]
  have exponent : '/' ∉ Spelling.exponentChars exponent? := by
    cases exponent? with
    | none => simp [Spelling.exponentChars]
    | some e =>
      obtain ⟨capital, sign?, ds, -⟩ := e
      have sign : '/' ∉ Exponent.signChars sign? := by rcases sign? with _ | _ | _ <;> decide
      cases capital <;> simp [Spelling.exponentChars, Exponent.chars, digits, sign]
  cases negative <;> simp [Spelling.text, digits, point, exponent]

theorem takeSign_text (d : Spelling) :
    takeSign d.text.toList =
      (d.negative, digitChars d.whole ++
      (Spelling.pointChars d.fraction ++ Spelling.exponentChars d.exponent?)) := by
  rw [Spelling.text, String.toList_ofList]
  cases d.negative with
  | true => rfl
  | false => exact takeSign_digitChars d.nonempty _

theorem readRational?_text (d : Spelling) [Decidable d.Moderate] :
    readRational? d.text = if d.Moderate then some d.value else none := by
  have unsigned := takeUnsigned?_spelling d.whole d.fraction d.nonempty d.exponent?
  have exponent := takeExponent?_chars d.exponent?
  have parts := cut_of_not_mem (slash_not_mem d)
  by_cases small : ∀ e, d.exponent? = some e → fitsSigned64 e.value
  case neg =>
    rw [if_neg small] at exponent
    rw [if_neg fun moderate : d.Moderate => small moderate.1]
    simp [readRational?, parts, takeSign_text, unsigned, exponent]
  rw [if_pos small] at exponent
  have read : readRational? d.text = if d.magnitude = 0 then some 0
      else if d.power.natAbs > fiveLimit ∨ d.power.natAbs > twoLimit then none
        else some (rationalOf d.negative d.magnitude d.power d.power) := by
    have power : -(d.fraction.length : Int) + (d.exponent?.map (·.value)).getD 0 = d.power := by
      rw [Spelling.power]
      omega
    simp [readRational?, parts, takeSign_text, unsigned, exponent, power, Spelling.magnitude]
  rw [read]
  by_cases zero : d.magnitude = 0
  · rw [if_pos zero, if_pos ⟨small, .inl zero⟩, Spelling.value, zero]
    simp
  rw [if_neg zero]
  by_cases bounded : d.power.natAbs ≤ fiveLimit
  · have bounded' : d.power.natAbs ≤ twoLimit := bounded.trans (by decide)
    rw [if_neg (by omega), if_pos ⟨small, .inr bounded⟩, rationalOf_eq]
    rfl
  · rw [if_pos (.inl (by omega)), if_neg fun moderate : d.Moderate => moderate.2.elim zero bounded]

theorem Spelling.Moderate.of_text_eq {c d : Spelling} (moderate : c.Moderate)
    (same : c.text = d.text) : d.Moderate ∧ c.value = d.value := by
  classical
  have read := readRational?_text c
  rw [if_pos moderate, same, readRational?_text d] at read
  by_cases moderate' : d.Moderate
  · rw [if_pos moderate'] at read
    exact ⟨moderate', (some.inj read).symm⟩
  · rw [if_neg moderate'] at read
    cases read

end JsonShape.Number
