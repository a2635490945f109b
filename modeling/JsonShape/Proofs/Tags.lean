import JsonShape.Declaration.Render
import JsonShape.Proofs.Spelling
import Mathlib.Tactic.FinCases

/-! Field tags, read back: a quoted text between back quotes, which holds a name and options between
commas. -/
namespace JsonShape.Declaration

open Text Text.Quoted List Option

/-- The text between back quotes, in which carriage returns are left out. -/
def rawText? (cs : List Char) : Option (List Char) := do
  let rest ← dropStart? [Char.ofNat 96] cs
  if (cut (Char.ofNat 96) rest).2 = some [] then
    some ((cut (Char.ofNat 96) rest).1.filter (· != '\r')) else none

def hexNumber? (cs : List Char) : Option Nat := cs.foldlM (fun n c => (hexValue? c).map (16 * n + ·)) 0

/-- The character with the number that some hexadecimal digits spell, and what follows them. -/
def codedChar? (width limit : Nat) (cs : List Char) : Option (Char × List Char) := do
  let n ← if width ≤ cs.length then hexNumber? (cs.take width) else none
  if n < limit && n.isValidChar then some (Char.ofNat n, cs.drop width) else none

def namedChar? (name : Char) : Option Char :=
  ((range 14).find? fun n => shortName? n == some name).map Char.ofNat

/-- The character that an escape stands for after its backslash, and what follows it. Octal numbers
are not read. -/
def escapedChar? : List Char → Option (Char × List Char)
  | [] => none
  | mark :: rest =>
    if mark == '\"' || mark == '\\' then some (mark, rest)
    else if mark == 'x' then codedChar? 2 0x80 rest
    else if mark == 'u' then codedChar? 4 0x110000 rest
    else if mark == 'U' then codedChar? 8 0x110000 rest
    else (namedChar? mark).map (·, rest)

/-- The next character between quotation marks, and what follows it. -/
def quotedChar? : List Char → Option (Char × List Char)
  | [] => none
  | c :: rest =>
    if c == '\"' || c == '\n' then none else if c == '\\' then escapedChar? rest else some (c, rest)

/-- A text up to the quotation mark that ends it, and what follows. The budget is the length of the
text. -/
def unquoted? : Nat → List Char → Option (List Char × List Char)
  | 0, _ => none
  | budget + 1, cs =>
    match quotedChar? cs with
    | some (c, rest) => (unquoted? budget rest).map fun (read, rest) => (c :: read, rest)
    | none => (dropStart? ['\"'] cs).map ([], ·)

inductive TagMeaning where
  | skipped
  | field (name : List Char) (options : List (List Char))
  deriving DecidableEq

def TagMeaning.ofValue (value : List Char) : TagMeaning :=
  if value == ['-'] then
    .skipped else .field (cut ',' value).1 (((cut ',' value).2.map (splitAt ',')).getD [])

def TagMeaning.ofText? (text : String) : Option TagMeaning := do
  let tag ← rawText? text.toList
  let rest ← dropStart? ['j', 's', 'o', 'n', ':', '\"'] tag
  let (value, _) ← unquoted? rest.length rest
  some (.ofValue value)

variable {c name : Char} {n width : Nat}

theorem length_hex (width n : Nat) : (hex width n).length = width := by
  induction width generalizing n with
  | zero => rfl
  | succ width ih => rw [hex, length_append, ih, length_singleton]

theorem mem_hex (member : c ∈ hex width n) : ∃ d < 16, c = hexDigit d := by
  induction width generalizing n with
  | zero => cases member
  | succ width ih =>
    rw [hex, mem_append, mem_singleton] at member
    exact member.elim ih fun last => ⟨_, Nat.mod_lt n (by decide), last⟩

theorem hexNumber?_hex (width n : Nat) : hexNumber? (hex width n) = some (n % 16 ^ width) := by
  have digit : ∀ d < 16, hexValue? (hexDigit d) = some d := by decide
  induction width generalizing n with
  | zero => simp [hex, hexNumber?, Nat.mod_one]
  | succ width ih =>
    have before : (hex width (n / 16)).foldlM (fun n c => (hexValue? c).map (16 * n + ·)) 0 =
        some (n / 16 % 16 ^ width) := ih (n / 16)
    rw [hex, hexNumber?, foldlM_append, before, Nat.pow_succ', Nat.mod_mul]
    simp [digit _ (Nat.mod_lt n (by decide)), Nat.add_comm]

theorem codedChar?_hex {limit : Nat} (small : c.toNat < 16 ^ width) (inside : c.toNat < limit)
    (rest : List Char) : codedChar? width limit (hex width c.toNat ++ rest) = some (c, rest) := by
  have long : width ≤ (hex width c.toNat ++ rest).length := by simp [length_hex]
  have taken : (hex width c.toNat ++ rest).take width = hex width c.toNat := take_left' (length_hex _ _)
  have left : (hex width c.toNat ++ rest).drop width = rest := drop_left' (length_hex _ _)
  have valid : c.toNat.isValidChar := c.valid
  rw [codedChar?, if_pos long, taken, left, hexNumber?_hex, Nat.mod_eq_of_lt small]
  simp [inside, valid]

theorem namedChar?_of_shortName? (named : shortName? n = some name) :
    namedChar? name = some (Char.ofNat n) := by
  unfold shortName? at named
  split_ifs at named <;> cases named <;> simp_all <;> decide

theorem shortName?_letter (named : shortName? n = some name) :
    name ∈ ['a', 'b', 't', 'n', 'v', 'f', 'r'] := by
  unfold shortName? at named
  split_ifs at named <;> cases named <;> decide

theorem quotedChar?_escapeChar (c : Char) (rest : List Char) :
    quotedChar? (escapeChar c ++ rest) = some (c, rest) := by
  have limit : c.toNat < 0x110000 := by
    have valid : c.toNat.isValidChar := c.valid
    rcases valid with low | high <;> omega
  unfold escapeChar
  by_cases mark : c = '\"' ∨ c = '\\'
  · rw [if_pos (by simpa using mark)]
    show escapedChar? (c :: rest) = _
    simp [escapedChar?, mark]
  obtain ⟨quote, slash⟩ := not_or.mp mark
  dsimp only
  rw [if_neg (by simp [quote, slash])]
  by_cases graphic : isGraphic c = true
  · have line : c ≠ '\n' := by
      rintro rfl
      cases graphic
    rw [if_pos graphic]
    simp [quotedChar?, quote, slash, line]
  rw [if_neg graphic]
  cases short : shortName? c.toNat with
  | some name =>
    have letter := shortName?_letter short
    have read : escapedChar? (name :: rest) = (namedChar? name).map (·, rest) := by
      fin_cases letter <;> rfl
    show escapedChar? (name :: rest) = _
    rw [read, namedChar?_of_shortName? short, Char.ofNat_toNat]
    rfl
  | none =>
    dsimp only
    split_ifs with control short
    · have small : c.toNat < 0x80 := by
        simp only [Bool.or_eq_true, decide_eq_true_eq, beq_iff_eq] at control
        omega
      show codedChar? 2 0x80 (hex 2 c.toNat ++ rest) = some (c, rest)
      exact codedChar?_hex (small.trans (by decide)) small rest
    · show codedChar? 4 0x110000 (hex 4 c.toNat ++ rest) = some (c, rest)
      exact codedChar?_hex (short.trans_le (by decide)) limit rest
    · show codedChar? 8 0x110000 (hex 8 c.toNat ++ rest) = some (c, rest)
      exact codedChar?_hex (limit.trans (by decide)) limit rest

theorem unquoted?_written (cs rest : List Char) {budget : Nat}
    (enough : (cs.flatMap escapeChar).length < budget) :
    unquoted? budget (cs.flatMap escapeChar ++ '\"' :: rest) = some (cs, rest) := by
  obtain ⟨budget, rfl⟩ := Nat.exists_eq_succ_of_ne_zero (Nat.ne_of_gt ((Nat.zero_le _).trans_lt enough))
  induction cs generalizing budget with
  | nil => rfl
  | cons c cs ih =>
    have written : 0 < (escapeChar c).length := length_pos_iff.mpr fun empty => by
      have read := quotedChar?_escapeChar c []
      rw [empty] at read
      cases read
    rw [flatMap_cons, length_append] at enough
    obtain ⟨budget, rfl⟩ := Nat.exists_eq_succ_of_ne_zero (show budget ≠ 0 by omega)
    rw [flatMap_cons, append_assoc, unquoted?, quotedChar?_escapeChar]
    dsimp only
    rw [ih budget (by omega)]
    rfl

def escapeMarks : List Char := "\\abtnvfrxuU0123456789abcdef".toList

theorem mem_escapeChar {d : Char} (member : d ∈ escapeChar c) (other : d ∉ escapeMarks) :
    d = c ∧ (c = '\"' ∨ isGraphic c = true) := by
  have coded : ∀ width {mark}, mark ∈ escapeMarks → d ∉ '\\' :: mark :: hex width c.toNat := by
    intro width mark named inside
    have digits : ∀ m < 16, hexDigit m ∈ escapeMarks := by decide
    rcases mem_cons.mp inside with rfl | inside
    · exact other (by decide)
    rcases mem_cons.mp inside with rfl | inside
    · exact other named
    · obtain ⟨m, small, rfl⟩ := mem_hex inside
      exact other (digits m small)
  unfold escapeChar at member
  dsimp only at member
  split_ifs at member with mark graphic
  · simp only [Bool.or_eq_true, beq_iff_eq] at mark
    rcases mem_cons.mp member with rfl | own
    · exact absurd (by decide) other
    · obtain rfl := mem_singleton.mp own
      exact ⟨rfl, mark.imp_right fun slash => absurd (slash ▸ by decide) other⟩
  · exact ⟨mem_singleton.mp member, .inr graphic⟩
  all_goals
    cases short : shortName? c.toNat with
    | some name =>
      rw [short] at member
      have letter : name ∈ escapeMarks := by
        have listed := shortName?_letter short
        fin_cases listed <;> decide
      exact absurd member (coded 0 letter)
    | none =>
      rw [short] at member
      exact absurd member (coded _ (by decide))

theorem cut_append {separator : Char} {cs : List Char} (free : separator ∉ cs) (rest : List Char) :
    cut separator (cs ++ separator :: rest) = (cs, some rest) := by
  induction cs with
  | nil => simp [cut]
  | cons c cs ih =>
    rw [mem_cons, not_or] at free
    simp [cut, Ne.symm free.1, ih free.2]

theorem separator_not_mem_cut (separator : Char) (cs : List Char) : separator ∉ (cut separator cs).1 := by
  induction cs with
  | nil => exact not_mem_nil
  | cons c cs ih =>
    rw [cut]
    split_ifs with same
    · exact not_mem_nil
    · exact not_mem_cons_of_ne_of_not_mem (fun equal => same (beq_iff_eq.mpr equal.symm)) ih

theorem rawText?_backQuoted (text : String) : rawText? (backQuoted text).toList =
    if Char.ofNat 96 ∈ text.toList then none else some (text.toList.filter (· != '\r')) := by
  have spelled : (backQuoted text).toList = Char.ofNat 96 :: (text.toList ++ [Char.ofNat 96]) := by
    simp [backQuoted, String.toList_append]
  have start : dropStart? [Char.ofNat 96] (backQuoted text).toList =
      some (text.toList ++ [Char.ofNat 96]) := by
    rw [spelled]
    rfl
  rw [rawText?, start, bind_eq_bind, bind_some]
  by_cases inside : Char.ofNat 96 ∈ text.toList
  · obtain ⟨before, after, split, free⟩ := eq_append_cons_of_mem inside
    rw [if_pos inside, split, append_assoc, cons_append, cut_append free, if_neg (by simp)]
  · rw [if_neg inside, cut_append inside, if_pos rfl]

def tagValue (name : String) (optional : Bool) : List Char :=
  name.toList ++ if optional then ",omitempty".toList else []

theorem toList_tagText (name : String) (optional : Bool) :
    (tagText name optional).toList = ['j', 's', 'o', 'n', ':', '\"'] ++
      ((tagValue name optional).flatMap escapeChar ++ ['\"']) := by
  have spelled : (if optional then name ++ ",omitempty" else name).toList = tagValue name optional := by
    cases optional <;> simp [tagValue, String.toList_append]
  rw [tagText, String.toList_append, quote, String.toList_ofList, String.toList_ofList, spelled]
  rfl

theorem mem_tagText {name : String} {optional : Bool} (member : c ∈ (tagText name optional).toList)
    (other : c ∉ escapeMarks ++ "json:\",omitempty".toList) : c ∈ name.toList ∧ isGraphic c = true := by
  obtain ⟨plain, other⟩ := not_or.mp (mt mem_append.mpr other)
  have start : ['j', 's', 'o', 'n', ':', '\"'] ⊆ "json:\",omitempty".toList := by decide
  have option : ",omitempty".toList ⊆ "json:\",omitempty".toList := by decide
  rw [toList_tagText, mem_append, mem_append] at member
  rcases member with outside | inside | stop
  · exact absurd (start outside) other
  · obtain ⟨d, listed, written⟩ := mem_flatMap.mp inside
    obtain ⟨rfl, rfl | graphic⟩ := mem_escapeChar written plain
    · exact absurd (by decide) other
    · cases optional with
      | false => exact ⟨by simpa [tagValue] using listed, graphic⟩
      | true => exact ⟨(mem_append.mp listed).resolve_right fun own => other (option own), graphic⟩
  · exact absurd (mem_singleton.mp stop ▸ by decide) other

theorem ofText?_tagText (name : String) (optional : Bool) :
    TagMeaning.ofText? (backQuoted (tagText name optional)) = if Char.ofNat 96 ∈ name.toList then
      none else some (.ofValue (tagValue name optional)) := by
  have ticks : Char.ofNat 96 ∈ (tagText name optional).toList ↔ Char.ofNat 96 ∈ name.toList := by
    refine ⟨fun member => (mem_tagText member (by decide)).1, fun member => ?_⟩
    rw [toList_tagText]
    refine mem_append_right _ (mem_append_left _ (mem_flatMap.mpr ⟨_, mem_append_left _ member, ?_⟩))
    exact mem_cons_self
  have kept : (tagText name optional).toList.filter (· != '\r') = (tagText name optional).toList := by
    refine filter_eq_self.mpr fun c member => bne_iff_ne.mpr ?_
    rintro rfl
    cases (mem_tagText member (by decide)).2
  rw [TagMeaning.ofText?, rawText?_backQuoted]
  by_cases inside : Char.ofNat 96 ∈ name.toList
  · rw [if_pos (ticks.mpr inside), if_pos inside]
    rfl
  · rw [if_neg (mt ticks.mp inside), if_neg inside, kept, toList_tagText, bind_eq_bind, bind_some]
    show (unquoted? _ ((tagValue name optional).flatMap escapeChar ++ ['\"']) >>= _) = _
    rw [unquoted?_written _ _ (by simp)]
    rfl

/-- The tag of a property gives back its name, and says that it may be left out exactly if it is
optional, unless the name has a back quote or a comma in it, or is a dash and the property is not
optional. -/
theorem tag_carries_name_iff (name : String) (optional : Bool) :
    (∃ options, TagMeaning.ofText? (backQuoted (tagText name optional)) =
      some (.field name.toList options) ∧ ("omitempty".toList ∈ options ↔ optional = true)) ↔
      Char.ofNat 96 ∉ name.toList ∧ ',' ∉ name.toList ∧ (name = "-" → optional = true) := by
  rw [ofText?_tagText]
  by_cases inside : Char.ofNat 96 ∈ name.toList
  · rw [if_pos inside]
    constructor
    · rintro ⟨_, read, -⟩
      cases read
    · exact fun allowed => absurd inside allowed.1
  rw [if_neg inside, TagMeaning.ofValue]
  constructor
  · rintro ⟨options, read, -⟩
    split_ifs at read with dash
    · cases read
    obtain ⟨same, -⟩ := TagMeaning.field.inj (some.inj read)
    refine ⟨inside, ?_, ?_⟩
    · exact same ▸ separator_not_mem_cut ',' _
    · rintro rfl
      cases optional with
      | true => rfl
      | false => exact absurd rfl dash
  · rintro ⟨-, comma, named⟩
    cases optional with
    | false =>
      have other : name.toList ≠ ['-'] := by
        intro same
        cases named (String.toList_inj.mp same)
      refine ⟨[], ?_, by simp⟩
      simp [tagValue, other, Number.cut_of_not_mem comma]
    | true =>
      have read : cut ',' (tagValue name true) = (name.toList, some "omitempty".toList) :=
        cut_append comma _
      have other : tagValue name true ≠ ['-'] := fun same => by
        have listed : ',' ∈ tagValue name true := mem_append_right _ (by decide)
        simp [same] at listed
      refine ⟨["omitempty".toList], ?_, by simp⟩
      rw [if_neg (by simpa using other), read]
      rfl

/-- A property that is called as a dash is left out. -/
theorem dash_skipped : TagMeaning.ofText? (backQuoted (tagText "-" false)) = some .skipped := by
  decide +kernel

end JsonShape.Declaration
