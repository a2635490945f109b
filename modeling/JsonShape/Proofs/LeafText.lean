import JsonShape.Proofs.Calendar
import JsonShape.Bytes.Base64
import JsonShape.Time.Moment
import Mathlib.Data.List.Basic
import Mathlib.Tactic.Lift

/-! The texts of leaves are read back: instants and calendar days with four digits of the year, and
bytes in base 64. -/
namespace JsonShape.Time
open Text List Option

variable {w n : Nat}

structure Numeral (w n : Nat) (cs : List Char) : Prop where
  length : cs.length = w
  digits : ∀ c ∈ cs, isDigit c = true
  value : natOfDigits cs = n

theorem padded_numeral (wide : 0 < w) (fits : n < 10 ^ w) : Numeral w n (padded w n) := by
  have short : (Nat.toDigits 10 n).length ≤ w := (Nat.length_toDigits_le_iff (by decide) wide).mpr fits
  have spelled : padded w n = replicate (w - (Nat.toDigits 10 n).length) '0' ++ Nat.toDigits 10 n := by
    have positive : ¬ ((n : Int) < 0) := by omega
    simp [padded, positive]
  rw [spelled]
  refine ⟨by simp; omega, fun c member => ?_, ?_⟩
  · rcases mem_append.mp member with zero | digit
    · rw [(mem_replicate.mp zero).2]
      decide
    · exact Nat.isDigit_of_mem_toDigits (by decide) (by decide) digit
  · calc natOfDigits (replicate (w - (Nat.toDigits 10 n).length) '0' ++ Nat.toDigits 10 n)
        = Nat.ofDigitChars 10 (replicate (w - (Nat.toDigits 10 n).length) '0' ++ Nat.toDigits 10 n) 0 := rfl
      _ = n := by
        rw [Nat.ofDigitChars_append, Nat.ofDigitChars_replicate_zero, Nat.mul_zero,
          Nat.ofDigitChars_toDigits (by decide) (by decide)]

theorem takeTwo?_padded (required : Bool) (fits : n < 100) (rest : List Char) :
    takeTwo? required (padded 2 n ++ rest) = some (n, rest) := by
  obtain ⟨length, digits, value⟩ := padded_numeral (w := 2) (by decide) fits
  obtain ⟨a, b, two⟩ := length_eq_two.mp length
  rw [two] at digits value ⊢
  simp [takeTwo?, digits a (by simp), digits b (by simp), value]

theorem takeChar?_self (c : Char) (rest : List Char) : takeChar? c (c :: rest) = some rest := by
  simp [takeChar?]

theorem takeDate?_text {d : Date} (valid : d.valid = true) (low : 0 ≤ d.year) (high : d.year ≤ 9999)
    (rest : List Char) : takeDate? (d.text ++ rest) = some (d, rest) := by
  obtain ⟨year, month, day⟩ := d
  lift year to Nat using low
  simp only [Date.valid, Bool.and_eq_true, decide_eq_true_eq] at valid high
  have long := daysInMonth_le year month
  obtain ⟨length, digits, value⟩ := padded_numeral (w := 4) (n := year) (by decide) (by omega)
  have all : (padded 4 year).all isDigit = true := all_eq_true.mpr digits
  have text : (⟨year, month, day⟩ : Date).text ++ rest =
      padded 4 year ++ ('-' :: (padded 2 month ++ ('-' :: (padded 2 day ++ rest)))) := by
    simp [Date.text]
  have proper : (month == 0 || decide (month > 12) || day == 0 ||
      decide (day > daysInMonth year month)) = false := by
    simp only [Bool.or_eq_false_iff, beq_eq_false_iff_ne, decide_eq_false_iff_not]
    omega
  rw [text]
  simp only [takeDate?, take_left' length, drop_left' length, length, all, takeChar?_self,
    takeTwo?_padded _ (show month < 100 by omega), takeTwo?_padded _ (show day < 100 by omega),
    value, bind_eq_bind,
    bind_some, proper]
  rfl

def fractionText (nano : Nat) : List Char :=
  let fraction := ((padded 9 nano).reverse.dropWhile (· == '0')).reverse
  if fraction.isEmpty then [] else '.' :: fraction

theorem exists_zeros (cs : List Char) :
    ∃ k, cs = (cs.reverse.dropWhile (· == '0')).reverse ++ replicate k '0' := by
  have zeros : cs.reverse.takeWhile (· == '0') = replicate (cs.reverse.takeWhile (· == '0')).length '0' :=
    eq_replicate_iff.mpr ⟨rfl, fun c member => by simpa using all_eq_true.mp all_takeWhile c member⟩
  refine ⟨(cs.reverse.takeWhile (· == '0')).length, ?_⟩
  calc cs = (cs.reverse.takeWhile (· == '0') ++ cs.reverse.dropWhile (· == '0')).reverse := by
        rw [takeWhile_append_dropWhile, reverse_reverse]
    _ = _ := by rw [reverse_append, zeros, reverse_replicate, length_replicate]

theorem takeFraction_fractionText (fits : n < 10 ^ 9) (rest : List Char) :
    takeFraction (fractionText n ++ 'Z' :: rest) = (n, 'Z' :: rest) := by
  obtain ⟨length, digits, value⟩ := padded_numeral (w := 9) (by decide) fits
  obtain ⟨k, split⟩ := exists_zeros (padded 9 n)
  rw [fractionText]
  generalize ((padded 9 (n : Int)).reverse.dropWhile (· == '0')).reverse = fraction at *
  have total : natOfDigits fraction * 10 ^ k = n := by
    rw [← value, split]
    show Nat.ofDigitChars 10 fraction 0 * 10 ^ k = Nat.ofDigitChars 10 (fraction ++ replicate k '0') 0
    rw [Nat.ofDigitChars_append, Nat.ofDigitChars_replicate_zero, Nat.mul_comm]
  have count : fraction.length + k = 9 := by rw [← length, split, length_append, length_replicate]
  have all : ∀ c ∈ fraction, isDigit c = true :=
    fun c member => digits c (split ▸ mem_append_left _ member)
  cases fraction with
  | nil =>
    obtain rfl : n = 0 := by
      rw [← total]
      simp [natOfDigits]
    cases rest <;> simp [takeFraction]
  | cons d more =>
    have taken : (d :: (more ++ 'Z' :: rest)).takeWhile isDigit = d :: more := by
      rw [← cons_append, takeWhile_append_of_pos all]
      simp [isDigit]
    have left : (d :: (more ++ 'Z' :: rest)).dropWhile isDigit = 'Z' :: rest := by
      rw [← cons_append, dropWhile_append_of_pos all]
      simp [isDigit]
    have kept : (d :: more).take 9 = d :: more := take_of_length_le (by omega)
    have missing : 9 - (d :: more).length = k := by omega
    simp only [isEmpty_cons, Bool.false_eq_true, if_false, cons_append, takeFraction, taken, left,
      kept, missing, Nat.pow_eq,
      total, all d mem_cons_self]
    rfl

variable {t : Moment}

theorem seconds_clock (t : Moment) : t.clock.seconds = t.second + t.zone.offset := by
  simp only [Moment.clock, Clock.seconds, number_ofNumber,
    Int.fdiv_eq_ediv_of_nonneg _ (show (0 : Int) ≤ 86400 by decide)]
  omega

theorem ofClock_clock (t : Moment) : Moment.ofClock t.clock t.zone = t := by
  rw [Moment.ofClock, seconds_clock, Int.add_sub_cancel]
  rfl

theorem clock_bounds (t : Moment) : t.clock.hour < 24 ∧ t.clock.minute < 60 ∧ t.clock.second < 60 := by
  simp only [Moment.clock, Int.fdiv_eq_ediv_of_nonneg _ (show (0 : Int) ≤ 86400 by decide)]
  omega

theorem rfc3339_toUtc (t : Moment) :
    t.toUtc.rfc3339.toList = t.toUtc.clock.date.text ++ 'T' ::
      (padded 2 t.toUtc.clock.hour ++ ':' :: (padded 2 t.toUtc.clock.minute ++ ':' ::
      (padded 2 t.toUtc.clock.second ++ (fractionText t.nano ++ ['Z'])))) := by
  simp [Moment.rfc3339, Clock.timeText, fractionText, Moment.clock, Moment.toUtc, Zone.offset]

theorem ofRfc3339?_rfc3339 (low : 0 ≤ t.toUtc.clock.date.year)
    (high : t.toUtc.clock.date.year ≤ 9999) (fine : t.nano < 10 ^ 9) :
    Moment.ofRfc3339? t.toUtc.rfc3339 = some t.toUtc := by
  obtain ⟨hour, minute, second⟩ := clock_bounds t.toUtc
  have valid : t.toUtc.clock.date.valid = true := valid_ofNumber _
  have proper : (decide (t.toUtc.clock.hour ≥ 24) || decide (t.toUtc.clock.minute ≥ 60) ||
      decide (t.toUtc.clock.second ≥ 60)) =
      false := by
    simp only [Bool.or_eq_false_iff, decide_eq_false_iff_not]
    omega
  simp only [Moment.ofRfc3339?, rfc3339_toUtc, takeDate?_text valid low high, takeChar?_self,
    takeTwo?_padded _ (show t.toUtc.clock.hour < 100 by omega),
    takeTwo?_padded _ (show t.toUtc.clock.minute < 100 by omega),
    takeTwo?_padded _ (show t.toUtc.clock.second < 100 by omega), takeFraction_fractionText fine,
    readZone?, bind_eq_bind,
    bind_some, proper, Bool.false_eq_true, if_false]
  exact congrArg some (ofClock_clock t.toUtc)

def Moment.midnight (t : Moment) : Moment := .ofClock ⟨t.clock.date, 0, 0, 0, 0⟩ .utc

theorem date_midnight (t : Moment) : t.midnight.clock.date = t.clock.date := by
  have number : (t.midnight.second + t.midnight.zone.offset).fdiv 86400 = t.clock.date.number := by
    simp only [Moment.midnight, Moment.ofClock, Clock.seconds, Zone.offset,
      Int.fdiv_eq_ediv_of_nonneg _ (show (0 : Int) ≤ 86400 by decide)]
    omega
  simp only [Moment.clock] at number ⊢
  rw [number, number_ofNumber]

theorem ofDateText?_dateText (low : 0 ≤ t.clock.date.year) (high : t.clock.date.year ≤ 9999) :
    Moment.ofDateText? t.dateText = some t.midnight := by
  have valid : t.clock.date.valid = true := valid_ofNumber _
  have read := takeDate?_text valid low high []
  rw [append_nil] at read
  simp [Moment.ofDateText?, Moment.dateText, read, Moment.midnight]

end JsonShape.Time

namespace JsonShape.Bytes.Base64

theorem value?_digit {n : Nat} (small : n < 64) : value? (digit n) = some n := by decide +revert

theorem digit_plain {n : Nat} (small : n < 64) :
    digit n ≠ '=' ∧ digit n ≠ '\n' ∧ digit n ≠ '\r' := by decide +revert

theorem value?_digit_mod (n : Nat) : value? (digit (n % 64)) = some (n % 64) :=
  value?_digit (Nat.mod_lt n (by decide))

theorem decodeChars?_encodeBytes (bytes : List UInt8) : decodeChars? (encodeBytes bytes) = some bytes := by
  fun_induction encodeBytes bytes with
  | case1 => rfl
  | case2 a n =>
    have := a.toNat_lt
    have first : (n / 262144 % 64 * 262144 + n / 4096 % 64 * 4096) / 65536 = a.toNat := by omega
    simp only [decodeChars?, value?_digit_mod, Option.bind_eq_bind, Option.bind_some]
    rw [first, UInt8.ofNat_toNat]
  | case3 a b n =>
    have := a.toNat_lt
    have := b.toNat_lt
    have third : digit (n / 64 % 64) ≠ '=' := (digit_plain (Nat.mod_lt _ (by decide))).1
    rw [decodeChars?.eq_3 _ _ _ (by simpa using third)]
    have first : (n / 262144 % 64 * 262144 + n / 4096 % 64 * 4096 + n / 64 % 64 * 64) / 65536 =
        a.toNat := by omega
    have second : (n / 262144 % 64 * 262144 + n / 4096 % 64 * 4096 + n / 64 % 64 * 64) / 256 % 256 =
        b.toNat := by omega
    simp only [value?_digit_mod, Option.bind_eq_bind, Option.bind_some]
    rw [first, second, UInt8.ofNat_toNat, UInt8.ofNat_toNat]
  | case4 a b c rest n ih =>
    have := a.toNat_lt
    have := b.toNat_lt
    have := c.toNat_lt
    have last : digit (n % 64) ≠ '=' := (digit_plain (Nat.mod_lt _ (by decide))).1
    rw [decodeChars?.eq_4 _ _ _ _ _ (by simp [last]) (by simp [last])]
    have whole : n / 262144 % 64 * 262144 + n / 4096 % 64 * 4096 + n / 64 % 64 * 64 +
        n % 64 = n := by omega
    have first : n / 65536 = a.toNat := by omega
    have second : n / 256 % 256 = b.toNat := by omega
    have third : n % 256 = c.toNat := by omega
    simp only [value?_digit_mod, ih, Option.bind_eq_bind, Option.bind_some]
    rw [whole, first, second, third, UInt8.ofNat_toNat, UInt8.ofNat_toNat, UInt8.ofNat_toNat]

theorem encodeBytes_unbroken (bytes : List UInt8) :
    ∀ c ∈ encodeBytes bytes, (c != '\n' && c != '\r') = true := by
  have plain : ∀ n, (digit (n % 64) != '\n' && digit (n % 64) != '\r') = true := fun n => by
    simp [(digit_plain (Nat.mod_lt n (by decide))).2]
  fun_induction encodeBytes bytes with
  | case1 => simp
  | case2 a n => simp_all
  | case3 a b n => simp_all
  | case4 a b c rest n ih => simp_all

theorem decode?_encode (bytes : List UInt8) : decode? (encode bytes) = some bytes := by
  rw [decode?, encode, String.toList_ofList, List.filter_eq_self.mpr (encodeBytes_unbroken bytes),
    decodeChars?_encodeBytes]

end JsonShape.Bytes.Base64
