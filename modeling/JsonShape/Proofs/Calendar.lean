import JsonShape.Time.Calendar
import Mathlib.Tactic.IntervalCases

/-! The calendar is one to one. An era is four hundred years from a first of March on, in centuries
of 36524 days and cycles of 1461, of which only the last may be a day longer. -/
namespace JsonShape.Time

def Date.valid (d : Date) : Bool :=
  1 ≤ d.month && d.month ≤ 12 && 1 ≤ d.day && d.day ≤ daysInMonth d.year d.month

def daysBefore (year : Nat) : Nat := 365 * year + year / 4 - year / 100

def yearOfEra (day : Nat) : Nat := (day - day / 1460 + day / 36524 - day / 146096) / 365

theorem yearOfEra_cycle {c q j k : Nat} (century : c < 4) (short : 1461 * q + k < 36524)
    (last : j < 4) (low : 365 * j ≤ k) (high : k < 365 * (j + 1) ∨ j = 3 ∧ k = 1460) :
    yearOfEra (36524 * c + 1461 * q + k) = 100 * c + 4 * q + j := by
  have cycles : (36524 * c + 1461 * q + k) / 1460 = 25 * c + q + (24 * c + q + k) / 1460 := by omega
  have centuries : (36524 * c + 1461 * q + k) / 36524 = c := by omega
  have eras : (36524 * c + 1461 * q + k) / 146096 = 0 := by omega
  rw [yearOfEra, cycles, centuries, eras]
  omega

theorem exists_cycle {d : Nat} (bound : d < 146096) :
    ∃ c q j k, d = 36524 * c + 1461 * q + k ∧ c < 4 ∧ 1461 * q + k < 36524 ∧ j < 4 ∧ 365 * j ≤ k ∧
      (k < 365 * (j + 1) ∨ j = 3 ∧ k = 1460) :=
  ⟨d / 36524, d % 36524 / 1461, min (d % 36524 % 1461 / 365) 3,
    d % 36524 % 1461, by omega, by omega, by omega, by omega, by omega,
    by omega⟩

theorem yearOfEra_spec {d : Nat} (bound : d < 146097) :
    yearOfEra d < 400 ∧ daysBefore (yearOfEra d) ≤ d ∧ d ≤ daysBefore (yearOfEra d) + 365 ∧
      (d = daysBefore (yearOfEra d) + 365 → (yearOfEra d + 1) % 4 = 0 ∧
      ((yearOfEra d + 1) % 100 ≠ 0 ∨ yearOfEra d + 1 = 400)) := by
  by_cases final : d = 146096
  · subst final
    decide
  · obtain ⟨c, q, j, k, rfl, century, short, last, low, high⟩ := exists_cycle (d := d) (by omega)
    rw [yearOfEra_cycle century short last low high]
    have quarters : (100 * c + 4 * q + j) / 4 = 25 * c + q := by omega
    have centuries : (100 * c + 4 * q + j) / 100 = c := by omega
    rw [daysBefore, quarters, centuries]
    omega

theorem ofNumber_eq (n : Int) :
    ∃ (era : Int) (year day month : Nat), year < 400 ∧ day ≤ 365 ∧ month < 12 ∧
      n = era * 146097 + daysBefore year + day ∧ (153 * month + 2) / 5 ≤ day ∧
      day < (153 * (month + 1) + 2) / 5 ∧
      (day = 365 → (year + 1) % 4 = 0 ∧ ((year + 1) % 100 ≠ 0 ∨ year + 1 = 400)) ∧
      Date.ofNumber n = ⟨if month < 10 then year + era * 400 else year + era * 400 + 1,
      if month < 10 then month + 3 else month - 9, day - (153 * month + 2) / 5 + 1⟩ := by
  have within : (n - n.fdiv 146097 * 146097).toNat < 146097 := by
    rw [Int.fdiv_eq_ediv_of_nonneg _ (by decide)]
    omega
  have split : n = n.fdiv 146097 * 146097 + ((n - n.fdiv 146097 * 146097).toNat : Int) := by
    rw [Int.fdiv_eq_ediv_of_nonneg _ (by decide)]
    omega
  obtain ⟨early, after, before, leap⟩ := yearOfEra_spec within
  generalize holds : (n - n.fdiv 146097 * 146097).toNat = d at *
  have late : (5 * (d - daysBefore (yearOfEra d)) + 2) / 153 < 12 := by omega
  refine ⟨n.fdiv 146097, yearOfEra d, d - daysBefore (yearOfEra d),
    (5 * (d - daysBefore (yearOfEra d)) + 2) / 153, early, by omega,
    late, by omega, by omega, by omega, fun full => leap (by omega), ?_⟩
  simp only [Date.ofNumber, holds]
  rw [← yearOfEra.eq_1, ← daysBefore.eq_1]
  generalize (5 * (d - daysBefore (yearOfEra d)) + 2) / 153 = month at *
  by_cases spring : month < 10
  · have after : ¬ month + 3 ≤ 2 := by omega
    simp [spring, after]
  · have early : month - 9 ≤ 2 := by omega
    simp [spring, early]

theorem number_ofNumber (n : Int) : (Date.ofNumber n).number = n := by
  obtain ⟨era, year, day, month, early, -, late, eq, low, high, -, date⟩ := ofNumber_eq n
  have counted : (if (if month < 10 then month + 3 else month - 9) ≤ 2
      then (if month < 10 then (year : Int) + era * 400 else year + era * 400 + 1) - 1
      else if month < 10 then (year : Int) + era * 400 else year + era * 400 + 1) = year + era * 400 := by
    split <;> split <;> omega
  have shifted : ((if month < 10 then month + 3 else month - 9) + 9) % 12 = month := by split <;> omega
  rw [date]
  simp only [Date.number, counted, shifted, Int.fdiv_eq_ediv_of_nonneg _ (show (0 : Int) ≤ 4 by decide),
    Int.fdiv_eq_ediv_of_nonneg _ (show (0 : Int) ≤ 100 by decide),
    Int.fdiv_eq_ediv_of_nonneg _ (show (0 : Int) ≤ 400 by decide)]
  rw [daysBefore] at eq
  omega

theorem valid_ofNumber (n : Int) : (Date.ofNumber n).valid = true := by
  obtain ⟨era, year, day, month, early, full, late, -, low, high, leap, date⟩ := ofNumber_eq n
  rw [date]
  by_cases winter : month = 11
  · -- Only February asks how long the year is.
    subst winter
    have leaps : day = 365 → isLeap (year + era * 400 + 1) = true := by
      intro last
      have := leap last
      simp only [isLeap, Bool.and_eq_true, Bool.or_eq_true, beq_iff_eq, bne_iff_ne]
      omega
    by_cases longer : isLeap (year + era * 400 + 1) = true
    · simp [Date.valid, daysInMonth, longer]
      omega
    · have : day ≠ 365 := fun last => longer (leaps last)
      simp [Date.valid, daysInMonth, longer]
      omega
  · simp only [Date.valid, Bool.and_eq_true, decide_eq_true_eq]
    interval_cases month <;> simp [daysInMonth] <;> omega

theorem daysInMonth_le (year : Int) (month : Nat) : daysInMonth year month ≤ 31 := by
  unfold daysInMonth
  split
  · split <;> decide
  all_goals decide

end JsonShape.Time
