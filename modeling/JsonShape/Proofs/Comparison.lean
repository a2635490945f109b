import JsonShape.Proofs.Literal

/-! Comparing literals one after the other. Equality of literal values is transitive, for documents
and for all other values, and equal values are of one kind. -/
namespace JsonShape
open List Entries

theorem bind_eq_ok_iff {α β : Type} {first : Except Fault α} {next : α → Except Fault β} {b : β} :
    first >>= next = .ok b ↔ ∃ a, first = .ok a ∧ next a = .ok b := by
  cases first with
  | error e => exact iff_of_false (fun equal => nomatch equal) fun ⟨a, equal, _⟩ => nomatch equal
  | ok a => exact ⟨fun equal => ⟨a, rfl, equal⟩, fun ⟨a', equal, later⟩ => Except.ok.inj equal ▸ later⟩

theorem and_eq_ok_true {first second : Except Fault Bool} :
    (do if ← first then second else .ok false) = .ok true ↔ first = .ok true ∧ second = .ok true := by
  rw [bind_eq_ok_iff]
  simp

namespace Value

open Number

variable {x y : Binary} {v w : Value}

theorem binaryEqual_trans {a b c : Binary} (first : binaryEqual a b = true)
    (second : binaryEqual b c = true) : binaryEqual a c = true := by
  unfold binaryEqual at *
  grind

theorem readRational?_zero (negative : Bool) (exponent : Int) :
    readRational? (Binary.text .double (.finite negative 0 exponent)) = some 0 := by
  have written : Binary.text .double (.finite negative 0 exponent) = if negative then
      "-0" else "0" := by cases negative <;> rfl
  rw [written]
  cases negative <;> rfl

theorem eq_of_binaryEqual (equal : binaryEqual x y = true) :
    x = y ∨ ∃ negative exponent, x = .finite negative 0 exponent := by
  unfold binaryEqual at equal
  split at equal
  · cases equal
  · exact .inr ⟨_, _, rfl⟩
  · exact .inl (by simpa using equal)

theorem eq_of_binaryEqual_single (equal : binaryEqual x y = true)
    (unread : (single x).rational? = none) : x = y := by
  rcases eq_of_binaryEqual equal with same | ⟨negative, exponent, rfl⟩
  · exact same
  · obtain ⟨exponent', zero⟩ : ∃ exponent', (Binary.finite negative 0 exponent).rewiden .double =
        .finite negative 0 exponent' := by
      cases exponent <;> simp [Binary.rewiden, scale, Binary.ofFraction?]
    rw [rational?, zero, readRational?_zero] at unread
    cases unread

theorem eq_of_binaryEqual_double (equal : binaryEqual x y = true)
    (unread : (double x).rational? = none) : x = y := by
  rcases eq_of_binaryEqual equal with same | ⟨negative, exponent, rfl⟩
  · exact same
  · rw [rational?, readRational?_zero] at unread
    cases unread

/-- Values that are identical: the same values, equal binary numbers of one width, or
lists of one type that has an equality, with identical items of the same types. -/
inductive Identical : Value → Value → Prop
  | same (v : Value) : Identical v v
  | single {x y : Binary} (equal : binaryEqual x y = true) : Identical (single x) (single y)
  | double {x y : Binary} (equal : binaryEqual x y = true) : Identical (double x) (double y)
  | items {kind : SeqKind} {as bs : List Value} (comparable : kind.isComparable = true)
      (types : as.map type = bs.map type)
      (items : identicalItems as bs = .ok true) : Identical (seq kind as) (seq kind bs)

theorem identical_cases (same : v.identical w = .ok true) : Identical v w := by
  have refl : v = w → Identical v w := fun equal => equal ▸ .same v
  cases v with
  | null | bool | string | namedString | decimal | int | record => cases w <;> simp_all [identical]
  | time t => cases w <;> simp_all [identical, Time.Moment.identical]
  | single x =>
    cases w with
    | single y => exact .single (by simpa [identical] using same)
    | _ => simp [identical] at same
  | double x =>
    cases w with
    | double y => exact .double (by simpa [identical] using same)
    | _ => simp [identical] at same
  | bytes => cases w <;> simp [identical] at same
  | namedBytes type bs =>
    cases w with
    | namedBytes type' bs' =>
      rw [identical] at same
      split_ifs at same
      cases same
    | _ => simp [identical] at same
  | timeRef t? =>
    cases w with
    | timeRef t?' => cases t? <;> cases t?' <;> simp_all [identical]
    | _ => cases t? <;> simp [identical] at same
  | ref target =>
    cases w with
    | ref target' => cases target <;> cases target' <;> simp_all [identical]
    | _ => cases target <;> simp [identical] at same
  | seq kind items =>
    cases w with
    | seq kind' items' =>
      rw [identical] at same
      split_ifs at same with differ comparable types
      · cases same
      · obtain rfl : kind = kind' := by simpa using differ
        exact .items (by simpa using comparable) (by simpa using types) same
      · cases same
    | _ => simp [identical] at same
  | map kind entries =>
    cases w with
    | map kind' entries' =>
      rw [identical] at same
      split_ifs at same
      cases same
    | _ => simp [identical] at same

theorem Identical.of_unread (same : Identical v w) (unread : v.rational? = none) :
    v = w ∨ ∃ type as bs, v = seq (.other type true) as ∧ w = seq (.other type true) bs := by
  cases same with
  | same => exact .inl rfl
  | single equal => exact .inl (congrArg _ (eq_of_binaryEqual_single equal unread))
  | double equal => exact .inl (congrArg _ (eq_of_binaryEqual_double equal unread))
  | @items kind as bs comparable =>
    cases kind with
    | values => cases comparable
    | other type answer =>
      obtain rfl : answer = true := comparable
      exact .inr ⟨type, as, bs, rfl, rfl⟩

mutual
theorem identical_trans {v w x : Value} (first : v.identical w = .ok true)
    (second : w.identical x = .ok true) : v.identical x = .ok true := by
  cases identical_cases first with
  | same => exact second
  | single equal =>
    cases identical_cases second with
    | same => exact first
    | single equal' => exact congrArg _ (binaryEqual_trans equal equal')
  | double equal =>
    cases identical_cases second with
    | same => exact first
    | double equal' => exact congrArg _ (binaryEqual_trans equal equal')
  | items comparable types items =>
    cases identical_cases second with
    | same => exact first
    | items _ types' items' =>
      rw [identical, if_neg (by simp), if_neg (by simpa using comparable),
        if_pos (by simpa using types.trans types')]
      exact identicalItems_trans types items items'

theorem identicalItems_trans {as bs cs : List Value} (types : as.map type = bs.map type)
    (first : identicalItems as bs = .ok true) (second : identicalItems bs cs = .ok true) :
    identicalItems as cs = .ok true := by
  match as, bs, cs with
  | [], _, _ => rw [identicalItems]; simp
  | _ :: _, _, [] => rw [identicalItems]; simp
  | a :: as, b :: bs, c :: cs =>
    rw [identicalItems, and_eq_ok_true] at first second ⊢
    obtain ⟨-, types⟩ := cons.inj types
    exact ⟨identical_trans first.1 second.1, identicalItems_trans types first.2 second.2⟩
end

theorem literalEqual_map_iff {entries : List (String × Value)} :
    (map .values entries).literalEqual w = .ok true ↔ ∃ others, w = map .values others ∧
      entries.length = others.length ∧ entriesEqual entries others = .ok true := by
  by_cases keyed : ∃ others, w = map .values others
  · obtain ⟨others, rfl⟩ := keyed
    rw [literalEqual_map]
    split_ifs with length <;> simp [length]
  · rw [literalEqual_map_other _ (not_exists.mp keyed)]
    simp [not_exists.mp keyed]

theorem literalEqual_seq_iff {items : List Value} :
    (seq .values items).literalEqual w = .ok true ↔ ∃ others, w = seq .values others ∧
      items.length = others.length ∧ itemsEqual items others = .ok true := by
  by_cases listed : ∃ others, w = seq .values others
  · obtain ⟨others, rfl⟩ := listed
    rw [literalEqual_seq]
    split_ifs with length <;> simp [length]
  · rw [literalEqual_seq_other _ (not_exists.mp listed)]
    simp [not_exists.mp listed]

theorem entriesEqual_iff {entries others : List (String × Value)} :
    entriesEqual entries others = .ok true ↔ ∀ entry ∈ entries, ∃ b, get? others entry.1 = some b ∧
      entry.2.literalEqual b = .ok true := by
  induction entries with
  | nil => simp [entriesEqual]
  | cons entry rest ih =>
    rw [entriesEqual, forall_mem_cons, ← ih]
    cases get? others entry.1 with
    | none => simp
    | some b => simp [and_eq_ok_true]

mutual
theorem literalEqual_trans {v w x : Value} (first : v.literalEqual w = .ok true)
    (second : w.literalEqual x = .ok true) : v.literalEqual x = .ok true := by
  cases read : v.rational? with
  | some r =>
    have read' : w.rational? = some r := by simpa [literalEqual.eq_def v, read] using first
    have read'' : x.rational? = some r := by simpa [literalEqual.eq_def w, read'] using second
    simp [literalEqual.eq_def v, read, read'']
  | none =>
    by_cases keyed : ∃ entries, v = map .values entries
    · obtain ⟨entries, rfl⟩ := keyed
      obtain ⟨others, rfl, length, equal⟩ := literalEqual_map_iff.mp first
      obtain ⟨others', rfl, length', equal'⟩ := literalEqual_map_iff.mp second
      exact literalEqual_map_iff.mpr ⟨others', rfl, length.trans length', entriesEqual_trans equal equal'⟩
    by_cases listed : ∃ items, v = seq .values items
    · obtain ⟨items, rfl⟩ := listed
      obtain ⟨others, rfl, length, equal⟩ := literalEqual_seq_iff.mp first
      obtain ⟨others', rfl, length', equal'⟩ := literalEqual_seq_iff.mp second
      exact literalEqual_seq_iff.mpr ⟨others', rfl, length.trans length',
        itemsEqual_trans length equal equal'⟩
    rw [literalEqual_eq_identical read (not_exists.mp keyed) (not_exists.mp listed)] at first ⊢
    rcases (identical_cases first).of_unread read with rfl | ⟨type, as, bs, rfl, rfl⟩
    · rwa [literalEqual_eq_identical read (not_exists.mp keyed) (not_exists.mp listed)] at second
    · rw [literalEqual_eq_identical rfl (by simp) (by simp)] at second
      exact identical_trans first second

theorem itemsEqual_trans {as bs cs : List Value} (length : as.length = bs.length)
    (first : itemsEqual as bs = .ok true) (second : itemsEqual bs cs = .ok true) :
    itemsEqual as cs = .ok true := by
  match as, bs, cs with
  | [], _, _ => rw [itemsEqual]; simp
  | _ :: _, _, [] => rw [itemsEqual]; simp
  | a :: as, b :: bs, c :: cs =>
    rw [itemsEqual, and_eq_ok_true] at first second ⊢
    exact ⟨literalEqual_trans first.1 second.1, itemsEqual_trans (Nat.succ.inj length) first.2 second.2⟩

theorem entriesEqual_trans {as bs cs : List (String × Value)} (first : entriesEqual as bs = .ok true)
    (second : entriesEqual bs cs = .ok true) : entriesEqual as cs = .ok true := by
  match as with
  | [] => rw [entriesEqual]
  | (key, a) :: as =>
    obtain ⟨⟨b, found, equal⟩, later⟩ := forall_mem_cons.mp (entriesEqual_iff.mp first)
    obtain ⟨c, found', equal'⟩ := entriesEqual_iff.mp second (key, b) (mem_of_get?_eq_some found)
    refine entriesEqual_iff.mpr (forall_mem_cons.mpr ⟨⟨c, found', literalEqual_trans equal equal'⟩, ?_⟩)
    exact entriesEqual_iff.mp (entriesEqual_trans (entriesEqual_iff.mpr later) second)
end

theorem literalEqual_of_itemsEqual {as bs : List Value} (equal : itemsEqual as bs = .ok true)
    {i : Nat} {a b : Value} (here : as[i]? = some a) (there : bs[i]? = some b) :
    a.literalEqual b = .ok true := by
  induction as generalizing bs i with
  | nil => cases here
  | cons first as ih =>
    cases bs with
    | nil => cases there
    | cons other bs =>
      rw [itemsEqual, and_eq_ok_true] at equal
      cases i with
      | zero =>
        obtain rfl := Option.some.inj here
        obtain rfl := Option.some.inj there
        exact equal.1
      | succ i => exact ih equal.2 here there

theorem literalKind_of_rational? {r : Rat} (read : v.rational? = some r) : v.literalKind = .number := by
  cases v <;> first | rfl | cases read

theorem literalKind_eq_of_literalEqual (equal : v.literalEqual w = .ok true) :
    v.literalKind = w.literalKind := by
  cases read : v.rational? with
  | some r =>
    have read' : w.rational? = some r := by simpa [literalEqual.eq_def v, read] using equal
    rw [literalKind_of_rational? read, literalKind_of_rational? read']
  | none =>
    by_cases keyed : ∃ entries, v = map .values entries
    · obtain ⟨entries, rfl⟩ := keyed
      obtain ⟨others, rfl, -⟩ := literalEqual_map_iff.mp equal
      rfl
    by_cases listed : ∃ items, v = seq .values items
    · obtain ⟨items, rfl⟩ := listed
      obtain ⟨others, rfl, -⟩ := literalEqual_seq_iff.mp equal
      rfl
    rw [literalEqual_eq_identical read (not_exists.mp keyed) (not_exists.mp listed)] at equal
    rcases (identical_cases equal).of_unread read with rfl | ⟨type, as, bs, rfl, rfl⟩ <;> rfl

theorem matchesLiteral_iff : v.matchesLiteral w = .ok true ↔ v.literalEqual w = .ok true := by
  unfold matchesLiteral
  split_ifs with kinds
  · rfl
  · refine iff_of_false (by simp) fun equal => kinds ?_
    simpa using literalKind_eq_of_literalEqual equal

end Value

end JsonShape
