import JsonShape.Conformance
import Mathlib.Data.List.Basic
import Mathlib.Tactic.SplitIfs

/-! Values inside values, and their plain form, in which they are what a check finds in the
value. -/
namespace JsonShape.Value
open List

variable {entries : List (String × Value)} {entry : String × Value} {x : Value} {items vs : List Value}

theorem settle_settle (v : Value) : v.settle.settle = v.settle := by
  fun_induction settle v <;> simp_all [settle]

theorem size_settle_le (v : Value) : v.settle.size ≤ v.size := by
  fun_induction settle v <;> simp_all [size]
  omega

theorem size_lt_of_mem_items {v : Value} (listed : v.items? = some vs) (member : x ∈ vs) :
    x.size < v.size := by
  have inside : ∀ items : List Value, x ∈ items → x.size ≤ itemsSize items := by
    intro items member
    induction items with
    | nil => cases member
    | cons w rest ih =>
      rw [itemsSize]
      rcases mem_cons.mp member with rfl | later
      · exact Nat.le_add_right _ _
      · exact Nat.le_trans (ih later) (Nat.le_add_left _ _)
  cases v <;> simp [items?] at listed
  subst listed
  exact Nat.lt_succ_of_le (inside _ member)

theorem size_lt_of_mem_entries {v : Value} (keyed : v.entries? = some entries)
    (member : entry ∈ entries) : entry.2.size < v.size := by
  have inside : ∀ entries : List (String × Value), entry ∈ entries →
      entry.2.size ≤ entriesSize entries := by
    intro entries member
    induction entries with
    | nil => cases member
    | cons w rest ih =>
      obtain ⟨key, value⟩ := w
      rw [entriesSize]
      rcases mem_cons.mp member with rfl | later
      · exact Nat.le_add_right _ _
      · exact Nat.le_trans (ih later) (Nat.le_add_left _ _)
  cases v <;> simp [entries?] at keyed
  obtain ⟨-, rfl⟩ := keyed
  exact Nat.lt_succ_of_le (inside _ member)

theorem plainItems_eq (items : List Value) : plainItems items = items.map plain := by
  induction items with
  | nil => rfl
  | cons v rest ih => rw [plainItems, ih, map_cons]

theorem plainEntries_eq (entries : List (String × Value)) :
    plainEntries entries = entries.map fun entry => (entry.1, entry.2.plain) := by
  induction entries with
  | nil => rfl
  | cons entry rest ih => rw [plainEntries, ih, map_cons]

theorem plainItems_eq_self_iff : plainItems items = items ↔ ∀ v ∈ items, v.plain = v := by
  have each := map_inj_left (l := items) (f := plain) (g := id)
  rwa [map_id, ← plainItems_eq] at each

theorem plainEntries_eq_self_iff :
    plainEntries entries = entries ↔ ∀ entry ∈ entries, entry.2.plain = entry.2 := by
  have each := map_inj_left (l := entries) (f := fun entry => (entry.1, entry.2.plain)) (g := id)
  rw [map_id, ← plainEntries_eq] at each
  simpa only [id_eq, Prod.ext_iff, true_and] using each

theorem plain_settle (v : Value) : v.settle.plain = v.plain := by
  fun_induction settle v <;> simp_all [plain]

mutual
theorem plain_plain (v : Value) : v.plain.plain = v.plain := by
  match v with
  | ref (some v) =>
    rw [plain]
    exact plain_plain v
  | seq _ items => rw [plain, plain, plainItems_plainItems items]
  | map kind entries =>
    rw [plain]
    split_ifs with keyed
    · rw [plain, if_pos (by decide), plainEntries_plainEntries entries]
    · rw [plain, if_neg keyed]
  | ref none | timeRef (some _) | timeRef none | namedString _ _ => rfl
  | null | bool _ | string _ | decimal _ | int _ _ | single _ | double _ | time _ | bytes
      _ | namedBytes _ _ | record _ _ => rfl

theorem plainItems_plainItems (items : List Value) : plainItems (plainItems items) = plainItems items := by
  match items with
  | [] => rfl
  | v :: rest => rw [plainItems, plainItems, plain_plain v, plainItems_plainItems rest]

theorem plainEntries_plainEntries (entries : List (String × Value)) :
    plainEntries (plainEntries entries) = plainEntries entries := by
  match entries with
  | [] => rfl
  | (_, v) :: rest => rw [plainEntries, plainEntries, plain_plain v, plainEntries_plainEntries rest]
end

theorem items?_plain (v : Value) : v.plain.items? = v.settle.items?.map (List.map plain) := by
  match v with
  | ref (some v) =>
    rw [plain, settle]
    exact items?_plain v
  | seq _ items => exact congrArg some (plainItems_eq items)
  | map kind entries =>
    rw [plain]
    split_ifs <;> rfl
  | ref none | timeRef (some _) | timeRef none => rfl
  | null | bool _ | string _ | namedString _ _ | decimal _ | int _ _ | single _ | double _ | time
      _ | bytes _ | namedBytes _ _ | record _ _ => rfl

theorem entries?_plain (v : Value) :
    v.plain.entries? = v.settle.entries?.map (List.map fun entry => (entry.1, entry.2.plain)) := by
  match v with
  | ref (some v) =>
    rw [plain, settle]
    exact entries?_plain v
  | map kind entries =>
    rw [plain]
    split_ifs with keyed
    · simp [settle, entries?, keyed, show MapKind.values.isKeyedByText = true from rfl, plainEntries_eq]
    · simp [settle, entries?, keyed]
  | ref none | timeRef (some _) | timeRef none | seq _ _ => rfl
  | null | bool _ | string _ | namedString _ _ | decimal _ | int _ _ | single _ | double _ | time
      _ | bytes _ | namedBytes _ _ | record _ _ => rfl

theorem fitsKind_plain (v : Value) (kind : Kind) :
    Conformance.fitsKind v.plain kind = Conformance.fitsKind v.settle kind := by
  match v with
  | ref (some v) =>
    rw [plain, settle]
    exact fitsKind_plain v kind
  | map _ _ =>
    rw [plain]
    split_ifs <;> cases kind <;> rfl
  | ref none | timeRef (some _) | timeRef none | seq _ _ | namedString _ _ => cases kind <;> rfl
  | null | bool _ | string _ | decimal _ | int _ _ | single _ | double _ | time _ | bytes
      _ | namedBytes _ _ | record _ _ => rfl

mutual
/-- Whether the names in every map of a value pass a test. -/
def everyMap (test : List String → Bool) : Value → Bool
  | seq _ items => everyMapItems test items
  | map _ entries => test (entries.map (·.1)) && everyMapEntries test entries
  | ref (some v) => v.everyMap test
  | _ => true

def everyMapItems (test : List String → Bool) : List Value → Bool
  | [] => true
  | v :: rest => v.everyMap test && everyMapItems test rest

def everyMapEntries (test : List String → Bool) : List (String × Value) → Bool
  | [] => true
  | (_, v) :: rest => v.everyMap test && everyMapEntries test rest
end

variable {test : List String → Bool} {v : Value}

theorem everyMapItems_iff : everyMapItems test items = true ↔ ∀ x ∈ items, x.everyMap test = true := by
  induction items with
  | nil => simp [everyMapItems]
  | cons w rest ih => rw [everyMapItems, Bool.and_eq_true, ih, forall_mem_cons]

theorem everyMapEntries_iff :
    everyMapEntries test entries = true ↔ ∀ entry ∈ entries, entry.2.everyMap test = true := by
  induction entries with
  | nil => simp [everyMapEntries]
  | cons entry rest ih => rw [everyMapEntries, Bool.and_eq_true, ih, forall_mem_cons]

theorem everyMap_settle (every : v.everyMap test = true) : v.settle.everyMap test = true := by
  fun_induction settle v <;> simp_all [everyMap]

theorem everyMap_of_mem_items (every : v.everyMap test = true) (listed : v.items? = some vs)
    (member : x ∈ vs) : x.everyMap test = true := by
  cases v <;> simp [items?] at listed
  subst listed
  exact everyMapItems_iff.mp every x member

theorem test_of_entries (every : v.everyMap test = true) (keyed : v.entries? = some entries) :
    test (entries.map (·.1)) = true := by
  cases v <;> simp [entries?] at keyed
  obtain ⟨-, rfl⟩ := keyed
  rw [everyMap, Bool.and_eq_true] at every
  exact every.1

theorem everyMap_of_mem_entries (every : v.everyMap test = true)
    (keyed : v.entries? = some entries) (member : entry ∈ entries) : entry.2.everyMap test = true := by
  cases v <;> simp [entries?] at keyed
  obtain ⟨-, rfl⟩ := keyed
  rw [everyMap, Bool.and_eq_true] at every
  exact everyMapEntries_iff.mp every.2 entry member

def labelled (v : Value) : Bool := v.everyMap fun names => !names.contains ""

def ordered (v : Value) : Bool := v.everyMap fun names => decide (names.Pairwise (· < ·))

end JsonShape.Value
