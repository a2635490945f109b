import JsonShape.Derivation
import JsonShape.Proofs.Table
import Mathlib.Data.List.Perm.Subperm
import Mathlib.Tactic.Ring

/-! How deep a derivation can go. The tables it works with take their entries from a finite stock,
so there are finitely many keys, and each of them is open at most once. -/
namespace JsonShape
open List Table

theorem Corpus.map_placesFrom (list : List Schema) (start : Nat) :
    ((list.zipIdx start).flatMap fun (s, document) => s.walk.map fun (steps, s) =>
      ((⟨document, steps⟩ : Location), s)).map (fun (location, s) => (location.steps, s)) =
      list.flatMap (·.walk) := by
  induction list generalizing start with
  | nil => simp
  | cons s rest ih => simp [zipIdx_cons, ih, Function.comp_def]

theorem Corpus.map_places (corpus : Corpus) :
    corpus.places.map (fun (location, s) => (location.steps, s)) = corpus.toList.flatMap (·.walk) :=
  map_placesFrom corpus.toList 0

def listsUpTo {α : Type} (elements : List α) : Nat → List (List α)
  | 0 => [[]]
  | n + 1 => [] :: elements.flatMap fun a => (listsUpTo elements n).map (a :: ·)

theorem mem_listsUpTo {α : Type} {elements : List α} {n : Nat} {list : List α} (inside : list ⊆ elements)
    (short : list.length ≤ n) : list ∈ listsUpTo elements n := by
  induction n generalizing list with
  | zero => simp [listsUpTo, length_eq_zero_iff.mp (Nat.le_zero.mp short)]
  | succ n ih =>
    cases list with
    | nil => exact mem_cons_self
    | cons a rest =>
      obtain ⟨here, later⟩ := cons_subset.mp inside
      have known := ih later (Nat.le_of_succ_le_succ short)
      exact mem_cons_of_mem _ (mem_flatMap.mpr ⟨a, here, mem_map.mpr ⟨rest, known, rfl⟩⟩)

theorem length_listsUpTo_le {α : Type} (elements : List α) (n : Nat) :
    (listsUpTo elements n).length ≤ (elements.length + 1) ^ n := by
  induction n with
  | zero => simp [listsUpTo]
  | succ n ih =>
    have positive : 0 < (elements.length + 1) ^ n := Nat.pow_pos (Nat.succ_pos _)
    calc (listsUpTo elements (n + 1)).length = elements.length * (listsUpTo elements n).length + 1 := by
          simp [listsUpTo, length_flatMap]
      _ ≤ elements.length * (elements.length + 1) ^ n + (elements.length + 1) ^ n :=
          Nat.add_le_add (Nat.mul_le_mul_left _ ih) positive
      _ = (elements.length + 1) ^ (n + 1) := by ring

namespace Table

variable {corpus : Corpus} {supply : List Entry} {t u : Table}

def resourceStock (corpus : Corpus) : List Entry :=
  (corpus.places.filter fun (_, s) => s.keywords.id != "").map fun (location, s) =>
    .resource s.keywords.id location

def definitionStock (corpus : Corpus) (owner : String) : List Entry :=
  corpus.places.flatMap fun (location, s) =>
    s.keywords.localDefs.map fun (step, name, s?) =>
      ⟨owner, some name, s?.map fun _ => location.child step⟩

/-- All entries that tables made from a table can have. -/
def stock (corpus : Corpus) (t : Table) : List Entry :=
  let bases := t.entries ++ resourceStock corpus
  bases ++ ("" :: bases.map (·.id)).flatMap (definitionStock corpus)

/-- A stock that entering schemas does not leave. -/
structure Stocked (corpus : Corpus) (supply : List Entry) : Prop where
  resources : ∀ e ∈ resourceStock corpus, e ∈ supply
  unowned : ∀ e ∈ definitionStock corpus "", e ∈ supply
  owned : ∀ r ∈ supply, r.isResource = true → ∀ e ∈ definitionStock corpus r.id, e ∈ supply

theorem stocked_stock (corpus : Corpus) (t : Table) : Stocked corpus (t.stock corpus) where
  resources e member := mem_append_left _ (mem_append_right _ member)
  unowned e member := mem_append_right _ (mem_flatMap.mpr ⟨"", mem_cons_self, member⟩)
  owned r member resource e owned := by
    rcases mem_append.mp member with base | definition
    · exact mem_append_right _
        (mem_flatMap.mpr ⟨r.id, mem_cons_of_mem _ (mem_map.mpr ⟨r, base, rfl⟩), owned⟩)
    · obtain ⟨owner, -, inside⟩ := mem_flatMap.mp definition
      obtain ⟨place, -, listed⟩ := mem_flatMap.mp inside
      obtain ⟨d, -, rfl⟩ := mem_map.mp listed
      cases resource

theorem Stocked.definitions (stocked : Stocked corpus supply) (inside : t.entries ⊆ supply) :
    ∀ e ∈ definitionStock corpus t.scope, e ∈ supply := by
  unfold scope
  cases found : t.resource? with
  | none => exact stocked.unowned
  | some r => exact stocked.owned r (inside (innermost?_mem found)) (resource?_isResource found)

theorem Stocked.additions (stocked : Stocked corpus supply) (inside : t.entries ⊆ supply)
    {location : Location} {s : Schema} (present : corpus.get? location = some s) :
    ∀ e ∈ additions s.keywords location t.scope, e ∈ supply := by
  intro e member
  have place := Corpus.mem_places present
  have own : s.keywords.id ≠ "" → .resource s.keywords.id location ∈ supply := by
    intro named
    apply stocked.resources
    exact mem_map.mpr ⟨(location, s), mem_filter.mpr ⟨place, by simpa using named⟩, rfl⟩
  rcases mem_append.mp member with resource | definition
  · split_ifs at resource with unnamed
    · cases resource
    · rw [mem_singleton.mp resource]
      exact own unnamed
  · obtain ⟨d, listed, rfl⟩ := mem_map.mp definition
    have declared : ∀ owner, (⟨owner, some d.2.1, d.2.2.map fun _ => location.child d.1⟩ : Entry) ∈
        definitionStock corpus owner :=
      fun owner => mem_flatMap.mpr ⟨(location, s), place, mem_map.mpr ⟨d, listed, rfl⟩⟩
    split_ifs with unnamed
    · exact stocked.definitions inside _ (declared t.scope)
    · exact stocked.owned _ (own unnamed) rfl _ (declared s.keywords.id)

def Drawn (supply : List Entry) (t : Table) : Prop := t.entries.Subperm supply

namespace Drawn

theorem push (drawn : t.Drawn supply) {e : Entry} (member : e ∈ supply) : (t.push e).Drawn supply := by
  refine subperm_ext_iff.mpr fun x _ => ?_
  have before := drawn.count_le x
  change (t.entries.filter (· != e) ++ [e]).count x ≤ _
  by_cases same : x = e
  · subst same
    have gone : (t.entries.filter (· != x)).count x = 0 := count_eq_zero.mpr fun kept => by simp at kept
    rw [count_append, gone, count_singleton_self]
    exact count_pos_iff.mpr member
  · rw [count_append, count_filter (by simpa using same), count_singleton,
      if_neg (by simpa using Ne.symm same)]
    exact before

theorem enterSchema (drawn : t.Drawn supply) (stocked : Stocked corpus supply) {location : Location}
    {s : Schema} (present : corpus.get? location = some s) :
    (t.enterSchema s.keywords location t.scope).Drawn supply := by
  rw [enterSchema_eq]
  have members := stocked.additions drawn.subset present
  generalize additions s.keywords location t.scope = added at members
  induction added generalizing t with
  | nil => exact drawn
  | cons e rest ih =>
    obtain ⟨here, later⟩ := forall_mem_cons.mp members
    exact ih (drawn.push here) later

theorem resolve (drawn : t.Drawn supply) {key : String} {node? : Option Location}
    (found : t.resolve corpus key = some (node?, u)) : u.Drawn supply := by
  rcases resolve_table found with rfl | ⟨r, member, -, rfl⟩
  · exact drawn
  · exact drawn.push (drawn.subset member)

end Drawn

theorem drawn_stock (corpus : Corpus) (t : Table) : t.Drawn (t.stock corpus) :=
  ((sublist_append_left _ _).trans (sublist_append_left _ _)).subperm

end Table

namespace Derivation

variable {corpus : Corpus} {supply : List Entry} {keys : List Key} {budget : Nat}
  {location : Location} {s : Schema} {t : Table}

def keyOf (s : Schema) (location : Location) (t : Table) : Key :=
  ⟨location, (t.enterSchema s.keywords location t.scope).fingerprint⟩

def possibleKeys (corpus : Corpus) (supply : List Entry) : List Key :=
  corpus.places.flatMap fun (location, _) =>
    (listsUpTo supply supply.length).map fun entries => ⟨location, fingerprint ⟨entries⟩⟩

theorem keyOf_possible (stocked : Stocked corpus supply) (drawn : t.Drawn supply)
    (present : corpus.get? location = some s) : keyOf s location t ∈ possibleKeys corpus supply := by
  have entered := drawn.enterSchema stocked present
  exact mem_flatMap.mpr ⟨(location, s), Corpus.mem_places present,
    mem_map.mpr ⟨_, mem_listsUpTo entered.subset entered.length_le, rfl⟩⟩

theorem length_possibleKeys_le (corpus : Corpus) (supply : List Entry) :
    (possibleKeys corpus supply).length ≤ corpus.places.length * (supply.length + 1) ^ supply.length := by
  have count : (possibleKeys corpus supply).length = corpus.places.length *
      (listsUpTo supply supply.length).length := by
    simp [possibleKeys, length_flatMap]
  rw [count]
  exact Nat.mul_le_mul_left _ (length_listsUpTo_le supply supply.length)

theorem length_stock (corpus : Corpus) (t : Table) :
    (t.stock corpus).length = t.entries.length + (resourceStock corpus).length +
      (t.entries.length + (resourceStock corpus).length + 1) *
      (definitionStock corpus "").length := by
  have owner : ∀ id, (definitionStock corpus id).length = (definitionStock corpus "").length := by
    intro id
    simp [definitionStock, length_flatMap]
  simp only [stock, length_append, length_flatMap, owner, map_const', sum_replicate_nat,
    length_cons, length_map]

theorem length_resourceStock (corpus : Corpus) :
    ((corpus.toList.flatMap (·.walk)).filter fun (_, s) => s.keywords.id != "").length =
      (resourceStock corpus).length := by
  rw [← corpus.map_places, filter_map, length_map, resourceStock, length_map]
  rfl

theorem length_definitionStock (corpus : Corpus) :
    (corpus.toList.flatMap (·.walk)).foldl (fun n (_, s) => n + s.keywords.localDefs.length) 0 =
      (definitionStock corpus "").length := by
  rw [← corpus.map_places, foldl_map, definitionStock, length_flatMap]
  simp [sum_eq_foldl, foldl_map]

theorem length_possibleKeys_lt (corpus : Corpus) (t : Table) :
    (possibleKeys corpus (t.stock corpus)).length < deriveBudget corpus t := by
  have nodes : (corpus.toList.flatMap (·.walk)).length = corpus.places.length := by
    rw [← corpus.map_places, length_map]
  have bound := length_possibleKeys_le corpus (t.stock corpus)
  unfold deriveBudget
  dsimp only
  rw [length_resourceStock, length_definitionStock, nodes, ← length_stock]
  have base : (t.stock corpus).length + 1 ≤ (t.stock corpus).length + 2 := Nat.le_succ _
  have powers : ((t.stock corpus).length + 1) ^ (t.stock corpus).length ≤
      ((t.stock corpus).length + 2) ^ ((t.stock corpus).length + 2) :=
    (Nat.pow_le_pow_left base _).trans (Nat.pow_le_pow_right (by omega) (by omega))
  have scaled := Nat.mul_le_mul_left corpus.places.length powers
  omega

/-- The budget is larger than the number of keys that are not open yet. -/
structure Room (corpus : Corpus) (supply : List Entry) (keys : List Key) (budget : Nat) : Prop where
  distinct : keys.Nodup
  possible : keys ⊆ possibleKeys corpus supply
  enough : (possibleKeys corpus supply).length < keys.length + budget

theorem room_start (corpus : Corpus) (t : Table) :
    Room corpus (t.stock corpus) [] (deriveBudget corpus t) :=
  ⟨nodup_nil, nil_subset _, by simpa using length_possibleKeys_lt corpus t⟩

theorem Room.pos (room : Room corpus supply keys budget) : 0 < budget := by
  have short := (subperm_of_subset room.distinct room.possible).length_le
  have enough := room.enough
  omega

theorem Room.open_key (room : Room corpus supply keys (budget + 1)) {key : Key} (closed : key ∉ keys)
    (possible : key ∈ possibleKeys corpus supply) : Room corpus supply (key :: keys) budget where
  distinct := nodup_cons.mpr ⟨closed, room.distinct⟩
  possible := cons_subset.mpr ⟨possible, room.possible⟩
  enough := by
    have enough := room.enough
    rw [length_cons]
    omega

end Derivation

end JsonShape
