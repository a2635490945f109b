import JsonShape.Proofs.Fingerprint

/-! Tables that cannot be told apart: they answer every look-up alike, and go on to do so whatever
schemas are entered and whatever references are followed. -/
namespace JsonShape.Table
open List Option Entries

variable {corpus : Corpus} {t u : Table}

theorem innermost?_push (t : Table) (e : Entry) (test : Entry → Bool) :
    (t.push e).innermost? test = if test e then some e else t.innermost? test := by
  cases passes : test e with
  | true => simp [innermost?, push, passes]
  | false =>
    have kept : (fun x => decide ((x != e) = true ∧ test x = true)) = test := by
      funext x
      by_cases same : x = e
      · simp [same, passes]
      · simp [same]
    simp only [innermost?, push, reverse_append, reverse_cons, reverse_nil, nil_append,
      singleton_append, find?_cons, passes, Bool.false_eq_true, if_false, ← filter_reverse,
      find?_filter, kept]

theorem get?_fingerprint_push (t : Table) (e : Entry) (key : String) :
    get? (t.push e).fingerprint key = if key ∈ e.keys then some e.node? else get? t.fingerprint key := by
  have read : ∀ v : Table,
      get? v.fingerprint key = (v.innermost? fun x => decide (key ∈ x.keys)).map (·.node?) :=
    fun v => get?_fingerprint fun x _ => by simp
  rw [read, read, innermost?_push]
  by_cases answers : key ∈ e.keys
  · simp [answers]
  · simp [answers]

/-- Tables that answer alike, where a bare name also tells which resource it leads into. -/
structure Alike (t u : Table) : Prop extends Agree t u where
  fingerprint : t.fingerprint = u.fingerprint
  owner : ∀ name, (t.anyDefinition? name).filter (·.node?.isSome) = (u.anyDefinition? name).filter
      (·.node?.isSome)

namespace Alike

theorem refl (t : Table) : t.Alike t :=
  ⟨⟨rfl, fun _ => rfl, fun _ _ => rfl, fun _ => rfl⟩, rfl, fun _ => rfl⟩

theorem scope (alike : t.Alike u) : t.scope = u.scope := by
  unfold Table.scope
  rw [alike.resource]

theorem push (alike : t.Alike u) (e : Entry) : (t.push e).Alike (u.push e) where
  resource := by
    simp only [resource?, innermost?_push]
    rw [← resource?, ← resource?, alike.resource]
  resourceById id := by
    simp only [resourceById?, innermost?_push]
    rw [← resourceById?, ← resourceById?, alike.resourceById]
  definition id name := by
    simp only [definition?, innermost?_push]
    rw [← definition?, ← definition?, alike.definition]
  anyDefinition name := by
    have same := alike.anyDefinition name
    unfold anyDefinition? at same ⊢
    rw [innermost?_push, innermost?_push]
    split_ifs
    · rfl
    · exact same
  fingerprint := by
    apply (ascending_ofList _).ext (ascending_ofList _)
    intro key
    change get? (t.push e).fingerprint key = get? (u.push e).fingerprint key
    rw [get?_fingerprint_push, get?_fingerprint_push, alike.fingerprint]
  owner name := by
    have same := alike.owner name
    unfold anyDefinition? at same ⊢
    rw [innermost?_push, innermost?_push]
    split_ifs
    · rfl
    · exact same

theorem enterSchema (alike : t.Alike u) (k : Keywords Schema) (location : Location) :
    (t.enterSchema k location t.scope).Alike (u.enterSchema k location u.scope) := by
  rw [enterSchema_eq, enterSchema_eq, alike.scope]
  generalize additions k location u.scope = added
  induction added generalizing t u with
  | nil => exact alike
  | cons e rest ih => exact ih (alike.push e)

theorem enter (alike : t.Alike u) (location : Location) :
    (t.enter corpus location).Alike (u.enter corpus location) := by
  unfold Table.enter
  cases corpus.get? location with
  | none => exact alike
  | some s => exact alike.enterSchema s.keywords location

theorem promote (alike : t.Alike u) (id : String) : (t.promote id).Alike (u.promote id) := by
  unfold Table.promote
  rw [alike.resourceById]
  cases u.resourceById? id with
  | none => exact alike
  | some r => exact alike.push r

end Alike

/-- Two ways to follow a reference that end alike: at one schema, with tables that are alike if
there is anything at the end. -/
inductive EndAlike : Option (Option Location × Table) → Option (Option Location × Table) → Prop
  | nowhere : EndAlike none none
  | at {node? : Option Location} {t u : Table} (alike : node?.isSome = true → t.Alike u) :
      EndAlike (some (node?, t)) (some (node?, u))

theorem Alike.bareName (alike : t.Alike u) (name : String) :
    EndAlike ((t.anyDefinition? name).map fun d => (d.node?, t.promote d.id))
      ((u.anyDefinition? name).map fun d => (d.node?, u.promote d.id)) := by
  have nodes := alike.anyDefinition name
  have owners := alike.owner name
  cases found : t.anyDefinition? name with
  | none =>
    rw [found] at nodes
    rw [map_eq_none_iff.mp nodes.symm]
    exact .nowhere
  | some d =>
    rw [found] at nodes owners
    obtain ⟨d', found', same⟩ := map_eq_some_iff.mp nodes.symm
    rw [found'] at owners ⊢
    simp only [map_some, same]
    refine .at fun present => ?_
    obtain rfl : d = d' := by simpa [present, same, Option.filter] using owners
    exact alike.promote d.id

theorem Alike.resolve (alike : t.Alike u) (key : String) :
    EndAlike (t.resolve corpus key) (u.resolve corpus key) := by
  have within (r : Entry) (fragment : List Char) :
      EndAlike ((t.fragment? corpus r fragment).bind fun node? => some (node?, t.push r))
        ((u.fragment? corpus r fragment).bind fun node? => some (node?, u.push r)) := by
    rw [alike.toAgree.fragment]
    cases u.fragment? corpus r fragment with
    | none => exact .nowhere
    | some node? => exact .at fun _ => alike.push r
  unfold Table.resolve
  dsimp only
  split
  · split_ifs
    · rw [alike.resource]
      cases u.resource? with
      | none => exact .nowhere
      | some r => exact .at fun _ => alike
    · rw [alike.resourceById]
      cases u.resourceById? _ with
      | some r => exact .at fun _ => alike.push r
      | none => exact alike.bareName _
  · split_ifs
    · rw [alike.resource]
      cases u.resource? with
      | none => exact .nowhere
      | some r => exact within r _
    · rw [alike.resourceById]
      cases u.resourceById? _ with
      | none => exact .nowhere
      | some r => exact within r _

/-- A definition has one owner: under one name, one schema stands in one resource only. -/
def OneOwner (t : Table) : Prop :=
  ∀ d ∈ t.entries, ∀ d' ∈ t.entries, d.name? = d'.name? → d.name?.isSome = true → d.node? = d'.node? →
    d.node?.isSome = true → d.id = d'.id

instance (t : Table) : Decidable t.OneOwner := by unfold OneOwner; infer_instance

theorem OneOwner.push_resource (single : t.OneOwner) {r : Entry} (resource : r.isResource = true) :
    (t.push r).OneOwner := by
  intro d member d' member' names named nodes present
  have inside : ∀ x ∈ (t.push r).entries, x.name?.isSome = true → x ∈ t.entries := by
    intro x member named
    rcases mem_push.mp member with rfl | inside
    · simp [Entry.isResource, isNone_iff_eq_none] at resource
      simp [resource] at named
    · exact inside
  exact single d (inside d member named) d' (inside d' member' (names ▸ named)) names named nodes present

/-- Definitions belong to the resources that they stand in. -/
def Owned (corpus : Corpus) (t : Table) : Prop :=
  ∀ d ∈ t.entries, d.name?.isSome = true → ∀ location, d.node? = some location →
    ∃ outer step s, location = outer.child step ∧ corpus.get? outer = some s ∧ d.id = s.keywords.id

theorem owned_ofDocuments (ordered : corpus.Ordered) (documents : List Nat) :
    (ofDocuments corpus documents).Owned corpus := by
  apply ofDocuments_induction
  · intro d member
    cases member
  · intro t outer s present owned d member named location node
    rw [enterSchema_eq, mem_foldl_push] at member
    rcases member with added | old
    · rcases mem_append.mp added with resource | defined
      · split_ifs at resource
        · cases resource
        · rw [mem_singleton.mp resource] at named
          cases named
      · obtain ⟨⟨step, name, s?⟩, -, rfl⟩ := mem_map.mp defined
        obtain ⟨-, -, rfl⟩ := map_eq_some_iff.mp node
        exact ⟨outer, step, s, rfl, present ordered, ite_self _⟩
    · rcases mem_push.mp old with rfl | older
      · cases named
      · exact owned d older named location node

theorem Owned.oneOwner (owned : t.Owned corpus) : t.OneOwner := by
  intro d member d' member' names named nodes present
  obtain ⟨location, node⟩ := isSome_iff_exists.mp present
  obtain ⟨outer, step, s, equal, found, id⟩ := owned d member named location node
  obtain ⟨outer', step', s', equal', found', id'⟩ :=
    owned d' member' (names ▸ named) location (nodes ▸ node)
  obtain ⟨numbers, steps⟩ := Location.mk.inj (equal.symm.trans equal')
  obtain rfl : outer = outer' := congrArg₂ Location.mk numbers (append_inj_left' steps rfl)
  rw [id, id', some.inj (found.symm.trans found')]

theorem definition?_of_anyDefinition? {name : String} {d : Entry}
    (found : t.anyDefinition? name = some d) : t.definition? d.id name = some d := by
  unfold anyDefinition? innermost? at found
  unfold definition? innermost?
  obtain ⟨named, before, after, split, earlier⟩ := find?_eq_some_iff_append.mp found
  refine find?_eq_some_iff_append.mpr ⟨by simpa using named, before, after, split, ?_⟩
  intro e member
  have other := earlier e member
  simp only [Bool.not_eq_true', Bool.and_eq_false_iff] at other ⊢
  exact .inl other

theorem Legible.alike (first : t.Legible corpus) (second : u.Legible corpus)
    (equal : t.fingerprint = u.fingerprint) (single : u.OneOwner) : t.Alike u where
  toAgree := first.agree second equal
  fingerprint := equal
  owner name := by
    have agree := first.agree second equal
    have nodes := agree.anyDefinition name
    cases found : t.anyDefinition? name with
    | none =>
      rw [found] at nodes
      rw [map_eq_none_iff.mp nodes.symm]
    | some d =>
      rw [found] at nodes
      obtain ⟨d', found', same⟩ := map_eq_some_iff.mp nodes.symm
      rw [found']
      cases present : d.node? with
      | none => simp [Option.filter, present, same]
      | some location =>
        have owned : u.definition? d.id name = some d :=
          (agree.definition d.id name).symm.trans (definition?_of_anyDefinition? found)
        have there : d ∈ u.entries := innermost?_mem owned
        have named := anyDefinition?_test found
        have named' := anyDefinition?_test found'
        have ids := single d there d' (innermost?_mem found') (named.trans named'.symm)
            (by simp [named]) same.symm
          (by simp [present])
        obtain rfl : d = d' := by cases d; cases d'; simp_all
        rfl

end JsonShape.Table
