import JsonShape.Proofs.Softening

/-! What the projections of a shape accept, level by level, and how a check of a projected shape
finds it. -/
namespace JsonShape

open Conformance Shape List Entries

/-- Each entry of a value has a name, or no handle of the shape can tell its place wrong. -/
def Told (s : Shape) (v : Value) : Prop := v.labelled = true ∨ ∀ id, .handle id ∉ s.subshapes

namespace Told

variable {s p : Shape} {v w x : Value}

theorem softens (told : Told s v) (softens : v.Softens w) : Told s w := told.imp_left softens.everyMap

end Told

namespace Graph

variable {g : Graph} {leaf : Shape → Shape} {s : Shape} {v w : Value} {n id : Nat}
  {members : List Shape} {props : List (Property Shape)} {extra? : Option Shape} {inclusive : Bool}

theorem reaches_of_projected (loosens : Loosens leaf) (grounded : g.Grounded s)
    (reached : (g.projected leaf).Reaches (s.projected leaf) (.handle id)) : g.Reaches s (.handle id) := by
  have leaves : ∀ {r}, g.Reaches s r → (r.projected leaf).Leaves True fun id =>
      g.Reaches s (.handle id) := fun reached =>
    (loosens.projected (leaves_of_reaches (fun _ => grounded.documents) reached)).1
  refine (reached.leaves (fun id t live found => ?_) (leaves .self)).of_handle
  rw [target?_projected] at found
  obtain ⟨target, bound, rfl⟩ := Option.map_eq_some_iff.mp found
  exact leaves (live.target bound)

def Takes (g : Graph) (leaf : Shape → Shape) (s : Shape) (v : Value) : Prop :=
  Inhabits (g.projected leaf) (s.projected leaf) v

namespace Takes

theorem array_iff {items : Shape} :
    g.Takes leaf (.array n items) v ↔ ∃ vs, v.settle.items? = some vs ∧
    ∀ x ∈ vs, g.Takes leaf items x := Inhabits.array_iff

theorem object_iff :
    g.Takes leaf (.object n props extra?) v ↔ ∃ entries, v.settle.entries? = some entries ∧
      (∀ p ∈ props, get? entries p.name = none → p.optional = true) ∧
      (∀ p ∈ props, ∀ x, get? entries p.name = some x → g.Takes leaf p.shape x) ∧
      ∀ extra, extra? = some extra → ∀ entry ∈ entries, property? props entry.1 = none →
      g.Takes leaf extra entry.2 := by
  rw [Takes, projected_object, Inhabits.object_iff]
  refine exists_congr fun entries => and_congr_right fun _ => and_congr ?_ (and_congr ?_ ?_)
  · rw [forall_mem_map]
    exact Iff.rfl
  · rw [forall_mem_map]
    exact Iff.rfl
  · cases extra? with
    | none => simp
    | some extra =>
      simp only [Option.map_some, Option.some.injEq, forall_eq', property?_map, Option.map_eq_none_iff]
      exact Iff.rfl

theorem entry {es : List (String × Value)}
    (takes : g.Takes leaf (.object n props extra?) (.map .values es)) (ascending : Ascending es)
    {e : String × Value} (member : e ∈ es) (asked : entryShape? props extra? e.1 = some s) :
    g.Takes leaf s e.2 := by
  obtain ⟨_, keyed, -, declared, undeclared⟩ := object_iff.mp takes
  obtain rfl := Option.some.inj keyed
  rcases Option.or_eq_some_iff.mp asked with known | ⟨unknown, extra⟩
  · obtain ⟨prop, found, rfl⟩ := Option.map_eq_some_iff.mp known
    have named : prop.name = e.1 := by simpa using find?_some found
    exact declared prop (mem_of_find?_eq_some found) e.2 (named ▸ get?_eq_some_of_mem ascending member)
  · exact undeclared s extra e member (Option.map_eq_none_iff.mp unknown)

theorem intersection_iff : g.Takes leaf (.intersection n members) v ↔ ∀ m ∈ members, g.Takes leaf m v := by
  rw [Takes, projected_intersection, Inhabits.intersection_iff, forall_mem_map]
  exact Iff.rfl

theorem handle_iff :
    g.Takes leaf (.handle id) v ↔ ∀ target, g.target? id = some target → g.Takes leaf target v := by
  rw [Takes, Shape.projected, Inhabits.handle_iff, target?_projected]
  simp [Takes]

theorem of_union (takes : g.Takes leaf (.union n inclusive members) v) :
    ∃ m ∈ members, g.Takes leaf m v := by
  rw [Takes, projected_union, united] at takes
  cases run : addMembers [] (members.map (Shape.projected leaf)) with
  | error e =>
    rw [run] at takes
    exact absurd takes Inhabits.not_never
  | ok grown? =>
    rw [run] at takes
    obtain ⟨t, mapped, inside⟩ := gathered_drawn run 0 inclusive takes
    obtain ⟨m, member, rfl⟩ := mem_map.mp mapped
    exact ⟨m, member, inside⟩

theorem softens (loosens : Loosens leaf) (grounded : g.Grounded s) (rich : v.Rich)
    (softens : v.Softens w) (takes : g.Takes leaf s v) : g.Takes leaf s w := by
  have leaves : ∀ {t : Shape}, g.Reaches s t → t.Leaves True fun id => g.Reaches s (.handle id) :=
    leaves_of_reaches fun _ => grounded.documents
  obtain ⟨n, within⟩ := Inhabits.exists_within takes
  obtain ⟨own, yields⟩ := loosens.projected (leaves .self)
  refine (yields.within (fun id t live found => ?_) own rich softens within).inhabits
  rw [target?_projected] at found
  obtain ⟨target, bound, rfl⟩ := Option.map_eq_some_iff.mp found
  exact loosens.projected (leaves (live.target bound))

end Takes

variable {live : Nat → Prop}

/-- No two members of an intersection in the shape have the same projection. -/
def Apart (leaf : Shape → Shape) (s : Shape) : Prop :=
  ∀ n members, .intersection n members ∈ s.subshapes →
    (members.map (Shape.projected leaf)).Pairwise fun m n => ¬ Matches m n

theorem Apart.piece {p : Shape} (apart : Apart leaf s) (member : p ∈ s.pieces) : Apart leaf p :=
  fun n members inside => apart n members (mem_subshapes_iff.mpr (.inr ⟨p, member, inside⟩))

theorem projected_neat (loosens : Loosens leaf) (leaves : s.Leaves True live)
    (apart : Apart leaf s) : (s.projected leaf).Neat := by
  induction s using pieces_induction with
  | step s ih =>
    have inside : ∀ p ∈ s.pieces, (p.projected leaf).Leaves True live ∧ (p.projected leaf).Neat :=
      fun p member =>
      ⟨(loosens.projected (leaves.piece member)).1, ih p member (leaves.piece member) (apart.piece member)⟩
    cases s with
    | array n items => exact neat_of_pieces .nil (forall_mem_singleton.mpr (inside items mem_cons_self).2)
    | object n props extra? =>
      refine neat_of_pieces .nil ?_
      rw [pieces_projected_object]
      exact forall_mem_map.mpr fun p member => (inside p member).2
    | union n inclusive members =>
      change ∀ p ∈ members, _ at inside
      obtain ⟨grown?, run, good⟩ :=
        gathered_unites (neat_unites live) inclusive (forall_mem_map.mpr inside)
      rw [projected_union, united_eq run]
      exact (good 0).1.2
    | intersection n members =>
      rw [projected_intersection]
      exact neat_of_pieces (apart n members (mem_subshapes_self _))
        (forall_mem_map.mpr fun p member => (inside p member).2)
    | literal n v =>
      have same : (Shape.literal n v).projected leaf = .literal 0 v := loosens.literal
      rw [same]
      exact neat_of_pieces .nil nofun
    | handle id => exact neat_of_pieces .nil nofun
    | _ => exact loosens.neat rfl

theorem Takes.union (loosens : Loosens leaf) {m : Shape}
    (leaves : (Shape.union n inclusive members).Leaves True live)
    (apart : Apart leaf (.union n inclusive members)) (member : m ∈ members)
    (takes : g.Takes leaf m v) : g.Takes leaf (.union n inclusive members) v := by
  have inside : ∀ p ∈ members, (p.projected leaf).Leaves True live ∧ (p.projected leaf).Neat :=
    fun p member =>
    ⟨(loosens.projected (leaves.piece member)).1, projected_neat loosens (leaves.piece member)
      (apart.piece member)⟩
  obtain ⟨grown?, run, good⟩ := gathered_unites (neat_unites live) inclusive (forall_mem_map.mpr inside)
  rw [Takes, projected_union, united_eq run, (good 0).2]
  exact ⟨_, mem_map.mpr ⟨m, member, rfl⟩, takes⟩

theorem mapLeaves_decides {drawn : Shape → Fresh Shape} (draws : Draws drawn leaf)
    (loosens : Loosens leaf) (grounded : g.Grounded s) (told : Told s v) :
    ∃ t g', (mapLeaves drawn s).run g = .ok (t, g') ∧ Decides (conforms g' t v)
      (g.Takes leaf s v) := by
  obtain ⟨t, g', back, run, -, ⟨documented, -⟩, renumbers⟩ := mapLeaves_renumbers draws grounded
  refine ⟨t, g', run, (conforms_decides_told g' documented
    (told.imp_right fun bare id inside => ?_)).congr (renumbers.inhabits documented)⟩
  have leaves : s.Leaves True fun _ => False :=
    ⟨(leaves_of_reaches (fun _ => grounded.documents) .self : s.Leaves True _).literals, bare⟩
  have moved : Shape.handle (back id) ∈ (s.projected leaf).subshapes :=
    renumbers.shape ▸ mem_subshapes_rename inside
  exact (loosens.projected leaves).1.handles _ moved

end Graph

end JsonShape
