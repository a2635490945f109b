import JsonShape.Proofs.Interchange

/-! The weak projection has room for both forms: each alternative of a shape and of its strict
projection has a wider one in it. -/
namespace JsonShape

open Conformance List Option

namespace Shape

variable {live : Nat → Prop} {s : Shape}

theorem looser_string {rich : Shape} (flat : rich.isFlat = true) (differ : rich ≠ string) :
    Looser live string (union 0 false [rich, string]) := by
  have tidy : ∀ {s : Shape}, s.isFlat = true → s.Tidy (LiveHandle live) :=
    fun flat => (looser_flat flat).left
  refine ⟨.unionRight (mem_cons_of_mem _ mem_cons_self) (.flat rfl), tidy rfl, .union ?_ ?_⟩
  · exact forall_mem_cons.mpr ⟨tidy flat, forall_mem_singleton.mpr (tidy rfl)⟩
  · refine pairwise_pair.mpr fun alike => ?_
    cases alike
    exact differ rfl

theorem projected_looser (leaves : s.Leaves True live) (free : ∀ t ∈ s.subshapes, t.kind ≠ .intersection) :
    Looser live (s.projected bareLeaf) (s.projected looseLeaf) := by
  induction s using pieces_induction with
  | step s ih =>
    have inner : ∀ p ∈ s.pieces, Looser live (p.projected bareLeaf) (p.projected looseLeaf) :=
      fun p member =>
      ih p member (leaves.piece member) fun t inside =>
        free t (mem_subshapes_iff.mpr (.inr ⟨p, member, inside⟩))
    cases s with
    | dateTime n format => exact looser_string rfl nofun
    | binary => exact looser_string rfl nofun
    | literal n v => exact looser_literal 0 0 (leaves.of_literal trivial)
    | array n items => exact looser_array 0 0 (inner items mem_cons_self)
    | object n props extra? =>
      rw [projected_object, projected_object]
      refine looser_object 0 0 ?_ ?_
      · rw [forall₂_map_left_iff, forall₂_map_right_iff]
        exact forall₂_same.mpr fun p member => ⟨rfl, id, inner _ (mem_pieces_of_mem_props member)⟩
      · cases extra? with
        | none => exact .none
        | some extra => exact .some (inner extra mem_pieces_of_extra)
    | union n inclusive members =>
      have each : Forall₂ (Looser live) (members.map (projected bareLeaf))
          (members.map (projected looseLeaf)) := by
        rw [forall₂_map_left_iff, forall₂_map_right_iff]
        exact forall₂_same.mpr inner
      obtain ⟨_, _, run, run', looser⟩ := gathered_looser each inclusive
      rw [projected_union, projected_union, united_eq run, united_eq run']
      exact looser 0 0
    | intersection n members => exact absurd rfl (free _ (mem_subshapes_self _))
    | handle id => exact looser_handle leaves.of_handle
    | _ => exact looser_flat rfl

theorem widens_projected (leaves : s.Leaves True live) (free : ∀ t ∈ s.subshapes, t.kind ≠ .intersection) :
    Widens (Shared live) s (s.projected looseLeaf) := by
  induction s using pieces_induction with
  | step s ih =>
    have free' : ∀ p ∈ s.pieces, ∀ t ∈ p.subshapes, t.kind ≠ .intersection := fun p member t inside =>
      free t (mem_subshapes_iff.mpr (.inr ⟨p, member, inside⟩))
    have inner : ∀ p ∈ s.pieces, Widens (Shared live) p (p.projected looseLeaf) := fun p member =>
      ih p member (leaves.piece member) (free' p member)
    cases s with
    | dateTime n format => exact .unionRight mem_cons_self (.dateTime n 0 format)
    | binary => exact .unionRight mem_cons_self (.flat rfl)
    | literal n v => exact .literal (leaves.of_literal trivial) (leaves.of_literal trivial) rfl
    | array n items => exact .array (inner items mem_cons_self)
    | object n props extra? =>
      rw [projected_object]
      refine .object_of_forall₂ ?_ ?_
      · rw [forall₂_map_right_iff]
        exact forall₂_same.mpr fun p member => ⟨rfl, id, inner _ (mem_pieces_of_mem_props member)⟩
      · cases extra? with
        | none => exact .none
        | some extra => exact .some (inner extra mem_pieces_of_extra)
    | union n inclusive members =>
      have tidy : ∀ t ∈ members.map (projected looseLeaf), t.Tidy (LiveHandle live) :=
        forall_mem_map.mpr fun m member => (projected_looser (leaves.piece member) (free' m member)).right
      obtain ⟨_, run, wide⟩ := gathered_wide tidy inclusive
      rw [projected_union, united_eq run]
      exact .unionLeft fun m member => (wide 0).2 _ (mem_map_of_mem member) (inner m member)
    | intersection n members => exact absurd rfl (free _ (mem_subshapes_self _))
    | handle id => exact .handle ⟨rfl, leaves.of_handle⟩
    | _ => exact .flat rfl

end Shape

namespace Graph

open Shape

variable {g h : Graph} {s t : Shape} {back : Nat → Nat} {leaf : Shape → Shape}

theorem documented_projected (loosens : Loosens leaf) (documented : g.Documented s) :
    (g.projected leaf).Documented (s.projected leaf) := by
  have leaves : ∀ {r}, g.Reaches s r → (r.projected leaf).Leaves True fun id =>
      g.Reaches s (.handle id) := fun reached =>
    (loosens.projected (leaves_of_reaches (fun _ => documented) reached)).1
  refine documented_of_leaves (fun id t known found => ?_) (leaves .self)
  rw [target?_projected] at found
  obtain ⟨target, bound, rfl⟩ := map_eq_some_iff.mp found
  exact leaves (known.target bound)

theorem Renumbers.conforms_iff (renumbers : Renumbers back g s h t) (left : g.Documented s)
    (right : h.Documented t) {v : Value} :
    conforms g s v = .ok true ↔ conforms h t v = .ok true := by
  have leaves : ∀ {r}, g.Reaches s r → r.Leaves True fun id => g.Reaches s (.handle id) :=
    leaves_of_reaches fun _ => left
  have bound : ∀ id, g.Reaches s (.handle id) → (g.target? id).isSome = (h.target? (back id)).isSome := by
    intro id reached
    rw [renumbers.targets id reached, isSome_map]
  have moved : ∀ {id : Nat} {a b : Shape}, g.Reaches s (.handle id) → g.target? id = some a →
      h.target? (back id) = some b →
      a.Leaves True (fun id => g.Reaches s (.handle id)) ∧ a.rename (fun _ => 0) back = b := by
    intro id a b reached here there
    rw [renumbers.targets id reached, here, map_some] at there
    exact ⟨leaves (reached.target here), some.inj there⟩
  constructor
  · have covers : Covers (fun i j => back i = j ∧ g.Reaches s (.handle i)) g h := by
      refine ⟨?_, ?_, ?_⟩
      · rintro i i' _ ⟨rfl, first⟩ ⟨same, second⟩
        exact (renumbers.apart i' i second first same).symm
      · rintro i _ ⟨rfl, reached⟩
        exact bound i reached
      · rintro i _ ⟨rfl, reached⟩ a b here there
        obtain ⟨inside, rfl⟩ := moved reached here there
        exact .rename_right (fun id known => ⟨rfl, known⟩) inside
    refine conforms_wider covers ?_ right
    rw [← renumbers.shape]
    exact .rename_right (fun id known => ⟨rfl, known⟩) (leaves .self)
  · have covers : Covers (fun i j => i = back j ∧ g.Reaches s (.handle j)) h g := by
      refine ⟨?_, ?_, ?_⟩
      · rintro i i' j ⟨rfl, -⟩ ⟨rfl, -⟩
        rfl
      · rintro _ j ⟨rfl, reached⟩
        exact (bound j reached).symm
      · rintro _ j ⟨rfl, reached⟩ a b here there
        obtain ⟨inside, rfl⟩ := moved reached there here
        exact .rename_left (fun id known => ⟨rfl, known⟩) inside
    refine conforms_wider covers ?_ left
    rw [← renumbers.shape]
    exact .rename_left (fun id known => ⟨rfl, known⟩) (leaves .self)

/-- Both projections succeed, and what passes the check of a shape without intersections or of its
strict projection passes the check of its weak projection. -/
theorem weak_contains (grounded : g.Grounded s) (free : ∀ t, g.Reaches s t → t.kind ≠ .intersection) :
    ∃ t h u k, strict s g = .ok (t, h) ∧ weak s g = .ok (u, k) ∧
      ∀ v, conforms g s v = .ok true ∨ conforms h t v = .ok true → conforms k u v = .ok true := by
  obtain ⟨t, h, _, run, -, ⟨strictDocuments, -⟩, strictly⟩ := mapLeaves_renumbers strictLeaf_draws grounded
  obtain ⟨u, k, _, run', -, ⟨weakDocuments, -⟩, weakly⟩ := mapLeaves_renumbers weakLeaf_draws grounded
  have bare := documented_projected bareLeaf_loosens grounded.documents
  have loose := documented_projected looseLeaf_loosens grounded.documents
  have leaves : ∀ {r}, g.Reaches s r → r.Leaves True fun id => g.Reaches s (.handle id) :=
    leaves_of_reaches fun _ => grounded.documents
  have inside : ∀ {r}, g.Reaches s r → ∀ t ∈ r.subshapes, t.kind ≠ .intersection := fun reached t part =>
    free t (reached.trans (.of_mem_subshapes part))
  refine ⟨t, h, u, k, run, run', fun v => ?_⟩
  rw [weakly.conforms_iff weakDocuments loose, strictly.conforms_iff strictDocuments bare]
  rintro (passes | passes)
  · refine conforms_wider (R := Shared fun id => g.Reaches s (.handle id)) ⟨?_, ?_, ?_⟩
      (widens_projected (leaves .self) (inside .self)) loose passes
    · exact fun first second => first.1.trans second.1.symm
    · rintro id _ ⟨rfl, -⟩
      rw [target?_projected, isSome_map]
    · rintro id _ ⟨rfl, reached⟩ a b here there
      rw [target?_projected, here] at there
      obtain rfl := some.inj there
      exact widens_projected (leaves (reached.target here)) (inside (reached.target here))
  · have relaxes : Relaxes (fun id => g.Reaches s (.handle id)) (g.projected bareLeaf)
        (g.projected looseLeaf) := by
      refine ⟨fun _ => ?_, fun reached a b here there => ?_⟩
      · rw [target?_projected, target?_projected, isSome_map, isSome_map]
      · rw [target?_projected] at here there
        obtain ⟨target, found, rfl⟩ := map_eq_some_iff.mp here
        rw [found] at there
        obtain rfl := some.inj there
        exact projected_looser (leaves (reached.target found)) (inside (reached.target found))
    exact conforms_looser relaxes (projected_looser (leaves .self) (inside .self)) passes

def diaryEntry : Shape :=
  .object 2 [⟨"made", .union 1 false [.dateTime 0 "date-time", .string], false, none⟩,
    ⟨"next", .handle 0, true, none⟩,
    ⟨"seal", .binary, false, none⟩] none

def diary : Graph := ⟨#[⟨"Entry", "", some diaryEntry⟩], 3⟩

def sealedBy (mark : Value) : Value :=
  .map .values [("made", .string ""), ("next", .map .values [("made", .string ""), ("seal", mark)]),
    ("seal", mark)]

theorem diary_contained :
    conforms diary (.handle 0) (sealedBy (.bytes [0])) = .ok true ∧
      ∃ t h u k, strict (.handle 0) diary = .ok (t, h) ∧ weak (.handle 0) diary = .ok (u, k) ∧
      conforms h t (sealedBy (.string "AA==")) = .ok true ∧ conforms k u (sealedBy (.bytes [0])) =
      .ok true ∧ conforms k u (sealedBy (.string "AA==")) = .ok true := by
  have sound : ∀ t ∈ (handle 0).subshapes ++ graphShapes diary, t.kind ≠ .intersection ∧
      t.kind ≠ .literal := by decide +kernel
  have grounded : diary.Grounded (.handle 0) := by
    refine ⟨fun n w reached => absurd rfl (sound _ reached.mem_shapes).2, fun id reached => ?_⟩
    obtain rfl : id = 0 := by
      simpa [diary, diaryEntry, subshapes_eq, pieces, graphShapes] using reached.mem_shapes
    decide
  obtain ⟨t, h, u, k, run, run', contains⟩ :=
    weak_contains grounded fun t reached => (sound t reached.mem_shapes).1
  have own : conforms diary (.handle 0) (sealedBy (.bytes [0])) = .ok true := by cbv
  have passes : (strict (.handle 0) diary >>= fun r => conforms r.2 r.1 (sealedBy (.string "AA==")))
      = .ok true := by cbv
  rw [run] at passes
  exact ⟨own, t, h, u, k, run, run', passes, contains _ (.inl own), contains _ (.inr passes)⟩

end Graph

end JsonShape
