import JsonShape.Shape.Reach
import Mathlib.Algebra.Order.BigOperators.Group.List
import Mathlib.Algebra.Order.Group.Nat
import Mathlib.Algebra.Ring.Nat
import Mathlib.Data.Finset.Card

/-! Shapes as trees: the pieces of a shape, induction over them, and the list of all shapes in a
shape. Handles are leaves there; what a shape reaches lies behind them too. -/
namespace JsonShape.Shape
open List

variable {s p q : Shape} {props : List (Property Shape)} {extra? : Option Shape} {n : Nat} {g : Graph}

def pieces : Shape → List Shape
  | array _ items => [items]
  | object _ props extra? => props.map (·.shape) ++ extra?.toList
  | union _ _ members => members
  | intersection _ members => members
  | _ => []

theorem mem_pieces_of_mem_props {p : Property Shape} (member : p ∈ props) :
    p.shape ∈ (object n props extra?).pieces :=
  mem_append_left _ (mem_map.mpr ⟨p, member, rfl⟩)

theorem mem_pieces_of_extra {extra : Shape} : extra ∈ (object n props (some extra)).pieces :=
  mem_append_right _ (mem_singleton.mpr rfl)

theorem forall_mem_pieces_object {P : Shape → Prop} (each : ∀ p ∈ props, P p.shape)
    (extra : ∀ s, extra? = some s → P s) : ∀ p ∈ (object n props extra?).pieces, P p := by
  intro p member
  rcases mem_append.mp member with declared | undeclared
  · obtain ⟨q, listed, rfl⟩ := mem_map.mp declared
    exact each q listed
  · exact extra p (Option.mem_toList.mp undeclared)

theorem membersSize_eq (members : List Shape) : membersSize members = (members.map size).sum := by
  induction members with
  | nil => rfl
  | cons s rest ih => rw [membersSize, ih, map_cons, sum_cons]

theorem propertiesSize_eq (props : List (Property Shape)) :
    propertiesSize props = (props.map (·.shape.size)).sum := by
  induction props with
  | nil => rfl
  | cons p rest ih => rw [propertiesSize, ih, map_cons, sum_cons]

theorem optionSize_eq (s? : Option Shape) : optionSize s? = (s?.toList.map size).sum := by
  cases s? with
  | none => rfl
  | some s => simp [optionSize]

theorem size_eq (s : Shape) : s.size = (s.pieces.map size).sum + 1 := by
  cases s with
  | array n items => simp [size, pieces]
  | object n props extra? =>
    simp [size, pieces, propertiesSize_eq, optionSize_eq, Function.comp_def]
  | union n inclusive members => simp [size, pieces, membersSize_eq]
  | intersection n members => simp [size, pieces, membersSize_eq]
  | _ => rfl

theorem size_lt_of_mem_pieces (member : p ∈ s.pieces) : p.size < s.size := by
  rw [size_eq s]
  exact Nat.lt_succ_of_le (le_sum_of_mem (mem_map.mpr ⟨p, member, rfl⟩))

theorem pieces_induction {motive : Shape → Prop}
    (step : ∀ s : Shape, (∀ p ∈ s.pieces, motive p) → motive s) (s : Shape) : motive s :=
  step s fun p member =>
    have := size_lt_of_mem_pieces member
    pieces_induction step p
termination_by s.size

def subshapes (s : Shape) : List Shape :=
  s :: s.pieces.attach.flatMap fun p => p.1.subshapes
termination_by s.size
decreasing_by exact size_lt_of_mem_pieces p.2

theorem subshapes_eq (s : Shape) : s.subshapes = s :: s.pieces.flatMap subshapes := by
  rw [subshapes]
  simp

theorem mem_subshapes_iff : q ∈ s.subshapes ↔ q = s ∨ ∃ p ∈ s.pieces, q ∈ p.subshapes := by
  rw [subshapes_eq, mem_cons, mem_flatMap]

theorem mem_subshapes_self (s : Shape) : s ∈ s.subshapes := mem_subshapes_iff.mpr (.inl rfl)

theorem mem_subshapes_trans (inside : q ∈ s.subshapes) (deeper : p ∈ q.subshapes) : p ∈ s.subshapes := by
  induction s using pieces_induction with
  | step s ih =>
    rcases mem_subshapes_iff.mp inside with rfl | ⟨r, member, inner⟩
    · exact deeper
    · exact mem_subshapes_iff.mpr (.inr ⟨r, member, ih r member inner⟩)

theorem mem_subshapes_of_mem_pieces (inside : q ∈ s.subshapes) (member : p ∈ q.pieces) : p ∈ s.subshapes :=
  mem_subshapes_trans inside (mem_subshapes_iff.mpr (.inr ⟨p, member, p.mem_subshapes_self⟩))

theorem size_le_of_mem_subshapes (inside : q ∈ s.subshapes) : q.size ≤ s.size := by
  induction s using pieces_induction with
  | step s ih =>
    rcases mem_subshapes_iff.mp inside with rfl | ⟨r, member, inner⟩
    · exact Nat.le_refl _
    · exact (ih r member inner).trans (Nat.le_of_lt (size_lt_of_mem_pieces member))

theorem length_subshapes (s : Shape) : s.subshapes.length = s.size := by
  induction s using pieces_induction with
  | step s ih =>
    rw [subshapes_eq, length_cons, length_flatMap, size_eq, map_congr_left ih]

def graphShapes (g : Graph) : List Shape :=
  g.handles.toList.flatMap fun h => h.target?.toList.flatMap subshapes

theorem length_graphShapes (g : Graph) : (graphShapes g).length = g.size := by
  have each : ∀ h : Handle, (h.target?.toList.flatMap subshapes).length =
      (h.target?.map (·.size)).getD 0 := by
    intro h
    cases h.target? with
    | none => rfl
    | some s => simp [length_subshapes]
  rw [graphShapes, length_flatMap, Graph.size, ← Array.foldl_toList, sum_eq_foldl, foldl_map]
  simp only [each]

theorem subshapes_sublist_graphShapes {h : Handle} (listed : h ∈ g.handles.toList)
    (bound : h.target? = some s) : s.subshapes.Sublist (graphShapes g) := by
  have own : h.target?.toList.flatMap subshapes = s.subshapes := by simp [bound]
  rw [← own]
  exact sublist_flatten_of_mem (mem_map.mpr ⟨h, listed, rfl⟩)

theorem target_size_le {id : Nat} {target : Shape} (bound : g.target? id = some target) :
    target.size ≤ g.size := by
  obtain ⟨h, listed, held⟩ := Option.bind_eq_some_iff.mp bound
  have kept := subshapes_sublist_graphShapes (Array.mem_of_getElem? listed).val held
  calc target.size = target.subshapes.length := (length_subshapes target).symm
    _ ≤ (graphShapes g).length := kept.length_le
    _ = g.size := length_graphShapes g

end JsonShape.Shape

namespace JsonShape.Graph

variable {g : Graph} {s t u : Shape} {id : Nat} {ids : List Nat}

/-- A shape is come to from another through pieces and the targets of handles. -/
inductive Reaches (g : Graph) (s : Shape) : Shape → Prop
  | self : Reaches g s s
  | piece {t p : Shape} (reached : Reaches g s t) (member : p ∈ t.pieces) : Reaches g s p
  | target {id : Nat} {t : Shape} (reached : Reaches g s (.handle id))
      (bound : g.target? id = some t) : Reaches g s t

theorem Reaches.trans (first : g.Reaches s t) (second : g.Reaches t u) : g.Reaches s u := by
  induction second with
  | self => exact first
  | piece _ member ih => exact ih.piece member
  | target _ bound ih => exact ih.target bound

theorem Reaches.of_piece {p : Shape} (member : p ∈ s.pieces) (reached : g.Reaches p t) : g.Reaches s t :=
  (Reaches.self.piece member).trans reached

theorem Reaches.of_target (bound : g.target? id = some s) (reached : g.Reaches s t) :
    g.Reaches (.handle id) t :=
  (Reaches.self.target bound).trans reached

theorem Reaches.of_mem_subshapes (inside : t ∈ s.subshapes) : g.Reaches s t := by
  induction s using Shape.pieces_induction with
  | step s ih =>
    rcases Shape.mem_subshapes_iff.mp inside with rfl | ⟨p, member, deeper⟩
    · exact .self
    · exact (ih p member deeper).of_piece member

theorem Reaches.mem_subshapes (bare : ∀ id, .handle id ∉ s.subshapes) (reached : g.Reaches s t) :
    t ∈ s.subshapes := by
  induction reached with
  | self => exact s.mem_subshapes_self
  | piece _ member ih => exact Shape.mem_subshapes_of_mem_pieces ih member
  | target _ _ ih => exact absurd ih (bare _)

theorem Reaches.mem_shapes (reached : g.Reaches s t) : t ∈ s.subshapes ++ Shape.graphShapes g := by
  rw [List.mem_append]
  induction reached with
  | self => exact .inl s.mem_subshapes_self
  | piece _ member ih =>
    refine ih.imp (Shape.mem_subshapes_of_mem_pieces · member) fun inside => ?_
    simp only [Shape.graphShapes, List.mem_flatMap] at inside ⊢
    obtain ⟨h, listed, target, bound, inside⟩ := inside
    exact ⟨h, listed, target, bound, Shape.mem_subshapes_of_mem_pieces inside member⟩
  | target _ bound =>
    obtain ⟨h, listed, held⟩ := Option.bind_eq_some_iff.mp bound
    exact .inr ((Shape.subshapes_sublist_graphShapes (Array.mem_of_getElem? listed).val held).subset
      (Shape.mem_subshapes_self _))

/-- How many handles of a graph are not in a list. -/
def others (g : Graph) (ids : List Nat) : Nat := (Finset.range g.handles.size \ ids.toFinset).card

theorem others_mono {ids' : List Nat} (more : ids ⊆ ids') : g.others ids' ≤ g.others ids :=
  Finset.card_le_card (Finset.sdiff_subset_sdiff subset_rfl fun id => by simpa using @more id)

theorem others_cons (inside : id < g.handles.size) (new : id ∉ ids) :
    g.others (id :: ids) < g.others ids := by
  refine Finset.card_lt_card ((Finset.ssubset_iff_of_subset ?_).mpr ⟨id, ?_, ?_⟩)
  · exact Finset.sdiff_subset_sdiff subset_rfl (by simp [Finset.subset_insert])
  · simpa [inside] using new
  · simp

theorem others_nil_lt_reachBudget (g : Graph) (s : Shape) :
    g.others [] * g.size + s.size < g.reachBudget s := by
  have all : g.others [] = g.handles.size := by simp [others]
  have product := Nat.mul_le_mul_left g.handles.size (show g.size ≤ g.size + s.size + 1 by omega)
  rw [all, reachBudget, Nat.succ_mul]
  omega

end JsonShape.Graph
