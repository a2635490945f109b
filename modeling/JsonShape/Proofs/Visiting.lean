import JsonShape.Proofs.Pieces
import Mathlib.Data.List.Dedup

/-! The visit of a graph. From a shape it comes to what is reached from the shape and to nothing
else, and to each handle once, whatever circles the handles make: the budget never runs out. -/
namespace JsonShape.Graph
open List

variable {g : Graph} {s t p : Shape} {visited roots : List Shape} {id : Nat}

theorem mem_parts : p ∈ g.parts s ↔ p ∈ s.pieces ∨ ∃ id, s = .handle id ∧ g.target? id = some p := by
  cases s with
  | handle id => simp [parts, Shape.pieces]
  | _ => simp [parts, Shape.pieces]

theorem Reaches.part (reached : g.Reaches s t) (member : p ∈ g.parts t) : g.Reaches s p := by
  rcases mem_parts.mp member with piece | ⟨id, rfl, bound⟩
  · exact reached.piece piece
  · exact reached.target bound

def handleId? : Shape → Option Nat
  | .handle id => some id
  | _ => none

def handleIds (shapes : List Shape) : List Nat := shapes.filterMap handleId?

theorem mem_handleIds {shapes : List Shape} : id ∈ handleIds shapes ↔ .handle id ∈ shapes := by
  rw [handleIds, mem_filterMap]
  constructor
  · rintro ⟨t, member, found⟩
    cases t with
    | handle other => exact Option.some.inj found ▸ member
    | _ => cases found
  · exact fun member => ⟨_, member, rfl⟩

theorem handlesIn_eq (g : Graph) (s : Shape) : g.handlesIn s = handleIds (g.walk (fun _ => true) s) := rfl

def isAgain (visited : List Shape) : Shape → Bool
  | .handle id => visited.any fun
    | .handle other => other == id
    | _ => false
  | _ => false

theorem isAgain_iff : isAgain visited s ↔ ∃ id, s = .handle id ∧ id ∈ handleIds visited := by
  cases s with
  | handle id =>
    simp only [isAgain, any_eq_true, mem_handleIds, Shape.handle.injEq]
    constructor
    · rintro ⟨t, member, same⟩
      cases t with
      | handle other => exact ⟨id, rfl, eq_of_beq same ▸ member⟩
      | _ => cases same
    · rintro ⟨_, rfl, member⟩
      exact ⟨_, member, beq_self_eq_true id⟩
  | _ => simp [isAgain]

theorem visit_succ (g : Graph) (budget : Nat) (visited : List Shape) (s : Shape) :
    g.visit (fun _ => true) (budget + 1) visited s =
      if isAgain visited s then visited
      else (g.parts s).foldl (fun visited part => g.visit (fun _ => true) budget visited part)
      (s :: visited) := rfl

def ahead (g : Graph) (visited : List Shape) (s : Shape) : Nat :=
  g.others (handleIds visited) * g.size + s.size

theorem ahead_lt (fresh : ¬ isAgain visited s) (member : p ∈ g.parts s) {visited' : List Shape}
    (more : s :: visited ⊆ visited') : g.ahead visited' p < g.ahead visited s := by
  have fewer : g.others (handleIds visited') ≤ g.others (handleIds (s :: visited)) :=
    others_mono (filterMap_subset _ more)
  rcases mem_parts.mp member with piece | ⟨id, rfl, bound⟩
  · have smaller := Shape.size_lt_of_mem_pieces piece
    have kept : g.others (handleIds (s :: visited)) ≤ g.others (handleIds visited) :=
      others_mono (filterMap_subset _ (subset_cons_self s visited))
    have product := Nat.mul_le_mul_right g.size (fewer.trans kept)
    unfold ahead
    omega
  · have inside : id < g.handles.size := by
      obtain ⟨h, listed, -⟩ := Option.bind_eq_some_iff.mp bound
      exact (Array.getElem?_eq_some_iff.mp listed).1
    have opened := others_cons inside fun known => fresh (isAgain_iff.mpr ⟨id, rfl, known⟩)
    have small := Shape.target_size_le bound
    have product := Nat.mul_le_mul_right g.size (fewer.trans_lt opened)
    have one : (Shape.handle id).size = 1 := rfl
    rw [Nat.succ_mul] at product
    unfold ahead
    omega

/-- Shapes have been visited after others: the new ones are reached from the roots, with their
parts, and no handle twice. -/
structure Explored (g : Graph) (roots visited result : List Shape) : Prop where
  more : visited ⊆ result
  own : roots ⊆ result
  closed : ∀ t ∈ result, t ∈ visited ∨ g.parts t ⊆ result
  reached : ∀ t ∈ result, t ∈ visited ∨ ∃ s ∈ roots, g.Reaches s t
  single : (handleIds visited).Nodup → (handleIds result).Nodup

theorem Explored.nil : Explored g [] visited visited :=
  ⟨Subset.refl _, nil_subset _, fun _ => .inl, fun _ => .inl, id⟩

theorem Explored.append {others result result' : List Shape} (first : Explored g roots visited result)
    (second : Explored g others result result') : Explored g (roots ++ others) visited result' where
  more := Subset.trans first.more second.more
  own := append_subset.mpr ⟨Subset.trans first.own second.more, second.own⟩
  closed := by
    intro t member
    rcases second.closed t member with earlier | inside
    · exact (first.closed t earlier).imp_right fun inside => Subset.trans inside second.more
    · exact .inr inside
  reached := by
    intro t member
    rcases second.reached t member with earlier | ⟨s, root, reached⟩
    · rcases first.reached t earlier with before | ⟨s, root, reached⟩
      · exact .inl before
      · exact .inr ⟨s, mem_append_left _ root, reached⟩
    · exact .inr ⟨s, mem_append_right _ root, reached⟩
  single := second.single ∘ first.single

theorem foldl_explored {f : List Shape → Shape → List Shape} {start : List Shape}
    (each : ∀ s ∈ roots, ∀ visited, start ⊆ visited → Explored g [s] visited (f visited s)) :
    Explored g roots start (roots.foldl f start) := by
  induction roots using reverseRecOn with
  | nil => exact .nil
  | append_singleton roots s ih =>
    rw [foldl_append, foldl_cons, foldl_nil]
    have before := ih fun r member => each r (mem_append_left _ member)
    exact before.append (each s (mem_append_right _ mem_cons_self) _ before.more)

theorem visit_explored (g : Graph) {budget : Nat} (enough : g.ahead visited s < budget) :
    Explored g [s] visited (g.visit (fun _ => true) budget visited s) := by
  induction budget generalizing visited s with
  | zero => omega
  | succ budget ih =>
    rw [visit_succ]
    by_cases again : isAgain visited s
    · rw [if_pos again]
      obtain ⟨id, rfl, known⟩ := isAgain_iff.mp again
      exact ⟨Subset.refl _, cons_subset.mpr ⟨mem_handleIds.mp known, nil_subset _⟩, fun _ =>
        .inl, fun _ => .inl, fun once => once⟩
    · rw [if_neg again]
      have below : Explored g (g.parts s) (s :: visited) _ :=
        foldl_explored (f := fun visited part => g.visit (fun _ => true) budget visited part)
          fun p member visited' more =>
          ih ((ahead_lt again member more).trans_le (Nat.le_of_lt_succ enough))
      refine ⟨Subset.trans (subset_cons_self s visited) below.more, ?_, ?_, ?_, ?_⟩
      · exact cons_subset.mpr ⟨below.more mem_cons_self, nil_subset _⟩
      · intro t member
        rcases below.closed t member with earlier | inside
        · rcases mem_cons.mp earlier with rfl | earlier
          · exact .inr below.own
          · exact .inl earlier
        · exact .inr inside
      · intro t member
        rcases below.reached t member with earlier | ⟨p, part, reached⟩
        · rcases mem_cons.mp earlier with rfl | earlier
          · exact .inr ⟨t, mem_cons_self, .self⟩
          · exact .inl earlier
        · exact .inr ⟨s, mem_cons_self, (Reaches.self.part part).trans reached⟩
      · intro once
        refine below.single ?_
        cases s with
        | handle id => exact nodup_cons.mpr ⟨fun known => again (isAgain_iff.mpr ⟨id, rfl, known⟩), once⟩
        | _ => exact once

theorem ahead_lt_reachBudget (g : Graph) (s : Shape) : g.ahead [] s < g.reachBudget s :=
  others_nil_lt_reachBudget g s

theorem walk_explored (g : Graph) (s : Shape) :
    Explored g [s] [] (g.visit (fun _ => true) (g.reachBudget s) [] s) :=
  visit_explored g (ahead_lt_reachBudget g s)

theorem mem_handlesIn : id ∈ g.handlesIn s ↔ g.Reaches s (.handle id) := by
  have explored := walk_explored g s
  rw [handlesIn_eq, mem_handleIds, walk, mem_reverse]
  constructor
  · intro member
    obtain ⟨r, root, reached⟩ := (explored.reached _ member).resolve_left not_mem_nil
    exact mem_singleton.mp root ▸ reached
  · have parts : ∀ t ∈ g.visit (fun _ => true) (g.reachBudget s) [] s,
        g.parts t ⊆ g.visit (fun _ => true) (g.reachBudget s) [] s :=
      fun t member => (explored.closed t member).resolve_left not_mem_nil
    intro reached
    generalize Shape.handle id = t at reached
    induction reached with
    | self => exact explored.own mem_cons_self
    | piece _ piece ih => exact parts _ ih (mem_parts.mpr (.inl piece))
    | target _ bound ih => exact parts _ ih (mem_parts.mpr (.inr ⟨_, rfl, bound⟩))

theorem nodup_handlesIn (g : Graph) (s : Shape) : (g.handlesIn s).Nodup := by
  rw [handlesIn_eq, walk, handleIds, filterMap_reverse, nodup_reverse]
  exact (walk_explored g s).single nodup_nil

end JsonShape.Graph
