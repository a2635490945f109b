import JsonShape.Proofs.Frames
import JsonShape.Proofs.Meet

/-! Calm derivations: they report nothing, and every frame they open is closed again. -/
namespace JsonShape.Derivation
open List

structure Calm (stack : List Frame) (known : Memo → Prop) (st : State) : Prop where
  going : st.stopped = false
  issues : st.issues = []
  warnings : st.warnings = []
  stack : st.stack = stack
  memo : ∀ m ∈ st.memo, known m

def Keeps {α : Type} (stack : List Frame) (known : Memo → Prop) (f : Derive α) (good : α → Prop) : Prop :=
  ∀ st, Calm stack known st → ∃ a st', f st = .ok (a, st') ∧ Calm stack known st' ∧ good a

namespace Keeps

variable {α β : Type} {stack : List Frame} {known : Memo → Prop} {good : α → Prop} {fine : β → Prop}

theorem pure {a : α} (holds : good a) : Keeps stack known (Pure.pure a) good :=
  fun st calm => ⟨a, st, rfl, calm, holds⟩

theorem imp {f : Derive α} {better : α → Prop} (keeps : Keeps stack known f better)
    (implies : ∀ a, better a → good a) : Keeps stack known f good := by
  intro st calm
  obtain ⟨a, st', equal, calm', holds⟩ := keeps st calm
  exact ⟨a, st', equal, calm', implies a holds⟩

theorem bind {f : Derive α} {next : α → Derive β} (first : Keeps stack known f good)
    (second : ∀ a, good a → Keeps stack known (next a) fine) : Keeps stack known (f >>= next) fine := by
  intro st calm
  obtain ⟨a, st', equal, calm', holds⟩ := first st calm
  obtain ⟨b, st'', equal', calm'', holds'⟩ := second a holds st' calm'
  refine ⟨b, st'', ?_, calm'', holds'⟩
  rw [← equal']
  exact congrArg (fun r => r >>= fun (a, st) => next a st) equal

theorem get {next : State → Derive β} (second : ∀ st, Keeps stack known (next st) fine) :
    Keeps stack known (MonadState.get >>= next) fine :=
  fun st calm => second st st calm

theorem mapM {ι : Type} {f : ι → Derive α} {related : ι → α → Prop} {items : List ι}
    (each : ∀ i ∈ items, Keeps stack known (f i) (related i)) :
    Keeps stack known (items.mapM f) (Forall₂ related items) := by
  induction items with
  | nil => exact pure .nil
  | cons i rest ih =>
    rw [mapM_cons]
    refine bind (each i mem_cons_self) fun a here => ?_
    refine bind (ih (forall_mem_cons.mp each).2) fun as later => ?_
    exact pure (.cons here later)

theorem draw {f : Fresh α} (yields : f.Yields good) : Keeps stack known (Derivation.draw f) good := by
  intro st calm
  obtain ⟨a, next, equal, holds⟩ := yields st.graph.next
  refine ⟨a, { st with graph := { st.graph with next := next } }, ?_,
    ⟨calm.going, calm.issues, calm.warnings, calm.stack, calm.memo⟩, holds⟩
  simp only [Derivation.draw, onGraph, Graph.draw, equal]
  rfl

end Keeps

variable {stack : List Frame} {known : Memo → Prop}

theorem intersect_keeps {a b : Shape} (left : a.Tidy Shape.PlainLeaf) (right : b.Tidy Shape.PlainLeaf) :
    Keeps stack known (intersect a b) (Shape.IsMeet a b) :=
  .get fun st => .draw (Shape.intersect_yields st.graph left right)

theorem intersectAll_keeps {shapes : List Shape} (plain : ∀ s ∈ shapes, s.Tidy Shape.PlainLeaf) :
    Keeps stack known (intersectAll shapes) fun s => s.Tidy Shape.PlainLeaf ∧ ∀ g v, v.Document →
      (Inhabits g s v ↔ ∀ m ∈ shapes, Inhabits g m v) :=
  .get fun st => .draw (Shape.intersectAll_yields st.graph plain)

theorem frame_keeps {key : Key} {table : Table} {title : String} {body : Frame → Derive Result}
    {good : Result → Prop}
    (inside : ∀ f, f.key = key → f.handle? = none → Keeps (f :: stack) known (body f) good)
    (ends : ∀ r, good r → r.2 = none)
    (remembered : ∀ shape, good (shape, none) → known ⟨key, shape, none⟩) :
    Keeps stack known (openFrame key table title >>= fun f => body f >>= closeFrame f) good := by
  intro st calm
  let f : Frame := ⟨st.nextId, st.stack.length, key, table, title, none⟩
  obtain ⟨⟨shape, low?⟩, st', equal, calm', holds⟩ :=
    inside f rfl rfl { st with stack := f :: st.stack, nextId := st.nextId + 1 }
    ⟨calm.going, calm.issues, calm.warnings, by rw [calm.stack], calm.memo⟩
  obtain rfl : low? = none := ends _ holds
  refine ⟨(shape, none),
    { st' with stack := stack, memo := ⟨key, shape, none⟩ :: st'.memo }, ?_, ?_, holds⟩
  · have closed : closeFrame f (shape, none) st' = _ :=
      closeFrame_eq calm'.stack (fun id equal => by cases equal) fun depth equal => by cases equal
    change (body f { st with stack := f :: st.stack, nextId := st.nextId + 1 } >>= fun r =>
      closeFrame f r.1 r.2) = _
    rw [equal]
    exact closed
  · exact ⟨calm'.going, calm'.issues, calm'.warnings, rfl,
      forall_mem_cons.mpr ⟨remembered shape holds, calm'.memo⟩⟩

end JsonShape.Derivation
