import JsonShape.Proofs.Alike
import JsonShape.Proofs.Copies
import JsonShape.Proofs.MeetRenaming
import JsonShape.Proofs.SideBySide
import Mathlib.Data.List.Nodup

/-! Two derivations in step, one on the empty graph and one on any graph, with tables that cannot be
told apart. They report the same, and their shapes are the same up to the numbers. -/
namespace JsonShape
open List Shape Derivation

/-- How the numbers of a derivation are moved when it starts on a graph. -/
def Graph.shift (g : Graph) : Shift := ⟨g.next, g.handles.size⟩

structure Keywords.DocumentConstants (k : Keywords Schema) : Prop where
  const : ∀ v, k.const? = some v → v.Document
  enum : ∀ vs, k.enum? = some vs → ∀ v ∈ vs, v.Document

namespace Derivation

variable {top : Frame} {rest : List Frame} {key : Key} {next : Nat} {s : Shape}

def State.Live (st : State) (id : Nat) : Prop :=
  (st.graph.target? id).isSome = true ∨ ∃ f ∈ st.stack, f.handle? = some id

structure Stacked (keys : List Key) (stack : List Frame) (nextId : Nat) : Prop where
  frames : stack.map (·.key) = keys
  ids : (stack.map (·.id)).Nodup
  below : ∀ f ∈ stack, f.id < nextId

structure Sound (strict : Prop) (keys : List Key) (st : State) :
    Prop extends Stacked keys st.stack st.nextId where
  depths : st.stack.map (·.depth) = (range keys.length).reverse
  free : ∀ f ∈ st.stack, ∀ id, f.handle? = some id → id < st.graph.handles.size ∧
      st.graph.target? id = none
  apart : st.stack.Pairwise fun f g => ∀ id, f.handle? = some id → g.handle? ≠ some id
  memo : ∀ m ∈ st.memo, m.shape.Leaves strict st.Live
  bound : ∀ id s, st.graph.target? id = some s → s.Leaves strict st.Live

structure FrameMirrors (d : Shift) (f f' : Frame) : Prop where
  id : f'.id = f.id
  depth : f'.depth = f.depth
  key : f'.key = f.key
  handle : f'.handle? = f.handle?.map (· + d.handles)

def Memo.shift (d : Shift) (m : Memo) : Memo := { m with shape := m.shape.shift d }

/-- Two states in step, where the second derivation started on a graph. -/
structure Mirrors (g : Graph) (strict : Prop) (keys : List Key) (st st' : State) : Prop where
  sound : Sound strict keys st
  next : st'.graph.next = st.graph.next + g.next
  size : st'.graph.handles.size = st.graph.handles.size + g.handles.size
  targets : TargetsFollow g.shift st.graph.target? st'.graph.target?
  old : ∀ id < g.handles.size, st'.graph.target? id = g.target? id
  issues : st'.issues = st.issues
  warnings : st'.warnings = st.warnings
  reported : st'.reported = st.reported
  nextId : st'.nextId = st.nextId
  stopped : st'.stopped = st.stopped
  stack : Forall₂ (FrameMirrors g.shift) st.stack st'.stack
  memo : st'.memo = st.memo.map (.shift g.shift)

structure Paired (supply supply' : List Entry) (t t' : Table) : Prop where
  alike : t.Alike t'
  drawn : t.Drawn supply
  drawn' : t'.Drawn supply'

theorem aliasEnd?_alike {corpus : Corpus} {t t' : Table} (alike : t.Alike t') (budget : Nat)
    (seen : List Location) (location : Location) :
    aliasEnd? corpus budget seen t location = aliasEnd? corpus budget seen t' location := by
  induction budget generalizing t t' seen location with
  | zero => rfl
  | succ budget ih =>
    rw [aliasEnd?, aliasEnd?]
    cases corpus.get? location with
    | none => rfl
    | some s =>
      have ends : Table.EndAlike ((t.enter corpus location).resolve corpus s.keywords.ref)
          ((t'.enter corpus location).resolve corpus s.keywords.ref) := (alike.enter location).resolve _
      simp only [Option.bind_eq_bind, Option.bind_some]
      split_ifs
      · rfl
      · rfl
      · revert ends
        generalize (t.enter corpus location).resolve corpus s.keywords.ref = found,
          (t'.enter corpus location).resolve corpus s.keywords.ref = found'
        rintro (_ | @⟨node?, u, u', alike'⟩)
        · rfl
        · cases node? with
          | none => rfl
          | some target => exact ih (alike' rfl) _ _

/-- Two derivations in step: what is derived, the graph the second starts on, and the stocks of
their tables. -/
structure Course where
  corpus : Corpus
  options : Options
  recalls : Bool
  graph : Graph
  strict : Prop
  supply : List Entry
  supply' : List Entry
  stocked : Table.Stocked corpus supply
  stocked' : Table.Stocked corpus supply'
  documents : strict → ∀ location s, corpus.get? location = some s → s.keywords.DocumentConstants

namespace Course

variable (c : Course)

def pairing : Pairing where
  corpus := c.corpus
  options := c.options
  options' := c.options
  recalls := c.recalls
  table := Paired c.supply c.supply'
  budget keys n n' := Room c.corpus c.supply keys n ∧ Room c.corpus c.supply' keys n'
  state := Mirrors c.graph c.strict
  frame := FrameMirrors c.graph.shift
  live := State.Live
  fault e := e = .incomparable ∧ ¬ c.strict
  shape live s s' := s.Leaves c.strict live ∧ s' = s.shift c.graph.shift
  flag b b' := b' = b
  names _ := True
  constant v := c.strict → v.Document
  meets := True

variable {c} {keys : List Key} {live : Nat → Prop}

theorem draw {f f' : Fresh Shape}
    (follows : ∀ live', live ≤ live' → f.Follows c.graph.shift c.strict (shift c.graph.shift)
      (·.Leaves c.strict live') f') :
    c.pairing.Parallel keys live c.pairing.shape (draw f) (draw f') := by
  intro st st' mirrors already
  have pairs := follows st.Live already st.graph.next
  rw [draw_eq, draw_eq, mirrors.next]
  revert pairs
  change Fresh.Pairs c.graph.shift c.strict _ (·.Leaves c.strict st.Live) (f st.graph.next)
    (f' (st.graph.next + c.graph.next)) → _
  generalize f st.graph.next = result, f' (st.graph.next + c.graph.next) = result'
  rintro (@⟨a, n, holds⟩ | lenient)
  · have sound := mirrors.sound
    refine .ok ?_ already ⟨holds, rfl⟩
    exact { mirrors with
      next := rfl
      sound := { sound with } }
  · exact .fault ⟨rfl, lenient⟩

theorem shapes {ss ss' : List Shape} (each : Forall₂ (c.pairing.shape live) ss ss') :
    (∀ s ∈ ss, s.Leaves c.strict live) ∧ ss' = ss.map (shift c.graph.shift) := by
  induction each with
  | nil => exact ⟨by simp, rfl⟩
  | cons here _ ih => exact ⟨forall_mem_cons.mpr ⟨here.1, ih.1⟩, congrArg₂ cons here.2 ih.2⟩

theorem meet {a a' b b' : Shape} (left : c.pairing.shape live a a') (right : c.pairing.shape live b b') :
    c.pairing.Parallel keys live c.pairing.shape (intersect a b) (intersect a' b') := by
  obtain ⟨left, rfl⟩ := left
  obtain ⟨right, rfl⟩ := right
  intro st st' mirrors already
  have drawn : c.pairing.Parallel keys st.Live c.pairing.shape (Derivation.draw (a.intersect st.graph b))
      (Derivation.draw ((a.shift c.graph.shift).intersect st'.graph (b.shift c.graph.shift))) := by
    refine draw fun live' larger => intersect_follows mirrors.targets (fun id _ s found => ?_) ?_ ?_
    · exact (mirrors.sound.bound id s found).mono larger
    · exact left.mono (already.trans larger)
    · exact right.mono (already.trans larger)
  exact (drawn st st' mirrors le_rfl).weaken already

theorem meetAll {ss ss' : List Shape} (each : Forall₂ (c.pairing.shape live) ss ss') :
    c.pairing.Parallel keys live c.pairing.shape (intersectAll ss) (intersectAll ss') := by
  obtain ⟨leaves, rfl⟩ := shapes each
  intro st st' mirrors already
  have drawn : c.pairing.Parallel keys st.Live c.pairing.shape
      (Derivation.draw (Shape.intersectAll st.graph ss))
      (Derivation.draw (Shape.intersectAll st'.graph (ss.map (Shape.shift c.graph.shift)))) := by
    refine draw fun live' larger =>
      intersectAll_follows mirrors.targets (fun id _ s found => ?_) fun s member => ?_
    · exact (mirrors.sound.bound id s found).mono larger
    · exact (leaves s member).mono (already.trans larger)
  exact (drawn st st' mirrors le_rfl).weaken already

theorem properties {ps ps' : List (Property Shape)} {e e' : Option Shape}
    (each : Forall₂ (c.pairing.Property live) ps ps')
    (extra : Option.Rel (c.pairing.shape live) e e') :
    c.pairing.Parallel keys live c.pairing.shape (Derivation.draw (ofProperties ps e))
      (Derivation.draw (ofProperties ps' e')) := by
  have moved : (∀ p ∈ ps, p.shape.Leaves c.strict live) ∧ ps' = ps.map (.map (shift c.graph.shift)) := by
    induction each with
    | nil => exact ⟨by simp, rfl⟩
    | @cons p p' _ _ here _ ih =>
      have same : p' = p.map (shift c.graph.shift) := by
        cases p'
        exact (Property.mk.injEq ..).mpr ⟨here.name, here.shape.2, here.optional, here.default⟩
      exact ⟨forall_mem_cons.mpr ⟨here.shape.1, ih.1⟩, congrArg₂ cons same ih.2⟩
  obtain ⟨leaves, rfl⟩ := moved
  cases extra with
  | none =>
    exact draw fun _ larger =>
      ofProperties_follows ⟨fun p member => (leaves p member).mono larger, nofun⟩
  | some related =>
    obtain ⟨fine, rfl⟩ := related
    refine draw fun _ larger =>
      ofProperties_follows ⟨fun p member => (leaves p member).mono larger, fun s equal => ?_⟩
    exact Option.some.inj equal ▸ fine.mono larger

theorem modify {f f' : State → State}
    (kept : ∀ st st', Mirrors c.graph c.strict keys st st' → Mirrors c.graph c.strict keys (f st)
      (f' st') ∧ st.Live ≤ (f st).Live) :
    c.pairing.Parallel keys live (fun _ _ _ => True) (MonadState.modifyGet fun s =>
      ((), f s) : Derive Unit) (MonadState.modifyGet fun s => ((), f' s) : Derive Unit) := by
  intro st st' mirrors already
  obtain ⟨mirrors', grows⟩ := kept st st' mirrors
  exact .ok mirrors' (already.trans grows) trivial

theorem report (options : Options) (issue : Issue) :
    c.pairing.Parallel keys live (fun _ _ _ => True) (report options issue) (report options issue) := by
  refine modify fun st st' mirrors => ?_
  have sound := mirrors.sound
  dsimp only
  rw [mirrors.reported]
  split_ifs
  · exact ⟨mirrors, le_rfl⟩
  · refine ⟨{ mirrors with
      sound := { sound with }
      reported := rfl
      issues := by rw [mirrors.issues]
      stopped := by rw [mirrors.stopped] }, le_rfl⟩

theorem malformed (p : Path) (message : String) :
    c.pairing.Parallel keys live c.pairing.Result (malformed c.options p message)
      (malformed c.options p message) := by
  have never : ∀ live, c.pairing.Parallel keys live c.pairing.Result (pure (.never, none))
      (pure (.never, none)) :=
    fun live => .pure fun _ _ => ⟨⟨leaves_flat rfl (by rintro ⟨⟩) (by rintro ⟨⟩), rfl⟩, rfl⟩
  unfold Derivation.malformed
  split_ifs
  · exact .bind (report _ _) fun _ _ live' _ _ => never live'
  · refine .bind (modify fun st st' mirrors => ?_) fun _ _ live' _ _ => never live'
    have sound := mirrors.sound
    exact ⟨{ mirrors with
      sound := { sound with }
      warnings := by rw [mirrors.warnings] }, le_rfl⟩

end Course

variable {g : Graph} {strict : Prop} {keys : List Key} {st st' : State} {f f' : Frame}
  {stack stack' : List Frame} {d : Shift}

namespace Stacked

theorem enter (stacked : Stacked keys st.stack st.nextId) (key : Key) (table : Table) (title : String) :
    Stacked (key :: keys) (st.nextFrame key table title :: st.stack) (st.nextId + 1) where
  frames := congrArg (key :: ·) stacked.frames
  ids := by
    refine nodup_cons.mpr ⟨fun member => ?_, stacked.ids⟩
    obtain ⟨f, inside, same⟩ := mem_map.mp member
    exact absurd (same ▸ stacked.below f inside) (Nat.lt_irrefl _)
  below := forall_mem_cons.mpr ⟨Nat.lt_succ_self _, fun f member =>
      Nat.lt_succ_of_lt (stacked.below f member)⟩

theorem refer (stacked : Stacked keys stack next) (f : Frame) (id : Nat) :
    Stacked keys (stack.map (f.refer id)) next where
  frames := by
    rw [map_map, ← stacked.frames]
    exact map_congr_left fun x _ => f.refer_key _ x
  ids := by
    have same : (stack.map (f.refer id)).map (·.id) = stack.map (·.id) := by
      rw [map_map]
      exact map_congr_left fun x _ => f.refer_id _ x
    exact same ▸ stacked.ids
  below := forall_mem_map.mpr fun x inside => (f.refer_id _ x).symm ▸ stacked.below x inside

theorem eq_of_id (stacked : Stacked keys stack next) (member : f ∈ stack) (member' : f' ∈ stack)
    (same : f.id = f'.id) : f = f' :=
  inj_on_of_nodup_map stacked.ids member member' same

theorem handle_refer {id new : Nat} (stacked : Stacked keys stack next) (member : f ∈ stack)
    (unknown : f.handle? = none) (handled : ∃ x ∈ stack, x.handle? = some id) :
    ∃ x ∈ stack.map (f.refer new), x.handle? = some id := by
  obtain ⟨x, inside, handle⟩ := handled
  have other : x.id ≠ f.id := by
    intro same
    rw [stacked.eq_of_id inside member same, unknown] at handle
    cases handle
  exact ⟨_, mem_map.mpr ⟨x, inside, rfl⟩, by rw [Frame.refer_handle?, if_neg other, handle]⟩

theorem close (stacked : Stacked (key :: keys) (top :: rest) next) :
    top.key = key ∧ Stacked keys rest next :=
  ⟨(cons.inj stacked.frames).1, (cons.inj stacked.frames).2, (nodup_cons.mp stacked.ids).2,
    (forall_mem_cons.mp stacked.below).2⟩

end Stacked

theorem frameAt?_mirrors (mirrors : Forall₂ (FrameMirrors d) stack stack') (depth : Nat) :
    frameAt? stack' depth = frameAt? stack depth := by
  have found := find?_related mirrors fun f f' same =>
      show (f'.depth == depth) = (f.depth == depth) by rw [same.depth]
  unfold frameAt?
  revert found
  generalize stack.find? (·.depth == depth) = first, stack'.find? (·.depth == depth) = second
  rintro (same | _)
  · exact congrArg some same.id
  · rfl

theorem State.live_enter (st : State) (f : Frame) : st.Live ≤ (st.enter f).Live := by
  rintro id (bound | ⟨f, member, handle⟩)
  · exact .inl bound
  · exact .inr ⟨f, mem_cons_of_mem _ member, handle⟩

theorem Mirrors.enter (mirrors : Mirrors g strict keys st st') (key : Key) (table table' : Table)
    (title : String) :
    Mirrors g strict (key :: keys) (st.enter (st.nextFrame key table title))
      (st'.enter (st'.nextFrame key table' title)) := by
  have sound := mirrors.sound
  have live := st.live_enter (st.nextFrame key table title)
  have length : st.stack.length = keys.length := by rw [← sound.frames, length_map]
  exact { mirrors with
    nextId := congrArg (· + 1) mirrors.nextId
    stack := .cons ⟨mirrors.nextId, mirrors.stack.length_eq.symm, rfl, rfl⟩ mirrors.stack
    sound := { sound.enter key table title with
      depths := by
        change st.stack.length :: st.stack.map (·.depth) = _
        rw [sound.depths, length, length_cons, range_succ, reverse_append]
        rfl
      free := forall_mem_cons.mpr ⟨nofun, sound.free⟩
      apart := .cons (fun _ _ _ => nofun) sound.apart
      memo := fun m member => (sound.memo m member).mono live
      bound := fun id s found => (sound.bound id s found).mono live } }

theorem Sound.refer (sound : Sound strict keys st) (member : f ∈ st.stack) (unknown : f.handle? = none)
    (names : List (String × Nat)) (name ref : String) : Sound strict keys (st.refer f names name ref) ∧
      ∀ id, st.Live id ∨ id = st.graph.handles.size → (st.refer f names name ref).Live id := by
  have live : ∀ id, st.Live id ∨ id = st.graph.handles.size → (st.refer f names name ref).Live id := by
    rintro id ((bound | handled) | rfl)
    · exact .inl (by rwa [Graph.target?_declare])
    · exact .inr (sound.handle_refer member unknown handled)
    · refine .inr ⟨_, mem_map.mpr ⟨f, member, rfl⟩, ?_⟩
      rw [Frame.refer_handle?, if_pos rfl]
  refine ⟨⟨sound.toStacked.refer f _, ?_, ?_, ?_, ?_, ?_⟩, live⟩
  · rw [map_map, ← sound.depths]
    exact map_congr_left fun x _ => f.refer_depth _ x
  · intro x listed id handle
    obtain ⟨y, inside, rfl⟩ := mem_map.mp listed
    rw [Frame.refer_handle?] at handle
    rw [Graph.size_declare, Graph.target?_declare]
    split_ifs at handle
    · obtain rfl := Option.some.inj handle
      exact ⟨Nat.lt_succ_self _, st.graph.target?_eq_none (Nat.le_refl _)⟩
    · obtain ⟨known, free⟩ := sound.free y inside id handle
      exact ⟨Nat.lt_succ_of_lt known, free⟩
  · rw [pairwise_map]
    have apart := (pairwise_map.mp sound.ids).and sound.apart
    refine apart.imp_of_mem fun {x y} inside inside' ⟨differ, apart⟩ id handle handle' => ?_
    rw [Frame.refer_handle?] at handle
    rw [Frame.refer_handle?] at handle'
    have fresh : ∀ z ∈ st.stack, z.handle? ≠ some st.graph.handles.size :=
      fun z inside taken => absurd (sound.free z inside _ taken).1 (Nat.lt_irrefl _)
    split_ifs at handle handle' with first second
    · exact differ (first.trans second.symm)
    · exact fresh y inside' (handle'.trans handle.symm)
    · exact fresh x inside (handle.trans handle'.symm)
    · exact apart id handle handle'
  · exact fun m inside => (sound.memo m inside).mono fun id alive => live id (.inl alive)
  · intro id s found
    rw [Graph.target?_declare] at found
    exact (sound.bound id s found).mono fun id alive => live id (.inl alive)

theorem refer_mirrors (same : FrameMirrors d f f') {x x' : Frame} (mirrors : FrameMirrors d x x')
    (id : Nat) : FrameMirrors d (f.refer id x) (f'.refer (id + d.handles) x') := by
  have blind : (x'.id == f'.id) = (x.id == f.id) := by rw [mirrors.id, same.id]
  unfold Frame.refer
  rw [blind]
  split_ifs
  · exact ⟨mirrors.id, mirrors.depth, mirrors.key, rfl⟩
  · exact mirrors

theorem Course.handle {c : Course} (mirrors : Mirrors c.graph c.strict keys st st')
    (member : f ∈ st.stack) (same : FrameMirrors c.graph.shift f f') :
    c.pairing.Ends keys st.Live (fun live id id' => c.pairing.shape live (.handle id) (.handle id'))
      (handleOf f st) (handleOf f' st') := by
  cases handle : f.handle? with
  | some id =>
    have handle' : f'.handle? = some (id + c.graph.handles.size) := by
      rw [same.handle, handle]
      rfl
    rw [handleOf_known handle, handleOf_known handle']
    exact .ok mirrors le_rfl ⟨leaves_handle (.inr ⟨f, member, handle⟩), rfl⟩
  | none =>
    have handle' : f'.handle? = none := by
      rw [same.handle, handle]
      rfl
    obtain ⟨names, name, ref, equal⟩ := handleOf_new st handle
    obtain ⟨names', name', ref', equal'⟩ := handleOf_new st' handle'
    obtain ⟨sound, live⟩ := mirrors.sound.refer member handle names name ref
    rw [equal, equal', mirrors.size]
    refine .ok ?_ (fun id alive => live id (.inl alive)) ⟨leaves_handle (live _ (.inr rfl)), rfl⟩
    exact { mirrors with
      sound := sound
      size := by rw [Graph.size_declare, Graph.size_declare, mirrors.size, Nat.add_right_comm]
      targets := fun id => by
        rw [Graph.target?_declare, Graph.target?_declare]
        exact mirrors.targets id
      old := fun id small => by
        rw [Graph.target?_declare]
        exact mirrors.old id small
      stack := by
        rw [forall₂_map_left_iff, forall₂_map_right_iff, mirrors.size]
        exact mirrors.stack.imp fun x x' mirrors => refer_mirrors same mirrors _ }

theorem target?_close (declared : ∀ h, top.handle? = some h → h < st.graph.handles.size)
    (rest : List Frame) (s : Shape) (m : Memo) (id : Nat) :
    (st.close top rest s m).graph.target? id = if top.handle? = some id then
      some s else st.graph.target? id := by
  unfold State.close Frame.bind
  cases handle : top.handle? with
  | none => rfl
  | some h =>
    simp only [Option.map_some, Option.getD_some, Graph.target?_bind _ (declared h handle),
      Option.some.injEq, eq_comm]

theorem size_close (st : State) (top : Frame) (rest : List Frame) (s : Shape) (m : Memo) :
    (st.close top rest s m).graph.handles.size = st.graph.handles.size := by
  unfold State.close Frame.bind
  cases top.handle? with
  | none => rfl
  | some h => exact Graph.size_bind _ _ _

theorem next_close (st : State) (top : Frame) (rest : List Frame) (s : Shape) (m : Memo) :
    (st.close top rest s m).graph.next = st.graph.next := by
  unfold State.close Frame.bind
  cases top.handle? <;> rfl

theorem Sound.declared (sound : Sound strict keys st) (innermost : st.stack = top :: rest) (h : Nat)
    (handle : top.handle? = some h) : h < st.graph.handles.size :=
  (sound.free top (innermost ▸ mem_cons_self) h handle).1

theorem Sound.live_close (sound : Sound strict keys st) (innermost : st.stack = top :: rest) (s : Shape)
    (m : Memo) : st.Live ≤ (st.close top rest s m).Live := by
  rintro id (bound | ⟨f, member, handle⟩)
  · left
    rw [target?_close (sound.declared innermost)]
    split_ifs
    · rfl
    · exact bound
  · rw [innermost] at member
    rcases mem_cons.mp member with rfl | inside
    · left
      rw [target?_close (sound.declared innermost), if_pos handle]
      rfl
    · exact .inr ⟨f, inside, handle⟩

theorem Sound.leaves_close (sound : Sound strict keys st) (innermost : st.stack = top :: rest)
    (leaves : s.Leaves strict st.Live) (m : Memo) :
    (top.shape s).Leaves strict (st.close top rest s m).Live := by
  unfold Frame.shape
  cases handle : top.handle? with
  | none => exact leaves.mono (sound.live_close innermost s m)
  | some id =>
    refine leaves_handle (.inl ?_)
    rw [target?_close (sound.declared innermost), if_pos handle]
    rfl

theorem Sound.close (sound : Sound strict (key :: keys) st) (innermost : st.stack = top :: rest)
    (leaves : s.Leaves strict st.Live) (frame? : Option Nat) :
    Sound strict keys (st.close top rest s ⟨key, top.shape s, frame?⟩) := by
  have live := sound.live_close innermost s ⟨key, top.shape s, frame?⟩
  have here := sound.leaves_close innermost leaves ⟨key, top.shape s, frame?⟩
  have targets := target?_close (sound.declared innermost) rest s ⟨key, top.shape s, frame?⟩
  obtain ⟨stacked, depths, free, apart, memo, bound⟩ := sound
  rw [innermost] at stacked depths apart
  have inside : ∀ f ∈ rest, f ∈ st.stack := fun f member => innermost ▸ mem_cons_of_mem _ member
  refine ⟨stacked.close.2, ?_, ?_, (pairwise_cons.mp apart).2,
    forall_mem_cons.mpr ⟨here, fun m member => (memo m member).mono live⟩, ?_⟩
  · rw [length_cons, range_succ, reverse_append] at depths
    exact (cons.inj depths).2
  · intro f member id handle
    obtain ⟨known, unbound⟩ := free f (inside f member) id handle
    have other : top.handle? ≠ some id := fun taken => (pairwise_cons.mp apart).1 f member id taken handle
    rw [size_close, targets, if_neg other]
    exact ⟨known, unbound⟩
  · intro id s' found
    rw [targets] at found
    split_ifs at found
    · exact Option.some.inj found ▸ leaves.mono live
    · exact (bound id s' found).mono live

theorem Frame.shape_shift (same : FrameMirrors d f f') (s : Shape) :
    f'.shape (s.shift d) = (f.shape s).shift d := by
  unfold Frame.shape
  rw [same.handle]
  cases f.handle? <;> rfl

theorem Sound.frameAt?_isSome (sound : Sound strict (key :: keys) st)
    (innermost : st.stack = top :: rest) {depth : Nat} (below : depth < keys.length) :
    (frameAt? rest depth).isSome = true := by
  have depths := sound.depths
  rw [innermost, length_cons, range_succ, reverse_append] at depths
  have listed : depth ∈ rest.map (·.depth) := by
    rw [(cons.inj depths).2]
    simpa using below
  obtain ⟨f, member, same⟩ := mem_map.mp listed
  unfold frameAt?
  rw [Option.isSome_map, find?_isSome]
  exact ⟨f, member, by simpa using same⟩

theorem Mirrors.close (mirrors : Mirrors g strict (key :: keys) st st') {top' : Frame}
    {rest' : List Frame} (innermost : st.stack = top :: rest)
    (innermost' : st'.stack = top' :: rest') (leaves : s.Leaves strict st.Live)
    (frame? : Option Nat) :
    Mirrors g strict keys (st.close top rest s ⟨key, top.shape s, frame?⟩)
      (st'.close top' rest' (s.shift g.shift) ⟨key, top'.shape (s.shift g.shift), frame?⟩) := by
  have sound := mirrors.sound
  have stack := mirrors.stack
  rw [innermost, innermost'] at stack
  obtain ⟨same, others⟩ := forall₂_cons.mp stack
  have declared := sound.declared innermost
  have declared' : ∀ h, top'.handle? = some h → h < st'.graph.handles.size := by
    intro h moved
    rw [same.handle] at moved
    obtain ⟨id, handle, rfl⟩ := Option.map_eq_some_iff.mp moved
    rw [mirrors.size]
    exact Nat.add_lt_add_right (declared id handle) _
  exact { mirrors with
    sound := sound.close innermost leaves frame?
    next := by rw [next_close, next_close, mirrors.next]
    size := by rw [size_close, size_close, mirrors.size]
    targets := fun id => by
      have moved : top'.handle? = some (id + g.shift.handles) ↔ top.handle? = some id := by
        rw [same.handle]
        cases top.handle? <;> simp
      rw [target?_close declared, target?_close declared', mirrors.targets id]
      simp only [moved]
      split_ifs <;> rfl
    old := fun id small => by
      have other : top'.handle? ≠ some id := by
        intro handle
        rw [same.handle] at handle
        obtain ⟨h, _, rfl⟩ := Option.map_eq_some_iff.mp handle
        exact absurd small (Nat.not_lt.mpr (Nat.le_add_left _ _))
      rw [target?_close declared', if_neg other, mirrors.old id small]
    stack := others
    memo := by
      change _ :: st'.memo = (⟨key, top.shape s, frame?⟩ :: st.memo).map _
      rw [mirrors.memo, map_cons, Frame.shape_shift same]
      rfl }

theorem Course.close {c : Course} (mirrors : Mirrors c.graph c.strict (f.key :: keys) st st')
    (depth_eq : f.depth = keys.length) (same : FrameMirrors c.graph.shift f f') {r r' : Result}
    (results : c.pairing.Result st.Live r r') :
    c.pairing.Ends keys st.Live c.pairing.Result (closeFrame f r st) (closeFrame f' r' st') := by
  obtain ⟨shape, low⟩ := r
  obtain ⟨shape', low?⟩ := r'
  obtain ⟨⟨leaves, rfl⟩, lows⟩ := results
  obtain rfl : low? = low := lows
  have sound := mirrors.sound
  obtain ⟨top, rest, innermost, -⟩ := map_eq_cons_iff.mp sound.frames
  have stack := mirrors.stack
  rw [innermost] at stack
  obtain ⟨top', rest', topSame, others, innermost'⟩ := forall₂_cons_left_iff.mp stack
  have free' : ∀ id, top'.handle? = some id → st'.graph.target? id = none := by
    intro id moved
    rw [topSame.handle] at moved
    obtain ⟨h, handle, rfl⟩ := Option.map_eq_some_iff.mp moved
    rw [mirrors.targets h, (sound.free top (innermost ▸ mem_cons_self) h handle).2]
    rfl
  have fields : frameAt? rest' = frameAt? rest := funext (frameAt?_mirrors others)
  have inRange : ∀ depth, low?.filter (· < f.depth) = some depth → (frameAt? rest depth).isSome = true :=
    fun depth kept => sound.frameAt?_isSome innermost
      (by simpa [depth_eq] using (Option.filter_eq_some_iff.mp kept).2)
  rw [closeFrame_eq innermost (fun id handle =>
    (sound.free top (innermost ▸ mem_cons_self) id handle).2) inRange,
    closeFrame_eq innermost' free' (by simpa only [same.depth, fields] using inRange)]
  simp only [same.key, same.depth, fields]
  exact .ok (mirrors.close innermost innermost' leaves _) (sound.live_close innermost _ _)
    ⟨⟨sound.leaves_close innermost leaves _, Frame.shape_shift topSame _⟩, rfl⟩

theorem keyOf_alike {location : Location} {s : Schema} {t t' : Table} (alike : t.Alike t') :
    keyOf s location t' = keyOf s location t :=
  congrArg (Key.mk location) (alike.enterSchema s.keywords location).fingerprint.symm

theorem Course.lawful (c : Course) : c.pairing.Lawful where
  mono _ _ larger _ _ related := ⟨related.1.mono larger, related.2⟩
  admits present := {
    names := fun _ _ => trivial
    const := fun v found holds => (c.documents holds _ _ present).const v found
    enum := fun vs found v member holds => (c.documents holds _ _ present).enum vs found v member
    allOf := .inr trivial
    oneOf := fun _ => .inr trivial }
  enterSchema present seen :=
    ⟨seen.alike.enterSchema _ _, seen.drawn.enterSchema c.stocked present,
      seen.drawn'.enterSchema c.stocked' present⟩
  resolve {t t'} seen key := by
    have ends : Table.EndAlike (t.resolve c.corpus key) (t'.resolve c.corpus key) := seen.alike.resolve key
    have drawn : ∀ node? u, t.resolve c.corpus key = some (node?, u) → u.Drawn c.supply :=
      fun _ _ => seen.drawn.resolve
    have drawn' : ∀ node? u, t'.resolve c.corpus key = some (node?, u) → u.Drawn c.supply' :=
      fun _ _ => seen.drawn'.resolve
    change Option.Rel _ (t.resolve c.corpus key) (t'.resolve c.corpus key)
    revert ends drawn drawn'
    generalize t.resolve c.corpus key = found, t'.resolve c.corpus key = found'
    rintro (_ | @⟨node?, u, u', alike⟩) drawn drawn'
    · exact .none
    · exact .some ⟨rfl, fun present => ⟨alike present, drawn _ _ rfl, drawn' _ _ rfl⟩⟩
  key seen _ _ := keyOf_alike seen.alike
  aliasEnd seen budget location := (aliasEnd?_alike seen.alike budget [] location).symm
  flat {live s} flat := by
    cases s with
    | any | never | null | boolean | number _ | string | binary =>
      exact ⟨leaves_flat rfl (by rintro ⟨⟩) (by rintro ⟨⟩), rfl⟩
    | _ => cases flat
  format _ _ f := draw fun _ _ => .serial fun _ => .pure (leaves_flat rfl (by rintro ⟨⟩) (by rintro ⟨⟩))
  literal _ _ _ fair := draw fun _ _ => .serial fun _ => .pure (leaves_literal fair)
  items _ _ _ _ inside := by
    obtain ⟨leaves, rfl⟩ := inside
    exact draw fun _ larger => ofItems_follows (leaves.mono larger)
  properties _ _ _ _ _ _ each extra _ := properties each extra
  union _ _ inclusive _ _ each := by
    obtain ⟨leaves, rfl⟩ := shapes each
    exact draw fun _ larger => unionOf_follows inclusive fun s member => (leaves s member).mono larger
  meet _ _ _ _ _ _ _ left right := meet left right
  meetAll _ _ _ _ _ each := meetAll each
  malformed _ _ p _ _ := malformed p _
  unresolved keys live p key t t' seen := by
    unfold unresolved
    rw [seen.alike.scope]
    exact report _ _
  lack _ _ _ _ := rfl
  demand more flags := congrArg (· && more) flags
  unnamed := trivial
  stopped states := states.stopped
  same frames := ⟨frames.id, frames.depth, frames.key⟩
  stack states := states.stack
  frames states := states.sound.frames
  memo {keys st st'} states := by
    rw [states.memo, forall₂_map_right_iff]
    exact forall₂_same.mpr fun m member => ⟨rfl, ⟨states.sound.memo m member, rfl⟩, rfl⟩
  handle states _ _ member frames := handle states member frames
  enter {keys st st'} states key t t' title _ _ :=
    ⟨states.enter key t t' title, ⟨states.nextId, states.stack.length_eq.symm, rfl, rfl⟩, st.live_enter _⟩
  close states depth frames _ _ results := close states depth frames results
  spent budgets := absurd budgets.1.pos (Nat.lt_irrefl 0)
  spent' budgets := absurd budgets.2.pos (Nat.lt_irrefl 0)
  open_key budgets _ _ _ _ present seen closed :=
    ⟨budgets.1.open_key closed (keyOf_possible c.stocked seen.drawn present),
      budgets.2.open_key closed (keyOf_alike seen.alike ▸ keyOf_possible c.stocked' seen.drawn' present)⟩

end Derivation

end JsonShape
