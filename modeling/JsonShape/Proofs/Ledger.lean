import JsonShape.Proofs.Formation

/-! Derivations that report nothing, step by step. Beside the state stands a world that says which
schema each handle stands for; as steps are taken it grows. -/
namespace JsonShape.Derivation
open List Option

/-- Open frames, bound handles and remembered shapes are as a world says. -/
structure Holds (R : Realm) (keys : List Key) (ω : World) (st : State) :
    Prop extends Stacked keys st.stack st.nextId where
  going : st.stopped = false
  reported : st.reported = []
  known : ∀ id key, ω id = some key → id < st.graph.handles.size
  owned : ∀ f ∈ st.stack, ∀ id, f.handle? = some id → ω id = some f.key
  settled : ∀ id key, ω id = some key →
    (∃ f ∈ st.stack, f.handle? = some id) ∨ ∃ shape, st.graph.target? id = some shape ∧
    Formed R ω key shape
  memo : ∀ m ∈ st.memo, ∀ location s t, R.corpus.get? location = some s → R.seen t →
      keyOf s location t = m.key →
    Gives R ω ⟨some location, t⟩ m.shape

/-- The end of a step. If it is clean it reports nothing; and if nothing is reported, the world has
grown and the result is good for good. -/
structure Ending {α : Type} (R : Realm) (keys : List Key) (clean : Prop) (good : World → α → Prop)
    (st : State) (a : α) (st' : State) : Prop where
  quiet : clean → st.issues = [] → st'.issues = []
  before : st'.issues = [] → st.issues = []
  after : st'.issues = [] → ∀ ω, Holds R keys ω st → ∃ ω', ω.Grows ω' ∧ Holds R keys ω' st' ∧
      ∀ ω'', ω'.Grows ω'' → good ω'' a

def Ends {α : Type} (R : Realm) (keys : List Key) (clean : Prop) (f : Derive α)
    (good : World → α → Prop) : Prop :=
  ∀ st a st', f st = .ok (a, st') → Ending R keys clean good st a st'

def Returns {α : Type} (f : Derive α) (good : α → Prop) : Prop := ∀ st a st', f st = .ok (a, st') → good a

variable {α β ι : Type} {R : Realm} {keys : List Key} {clean : Prop} {st st' : State} {ω : World}

theorem World.Grows.refl (ω : World) : ω.Grows ω := fun _ _ => id

theorem bind_run {σ : Type} {f : StateT σ (Except Fault) α} {next : α → StateT σ (Except Fault) β}
    {x y : σ} {b : β} (ran : (f >>= next) x = .ok (b, y)) :
    ∃ a z, f x = .ok (a, z) ∧ next a z = .ok (b, y) := by
  obtain ⟨⟨a, z⟩, first, second⟩ := bind_eq_ok_iff.mp ran
  exact ⟨a, z, first, second⟩

namespace Returns

variable {good : α → Prop} {fine : β → Prop}

theorem pure {a : α} (holds : good a) : Returns (Pure.pure a) good := by
  intro st b st' equal
  cases equal
  exact holds

theorem trivial (f : Derive α) : Returns f fun _ => True := fun _ _ _ _ => .intro

theorem bind {f : Derive α} {next : α → Derive β} (first : Returns f good)
    (second : ∀ a, good a → Returns (next a) fine) : Returns (f >>= next) fine := by
  intro st b st' ran
  obtain ⟨a, st₁, here, rest⟩ := bind_run ran
  exact second a (first st a st₁ here) st₁ b st' rest

theorem mapM {f : ι → Derive α} {related : ι → α → Prop} {items : List ι}
    (each : ∀ i ∈ items, Returns (f i) (related i)) :
    Returns (items.mapM f) (Forall₂ related items) := by
  induction items with
  | nil => exact pure .nil
  | cons i rest ih =>
    rw [mapM_cons]
    refine bind (each i mem_cons_self) fun a here => ?_
    refine bind (ih (forall_mem_cons.mp each).2) fun as later => ?_
    exact pure (.cons here later)

end Returns

namespace Ends

variable {good : World → α → Prop} {fine : World → β → Prop}

theorem pure {a : α} (holds : ∀ ω, good ω a) : Ends R keys clean (Pure.pure a) good := by
  intro st b st' equal
  cases equal
  exact ⟨fun _ => id, id, fun _ ω there => ⟨ω, .refl ω, there, fun ω' _ => holds ω'⟩⟩

theorem imp {clean' : Prop} {f : Derive α} {better : World → α → Prop}
    (ends : Ends R keys clean' f better) (stronger : clean → clean')
    (implies : ∀ ω a, better ω a → good ω a) : Ends R keys clean f good := by
  intro st a st' ran
  obtain ⟨quiet, before, after⟩ := ends st a st' ran
  refine ⟨fun holds => quiet (stronger holds), before, fun silent ω there => ?_⟩
  obtain ⟨ω', grows, holds, results⟩ := after silent ω there
  exact ⟨ω', grows, holds, fun ω'' grows => implies ω'' a (results ω'' grows)⟩

theorem bind_returns {f : Derive α} {next : α → Derive β} {returned : α → Prop}
    (returns : Returns f returned) (first : Ends R keys clean f good)
    (second : ∀ a, returned a → Ends R keys clean (next a) fun ω b => good ω a → fine ω b) :
    Ends R keys clean (f >>= next) fine := by
  intro st b st' ran
  obtain ⟨a, st₁, here, rest⟩ := bind_run ran
  obtain ⟨quiet, before, after⟩ := first st a st₁ here
  obtain ⟨quiet', before', after'⟩ := second a (returns st a st₁ here) st₁ b st' rest
  refine ⟨fun holds silent => quiet' holds (quiet holds silent), fun silent =>
    before (before' silent), fun silent ω there => ?_⟩
  obtain ⟨ω₁, grows, holds, results⟩ := after (before' silent) ω there
  obtain ⟨ω₂, grows', holds', results'⟩ := after' silent ω₁ holds
  exact ⟨ω₂, grows.trans grows', holds', fun ω₃ later =>
    results' ω₃ later (results ω₃ (grows'.trans later))⟩

theorem bind {f : Derive α} {next : α → Derive β} (first : Ends R keys clean f good)
    (second : ∀ a, Ends R keys clean (next a) fun ω b => good ω a → fine ω b) :
    Ends R keys clean (f >>= next) fine :=
  bind_returns (.trivial f) first fun a _ => second a

theorem mapM {f : ι → Derive α} {related : ι → World → α → Prop} {items : List ι}
    (each : ∀ i ∈ items, Ends R keys clean (f i) (related i)) :
    Ends R keys clean (items.mapM f) fun ω => Forall₂ (fun i => related i ω) items := by
  induction items with
  | nil => exact pure fun _ => .nil
  | cons i rest ih =>
    rw [mapM_cons]
    refine bind (each i mem_cons_self) fun a => ?_
    refine bind (ih (forall_mem_cons.mp each).2) fun as => ?_
    exact pure fun ω later here => .cons here later

theorem draw {f : Fresh α} {good : α → Prop} (ensures : f.Ensures good) :
    Ends R keys clean (Derivation.draw f) fun _ => good := by
  intro st a st' ran
  obtain ⟨⟨b, g⟩, drawn, equal⟩ := bind_eq_ok_iff.mp ran
  obtain ⟨⟨c, next⟩, counted, equal'⟩ := bind_eq_ok_iff.mp drawn
  cases equal
  cases equal'
  exact ⟨fun _ => id, id, fun _ ω there => ⟨ω, .refl ω, { there with }, fun _ _ => ensures _ _ _ counted⟩⟩

theorem report (options : Options) (issue : Issue) {next : Derive β}
    (later : Ends R keys False next fun _ _ => True) :
    Ends R keys False (Derivation.report options issue >>= fun _ => next) fine := by
  intro st b st' ran
  obtain ⟨a, st₁, here, rest⟩ := bind_run ran
  obtain ⟨-, before, -⟩ := later st₁ b st' rest
  cases here
  refine ⟨nofun, fun silent => ?_, fun silent ω there => ?_⟩
  · have silent := before silent
    dsimp only at silent
    split_ifs at silent
    · exact silent
    · simp at silent
  · have silent := before silent
    simp [there.reported] at silent

theorem malformed {options : Options} {good : World → Result → Prop} (p : Path) (message : String)
    (lenient : options.strict = false → ∀ ω, good ω (.never, none)) :
    Ends R keys (options.strict = false) (Derivation.malformed options p message) good := by
  unfold Derivation.malformed
  cases strict : options.strict with
  | true =>
    refine (report options _ (pure fun _ => trivial)).imp ?_ fun _ _ => id
    exact nofun
  | false =>
    rw [if_neg Bool.false_ne_true]
    intro st r st' equal
    cases equal
    exact ⟨fun _ => id, id, fun _ ω there => ⟨ω, .refl ω, { there with }, fun ω' _ => lenient strict ω'⟩⟩

end Ends

namespace Holds

variable {f top : Frame} {rest : List Frame} {key : Key} {shape : Shape}

theorem start (R : Realm) (g : Graph) : Holds R [] (fun _ => none) { graph := g } where
  going := rfl
  reported := rfl
  frames := rfl
  ids := nodup_nil
  below := nofun
  known := nofun
  owned := nofun
  settled := nofun
  memo := nofun

theorem enter (holds : Holds R keys ω st) (key : Key) (table : Table) (title : String) :
    Holds R (key :: keys) ω (st.enter (st.nextFrame key table title)) :=
  { holds.toStacked.enter key table title, holds with
    owned := forall_mem_cons.mpr ⟨nofun, holds.owned⟩
    settled := fun id key owned => (holds.settled id key owned).imp_left fun ⟨f, member, handle⟩ =>
        ⟨f, mem_cons_of_mem _ member, handle⟩ }

theorem refer (holds : Holds R keys ω st) (member : f ∈ st.stack) (unknown : f.handle? = none)
    (names : List (String × Nat)) (name ref : String) :
    ∃ ω', ω.Grows ω' ∧ ω' st.graph.handles.size = some f.key ∧
      Holds R keys ω' (st.refer f names name ref) := by
  have grows : ω.Grows (Function.update ω st.graph.handles.size (some f.key)) := by
    intro id key owned
    rw [Function.update_of_ne (Nat.ne_of_lt (holds.known id key owned)), owned]
  refine ⟨_, grows, Function.update_self ..,
    ⟨holds.toStacked.refer f _, holds.going, holds.reported, ?_, ?_, ?_, ?_⟩⟩
  · intro id key owned
    rw [Graph.size_declare]
    by_cases new : id = st.graph.handles.size
    · exact new ▸ Nat.lt_succ_self _
    · rw [Function.update_of_ne new] at owned
      exact Nat.lt_succ_of_lt (holds.known id key owned)
  · intro x listed id handle
    obtain ⟨y, inside, rfl⟩ := mem_map.mp listed
    rw [Frame.refer_handle?] at handle
    rw [Frame.refer_key]
    split_ifs at handle with same
    · rw [← some.inj handle, Function.update_self, holds.eq_of_id inside member same]
    · exact grows _ _ (holds.owned y inside id handle)
  · intro id key owned
    by_cases new : id = st.graph.handles.size
    · refine .inl ⟨_, mem_map.mpr ⟨f, member, rfl⟩, ?_⟩
      rw [Frame.refer_handle?, if_pos rfl, new]
    · rw [Function.update_of_ne new] at owned
      rcases holds.settled id key owned with handled | ⟨shape, found, formed⟩
      · exact .inl (holds.handle_refer member unknown handled)
      · refine .inr ⟨shape, ?_, formed.grow grows⟩
        rwa [Graph.target?_declare]
  · exact fun m inside location s t present here same =>
      (holds.memo m inside location s t present here same).grow grows

theorem stacked (holds : Holds R (key :: keys) ω st) (innermost : st.stack = top :: rest) :
    top.key = key ∧ Stacked keys rest st.nextId :=
  (innermost ▸ holds.toStacked).close

theorem gives_close (holds : Holds R (key :: keys) ω st) (innermost : st.stack = top :: rest)
    (formed : Formed R ω key shape) {location : Location} {s : Schema} {t : Table}
    (present : R.corpus.get? location = some s) (here : R.seen t)
    (same : keyOf s location t = key) : Gives R ω ⟨some location, t⟩ (top.shape shape) := by
  unfold Frame.shape
  cases handle : top.handle? with
  | none => exact Formed.gives (same ▸ formed) present here
  | some id =>
    have owned := holds.owned top (innermost ▸ mem_cons_self) id handle
    rw [(holds.stacked innermost).1, ← same] at owned
    exact .back present here owned

theorem close (holds : Holds R (key :: keys) ω st) (innermost : st.stack = top :: rest)
    (formed : Formed R ω key shape) (frame? : Option Nat) :
    Holds R keys ω (st.close top rest shape ⟨key, top.shape shape, frame?⟩) := by
  have here : top ∈ st.stack := innermost ▸ mem_cons_self
  have inside : ∀ f ∈ rest, f ∈ st.stack := fun f member => innermost ▸ mem_cons_of_mem _ member
  have targets := target?_close (fun id handle => holds.known id _ (holds.owned top here id handle))
      rest shape ⟨key, top.shape shape, frame?⟩
  have handled : ∀ id other, ω id = some other → top.handle? = some id → Formed R ω other shape := by
    intro id other owned handle
    have same := (holds.owned top here id handle).symm.trans owned
    rw [(holds.stacked innermost).1] at same
    exact some.inj same ▸ formed
  refine ⟨(holds.stacked innermost).2, holds.going, holds.reported, ?_, fun f member =>
    holds.owned f (inside f member), ?_, ?_⟩
  · intro id other owned
    rw [size_close]
    exact holds.known id other owned
  · intro id other owned
    by_cases handle : top.handle? = some id
    · refine .inr ⟨shape, ?_, handled id other owned handle⟩
      rw [targets, if_pos handle]
    · rw [targets, if_neg handle]
      refine (holds.settled id other owned).imp_left fun ⟨f, member, taken⟩ => ?_
      rw [innermost] at member
      rcases mem_cons.mp member with rfl | later
      · exact absurd taken handle
      · exact ⟨f, later, taken⟩
  · refine forall_mem_cons.mpr ⟨fun location s t present seen same => ?_, holds.memo⟩
    exact holds.gives_close innermost formed present seen same

end Holds

theorem bindHandle_ok {id : Nat} {s : Shape} {g g' : Graph} {u : Unit}
    (ran : Graph.bindHandle id s g = .ok (u, g')) : g' = g.bind id s := by
  unfold Graph.bindHandle at ran
  obtain ⟨_, _, equal, ran⟩ := bind_run ran
  cases equal
  dsimp only at ran
  split_ifs at ran
  · cases ran
  · cases ran
    rfl

theorem closeFrame_ok {f : Frame} {shape : Shape} {low? : Option Nat} {r : Result}
    (ran : closeFrame f (shape, low?) st = .ok (r, st')) :
    st'.issues = st.issues ∧ ∀ top rest, st.stack = top :: rest → r.1 = top.shape shape ∧
      st' = st.close top rest shape
      ⟨f.key, top.shape shape, (low?.filter (· < f.depth)).bind (frameAt? rest)⟩ := by
  unfold closeFrame at ran
  obtain ⟨_, _, equal, ran⟩ := bind_run ran
  cases equal
  obtain ⟨_, _, equal, ran⟩ := bind_run ran
  cases equal
  cases handle : st.stack.head?.bind (·.handle?) with
  | none =>
    simp only [handle] at ran
    obtain ⟨_, _, equal, ran⟩ := bind_run ran
    cases equal
    dsimp only at ran
    split_ifs at ran
    · cases ran
    · cases ran
      refine ⟨rfl, fun top rest innermost => ?_⟩
      simp only [innermost, head?_cons, bind_some] at handle
      simp only [State.close, Frame.shape, Frame.bind, handle, innermost]
      exact ⟨rfl, rfl⟩
  | some id =>
    simp only [handle] at ran
    obtain ⟨_, _, bound, ran⟩ := bind_run ran
    obtain ⟨⟨_, g⟩, linked, equal⟩ := bind_eq_ok_iff.mp bound
    cases equal
    obtain rfl := bindHandle_ok linked
    obtain ⟨_, _, equal, ran⟩ := bind_run ran
    cases equal
    dsimp only at ran
    split_ifs at ran
    · cases ran
    · cases ran
      refine ⟨rfl, fun top rest innermost => ?_⟩
      simp only [innermost, head?_cons, bind_some] at handle
      simp only [State.close, Frame.shape, Frame.bind, handle, innermost]
      exact ⟨rfl, rfl⟩

end JsonShape.Derivation
