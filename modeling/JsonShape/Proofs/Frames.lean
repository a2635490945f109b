import JsonShape.Proofs.Depth

/-! What happens at one schema of a derivation: it is open, or its shape is known, or it gets a
frame of its own. Looking up known shapes can be left out. -/
namespace JsonShape.Derivation
open List Option

variable {f top : Frame} {rest : List Frame}

def deriveBy (recalls : Bool) (corpus : Corpus) (options : Options) : Nat → Recur
  | 0, _, _, _ => throw .exhausted
  | budget + 1, location?, t, path => do
    if (← get).stopped then return (.any, none)
    match location?.bind fun location => (corpus.get? location).map (location, ·) with
    | none => return (.any, none)
    | some (location, s) =>
      let table := t.enterSchema s.keywords location t.scope
      let key := keyOf s location t
      if let some f := (← get).stack.find? (·.key == key) then
        return (.handle (← handleOf f), some f.depth)
      let known := (← get).memo
      if let some m := if recalls then known.find? (·.key == key) else none then
        let stack := (← get).stack
        return (m.shape, m.frame?.bind fun id => (stack.find? (·.id == id)).map (·.depth))
      let f ← openFrame key table s.keywords.title
      let result ← dispatch (deriveBy recalls corpus options budget)
          ⟨corpus, options, location, table, path, f.depth⟩ s.keywords
      closeFrame f result

theorem deriveBy_true (corpus : Corpus) (options : Options) (budget : Nat) :
    deriveBy true corpus options budget = derive corpus options budget := by
  induction budget with
  | zero => rfl
  | succ budget ih =>
    funext location? t path
    rw [deriveBy, derive, ih]
    rfl

def runBy (recalls : Bool) (corpus : Corpus) (node : Location) (t : Table) (options : Options) :
    Graph.Build Outcome := fun g => do
  let id := ((corpus.get? node).map (·.keywords.id)).getD ""
  let table := t.push (.resource id node)
  let ((shape, _), s) ← (deriveBy recalls corpus options (deriveBudget corpus table)
      (some node) table .root).run { graph := g }
  let result := if s.issues.isEmpty then .ok shape else .error s.issues
  .ok (⟨result, s.warnings⟩, s.graph)

theorem runBy_true (corpus : Corpus) (node : Location) (t : Table) (options : Options) :
    runBy true corpus node t options = run corpus node t options := by
  funext g
  unfold runBy run
  simp only [deriveBy_true]

variable {recalls : Bool} {corpus : Corpus} {options : Options} {budget : Nat}
  {location? : Option Location} {location : Location} {s : Schema} {t : Table} {path : Path}
  {st : State}

theorem deriveBy_stopped (stopped : st.stopped = true) :
    deriveBy recalls corpus options (budget + 1) location? t path st = .ok ((.any, none), st) := by
  change (deriveBy recalls corpus options (budget + 1) location? t path).run st = _
  rw [deriveBy]
  simp only [StateT.run_bind, StateT.run_get, pure_bind, stopped, if_true, StateT.run_pure]
  rfl

theorem deriveBy_absent (absent : location?.bind corpus.get? = none) :
    deriveBy recalls corpus options (budget + 1) location? t path st = .ok ((.any, none), st) := by
  have nothing : (location?.bind fun location => (corpus.get? location).map (location, ·)) = none := by
    cases location? with
    | none => rfl
    | some location => simpa using absent
  change (deriveBy recalls corpus options (budget + 1) location? t path).run st = _
  rw [deriveBy]
  simp only [StateT.run_bind, StateT.run_get, pure_bind, nothing]
  split_ifs <;> rfl

theorem deriveBy_open (going : st.stopped = false) (present : corpus.get? location = some s)
    (reached : st.stack.find? (·.key == keyOf s location t) = some f) :
    deriveBy recalls corpus options (budget + 1) (some location) t path st =
      (do return (.handle (← handleOf f), some f.depth) : Derive Result) st := by
  change (deriveBy recalls corpus options (budget + 1) (some location) t path).run st = _
  rw [deriveBy]
  simp only [StateT.run_bind, StateT.run_get, pure_bind, going, Bool.false_eq_true, if_false,
    bind_some, present, map_some,
    reached]
  rfl

theorem deriveBy_known (going : st.stopped = false) (present : corpus.get? location = some s)
    (closed : st.stack.find? (·.key == keyOf s location t) = none) {m : Memo}
    (known : st.memo.find? (·.key == keyOf s location t) = some m) :
    deriveBy true corpus options (budget + 1) (some location) t path st =
      .ok ((m.shape, m.frame?.bind fun id => (st.stack.find? (·.id == id)).map (·.depth)), st) := by
  change (deriveBy true corpus options (budget + 1) (some location) t path).run st = _
  rw [deriveBy]
  simp only [StateT.run_bind, StateT.run_get, pure_bind, going, Bool.false_eq_true, if_false,
    bind_some, present, map_some,
    closed, known, if_true, StateT.run_pure]
  rfl

def inFrame (recur : Recur) (corpus : Corpus) (options : Options) (location : Location) (s : Schema)
    (t : Table) (path : Path) :
    Derive Result := do
  let table := t.enterSchema s.keywords location t.scope
  let f ← openFrame (keyOf s location t) table s.keywords.title
  let result ← dispatch recur ⟨corpus, options, location, table, path, f.depth⟩ s.keywords
  closeFrame f result

theorem deriveBy_new (going : st.stopped = false) (present : corpus.get? location = some s)
    (closed : st.stack.find? (·.key == keyOf s location t) = none)
    (unknown : recalls = true → st.memo.find? (·.key == keyOf s location t) = none) :
    deriveBy recalls corpus options (budget + 1) (some location) t path st = inFrame
      (deriveBy recalls corpus options budget) corpus options location s t path st := by
  have nothing : (if recalls then st.memo.find? (·.key == keyOf s location t) else none) = none := by
    split_ifs with looks
    · exact unknown looks
    · rfl
  change (deriveBy recalls corpus options (budget + 1) (some location) t path).run st = _
  rw [deriveBy]
  simp only [StateT.run_bind, StateT.run_get, pure_bind, going, Bool.false_eq_true, if_false,
    bind_some, present, map_some,
    closed, nothing]
  rfl

theorem draw_eq {α : Type} (f : Fresh α) (st : State) : draw f st =
    (f st.graph.next).map fun (a, n) => (a, { st with graph := { st.graph with next := n } }) := by
  unfold draw onGraph Graph.draw
  cases f st.graph.next <;> rfl

def State.nextFrame (st : State) (key : Key) (table : Table) (title : String) : Frame :=
  ⟨st.nextId, st.stack.length, key, table, title, none⟩

def State.enter (st : State) (f : Frame) : State :=
  { st with stack := f :: st.stack, nextId := st.nextId + 1 }

theorem inFrame_eq (recur : Recur) (corpus : Corpus) (options : Options) (location : Location)
    (s : Schema) (t : Table) (path : Path) (st : State) :
    inFrame recur corpus options location s t path st =
      (dispatch recur ⟨corpus, options, location, t.enterSchema s.keywords location t.scope, path,
      st.stack.length⟩ s.keywords
        (st.enter (st.nextFrame (keyOf s location t) (t.enterSchema s.keywords location t.scope)
        s.keywords.title)) >>= fun (r, st₁) =>
        closeFrame (st.nextFrame (keyOf s location t) (t.enterSchema s.keywords location t.scope)
          s.keywords.title) r st₁) := rfl

theorem handleOf_known {id : Nat} (known : f.handle? = some id) : handleOf f st = .ok (id, st) := by
  unfold handleOf
  rw [known]
  rfl

def Frame.refer (f : Frame) (id : Nat) (g : Frame) : Frame :=
  if g.id == f.id then { g with handle? := some id } else g

namespace Frame

variable (f : Frame) (id : Nat) (g : Frame)

@[simp] theorem refer_id : (f.refer id g).id = g.id := by
  unfold refer
  split_ifs <;> rfl

@[simp] theorem refer_key : (f.refer id g).key = g.key := by
  unfold refer
  split_ifs <;> rfl

@[simp] theorem refer_depth : (f.refer id g).depth = g.depth := by
  unfold refer
  split_ifs <;> rfl

theorem refer_handle? : (f.refer id g).handle? = if g.id = f.id then some id else g.handle? := by
  unfold refer
  split_ifs <;> simp_all

end Frame

abbrev State.refer (st : State) (f : Frame) (names : List (String × Nat)) (name ref : String) : State :=
  { st with names := names, graph := (st.graph.declare name ref).2, stack := st.stack.map (f.refer
    st.graph.handles.size) }

theorem handleOf_new (st : State) (unknown : f.handle? = none) :
    ∃ names name ref, handleOf f st = .ok (st.graph.handles.size, st.refer f names name ref) := by
  unfold handleOf
  rw [unknown]
  exact ⟨_, _, _, rfl⟩

namespace Frame

def shape (f : Frame) (s : Shape) : Shape := (f.handle?.map Shape.handle).getD s

def bind (f : Frame) (g : Graph) (s : Shape) : Graph := (f.handle?.map fun id => g.bind id s).getD g

end Frame

def State.close (st : State) (top : Frame) (rest : List Frame) (s : Shape) (m : Memo) : State :=
  { st with graph := top.bind st.graph s, stack := rest, memo := m :: st.memo }

def frameAt? (stack : List Frame) (depth : Nat) : Option Nat := (stack.find? (·.depth == depth)).map (·.id)

theorem bindHandle_bound {g : Graph} {id : Nat} {target : Shape}
    (bound : g.target? id = some target) (s : Shape) :
    Graph.bindHandle id s g = .error (.boundTwice (g.nameOf id)) := by
  change (Graph.bindHandle id s).run g = _
  unfold Graph.bindHandle
  simp only [StateT.run_bind, StateT.run_get, pure_bind, bound, isSome_some, if_true]
  rfl

theorem closeFrame_bound {id : Nat} {target : Shape} (innermost : st.stack = top :: rest)
    (handle : top.handle? = some id) (bound : st.graph.target? id = some target) (r : Result) :
    closeFrame f r st = .error (.boundTwice (st.graph.nameOf id)) := by
  have binds : (onGraph (Graph.bindHandle id r.1)).run { st with stack := rest } = .error
      (.boundTwice (st.graph.nameOf id)) := by
    change (Graph.bindHandle id r.1 st.graph >>= _) = _
    rw [bindHandle_bound bound]
    rfl
  change (closeFrame f r).run st = _
  unfold closeFrame
  simp only [StateT.run_bind, StateT.run_get, pure_bind, innermost, head?_cons, bind_some, handle,
    StateT.run_modify,
    drop_succ_cons, drop_zero, binds]
  rfl

theorem closeFrame_free (innermost : st.stack = top :: rest)
    (free : ∀ id, top.handle? = some id → st.graph.target? id = none) (shape : Shape)
    (low? : Option Nat) :
    closeFrame f (shape, low?) st = if (low?.filter (· < f.depth)).isSome &&
      ((low?.filter (· < f.depth)).bind (frameAt? rest)).isNone then
      .error .outOfRange else .ok ((top.shape shape, low?.filter (· < f.depth)), st.close top rest
      shape ⟨f.key, top.shape shape, (low?.filter (· < f.depth)).bind (frameAt? rest)⟩) := by
  obtain ⟨id, depth, key, table, title, handle?⟩ := top
  obtain ⟨graph, issues, warnings, reported, stack, memo, names, nextId, stopped⟩ := st
  cases innermost
  change (closeFrame f (shape, low?)).run _ = _
  unfold closeFrame frameAt?
  cases handle? with
  | none =>
    simp only [StateT.run_bind, StateT.run_get, pure_bind, head?_cons, bind_some,
      StateT.run_modify, drop_succ_cons,
      drop_zero]
    split_ifs <;> rfl
  | some handle =>
    have unbound : graph.target? handle = none := free handle rfl
    have binds : (onGraph (Graph.bindHandle handle shape)).run ⟨graph, issues, warnings, reported,
        rest, memo, names, nextId, stopped⟩ =
        pure ((), ⟨graph.bind handle shape, issues, warnings, reported, rest, memo, names,
        nextId, stopped⟩) := by
      change (do let (a, graph) ← (Graph.bindHandle handle shape).run graph; Except.ok (a, _)) = _
      simp only [Graph.bindHandle, StateT.run_bind, StateT.run_get, pure_bind, unbound, isSome_none,
        Bool.false_eq_true, if_false]
      rfl
    simp only [StateT.run_bind, StateT.run_get, pure_bind, head?_cons, bind_some,
      StateT.run_modify, drop_succ_cons,
      drop_zero, binds]
    split_ifs <;> rfl

theorem closeFrame_eq {shape : Shape} {low? : Option Nat} (innermost : st.stack = top :: rest)
    (free : ∀ id, top.handle? = some id → st.graph.target? id = none)
    (inRange : ∀ depth, low?.filter (· < f.depth) = some depth →
      (frameAt? rest depth).isSome = true) :
    closeFrame f (shape, low?) st = .ok ((top.shape shape, low?.filter (· < f.depth)), st.close top
      rest shape ⟨f.key, top.shape shape, (low?.filter (· < f.depth)).bind (frameAt? rest)⟩) := by
  have found : ((low?.filter (· < f.depth)).isSome &&
      ((low?.filter (· < f.depth)).bind (frameAt? rest)).isNone) = false := by
    cases below : low?.filter (· < f.depth) with
    | none => rfl
    | some depth => simpa using inRange depth below
  rw [closeFrame_free innermost free, found]
  rfl

end JsonShape.Derivation
