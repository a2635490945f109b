import JsonShape.Proofs.Ledger

/-! Derivations end. The keys that a derivation can come to are finitely many, and a frame is opened
only for a key that is not open; a budget above their number changes nothing. -/
namespace JsonShape
open List

theorem Graph.of_target?_bind {g : Graph} {id other : Nat} {s t : Shape}
    (found : (g.bind id s).target? other = some t) : t = s ∨ g.target? other = some t := by
  unfold bind target? at found
  rw [Array.getElem?_modify] at found
  split_ifs at found
  · left
    cases known : g.handles[other]? with
    | none =>
      rw [known] at found
      cases found
    | some h =>
      rw [known] at found
      exact (Option.some.inj found).symm
  · exact .inr found

namespace Shape

theorem leaves_free (s : Shape) : s.Leaves False fun _ => True :=
  ⟨fun _ _ _ => False.elim, fun _ _ => trivial⟩

theorem unionOf_compares (inclusive : Bool) (shapes : List Shape) (n : Nat) :
    Compares False (unionOf inclusive shapes n) :=
  (unionOf_follows (d := ⟨0, 0⟩) inclusive fun s _ => s.leaves_free).compares n

theorem intersectAll_compares (g : Graph) (shapes : List Shape) (n : Nat) :
    Compares False (intersectAll g shapes n) :=
  (intersectAll_follows (targetsFollow_self g) (fun _ _ s _ => s.leaves_free) fun s _ =>
    s.leaves_free).compares n

/-- What is built of good shapes is good; the properties of an object have names that go together,
and literals are fair. -/
structure Builds (good : Shape → Prop) (names : List String → Prop) (fair : Value → Prop) : Prop where
  flat {s : Shape} (flat : s.isFlat = true) : good s
  handle (id : Nat) : good (handle id)
  literal (n : Nat) {v : Value} (holds : fair v) : good (literal n v)
  array (n : Nat) {s : Shape} (inside : good s) : good (array n s)
  object (n : Nat) {ps : List (Property Shape)} {e : Option Shape} (named : names (ps.map (·.name)))
  (each : ∀ p ∈ ps, good p.shape)
    (extra : ∀ s, e = some s → good s) : good (object n (sortProperties ps) e)
  union (inclusive : Bool) {shapes : List Shape} (each : ∀ s ∈ shapes, good s) :
  (unionOf inclusive shapes).Ensures good
  meet (g : Graph) (bound : ∀ id s, g.target? id = some s → good s) {a b : Shape} (left : good a)
  (right : good b) :
    (intersect g a b).Ensures good
  unnamed : names []

theorem Builds.meetAll {good : Shape → Prop} {names : List String → Prop} {fair : Value → Prop}
    (builds : Builds good names fair) (g : Graph) (bound : ∀ id s, g.target? id = some s → good s)
    {shapes : List Shape} (each : ∀ s ∈ shapes, good s) : (intersectAll g shapes).Ensures good := by
  have fold : ∀ start, good start → (shapes.foldlM (intersect g) start).Ensures good := by
    induction shapes with
    | nil => exact fun start holds => .pure holds
    | cons s rest ih =>
      intro start holds n r n' run
      obtain ⟨here, later⟩ := forall_mem_cons.mp each
      rw [foldlM_cons] at run
      obtain ⟨m, k, met, run⟩ := Derivation.bind_run run
      exact ih later m (builds.meet g bound holds here n m k met) k r n' run
  exact fold any (builds.flat rfl)

end Shape

namespace Derivation

variable {corpus : Corpus} {supply : List Entry} {keys : List Key} {key : Key}

def waiting (corpus : Corpus) (supply : List Entry) (keys : List Key) : Nat :=
  ((possibleKeys corpus supply).filter fun key => key ∉ keys).length

theorem waiting_cons_lt (possible : key ∈ possibleKeys corpus supply) (closed : key ∉ keys) :
    waiting corpus supply (key :: keys) < waiting corpus supply keys := by
  have fewer : (possibleKeys corpus supply).filter (fun other => other ∉ key :: keys) =
      ((possibleKeys corpus supply).filter fun other => other ∉ keys).filter fun other => other ≠ key := by
    rw [filter_filter]
    refine filter_congr fun other _ => ?_
    simp [not_or]
  unfold waiting
  rw [fewer]
  refine length_filter_lt_length_iff_exists.mpr
    ⟨key, mem_filter.mpr ⟨possible, by simpa using closed⟩, by simp⟩

theorem waiting_lt_deriveBudget (corpus : Corpus) (t : Table) (keys : List Key) :
    waiting corpus (t.stock corpus) keys < deriveBudget corpus t :=
  (length_filter_le _ _).trans_lt (length_possibleKeys_lt corpus t)

/-- Frames are open for some keys, and all shapes that are bound or remembered are good. -/
structure Intact (good : Shape → Prop) (keys : List Key) (st : State) : Prop where
  frames : st.stack.map (·.key) = keys
  memo : ∀ m ∈ st.memo, good m.shape
  bound : ∀ id s, st.graph.target? id = some s → good s

/-- A derivation beside itself with another budget. -/
def solo (corpus : Corpus) (options : Options) (supply : List Entry) (good : Shape → Prop)
    (names : List String → Prop) (fair : Value → Prop) : Pairing where
  corpus := corpus
  options := options
  options' := options
  table t t' := t' = t ∧ t.Drawn supply
  budget keys n n' := waiting corpus supply keys < n ∧ waiting corpus supply keys < n'
  state keys st st' := st' = st ∧ Intact good keys st
  fault e := e ≠ .exhausted
  shape _ s s' := s' = s ∧ good s
  flag b b' := b' = b
  names := names
  constant := fair
  meets := True

variable {options : Options} {good : Shape → Prop} {names : List String → Prop}
  {fair : Value → Prop} {live : Nat → Prop} {st : State}

theorem eq_and_forall_of_forall₂ {α : Type} {R : α → α → Prop} {holds : α → Prop}
    (each : ∀ a b, R a b → b = a ∧ holds a) {as bs : List α} (related : Forall₂ R as bs) :
    bs = as ∧ ∀ a ∈ as, holds a := by
  induction related with
  | nil => exact ⟨rfl, nofun⟩
  | cons here _ ih =>
    obtain ⟨rfl, fine⟩ := each _ _ here
    exact ⟨congrArg _ ih.1, forall_mem_cons.mpr ⟨fine, ih.2⟩⟩

theorem solo_shapes {ss ss' : List Shape}
    (each : Forall₂ ((solo corpus options supply good names fair).shape live) ss ss') :
    ss' = ss ∧ ∀ s ∈ ss, good s :=
  eq_and_forall_of_forall₂ (fun _ _ => id) each

theorem Intact.renumber (intact : Intact good keys st) (n : Nat) :
    Intact good keys { st with graph := { st.graph with next := n } } :=
  ⟨intact.frames, intact.memo, intact.bound⟩

theorem solo_draw (intact : Intact good keys st) {f : Fresh Shape}
    (compares : ∀ n, Compares False (f n)) (ensures : f.Ensures good) :
    (solo corpus options supply good names fair).Ends keys live
      (solo corpus options supply good names fair).shape (draw f st) (draw f st) := by
  rw [draw_eq]
  cases run : f st.graph.next with
  | error e =>
    obtain ⟨rfl, -⟩ := compares _ e run
    exact .fault nofun
  | ok result => exact .ok ⟨rfl, intact.renumber result.2⟩ (fun _ _ => trivial) ⟨rfl, ensures _ _ _ run⟩

theorem solo_serial {shape : Nat → Shape} (each : ∀ n, good (shape n)) :
    (solo corpus options supply good names fair).Parallel keys live
      (solo corpus options supply good names fair).shape
      (draw (do return shape (← Fresh.serial))) (draw (do return shape (← Fresh.serial))) := by
  rintro _ st ⟨rfl, intact⟩ -
  exact solo_draw intact (fun _ _ => nofun) (.serial fun n => .pure (each n))

def Lasts {α : Type} (f : Derive α) : Prop := ∀ st, f st ≠ .error .exhausted

theorem Lasts.bind {α β : Type} {f : Derive α} {next : α → Derive β} (first : Lasts f)
    (second : ∀ a, Lasts (next a)) : Lasts (f >>= next) := by
  intro st
  change (f st >>= fun r => next r.1 r.2) ≠ _
  have here := first st
  cases ran : f st with
  | error e => exact fun equal => here (ran.trans (congrArg Except.error (Except.error.inj equal)))
  | ok result => exact second result.1 result.2

theorem solo_modify {change : State → State} (frames : ∀ st, (change st).stack = st.stack)
    (memo : ∀ st, (change st).memo = st.memo) (graph : ∀ st, (change st).graph = st.graph) :
    (solo corpus options supply good names fair).Parallel keys live (fun _ _ _ => True)
      (modify change : Derive Unit) (modify change) := by
  rintro _ st ⟨rfl, intact⟩ -
  refine .ok ⟨rfl, ?_, ?_, ?_⟩ (fun _ _ => trivial) trivial
  · rw [frames, intact.frames]
  · rw [memo]
    exact intact.memo
  · rw [graph]
    exact intact.bound

theorem solo_report (issue : Issue) :
    (solo corpus options supply good names fair).Parallel keys live (fun _ _ _ => True)
      (report options issue) (report options issue) := by
  refine solo_modify (fun st => ?_) (fun st => ?_) (fun st => ?_)
  all_goals
    dsimp only
    split_ifs <;> rfl

theorem closeFrame_lasts (f : Frame) (r : Result) : Lasts (closeFrame f r) := by
  obtain ⟨shape, low?⟩ := r
  have binds : ∀ id : Nat, Lasts (onGraph (Graph.bindHandle id shape)) := by
    intro id st
    change ((if (st.graph.target? id).isSome then _ else _ : Graph.Build Unit) st.graph >>= _) ≠ _
    split_ifs <;> exact nofun
  unfold closeFrame
  refine .bind (fun _ => nofun) fun s => .bind (fun _ => nofun) fun _ => ?_
  have ending : ∀ shape : Shape, Lasts (do
      let low? := low?.filter (· < f.depth)
      let stack := (← get).stack
      let frame? := low?.bind fun low => (stack.find? (·.depth == low)).map (·.id)
      if low?.isSome && frame?.isNone then throw .outOfRange
      modify fun s => { s with memo := ⟨f.key, shape, frame?⟩ :: s.memo }
      return (shape, low?) : Derive Result) := by
    intro shape
    refine .bind (fun _ => nofun) fun s => ?_
    dsimp only
    split_ifs
    · exact .bind (fun _ => nofun) fun _ => .bind (fun _ => nofun) fun _ _ => nofun
    · exact .bind (fun _ => nofun) fun _ _ => nofun
  cases s.stack.head?.bind (·.handle?) with
  | none => exact ending shape
  | some id => exact .bind (binds id) fun _ => ending (.handle id)

theorem solo_tables (stocked : Table.Stocked corpus supply) :
    (solo corpus options supply good names fair).Tables :=
  .of_same (fun _ _ => Iff.rfl) (fun present drawn => drawn.enterSchema stocked present)
    fun drawn found => drawn.resolve found

theorem solo_malformed (builds : Shape.Builds good names fair) (p : Path) (message : String) :
    (solo corpus options supply good names fair).Parallel keys live
      (solo corpus options supply good names fair).Result (malformed options p message)
      (malformed options p message) := by
  have ends : ∀ live, (solo corpus options supply good names fair).Parallel keys live
      (solo corpus options supply good names fair).Result (pure (.never, none)) (pure (.never, none)) :=
    fun _ => .pure fun _ _ => ⟨⟨rfl, builds.flat rfl⟩, rfl⟩
  unfold malformed
  split_ifs
  · exact .bind (solo_report _) fun _ _ live _ _ => ends live
  · exact .bind (solo_modify (fun _ => rfl) (fun _ => rfl) fun _ => rfl) fun _ _ live _ _ => ends live

theorem solo_properties (builds : Shape.Builds good names fair) {ps ps' : List (Property Shape)}
    {e e' : Option Shape}
    (each : Forall₂ ((solo corpus options supply good names fair).Property live) ps ps')
    (extra : Option.Rel ((solo corpus options supply good names fair).shape live) e e')
    (named : names (ps.map (·.name))) :
    (solo corpus options supply good names fair).Parallel keys live
      (solo corpus options supply good names fair).shape (draw (Shape.ofProperties ps e))
      (draw (Shape.ofProperties ps' e')) := by
  obtain ⟨rfl, goods⟩ : ps' = ps ∧ ∀ p ∈ ps, good p.shape :=
    eq_and_forall_of_forall₂ (fun _ _ related => ⟨related.eq related.shape.1 related.optional, related.shape.2⟩) each
  cases extra with
  | none => exact solo_serial fun n => builds.object n named goods nofun
  | some related =>
    obtain ⟨rfl, holds⟩ := related
    exact solo_serial fun n => builds.object n named goods fun s equal => Option.some.inj equal ▸ holds

theorem Intact.refer (intact : Intact good keys st) (f : Frame) (taken : List (String × Nat))
    (name ref : String) : Intact good keys (st.refer f taken name ref) := by
  refine ⟨?_, intact.memo, fun id s found => ?_⟩
  · rw [← intact.frames, map_map]
    exact map_congr_left fun x _ => f.refer_key _ x
  · rw [Graph.target?_declare] at found
    exact intact.bound id s found

theorem Intact.close {top : Frame} {rest : List Frame} {s : Shape} {m : Memo}
    (intact : Intact good (key :: keys) st) (innermost : st.stack = top :: rest) (holds : good s)
    (shown : good m.shape) : Intact good keys (st.close top rest s m) := by
  refine ⟨?_, forall_mem_cons.mpr ⟨shown, intact.memo⟩, fun id t found => ?_⟩
  · have frames := intact.frames
    rw [innermost] at frames
    exact (cons.inj frames).2
  · unfold State.close Frame.bind at found
    cases handle : top.handle? with
    | none =>
      rw [handle] at found
      exact intact.bound id t found
    | some h =>
      rw [handle] at found
      rcases Graph.of_target?_bind found with rfl | old
      · exact holds
      · exact intact.bound id t old

theorem solo_handle (builds : Shape.Builds good names fair) (intact : Intact good keys st)
    (f : Frame) :
    (solo corpus options supply good names fair).Ends keys (fun _ => True)
      (fun live id id' => (solo corpus options supply good names fair).shape live (.handle id)
      (.handle id')) (handleOf f st) (handleOf f st) := by
  cases handle : f.handle? with
  | some id =>
    rw [handleOf_known handle]
    exact .ok ⟨rfl, intact⟩ le_rfl ⟨rfl, builds.handle id⟩
  | none =>
    obtain ⟨taken, name, ref, equal⟩ := handleOf_new st handle
    rw [equal]
    exact .ok ⟨rfl, intact.refer f taken name ref⟩ le_rfl ⟨rfl, builds.handle _⟩

theorem solo_close (builds : Shape.Builds good names fair) {f : Frame}
    (intact : Intact good (f.key :: keys) st) {r : Result} (holds : good r.1) :
    (solo corpus options supply good names fair).Ends keys (fun _ => True)
      (solo corpus options supply good names fair).Result (closeFrame f r st)
      (closeFrame f r st) := by
  cases ran : closeFrame f r st with
  | error e => exact .fault fun exhausted => closeFrame_lasts f _ st (exhausted ▸ ran)
  | ok result =>
    obtain ⟨top, rest, innermost, -⟩ := map_eq_cons_iff.mp intact.frames
    obtain ⟨⟨shape, low⟩, st₁⟩ := result
    obtain ⟨equal, rfl⟩ := (closeFrame_ok ran).2 top rest innermost
    have shown : good (top.shape r.1) := by
      unfold Frame.shape
      cases top.handle? with
      | none => exact holds
      | some id => exact builds.handle id
    obtain rfl : shape = top.shape r.1 := equal
    exact .ok ⟨rfl, intact.close innermost holds shown⟩ le_rfl ⟨⟨rfl, shown⟩, rfl⟩

theorem solo_lawful (builds : Shape.Builds good names fair) (stocked : Table.Stocked corpus supply)
    (admits : ∀ location s, corpus.get? location = some s →
      (solo corpus options supply good names fair).Admits s.keywords) :
    (solo corpus options supply good names fair).Lawful where
  toTables := solo_tables stocked
  mono _ _ _ _ _ := id
  admits present := admits _ _ present
  flat unnumbered := ⟨rfl, builds.flat (Shape.isFlat_of_isUnnumbered unnumbered)⟩
  format _ _ _ := solo_serial fun _ => builds.flat rfl
  literal _ _ _ holds := solo_serial fun n => builds.literal n holds
  items := by
    rintro keys live s _ ⟨rfl, inside⟩
    exact solo_serial fun n => builds.array n inside
  properties _ _ _ _ _ _ each extra named := solo_properties builds each extra named
  union := by
    rintro keys live inclusive _ ss each _ st ⟨rfl, intact⟩ -
    obtain ⟨rfl, goods⟩ := solo_shapes each
    exact solo_draw intact (Shape.unionOf_compares inclusive _) (builds.union inclusive goods)
  meet := by
    rintro keys live - _ a _ b ⟨rfl, left⟩ ⟨rfl, right⟩ _ st ⟨rfl, intact⟩ -
    have met : ∀ n, Compares False (a.intersect st.graph b n) := fun n e broken =>
      ⟨(Shape.intersect_compares st.graph a b n e broken).1, id⟩
    exact solo_draw intact met (builds.meet st.graph intact.bound left right)
  meetAll := by
    rintro keys live - _ ss each _ st ⟨rfl, intact⟩ -
    obtain ⟨rfl, goods⟩ := solo_shapes each
    exact solo_draw intact (Shape.intersectAll_compares st.graph _)
      (builds.meetAll st.graph intact.bound goods)
  malformed _ _ p _ _ := solo_malformed builds p _
  unresolved _ _ _ _ _ _ seen := seen.1 ▸ solo_report _
  lack _ _ _ _ := rfl
  demand more flags := congrArg (· && more) flags
  unnamed := builds.unnamed
  stopped states := by rw [states.1]
  same frames := by rw [frames]; exact ⟨rfl, rfl, rfl⟩
  stack states := by rw [states.1]; exact List.forall₂_same.mpr fun _ _ => rfl
  frames states := states.2.frames
  memo := by
    rintro keys _ st ⟨rfl, intact⟩
    exact List.forall₂_same.mpr fun m member => ⟨rfl, ⟨rfl, intact.memo m member⟩, rfl⟩
  handle := by
    rintro keys _ st ⟨rfl, intact⟩ f _ - rfl
    exact solo_handle builds intact f
  enter := by
    rintro keys _ st ⟨rfl, intact⟩ key _ t title ⟨rfl, -⟩ -
    exact ⟨⟨rfl, congrArg (key :: ·) intact.frames, intact.memo, intact.bound⟩, rfl, le_rfl⟩
  close := by
    rintro keys _ st f _ ⟨rfl, intact⟩ - rfl ⟨_, low₁⟩ ⟨shape, low?⟩ ⟨⟨rfl, holds⟩, low⟩
    obtain rfl : low? = low₁ := low
    exact solo_close builds intact holds
  spent budgets := absurd budgets.1 (Nat.not_lt_zero _)
  spent' budgets := absurd budgets.2 (Nat.not_lt_zero _)
  open_key := by
    rintro keys n n' ⟨enough, enough'⟩ t _ location s present ⟨-, drawn⟩ closed
    have fewer := waiting_cons_lt (keyOf_possible stocked drawn present) closed
    constructor <;> omega

theorem solo_derive (builds : Shape.Builds good names fair) (stocked : Table.Stocked corpus supply)
    (admits : ∀ location s, corpus.get? location = some s →
      (solo corpus options supply good names fair).Admits s.keywords) {t : Table}
    (drawn : t.Drawn supply) (intact : Intact good keys st) {n n' : Nat}
    (enough : waiting corpus supply keys < n) (enough' : waiting corpus supply keys < n')
    (location? : Option Location) (path : Path) :
    (solo corpus options supply good names fair).Ends keys (fun _ => True)
      (solo corpus options supply good names fair).Result (derive corpus options n location? t path
      st) (derive corpus options n' location? t path st) := by
  rw [← deriveBy_true, ← deriveBy_true]
  exact Pairing.derive_recurs (solo_lawful builds stocked admits) ⟨enough, enough'⟩ _ location? t t
    path (fun _ => ⟨rfl, drawn⟩) st st
    ⟨rfl, intact⟩ le_rfl

theorem eq_of_solo {r r' : Except Fault (Result × State)}
    (ends : (solo corpus options supply good names fair).Ends keys live
      (solo corpus options supply good names fair).Result r r') :
    r' = r ∧ r ≠ .error .exhausted := by
  cases ends with
  | ok states _ results =>
    refine ⟨?_, nofun⟩
    rw [states.1, Prod.ext results.shape.1 results.low]
  | fault reason => exact ⟨rfl, fun equal => reason (Except.error.inj equal)⟩

variable {seen : List Location} {t : Table} {location : Location}

/-- What following references comes to, without a budget: a schema that is none, or nothing. -/
inductive Chases (corpus : Corpus) : List Location → Table → Location → Option (Keywords Schema) → Prop
  | absent {seen : List Location} {t : Table} {location : Location}
      (absent : corpus.get? location = none) : Chases corpus seen t location none
  | ended {seen : List Location} {t : Table} {location : Location} {s : Schema}
      (present : corpus.get? location = some s)
      (plain : s.keywords.ref = "" ∨ s.keywords.boolean?.isSome = true) :
      Chases corpus seen t location (some s.keywords)
  | around {seen : List Location} {t : Table} {location : Location} {s : Schema}
      (present : corpus.get? location = some s)
      (refers : ¬ (s.keywords.ref = "" ∨ s.keywords.boolean?.isSome = true))
      (again : location ∈ seen) : Chases corpus seen t location none
  | lost {seen : List Location} {t : Table} {location : Location} {s : Schema}
      (present : corpus.get? location = some s)
      (refers : ¬ (s.keywords.ref = "" ∨ s.keywords.boolean?.isSome = true)) (new : location ∉ seen)
      (nowhere : ((t.enter corpus location).resolve corpus s.keywords.ref).bind (·.1) = none) :
      Chases corpus seen t location none
  | onward {seen : List Location} {t u : Table} {location target : Location} {s : Schema}
      {end? : Option (Keywords Schema)}
      (present : corpus.get? location = some s)
      (refers : ¬ (s.keywords.ref = "" ∨ s.keywords.boolean?.isSome = true))
      (new : location ∉ seen)
      (found : (t.enter corpus location).resolve corpus s.keywords.ref = some (some target, u))
      (chases : Chases corpus (location :: seen) u target end?) : Chases corpus seen t location end?

def unseen (corpus : Corpus) (seen : List Location) : Nat :=
  (corpus.places.filter fun place => place.1 ∉ seen).length

theorem unseen_cons_lt {s : Schema} (present : corpus.get? location = some s) (new : location ∉ seen) :
    unseen corpus (location :: seen) < unseen corpus seen := by
  have fewer : corpus.places.filter (fun place => place.1 ∉ location :: seen) =
      (corpus.places.filter fun place => place.1 ∉ seen).filter fun place => place.1 ≠ location := by
    rw [filter_filter]
    refine filter_congr fun place _ => ?_
    simp [not_or]
  unfold unseen
  rw [fewer]
  refine length_filter_lt_length_iff_exists.mpr
    ⟨(location, s), mem_filter.mpr ⟨Corpus.mem_places present, ?_⟩, by simp⟩
  simpa using new

theorem unseen_le_count (corpus : Corpus) (seen : List Location) : unseen corpus seen ≤ corpus.count := by
  have count : corpus.count = corpus.places.length := by
    have nodes : corpus.places.length = (corpus.toList.flatMap (·.walk)).length := by
      rw [← corpus.map_places, length_map]
    rw [nodes, length_flatMap, sum_eq_foldl, foldl_map, Corpus.count, ← Array.foldl_toList]
    rfl
  rw [count]
  exact length_filter_le _ _

theorem chases_aliasEnd? {n : Nat} (enough : unseen corpus seen < n) :
    Chases corpus seen t location (aliasEnd? corpus n seen t location) := by
  induction n generalizing seen t location with
  | zero => exact absurd enough (Nat.not_lt_zero _)
  | succ n ih =>
    rw [aliasEnd?]
    cases present : corpus.get? location with
    | none => exact .absent present
    | some s =>
      simp only [Option.bind_eq_bind, Option.bind_some]
      split_ifs with plain again
      · exact .ended present (by simpa using plain)
      · exact .around present (by simpa using plain) (by simpa using again)
      · have refers : ¬ (s.keywords.ref = "" ∨ s.keywords.boolean?.isSome = true) := by simpa using plain
        have new : location ∉ seen := by simpa using again
        cases found : (t.enter corpus location).resolve corpus s.keywords.ref with
        | none => exact .lost present refers new (by rw [found]; rfl)
        | some result =>
          obtain ⟨target?, u⟩ := result
          cases target? with
          | none => exact .lost present refers new (by rw [found]; rfl)
          | some target =>
            have fewer := unseen_cons_lt present new
            exact .onward present refers new found (ih (by omega))

theorem Chases.aliasEnd?_eq {end? : Option (Keywords Schema)}
    (chases : Chases corpus seen t location end?) {n : Nat} (enough : unseen corpus seen ≤ n) :
    aliasEnd? corpus (n + 1) seen t location = end? := by
  induction chases generalizing n with
  | absent absent =>
    rw [aliasEnd?, absent]
    rfl
  | ended present plain =>
    rw [aliasEnd?, present]
    exact if_pos (by simpa using plain)
  | around present refers again =>
    rw [aliasEnd?, present]
    exact (if_neg (by simpa using refers)).trans (if_pos (by simpa using again))
  | @lost _ t location s present refers new nowhere =>
    rw [aliasEnd?, present]
    refine (if_neg (by simpa using refers)).trans ((if_neg (by simpa using new)).trans ?_)
    cases found : (t.enter corpus location).resolve corpus s.keywords.ref with
    | none => rfl
    | some result =>
      rw [found] at nowhere
      obtain ⟨target?, u⟩ := result
      cases nowhere
      rfl
  | onward present refers new found _ ih =>
    have fewer := unseen_cons_lt present new
    obtain ⟨n, rfl⟩ := Nat.exists_eq_add_one_of_ne_zero (by omega : n ≠ 0)
    rw [aliasEnd?, present]
    refine (if_neg (by simpa using refers)).trans ((if_neg (by simpa using new)).trans ?_)
    rw [found]
    exact ih (by omega)

/-- Derivations end, from any state and with any table: a budget above the number of keys that can
be opened lasts, and a larger one gives the same answer. So does following references, with one
above the number of unseen schemas. -/
theorem derive_ends (corpus : Corpus) (options : Options) (location? : Option Location) (t : Table)
    (path : Path) (st : State) (more : Nat) :
    (derive corpus options (deriveBudget corpus t) location? t path st ≠ .error .exhausted ∧
      waiting corpus (t.stock corpus) (st.stack.map (·.key)) < deriveBudget corpus t ∧
      derive corpus options (waiting corpus (t.stock corpus) (st.stack.map (·.key)) + more + 1)
          location? t path st =
        derive corpus options (deriveBudget corpus t) location? t path st) ∧
    ∀ seen location, unseen corpus seen ≤ corpus.count ∧
      ∀ end?, Chases corpus seen t location end? ↔
        aliasEnd? corpus (unseen corpus seen + more + 1) seen t location = end? := by
  have builds : Shape.Builds (fun _ => True) (fun _ => True) (fun _ => True) := by
    constructor <;> intros <;> first | trivial | exact fun _ _ _ _ => trivial
  have admits : ∀ location s, corpus.get? location = some s →
      (solo corpus options (t.stock corpus) (fun _ => True) (fun _ => True) fun _ =>
      True).Admits s.keywords :=
    fun _ _ _ => ⟨fun _ _ => trivial, fun _ _ => trivial, fun _ _ _ _ =>
      trivial, .inr trivial, fun _ => .inr trivial⟩
  have intact : Intact (fun _ => True) (st.stack.map (·.key)) st :=
    ⟨rfl, fun _ _ => trivial, fun _ _ _ => trivial⟩
  have enough := waiting_lt_deriveBudget corpus t (st.stack.map (·.key))
  obtain ⟨same, lasts⟩ :=
    eq_of_solo (solo_derive builds (Table.stocked_stock corpus t) admits
    (Table.drawn_stock corpus t) intact enough
    (Nat.lt_succ_of_le (Nat.le_add_right _ more)) location? path)
  refine ⟨⟨lasts, enough, same⟩, fun seen location => ⟨unseen_le_count corpus seen, fun end? => ?_⟩⟩
  have enough : unseen corpus seen ≤ unseen corpus seen + more := Nat.le_add_right _ more
  exact ⟨fun chases => chases.aliasEnd?_eq enough, fun equal =>
    equal ▸ chases_aliasEnd? (Nat.lt_succ_of_le enough)⟩

end Derivation

end JsonShape
