import JsonShape.Proofs.PathTokens
import JsonShape.Proofs.Termination
import JsonShape.Proofs.Visiting

/-! The names of handles. A handle is called by a stem and by how often the stem was used before it,
so two handles have one name only where a stem is another stem with digits behind it. -/
namespace JsonShape
open List Entries

def numbered (tag : String × Nat) : String := if tag.2 > 1 then tag.1 ++ toString tag.2 else tag.1

/-- A text that is a shorter text with digits behind it. -/
def Prolongs (short long : String) : Prop :=
  short ≠ long ∧ short.toList <+: long.toList ∧ ∀ c ∈ long.toList.drop short.toList.length,
    Text.isDigit c = true

instance (short long : String) : Decidable (Prolongs short long) := by unfold Prolongs; infer_instance

theorem prolongs_append {short long : String} {digits : List Char}
    (split : long.toList = short.toList ++ digits) (some : digits ≠ [])
    (each : ∀ c ∈ digits, Text.isDigit c = true) : Prolongs short long := by
  refine ⟨?_, split ▸ prefix_append _ _, ?_⟩
  · rintro rfl
    exact some (append_right_eq_self.mp split.symm)
  · rw [split, drop_left]
    exact each

def numeral (count : Nat) : List Char := if count > 1 then Nat.toDigits 10 count else []

theorem numbered_toList (tag : String × Nat) : (numbered tag).toList = tag.1.toList ++ numeral tag.2 := by
  unfold numbered numeral
  split_ifs
  · rw [String.toList_append, (Step.digits_toString tag.2).1]
  · exact (append_nil _).symm

theorem isDigit_of_mem_numeral {count : Nat} {c : Char} (member : c ∈ numeral count) :
    Text.isDigit c = true := by
  unfold numeral at member
  split_ifs at member
  · exact (Step.digits_toString count).2 c member
  · cases member

theorem numeral_inj {m n : Nat} (first : 0 < m) (second : 0 < n) (same : numeral m = numeral n) :
    m = n := by
  have value : ∀ {count : Nat}, count > 1 → Nat.ofDigitChars 10 (numeral count) 0 = count := by
    intro count more
    rw [numeral, if_pos more, Nat.ofDigitChars_toDigits (by decide) (by decide)]
  have empty : ∀ {count : Nat}, ¬ count > 1 → Nat.ofDigitChars 10 (numeral count) 0 = 0 := by
    intro count once
    rw [numeral, if_neg once]
    rfl
  by_cases more : m > 1 <;> by_cases more' : n > 1
  · rw [← value more, same, value more']
  · have := (value more).symm.trans ((congrArg (Nat.ofDigitChars 10 · 0) same).trans (empty more'))
    omega
  · have := (value more').symm.trans ((congrArg (Nat.ofDigitChars 10 · 0) same.symm).trans (empty more))
    omega
  · omega

theorem numbered_inj {a b : String × Nat} (first : 0 < a.2) (second : 0 < b.2)
    (same : numbered a = numbered b) : a = b ∨ Prolongs a.1 b.1 ∨ Prolongs b.1 a.1 := by
  have texts := congrArg String.toList same
  rw [numbered_toList, numbered_toList] at texts
  have settle : ∀ {a b : String × Nat} {digits : List Char}, 0 < a.2 → 0 < b.2 →
      b.1.toList = a.1.toList ++ digits →
      numeral a.2 = digits ++ numeral b.2 → a = b ∨ Prolongs a.1 b.1 := by
    intro a b digits first second split numerals
    by_cases none : digits = []
    · subst none
      refine .inl (Prod.ext (String.toList_inj.mp ?_) (numeral_inj first second numerals))
      rw [split, append_nil]
    · refine .inr (prolongs_append split none fun c member => ?_)
      have within : c ∈ numeral a.2 := numerals ▸ mem_append_left _ member
      exact isDigit_of_mem_numeral within
  rcases append_eq_append_iff.mp texts with ⟨digits, split, numerals⟩ | ⟨digits, split, numerals⟩
  · exact (settle first second split numerals).imp_right .inl
  · exact (settle second first split numerals).elim (fun equal => .inl equal.symm) fun longer =>
      .inr (.inr longer)

def Graph.names (g : Graph) : List String := g.handles.toList.map (·.name)

theorem Graph.names_bind (g : Graph) (id : Nat) (s : Shape) : (g.bind id s).names = g.names := by
  unfold names bind
  apply ext_getElem?
  intro i
  simp only [getElem?_map, Array.getElem?_toList, Array.getElem?_modify]
  split_ifs
  · cases g.handles[i]? <;> rfl
  · rfl

theorem Graph.names_declare (g : Graph) (name ref : String) :
    (g.declare name ref).2.names = g.names ++ [name] := by
  simp [names, declare]

theorem Graph.nameOf_eq (g : Graph) (id : Nat) : g.nameOf id = g.names[id]?.getD "" := by
  simp [nameOf, names]

namespace Derivation

variable {corpus : Corpus} {options : Options} {supply : List Entry} {stems old : List String}
  {keys : List Key} {st st' : State} {f : Frame} {node : Location} {o : Outcome} {t : Table}
  {id : Nat}

def Frame.stem (f : Frame) : String :=
  let camel := Text.Camel.ofText (baseName f).1
  if camel != "" then camel else if f.depth > 0 then "Node" else "Root"

def entryStem (e : Entry) : String :=
  match e.name? with
  | some name => name
  | none => if e.id == "" then "" else idName e.id

def stemsOf (corpus : Corpus) (supply : List Entry) : List String :=
  "Root" :: "Node" :: ((supply.map entryStem ++ corpus.places.map (·.2.keywords.title)).map
    Text.Camel.ofText).filter (· != "")

theorem stem_mem (drawn : f.table.Drawn supply)
    (titled : ∃ place ∈ corpus.places, place.2.keywords.title = f.title) :
    f.stem ∈ stemsOf corpus supply := by
  have title : f.title ∈ supply.map entryStem ++ corpus.places.map (·.2.keywords.title) :=
    mem_append_right _ (mem_map.mpr titled)
  have base : (baseName f).1 ∈ supply.map entryStem ++ corpus.places.map (·.2.keywords.title) := by
    unfold baseName
    cases found : f.table.innermost? fun e => e.node? == some f.key.node with
    | none => exact title
    | some e =>
      have inside : e ∈ supply := drawn.subset (Table.innermost?_mem found)
      have listed : entryStem e ∈ supply.map entryStem ++ corpus.places.map (·.2.keywords.title) :=
        mem_append_left _ (mem_map.mpr ⟨e, inside, rfl⟩)
      change (if entryStem e == "" then f.title else entryStem e) ∈ _
      split_ifs
      · exact title
      · exact listed
  unfold Frame.stem stemsOf
  dsimp only
  split_ifs with worded
  · exact mem_cons_of_mem _ (mem_cons_of_mem _ (mem_filter.mpr ⟨mem_map.mpr ⟨_, base, rfl⟩, worded⟩))
  · exact mem_cons_of_mem _ mem_cons_self
  · exact mem_cons_self

theorem handleOf_called (st : State) (unknown : f.handle? = none) :
    ∃ ref, handleOf f st =
      .ok (st.graph.handles.size,
      st.refer f (insert f.stem ((get? st.names f.stem).getD 0 + 1) st.names)
      (numbered (f.stem, (get? st.names f.stem).getD 0 + 1)) ref) := by
  have named : freshName f st =
      .ok ((numbered (f.stem, (get? st.names f.stem).getD 0 + 1), (baseName f).2),
      { st with names := insert f.stem ((get? st.names f.stem).getD 0 + 1) st.names }) := by
    unfold freshName Frame.stem
    generalize baseName f = called
    rfl
  refine ⟨(baseName f).2, ?_⟩
  change (handleOf f).run st = _
  unfold handleOf
  rw [unknown]
  simp only [StateT.run_bind]
  change (freshName f st >>= _) = _
  rw [named]
  rfl

/-- A state in which the names that are not old are stems with numbers, each used once. -/
structure Called (stems old : List String) (st : State) : Prop where
  frames : ∀ f ∈ st.stack, f.stem ∈ stems
  names : ∃ tags : List (String × Nat), tags.Nodup ∧ st.graph.names = old ++ tags.map numbered ∧
    ∀ tag ∈ tags, tag.1 ∈ stems ∧ 0 < tag.2 ∧ tag.2 ≤ (get? st.names tag.1).getD 0

namespace Called

theorem quiet (called : Called stems old st) (stack : st'.stack ⊆ st.stack) (names : st'.names = st.names)
    (graph : st'.graph.names = st.graph.names) : Called stems old st' := by
  refine ⟨fun f member => called.frames f (stack member), ?_⟩
  rw [names, graph]
  exact called.names

theorem handle (called : Called stems old st) (member : f ∈ st.stack)
    (ran : handleOf f st = .ok (id, st')) : Called stems old st' := by
  cases known : f.handle? with
  | some id =>
    rw [handleOf_known known] at ran
    cases ran
    exact called
  | none =>
    obtain ⟨ref, equal⟩ := handleOf_called st known
    rw [equal] at ran
    cases ran
    obtain ⟨tags, distinct, names, each⟩ := called.names
    have stemmed := called.frames f member
    generalize f.stem = stem at stemmed
    generalize counted : (get? st.names stem).getD 0 = count
    refine ⟨fun g inside => ?_, tags ++ [(stem, count + 1)], ?_, ?_, fun tag inside => ?_⟩
    · obtain ⟨g, before, rfl⟩ := mem_map.mp inside
      have same : (f.refer st.graph.handles.size g).stem = g.stem := by
        unfold Frame.refer
        split_ifs <;> rfl
      rw [same]
      exact called.frames g before
    · refine nodup_append.mpr ⟨distinct, nodup_singleton _, fun a inside b new same => ?_⟩
      obtain rfl : a = (stem, count + 1) := same.trans (mem_singleton.mp new)
      have bounded : count + 1 ≤ (get? st.names stem).getD 0 := (each _ inside).2.2
      omega
    · rw [Graph.names_declare, names, map_append, append_assoc]
      rfl
    · change tag.1 ∈ stems ∧ 0 < tag.2 ∧ tag.2 ≤ (get? (insert stem (count + 1) st.names) tag.1).getD 0
      rw [get?_insert]
      rcases mem_append.mp inside with before | new
      · obtain ⟨listed, some, bounded⟩ := each tag before
        refine ⟨listed, some, ?_⟩
        split_ifs with same
        · rw [← same, counted] at bounded
          exact bounded.trans (Nat.le_succ _)
        · exact bounded
      · rw [mem_singleton.mp new, if_pos rfl]
        exact ⟨stemmed, Nat.succ_pos _, le_rfl⟩

end Called

/-- A derivation beside itself, with names that are not old from the stems of a stock. -/
def calling (corpus : Corpus) (options : Options) (supply : List Entry) (old : List String) : Pairing :=
  { solo corpus options supply (fun _ => True) (fun _ => True) (fun _ => True) with
    state := fun keys st st' => (st' = st ∧ Intact (fun _ => True) keys st) ∧
        Called (stemsOf corpus supply) old st }

section Calling

variable {α β : Type} {R R' : (Nat → Prop) → α → β → Prop} {f : Derive α} {f' : Derive β}
  {live : Nat → Prop}

def Quiet (f : Derive α) : Prop :=
  ∀ st a st', f st = .ok (a, st') → st'.stack = st.stack ∧ st'.names = st.names ∧
    st'.graph.names = st.graph.names

theorem quiet_draw (f : Fresh α) : Quiet (draw f) := by
  intro st a st' ran
  rw [draw_eq] at ran
  cases drawn : f st.graph.next with
  | error e =>
    rw [drawn] at ran
    cases ran
  | ok result =>
    rw [drawn] at ran
    cases ran
    exact ⟨rfl, rfl, rfl⟩

theorem quiet_report (issue : Issue) : Quiet (report options issue) := by
  intro st _ st' ran
  cases ran
  dsimp only
  split_ifs <;> exact ⟨rfl, rfl, rfl⟩

theorem quiet_malformed (p : Path) (message : String) : Quiet (malformed options p message) := by
  intro st r st' ran
  unfold malformed at ran
  split_ifs at ran
  · obtain ⟨_, st₁, told, ran⟩ := bind_run ran
    cases ran
    exact quiet_report _ _ _ _ told
  · cases ran
    exact ⟨rfl, rfl, rfl⟩

theorem calling_of_solo {r : Except Fault (α × State)} {r' : Except Fault (β × State)}
    (ends : (solo corpus options supply (fun _ => True) (fun _ => True) fun _ => True).Ends
      keys live R r r') (same : ∀ live a b, R live a b → R' live a b)
    (called : ∀ a st, r = .ok (a, st) → Called (stemsOf corpus supply) old st) :
    (calling corpus options supply old).Ends keys live R' r r' := by
  cases ends with
  | ok states grows results => exact .ok ⟨states, called _ _ rfl⟩ grows (same _ _ _ results)
  | fault reason => exact .fault reason

theorem calling_quiet (quiet : Quiet f)
    (parallel : (solo corpus options supply (fun _ => True) (fun _ => True) fun _ => True).Parallel
      keys live R f f') (same : ∀ live a b, R live a b → R' live a b) :
    (calling corpus options supply old).Parallel keys live R' f f' := by
  rintro st st' ⟨states, called⟩ already
  refine calling_of_solo (parallel st st' states already) same fun a st₁ ran => ?_
  obtain ⟨stack, names, graph⟩ := quiet st a st₁ ran
  exact called.quiet (by rw [stack]; exact Subset.refl _) names graph

theorem Called.close {f : Frame} {r r' : Result} (called : Called stems old st)
    (frames : st.stack.map (·.key) = f.key :: keys) (ran : closeFrame f r st = .ok (r', st')) :
    Called stems old st' := by
  obtain ⟨top, rest, innermost, -⟩ := map_eq_cons_iff.mp frames
  obtain ⟨-, rfl⟩ := (closeFrame_ok ran).2 top rest innermost
  refine called.quiet ?_ rfl ?_
  · rw [innermost]
    exact subset_cons_self _ _
  · change (top.bind st.graph r.1).names = _
    unfold Frame.bind
    cases top.handle? with
    | none => rfl
    | some id => exact st.graph.names_bind id r.1

theorem calling_draw {f f' : Fresh Shape}
    (parallel : (solo corpus options supply (fun _ => True) (fun _ => True) fun _ => True).Parallel
      keys live (solo corpus options supply (fun _ => True) (fun _ => True) fun _ => True).shape
      (draw f) (draw f')) :
    (calling corpus options supply old).Parallel keys live (calling corpus options supply old).shape
      (draw f) (draw f') :=
  calling_quiet (quiet_draw f) parallel fun _ _ _ => id

theorem Called.enter (called : Called (stemsOf corpus supply) old st) (key : Key) {t : Table}
    (drawn : t.Drawn supply) {title : String}
    (titled : ∃ place ∈ corpus.places, place.2.keywords.title = title) :
    Called (stemsOf corpus supply) old (st.enter (st.nextFrame key t title)) := by
  refine ⟨fun f member => ?_, called.names⟩
  rcases mem_cons.mp member with rfl | inside
  · exact stem_mem drawn titled
  · exact called.frames f inside

theorem calling_lawful (stocked : Table.Stocked corpus supply) :
    (calling corpus options supply old).Lawful := by
  have builds : Shape.Builds (fun _ => True) (fun _ => True) (fun _ => True) := by
    constructor <;> intros <;> first | trivial | exact fun _ _ _ _ => trivial
  have lawful : (solo corpus options supply (fun _ => True) (fun _ => True) fun _ => True).Lawful :=
    solo_lawful builds stocked fun _ _ _ => .of_all (fun _ => trivial) (fun _ => trivial) trivial _
  constructor
  case toTables => exact ⟨lawful.enterSchema, lawful.resolve, lawful.key, lawful.aliasEnd⟩
  case mono => exact lawful.mono
  case admits => exact fun _ => .of_all (fun _ => trivial) (fun _ => trivial) trivial _
  case flat => exact fun _ => ⟨rfl, trivial⟩
  case format => exact fun keys live f => calling_draw (lawful.format keys live f)
  case literal => exact fun keys live _ fair => calling_draw (lawful.literal keys live fair)
  case items => exact fun keys _ _ _ inside => calling_draw (lawful.items keys inside)
  case properties =>
    intro keys live ps ps' e e' each extra named
    have each' : Forall₂ ((solo corpus options supply (fun _ => True) (fun _ => True) fun _ =>
        True).Property live) ps ps' :=
      each.imp fun _ _ related => ⟨related.name, related.shape, related.optional, related.default⟩
    exact calling_draw (lawful.properties keys each' extra named)
  case union => exact fun keys _ inclusive _ _ each => calling_draw (lawful.union keys inclusive each)
  case meet =>
    intro keys live meets a a' b b' left right
    exact calling_quiet (fun st => quiet_draw _ st) (lawful.meet keys meets left right) fun _ _ _ => id
  case meetAll =>
    intro keys live meets ss ss' each
    exact calling_quiet (fun st => quiet_draw _ st) (lawful.meetAll keys meets each) fun _ _ _ => id
  case malformed =>
    intro keys live p message complaint
    exact calling_quiet (quiet_malformed p _) (lawful.malformed keys live p complaint)
      fun _ _ _ related => ⟨related.shape, related.low⟩
  case unresolved =>
    intro keys live p key t t' seen
    exact calling_quiet (quiet_report _) (lawful.unresolved keys live p key seen) fun _ _ _ => id
  case lack => exact lawful.lack
  case demand => exact lawful.demand
  case unnamed => exact lawful.unnamed
  case stopped => exact fun states => lawful.stopped states.1
  case same => exact lawful.same
  case stack => exact fun states => lawful.stack states.1
  case frames => exact fun states => lawful.frames states.1
  case memo =>
    intro keys st st' states
    exact (lawful.memo states.1).imp fun _ _ related => ⟨related.key, related.shape, related.frame⟩
  case handle =>
    rintro keys st st' ⟨states, called⟩ f f' member frames
    exact calling_of_solo (lawful.handle states member frames) (fun _ _ _ => id) fun _ _ ran =>
      called.handle member ran
  case enter =>
    rintro keys st st' ⟨states, called⟩ key t t' title seen titled
    obtain ⟨entered, same, grows⟩ := lawful.enter states key title seen titled
    exact ⟨⟨entered, called.enter key seen.2 titled⟩, same, grows⟩
  case close =>
    rintro keys st st' f f' ⟨states, called⟩ depth frames r r' results
    refine calling_of_solo (lawful.close states depth frames ⟨results.shape, results.low⟩)
      (fun _ _ _ related => ?_) fun _ _ ran => ?_
    · exact ⟨related.shape, related.low⟩
    · exact called.close (lawful.frames states) ran
  case spent => exact lawful.spent
  case spent' => exact lawful.spent'
  case open_key => exact lawful.open_key

end Calling

theorem Called.apart (called : Called stems old st) {i j : Nat} (new : old.length ≤ i)
    (less : i < j) (inside : j < st.graph.handles.size)
    (same : st.graph.nameOf i = st.graph.nameOf j) : ∃ a ∈ stems, ∃ b ∈ stems, Prolongs a b := by
  obtain ⟨tags, distinct, names, each⟩ := called.names
  have length : st.graph.handles.size = old.length + tags.length := by
    have lengths := congrArg length names
    simpa [Graph.names] using lengths
  have named : ∀ {k : Nat} (bound : k < tags.length), st.graph.nameOf (old.length + k) =
      numbered tags[k] := by
    intro k bound
    rw [Graph.nameOf_eq, names, getElem?_append_right (Nat.le_add_right _ _), Nat.add_sub_cancel_left,
      getElem?_eq_getElem (by simpa using bound), getElem_map]
    rfl
  obtain ⟨k, rfl⟩ := Nat.exists_eq_add_of_le new
  obtain ⟨l, rfl⟩ := Nat.exists_eq_add_of_le (new.trans less.le)
  have first : k < tags.length := by omega
  have second : l < tags.length := by omega
  rw [named first, named second] at same
  obtain ⟨stem, some, -⟩ := each _ (getElem_mem first)
  obtain ⟨stem', some', -⟩ := each _ (getElem_mem second)
  rcases numbered_inj some some' same with equal | longer | longer
  · have := (Nodup.getElem_inj_iff distinct).mp equal
    omega
  · exact ⟨_, stem, _, stem', longer⟩
  · exact ⟨_, stem', _, stem, longer⟩

theorem run_called {g g' : Graph} (ran : run corpus node t options g = .ok (o, g')) :
    ∃ st, st.graph = g' ∧ Called (stemsOf corpus ((startTable corpus node t).stock corpus))
      g.names st := by
  have lawful : (calling corpus options ((startTable corpus node t).stock corpus) g.names).Lawful :=
    calling_lawful (Table.stocked_stock corpus (startTable corpus node t))
  have enough := waiting_lt_deriveBudget corpus (startTable corpus node t) []
  have called : Called (stemsOf corpus ((startTable corpus node t).stock corpus)) g.names { graph := g } :=
    ⟨nofun, [], nodup_nil, (append_nil _).symm, nofun⟩
  have recurs := Pairing.derive_recurs lawful (n := deriveBudget corpus (startTable corpus node t))
      ⟨enough, enough⟩ (fun _ => True) (some node)
    (startTable corpus node t) _ .root (fun _ => ⟨rfl, Table.drawn_stock corpus _⟩)
    { graph := g } { graph := g }
    ⟨⟨rfl, rfl, nofun, fun _ _ _ => trivial⟩, called⟩ le_rfl
  change Pairing.Ends _ _ _ _ (deriveBy true corpus options _ _ _ _ _)
    (deriveBy true corpus options _ _ _ _ _) at recurs
  rw [run_eq] at ran
  rw [deriveBy_true] at recurs
  revert ran recurs
  generalize derive corpus options (deriveBudget corpus (startTable corpus node t)) (some node)
    (startTable corpus node t) .root
    { graph := g } = derived
  intro ran ends
  cases ends with
  | ok states _ _ =>
    cases ran
    exact ⟨_, rfl, states.2⟩
  | fault => cases ran

theorem run_reaches_new {g g' : Graph} {s : Shape} (ran : run corpus node t options g = .ok (o, g'))
    (result : o.result = .ok s) (reached : g'.Reaches s (.handle id)) :
    g.handles.size ≤ id ∧ id < g'.handles.size := by
  cases present : corpus.get? node with
  | none =>
    obtain ⟨rfl, rfl⟩ := Prod.mk.inj (Except.ok.inj ((run_absent present).symm.trans ran))
    cases result
    have only : ∀ r, g.Reaches .any r → r = .any := by
      intro r reached
      induction reached with
      | self => rfl
      | piece _ member ih =>
        rw [ih] at member
        cases member
      | target _ _ ih => cases ih
    cases only _ reached
  | some root =>
    have along : RunsAlong False g (run corpus node t options {}) (run corpus node t options g) :=
      run_along present (.refl _) False.elim g
    rw [ran] at along
    generalize run corpus node t options {} = first at along
    cases along with
    | ok copied _ =>
      refine ⟨?_, Graph.lt_size_of_bound (copied.leaves_reached result reached).of_handle⟩
      obtain ⟨s₀, r₀, -, -, same⟩ := copied.exists_reached result reached
      cases r₀ with
      | handle i =>
        obtain rfl : id = i + g.handles.size := Shape.handle.inj same
        exact Nat.le_add_left _ _
      | _ => cases same

/-- Two handles that a derivation creates have one name only if a stem is another stem with digits
behind it. If none is, the declarations have different names. -/
theorem run_names (documents : corpus.DocumentConstants) (t : Table) (node : Location)
    (options : Options) (g : Graph) :
    let stems := stemsOf corpus ((startTable corpus node t).stock corpus)
    ∃ o g', run corpus node t options g = .ok (o, g') ∧
      (∀ i j, g.handles.size ≤ i → i < j → j < g'.handles.size → g'.nameOf i = g'.nameOf j →
      ∃ a ∈ stems, ∃ b ∈ stems, Prolongs a b) ∧
      ((∀ a ∈ stems, ∀ b ∈ stems, ¬ Prolongs a b) → ∀ s, o.result = .ok s →
      ((g'.handlesIn s).map g'.nameOf).Nodup) := by
  intro stems
  obtain ⟨o, g', ran, -⟩ := run_tour documents node options g
  have apart : ∀ i j, g.handles.size ≤ i → i < j → j < g'.handles.size → g'.nameOf i = g'.nameOf j →
      ∃ a ∈ stems, ∃ b ∈ stems, Prolongs a b := by
    intro i j new less inside same
    obtain ⟨st, rfl, called⟩ := run_called ran
    exact called.apart (by simpa [Graph.names] using new) less inside same
  refine ⟨o, g', ran, apart, fun clear s result =>
    (g'.nodup_handlesIn s).map_on fun i first j second same => ?_⟩
  obtain ⟨low, high⟩ := run_reaches_new ran result (Graph.mem_handlesIn.mp first)
  obtain ⟨low', high'⟩ := run_reaches_new ran result (Graph.mem_handlesIn.mp second)
  by_contra differ
  rcases Nat.lt_or_gt_of_ne differ with less | greater
  · obtain ⟨a, stem, b, stem', longer⟩ := apart i j low less high' same
    exact clear a stem b stem' longer
  · obtain ⟨a, stem, b, stem', longer⟩ := apart j i low' greater high same.symm
    exact clear a stem b stem' longer

def listsSchema (names : List String) : Schema :=
  let refer (name : String) : Option Schema := some (.node { ref := "#/$defs/" ++ name })
  .node {
    type := .one "object", properties? := some (names.map fun name => (name, refer name))
    defs? := some (names.map fun name =>
        (name, some (.node { type := .one "array", items? := refer name }))) }

theorem run_names_lists : ∃ o g', run #[listsSchema ["A", "B", "a"]] ⟨0, []⟩ .empty {} {} = .ok (o, g') ∧
    ∀ s, o.result = .ok s → ((g'.handlesIn s).map g'.nameOf).Nodup := by
  have documents : Corpus.DocumentConstants #[listsSchema ["A", "B", "a"]] := .of_none (by decide +kernel)
  obtain ⟨o, g', ran, -, apart⟩ := run_names documents .empty ⟨0, []⟩ {} {}
  exact ⟨o, g', ran, apart (by decide +kernel)⟩

/-- The second list that is called A and the first that is called A2 have one name. -/
theorem lists_share_name :
    ∃ s g', run #[listsSchema ["A", "A2", "a"]] ⟨0, []⟩ .empty {} {} = .ok (⟨.ok s, []⟩, g') ∧
      (g'.handlesIn s).map g'.nameOf = ["A", "A2", "A2"] := by
  refine ⟨_, _, by cbv, ?_⟩
  cbv

end Derivation

end JsonShape
