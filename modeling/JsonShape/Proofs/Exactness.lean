import JsonShape.Proofs.PlainRules
import Mathlib

/-! Exactness: the shape that is derived from a plain schema accepts the values that are valid
against it. -/
namespace JsonShape.Derivation

open Schema Number.Spelling List Entries Table

variable {root s : Schema} {steps : List Step} {name : String}

variable {corpus : Corpus} {options : Options} {start : Location} {trail : List (List Step)} {t : Table}

def below (start : Location) (steps : List Step) : Location := ⟨start.document, start.steps ++ steps⟩

theorem below_child (start : Location) (steps : List Step) (step : Step) :
    (below start steps).child step = below start (steps ++ [step]) := by
  simp [below, Location.child]

theorem below_injective (start : Location) : Function.Injective (below start) := by
  intro steps steps' equal
  simpa [below] using equal

theorem get?_below (present : corpus.get? start = some root) (steps : List Step) :
    corpus.get? (below start steps) = root.at? steps := by
  unfold Corpus.get? at present ⊢
  obtain ⟨document, found, reached⟩ := Option.bind_eq_some_iff.mp present
  rw [below, found, Option.bind_some, at?_append, reached, Option.bind_some]

/-- The table has the root and its definitions. -/
def Serves (root : Schema) (start : Location) (t : Table) : Prop :=
  ∀ e, e ∈ t.entries ↔ e = .resource "" start ∨
    ∃ name s?, (name, s?) ∈ root.keywords.defs?.getD [] ∧
    ⟨"", some name, s?.map fun _ => start.child (.defs name)⟩ = e

theorem Serves.push (serves : Serves root start t) : Serves root start (t.push (.resource "" start)) := by
  intro e
  rw [mem_push, serves e, ← or_assoc, or_self]

theorem Serves.resolve (serves : Serves root start t) (ordered : root.keywords.Ordered)
    (declared : root.child? (.defs name) = some s) :
    t.resolve corpus (definitionRef name) =
      some (some (below start [.defs name]), t.push (.resource "" start)) := by
  have resource : t.resource? = some (.resource "" start) := by
    refine innermost?_eq_some ((serves _).mpr (.inl rfl)) rfl fun e member isResource => ?_
    rcases (serves e).mp member with rfl | ⟨name, s?, _, rfl⟩
    · rfl
    · cases isResource
  obtain ⟨defs, set, found⟩ :
      ∃ defs, root.keywords.defs? = some defs ∧ get? defs name = some (some s) := by
    simpa [child?, Option.join_eq_some_iff, Option.bind_eq_some_iff] using declared
  have ascending := ordered.defs
  rw [set] at ascending
  have definition : t.definition? "" name = some ⟨"", some name, some (start.child (.defs name))⟩ := by
    refine innermost?_eq_some ((serves _).mpr (.inr ⟨name, some s, ?_, rfl⟩))
      (by simp) fun e member matching => ?_
    · rw [set]
      exact mem_of_get?_eq_some found
    · rcases (serves e).mp member with rfl | ⟨name', s?, member', rfl⟩
      · cases matching
      · obtain rfl : name' = name := by simpa using matching
        rw [set] at member'
        obtain rfl := Option.some.inj ((get?_eq_some_of_mem ascending member').symm.trans found)
        rfl
  exact resolve_definition resource definition

theorem enterSchema_eq_self (plain : Plain root s) (bare : s.keywords.defs? = none) (t : Table)
    (location : Location) (scope : String) : t.enterSchema s.keywords location scope = t := by
  simp [enterSchema, id_eq_empty plain, Keywords.localDefs, bare, definitions_eq_none plain, union]

structure Known (root : Schema) (start : Location) (m : Memo) : Prop where
  ends : m.frame? = none
  exact : ∀ steps s, m.key.node = below start steps → root.at? steps = some s → Exact root s m.shape

theorem length_lt_of_nodup (present : corpus.get? start = some root) (distinct : trail.Nodup)
    (placed : ∀ steps ∈ trail, (root.at? steps).isSome = true) :
    trail.length ≤ (corpus.toList.flatMap (·.walk)).length := by
  have distinct' : (trail.map (start.steps ++ ·)).Nodup :=
    distinct.map fun _ _ equal => by simpa using equal
  have inside : trail.map (start.steps ++ ·) ⊆ (corpus.toList.flatMap (·.walk)).map Prod.fst := by
    intro steps member
    obtain ⟨more, member', rfl⟩ := mem_map.mp member
    obtain ⟨s, reached⟩ := Option.isSome_iff_exists.mp (placed more member')
    rw [← get?_below present] at reached
    exact mem_map.mpr ⟨_, Corpus.mem_walk_of_get? reached, rfl⟩
  simpa using (distinct'.subperm inside).length_le

/-- What is being read: the place that is reached and those on the way, innermost first, with a
frame open for each. -/
structure Reading (root : Schema) (start : Location) (stack : List Frame) (steps : List Step)
    (trail : List (List Step)) : Prop where
  leads : (steps :: trail).IsChain fun steps before => Leads root before steps
  placed : ∀ place ∈ steps :: trail, (root.at? place).isSome = true
  frames : stack.map (·.key.node) = trail.map (below start)

namespace Reading

variable {stack : List Frame} {next : List Step}

theorem distinct (reading : Reading root start stack steps trail) (plain : root.PlainRoot) :
    (steps :: trail).Nodup := by
  have far : (steps :: trail).IsChain fun steps before => Relation.TransGen (Leads root) before steps :=
    reading.leads.imp fun _ _ => .single
  refine (isChain_iff_pairwise.mp far).imp fun leads equal => ?_
  subst equal
  exact plain.not_leads_back _ leads

theorem into (reading : Reading root start stack steps trail) (leads : Leads root steps next)
    (placed : (root.at? next).isSome = true) {f : Frame} (here : f.key.node = below start steps) :
    Reading root start (f :: stack) next (steps :: trail) where
  leads := .cons_cons leads reading.leads
  placed := forall_mem_cons.mpr ⟨placed, reading.placed⟩
  frames := by rw [map_cons, map_cons, here, reading.frames]

theorem find?_eq_none (reading : Reading root start stack steps trail) (plain : root.PlainRoot)
    (s : Schema) (t : Table) : stack.find? (·.key == keyOf s (below start steps) t) = none := by
  refine List.find?_eq_none.mpr fun f member same => ?_
  have node : f.key.node = below start steps := congrArg Key.node (eq_of_beq same)
  have onTheWay : below start steps ∈ trail.map (below start) :=
    reading.frames ▸ List.mem_map.mpr ⟨f, member, node⟩
  exact (List.nodup_cons.mp (reading.distinct plain)).1
    ((List.mem_map_of_injective (below_injective start)).mp onTheWay)

end Reading

/-- With a budget, every plain schema below the root is derived exactly, wherever reading comes to
it. -/
def DerivesExactly (corpus : Corpus) (options : Options) (root : Schema) (start : Location)
    (budget : Nat) : Prop :=
  ∀ steps s t stack trail path, root.at? steps = some s → Plain root s →
    Serves root start (t.enterSchema s.keywords (below start steps) t.scope) →
    Reading root start stack steps trail →
    (corpus.toList.flatMap (·.walk)).length < budget + trail.length →
    Keeps stack (Known root start) (derive corpus options budget (some (below start steps)) t path)
    (Derived root s)

theorem inFrame_exact (plain : root.PlainRoot) (request : options.mode = .request) {budget : Nat}
    (deeper : DerivesExactly corpus options root start budget) {stack : List Frame}
    (reached : root.at? steps = some s) (plainHere : Plain root s)
    (serves : Serves root start (t.enterSchema s.keywords (below start steps) t.scope))
    (reading : Reading root start stack steps trail)
    (enough : (corpus.toList.flatMap (·.walk)).length < budget + (steps :: trail).length)
    (path : Path) :
    Keeps stack (Known root start)
      (inFrame (derive corpus options budget) corpus options (below start steps) s t path)
      (Derived root s) := by
  obtain ⟨k⟩ := s
  refine frame_keeps (fun f keyed _ => ?_) (fun r derived => derived.ends) fun shape derived => ⟨rfl, ?_⟩
  · have here : f.key.node = below start steps := congrArg Key.node keyed
    refine dispatch_exact plainHere (plain.ordered steps _ reached) request ?_ ?_
    · intro step part child plainPart path
      have reached' : root.at? (steps ++ [step]) = some part := by
        rw [at?_append, reached, Option.bind_some, at?_cons,
          show (node k).child? step = some part from child]
        rfl
      rw [below_child]
      refine deeper _ _ _ _ _ path reached' plainPart ?_
        (reading.into (.part steps step) (by rw [reached']; rfl) here) enough
      rw [enterSchema_eq_self plainPart (plain.nested _ _ (by simp) reached')]
      exact serves
    · intro name target refers declared
      have plainTarget := plain.definitions name target declared
      have reached' : root.at? [.defs name] = some target := by
        rw [at?_cons, declared]
        rfl
      refine ⟨_, _, refers ▸ serves.resolve (plain.ordered [] root rfl) declared, fun path => ?_⟩
      refine deeper _ _ _ _ _ path reached' plainTarget ?_
        (reading.into (.reference reached refers) (by rw [reached']; rfl) here) enough
      rw [enterSchema_eq_self plainTarget (plain.nested _ _ (by simp) reached')]
      exact serves.push
  · intro steps' s' node reached'
    obtain rfl : steps = steps' := below_injective start node
    obtain rfl := Option.some.inj (reached.symm.trans reached')
    exact derived.exact

theorem derives_exactly (present : corpus.get? start = some root) (plain : root.PlainRoot)
    (request : options.mode = .request) (budget : Nat) :
    DerivesExactly corpus options root start budget := by
  induction budget with
  | zero =>
    -- The places on the way and the one that is reached differ, so there are not so many of them.
    intro steps s t stack trail path _ _ _ reading enough
    have bound := length_lt_of_nodup present (reading.distinct plain) reading.placed
    rw [length_cons] at bound
    omega
  | succ budget deeper =>
    intro steps s t stack trail path reached plainHere serves reading enough st calm
    have located := (get?_below present steps).trans reached
    have closed := calm.stack ▸ reading.find?_eq_none plain s t
    cases remembered : st.memo.find? (·.key == keyOf s (below start steps) t) with
    | some m =>
      obtain ⟨ends, exact⟩ := calm.memo m (mem_of_find?_eq_some remembered)
      have keyed : m.key = keyOf s (below start steps) t := by simpa using find?_some remembered
      rw [← deriveBy_true]
      refine ⟨_, st, deriveBy_known calm.going located closed remembered, calm,
        exact steps s (congrArg Key.node keyed) reached, ?_⟩
      rw [ends]
      rfl
    | none =>
      rw [← deriveBy_true, deriveBy_new calm.going located closed fun _ => remembered, deriveBy_true]
      exact inFrame_exact plain request deeper reached plainHere serves reading
        (by rw [length_cons]; omega) path st calm

theorem serves_root (plain : root.PlainRoot) (scope : String) (same : scope = "") :
    Serves root start ((Table.empty.push (.resource "" start)).enterSchema root.keywords start scope) := by
  have definitions : root.keywords.localDefs = (root.keywords.defs?.getD []).map fun e =>
      (Step.defs e.1, e.1, e.2) := by
    have ascending : Ascending ([] ++ (root.keywords.defs?.getD []).map fun e =>
        (e.1, Step.defs e.1, e.2)) :=
      pairwise_map.mpr (plain.ordered [] root rfl).defs
    rw [Keywords.localDefs, definitions_eq_none plain.plain]
    simp only [Option.getD_none, map_nil, union, foldl_insert_eq_append ascending]
    simp
  intro e
  rw [enterSchema_eq, mem_foldl_push, mem_push, or_comm]
  simp [Table.additions, id_eq_empty plain.plain, definitions, Table.empty, same]

/-- A plain schema is derived without issues or warnings, and the check of a value decides whether
the value is valid by the numbers that are told to be equal. Unless a number in it is equal to a
constant but not told to be, this is whether it is valid. -/
theorem run_exact (present : corpus.get? start = some root) (plain : root.PlainRoot)
    (request : options.mode = .request) (g : Graph) :
    ∃ shape g', run corpus start .empty options g = .ok (⟨.ok shape, []⟩, g') ∧
      ∀ v : Value, v.Instance → Decides (Conformance.conforms g' shape v) (Valid Told root root v) ∧
      (root.Comparable v → Decides (Conformance.conforms g' shape v)
      (Valid Denote root root v)) := by
  have origin : start = below start [] := by simp [below]
  have reading : Reading root start [] [] [] := ⟨.singleton _, by simp [at?_nil], rfl⟩
  have enough : (corpus.toList.flatMap (·.walk)).length < deriveBudget corpus
      (empty.push (.resource "" start)) + ([] : List (List Step)).length := by
    unfold deriveBudget
    simp only [length_nil]
    omega
  have derived := derives_exactly present plain request
      (deriveBudget corpus (empty.push (.resource "" start))) [] root
    (empty.push (.resource "" start)) [] [] .root rfl plain.plain (origin ▸ serves_root plain _ rfl)
    reading enough
  obtain ⟨⟨shape, low?⟩, st, equal, calm, exact, _⟩ := derived { graph := g } ⟨rfl, rfl, rfl, rfl, by simp⟩
  refine ⟨shape, st.graph, ?_, fun v inst => ?_⟩
  · rw [← origin] at equal
    simp only [run, present, Option.map_some, Option.getD_some, id_eq_empty plain.plain, StateT.run, equal]
    simp [bind, Except.bind, calm.issues, calm.warnings]
  · have named : shape.Tidy fun leaf => leaf.kind ≠ .named :=
      exact.plain.mono fun leaf plain kind => by cases leaf <;> trivial
    have decides := (Conformance.conforms_decides st.graph named v).congr (exact.exact st.graph v inst)
    exact ⟨decides, fun comparable => decides.congr (valid_told_iff plain.ordered comparable)⟩

def one : Number.Spelling := ⟨false, [1], [], none, by simp⟩

def onePointZero : Number.Spelling := ⟨false, [1], [0], none, by simp⟩

def sampleRoot : Schema := .node {
  type := .one "object"
  properties? := some [("a", some (.node { ref := definitionRef "A" }))]
  required? := some ["a"]
  defs? := some [("A", some (.node { const? := some (.decimal one.text) }))] }

theorem at?_sampleRoot (reached : sampleRoot.at? steps = some s) :
    steps = [] ∧ s = sampleRoot ∨ steps = [.property "a"] ∧ s = .node { ref := definitionRef "A" } ∨
      steps = [.defs "A"] ∧ s = .node { const? := some (.decimal one.text) } := by
  have places : sampleRoot.walk = [([], sampleRoot), ([.property "a"], .node { ref := definitionRef "A" }),
    ([.defs "A"], .node { const? := some (.decimal one.text) })] := by cbv
  have member : (steps, s) ∈ sampleRoot.walk := mem_walkFrom_of_at? [] reached
  simpa [places] using member

theorem not_leads_of_not_refers (none : ∀ source, ¬ Refers root source name) :
    ¬ Relation.TransGen (Refers root) name name := by
  intro leads
  cases leads with
  | single refers => exact none _ refers
  | tail _ refers => exact none _ refers

theorem sampleRoot_plain : sampleRoot.PlainRoot where
  plain := by
    have reference : Plain sampleRoot (.node { ref := definitionRef "A" }) :=
      @Plain.ref sampleRoot _ "A" _ rfl rfl
    exact @Plain.object sampleRoot _ (some [("a", .node { ref := definitionRef "A" })])
      (some ["a"]) none none none
      (by simpa using reference) (by simp) (by simp) (by simp) (by simp) (by simp) (by simp) rfl
  definitions name s declared := by
    have reached : sampleRoot.at? [.defs name] = some s := by rw [at?_cons, declared]; rfl
    rcases at?_sampleRoot reached with ⟨steps, -⟩ | ⟨steps, -⟩ | ⟨-, rfl⟩
    · cases steps
    · cases steps
    · exact .const (.number one) rfl
  nested steps s proper reached := by
    rcases at?_sampleRoot reached with ⟨rfl, -⟩ | ⟨-, rfl⟩ | ⟨-, rfl⟩
    · exact absurd rfl proper
    · rfl
    · rfl
  acyclic name := by
    refine not_leads_of_not_refers fun source refers => ?_
    obtain ⟨steps, s, reached, refers⟩ := refers
    rcases at?_sampleRoot reached with ⟨steps, -⟩ | ⟨steps, -⟩ | ⟨-, rfl⟩
    · cases steps
    · cases steps
    · exact definitionRef_ne name refers.symm
  ordered steps s reached := by
    rcases at?_sampleRoot reached with ⟨-, rfl⟩ | ⟨-, rfl⟩ | ⟨-, rfl⟩
    · exact ⟨pairwise_singleton _ _, pairwise_singleton _ _, .nil⟩
    · exact ⟨.nil, .nil, .nil⟩
    · exact ⟨.nil, .nil, .nil⟩

def sampleValue : Value := .map .values [("a", .decimal onePointZero.text)]

theorem sampleValue_instance : sampleValue.Instance :=
  .map (pairwise_singleton _ _) (by simpa using Value.Instance.number onePointZero)

theorem one_moderate : one.Moderate ∧ onePointZero.Moderate := by
  simp [Moderate, one, onePointZero, power, Number.fiveLimit]

theorem sampleValue_comparable : sampleRoot.Comparable sampleValue := by
  intro c d isConstant occurs _
  refine .inr ⟨(one_moderate.2.of_text_eq ?_).1, (one_moderate.1.of_text_eq ?_).1⟩
  · cases occurs with
    | entry member inside =>
      obtain ⟨rfl, rfl⟩ : _ = "a" ∧ _ = Value.decimal onePointZero.text := by simpa using member
      exact inside.text_eq.symm
  · obtain ⟨steps, s, reached, listed⟩ := isConstant
    rcases at?_sampleRoot reached with ⟨-, rfl⟩ | ⟨-, rfl⟩ | ⟨-, rfl⟩
    · simp [sampleRoot, keywords] at listed
    · simp [keywords] at listed
    · simpa [keywords] using listed

theorem sampleValue_valid : Valid Denote sampleRoot sampleRoot sampleValue := by
  have same : onePointZero.value = one.value := by
    simp [value, magnitude, power, one, onePointZero, Number.digitsNumber]
  have target : Valid Told sampleRoot (.node { const? := some (.decimal one.text) })
      (.decimal onePointZero.text) := by
    have told : onePointZero.Told one := .inr ⟨one_moderate.2, one_moderate.1, same⟩
    simpa [valid_iff, satisfies_iff] using Value.Equals.number told
  have reference : Valid Told sampleRoot (.node { ref := definitionRef "A" })
      (.decimal onePointZero.text) := by
    rw [valid_iff, satisfies_iff]
    exact .inr ⟨rfl, fun _ => ⟨"A", _, rfl, rfl, target⟩, by simp⟩
  refine (valid_told_iff sampleRoot_plain.ordered sampleValue_comparable).mp ?_
  refine (valid_of_bare (k := sampleRoot.keywords) rfl).mpr
    ((@valid_object_iff sampleRoot _ none none none
    (some [("a", .node { ref := definitionRef "A" })])
    (some ["a"]) sampleValue_instance).mpr ⟨⟨⟨_, rfl, ?_⟩, by simp⟩, by simp⟩)
  exact ⟨by simp [get?], by simpa [get?] using reference, by simp⟩

/-- The check accepts the value, as it is valid. -/
theorem run_exact_sample :
    sampleRoot.PlainRoot ∧ sampleValue.Instance ∧ sampleRoot.Comparable sampleValue ∧
      Valid Denote sampleRoot sampleRoot sampleValue ∧ ∃ shape g', run #[sampleRoot] ⟨0, []⟩ .empty
      {} {} = .ok (⟨.ok shape, []⟩, g') ∧ Conformance.conforms g' shape sampleValue = .ok true := by
  refine ⟨sampleRoot_plain, sampleValue_instance, sampleValue_comparable, sampleValue_valid, ?_⟩
  obtain ⟨shape, g', derived, decides⟩ :=
    @run_exact sampleRoot #[sampleRoot] {} ⟨0, []⟩ rfl sampleRoot_plain rfl {}
  exact ⟨shape, g', derived,
    ((decides sampleValue sampleValue_instance).2 sampleValue_comparable).eq_ok_true
    sampleValue_valid⟩

def tiny : Number.Spelling :=
  ⟨false, [1], [], some ⟨false, some true, [1, 0, 0, 0, 0, 0, 1], by simp⟩, by simp⟩

def tinyPointZero : Number.Spelling :=
  ⟨false, [1], [0], some ⟨false, some true, [1, 0, 0, 0, 0, 0, 1], by simp⟩, by simp⟩

def tinyRoot : Schema := .node { const? := some (.decimal tiny.text) }

theorem tiny_value_eq : tinyPointZero.value = tiny.value := by
  have power : tinyPointZero.power = tiny.power - 1 := by
    simp [power, tiny, tinyPointZero]
  have magnitude : tinyPointZero.magnitude = 10 * tiny.magnitude := rfl
  rw [value, value, power, magnitude, zpow_sub_one₀ (by norm_num)]
  simp only [tiny, tinyPointZero, Bool.false_eq_true, if_false, Nat.cast_mul, Nat.cast_ofNat]
  ring

theorem tiny_meaning_ne :
    (Value.decimal tinyPointZero.text).meaning ≠ (Value.decimal tiny.text).meaning := by
  classical
  have unread : ¬ tiny.Moderate ∧ ¬ tinyPointZero.Moderate := by
    constructor <;> rintro ⟨-, zero | bounded⟩
    · cases zero
    · exact absurd bounded (by decide)
    · cases zero
    · exact absurd bounded (by decide)
  have differ : tinyPointZero.text ≠ tiny.text := by decide
  rw [Value.meaning, Value.meaning, Number.readRational?_text, Number.readRational?_text,
    if_neg unread.1, if_neg unread.2]
  simpa using differ

theorem at?_tinyRoot (reached : tinyRoot.at? steps = some s) : steps = [] ∧ s = tinyRoot := by
  have places : tinyRoot.walk = [([], tinyRoot)] := by cbv
  have member : (steps, s) ∈ tinyRoot.walk := mem_walkFrom_of_at? [] reached
  simpa [places] using member

theorem tinyRoot_plain : tinyRoot.PlainRoot where
  plain := .const (.number tiny) rfl
  definitions name s declared := by cases declared
  nested steps s proper reached := absurd (at?_tinyRoot reached).1 proper
  acyclic name := by
    refine not_leads_of_not_refers fun source refers => ?_
    obtain ⟨steps, s, reached, -⟩ := refers
    cases (at?_tinyRoot reached).1
  ordered steps s reached := by
    rw [(at?_tinyRoot reached).2]
    exact ⟨.nil, .nil, .nil⟩

/-- Without the bounds the check refuses a valid value. -/
theorem tiny_refused :
    tinyRoot.PlainRoot ∧ (Value.decimal tinyPointZero.text).Instance ∧
      Valid Denote tinyRoot tinyRoot (.decimal tinyPointZero.text) ∧
      ∃ shape g', run #[tinyRoot] ⟨0, []⟩ .empty {} {} = .ok (⟨.ok shape, []⟩, g') ∧
      Conformance.conforms g' shape (.decimal tinyPointZero.text) = .ok false := by
  refine ⟨tinyRoot_plain, .number tinyPointZero, ?_, ?_⟩
  · have equal : tinyPointZero.Denote tiny := tiny_value_eq
    simpa [tinyRoot, valid_iff, satisfies_iff] using Value.Equals.number equal
  · have derived : run #[tinyRoot] ⟨0, []⟩ .empty {}
        {} = .ok (⟨.ok (.literal 0 (.decimal tiny.text)), []⟩, { next := 1 }) := by cbv
    refine ⟨_, _, derived,
      (Conformance.conforms_decides _ (.literal (.decimal _) (by simp [Shape.kind]))
      _).eq_ok_false ?_⟩
    rw [Shape.inhabits_literal_iff (.decimal _) (.decimal _)]
    exact tiny_meaning_ne

end JsonShape.Derivation
