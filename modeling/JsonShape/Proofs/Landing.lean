import JsonShape.Proofs.Acceptance
import JsonShape.Proofs.Recollection

/-! Encoding lands on the wire. Where no handle leads back to itself without a step into the value,
what the loose projection of a shape takes is encoded to what its bare projection takes. -/
namespace JsonShape

open Conformance Shape List Option Entries Graph

variable {s r : Shape} {es : List (String × Value)} {o o' : Outcome} {e : String × Value}
  {d : Shift} {g base : Graph}

namespace Graph

/-- A shape leads to another one at the same place in a value: over members of unions and
intersections and targets of handles. -/
inductive Leads (g : Graph) (s : Shape) : Shape → Prop
  | self : Leads g s s
  | member {t m : Shape} (leads : Leads g s t) (member : m ∈ t.memberships) : Leads g s m
  | target {id : Nat} {t : Shape} (leads : Leads g s (.handle id)) (bound : g.target? id = some t) :
      Leads g s t

/-- What a shape reaches makes sense, has each name once in an object and no alike members in an
intersection, and no handle leads back to itself. -/
structure Regular (g : Graph) (s : Shape) : Prop where
  grounded : g.Grounded s
  named : ∀ n props extra?, g.Reaches s (.object n props extra?) → (props.map (·.name)).Nodup
  apart : ∀ n members, g.Reaches s (.intersection n members) →
    (members.map (Shape.projected bareLeaf)).Pairwise fun m n => ¬ Matches m n
  onward : ∀ id target, g.Reaches s (.handle id) → g.target? id = some target →
      ¬ g.Leads target (.handle id)

variable {p : Shape}

theorem Regular.piece (regular : g.Regular s) (member : p ∈ s.pieces) : g.Regular p where
  grounded := regular.grounded.piece member
  named n props extra? reached := regular.named n props extra? (reached.of_piece member)
  apart n members reached := regular.apart n members (reached.of_piece member)
  onward id target reached := regular.onward id target (reached.of_piece member)

theorem Regular.target {id : Nat} (regular : g.Regular (.handle id))
    (bound : g.target? id = some s) : g.Regular s where
  grounded := regular.grounded.target bound
  named n props extra? reached := regular.named n props extra? (reached.of_target bound)
  apart n members reached := regular.apart n members (reached.of_target bound)
  onward id target reached := regular.onward id target (reached.of_target bound)

/-- The handles that are open: those at the same place lead to the shape. -/
structure Trail (g : Graph) (opened : Opened) (s : Shape) (p : Path) : Prop where
  above : ∀ e ∈ opened, e.2.length ≤ p.pointer.length
  here : ∀ e ∈ opened, e.2 = p.pointer → ∃ target, g.target? e.1 = some target ∧ g.Leads target s

/-- Either no handle can be met, or each entry of the value has a name and the open handles lead
here. -/
def Onward (g : Graph) (opened : Opened) (s : Shape) (v : Value) (p : Path) : Prop :=
  v.labelled = true ∧ Trail g opened s p ∨ ∀ id, .handle id ∉ s.subshapes

namespace Onward

variable {opened : Opened} {v w x : Value} {q : Path} {m : Shape}

theorem told (way : Onward g opened s v q) : Told s v := way.imp_left And.left

theorem softens (way : Onward g opened s v q) (softens : v.Softens w) : Onward g opened s w q :=
  way.imp_left fun ⟨labelled, trail⟩ => ⟨softens.everyMap labelled, trail⟩

theorem member (way : Onward g opened s v q) (member : m ∈ s.memberships) : Onward g opened m v q := by
  rcases way with ⟨labelled, trail⟩ | bare
  · refine .inl ⟨labelled, trail.above, fun e inside same => ?_⟩
    obtain ⟨target, bound, leads⟩ := trail.here e inside same
    exact ⟨target, bound, leads.member member⟩
  · exact .inr fun id inside =>
      bare id (mem_subshapes_iff.mpr (.inr ⟨m, memberships_subset s member, inside⟩))

theorem descend (way : Onward g opened s v q) (member : m ∈ s.pieces) {q' : Path}
    (inside : v.labelled = true → x.labelled = true ∧ q.pointer.length < q'.pointer.length) :
    Onward g opened m x q' := by
  refine way.imp (fun ⟨labelled, trail⟩ => ?_) fun bare id within =>
    bare id (mem_subshapes_iff.mpr (.inr ⟨m, member, within⟩))
  obtain ⟨labelled, longer⟩ := inside labelled
  refine ⟨labelled, fun e member => (trail.above e member).trans longer.le, fun e member same => ?_⟩
  exact absurd (same ▸ trail.above e member) (Nat.not_le.mpr longer)

theorem item (way : Onward g opened s v q) (member : m ∈ s.pieces) {vs : List Value}
    (listed : v.items? = some vs) (inside : x ∈ vs) (i : Nat) : Onward g opened m x (q.index i) :=
  way.descend member fun labelled =>
    ⟨Value.everyMap_of_mem_items labelled listed inside, q.length_pointer_index i⟩

theorem entry (way : Onward g opened s v q) (member : m ∈ s.pieces) (keyed : v.entries? = some es)
    (inside : e ∈ es) : Onward g opened m e.2 (q.field e.1) :=
  way.descend member fun labelled => entry_below labelled keyed inside q

theorem fresh {id : Nat} (way : Onward g opened (.handle id) v q)
    (regular : g.Regular (.handle id)) : opened.contains (id, q.pointer) = false := by
  obtain ⟨-, trail⟩ := way.resolve_right fun bare => bare id (mem_subshapes_self _)
  by_contra met
  obtain ⟨target, bound, leads⟩ := trail.here (id, q.pointer) (by simpa using met) rfl
  exact regular.onward id target .self bound leads

theorem target {id : Nat} (way : Onward g opened (.handle id) v q) {target : Shape}
    (bound : g.target? id = some target) : Onward g ((id, q.pointer) :: opened) target v q := by
  obtain ⟨labelled, trail⟩ := way.resolve_right fun bare => bare id (mem_subshapes_self _)
  refine .inl ⟨labelled, forall_mem_cons.mpr ⟨Nat.le_refl _, trail.above⟩,
    forall_mem_cons.mpr ⟨fun _ => ⟨target, bound, .self⟩, ?_⟩⟩
  intro e member same
  obtain ⟨target', bound', leads⟩ := trail.here e member same
  exact ⟨target', bound', leads.target bound⟩

end Onward

end Graph

theorem Derivation.Copied.exists_reached {strict : Prop}
    (copied : Copied strict d base o g o') (result : o'.result = .ok s) (reached : g.Reaches s r) :
    ∃ s₀ r₀, o.result = .ok s₀ ∧ base.Reaches s₀ r₀ ∧ r = r₀.shift d := by
  obtain ⟨s₀, result₀, rfl⟩ : ∃ s₀, o.result = .ok s₀ ∧ s₀.shift d = s := by
    have moved := copied.result
    rw [result] at moved
    cases ending : o.result with
    | error issues =>
      rw [ending] at moved
      cases moved
    | ok s₀ =>
      rw [ending] at moved
      exact ⟨s₀, rfl, (Except.ok.inj moved).symm⟩
  refine ⟨s₀, ?_⟩
  induction reached with
  | self => exact ⟨s₀, result₀, .self, rfl⟩
  | piece _ member ih =>
    obtain ⟨r₀, -, reached, rfl⟩ := ih
    rw [pieces_shift] at member
    obtain ⟨p, inside, rfl⟩ := mem_map.mp member
    exact ⟨p, result₀, reached.piece inside, rfl⟩
  | @target id target _ found ih =>
    obtain ⟨r₀, -, reached, same⟩ := ih
    cases r₀ with
    | handle i =>
      obtain rfl : id = i + d.handles := Shape.handle.inj same
      have bound : base.Bound i :=
        (reached.leaves (fun id r _ => copied.closed id r) (copied.leaves s₀ result₀)).of_handle
      obtain ⟨own, here⟩ := isSome_iff_exists.mp bound
      rw [copied.copies i own here] at found
      exact ⟨own, result₀, reached.target here, (some.inj found).symm⟩
    | _ => cases same

theorem Derivation.Copied.leaves_reached {strict : Prop} (copied : Copied strict d base o g o')
    (result : o'.result = .ok s) (reached : g.Reaches s r) : r.Leaves strict g.Bound := by
  obtain ⟨s₀, r₀, result₀, reached₀, rfl⟩ := copied.exists_reached result reached
  refine leaves_rename (reached₀.leaves (fun id r _ => copied.closed id r)
    (copied.leaves s₀ result₀)) fun i bound => ?_
  obtain ⟨own, here⟩ := isSome_iff_exists.mp bound
  exact isSome_iff_exists.mpr ⟨_, copied.copies i own here⟩

theorem Derivation.run_grounded {corpus : Corpus} {node : Location} {root : Schema} {t : Table}
    {options : Options} {g' : Graph} (present : corpus.get? node = some root)
    (documents : corpus.DocumentConstants) (derived : run corpus node t options g = .ok (o, g'))
    (result : o.result = .ok s) : g'.Grounded s := by
  have along : RunsAlong True g (run corpus node t options {}) (run corpus node t options g) :=
    run_along present (.refl _) (fun _ => documents) g
  rw [derived] at along
  generalize run corpus node t options {} = first at along
  cases along with
  | ok copied _ =>
    exact ⟨fun n w reached => (copied.leaves_reached result reached).of_literal trivial,
      fun id reached => lt_size_of_bound (copied.leaves_reached result reached).of_handle⟩

namespace Wire

variable {v w : Value} {members : List Shape} {p : Path}

open Classical in
theorem firstFit?_eq (each : ∀ m ∈ members, g.Grounded m ∧ Told m v) :
    firstFit? g v members = .ok (members.find? fun m => decide (g.Takes looseLeaf m v)) := by
  induction members with
  | nil => rfl
  | cons m rest ih =>
    obtain ⟨⟨grounded, told⟩, later⟩ := forall_mem_cons.mp each
    obtain ⟨t, g', run, decides⟩ := mapLeaves_decides weakLeaf_draws looseLeaf_loosens grounded told
    rw [firstFit?, weak, run]
    by_cases takes : g.Takes looseLeaf m v
    · rw [find?_cons_of_pos (by simpa using takes)]
      show (conforms g' t v >>= _) = _
      rw [decides.eq_ok_true takes]
      rfl
    · rw [find?_cons_of_neg (by simpa using takes), ← ih later]
      show (conforms g' t v >>= _) = _
      rw [decides.eq_ok_false takes]
      rfl

/-- What takes the place of a value that the loose projection of a shape takes: a value that the
bare one takes. -/
structure Lands (g : Graph) (s : Shape) (v w : Value) : Prop where
  takes : g.Takes bareLeaf s w
  softens : v.Softens w

theorem takes_rich (rank : s.isRich = true) (rich : v.Rich) (takes : g.Takes looseLeaf s v) :
    fitsKind v s.kind = true ∨ ∃ text, v = .string text := by
  have fits : ∀ {t : Shape}, t.isFlat = true → t ≠ .any → Inhabits (g.projected looseLeaf) t v →
      fitsKind v t.kind = true :=
    fun flat proper inside => rich.settle_eq ▸ (Inhabits.flat_iff flat proper).mp inside
  have text : Inhabits (g.projected looseLeaf) .string v → ∃ text, v = .string text := by
    intro inside
    have told := fits rfl (by simp) inside
    cases rich <;> first | exact ⟨_, rfl⟩ | exact absurd told Bool.false_ne_true
  cases s <;> first
    | exact absurd rank Bool.false_ne_true
    | (obtain ⟨m, member, inside⟩ := Inhabits.union_iff.mp takes
       rcases mem_cons.mp member with rfl | other
       · have told := fits rfl (by simp) inside
         exact .inl told
       · exact .inr (text (mem_singleton.mp other ▸ inside)))

theorem takes_text (rank : s.isRich = true) (text : String) : g.Takes bareLeaf s (.string text) := by
  cases s <;> first | exact absurd rank Bool.false_ne_true | exact .flat rfl

theorem convertTime_lands {n : Nat} {format : String} (rich : v.Rich)
    (takes : g.Takes looseLeaf (.dateTime n format) v)
    (yields : Yields (convertTime .encode format v p) w) : Lands g (.dateTime n format) v w := by
  rcases takes_rich rfl rich takes with fits | ⟨text, rfl⟩
  · cases rich with
    | time fine =>
      obtain rfl := yields.eq_of_pure
      exact ⟨takes_text rfl _, .time _ _⟩
    | _ => exact absurd fits Bool.false_ne_true
  · obtain ⟨_, -, last⟩ := yields.of_bind (settleLeaf_appends _ _) fun _ => .pure _
    obtain rfl := last.eq_of_pure
    exact ⟨takes_text rfl text, .same _⟩

theorem convertBytes_lands (rich : v.Rich) (takes : g.Takes looseLeaf .binary v)
    (yields : Yields (convertBytes .encode v p) w) : Lands g .binary v w := by
  rcases takes_rich rfl rich takes with fits | ⟨text, rfl⟩
  · cases rich with
    | bytes bs =>
      obtain rfl := yields.eq_of_pure
      exact ⟨takes_text rfl _, .bytes bs _⟩
    | _ => exact absurd fits Bool.false_ne_true
  · obtain rfl := yields.eq_of_pure
    exact ⟨takes_text rfl text, .same _⟩

theorem lands_inert (inert : isInert s = true) (takes : g.Takes looseLeaf s v) : Lands g s v v := by
  refine ⟨?_, .same v⟩
  cases s with
  | literal n d => exact Inhabits.literal_iff.mpr (Inhabits.literal_iff.mp takes)
  | _ => first | exact absurd inert Bool.false_ne_true | exact takes.of_flat rfl

def Landing (g : Graph) (budget : Nat) : Prop :=
  ∀ {opened : Opened} {s : Shape} {v w : Value} {p : Path}, g.Regular s → v.Rich →
  g.Onward opened s v p → g.Takes looseLeaf s v → Yields (convert g .encode budget opened s v p) w →
  Lands g s v w

variable {budget n : Nat} {opened : Opened} {props : List (Property Shape)} {extra? : Option Shape}

theorem lands_array (inner : Landing g budget) {items : Shape}
    (regular : g.Regular (.array n items)) (rich : v.Rich)
    (way : g.Onward opened (.array n items) v p) (takes : g.Takes looseLeaf (.array n items) v)
    (yields : Yields (convert g .encode (budget + 1) opened (.array n items) v p) w) :
    Lands g (.array n items) v w := by
  obtain ⟨vs, listed, each⟩ := Takes.array_iff.mp takes
  rw [rich.settle_eq] at listed
  obtain ⟨rfl, inside⟩ := rich.of_items listed
  rw [convert_array rfl] at yields
  obtain ⟨ws, mapped, last⟩ := yields.of_bind (.mapM fun _ _ => convert_appends) fun _ => .pure _
  obtain rfl := last.eq_of_pure
  obtain ⟨long, converted⟩ := mapped.of_mapM fun _ _ => convert_appends
  rw [length_zipIdx] at long
  have lands : ∀ (i : Nat) x y, vs[i]? = some x → ws[i]? = some y → Lands g items x y := by
    intro i x y here there
    have member := mem_of_getElem? here
    refine inner (regular.piece mem_cons_self) (inside x member)
      (way.item mem_cons_self listed member i) (each x member) ?_
    exact converted i (x, i) y (by simp [getElem?_zipIdx, here]) there
  refine ⟨Takes.array_iff.mpr ⟨ws, rfl, fun y member => ?_⟩, .seq long fun i x y here there =>
    (lands i x y here there).softens⟩
  obtain ⟨i, there⟩ := getElem?_of_mem member
  obtain ⟨x, here⟩ := exists_beside long there
  exact (lands i x y here there).takes

theorem lands_entry (inner : Landing g budget) (regular : g.Regular (.object n props extra?))
    (rich : v.Rich) (way : g.Onward opened (.object n props extra?) v p)
    (keyed : v.entries? = some es) (takes : g.Takes looseLeaf (.object n props extra?) v)
    {f : String × Value} (member : e ∈ es)
    (yields : Yields (convertEntry g .encode budget opened props extra? p e) f) :
    e.1 = f.1 ∧ e.2.Softens f.2 ∧ ∀ s, entryShape? props extra? e.1 = some s →
      g.Takes bareLeaf s f.2 := by
  obtain ⟨rfl, ascending, inside⟩ := rich.of_entries keyed
  rw [convertEntry] at yields
  cases asked : entryShape? props extra? e.1 with
  | none =>
    rw [asked] at yields
    obtain rfl := yields.eq_of_pure
    exact ⟨rfl, .same _, nofun⟩
  | some s =>
    rw [asked] at yields
    obtain ⟨y, inside', last⟩ := yields.of_bind convert_appends fun _ => .pure _
    obtain rfl := last.eq_of_pure
    have piece : s ∈ (Shape.object n props extra?).pieces := entryShape?_mem_pieces asked
    have lands := inner (regular.piece piece) (inside e member) (way.entry piece rfl member)
        (takes.entry ascending member asked) inside'
    exact ⟨rfl, lands.softens, fun t equal => some.inj equal ▸ lands.takes⟩

theorem lands_object (inner : Landing g budget) (regular : g.Regular (.object n props extra?))
    (rich : v.Rich) (way : g.Onward opened (.object n props extra?) v p)
    (takes : g.Takes looseLeaf (.object n props extra?) v)
    (yields : Yields (convert g .encode (budget + 1) opened (.object n props extra?) v p) w) :
    Lands g (.object n props extra?) v w := by
  obtain ⟨es, keyed, present, -⟩ := Takes.object_iff.mp takes
  rw [rich.settle_eq] at keyed
  rw [convert_object keyed] at yields
  obtain ⟨fs, mapped, last⟩ :=
    yields.of_bind (.mapM fun _ _ => convertEntry_appends convert_appends) fun _ => .pure _
  obtain rfl := last.eq_of_pure
  obtain ⟨long, converted⟩ := mapped.of_mapM fun _ _ => convertEntry_appends convert_appends
  have lands : ∀ (i : Nat) e f, es[i]? = some e → fs[i]? = some f →
      e.1 = f.1 ∧ e.2.Softens f.2 ∧ ∀ s, entryShape? props extra? e.1 = some s → g.Takes bareLeaf s f.2 :=
    fun i e f here there => lands_entry inner regular rich way keyed takes (mem_of_getElem? here)
      (converted i e f here there)
  have keys : es.map (·.1) = fs.map (·.1) := by
    refine eq_of_beside (by simpa using long) fun i k l here there => ?_
    rw [getElem?_map] at here there
    obtain ⟨e, atE, rfl⟩ := map_eq_some_iff.mp here
    obtain ⟨f, atF, rfl⟩ := map_eq_some_iff.mp there
    exact (lands i e f atE atF).1
  obtain ⟨rfl, -, -⟩ := rich.of_entries keyed
  refine ⟨Takes.object_iff.mpr ⟨fs, rfl, fun prop member absent => ?_, fun prop member y found => ?_, ?_⟩,
    .map keys fun i e f here there => (lands i e f here there).2.1⟩
  · rcases get?_beside keys prop.name with ⟨none, -⟩ | ⟨i, e, f, -, -, -, -, there⟩
    · exact present prop member none
    · cases absent.symm.trans there
  · rcases get?_beside keys prop.name with ⟨-, none⟩ | ⟨i, e, f, here, there, named, -, new⟩
    · cases found.symm.trans none
    · obtain rfl := some.inj (new.symm.trans found)
      refine (lands i e f here there).2.2 prop.shape ?_
      rw [entryShape?, named, property?_of_mem (regular.named n props extra? .self) member]
      rfl
  · intro extra known f member free
    obtain ⟨i, there⟩ := getElem?_of_mem member
    obtain ⟨e, here⟩ := exists_beside long there
    obtain ⟨same, -, takes⟩ := lands i e f here there
    refine takes extra ?_
    rw [entryShape?, same, free, known]
    rfl

theorem lands_members (inner : Landing g budget) (each : ∀ m ∈ members, g.Regular m) (rich : v.Rich)
    (way : ∀ m ∈ members, g.Onward opened m v p) (takes : ∀ m ∈ members, g.Takes looseLeaf m v)
    (yields : Yields (members.foldlM (fun v m => convert g .encode budget opened m v p) v) w) :
    v.Softens w ∧ ∀ m ∈ members, g.Takes bareLeaf m w := by
  induction members generalizing v with
  | nil =>
    obtain rfl := yields.eq_of_pure
    exact ⟨.same _, nofun⟩
  | cons m rest ih =>
    rw [forall_mem_cons] at each way takes
    rw [foldlM_cons] at yields
    obtain ⟨x, first, later'⟩ :=
      yields.of_bind convert_appends fun _ => .foldlM (fun _ _ _ => convert_appends) _
    have lands := inner each.1 rich way.1 takes.1 first
    obtain ⟨softens, later⟩ :=
      ih each.2 (lands.softens.rich rich) (fun m member => (way.2 m member).softens lands.softens)
      (fun m member => (takes.2 m member).softens looseLeaf_loosens (each.2 m member).grounded rich
      lands.softens) later'
    refine ⟨lands.softens.trans softens, forall_mem_cons.mpr ⟨?_, later⟩⟩
    exact lands.takes.softens bareLeaf_loosens each.1.grounded (lands.softens.rich rich) softens

theorem lands_union (inner : Landing g budget) {inclusive : Bool}
    (regular : g.Regular (.union n inclusive members)) (rich : v.Rich)
    (way : g.Onward opened (.union n inclusive members) v p)
    (takes : g.Takes looseLeaf (.union n inclusive members) v)
    (yields : Yields (convert g .encode (budget + 1) opened (.union n inclusive members) v p) w) :
    Lands g (.union n inclusive members) v w := by
  classical
  have fits := firstFit?_eq fun m (member : m ∈ members) =>
      ⟨(regular.piece member).grounded, (way.member member).told⟩
  rw [convert, fits] at yields
  obtain ⟨m, member, takes⟩ := takes.of_union
  cases chosen : members.find? fun m => decide (g.Takes looseLeaf m v) with
  | none => exact absurd takes (by simpa using find?_eq_none.mp chosen m member)
  | some m =>
    rw [chosen] at yields
    have member := mem_of_find?_eq_some chosen
    have takes : g.Takes looseLeaf m v := by simpa using find?_some chosen
    have lands := inner (regular.piece member) rich (way.member member) takes yields
    have leaves : (Shape.union n inclusive members).Leaves True _ :=
      leaves_of_reaches (fun _ => regular.grounded.documents) .self
    have apart : Apart bareLeaf (.union n inclusive members) :=
      fun n members inside => regular.apart n members (.of_mem_subshapes inside)
    exact ⟨.union bareLeaf_loosens leaves apart member lands.takes, lands.softens⟩

theorem convert_lands (budget : Nat) : Landing g budget := by
  induction budget with
  | zero => exact fun _ _ _ _ yields => nomatch yields []
  | succ budget ih =>
    intro opened s v w p regular rich way takes yields
    cases s with
    | array n items => exact lands_array ih regular rich way takes yields
    | object n props extra? => exact lands_object ih regular rich way takes yields
    | union n inclusive members => exact lands_union ih regular rich way takes yields
    | intersection n members =>
      obtain ⟨softens, each⟩ := lands_members ih (fun m => regular.piece) rich (fun m => way.member)
          (Takes.intersection_iff.mp takes) yields
      exact ⟨Takes.intersection_iff.mpr each, softens⟩
    | handle id =>
      cases bound : g.target? id with
      | none =>
        rw [convert_unbound bound] at yields
        obtain rfl := yields.eq_of_pure
        exact ⟨Takes.handle_iff.mpr fun target found => (nomatch bound.symm.trans found), .same _⟩
      | some target =>
        rw [convert_bound (way.fresh regular) bound] at yields
        have lands := ih (regular.target bound) rich (way.target bound)
            (Takes.handle_iff.mp takes target bound) yields
        refine ⟨Takes.handle_iff.mpr fun target' found => ?_, lands.softens⟩
        exact some.inj (bound.symm.trans found) ▸ lands.takes
    | dateTime n format => exact convertTime_lands rich takes yields
    | binary => exact convertBytes_lands rich takes yields
    | _ =>
      obtain rfl := Yields.eq_of_pure yields
      exact lands_inert rfl takes

/-- What the weak projection of a shape accepts is encoded, if it is, to what the strict projection
accepts. -/
theorem encode_strict (g g₁ : Graph) (s weak : Shape) (v w : Value) (regular : g.Regular s)
    (rich : v.Rich) (told : v.labelled = true ∨ ∀ id, .handle id ∉ s.subshapes)
    (projected : (Graph.weak s).run g = .ok (weak, g₁)) (fits : conforms g₁ weak v = .ok true)
    (encoded : encode g s v = .ok (.ok w)) :
    ∃ strict g₂, (Graph.strict s).run g = .ok (strict, g₂) ∧ conforms g₂ strict w = .ok true := by
  obtain ⟨t, g', run, decides⟩ :=
    Graph.mapLeaves_decides Graph.weakLeaf_draws looseLeaf_loosens regular.grounded told
  obtain ⟨rfl, rfl⟩ := Prod.mk.inj (Except.ok.inj (run.symm.trans projected))
  have way : g.Onward [] s v .root := told.imp_left fun labelled => ⟨labelled, nofun, nofun⟩
  have lands := convert_lands _ regular rich way (decides.of_eq_ok_true fits) (run_eq_ok_iff.mp encoded)
  obtain ⟨strict, g₂, run, decides⟩ :=
    Graph.mapLeaves_decides Graph.strictLeaf_draws bareLeaf_loosens regular.grounded
    (Told.softens told lands.softens)
  exact ⟨strict, g₂, run, decides.eq_ok_true lands.takes⟩

def journalEntry : Shape :=
  .object 5 [⟨"at", .dateTime 0 "date-time", true, none⟩,
    ⟨"mark", .intersection 3 [.handle 0, .object 2 [⟨"day", .dateTime 1 "date", true, none⟩] none],
    true, none⟩,
    ⟨"next", .union 4 true [.handle 0, .null], true, none⟩] none

def journal : Graph := ⟨#[⟨"Root", "#", some journalEntry⟩], 6⟩

def mayNoon : Time.Moment := ⟨63876600000, 0, .utc⟩

def halfWritten : Value :=
  .map .values [("at", .time mayNoon),
    ("mark", .map .values [("at", .string "2024-05-01T12:00:00Z"), ("day", .time mayNoon)]),
    ("next", .map .values [("next", .null)])]

theorem journal_regular : journal.Regular (.handle 0) := by
  have straight : ∀ {t : Shape}, journal.Leads journalEntry t → t = journalEntry := by
    intro t leads
    induction leads with
    | self => rfl
    | member _ member ih => rw [ih] at member; cases member
    | target _ _ ih => cases ih
  refine ⟨⟨fun n w reached => ?_, fun id reached => ?_⟩, fun n props extra? reached => ?_,
    fun n members reached => ?_,
    fun id target reached found leads => ?_⟩
  · simpa [journal, journalEntry, subshapes_eq, pieces, graphShapes] using reached.mem_shapes
  · obtain rfl : id = 0 := by
      simpa [journal, journalEntry, subshapes_eq, pieces, graphShapes] using reached.mem_shapes
    decide
  · have own := reached.mem_shapes
    simp [journal, journalEntry, subshapes_eq, pieces, graphShapes] at own
    rcases own with ⟨-, rfl, -⟩ | ⟨-, rfl, -⟩ <;> decide
  · obtain ⟨-, rfl⟩ : n = 3 ∧
        members = [.handle 0, .object 2 [⟨"day", .dateTime 1 "date", true, none⟩] none] := by
      simpa [journal, journalEntry, subshapes_eq, pieces, graphShapes] using reached.mem_shapes
    exact .cons (forall_mem_singleton.mpr (not_matches_of_kind_ne (by rintro ⟨⟩))) (pairwise_singleton _ _)
  · obtain rfl : id = 0 := by
      simpa [journal, journalEntry, subshapes_eq, pieces, graphShapes] using reached.mem_shapes
    obtain rfl : journalEntry = target := some.inj found
    cases straight leads

theorem halfWritten_lands :
    halfWritten.Rich ∧ halfWritten.labelled = true ∧
      ∃ weak g₁ w, (Graph.weak (.handle 0)).run journal = .ok (weak, g₁) ∧
      conforms g₁ weak halfWritten = .ok true ∧
      encode journal (.handle 0) halfWritten = .ok (.ok w) ∧
      ∃ strict g₂, (Graph.strict (.handle 0)).run journal = .ok (strict, g₂) ∧
      conforms g₂ strict w = .ok true := by
  have fine : mayNoon.nano < 10 ^ 9 := by decide
  have rich : halfWritten.Rich := by
    refine .map (by unfold Ascending; decide) ?_
    simp only [forall_mem_cons]
    refine ⟨.time fine, .map (by unfold Ascending; decide) ?_,
      .map (by unfold Ascending; decide) ?_, (by rintro _ ⟨⟩)⟩
    · simp only [forall_mem_cons]
      exact ⟨.string _, .time fine, (by rintro _ ⟨⟩)⟩
    · simp only [forall_mem_cons]
      exact ⟨.null, (by rintro _ ⟨⟩)⟩
  have labelled : halfWritten.labelled = true := by decide
  have weak : (do
      let r ← (Graph.weak (.handle 0)).run journal
      conforms r.2 r.1 halfWritten) = .ok true := by cbv
  have encoded : encode journal (.handle 0) halfWritten =
      .ok (.ok (.map .values [("at", .string "2024-05-01T12:00:00Z"),
      ("mark", .map .values [("at", .string "2024-05-01T12:00:00Z"), ("day", .string "2024-05-01")]),
      ("next", .map .values [("next", .null)])])) := by cbv
  obtain ⟨⟨t, g₁⟩, run, fits⟩ := bind_eq_ok_iff.mp weak
  exact ⟨rich, labelled, t, g₁, _, run, fits, encoded,
    encode_strict journal g₁ _ t halfWritten _ journal_regular rich (.inl labelled) run fits encoded⟩

def circle : Graph := ⟨#[⟨"Root", "#", some (.union 1 true [.handle 0, .dateTime 0 "date-time"])⟩], 2⟩

/-- The handle is chosen for the moment, and nothing is converted where it is met again. -/
theorem circle_not_encoded : encode circle (.handle 0) (.time mayNoon) = .ok (.ok (.time mayNoon)) ∧
    (do let (weak, g₁) ← (weak (.handle 0)).run circle
        conforms g₁ weak (.time mayNoon)) = .ok true ∧
    (do let (strict, g₂) ← (strict (.handle 0)).run circle
        conforms g₂ strict (.time mayNoon)) = .ok false := by
  refine ⟨?_, ?_, ?_⟩ <;> cbv

end Wire

end JsonShape
