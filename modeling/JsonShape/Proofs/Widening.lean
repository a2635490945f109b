import JsonShape.Proofs.Conversion
import JsonShape.Proofs.Projection

/-! Shapes that are wider than others: they ask for no more properties and have an alternative for
each alternative of the narrower one. What passes the check of a shape passes the check of a wider
one. -/
namespace JsonShape
open List Option Entries Value

variable {ps qs : List (Property Shape)} {ts ss : List Shape} {e f : Option Shape} {v : Value}

namespace Shape

/-- Handles that are the same and live. -/
def Shared (live : Nat → Prop) (i j : Nat) : Prop := i = j ∧ live i

/-- The second shape is built like the first one, but lets more properties be absent and has other
alternatives beside. -/
inductive Widens (R : Nat → Nat → Prop) : Shape → Shape → Prop
  | never (t : Shape) : Widens R never t
  | any (s : Shape) : Widens R s any
  | flat {s : Shape} (flat : s.isFlat = true) : Widens R s s
  | dateTime (m n : Nat) (format : String) : Widens R (.dateTime m format) (.dateTime n format)
  | literal {m n : Nat} {v w : Value} (left : v.Document) (right : w.Document)
      (means : v.meaning = w.meaning) :
      Widens R (.literal m v) (.literal n w)
  | handle {i j : Nat} (related : R i j) : Widens R (.handle i) (.handle j)
  | array {m n : Nat} {s t : Shape} (items : Widens R s t) : Widens R (.array m s) (.array n t)
  | object {m n : Nat} {ps qs : List (Property Shape)} {e f : Option Shape}
      (length : ps.length = qs.length)
      (named : ∀ (i : Nat) (p q : Property Shape), ps[i]? = some p → qs[i]? = some q →
        p.name = q.name ∧ (p.optional = true → q.optional = true))
      (shaped : ∀ (i : Nat) (p q : Property Shape), ps[i]? = some p → qs[i]? = some q →
      Widens R p.shape q.shape)
      (extras : e.isSome = f.isSome) (extra : ∀ s t, e = some s → f = some t → Widens R s t) :
      Widens R (.object m ps e) (.object n qs f)
  | intersection {m n : Nat} {ss ts : List Shape} (back : Shape → Shape) (listed : ∀ t ∈ ts, back t ∈ ss)
      (each : ∀ t ∈ ts, Widens R (back t) t) : Widens R (.intersection m ss) (.intersection n ts)
  | unionLeft {n : Nat} {inclusive : Bool} {members : List Shape} {t : Shape}
      (each : ∀ m ∈ members, Widens R m t) :
      Widens R (.union n inclusive members) t
  | unionRight {n : Nat} {inclusive : Bool} {members : List Shape} {s m : Shape}
      (member : m ∈ members) (widens : Widens R s m) :
      Widens R s (.union n inclusive members)

namespace Widens

variable {R : Nat → Nat → Prop} {live : Nat → Prop} {s t u c d : Shape} {m n : Nat} {f a b : Nat → Nat}

theorem trans_alike (widens : Widens R s t) (alike : Alike t u) : Widens R s u := by
  induction widens generalizing u with
  | never t => exact .never u
  | any s =>
    cases alike
    exact .any s
  | flat flat =>
    cases alike with
    | refl => exact .flat flat
    | dateTime m n format => exact .dateTime m n format
    | _ => cases flat
  | dateTime m n format =>
    cases alike with
    | refl => exact .dateTime m n format
    | dateTime _ k => exact .dateTime m k format
  | literal left right means =>
    cases alike with
    | refl => exact .literal left right means
    | literal _ right' means' => exact .literal left right' (means.trans means')
  | handle related =>
    cases alike
    exact .handle related
  | array items ih =>
    cases alike with
    | refl => exact .array items
    | array items' => exact .array (ih items')
  | @object _ _ ps qs _ _ length named shaped extras extra ih ih' =>
    cases alike with
    | refl => exact .object length named shaped extras extra
    | @object _ _ _ rs _ _ length' named' shaped' extras' extra' =>
      have between {i : Nat} {r : Property Shape} (there : rs[i]? = some r) : ∃ q, qs[i]? = some q :=
        ⟨_, List.getElem?_eq_getElem (length' ▸ (List.getElem?_eq_some_iff.mp there).1)⟩
      refine .object (length.trans length') ?_ ?_ (extras.trans extras') ?_
      · intro i p r here there
        obtain ⟨q, middle⟩ := between there
        obtain ⟨name, weaker⟩ := named i p q here middle
        obtain ⟨name', same⟩ := named' i q r middle there
        exact ⟨name.trans name', fun optional => same ▸ weaker optional⟩
      · intro i p r here there
        obtain ⟨q, middle⟩ := between there
        exact ih i p q here middle (shaped' i q r middle there)
      · rintro s u rfl rfl
        obtain ⟨t, rfl⟩ := isSome_iff_exists.mp extras.symm
        exact ih' s t rfl rfl (extra' t u rfl rfl)
  | intersection back listed each =>
    cases alike
    exact .intersection back listed each
  | unionLeft _ ih => exact .unionLeft fun m member => ih m member alike
  | unionRight member widens ih =>
    cases alike with
    | refl => exact .unionRight member widens
    | union forth _ listed alike _ _ => exact .unionRight (listed _ member) (ih (alike _ member))

theorem choice_of_single (widens : Widens R s t) (single : s.kind ≠ .union)
    (single' : t.kind ≠ .union) (choice : Choice s c) :
    c = Shape.never ∨ ∃ d, Choice t d ∧ Widens R c d := by
  obtain rfl := choice.eq single
  exact .inr ⟨t, .self single', widens⟩

theorem choice (widens : Widens R s t) (choice : Choice s c) :
    c = Shape.never ∨ ∃ d, Choice t d ∧ Widens R c d := by
  induction widens generalizing c with
  | never t => exact .inl (choice.eq (by simp [kind]))
  | any s => exact .inr ⟨Shape.any, .self (by simp [kind]), .any c⟩
  | @flat s flat =>
    have single : s.kind ≠ .union := by cases s <;> simp_all [kind, isFlat]
    exact choice_of_single (.flat flat) single single choice
  | dateTime m n format =>
    exact choice_of_single (.dateTime m n format) (by simp [kind]) (by simp [kind]) choice
  | literal left right means =>
    exact choice_of_single (.literal left right means) (by simp [kind]) (by simp [kind]) choice
  | handle related => exact choice_of_single (.handle related) (by simp [kind]) (by simp [kind]) choice
  | array items => exact choice_of_single (.array items) (by simp [kind]) (by simp [kind]) choice
  | object length named shaped extras extra =>
    exact choice_of_single (.object length named shaped extras extra) (by simp [kind])
      (by simp [kind]) choice
  | intersection back listed each =>
    exact choice_of_single (.intersection back listed each) (by simp [kind]) (by simp [kind]) choice
  | unionLeft _ ih =>
    cases choice with
    | self single => exact absurd rfl single
    | member member inside => exact ih _ member inside
  | unionRight member _ ih =>
    rcases ih choice with rfl | ⟨d, counterpart, widens⟩
    · exact .inl rfl
    · exact .inr ⟨d, .member member counterpart, widens⟩

theorem of_choices (each : ∀ c, Choice s c → Widens R c t) : Widens R s t := by
  induction s using pieces_induction with
  | step s ih =>
    by_cases alternatives : s.kind = .union
    · obtain ⟨n, inclusive, members, rfl⟩ :
          ∃ n inclusive members, s = Shape.union n inclusive members := by
        cases s <;> first | exact ⟨_, _, _, rfl⟩ | cases alternatives
      exact .unionLeft fun m member => ih m member fun c choice => each c (.member member choice)
    · exact each s (.self alternatives)

theorem to_choice (widens : Widens R s d) (choice : Choice t d) : Widens R s t := by
  induction choice with
  | self => exact widens
  | member member _ ih => exact .unionRight member (ih widens)

theorem of_choice (widens : Widens R s t) (choice : Choice s c) : Widens R c t := by
  rcases widens.choice choice with rfl | ⟨d, counterpart, widens⟩
  · exact .never t
  · exact widens.to_choice counterpart

theorem object_of_forall₂ {f : Option Shape}
    (each : Forall₂ (fun p q => p.name = q.name ∧ (p.optional = true → q.optional = true) ∧
      Widens R p.shape q.shape) ps qs) (extra : Rel (Widens R) e f) :
    Widens R (.object m ps e) (.object n qs f) := by
  obtain ⟨length, pairs⟩ := forall₂_iff_getElem?.mp each
  refine .object length (fun i p q here there => ?_)
    (fun i p q here there => (pairs i p q here there).2.2) ?_ ?_
  · exact ⟨(pairs i p q here there).1, (pairs i p q here there).2.1⟩
  · cases extra <;> rfl
  · rintro s t rfl rfl
    cases extra with
    | some widens => exact widens

theorem intersection_of_exists (each : ∀ t ∈ ts, ∃ s ∈ ss, Widens R s t) :
    Widens R (.intersection m ss) (.intersection n ts) := by
  choose! back listed widens using each
  exact .intersection back listed widens

theorem renamed {f' : Nat → Nat} (related : ∀ id, live id → R (a id) (b id))
    (leaves : s.Leaves True live) : Widens R (s.rename f a) (s.rename f' b) := by
  induction s using pieces_induction with
  | step s ih =>
    have inner : ∀ p ∈ s.pieces, Widens R (p.rename f a) (p.rename f' b) :=
      fun p member => ih p member (leaves.piece member)
    cases s with
    | literal n v => exact .literal (leaves.of_literal trivial) (leaves.of_literal trivial) rfl
    | dateTime n format => exact .dateTime _ _ format
    | array n items => exact .array (inner items mem_cons_self)
    | object n props extra? =>
      rw [rename_object, rename_object]
      refine .object_of_forall₂ ?_ ?_
      · rw [forall₂_map_left_iff, forall₂_map_right_iff]
        exact forall₂_same.mpr fun p member => ⟨rfl, id, inner _ (mem_pieces_of_mem_props member)⟩
      · cases extra? with
        | none => exact .none
        | some extra => exact .some (inner extra mem_pieces_of_extra)
    | union n inclusive members =>
      rw [rename_union, rename_union]
      exact .unionLeft (forall_mem_map.mpr fun m member => .unionRight (mem_map_of_mem member)
        (inner m member))
    | intersection n members =>
      rw [rename_intersection, rename_intersection]
      refine .intersection_of_exists (forall_mem_map.mpr fun m member => ?_)
      exact ⟨_, mem_map_of_mem member, inner m member⟩
    | handle id => exact .handle (related id leaves.of_handle)
    | _ => exact .flat rfl

theorem rename_right (related : ∀ id, live id → R id (b id)) (leaves : s.Leaves True live) :
    Widens R s (s.rename f b) := by
  have widens : Widens R (s.rename id id) (s.rename f b) := renamed related leaves
  rwa [rename_id] at widens

theorem rename_left (related : ∀ id, live id → R (a id) id) (leaves : s.Leaves True live) :
    Widens R (s.rename f a) s := by
  have widens : Widens R (s.rename f a) (s.rename id id) := renamed related leaves
  rwa [rename_id] at widens

theorem self (leaves : s.Leaves True live) : Widens (Shared live) s s := by
  have widens : Widens (Shared live) (s.rename id id) s := rename_left (fun _ known => ⟨rfl, known⟩) leaves
  rwa [rename_id] at widens

theorem eq_never (widens : Widens R s Shape.never) (single : s.kind ≠ .union) : s = Shape.never := by
  cases widens with
  | never => rfl
  | flat => rfl
  | unionLeft => exact absurd rfl single

end Widens

def LiveHandle (live : Nat → Prop) (s : Shape) : Prop := ∀ id, s = .handle id → live id

/-- Tidy shapes with live handles, the second one wider. -/
structure Looser (live : Nat → Prop) (s t : Shape) : Prop where
  widens : Widens (Shared live) s t
  left : s.Tidy (LiveHandle live)
  right : t.Tidy (LiveHandle live)

variable {live : Nat → Prop} {s t : Shape}

theorem liveHandle_of_kind (other : s.kind ≠ .named) : LiveHandle live s := by
  rintro id rfl
  exact absurd rfl other

theorem liveHandle_unites (live : Nat → Prop) : Unites (Tidy (LiveHandle live)) Alike :=
  Tidy.unites (liveHandle_of_kind nofun) (liveHandle_of_kind nofun)

theorem looser_flat (flat : s.isFlat = true) : Looser live s s :=
  have tidy : s.Tidy (LiveHandle live) :=
    .flat flat (liveHandle_of_kind fun named => by cases s <;> cases named; cases flat)
  ⟨.flat flat, tidy, tidy⟩

theorem looser_handle {id : Nat} (known : live id) : Looser live (.handle id) (.handle id) :=
  have tidy : (Shape.handle id).Tidy (LiveHandle live) := .handle (by rintro _ ⟨⟩; exact known)
  ⟨.handle ⟨rfl, known⟩, tidy, tidy⟩

theorem looser_dateTime (m n : Nat) (format : String) :
    Looser live (.dateTime m format) (.dateTime n format) :=
  ⟨.dateTime m n format, .flat rfl (liveHandle_of_kind nofun), .flat rfl (liveHandle_of_kind nofun)⟩

theorem looser_literal (m n : Nat) (document : v.Document) : Looser live (.literal m v) (.literal n v) :=
  ⟨.literal document document rfl, .literal document (liveHandle_of_kind nofun),
    .literal document (liveHandle_of_kind nofun)⟩

theorem looser_array (m n : Nat) (items : Looser live s t) : Looser live (.array m s) (.array n t) :=
  ⟨.array items.widens, .array items.left, .array items.right⟩

theorem looser_object (m n : Nat)
    (each : Forall₂ (fun p q => p.name = q.name ∧ (p.optional = true → q.optional = true) ∧
      Looser live p.shape q.shape) ps qs) (extra : Rel (Looser live) e f) :
    Looser live (.object m ps e) (.object n qs f) where
  widens := by
    refine .object_of_forall₂ (each.imp fun p q pair => ⟨pair.1, pair.2.1, pair.2.2.widens⟩) ?_
    cases extra with
    | none => exact .none
    | some looser => exact .some looser.widens
  left := by
    refine .object (liveHandle_of_kind nofun) (fun p member => ?_) ?_
    · obtain ⟨q, -, pair⟩ := exists_right_of_mem each member
      exact pair.2.2.left
    · rintro s rfl
      cases extra with
      | some looser => exact looser.left
  right := by
    refine .object (liveHandle_of_kind nofun) (fun q member => ?_) ?_
    · obtain ⟨p, -, pair⟩ := exists_left_of_mem each member
      exact pair.2.2.right
    · rintro s rfl
      cases extra with
      | some looser => exact looser.right

theorem sortProperties_forall₂ {R : Property Shape → Property Shape → Prop}
    (names : ∀ p q, R p q → p.name = q.name) (each : Forall₂ R ps qs) :
    Forall₂ R (sortProperties ps) (sortProperties qs) := by
  -- both are the sides of one sorted list of pairs
  have length := each.length_eq
  have related : ∀ pair ∈ ps.zip qs, R pair.1 pair.2 :=
    fun pair member => (forall₂_iff_zip.mp each).2 member
  have left : ((ps.zip qs).mergeSort fun a b => decide (a.1.name ≤ b.1.name)).map Prod.fst =
      sortProperties ps := by
    refine (map_mergeSort fun _ _ _ _ => ?_).trans (congrArg sortProperties (map_fst_zip length.le))
    rfl
  have right : ((ps.zip qs).mergeSort fun a b => decide (a.1.name ≤ b.1.name)).map Prod.snd =
      sortProperties qs := by
    refine (map_mergeSort fun a here b there => ?_).trans (congrArg sortProperties (map_snd_zip length.ge))
    rw [names _ _ (related a here), names _ _ (related b there)]
  rw [← left, ← right, forall₂_map_left_iff, forall₂_map_right_iff]
  exact forall₂_same.mpr fun pair member => related pair (mem_mergeSort.mp member)

theorem gathered_wide (each : ∀ t ∈ ts, t.Tidy (LiveHandle live)) (inclusive : Bool) :
    ∃ grown?, addMembers [] ts = .ok grown? ∧ ∀ n, (gathered n inclusive grown?).Tidy (LiveHandle live) ∧
      ∀ t ∈ ts, ∀ {R s}, Widens R s t → Widens R s (gathered n inclusive grown?) := by
  obtain ⟨grown?, run, covered⟩ := gathered_covers (liveHandle_unites live) inclusive each
  refine ⟨grown?, run, fun n => ⟨(covered n).1, fun t listed R s widens => .of_choices fun c choice => ?_⟩⟩
  rcases widens.choice choice with rfl | ⟨d, counterpart, widens⟩
  · exact .never _
  · -- the counterpart is a member, or one that it is equal to
    rcases (covered n).2 t listed d counterpart with rfl | free | ⟨e, taken, -, same⟩
    · exact widens.eq_never choice.single ▸ .never _
    · exact free ▸ .any c
    · refine Widens.to_choice ?_ taken
      rcases same with rfl | alike
      · exact widens
      · exact widens.trans_alike alike.symm

theorem gathered_looser (each : Forall₂ (Looser live) ss ts) (inclusive : Bool) :
    ∃ grown? grown?', addMembers [] ss = .ok grown? ∧ addMembers [] ts = .ok grown?' ∧
      ∀ n n', Looser live (gathered n inclusive grown?) (gathered n' inclusive grown?') := by
  have left : ∀ s ∈ ss, s.Tidy (LiveHandle live) := fun s member =>
    (exists_right_of_mem each member).elim fun _ found => found.2.left
  have right : ∀ t ∈ ts, t.Tidy (LiveHandle live) := fun t member =>
    (exists_left_of_mem each member).elim fun _ found => found.2.right
  obtain ⟨grown?, run, tidy⟩ := gathered_wide left inclusive
  obtain ⟨grown?', run', wide⟩ := gathered_wide right inclusive
  refine ⟨grown?, grown?', run, run', fun n n' =>
    ⟨.of_choices fun c choice => ?_, (tidy n).1, (wide n').1⟩⟩
  rcases exists_choice_of_gathered run choice with rfl | ⟨s, member, inner⟩
  · exact .never _
  · obtain ⟨t, listed, looser⟩ := exists_right_of_mem each member
    exact (wide n').2 t listed (looser.widens.of_choice inner)

end Shape

namespace Conformance

open Shape

theorem exists_of_acceptsSome {check : Shape → Findings} {shapes : List Shape}
    (accepts : acceptsSome check shapes = .ok true) : ∃ s ∈ shapes, check s = .ok [] := by
  induction shapes with
  | nil => cases accepts
  | cons s rest ih =>
    rw [acceptsSome] at accepts
    obtain ⟨found, checked, accepts⟩ := bind_eq_ok_iff.mp accepts
    cases found with
    | nil => exact ⟨s, mem_cons_self, checked⟩
    | cons issue more =>
      obtain ⟨t, member, passes⟩ := ih accepts
      exact ⟨t, mem_cons_of_mem _ member, passes⟩

theorem exists_of_check_union {g : Graph} {budget n : Nat} {opened : Opened} {inclusive : Bool}
    {members : List Shape} {p : Path}
    (passes : check g (budget + 1) opened (.union n inclusive members) v p = .ok []) :
    ∃ m ∈ members, check g budget opened m v p = .ok [] := by
  rw [check] at passes
  obtain ⟨accepted, tested, passes⟩ := bind_eq_ok_iff.mp passes
  cases accepted with
  | false => cases passes
  | true =>
    obtain ⟨m, member, passes⟩ := exists_of_acceptsSome tested
    exact ⟨m, member, (check_settle g budget opened m v p).symm.trans passes⟩

variable {R : Nat → Nat → Prop} {g h : Graph} {budget n m m' : Nat} {opened opened' : Opened}
  {s t : Shape} {w : Value} {p : Path} {entries : List (String × Value)}

theorem Judges.passes {strict sound complete : Prop} {findings : Findings}
    (judges : Judges strict findings sound complete) (holds : strict) (complete : complete) :
    findings = .ok [] := by
  cases found : findings with
  | error e => exact absurd holds (judges.compares e found).2
  | ok issues => rw [judges.complete complete issues found]

theorem check_flat_eq_nil_iff (flat : s.isFlat = true) (proper : s ≠ .any) :
    check g (budget + 1) opened s v p = .ok [] ↔ fitsKind v.settle s.kind = true := by
  rw [check_flat flat proper]
  cases fitsKind v.settle s.kind with
  | true => simp
  | false => simp [mismatch]

theorem documented_of_leaves {live : Nat → Prop}
    (closed : ∀ id t, live id → g.target? id = some t → t.Leaves True live)
    (leaves : s.Leaves True live) : g.Documented s :=
  fun _ _ reached => (reached.leaves closed leaves).of_literal trivial

/-- Corresponding handles of two graphs: those of the first are bound where those of the second are,
there to wider shapes. -/
structure Covers (R : Nat → Nat → Prop) (g h : Graph) : Prop where
  apart {i i' j : Nat} (first : R i j) (second : R i' j) : i = i'
  bound {i j : Nat} (related : R i j) : (g.target? i).isSome = (h.target? j).isSome
  wider {i j : Nat} (related : R i j) {s t : Shape} (here : g.target? i = some s)
      (there : h.target? j = some t) : Widens R s t

theorem exists_entries_of_check {props : List (Property Shape)} {extra? : Option Shape}
    (passes : check g (budget + 1) opened (.object n props extra?) v p = .ok []) :
    ∃ entries, v.settle.entries? = some entries := by
  rw [check] at passes
  cases keyed : v.settle.entries? with
  | some entries => exact ⟨entries, rfl⟩
  | none =>
    rw [keyed] at passes
    cases passes

theorem exists_items_of_plain_eq {vs : List Value} (same : v.plain = w.plain)
    (listed : v.settle.items? = some vs) :
    ∃ ws, w.settle.items? = some ws ∧ vs.map plain = ws.map plain := by
  have plain := w.items?_plain
  rw [← same, v.items?_plain, listed] at plain
  obtain ⟨ws, listed', equal⟩ := map_eq_some_iff.mp plain.symm
  exact ⟨ws, listed', equal.symm⟩

theorem exists_entries_of_plain_eq (same : v.plain = w.plain)
    (keyed : v.settle.entries? = some entries) :
    ∃ entries', w.settle.entries? = some entries' ∧
      entries.map (fun entry => (entry.1, entry.2.plain)) = entries'.map fun entry =>
      (entry.1, entry.2.plain) := by
  have plain := w.entries?_plain
  rw [← same, v.entries?_plain, keyed] at plain
  obtain ⟨entries', keyed', equal⟩ := map_eq_some_iff.mp plain.symm
  exact ⟨entries', keyed', equal.symm⟩

theorem checkProperty_looser {check check' : Shape → Value → Path → Findings}
    {entries' : List (String × Value)} {a b : Property Shape} (name : a.name = b.name)
    (weaker : a.optional = true → b.optional = true)
    (same : (get? entries b.name).map plain = (get? entries' b.name).map plain)
    (inside : ∀ x y, get? entries' b.name = some y → x.plain = y.plain →
      check a.shape x (p.field b.name) = .ok [] → check' b.shape y (p.field b.name) = .ok [])
    (passes : checkProperty check entries p a = .ok []) :
    checkProperty check' entries' p b = .ok [] := by
  unfold checkProperty at passes ⊢
  rw [name] at passes
  cases found : get? entries' b.name with
  | some y =>
    rw [found] at same
    obtain ⟨x, found', equal⟩ := map_eq_some_iff.mp same
    rw [found'] at passes
    exact inside x y found equal passes
  | none =>
    rw [found, map_none, map_eq_none_iff] at same
    rw [same] at passes
    cases optional : a.optional with
    | true => rw [weaker optional]; rfl
    | false => simp [optional, pure, Except.pure] at passes

theorem check_literal_looser {x y : Value} (settled : v.settle = v) (settled' : w.settle = w)
    (same : v.plain = w.plain) (left : x.Document) (right : y.Document)
    (means : x.meaning = y.meaning)
    (passes : check g (budget + 1) opened (.literal m x) v p = .ok []) :
    check h (n + 1) opened' (.literal m' y) w p = .ok [] := by
  have inhabits := (check_literal_judges settled fun _ : True => left).sound passes
  have equal := matchesLiteral_iff.mp (Inhabits.literal_iff.mp inhabits)
  rw [v.plain_settle, same, ← w.plain_settle] at equal
  have equal' : x.literalEqual y = .ok true := (literalEqual_decides left right).eq_ok_true means
  have inhabits' : Inhabits h (.literal m' y) w :=
    Inhabits.literal_iff.mpr (matchesLiteral_iff.mpr (literalEqual_trans equal equal'))
  exact (check_literal_judges settled' fun _ : True => right).passes trivial inhabits'

theorem check_array_wider {a b : Shape} (settled : v.settle = v) (settled' : w.settle = w)
    (same : v.plain = w.plain)
    (inside : ∀ x y : Value, y.size < w.size → x.plain = y.plain →
      ∀ q, check g budget opened a x q = .ok [] → check h n opened' b y q = .ok [])
    (passes : check g (budget + 1) opened (.array m a) v p = .ok []) :
    check h (n + 1) opened' (.array m' b) w p = .ok [] := by
  obtain ⟨vs, listed, each⟩ := (check_array_eq_nil_iff settled).mp passes
  obtain ⟨ws, listed', equal⟩ := exists_items_of_plain_eq same (settled.symm ▸ listed)
  rw [settled'] at listed'
  refine (check_array_eq_nil_iff settled').mpr ⟨ws, listed', fun e member => ?_⟩
  have place := congrArg (·[e.2]?) equal
  simp only [getElem?_map, mk_mem_zipIdx_iff_getElem?.mp member, map_some] at place
  obtain ⟨x, there, alike⟩ := map_eq_some_iff.mp place
  exact inside x e.1 (size_lt_of_mem_items listed' (fst_mem_of_mem_zipIdx member)) alike _
    (each (x, e.2) (mk_mem_zipIdx_iff_getElem?.mpr there))

theorem check_object_wider (settled : w.settle = w) (same : v.plain = w.plain)
    (pairs : Forall₂ (fun a b => a.name = b.name ∧ (a.optional = true → b.optional = true) ∧
      Widens R a.shape b.shape) ps qs) (extras : e.isSome = f.isSome)
    (extra : ∀ narrow wide, e = some narrow → f = some wide → Widens R narrow wide)
    (inside : ∀ a b, b ∈ (object m' qs f).pieces → Widens R a b → ∀ x y : Value, y.size < w.size →
      x.plain = y.plain → ∀ q, check g budget opened a x q = .ok [] →
      check h n opened' b y q = .ok [])
    (passes : check g (budget + 1) opened (.object m ps e) v p = .ok []) :
    check h (n + 1) opened' (.object m' qs f) w p = .ok [] := by
  obtain ⟨entries, keyed⟩ := exists_entries_of_check passes
  obtain ⟨entries', keyed', equal⟩ := exists_entries_of_plain_eq same keyed
  have smaller : ∀ {key : String} {y : Value}, (key, y) ∈ entries' → y.size < w.size :=
    size_lt_of_mem_entries (settled ▸ keyed')
  obtain ⟨declared, undeclared⟩ := (check_object_parts keyed).mp passes
  refine (check_object_parts keyed').mpr ⟨checkEach_eq_nil_iff.mpr fun q member => ?_, ?_⟩
  · obtain ⟨a, member', name, weaker, widens⟩ := exists_left_of_mem pairs member
    have alike : (get? entries q.name).map plain = (get? entries' q.name).map plain := by
      rw [← get?_map, ← get?_map, equal]
    refine checkProperty_looser name weaker alike (fun x y found alike passes => ?_)
      (checkEach_eq_nil_iff.mp declared a member')
    exact inside _ _ (mem_pieces_of_mem_props member) widens x y
      (smaller (mem_of_get?_eq_some found)) alike _ passes
  · rintro wide rfl
    obtain ⟨narrow, rfl⟩ := isSome_iff_exists.mp extras
    have passed := checkEach_eq_nil_iff.mp (undeclared narrow rfl)
    refine checkEach_eq_nil_iff.mpr ?_
    rintro ⟨key, y⟩ member
    obtain ⟨listed, unknown⟩ := mem_filter.mp member
    obtain ⟨⟨_, x⟩, listed', alike⟩ := mem_map.mp (equal ▸ mem_map_of_mem listed)
    obtain ⟨rfl, alike⟩ := Prod.mk.inj alike
    have unknown' := (property?_isNone_of_names (pairs.imp fun _ _ pair => pair.1) _).trans unknown
    exact inside _ _ mem_pieces_of_extra (extra narrow wide rfl rfl) x y (smaller listed) alike _
      (passed _ (mem_filter.mpr ⟨listed', unknown'⟩))

/-- What passes the check of a shape passes that of a wider one: the guard meets corresponding
handles at the same places. -/
theorem check_wider (covers : Covers R g h) {budget' : Nat}
    (entered : ∀ e ∈ opened', ∃ i, R i e.1 ∧ (i, e.2) ∈ opened) (widens : Widens R s t)
    (documented : h.Documented t) (same : v.plain = w.plain)
    (passes : check g budget opened s v p = .ok [])
    (affords : Affords h opened' t w.size p budget') : check h budget' opened' t w p = .ok [] := by
  induction budget generalizing s t v w p opened opened' budget' with
  | zero => cases passes
  | succ budget ih =>
    rw [← check_settle] at passes ⊢
    rw [← v.plain_settle, ← w.plain_settle] at same
    have settled := v.settle_settle
    have settled' := w.settle_settle
    replace affords := affords.settle
    generalize v.settle = v at settled same passes
    generalize w.settle = w at settled' same affords ⊢
    have fits : ∀ kind, fitsKind v.settle kind = fitsKind w.settle kind := fun kind => by
      rw [← fitsKind_plain, ← fitsKind_plain, same]
    have below : ∀ {t a b x y q n}, h.Documented t → b ∈ t.pieces → Widens R a b → y.size < w.size →
        x.plain = y.plain →
        Affords h opened' t w.size p (n + 1) → check g budget opened a x q = .ok [] →
        check h n opened' b y q = .ok [] :=
      fun documented inside wider smaller alike affords passes =>
        ih entered wider (documented.piece inside) alike passes (affords.descend inside smaller _)
    -- alternatives of the second shape are gone through one by one; all else opens both shapes
    obtain ⟨n, rfl⟩ := Nat.exists_eq_succ_of_ne_zero affords.pos.ne'
    induction widens generalizing n with
    | never t =>
      cases (check_flat_eq_nil_iff (s := Shape.never) rfl (by simp)).mp passes
    | any s =>
      rfl
    | @flat s flat =>
      by_cases proper : s = .any
      · subst proper
        rfl
      · rw [check_flat_eq_nil_iff flat proper, fits] at passes
        rwa [check_flat_eq_nil_iff flat proper]
    | dateTime =>
      rw [check_flat_eq_nil_iff rfl (by simp), fits] at passes
      rwa [check_flat_eq_nil_iff rfl (by simp)]
    | literal document document' means =>
      exact check_literal_looser settled settled' same document document' means passes
    | @handle i j related =>
      have fresh := not_contains_of_check passes
      have fresh' : opened'.contains (j, p.pointer) = false := by
        rw [contains_eq_mem, decide_eq_false_iff_not] at fresh ⊢
        intro inside
        obtain ⟨k, other, inside'⟩ := entered _ inside
        exact fresh (covers.apart other related ▸ inside')
      cases found : h.target? j with
      | none => simp only [check, fresh', found, Bool.false_eq_true, if_false]; rfl
      | some target =>
        obtain ⟨narrow, here⟩ :=
          isSome_iff_exists.mp ((covers.bound related).trans (isSome_of_eq_some found))
        rw [check_bound fresh here] at passes
        rw [check_bound fresh' found]
        refine ih ?_ (covers.wider related here found) (documented.target found) same passes
          (affords.open_handle (by simpa using fresh') found)
        refine forall_mem_cons.mpr ⟨⟨i, related, mem_cons_self⟩, fun e member => ?_⟩
        obtain ⟨k, other, inside⟩ := entered e member
        exact ⟨k, other, mem_cons_of_mem _ inside⟩
    | array items =>
      exact check_array_wider settled settled' same (fun x y smaller alike q =>
        below documented mem_cons_self items smaller alike affords) passes
    | @object m m' ps qs e f length named shaped extras extra =>
      refine check_object_wider settled' same
        (forall₂_iff_getElem?.mpr ⟨length, fun i a b here there => ?_⟩) extras extra
        (fun a b inside wider x y smaller alike q =>
        below documented inside wider smaller alike affords) passes
      exact ⟨(named i a b here there).1, (named i a b here there).2, shaped i a b here there⟩
    | intersection back listed each =>
      rw [check, settled, checkEach_eq_nil_iff] at passes
      rw [check, settled', checkEach_eq_nil_iff]
      exact fun t member => ih entered (each t member) (documented.piece member) same
        (passes (back t) (listed t member)) (affords.piece member)
    | unionLeft each =>
      obtain ⟨m, member, passes⟩ := exists_of_check_union passes
      exact ih entered (each m member) documented same passes affords
    | @unionRight k inclusive members s m member widens ih' =>
      obtain ⟨room, rfl⟩ := Nat.exists_eq_succ_of_ne_zero (affords.piece member).pos.ne'
      have accepted := ih' (documented.piece member) passes room (affords.piece member)
      have judged : ∀ m ∈ members, Judges True (check h (room + 1) opened' m w p) True
          (check h (room + 1) opened' m w p = .ok []) := by
        intro m member
        have judges := check_judges (affords.piece member) fun _ : True => documented.piece member
        exact ⟨judges.compares, fun _ => trivial, fun none found equal =>
          (Except.ok.inj (none.symm.trans equal)).symm⟩
      rw [check, settled']
      exact (Judges.some judged).passes trivial ⟨m, member, accepted⟩

theorem conforms_of_check (covers : Covers R g h) (widens : Widens R s t)
    (documented : h.Documented t) (same : v.plain = w.plain)
    (passes : check g budget [] s v .root = .ok []) : conforms h t w = .ok true := by
  have passes' : issues h t w = .ok [] :=
    check_wider covers (forall_mem_nil _) widens documented same passes (affords_checkBudget h t w)
  rw [conforms, passes']
  rfl

theorem conforms_wider (covers : Covers R g h) (widens : Widens R s t) (documented : h.Documented t)
    (conforms : conforms g s v = .ok true) : Conformance.conforms h t v = .ok true :=
  conforms_of_check covers widens documented rfl (issues_of_conforms conforms)

variable {live : Nat → Prop}

structure Relaxes (live : Nat → Prop) (g h : Graph) : Prop where
  bound {id : Nat} (known : live id) : (g.target? id).isSome = (h.target? id).isSome
  looser {id : Nat} (known : live id) {s t : Shape} (here : g.target? id = some s)
      (there : h.target? id = some t) : Looser live s t

theorem Relaxes.covers (relaxes : Relaxes live g h) : Covers (Shared live) g h where
  apart first second := first.1.trans second.1.symm
  bound := by
    rintro i _ ⟨rfl, known⟩
    exact relaxes.bound known
  wider := by
    rintro i _ ⟨rfl, known⟩ s t here there
    exact (relaxes.looser known here there).widens

theorem conforms_looser (relaxes : Relaxes live g h) (looser : Looser live s t)
    (conforms : conforms g s v = .ok true) : Conformance.conforms h t v = .ok true := by
  have leaves : ∀ {s t}, Looser live s t → t.Leaves True live :=
    fun looser => looser.right.leaves fun id known => known id rfl
  refine conforms_wider relaxes.covers looser.widens
    (documented_of_leaves (fun id t known found => ?_) (leaves looser)) conforms
  obtain ⟨s, here⟩ := isSome_iff_exists.mp ((relaxes.bound known).trans (isSome_of_eq_some found))
  exact leaves (relaxes.looser known here found)

end Conformance

end JsonShape
