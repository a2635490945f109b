import JsonShape.Proofs.Arrangement
import JsonShape.Proofs.Visiting

/-! The handles of a graph. Those that are found from a shape are those that it reaches, each once,
and a copy of the shape, rebuilt with its own leaves, has handles with the same names in the same
order. -/

namespace JsonShape
open List Option

namespace Graph

open Shape

variable {g g' : Graph} {s t s' t' : Shape} {ren ren' : List (Nat × Nat)}
  {visited visited' shapes : List Shape} {budget : Nat}

/-- The visit does not depend on its budget, if that lasts. -/
theorem visit_eq_of_ahead {budget' : Nat} (enough : g.ahead visited s < budget)
    (enough' : g.ahead visited s < budget') :
    g.visit (fun _ => true) budget visited s = g.visit (fun _ => true) budget' visited s := by
  induction budget generalizing budget' visited s with
  | zero => omega
  | succ budget ih =>
    obtain ⟨budget', rfl⟩ := Nat.exists_eq_add_one_of_ne_zero (Nat.ne_zero_of_lt enough')
    rw [visit_succ, visit_succ]
    split_ifs with again
    · rfl
    have fold : ∀ parts start, parts ⊆ g.parts s → s :: visited ⊆ start →
        parts.foldl (fun visited part => g.visit (fun _ => true) budget visited part) start =
          parts.foldl (fun visited part => g.visit (fun _ => true) budget' visited part) start := by
      intro parts
      induction parts with
      | nil => exact fun _ _ _ => rfl
      | cons p rest later =>
        intro start inside more
        obtain ⟨own, inside⟩ := cons_subset.mp inside
        have less := ahead_lt again own more
        rw [foldl_cons, foldl_cons, ← ih (less.trans_le (Nat.le_of_lt_succ enough))
          (less.trans_le (Nat.le_of_lt_succ enough'))]
        exact later _ inside (Subset.trans more
          (visit_explored g (less.trans_le (Nat.le_of_lt_succ enough))).more)
    exact fold _ _ (Subset.refl _) (Subset.refl _)

/-- A shape that is another one, but for the numbers of what is not a leaf and for the handles that
are replaced. -/
inductive Copied (ren : List (Nat × Nat)) : Shape → Shape → Prop
  | leaf {s : Shape} (plain : s.isLeaf = true) : Copied ren s s
  | handle {id fresh : Nat} (member : (id, fresh) ∈ ren) : Copied ren (.handle id) (.handle fresh)
  | array {n m : Nat} {s t : Shape} (items : Copied ren s t) : Copied ren (.array n s) (.array m t)
  | object {n m : Nat} {ps qs : List (Property Shape)} {e f : Option Shape}
      (props : Forall₂ (RemadeProperty (Copied ren)) ps qs)
    (extra : Rel (Copied ren) e f) : Copied ren (.object n ps e) (.object m qs f)
  | union {n m : Nat} {inclusive : Bool} {ss ts : List Shape} (members : Forall₂ (Copied ren) ss ts) :
    Copied ren (.union n inclusive ss) (.union m inclusive ts)
  | intersection {n m : Nat} {ss ts : List Shape} (members : Forall₂ (Copied ren) ss ts) :
    Copied ren (.intersection n ss) (.intersection m ts)

theorem Copied.kind_eq (copied : Copied ren s t) : s.kind = t.kind := by
  cases copied <;> rfl

theorem forall₂_imp_of_mem {α β : Type} {R S : α → β → Prop} {as : List α} {bs : List β}
    (each : ∀ a ∈ as, ∀ b, R a b → S a b) (related : Forall₂ R as bs) : Forall₂ S as bs := by
  have both : Forall₂ (fun a b => (∀ b, R a b → S a b) ∧ R a b) as bs :=
    (forall₂_and_left _ _).mpr ⟨each, related⟩
  exact both.imp fun a b holds => holds.1 b holds.2

theorem Copied.mono (more : ren ⊆ ren') (copied : Copied ren s t) : Copied ren' s t := by
  induction s using pieces_induction generalizing t with
  | step s ih =>
    cases copied with
    | leaf plain => exact .leaf plain
    | handle member => exact .handle (more member)
    | array items => exact .array (ih _ mem_cons_self items)
    | object props extra =>
      refine .object (forall₂_imp_of_mem (fun p member q remade => remade.imp fun _ =>
        ih p.shape (mem_pieces_of_mem_props member)) props) ?_
      exact optionRel_imp (fun a member _ => ih a (mem_def.mp member ▸ mem_pieces_of_extra)) extra
    | union members => exact .union (forall₂_imp_of_mem (fun p member _ => ih p member) members)
    | intersection members =>
      exact .intersection (forall₂_imp_of_mem (fun p member _ => ih p member) members)

theorem handleIds_copied (copies : Forall₂ (Copied ren) visited visited') :
    Forall₂ (fun id fresh => (id, fresh) ∈ ren) (handleIds visited) (handleIds visited') := by
  refine rel_filterMap (fun s t copied => ?_) copies
  cases copied with
  | handle member => exact .some member
  | @leaf s plain => cases s <;> first | exact .none | cases plain
  | _ => exact .none

theorem parts_copied (targets : ∀ e ∈ ren, Rel (Copied ren) (g.target? e.1) (g'.target? e.2))
    (copied : Copied ren s t) : Forall₂ (Copied ren) (g.parts s) (g'.parts t) := by
  have listed : ∀ {e f : Option Shape}, Rel (Copied ren) e f → Forall₂ (Copied ren) e.toList f.toList := by
    intro e f related
    cases related with
    | some copied => exact .cons copied .nil
    | none => exact .nil
  cases copied with
  | handle member => exact listed (targets _ member)
  | @leaf s plain => cases s <;> first | exact .nil | cases plain
  | array items => exact .cons items .nil
  | object props extra =>
    refine rel_append (rel_map (fun p q remade => ?_) props) (listed extra)
    cases remade with
    | mk remade => exact remade
  | union members => exact members
  | intersection members => exact members

theorem visit_copied (unique : Relator.BiUnique fun id fresh => (id, fresh) ∈ ren)
    (targets : ∀ e ∈ ren, Rel (Copied ren) (g.target? e.1) (g'.target? e.2)) (budget : Nat)
    (copies : Forall₂ (Copied ren) visited visited') (copied : Copied ren s t) :
    Forall₂ (Copied ren) (g.visit (fun _ => true) budget visited s)
      (g'.visit (fun _ => true) budget visited' t) := by
  induction budget generalizing visited visited' s t with
  | zero => exact copies
  | succ budget ih =>
    have again : isAgain visited s = isAgain visited' t := by
      cases copied with
      | handle member =>
        rw [Bool.eq_iff_iff, isAgain_iff, isAgain_iff]
        simpa using rel_mem unique member (handleIds_copied copies)
      | @leaf s plain => cases s <;> first | rfl | cases plain
      | _ => rfl
    rw [visit_succ, visit_succ, again]
    split_ifs
    · exact copies
    · exact rel_foldl (R := Copied ren) (fun _ _ copies _ _ copied => ih copies copied)
        (.cons copied copies) (parts_copied targets copied)

theorem Copied.lifts (copied : Copied ren s t) (rich : s.isLeaf ≠ true) (proper : s.kind ≠ .named) :
    Lifts (Copied ren) s t ∧ Lifts (fun t s => Copied ren s t) t s := by
  cases copied with
  | leaf plain => exact absurd plain rich
  | handle => exact absurd rfl proper
  | array items => exact ⟨items, items⟩
  | object props extra =>
    obtain ⟨length, each⟩ := forall₂_iff_getElem?.mp props
    refine ⟨⟨⟨length, by cases extra <;> rfl⟩, ?_, fun i p q here there => ?_⟩,
      ⟨length.symm, by cases extra <;> rfl⟩, ?_, fun i q p there here => ?_⟩
    · rintro s t rfl rfl
      cases extra with
      | some copied => exact copied
    · cases each i p q here there with
      | mk remade => exact ⟨⟨rfl, rfl⟩, remade⟩
    · rintro t s rfl rfl
      cases extra with
      | some copied => exact copied
    · cases each i p q here there with
      | mk remade => exact ⟨⟨rfl, rfl⟩, remade⟩
  | union members | intersection members =>
    exact ⟨⟨members.length_eq, fun _ => exists_right_of_mem members⟩, members.length_eq.symm,
      fun _ => exists_left_of_mem members⟩

theorem isLeaf_of_kind_eq (kinds : s.kind = t.kind) (plain : t.isLeaf = true) : s.isLeaf = true := by
  unfold isLeaf at *
  rw [kinds]
  exact Bool.or_eq_true_iff.mpr ((Bool.or_eq_true_iff.mp plain).imp_left (isFlat_of_kind_eq kinds))

/-- Copies that are found equal are copies of shapes that are not told apart. -/
theorem Copied.reflects (unique : Relator.BiUnique fun id fresh => (id, fresh) ∈ ren)
    (first : Copied ren s t) (second : Copied ren s' t') (equal : t.equal t' = .ok true) :
    s.equal s' ≠ .ok false := by
  induction s using pieces_induction generalizing t s' t' with
  | step s ih =>
    intro differ
    have kinds : t.kind = t'.kind := by
      by_contra different
      cases equal.symm.trans (equal_of_kind_ne different)
    by_cases plain : s.isLeaf = true
    · have same : t = s := by cases first <;> first | rfl | cases plain
      subst same
      cases second with
      | leaf => cases equal.symm.trans differ
      | _ => cases t <;> first | (cases kinds; done) | cases plain
    -- no literals are compared at this level, so equality is told by the parts
    have tells : ∀ {R : Shape → Shape → Prop} {a b : Shape}, a.isLeaf ≠ true → (∀ s, R s s) →
        (∀ s t, Tells (s.equal t) (R s t)) →
        Tells (a.equal b) (Lifts R a b) := by
      intro R a b rich refl each
      refine equal_tells_lifts refl each ?_
      rintro m v n w rfl
      exact absurd rfl rich
    have middle : Lifts Matches t t' := by
      refine (tells ?_ equal_self (fun a b answer found => ?_) true equal).mp rfl
      · cases first <;> exact plain
      · rw [Matches, found, Except.ok.injEq]
    by_cases named : s.kind = .named
    · cases first with
      | leaf own => exact plain own
      | handle member =>
        cases second with
        | leaf own => cases s' <;> first | (cases kinds; done) | cases own
        | handle member' =>
          obtain rfl : _ = _ := middle
          obtain rfl := unique.1 member member'
          cases differ.symm.trans (equal_self _)
        | _ => cases kinds
      | _ => cases named
    have kinds' : s.kind = s'.kind := (first.kind_eq.trans kinds).trans second.kind_eq.symm
    have half : Lifts (fun a b => ∃ c, Copied ren a c ∧ Matches c b) s t' :=
      (first.lifts plain named).1.trans middle fun a _ c _ b _ copied same => ⟨c, copied, same⟩
    have whole : Lifts (fun a b => a.equal b ≠ .ok false) s s' := by
      refine half.trans (second.lifts (fun own => plain (isLeaf_of_kind_eq kinds' own))
        (kinds' ▸ named)).2 fun a member b _ c _ copied copied' => ?_
      obtain ⟨d, copied, same⟩ := copied
      exact ih a member copied copied' same
    refine absurd ((tells plain (fun a => ?_) (fun a b answer found => ?_) false differ).mpr whole)
      Bool.false_ne_true
    · rw [equal_self]
      exact fun equal => Bool.false_ne_true (Except.ok.inj equal).symm
    · rw [found]
      cases answer <;> simp

theorem enlist_apart (members : List Shape) {grown? : Option (List Shape)}
    (proper : ∀ t ∈ shapes, t.kind ≠ .any)
    (apart : (members ++ shapes).Pairwise fun a b => a.equal b ≠ .ok true)
    (run : enlist members shapes = .ok grown?) : grown? = some (members ++ shapes) := by
  fun_induction enlist members shapes with
  | case1 members => rw [append_nil, Except.ok.inj run]
  | case2 members c rest free => exact absurd free (proper c mem_cons_self)
  | case3 => cases run
  | case4 members c rest _ found =>
    obtain ⟨m, member, equal⟩ := exists_of_anyM found
    exact absurd equal ((pairwise_append.mp apart).2.2 m member c mem_cons_self)
  | case5 members c rest _ _ ih =>
    rw [append_cons] at apart ⊢
    exact ih (forall_mem_cons.mp proper).2 apart run

theorem flatMap_spread (single : ∀ t ∈ shapes, t.kind ≠ .never ∧ t.kind ≠ .union) :
    shapes.flatMap spread = shapes := by
  refine (flatMap_congr fun t member => ?_).trans (flatMap_pure_eq_map id shapes |>.trans (map_id shapes))
  obtain ⟨proper, single⟩ := single t member
  cases t <;> first | rfl | exact absurd rfl proper | exact absurd rfl single

/-- The unions that a shape reaches are in normal form. -/
def Normal (g : Graph) (s : Shape) : Prop :=
  ∀ n inclusive members, g.Reaches s (.union n inclusive members) → 2 ≤ members.length ∧ Varied members

theorem Replaces.biUnique {base : Graph} (replaces : Replaces base ren g) :
    Relator.BiUnique fun id fresh => (id, fresh) ∈ ren :=
  ⟨fun _ _ _ one other => (replaces.single _ one _ other).mpr rfl, fun _ _ _ one other =>
    (replaces.single _ one _ other).mp rfl⟩

theorem pairwise_of_forall₂ {α β : Type} {R : α → β → Prop} {P : α → α → Prop} {Q : β → β → Prop}
    {as : List α} {bs : List β} (each : Forall₂ R as bs)
    (carries : ∀ a a' b b', R a b → R a' b' → P a a' → Q b b') (pairs : as.Pairwise P) :
    bs.Pairwise Q := by
  induction each with
  | nil => exact .nil
  | cons here later ih =>
    rw [pairwise_cons] at pairs ⊢
    refine ⟨fun b' member => ?_, ih pairs.2⟩
    obtain ⟨a', member', related⟩ := exists_left_of_mem later member
    exact carries _ a' _ b' here related (pairs.1 a' member')

theorem copied_remakes {leaf : Shape → Fresh Shape}
    (unchanged : ∀ r, r.isLeaf = true → leaf r = pure r) (anchored : g.Anchored s)
    (normal : g.Normal s) : Remakes False g leaf (g.Reaches s) Copied where
  piece reached := reached.piece
  target reached := reached.target
  inside := anchored _
  mono := .mono
  handle := .handle
  leaf _ plain _ := by
    rw [unchanged _ plain]
    exact .ok (.leaf plain)
  array := .array
  object := .object
  union {ren g' n inclusive ss ts} reached replaces members k := by
    obtain ⟨two, varied⟩ := normal n inclusive ss reached
    have apart : ts.Pairwise fun a b => a.equal b ≠ .ok true := pairwise_of_forall₂ members
      (fun a a' b b' copied copied' differ equal =>
      copied.reflects replaces.biUnique copied' equal differ) varied.distinct
    have single : ∀ t ∈ ts, t.kind ≠ .any ∧ t.kind ≠ .never ∧ t.kind ≠ .union := by
      intro t member
      obtain ⟨s, listed, copied⟩ := exists_left_of_mem members member
      exact copied.kind_eq ▸ varied.single s listed
    refine (unionOf_compares inclusive ts k).attains fun r run => ?_
    obtain ⟨grown?, taken, equal, -⟩ := unionOf_eq_gathered run
    rw [addMembers_eq_enlist, flatMap_spread fun t member => (single t member).2] at taken
    rw [equal, enlist_apart [] (fun t member => (single t member).1) apart taken]
    rcases ts with _ | ⟨a, _ | ⟨b, rest⟩⟩
    · cases members
      cases two
    · cases Nat.le_of_succ_le_succ (members.length_eq ▸ two)
    · exact .union members
  intersection := .intersection

theorem handlesIn_of_budget (enough : g.reachBudget s ≤ budget) :
    handleIds (g.visit (fun _ => true) budget [] s).reverse = g.handlesIn s := by
  rw [handlesIn_eq, walk, visit_eq_of_ahead ((ahead_lt_reachBudget g s).trans_le enough)
    (ahead_lt_reachBudget g s)]

theorem label?_handlesIn_copied (advances : Advances Copied g [] g ren g') (copied : Copied ren s t) :
    (g'.handlesIn t).map g'.label? = (g.handlesIn s).map g.label? := by
  have targets : ∀ e ∈ ren, Rel (Copied ren) (g.target? e.1) (g'.target? e.2) :=
    fun e member => (advances.settled e member).resolve_left not_mem_nil
  have walks := visit_copied advances.replaces.biUnique targets (g.reachBudget s + g'.reachBudget t)
      .nil copied
  have handles := handleIds_copied (rel_reverse walks)
  rw [handlesIn_of_budget (Nat.le_add_right _ _), handlesIn_of_budget (Nat.le_add_left _ _)] at handles
  have labels : Forall₂ Eq ((g'.handlesIn t).map g'.label?) ((g.handlesIn s).map g.label?) :=
    rel_map (fun fresh id member => advances.replaces.labels (id, fresh) member) handles.flip
  rwa [forall₂_eq_eq_eq] at labels

/-- The handles found from a shape are those that it reaches, each once, with any budget from that
of the visit on. Rebuilt with its own leaves, a shape whose unions are in normal form has handles
with the same names and references in the same order, unless literals have to be compared that
cannot be. -/
theorem handlesIn_enumerates (g : Graph) (s : Shape) :
    (∀ budget, g.reachBudget s ≤ budget → handleIds (g.visit (fun _ => true) budget [] s).reverse =
      g.handlesIn s) ∧ (g.handlesIn s).Nodup ∧
      (∀ id, id ∈ g.handlesIn s ↔ g.Reaches s (.handle id)) ∧ ∀ leaf : Shape → Fresh Shape,
      (∀ r, r.isLeaf = true → leaf r = pure r) → g.Anchored s → g.Normal s →
      (∃ t g', mapLeaves leaf s g = .ok (t, g') ∧
      (g'.handlesIn t).map g'.label? = (g.handlesIn s).map g.label?) ∨
      mapLeaves leaf s g = .error .incomparable ∧ ¬ g.Documented s := by
  refine ⟨fun _ => handlesIn_of_budget, g.nodup_handlesIn s, fun _ =>
    mem_handlesIn, fun leaf unchanged anchored normal => ?_⟩
  have attains := mapLeaves_remakes (copied_remakes unchanged anchored normal) .self
  cases run : mapLeaves leaf s g with
  | ok r =>
    rw [run] at attains
    cases attains with
    | ok copied =>
      obtain ⟨ren, advances, copied⟩ := copied
      exact .inl ⟨r.1, r.2, rfl, label?_handlesIn_copied advances copied⟩
  | error e =>
    rw [run] at attains
    cases attains with
    | fault _ =>
      refine .inr ⟨rfl, fun documented => ?_⟩
      have draws : Draws leaf fun r => r.rename (fun _ => 0) id := by
        intro r plain leaves
        rw [unchanged r plain]
        refine .pure ⟨leaves, fun back => ?_⟩
        cases r <;> first | rfl | cases plain
      obtain ⟨r, done, -⟩ := (mapLeaves_remakes (shaped_remakes draws) ⟨documented, anchored⟩).exists_ok
      cases run.symm.trans done

def trail : Graph :=
  ⟨#[⟨"Step", "#", some (array 0 (union 1 false [handle 1, string]))⟩,
    ⟨"Path", "#/$defs/path", some (array 2 (handle 0))⟩], 3⟩

theorem trail_enumerated :
    trail.handlesIn (handle 0) = [0, 1] ∧ ∃ t g', mapLeaves pure (handle 0) trail = .ok (t, g') ∧
      (g'.handlesIn t).map g'.label? = [some ("Step", "#"), some ("Path", "#/$defs/path")] := by
  have shapes : (handle 0).subshapes ++ graphShapes trail =
      [handle 0, array 0 (union 1 false [handle 1, string]), union 1 false [handle 1, string],
      handle 1, string, array 2 (handle 0), handle 0] := by
    decide +kernel
  have anchored : trail.Anchored (handle 0) := by
    intro id reached
    have member := reached.mem_shapes
    rw [shapes] at member
    obtain rfl | rfl | rfl : id = 0 ∨ id = 1 ∨ id = 0 := by simpa using member
    all_goals decide
  have normal : trail.Normal (handle 0) := by
    intro n inclusive members reached
    have member := reached.mem_shapes
    rw [shapes] at member
    obtain ⟨-, -, rfl⟩ : n = 1 ∧ inclusive = false ∧ members = [handle 1, string] := by simpa using member
    exact ⟨le_rfl, by simp [kind], by decide +kernel⟩
  have documented : trail.Documented (handle 0) := by
    intro n w reached
    have member := reached.mem_shapes
    rw [shapes] at member
    simp at member
  obtain ⟨-, -, -, rebuilt⟩ := handlesIn_enumerates trail (handle 0)
  rcases rebuilt pure (fun _ _ => rfl) anchored normal with ⟨t, g', run, labels⟩ | ⟨-, undocumented⟩
  · exact ⟨by decide +kernel, t, g', run, labels.trans (by decide +kernel)⟩
  · exact absurd documented undocumented

end Graph

end JsonShape
