import JsonShape.Proofs.Assembly
import JsonShape.Proofs.Collapse

/-! Projections one after the other. Each leaves its own results as they are, and the strict one
undoes the weak one unless members of an intersection become equal by it. -/
namespace JsonShape
open List

namespace Shape

variable {live : Nat → Prop} {s c : Shape} {members : List Shape}

theorem bareLeaf_looseLeaf_collapses : Collapses bareLeaf looseLeaf bareLeaf where
  again := bareLeaf_loosens
  once := looseLeaf_loosens
  whole := bareLeaf_loosens
  plain := bareLeaf_plain
  leaf {s live} flat := by
    have text : string.Leaves True live := leaves_flat rfl nofun nofun
    have akin : Akin live ([string] ++ [string]) [string] :=
      akin_append_of_subset (forall_mem_singleton.mpr text) (Subset.refl _)
    have rich : ∀ {r : Shape}, r.projected bareLeaf = string →
        (union 0 false [r, string]).projected bareLeaf = string := by
      intro r same
      rw [projected_union, map_cons, same]
      exact (akin.united false).trans (united_singleton false rfl)
    cases s <;> first
      | exact absurd flat Bool.false_ne_true
      | exact ⟨rfl, fun _ _ => rfl⟩
      | exact ⟨rich rfl, akin⟩

/-- A shape whose unions hold different alternatives, and whose intersections hold members of
different projections. -/
structure Tame (s : Shape) : Prop where
  unions : ∀ n inclusive members, union n inclusive members ∈ s.subshapes →
    (members.Pairwise fun m n => ¬ Matches m n) ∧ ∀ m ∈ members, m ∈ m.spread ∧ m.kind ≠ .any
  apart : Graph.Apart bareLeaf s

theorem Tame.piece {p : Shape} (tame : s.Tame) (member : p ∈ s.pieces) : p.Tame where
  unions n inclusive members inside :=
    tame.unions n inclusive members (mem_subshapes_iff.mpr (.inr ⟨p, member, inside⟩))
  apart := tame.apart.piece member

theorem Tame.choice (tame : s.Tame) (choice : Choice s c) : c.Tame := by
  induction choice with
  | self => exact tame
  | member member _ ih => exact ih (tame.piece member)

theorem tame_of_pieces
    (union : ∀ n inclusive members, s = .union n inclusive members →
      (members.Pairwise fun m n => ¬ Matches m n) ∧ ∀ m ∈ members, m ∈ m.spread ∧ m.kind ≠ .any)
    (intersection : ∀ n members, s = .intersection n members →
      (members.map (projected bareLeaf)).Pairwise fun m n => ¬ Matches m n)
    (each : ∀ p ∈ s.pieces, p.Tame) : s.Tame where
  unions n inclusive members inside := by
    rcases mem_subshapes_iff.mp inside with same | ⟨p, member, deeper⟩
    · exact union n inclusive members same.symm
    · exact (each p member).unions n inclusive members deeper
  apart n members inside := by
    rcases mem_subshapes_iff.mp inside with same | ⟨p, member, deeper⟩
    · exact intersection n members same.symm
    · exact (each p member).apart n members deeper

theorem spread_bare (member : s ∈ s.spread) :
    (s.projected bareLeaf).spread = [s.projected bareLeaf] ∧
      (s.kind ≠ .any → (s.projected bareLeaf).kind ≠ .any) := by
  cases s with
  | union => exact absurd rfl (mem_spread_iff.mp member).1.single
  | never => cases member
  | any => exact ⟨rfl, fun proper => proper⟩
  | _ => exact ⟨rfl, fun _ => nofun⟩

theorem gathered_matches {ss ts : List Shape} (i j : Bool)
    (left : ∀ s ∈ ss, s.Leaves True live ∧ s.Neat) (right : ∀ t ∈ ts, t.Leaves True live)
    (distinct : ss.Pairwise fun m n => ¬ Matches m n)
    (distinct' : ts.Pairwise fun m n => ¬ Matches m n) (forth : ∀ s ∈ ss, ∃ t ∈ ts, Matches s t)
    (back : ∀ t ∈ ts, ∃ s ∈ ss, Matches s t) :
    Matches (gathered 0 i (some ss)) (gathered 0 j (some ts)) := by
  have symm : ∀ s ∈ ss, ∀ t ∈ ts, Matches s t → Matches t s :=
    fun s here t there => Matches.symm (left s here).1 (right t there) (left s here).2
  have length : ss.length = ts.length := by
    refine Nat.le_antisymm (length_le_of_related forth (distinct.imp_of_mem ?_))
      (length_le_of_related back (distinct'.imp_of_mem ?_))
    · intro s s' here here' differ t there one two
      exact differ (one.trans (left s here).1 (right t there)
        (left s' here').1 (symm s' here' t there two))
    · intro t t' there there' differ s here one two
      exact differ ((symm s here t there one).trans (right t there) (left s here).1 (right t' there') two)
  match ss, ts, length with
  | [], [], _ => exact equal_self never
  | [s], [t], _ =>
    obtain ⟨_, listed, same⟩ := forth s mem_cons_self
    exact mem_singleton.mp listed ▸ same
  | s :: s' :: ss, t :: t' :: ts, length =>
    have leaves : (Shape.union 0 i (s :: s' :: ss)).Leaves True live :=
      leaves_of_pieces nofun nofun fun s member => (left s member).1
    have leaves' : (Shape.union 0 j (t :: t' :: ts)).Leaves True live := leaves_of_pieces nofun nofun right
    exact (matches_iff leaves leaves').mpr ⟨length, forth⟩

theorem Tame.union {n : Nat} {inclusive : Bool}
    (leaves : (union n inclusive members).Leaves True live)
    (tame : (union n inclusive members).Tame) :
    ∃ grown, (union n inclusive members).projected bareLeaf = gathered 0 inclusive (some grown) ∧
      (∀ x ∈ grown, x.Leaves True live ∧ x.Neat) ∧ (grown.Pairwise fun x y => ¬ Matches x y) ∧
      (∀ x ∈ grown, ∃ m ∈ members, m.projected bareLeaf = x) ∧ ∀ m ∈ members, ∃ x ∈ grown,
      Matches x (m.projected bareLeaf) := by
  have each : ∀ x ∈ members.map (projected bareLeaf), (x.Leaves True live ∧ x.Neat) ∧
      x.spread = [x] ∧ x.kind ≠ .any := by
    refine forall_mem_map.mpr fun m member =>
      ⟨⟨(bareLeaf_loosens.projected (leaves.piece member)).1, ?_⟩, ?_⟩
    · exact Graph.projected_neat bareLeaf_loosens (leaves.piece member) (tame.apart.piece member)
    · obtain ⟨single, proper⟩ := (tame.unions n inclusive members (mem_subshapes_self _)).2 m member
      exact ⟨(spread_bare single).1, (spread_bare single).2 proper⟩
  obtain ⟨grown?, run, same⟩ := projected_gathered bareLeaf_loosens leaves
  rw [flatMap_spread_eq fun x member => ⟨x, (each x member).2.1 ▸ mem_cons_self⟩] at run
  cases grown? with
  | none => exact absurd rfl (each any (enlist_none run)).2.2
  | some grown =>
    have enlisted := enlist_some run
    have drawn : ∀ x ∈ grown, x ∈ members.map (projected bareLeaf) :=
      fun x member => (enlisted.drawn x member).resolve_left not_mem_nil
    refine ⟨grown, same, fun x member => (each x (drawn x member)).1, ?_, ?_, fun m member => ?_⟩
    · exact (enlisted.distinct .nil).imp fun differ equal => nomatch differ.symm.trans equal
    · exact fun x member => mem_map.mp (drawn x member)
    · obtain ⟨x, found, rfl | equal⟩ := enlisted.covers _ (mem_map.mpr ⟨m, member, rfl⟩)
      · exact ⟨_, found, equal_self _⟩
      · exact ⟨x, found, equal⟩

theorem Tame.bare {a : Shape} (leaves : a.Leaves True live) (tame : a.Tame) :
    a.Neat ∧ ∀ b : Shape, b.Leaves True live → b.Tame → Matches a b → Matches (a.projected bareLeaf)
      (b.projected bareLeaf) := by
  induction a using pieces_induction with
  | step a ih =>
    have inner := fun p (member : p ∈ a.pieces) => ih p member (leaves.piece member) (tame.piece member)
    have neat : a.Neat := by
      refine neat_of_pieces ?_ fun p member => (inner p member).1
      cases a with
      | union n inclusive members => exact (tame.unions n inclusive members (mem_subshapes_self _)).1
      | intersection n members =>
        refine (pairwise_map.mp (tame.apart n members (mem_subshapes_self _))).imp_of_mem
          fun here there differ same => differ ?_
        exact (inner _ here).2 _ (leaves.piece there) (tame.piece there) same
      | _ => exact .nil
    refine ⟨neat, fun b leaves' tame' same => ?_⟩
    have lifts := (matches_iff leaves leaves').mp same
    have kinds := lifts.kind_eq
    have bare : ∀ s ∈ a.pieces, ∀ t ∈ b.pieces, Matches s t → Matches (s.projected bareLeaf)
        (t.projected bareLeaf) :=
      fun s member t member' => (inner s member).2 t (leaves'.piece member') (tame'.piece member')
    have lift := (matches_iff (bareLeaf_loosens.projected leaves).1
        (bareLeaf_loosens.projected leaves').1).mpr
    cases a with
    | array n items =>
      cases b <;> cases kinds
      exact lift (bare items mem_cons_self _ mem_cons_self lifts)
    | object n props extra? =>
      cases b <;> cases kinds
      refine lift ?_
      rw [projected_object, projected_object]
      refine ⟨by simpa using lifts.1, ?_, ?_⟩
      · simp only [Option.map_eq_some_iff]
        rintro _ _ ⟨s, rfl, rfl⟩ ⟨t, rfl, rfl⟩
        exact bare s mem_pieces_of_extra t mem_pieces_of_extra (lifts.2.1 s t rfl rfl)
      · simp only [getElem?_map, Option.map_eq_some_iff]
        rintro i _ _ ⟨p, here, rfl⟩ ⟨q, there, rfl⟩
        obtain ⟨names, same⟩ := lifts.2.2 i p q here there
        exact ⟨names, bare _ (mem_pieces_of_mem_props (mem_of_getElem? here)) _
          (mem_pieces_of_mem_props (mem_of_getElem? there)) same⟩
    | intersection n ss =>
      cases b <;> cases kinds
      refine lift ?_
      rw [projected_intersection, projected_intersection]
      refine ⟨by simpa using lifts.1, forall_mem_map.mpr fun s member => ?_⟩
      obtain ⟨t, member', same⟩ := lifts.2 s member
      exact ⟨_, mem_map.mpr ⟨t, member', rfl⟩, bare s member t member' same⟩
    | union n i ss =>
      have onto := lifts.onto leaves leaves' neat fun s member t member' =>
        Matches.symm (leaves.piece member) (leaves'.piece member') (neat.piece member)
      cases b <;> cases kinds
      obtain ⟨xs, union, good, distinct, origin, covers⟩ := Tame.union leaves tame
      obtain ⟨ys, union', good', distinct', origin', covers'⟩ := Tame.union leaves' tame'
      rw [union, union']
      have plain := fun {s : Shape} (leaves : s.Leaves True live) => (bareLeaf_loosens.projected leaves).1
      refine gathered_matches _ _ good (fun y member => (good' y member).1) distinct distinct'
        (fun x member => ?_) fun y member => ?_
      · obtain ⟨s, here, rfl⟩ := origin x member
        obtain ⟨t, there, same⟩ := lifts.2 s here
        obtain ⟨y, found, same'⟩ := covers' t there
        have swapped := Matches.symm (good' y found).1 (plain (leaves'.piece there))
            (good' y found).2 same'
        exact ⟨y, found, (bare s here t there same).trans (good _ member).1
          (plain (leaves'.piece there)) (good' y found).1 swapped⟩
      · obtain ⟨t, there, rfl⟩ := origin' y member
        obtain ⟨s, here, same⟩ := onto t there
        obtain ⟨x, found, same'⟩ := covers s here
        exact ⟨x, found, same'.trans (good x found).1 (plain (leaves.piece here))
          (good' _ member).1 (bare s here t there same)⟩
    | literal n v =>
      cases b <;> cases kinds
      exact lift lifts
    | dateTime | binary =>
      cases b <;> cases kinds
      exact equal_self string
    | _ =>
      cases b <;> cases kinds
      exact same

theorem tame_loose (leaves : s.Leaves True live) (apart : Graph.Apart bareLeaf s)
    (each : ∀ q ∈ s.subshapes, (q.projected looseLeaf).projected bareLeaf = q.projected bareLeaf) :
    (s.projected looseLeaf).Tame := by
  induction s using pieces_induction with
  | step s ih =>
    have inside : ∀ p ∈ s.pieces, (p.projected looseLeaf).Tame := fun p member =>
      ih p member (leaves.piece member) (apart.piece member) fun q deeper =>
        each q (mem_subshapes_iff.mpr (.inr ⟨p, member, deeper⟩))
    have rich : ∀ {r : Shape}, r.Tame → r ∈ r.spread → r.kind ≠ .any → r.kind ≠ .string →
        (union 0 false [r, string]).Tame := by
      intro r tame single proper other
      refine tame_of_pieces ?_ nofun
        (forall_mem_cons.mpr ⟨tame, forall_mem_singleton.mpr (tame_of_pieces nofun nofun nofun)⟩)
      rintro _ _ _ ⟨⟩
      refine ⟨.cons (forall_mem_singleton.mpr (not_matches_of_kind_ne other)) (pairwise_singleton _ _), ?_⟩
      exact forall_mem_cons.mpr ⟨⟨single, proper⟩, forall_mem_singleton.mpr ⟨mem_cons_self, nofun⟩⟩
    cases s with
    | array n items =>
      exact tame_of_pieces nofun nofun (forall_mem_singleton.mpr (inside items mem_cons_self))
    | object n props extra? =>
      refine tame_of_pieces nofun nofun ?_
      rw [pieces_projected_object]
      exact forall_mem_map.mpr inside
    | intersection n members =>
      rw [projected_intersection]
      refine tame_of_pieces nofun ?_ (forall_mem_map.mpr inside)
      rintro _ _ ⟨⟩
      have again : (members.map (projected looseLeaf)).map (projected bareLeaf) = members.map
          (projected bareLeaf) := by
        rw [map_map]
        exact map_congr_left fun m member =>
          each m (mem_subshapes_iff.mpr (.inr ⟨m, member, m.mem_subshapes_self⟩))
      exact again ▸ apart n members (mem_subshapes_self _)
    | union n inclusive members =>
      obtain ⟨grown?, run, same⟩ := projected_gathered looseLeaf_loosens leaves
      rw [same]
      cases grown? with
      | none => exact tame_of_pieces nofun nofun nofun
      | some grown =>
        have enlisted := enlist_some run
        have good : ∀ x ∈ grown, x.Tame ∧ x ∈ x.spread ∧ x.kind ≠ .any := by
          intro x member
          have listed := (enlisted.drawn x member).resolve_left not_mem_nil
          obtain ⟨t, mapped, deeper⟩ := mem_flatMap.mp listed
          obtain ⟨m, here, rfl⟩ := mem_map.mp mapped
          exact ⟨(inside m here).choice (mem_spread_iff.mp deeper).1, spread_eq_singleton deeper ▸
            mem_cons_self, enlisted.proper x listed⟩
        match grown with
        | [] => exact tame_of_pieces nofun nofun nofun
        | [x] => exact (good x mem_cons_self).1
        | x :: y :: rest =>
          refine tame_of_pieces ?_ nofun fun p member => (good p member).1
          rintro _ _ _ ⟨⟩
          exact ⟨(enlisted.distinct .nil).imp fun differ equal => (nomatch differ.symm.trans equal),
            fun m member => (good m member).2⟩
    | dateTime | binary => exact rich (tame_of_pieces nofun nofun nofun) mem_cons_self nofun nofun
    | _ => exact tame_of_pieces nofun nofun nofun

theorem bare_loose (leaves : s.Leaves True live) (apart : Graph.Apart bareLeaf s) :
    (s.projected looseLeaf).projected bareLeaf = s.projected bareLeaf := by
  refine (bareLeaf_looseLeaf_collapses.projected (P := fun s => s.Leaves True live ∧
    Graph.Apart bareLeaf s) And.left
    (fun both p member => ⟨both.1.piece member, both.2.piece member⟩) ?_ ⟨leaves, apart⟩ s
    s.mem_subshapes_self).1
  intro s t left right each each' c member d member' same
  have good : ∀ {c s : Shape}, (s.Leaves True live ∧ Graph.Apart bareLeaf s) →
      (∀ q ∈ s.subshapes, Collapsed bareLeaf looseLeaf bareLeaf live q) →
      c ∈ (s.projected looseLeaf).spread → c.Leaves True live ∧ c.Tame ∧
      (c.projected bareLeaf).spread = [c.projected bareLeaf] := by
    intro c s ⟨leaves, apart⟩ each member
    have choice := (mem_spread_iff.mp member).1
    refine ⟨leaves_choice (looseLeaf_loosens.projected leaves).1 choice,
      (tame_loose leaves apart fun q part => (each q part).1).choice choice, ?_⟩
    exact (spread_bare (spread_eq_singleton member ▸ mem_cons_self)).1
  obtain ⟨leaves, tame, single⟩ := good left each member
  obtain ⟨leaves', tame', single'⟩ := good right each' member'
  rw [single, single']
  exact forall_mem_singleton.mpr ⟨_, mem_cons_self, (Tame.bare leaves tame).2 d leaves' tame' same⟩

theorem projected_rename {leaf : Shape → Shape} (loosens : Loosens leaf) {back : Nat → Nat}
    (apart : ∀ i j, live i → live j → back i = back j → i = j) (leaves : s.Leaves True live) :
    (s.projected leaf).rename (fun _ => 0) back = (s.rename (fun _ => 0) back).projected leaf := by
  induction s using pieces_induction with
  | step s ih =>
    have each : ∀ p ∈ s.pieces, (p.projected leaf).rename (fun _ => 0) back =
        (p.rename (fun _ => 0) back).projected leaf :=
      fun p member => ih p member (leaves.piece member)
    have members : (s.pieces.map (projected leaf)).map (rename (fun _ => 0) back) =
        (s.pieces.map (rename (fun _ => 0) back)).map (projected leaf) := by
      rw [map_map, map_map]
      exact map_congr_left each
    cases s with
    | array n items => exact congrArg (array 0) (each items mem_cons_self)
    | object n props extra? =>
      rw [projected_object, rename_object, rename_object, projected_object, map_map, map_map,
        Option.map_map, Option.map_map]
      exact object_congr each 0
    | intersection n ms =>
      rw [projected_intersection, rename_intersection, rename_intersection, projected_intersection]
      exact congrArg (intersection 0) members
    | union n inclusive ms =>
      obtain ⟨grown?, run, -⟩ := addMembers_leaves (leaves_mapped loosens leaves)
      rw [projected_union, united_eq run, united_rename inclusive (leaves_mapped loosens leaves)
        apart run, rename_union, projected_union]
      exact congrArg (united inclusive) members
    | handle id => rfl
    | _ => exact loosens.steady _ back

end Shape

namespace Graph

open Shape

variable {g g' k : Graph} {s t u r : Shape} {back back' : Nat → Nat} {X Y Z leaf : Shape → Shape}

theorem Renumbers.again (once : Loosens Y) (again : Loosens X) (grounded : g.Grounded s)
    (grounded' : g'.Grounded t) (first : Renumbers back g' t (g.projected Y) (s.projected Y))
    (second : Renumbers back' k u (g'.projected X) (t.projected X))
    (law : ∀ {q}, g.Reaches s q → (q.projected Y).projected X = q.projected Z) :
    Renumbers (back ∘ back') k u (g.projected Z) (s.projected Z) := by
  have middle : ∀ {id}, k.Reaches u (.handle id) → g'.Reaches t (.handle (back' id)) := fun reached =>
    reaches_of_projected again grounded' (second.reaches reached)
  have origin : ∀ {id}, k.Reaches u (.handle id) → g.Reaches s (.handle (back (back' id))) :=
    fun reached =>
    reaches_of_projected once grounded (first.reaches (middle reached))
  have twice : ∀ r : Shape, r.rename (fun _ => 0)
      (back ∘ back') = (r.rename (fun _ => 0) back').rename (fun _ => 0) back := fun r =>
    (rename_comp (fun _ => 0) back' (fun _ => 0) back r).symm
  have moved : ∀ {r}, g'.Reaches t r → (r.projected X).rename (fun _ => 0) back =
      (r.rename (fun _ => 0) back).projected X := fun reached =>
    projected_rename again first.apart (leaves_of_reaches (fun _ => grounded'.documents) reached)
  refine ⟨fun i j here there equal =>
    second.apart i j here there (first.apart _ _ (middle here) (middle there) equal), ?_,
    fun id reached => ?_,
    fun id reached => ?_⟩
  · rw [twice, second.shape, moved .self, first.shape, law .self]
  · have one := first.labels _ (middle reached)
    have two := second.labels id reached
    rw [label?_projected] at one two
    rw [label?_projected, ← two, ← one]
    rfl
  · have one := first.targets _ (middle reached)
    have two := second.targets id reached
    rw [target?_projected] at one two
    rw [target?_projected]
    change (g.target? (back (back' id))).map _ = _
    cases found : g.target? (back (back' id)) with
    | none =>
      rw [found] at one
      rw [Option.map_eq_none_iff.mp one.symm] at two
      rw [Option.map_eq_none_iff.mp two.symm]
      rfl
    | some q =>
      rw [found] at one
      obtain ⟨r, bound, same⟩ := Option.map_eq_some_iff.mp one.symm
      rw [bound] at two
      obtain ⟨w, bound', same'⟩ := Option.map_eq_some_iff.mp two.symm
      rw [bound', Option.map_some, Option.map_some, twice, same',
        moved ((middle reached).target bound), same, law ((origin reached).target found)]

/-- Two shapes in their graphs that differ in nothing but numbers: both are one shape in one
graph. -/
def Isomorphic (g : Graph) (s : Shape) (h : Graph) (t : Shape) : Prop :=
  ∃ back back' k r, Renumbers back g s k r ∧ Renumbers back' h t k r

theorem Isomorphic.kind_eq (same : Isomorphic g s g' t) : s.kind = t.kind := by
  obtain ⟨_, _, _, r, first, second⟩ := same
  rw [← kind_rename, first.shape, ← second.shape, kind_rename]

/-- The projections succeed, and each leaves its own results as they are, but for the numbers. The
strict one undoes the weak one, if no two members of an intersection have the same strict
projection. -/
theorem projections_collapse (grounded : g.Grounded s) :
    ∃ t h u k, strict s g = .ok (t, h) ∧ weak s g = .ok (u, k) ∧
      (∃ t' h', strict t h = .ok (t', h') ∧ Isomorphic h' t' h t) ∧
      (∃ u' k', weak u k = .ok (u', k') ∧ Isomorphic k' u' k u) ∧ ∃ t' h', strict u k = .ok (t', h')
      ∧ ((∀ r, g.Reaches s r → Apart bareLeaf r) → Isomorphic h' t' h t) := by
  have leaves : ∀ {r}, g.Reaches s r → r.Leaves True fun id => g.Reaches s (.handle id) :=
    leaves_of_reaches fun _ => grounded.documents
  obtain ⟨t, h, _, run, -, groundedT, first⟩ := mapLeaves_renumbers strictLeaf_draws grounded
  obtain ⟨u, k, _, run', -, groundedU, first'⟩ := mapLeaves_renumbers weakLeaf_draws grounded
  refine ⟨t, h, u, k, run, run', ?_, ?_, ?_⟩
  · obtain ⟨t', h', _, again, -, -, second⟩ := mapLeaves_renumbers strictLeaf_draws groundedT
    have same := first.again bareLeaf_loosens bareLeaf_loosens grounded groundedT
        second fun reached => bare_bare (leaves reached)
    exact ⟨t', h', again, _, _, _, _, same, first⟩
  · obtain ⟨u', k', _, again, -, -, second⟩ := mapLeaves_renumbers weakLeaf_draws groundedU
    have same := first'.again looseLeaf_loosens looseLeaf_loosens grounded groundedU
        second fun reached => loose_loose (leaves reached)
    exact ⟨u', k', again, _, _, _, _, same, first'⟩
  · obtain ⟨t', h', _, again, -, -, second⟩ := mapLeaves_renumbers strictLeaf_draws groundedU
    refine ⟨t', h', again, fun apart => ?_⟩
    have same := first'.again looseLeaf_loosens bareLeaf_loosens grounded groundedU
        second fun {q} reached =>
      bare_loose (leaves reached) (apart q reached)
    exact ⟨_, _, _, _, same, first⟩

theorem moments_apart (r : Shape) (reached : momentsGraph.Reaches (.handle 0) r) : Apart bareLeaf r := by
  intro n members inside
  have other : ∀ {s : Shape}, (s.projected bareLeaf).kind ≠ .named →
      ([.handle 0, s].map (Shape.projected bareLeaf)).Pairwise fun m n => ¬ Matches m n :=
    fun differ => pairwise_pair.mpr (not_matches_of_kind_ne differ.symm)
  rcases moments_intersections (reached.trans (.of_mem_subshapes inside)) with rfl | rfl | rfl
  · have merged :
        ((Shape.union 3 true [.intersection 1 [.handle 0, .dateTime 0 "date-time"],
        .intersection 2 [.handle 0, .string]]).projected
        bareLeaf).kind = .intersection := by cbv
    exact other (by simp [merged])
  · exact other (by decide)
  · exact other (by decide)

/-- The projections of a graph in which the strict one takes two alternatives together. -/
theorem moments_collapse :
    momentsGraph.Grounded (.handle 0) ∧ (∀ r, momentsGraph.Reaches (.handle 0) r → Apart bareLeaf r)
      ∧ ∃ t h u k t' h', strict (.handle 0) momentsGraph = .ok (t, h) ∧
      weak (.handle 0) momentsGraph = .ok (u, k) ∧ strict u k = .ok (t', h') ∧
      Isomorphic h' t' h t := by
  have grounded := ((momentsGraph_made True).composed _ mem_cons_self).grounded
  obtain ⟨t, h, u, k, run, run', -, -, t', h', again, same⟩ := projections_collapse grounded
  exact ⟨grounded, moments_apart, t, h, u, k, t', h', run, run', again, same moments_apart⟩

def lists : Shape :=
  .union 18 true [
    .array 8 (.union 7 true [
      .intersection 3 [.handle 0, .array 1 (.dateTime 0 "date-time"), .handle 0],
      .intersection 6 [.handle 0, .array 4 .binary, .handle 0]]),
    .array 17 (.union 16 true [
      .intersection 15 [.handle 0, .array 11 (.union 10 true [.dateTime 9 "date-time", .string]),
      .array 13 (.union 12 true [.binary, .string])],
      .number false])]

def listsGraph : Graph := ⟨#[⟨"Root", "#", some lists⟩], 19⟩

theorem listsGraph_made : Made True listsGraph [.handle 0] := by
  let self : Json.Tree := .object [("$ref", "", .string "#")]
  let text : Json.Tree := .object [("type", "", .string "string")]
  let date : Json.Tree := .object [("type", "", .string "string"), ("format", "", .string "date-time")]
  let bytes : Json.Tree := .object [("type", "", .string "string"), ("format", "", .string "binary")]
  let list (items : Json.Tree) : Json.Tree := .object [("type", "", .string "array"), ("items", "", items)]
  let join (key : String) (parts : List Json.Tree) : Json.Tree := .object [(key, "", .array parts)]
  let tree := join "anyOf" [
    list (join "anyOf" [join "allOf" [self, list date, self], join "allOf" [self, list bytes, self]]),
    list (join "anyOf" [join "allOf" [self, list (join "anyOf" [date, text]),
    list (join "anyOf" [bytes, text])],
      .object [("type", "", .string "number")]])]
  have derived : ∃ s, Schema.ofTree tree = .ok (some s) ∧
      Derivation.run #[s] ⟨0, []⟩ (.ofDocuments #[s] [0]) {}
      {} = .ok (⟨.ok (.handle 0), []⟩, listsGraph) := ⟨_, rfl, by cbv⟩
  obtain ⟨s, read, ran⟩ := derived
  exact .derive (.start {}) (.of_tree tree read) (.ofDocuments [0]) ran rfl

/-- With text beside moments and bytes two lists of alternatives are equal, and of these the strict
projection keeps one. -/
theorem weak_merges_lists :
    Made True listsGraph [lists, .handle 0] ∧ ∃ t h u k t' h',
      strict lists listsGraph = .ok (t, h) ∧ weak lists listsGraph = .ok (u, k) ∧
      strict u k = .ok (t', h') ∧ ¬ Isomorphic h' t' h t := by
  have made := listsGraph_made.part mem_cons_self (.target .self rfl)
  have grounded := (made.composed _ mem_cons_self).grounded
  obtain ⟨t, h, _, run, -⟩ := mapLeaves_renumbers strictLeaf_draws grounded
  obtain ⟨u, k, _, run', -, grounded', -⟩ := mapLeaves_renumbers weakLeaf_draws grounded
  obtain ⟨t', h', _, again, -⟩ := mapLeaves_renumbers strictLeaf_draws grounded'
  refine ⟨made, t, h, u, k, t', h', run, run', again, fun same => ?_⟩
  have once : (strict lists listsGraph).map (·.1.kind) = .ok .union := by cbv
  have twice : ((weak lists listsGraph).bind fun r => strict r.1 r.2).map (·.1.kind) = .ok .array := by cbv
  rw [show strict lists listsGraph = .ok (t, h) from run] at once
  rw [show weak lists listsGraph = .ok (u, k) from run', Except.bind,
    show strict u k = .ok (t', h') from again] at twice
  cases (Except.ok.inj twice).symm.trans (same.kind_eq.trans (Except.ok.inj once))

end Graph

end JsonShape
