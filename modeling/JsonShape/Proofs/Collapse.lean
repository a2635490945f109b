import JsonShape.Proofs.Softening

/-! Leaves replaced twice. The second time there are fewer alternatives to take together, which
makes no difference where equal alternatives stay equal. -/
namespace JsonShape.Shape
open List

variable {live : Nat → Prop} {s c d t : Shape}
  {members shapes shapes' first more rest alternatives grown before : List Shape}
  {f : Shape → List Shape}

theorem enlist_skip (kept : ∀ m ∈ members, m.Leaves True live) (leaves : ∀ c ∈ first, c.Leaves True live)
    (leaves' : ∀ c ∈ more, c.Leaves True live) (covered : ∀ c ∈ more, ∃ d ∈ first, Matches d c) :
    enlist members (first ++ more) = enlist members first := by
  rw [enlist_append]
  have gathers := enlist_gathers kept leaves
  cases run : enlist members first with
  | error e => rfl
  | ok grown? =>
    cases grown? with
    | none => rfl
    | some grown =>
      have enlisted := enlist_some run
      show enlist grown more = .ok (some grown)
      induction more with
      | nil => rfl
      | cons c more ih =>
        obtain ⟨here, later⟩ := forall_mem_cons.mp covered
        obtain ⟨own, inside⟩ := forall_mem_cons.mp leaves'
        obtain ⟨d, member, same⟩ := here
        have proper : c.kind ≠ .any := fun free =>
          enlisted.proper d member (((matches_iff (leaves d member) own).mp same).kind_eq.trans free)
        have decides := Decides.anyM fun m (member : m ∈ grown) =>
            equal_decides_matches (gathers.leaves grown run m member) own
        have there : ∃ m ∈ grown, Matches m c := by
          obtain ⟨m, found, rfl | equal⟩ := enlisted.covers d member
          · exact ⟨m, found, same⟩
          · exact ⟨m, found, Matches.trans (gathers.leaves grown run m found)
              (leaves d member) own equal same⟩
        rw [enlist, if_neg proper, decides.eq_ok_true there]
        exact ih inside later

theorem enlist_flatMap (kept : ∀ m ∈ before, m.Leaves True live)
    (leaves : ∀ c ∈ members ++ alternatives, ∀ e ∈ f c, e.Leaves True live)
    (respects : ∀ c ∈ members ++ alternatives, ∀ d ∈ alternatives, Matches c d →
      ∀ e ∈ f d, ∃ e' ∈ f c, Matches e' e) (run : enlist members alternatives = .ok (some grown)) :
    enlist before (grown.flatMap f) = enlist before ((members ++ alternatives).flatMap f) := by
  fun_induction enlist members alternatives with
  | case1 members =>
    obtain rfl := Option.some.inj (Except.ok.inj run)
    rw [append_nil]
  | case2 => cases run
  | case3 => cases run
  | case4 members c rest _ found ih =>
    have sub : members ++ rest ⊆ members ++ c :: rest := append_subset.mpr
      ⟨subset_append_left _ _, Subset.trans (subset_cons_self _ _) (subset_append_right _ _)⟩
    have old : members ⊆ members ++ c :: rest := subset_append_left _ _
    have own : c ∈ members ++ c :: rest := mem_append_right _ mem_cons_self
    obtain ⟨m, member, equal⟩ := exists_of_anyM found
    rw [ih (fun d inside => leaves d (sub inside))
      (fun d inside e later => respects d (sub inside) e (mem_cons_of_mem _ later)) run,
      flatMap_append, flatMap_append, flatMap_cons, ← append_assoc, enlist_append, enlist_append,
      enlist_skip kept (fun e inside => ?_) (leaves c own) fun e inside => ?_]
    · obtain ⟨d, listed, inside⟩ := mem_flatMap.mp inside
      exact leaves d (old listed) e inside
    · obtain ⟨e', inside', same⟩ := respects m (old member) c mem_cons_self equal e inside
      exact ⟨e', mem_flatMap.mpr ⟨m, member, inside'⟩, same⟩
  | case5 members c rest _ _ ih =>
    rw [append_cons] at leaves respects ⊢
    exact ih leaves (fun d inside e later => respects d inside e (mem_cons_of_mem _ later)) run

def Akin (live : Nat → Prop) (shapes shapes' : List Shape) : Prop :=
  ∀ members, (∀ m ∈ members, m.Leaves True live) → addMembers members shapes = addMembers members shapes'

theorem Akin.refl (shapes : List Shape) : Akin live shapes shapes := fun _ _ => rfl

theorem Akin.symm (akin : Akin live shapes shapes') : Akin live shapes' shapes :=
  fun members kept => (akin members kept).symm

theorem Akin.trans (akin : Akin live first more) (akin' : Akin live more rest) : Akin live first rest :=
  fun members kept => (akin members kept).trans (akin' members kept)

theorem Akin.united (akin : Akin live shapes shapes') (inclusive : Bool) :
    united inclusive shapes = united inclusive shapes' := by
  rw [Shape.united, Shape.united, akin [] (forall_mem_nil _)]

theorem Akin.append (akin : Akin live first more) (leaves : ∀ s ∈ more, s.Leaves True live)
    (akin' : Akin live shapes shapes') : Akin live (first ++ shapes) (more ++ shapes') := by
  intro members kept
  have same := akin members kept
  have gathers := enlist_gathers kept (leaves_alternatives leaves)
  simp only [addMembers_eq_enlist, flatMap_append, enlist_append] at same ⊢
  rw [same]
  cases run : enlist members (more.flatMap spread) with
  | error e => rfl
  | ok grown? =>
    cases grown? with
    | none => rfl
    | some grown =>
      have same' := akin' grown (gathers.leaves grown run)
      rwa [addMembers_eq_enlist, addMembers_eq_enlist] at same'

theorem Akin.flatMap {g : Shape → List Shape}
    (each : ∀ s ∈ shapes, Akin live (f s) (g s) ∧ ∀ t ∈ g s, t.Leaves True live) :
    Akin live (shapes.flatMap f) (shapes.flatMap g) := by
  induction shapes with
  | nil => exact .refl _
  | cons s rest ih =>
    obtain ⟨⟨akin, leaves⟩, later⟩ := forall_mem_cons.mp each
    exact akin.append leaves (ih later)

theorem spread_eq_singleton (member : c ∈ t.spread) : c.spread = [c] := by
  obtain ⟨choice, proper⟩ := mem_spread_iff.mp member
  have single := choice.single
  cases c <;> first | rfl | exact absurd rfl single | exact absurd rfl proper

theorem flatMap_spread_eq (sub : ∀ c ∈ alternatives, ∃ t : Shape, c ∈ t.spread) :
    alternatives.flatMap spread = alternatives := by
  induction alternatives with
  | nil => rfl
  | cons c rest ih =>
    obtain ⟨⟨t, member⟩, later⟩ := forall_mem_cons.mp sub
    rw [flatMap_cons, spread_eq_singleton member, ih later, singleton_append]

theorem enlist_free (kept : ∀ m ∈ members, m.Leaves True live)
    (leaves : ∀ c ∈ alternatives, c.Leaves True live) (free : any ∈ alternatives) :
    enlist members alternatives = .ok none := by
  have gathers := enlist_gathers kept leaves
  cases run : enlist members alternatives with
  | error e => exact absurd trivial (gathers.compares e run).2
  | ok grown? =>
    cases grown? with
    | none => rfl
    | some grown => exact absurd rfl ((enlist_some run).proper any free)

theorem united_gathered (inclusive : Bool) (leaves : ∀ s ∈ shapes, s.Leaves True live) :
    ∃ grown?, enlist [] (shapes.flatMap spread) = .ok grown? ∧
      united inclusive shapes = gathered 0 inclusive grown? := by
  obtain ⟨grown?, run, -⟩ := addMembers_leaves leaves
  exact ⟨grown?, (addMembers_eq_enlist [] shapes).symm.trans run, united_eq run⟩

theorem united_singleton (inclusive : Bool) (single : s.spread = [s]) : united inclusive [s] = s := by
  rw [united, addMembers_eq_enlist, flatMap_singleton, single]
  cases s <;> rfl

theorem spread_of_enlist (run : enlist [] (shapes.flatMap spread) = .ok (some grown)) :
    ∀ c ∈ grown, ∃ t : Shape, c ∈ t.spread := by
  intro c member
  obtain ⟨t, -, inside⟩ := mem_flatMap.mp (((enlist_some run).drawn c member).resolve_left not_mem_nil)
  exact ⟨t, inside⟩

theorem spread_gathered (inclusive : Bool) (run : enlist [] (shapes.flatMap spread) = .ok (some grown)) :
    (gathered 0 inclusive (some grown)).spread = grown := by
  have drawn := spread_of_enlist run
  match grown with
  | [] => rfl
  | [c] =>
    obtain ⟨t, member⟩ := drawn c mem_cons_self
    exact spread_eq_singleton member
  | c :: d :: rest => exact (spread_union 0 inclusive _).trans (flatMap_spread_eq drawn)

theorem enlist_gathered {grown? : Option (List Shape)} (inclusive : Bool)
    (kept : ∀ m ∈ before, m.Leaves True live)
    (leaves : ∀ c ∈ shapes.flatMap spread, ∀ e ∈ f c, e.Leaves True live) (free : f any = [any])
    (respects : ∀ c ∈ shapes.flatMap spread, ∀ d ∈ shapes.flatMap spread, Matches c d →
      ∀ e ∈ f d, ∃ e' ∈ f c, Matches e' e) (run : enlist [] (shapes.flatMap spread) = .ok grown?) :
    enlist before ((gathered 0 inclusive grown?).spread.flatMap f) = enlist before
      ((shapes.flatMap spread).flatMap f) := by
  cases grown? with
  | none =>
    have inside : any ∈ (shapes.flatMap spread).flatMap f :=
      mem_flatMap.mpr ⟨any, enlist_none run, free ▸ mem_cons_self⟩
    rw [enlist_free kept (fun e member => ?_) inside]
    · show enlist before ([any].flatMap f) = _
      rw [flatMap_singleton, free]
      rfl
    · obtain ⟨c, listed, member⟩ := mem_flatMap.mp member
      exact leaves c listed e member
  | some grown =>
    rw [spread_gathered inclusive run]
    exact enlist_flatMap kept leaves respects run

theorem akin_united (inclusive : Bool) (leaves : ∀ s ∈ shapes, s.Leaves True live) :
    Akin live [united inclusive shapes] shapes := by
  intro members kept
  obtain ⟨grown?, run, same⟩ := united_gathered inclusive leaves
  have whole := enlist_gathered (f := fun c => [c]) inclusive kept (fun c member =>
      forall_mem_singleton.mpr (leaves_alternatives leaves c member))
    rfl (fun c _ d _ equal => forall_mem_singleton.mpr ⟨c, mem_cons_self, equal⟩) run
  rw [flatMap_singleton', flatMap_singleton'] at whole
  rw [addMembers_eq_enlist, addMembers_eq_enlist, flatMap_singleton, same, whole]

theorem akin_append_of_subset (leaves : ∀ s ∈ shapes, s.Leaves True live)
    (sub : more.flatMap spread ⊆ shapes.flatMap spread) : Akin live (shapes ++ more) shapes := by
  intro members kept
  have each := leaves_alternatives leaves
  rw [addMembers_eq_enlist, addMembers_eq_enlist, flatMap_append]
  exact enlist_skip kept each (fun c member => each c (sub member)) fun c member =>
    ⟨c, sub member, equal_self c⟩

structure Collapses (X Y Z : Shape → Shape) : Prop where
  again : Loosens X
  once : Loosens Y
  whole : Loosens Z
  plain : ∀ {s : Shape}, s.isFlat = true → s.isRich = false → X s = s
  leaf : ∀ {s : Shape} {live : Nat → Prop}, s.isFlat = true →
    (Y s).projected X = Z s ∧ Akin live ((Y s).spread.map (projected X)) [Z s]

variable {X Y Z : Shape → Shape} {inclusive : Bool} {n : Nat}

theorem leaves_mapped (loosens : Loosens X) (leaves : (union n inclusive members).Leaves True live) :
    ∀ t ∈ members.map (projected X), t.Leaves True live :=
  forall_mem_map.mpr fun _ member => (loosens.projected (leaves.piece member)).1

theorem projected_gathered (loosens : Loosens X) (leaves : (union n inclusive members).Leaves True live) :
    ∃ grown?, enlist [] ((members.map (projected X)).flatMap spread) = .ok grown? ∧
      (union n inclusive members).projected X = gathered 0 inclusive grown? :=
  projected_union X n inclusive members ▸ united_gathered inclusive (leaves_mapped loosens leaves)

theorem Collapses.spread (collapses : Collapses X Y Z) (member : c ∈ t.spread) (poor : c.isRich = false) :
    (c.projected X).spread = [c.projected X] := by
  have single := spread_eq_singleton member
  have flat : c.isFlat = true → c.projected X = X c → (c.projected X).spread = [c.projected X] := by
    intro flat same
    rw [same, collapses.plain flat poor, single]
  cases c with
  | literal n v =>
    have same : (Shape.literal n v).projected X = .literal 0 v := collapses.again.literal
    rw [same]
    rfl
  | union => exact absurd rfl (mem_spread_iff.mp member).1.single
  | array | object | intersection | handle => rfl
  | _ => exact flat rfl rfl

/-- Equal alternatives of projected shapes are projected again to equal ones. -/
def Respects (X Y : Shape → Shape) (s t : Shape) : Prop :=
  ∀ c ∈ (s.projected Y).spread, ∀ d ∈ (t.projected Y).spread, Matches c d →
    ∀ e ∈ (d.projected X).spread, ∃ e' ∈ (c.projected X).spread, Matches e' e

def Collapsed (X Y Z : Shape → Shape) (live : Nat → Prop) (s : Shape) : Prop :=
  (s.projected Y).projected X = s.projected Z ∧
    Akin live ((s.projected Y).spread.map (projected X)) [s.projected Z]

theorem Collapses.union (collapses : Collapses X Y Z)
    (leaves : (union n inclusive members).Leaves True live)
    (each : ∀ m ∈ members, Collapsed X Y Z live m)
    (respects : ∀ m ∈ members, ∀ m' ∈ members, Respects X Y m m') :
    Collapsed X Y Z live (union n inclusive members) := by
  have yields := (collapses.once.projected leaves).2
  obtain ⟨grown?, run, same⟩ := projected_gathered collapses.once leaves
  rw [same] at yields
  have akin : Akin live (((members.map (projected Y)).flatMap Shape.spread).map (projected X))
      (members.map (projected Z)) := by
    rw [flatMap_map, map_flatMap, ← flatMap_singleton' (members.map (projected Z)), flatMap_map]
    exact .flatMap fun m member =>
      ⟨(each m member).2, forall_mem_singleton.mpr
      (collapses.whole.projected (leaves.piece member)).1⟩
  have again : Akin live ((gathered 0 inclusive grown?).spread.map (projected X))
      (((members.map (projected Y)).flatMap Shape.spread).map (projected X)) := by
    intro before kept
    rw [addMembers_eq_enlist, addMembers_eq_enlist, flatMap_map, flatMap_map]
    refine enlist_gathered inclusive kept (fun c member e deeper => ?_)
      (congrArg Shape.spread (collapses.plain rfl rfl)) ?_ run
    · exact leaves_choice (collapses.again.projected
        (leaves_alternatives (leaves_mapped collapses.once leaves) c member)).1
        (mem_spread_iff.mp deeper).1
    · intro c member d member'
      obtain ⟨m, listed, here⟩ := mem_flatMap.mp (flatMap_map _ _ _ ▸ member)
      obtain ⟨m', listed', there⟩ := mem_flatMap.mp (flatMap_map _ _ _ ▸ member')
      exact respects m listed m' listed' c here d there
  have twice : (gathered 0 inclusive grown?).projected X = united inclusive
      ((gathered 0 inclusive grown?).spread.map (projected X)) := by
    cases grown? with
    | none =>
      have free : any.projected X = any := collapses.plain rfl rfl
      show any.projected X = united inclusive [any.projected X]
      rw [free]
      rfl
    | some grown =>
      rw [spread_gathered inclusive run]
      match grown with
      | [] => exact collapses.plain rfl rfl
      | [c] =>
        obtain ⟨t, member⟩ := spread_of_enlist run c mem_cons_self
        exact (united_singleton inclusive (collapses.spread member yields.isRich_eq)).symm
      | c :: d :: rest => exact projected_union X 0 inclusive _
  rw [Collapsed, same, projected_union]
  refine ⟨?_, (again.trans akin).trans (akin_united inclusive (leaves_mapped collapses.whole leaves)).symm⟩
  rw [twice, (again.trans akin).united]

theorem Collapses.projected (collapses : Collapses X Y Z) {P : Shape → Prop}
    (leaves : ∀ {s}, P s → s.Leaves True live) (pieces : ∀ {s}, P s → ∀ p ∈ s.pieces, P p)
    (respects : ∀ {s t}, P s → P t → (∀ q ∈ s.subshapes, Collapsed X Y Z live q) →
      (∀ q ∈ t.subshapes, Collapsed X Y Z live q) → Respects X Y s t) (own : P s) :
    ∀ q ∈ s.subshapes, Collapsed X Y Z live q := by
  induction s using pieces_induction with
  | step s ih =>
    have inner : ∀ p ∈ s.pieces, ∀ q ∈ p.subshapes, Collapsed X Y Z live q :=
      fun p member => ih p member (pieces own p member)
    have each : ∀ p ∈ s.pieces, (p.projected Y).projected X = p.projected Z :=
      fun p member => (inner p member p p.mem_subshapes_self).1
    have alone : (s.projected Y).projected X = s.projected Z →
        (s.projected Y).spread = [s.projected Y] → Collapsed X Y Z live s := by
      intro same single
      rw [Collapsed, single, map_singleton, same]
      exact ⟨rfl, .refl _⟩
    have top : Collapsed X Y Z live s := by
      cases s with
      | array n items => exact alone (congrArg (array 0) (each items mem_cons_self)) rfl
      | object n props extra? =>
        refine alone ?_ rfl
        rw [projected_object, projected_object, projected_object, map_map, Option.map_map]
        exact object_congr each 0
      | intersection n members =>
        refine alone ?_ rfl
        rw [projected_intersection, projected_intersection, projected_intersection, map_map]
        exact congrArg (intersection 0) (map_congr_left each)
      | handle id => exact alone rfl rfl
      | literal n v =>
        have same : ∀ {leaf k}, Loosens leaf → (literal k v).projected leaf = literal 0 v :=
          fun loosens => loosens.literal
        refine alone ?_ ?_
        · rw [same collapses.once, same collapses.again, same collapses.whole]
        · rw [same collapses.once]
          rfl
      | union n inclusive members =>
        refine collapses.union (leaves own) (fun m member => inner m member m m.mem_subshapes_self)
          fun m member m' member' => ?_
        exact respects (pieces own m member) (pieces own m' member') (inner m member) (inner m' member')
      | _ => exact collapses.leaf rfl
    intro q inside
    rcases mem_subshapes_iff.mp inside with rfl | ⟨p, member, deeper⟩
    · exact top
    · exact inner p member q deeper

theorem exists_origin (loosens : Loosens Y) (leaves : s.Leaves True live)
    (member : c ∈ (s.projected Y).spread) :
    ∃ q ∈ s.subshapes, q.isFlat = true ∧ c ∈ (Y q).spread ∨ c = q.projected Y := by
  induction s using pieces_induction with
  | step s ih =>
    have alone : (s.projected Y).spread = [s.projected Y] → ∃ q ∈ s.subshapes, q.isFlat = true ∧
        c ∈ (Y q).spread ∨ c = q.projected Y :=
      fun single => ⟨s, s.mem_subshapes_self, .inr (mem_singleton.mp (single ▸ member))⟩
    cases s with
    | union n inclusive members =>
      obtain ⟨grown?, run, same⟩ := projected_gathered loosens leaves
      have listed : c ∈ (members.map (projected Y)).flatMap spread := by
        cases grown? with
        | none =>
          obtain rfl := mem_singleton.mp (same ▸ member)
          exact enlist_none run
        | some grown =>
          rw [same, spread_gathered inclusive run] at member
          exact ((enlist_some run).drawn c member).resolve_left not_mem_nil
      rw [flatMap_map] at listed
      obtain ⟨m, inside, deeper⟩ := mem_flatMap.mp listed
      obtain ⟨q, part, origin⟩ := ih m inside (leaves.piece inside) deeper
      exact ⟨q, mem_subshapes_iff.mpr (.inr ⟨m, inside, part⟩), origin⟩
    | literal n v =>
      refine alone ?_
      have same : (Shape.literal n v).projected Y = .literal 0 v := loosens.literal
      rw [same]
      rfl
    | array | object | intersection | handle => exact alone rfl
    | _ => exact ⟨_, mem_subshapes_self _, .inl ⟨rfl, member⟩⟩

theorem Collapses.idempotent {leaf : Shape → Shape} (collapses : Collapses leaf leaf leaf)
    (flat : ∀ {q c : Shape}, q.isFlat = true → c ∈ (leaf q).spread → c.isFlat = true)
    (rich : ∀ {c d : Shape}, d.isRich = true → Lifts Matches c d → leaf c = leaf d)
    (leaves : s.Leaves True live) : (s.projected leaf).projected leaf = s.projected leaf := by
  refine (collapses.projected (P := fun s => s.Leaves True live) id (fun leaves p =>
    leaves.piece) ?_ leaves s s.mem_subshapes_self).1
  intro s t leaves leaves' each each' c member d member' same
  have inside := fun {c s : Shape} (leaves : s.Leaves True live) (member : c ∈
      (s.projected leaf).spread) =>
    leaves_choice (collapses.once.projected leaves).1 (mem_spread_iff.mp member).1
  have lifts := (matches_iff (inside leaves member) (inside leaves' member')).mp same
  have fixed : ∀ {c s : Shape}, s.Leaves True live → (∀ q ∈ s.subshapes, Collapsed leaf leaf leaf live q) →
      c ∈ (s.projected leaf).spread → c.isRich = false → c.projected leaf = c := by
    intro c s leaves each member poor
    obtain ⟨q, part, ⟨bare, found⟩ | rfl⟩ := exists_origin collapses.once leaves member
    · have bare' := flat bare found
      cases c <;> first | exact collapses.plain bare' poor | cases bare'
    · exact (each q part).1
  have ranks : c.isRich = d.isRich := by
    have kinds := lifts.kind_eq
    cases c <;> cases d <;> first | rfl | cases kinds
  cases rank : d.isRich with
  | false =>
    rw [fixed leaves' each' member' rank, fixed leaves each member (ranks.trans rank),
      spread_eq_singleton member', spread_eq_singleton member]
    exact forall_mem_singleton.mpr ⟨c, mem_cons_self, same⟩
  | true =>
    have leafy : ∀ {r : Shape}, r.isRich = true → r.projected leaf = leaf r :=
      fun {r} rank => by cases r <;> first | rfl | cases rank
    rw [leafy rank, leafy (ranks.trans rank), rich rank lifts]
    exact fun e member => ⟨e, member, equal_self e⟩

theorem bareLeaf_plain (flat : s.isFlat = true) (poor : s.isRich = false) : bareLeaf s = s := by
  cases s <;> first | rfl | exact absurd flat Bool.false_ne_true |
    exact absurd poor.symm Bool.false_ne_true

theorem bareLeaf_collapses : Collapses bareLeaf bareLeaf bareLeaf where
  again := bareLeaf_loosens
  once := bareLeaf_loosens
  whole := bareLeaf_loosens
  plain := bareLeaf_plain
  leaf {s live} flat := by
    cases s <;> first | exact absurd flat Bool.false_ne_true | exact ⟨rfl, fun _ _ => rfl⟩

theorem looseLeaf_collapses : Collapses looseLeaf looseLeaf looseLeaf where
  again := looseLeaf_loosens
  once := looseLeaf_loosens
  whole := looseLeaf_loosens
  plain {s} flat poor := by
    cases s <;> first | rfl | exact absurd flat Bool.false_ne_true |
      exact absurd poor.symm Bool.false_ne_true
  leaf {s live} flat := by
    have rich : ∀ {r : Shape}, r.isFlat = true → r.isRich = true →
        (union 0 false [r, string]).Leaves True (fun _ => False) →
        r.projected looseLeaf = union 0 false [r, string] →
        (union 0 false [r, string]).projected looseLeaf = union 0 false [r, string] ∧
          Akin live ((union 0 false [r, string]).spread.map (projected looseLeaf))
          [union 0 false [r, string]] := by
      intro r flat rank leaves same
      have alone : r.spread = [r] ∧ r.kind ≠ .any ∧ r.kind ≠ .string := by
        cases r <;> first | exact absurd rank Bool.false_ne_true |
          exact ⟨rfl, by simp [kind], by simp [kind]⟩
      have spread : (union 0 false [r, string]).spread = [r, string] := by
        rw [spread_union, flatMap_cons, alone.1]
        rfl
      have akin : Akin live ([union 0 false [r, string]] ++ [string]) [union 0 false [r, string]] := by
        refine akin_append_of_subset (forall_mem_singleton.mpr (leaves.mono fun _ => False.elim)) ?_
        rw [flatMap_singleton, flatMap_singleton, spread]
        exact subset_append_right [r] [string]
      have run : addMembers [] [union 0 false [r, string]] = .ok (some [r, string]) := by
        rw [addMembers_eq_enlist, flatMap_singleton, spread, enlist, if_neg alone.2.1]
        show enlist [r] [string] = _
        rw [enlist, if_neg (by decide), anyM_cons, equal_of_kind_ne alone.2.2]
        rfl
      rw [spread, projected_union, map_cons, same]
      exact ⟨(akin.united false).trans (united_eq run), akin⟩
    cases s <;> first
      | exact absurd flat Bool.false_ne_true
      | exact ⟨rfl, fun _ _ => rfl⟩
      | exact rich rfl rfl (looseLeaf_loosens.flat flat).1 rfl

theorem bare_bare (leaves : s.Leaves True live) :
    (s.projected bareLeaf).projected bareLeaf = s.projected bareLeaf := by
  refine bareLeaf_collapses.idempotent (fun {q c} flat member => ?_) (fun {c d} rank lifts => ?_) leaves
  · cases q <;> first
      | exact absurd flat Bool.false_ne_true
      | exact mem_singleton.mp member ▸ rfl
      | cases member
  · cases d <;> first | exact absurd rank Bool.false_ne_true | cases c <;> first | rfl | exact lifts.elim

theorem loose_loose (leaves : s.Leaves True live) :
    (s.projected looseLeaf).projected looseLeaf = s.projected looseLeaf := by
  refine looseLeaf_collapses.idempotent (fun {q c} flat member => ?_) (fun {c d} rank lifts => ?_) leaves
  · cases q <;> first
      | exact absurd flat Bool.false_ne_true
      | exact mem_singleton.mp member ▸ rfl
      | exact (mem_cons.mp member).elim (· ▸ rfl) fun text => mem_singleton.mp text ▸ rfl
      | cases member
  · cases d <;> first
      | exact absurd rank Bool.false_ne_true
      | cases c <;> first | rfl | exact lifts.elim |
          exact congrArg (fun format => union 0 false [dateTime 0 format, string]) lifts

end JsonShape.Shape
