import JsonShape.Proofs.Conversion
import JsonShape.Proofs.Projection
import JsonShape.Shape.Intersection

/-! Values on their way to the wire. A value softens where moments and bytes in it give way to text,
and projected shapes go along with this. -/
namespace JsonShape

open Conformance List Entries

theorem exists_beside {α β : Type} {as : List α} {bs : List β} (long : as.length = bs.length)
    {i : Nat} {b : β} (here : bs[i]? = some b) : ∃ a, as[i]? = some a :=
  ⟨_, List.getElem?_eq_getElem (long.symm ▸ (List.getElem?_eq_some_iff.mp here).1)⟩

theorem eq_of_beside {α : Type} {as bs : List α} (long : as.length = bs.length)
    (each : ∀ (i : Nat) a b, as[i]? = some a → bs[i]? = some b → a = b) : as = bs :=
  ext_getElem long fun i here there => each i _ _ (getElem?_eq_getElem here) (getElem?_eq_getElem there)

theorem get?_beside {α β : Type} {es : List (String × α)} {fs : List (String × β)}
    (keys : es.map (·.1) = fs.map (·.1)) (name : String) :
    (get? es name = none ∧ get? fs name = none) ∨ ∃ (i : Nat) (e : String × α) (f : String × β),
      es[i]? = some e ∧ fs[i]? = some f ∧ e.1 = name ∧ get? es name = some e.2 ∧
      get? fs name = some f.2 := by
  induction es generalizing fs with
  | nil =>
    obtain rfl := map_eq_nil_iff.mp keys.symm
    exact .inl ⟨rfl, rfl⟩
  | cons e es ih =>
    cases fs with
    | nil => cases keys
    | cons f fs =>
      obtain ⟨key, a⟩ := e
      obtain ⟨key', b⟩ := f
      obtain ⟨rfl, later⟩ := cons.inj keys
      rw [get?_cons, get?_cons]
      split_ifs with here
      · exact .inr ⟨0, _, _, rfl, rfl, here, rfl, rfl⟩
      · exact (ih later).imp_right fun ⟨i, e, f, found⟩ => ⟨i + 1, e, f, found⟩

namespace Value

/-- A value becomes another one in which some moments and bytes are text. -/
inductive Softens : Value → Value → Prop
  | same (v : Value) : Softens v v
  | time (t : Time.Moment) (text : String) : Softens (.time t) (.string text)
  | bytes (bs : List UInt8) (text : String) : Softens (.bytes bs) (.string text)
  | seq {vs ws : List Value} (long : vs.length = ws.length)
    (each : ∀ (i : Nat) v w, vs[i]? = some v → ws[i]? = some w → Softens v w) :
    Softens (.seq .values vs) (.seq .values ws)
  | map {es fs : List (String × Value)} (keys : es.map (·.1) = fs.map (·.1))
    (each : ∀ (i : Nat) e f, es[i]? = some e → fs[i]? = some f → Softens e.2 f.2) :
    Softens (.map .values es) (.map .values fs)

namespace Softens

variable {u v w : Value}

theorem trans (first : Softens u v) (second : Softens v w) : Softens u w := by
  induction first generalizing w with
  | same => exact second
  | time t text =>
    cases second
    exact .time t text
  | bytes bs text =>
    cases second
    exact .bytes bs text
  | seq long each ih =>
    cases second with
    | same => exact .seq long each
    | seq long' each' =>
      refine .seq (long.trans long') fun i u w here there => ?_
      obtain ⟨v, middle⟩ := exists_beside long' there
      exact ih i u v here middle (each' i v w middle there)
  | map keys each ih =>
    cases second with
    | same => exact .map keys each
    | map keys' each' =>
      refine .map (keys.trans keys') fun i d f here there => ?_
      obtain ⟨e, middle⟩ := exists_beside (by simpa using congrArg length keys') there
      exact ih i d e here middle (each' i e f middle there)

theorem rich (softens : Softens v w) (rich : v.Rich) : w.Rich := by
  induction softens with
  | same => exact rich
  | time _ text | bytes _ text => exact .string text
  | seq long each ih =>
    cases rich with
    | seq rich =>
      refine .seq fun y member => ?_
      obtain ⟨i, there⟩ := getElem?_of_mem member
      obtain ⟨x, here⟩ := exists_beside long there
      exact ih i x y here there (rich x (mem_of_getElem? here))
  | @map es fs keys each ih =>
    cases rich with
    | map ascending rich =>
      refine .map ?_ fun f member => ?_
      · rw [Ascending, ← pairwise_map] at ascending ⊢
        rwa [← keys]
      · obtain ⟨i, there⟩ := getElem?_of_mem member
        obtain ⟨e, here⟩ := exists_beside (by simpa using congrArg length keys) there
        exact ih i e f here there (rich e (mem_of_getElem? here))

theorem everyMap {test : List String → Bool} (softens : Softens v w)
    (every : v.everyMap test = true) : w.everyMap test = true := by
  induction softens with
  | same => exact every
  | time | bytes => rfl
  | seq long each ih =>
    refine everyMapItems_iff.mpr fun y member => ?_
    obtain ⟨i, there⟩ := getElem?_of_mem member
    obtain ⟨x, here⟩ := exists_beside long there
    exact ih i x y here there (everyMapItems_iff.mp every x (mem_of_getElem? here))
  | @map es fs keys each ih =>
    rw [Value.everyMap, Bool.and_eq_true] at every ⊢
    refine ⟨keys ▸ every.1, everyMapEntries_iff.mpr fun f member => ?_⟩
    obtain ⟨i, there⟩ := getElem?_of_mem member
    obtain ⟨e, here⟩ := exists_beside (by simpa using congrArg length keys) there
    exact ih i e f here there (everyMapEntries_iff.mp every.2 e (mem_of_getElem? here))

theorem eq_of_literalEqual (softens : Softens v w) {d : Value} (document : d.Document)
    (equal : v.literalEqual d = .ok true) : v = w := by
  induction softens generalizing d with
  | same => rfl
  | time t text =>
    cases identical_cases equal
    cases document
  | bytes bs text =>
    cases identical_cases equal
    cases document
  | @seq vs ws long each ih =>
    obtain ⟨others, rfl, length, items⟩ := literalEqual_seq_iff.mp equal
    cases document with
    | seq inside =>
      refine congrArg _ (eq_of_beside long fun i v w here there => ?_)
      obtain ⟨d, beside⟩ := exists_beside length.symm here
      exact ih i v w here there (inside d (mem_of_getElem? beside))
        (literalEqual_of_itemsEqual items here beside)
  | @map es fs keys each ih =>
    obtain ⟨others, rfl, -, entries⟩ := literalEqual_map_iff.mp equal
    cases document with
    | map ascending inside =>
      refine congrArg _ (eq_of_beside (by simpa using congrArg length keys) fun i e f here there => ?_)
      obtain ⟨d, found, equal⟩ := entriesEqual_iff.mp entries e (mem_of_getElem? here)
      have same : e.1 = f.1 := by simpa [here, there] using congrArg (·[i]?) keys
      exact Prod.ext same (ih i e f here there (inside _ (mem_of_get?_eq_some found)) equal)

end Softens

end Value

theorem Value.Rich.plain_eq {v : Value} (rich : v.Rich) : v.plain = v := by
  induction rich with
  | seq _ ih => rw [Value.plain, Value.plainItems_eq_self_iff.mpr ih]
  | map _ _ ih => exact congrArg _ (Value.plainEntries_eq_self_iff.mpr ih)
  | _ => rfl

namespace Shape

/-- A shape that accepts text wherever it accepts a moment or bytes. -/
inductive Yielding : Shape → Prop
  | literal {n : Nat} {v : Value} (document : v.Document) : Yielding (.literal n v)
  | union {n : Nat} {inclusive : Bool} {members : List Shape}
      (each : ∀ m ∈ members, m.isRich = false → Yielding m)
      (text : (∃ m ∈ members, m.isRich = true) → string ∈ members) : Yielding (.union n inclusive members)
  | other {s : Shape} (plain : s.isRich = false ∧ s.kind ≠ .literal ∧ s.kind ≠ .union)
      (each : ∀ p ∈ s.pieces, Yielding p) : Yielding s

variable {s p : Shape}

theorem Yielding.isRich_eq (yields : s.Yielding) : s.isRich = false := by
  cases yields with
  | other plain => exact plain.1
  | _ => rfl

theorem Yielding.piece (yields : s.Yielding) (member : p ∈ s.pieces) (single : s.kind ≠ .union) :
    p.Yielding := by
  cases yields with
  | literal => cases member
  | union => exact absurd rfl single
  | other _ each => exact each p member

theorem yielding_flat (flat : s.isFlat = true) (rank : s.isRich = false) : s.Yielding := by
  cases s <;> first | exact absurd flat Bool.false_ne_true |
    exact .other ⟨rank, by simp [kind], by simp [kind]⟩ (by simp [pieces])

theorem Yielding.within {g : Graph} {live : Nat → Prop}
    (targets : ∀ id t, live id → g.target? id = some t → t.Leaves True live ∧ t.Yielding) {n : Nat}
    {v w : Value} (leaves : s.Leaves True live) (yields : s.Yielding) (rich : v.Rich)
    (softens : v.Softens w) (within : InhabitsWithin g n s v) : InhabitsWithin g n s w := by
  induction n generalizing s v w with
  | zero => exact within.elim
  | succ n ih =>
    cases s with
    | any => trivial
    | literal m d =>
      cases yields with
      | literal document =>
        unfold InhabitsWithin at within ⊢
        rw [rich.settle_eq, rich.plain_eq, Value.matchesLiteral_iff] at within
        obtain rfl := softens.eq_of_literalEqual document within
        rwa [rich.settle_eq, rich.plain_eq, Value.matchesLiteral_iff]
      | other plain => exact absurd rfl plain.2.1
    | array m items =>
      obtain ⟨vs, listed, each⟩ := within
      rw [rich.settle_eq] at listed
      obtain ⟨rfl, inside⟩ := rich.of_items listed
      cases softens with
      | same => exact ⟨vs, rfl, each⟩
      | @seq _ ws long softer =>
        refine ⟨ws, rfl, fun y member => ?_⟩
        obtain ⟨i, there⟩ := getElem?_of_mem member
        obtain ⟨x, here⟩ := exists_beside long there
        have old := mem_of_getElem? here
        exact ih (leaves.piece mem_cons_self) (yields.piece mem_cons_self (by rintro ⟨⟩))
          (inside x old) (softer i x y here there) (each x old)
    | object m props extra? =>
      obtain ⟨es, keyed, present, declared, undeclared⟩ := within
      rw [rich.settle_eq] at keyed
      obtain ⟨rfl, -, inside⟩ := rich.of_entries keyed
      cases softens with
      | same => exact ⟨es, rfl, present, declared, undeclared⟩
      | @map _ fs keys softer =>
        refine ⟨fs, rfl, fun q member absent => ?_, fun q member y found => ?_,
          fun extra known f member free => ?_⟩
        · rcases get?_beside keys q.name with ⟨none, -⟩ | ⟨i, e, f, -, -, -, -, there⟩
          · exact present q member none
          · cases absent.symm.trans there
        · rcases get?_beside keys q.name with ⟨-, none⟩ | ⟨i, e, f, here, there, -, old, new⟩
          · cases found.symm.trans none
          · obtain rfl := Option.some.inj (new.symm.trans found)
            have piece : q.shape ∈ (object m props extra?).pieces := mem_pieces_of_mem_props member
            exact ih (leaves.piece piece) (yields.piece piece (by rintro ⟨⟩))
              (inside e (mem_of_getElem? here)) (softer i e f here there)
              (declared q member _ old)
        · obtain ⟨i, there⟩ := getElem?_of_mem member
          obtain ⟨e, here⟩ := exists_beside (by simpa using congrArg length keys) there
          have same : e.1 = f.1 := by simpa [here, there] using congrArg (·[i]?) keys
          have old := mem_of_getElem? here
          subst known
          exact ih (leaves.piece mem_pieces_of_extra)
            (yields.piece mem_pieces_of_extra (by rintro ⟨⟩)) (inside e old)
            (softer i e f here there)
            (undeclared extra rfl e old (same ▸ free))
    | union m inclusive members =>
      obtain ⟨t, member, within⟩ := within
      cases yields with
      | other plain => exact absurd rfl plain.2.2
      | union each text =>
        cases rank : t.isRich with
        | false => exact ⟨t, member, ih (leaves.piece member) (each t member rank) rich softens within⟩
        | true =>
          cases n with
          | zero => exact within.elim
          | succ n =>
            cases softens with
            | same => exact ⟨t, member, within⟩
            | time | bytes => exact ⟨string, text ⟨t, member, rank⟩, rfl⟩
            | seq | map => cases t <;> first | exact absurd within Bool.false_ne_true | cases rank
    | intersection m members =>
      exact fun t member => ih (leaves.piece member) (yields.piece member (by rintro ⟨⟩)) rich
        softens (within t member)
    | handle id =>
      intro t found
      obtain ⟨leaves', yields'⟩ := targets id t leaves.of_handle found
      exact ih leaves' yields' rich softens (within t found)
    | dateTime => cases yields.isRich_eq
    | binary => cases yields.isRich_eq
    | _ =>
      cases softens with
      | same => exact within
      | _ => exact absurd within Bool.false_ne_true

theorem Yielding.spread (yields : s.Yielding) :
    ∀ c ∈ s.spread, c.Yielding ∨ c.isRich = true ∧ string ∈ s.spread := by
  induction yields with
  | @literal n v document => exact forall_mem_singleton.mpr (.inl (.literal document))
  | @union n inclusive members each text ih =>
    intro c inside
    rw [spread_union] at inside ⊢
    obtain ⟨m, member, inside⟩ := mem_flatMap.mp inside
    cases rank : m.isRich with
    | false =>
      refine (ih m member rank c inside).imp_right fun ⟨rich, found⟩ =>
        ⟨rich, mem_flatMap.mpr ⟨m, member, found⟩⟩
    | true =>
      have single : m.kind ≠ .union := by cases m <;> first | cases rank; done | exact nofun
      obtain rfl : c = m := (mem_spread_iff.mp inside).1.eq single
      exact .inr ⟨rank, mem_flatMap.mpr ⟨string, text ⟨c, member, rank⟩, mem_cons_self⟩⟩
  | @other s plain each _ =>
    intro c inside
    obtain rfl : c = s := (mem_spread_iff.mp inside).1.eq plain.2.2
    exact .inl (.other plain each)

theorem gathered_yielding (inclusive : Bool) {shapes : List Shape} {grown? : Option (List Shape)}
    (each : ∀ s ∈ shapes, s.Yielding) (run : addMembers [] shapes = .ok grown?) (n : Nat) :
    (gathered n inclusive grown?).Yielding := by
  rw [addMembers_eq_enlist] at run
  cases grown? with
  | none => exact yielding_flat rfl rfl
  | some grown =>
    have enlisted := enlist_some run
    have members : ∀ q ∈ grown, q.Yielding ∨ q.isRich = true ∧ string ∈ grown := by
      intro q member
      obtain ⟨s, listed, inside⟩ := mem_flatMap.mp ((enlisted.drawn q member).resolve_left not_mem_nil)
      refine ((each s listed).spread q inside).imp_right fun ⟨rank, text⟩ => ⟨rank, ?_⟩
      obtain ⟨m, found, rfl | equal⟩ := enlisted.covers string (mem_flatMap.mpr ⟨s, listed, text⟩)
      · exact found
      · have kinds : m.kind = Kind.string :=
          by_contra fun differ => nomatch (equal_of_kind_ne differ).symm.trans equal
        cases m <;> first | exact found | cases kinds
    match grown, members with
    | [], _ => exact yielding_flat rfl rfl
    | [s], members =>
      rcases members s mem_cons_self with yields | ⟨rank, text⟩
      · exact yields
      · obtain rfl := mem_singleton.mp text
        cases rank
    | s :: t :: rest, members =>
      refine .union (fun m member rank => ?_) fun ⟨m, member, rank⟩ => ?_
      · rcases members m member with yields | ⟨rank', -⟩
        · exact yields
        · cases rank.symm.trans rank'
      · rcases members m member with yields | ⟨-, text⟩
        · cases rank.symm.trans yields.isRich_eq
        · exact text

/-- A function of leaves that brings in no handles and no literals, yields, is neat and does not
depend on numbers. -/
structure Loosens (leaf : Shape → Shape) : Prop where
  flat : ∀ {s : Shape}, s.isFlat = true → (leaf s).Leaves True (fun _ => False) ∧ (leaf s).Yielding
  neat : ∀ {s : Shape}, s.isFlat = true → (leaf s).Neat
  literal : ∀ {n : Nat} {v : Value}, leaf (.literal n v) = .literal 0 v
  steady : ∀ (s : Shape) (back : Nat → Nat), (leaf s).rename (fun _ => 0) back =
      leaf (s.rename (fun _ => 0) back)

theorem bareLeaf_loosens : Loosens bareLeaf where
  flat {s} flat := by
    cases s <;> first
      | exact absurd flat Bool.false_ne_true
      | exact ⟨leaves_flat rfl nofun nofun, yielding_flat rfl rfl⟩
  neat {s} flat := by
    cases s <;> first | exact absurd flat Bool.false_ne_true | exact neat_of_pieces .nil nofun
  literal := rfl
  steady s _ := by cases s <;> rfl

theorem looseLeaf_loosens : Loosens looseLeaf where
  flat {s} flat := by
    have both : ∀ {s : Shape}, s.isRich = true → (union 0 false [s, string]).Leaves True (fun _ => False) ∧
        (union 0 false [s, string]).Yielding := by
      intro s rank
      constructor
      · refine leaves_of_pieces nofun nofun fun p member => ?_
        rcases mem_cons.mp member with rfl | text
        · cases p <;> first | exact absurd rank Bool.false_ne_true | exact leaves_flat rfl nofun nofun
        · obtain rfl := mem_singleton.mp text
          exact leaves_flat rfl nofun nofun
      · refine .union (fun m member rank' => ?_) fun _ => mem_cons_of_mem _ mem_cons_self
        rcases mem_cons.mp member with rfl | text
        · cases rank.symm.trans rank'
        · obtain rfl := mem_singleton.mp text
          exact yielding_flat rfl rfl
    cases s <;> first
      | exact absurd flat Bool.false_ne_true
      | exact both rfl
      | exact ⟨leaves_flat rfl nofun nofun, yielding_flat rfl rfl⟩
  neat {s} flat := by
    have both : ∀ {s : Shape}, s.pieces = [] → s.memberships = [] → s.kind ≠ .string →
        (union 0 false [s, string]).Neat := by
      intro s alone none other
      refine neat_of_pieces (.cons (forall_mem_singleton.mpr (not_matches_of_kind_ne other))
        (pairwise_singleton _ _)) fun p member => ?_
      rcases mem_cons.mp member with rfl | text
      · exact neat_of_pieces (none ▸ .nil) (alone ▸ nofun)
      · obtain rfl := mem_singleton.mp text
        exact neat_of_pieces .nil nofun
    cases s <;> first
      | exact absurd flat Bool.false_ne_true
      | exact both rfl rfl nofun
      | exact neat_of_pieces .nil nofun
  literal := rfl
  steady s _ := by cases s <;> rfl

theorem Loosens.projected {leaf : Shape → Shape} (loosens : Loosens leaf) {live : Nat → Prop}
    (leaves : s.Leaves True live) :
    (s.projected leaf).Leaves True live ∧ (s.projected leaf).Yielding := by
  induction s using pieces_induction with
  | step s ih =>
    have inside : ∀ p ∈ s.pieces, (p.projected leaf).Leaves True live ∧ (p.projected leaf).Yielding :=
      fun p member => ih p member (leaves.piece member)
    have mapped : ∀ t ∈ s.pieces.map (Shape.projected leaf), t.Leaves True live ∧ t.Yielding :=
      forall_mem_map.mpr inside
    have flat : s.isFlat = true → s.projected leaf = leaf s → (s.projected leaf).Leaves True live ∧
        (s.projected leaf).Yielding := by
      intro flat same
      rw [same]
      exact ⟨(loosens.flat flat).1.mono fun _ => False.elim, (loosens.flat flat).2⟩
    cases s with
    | array n items =>
      obtain ⟨leaves, yields⟩ := inside items mem_cons_self
      exact ⟨leaves_of_pieces nofun nofun (forall_mem_singleton.mpr leaves),
        .other ⟨rfl, nofun, nofun⟩ (forall_mem_singleton.mpr yields)⟩
    | object n props extra? =>
      rw [← pieces_projected_object] at mapped
      exact ⟨leaves_of_pieces nofun nofun fun p member =>
        (mapped p member).1, .other ⟨rfl, nofun, nofun⟩ fun p member => (mapped p member).2⟩
    | union n inclusive ms =>
      change ∀ t ∈ ms.map (Shape.projected leaf), _ at mapped
      obtain ⟨grown?, run, kept⟩ := addMembers_leaves fun t member => (mapped t member).1
      rw [projected_union, united_eq run]
      exact ⟨kept 0 inclusive, gathered_yielding inclusive (fun t member => (mapped t member).2) run 0⟩
    | intersection n ms =>
      rw [projected_intersection]
      exact ⟨leaves_of_pieces nofun nofun fun t member =>
        (mapped t member).1, .other ⟨rfl, nofun, nofun⟩ fun t member => (mapped t member).2⟩
    | handle id => exact ⟨leaves, .other ⟨rfl, nofun, nofun⟩ nofun⟩
    | literal n v =>
      have same : (Shape.literal n v).projected leaf = .literal 0 v := loosens.literal
      rw [same]
      exact ⟨leaves_literal leaves.of_literal, .literal (leaves.of_literal trivial)⟩
    | _ => exact flat rfl rfl

end Shape

end JsonShape
