import JsonShape.Proofs.Assembly
import JsonShape.Proofs.Widening

/-! Equal shapes stand for one another. Equality is an equivalence only where no two members of an
intersection are equal; there, equal shapes pass the same values. -/
namespace JsonShape

open Conformance List

namespace Shape

variable {live live' : Nat → Prop} {a b : Shape}

theorem Matches.widens (left : a.Leaves True live) (right : b.Leaves True live') (neat : a.Neat)
    (same : Matches a b) : Widens (Shared live) a b ∧ Widens (Shared live) b a := by
  induction a using pieces_induction generalizing b with
  | step a ih =>
    have lifts := (matches_iff left right).mp same
    have kinds := lifts.kind_eq
    have inner : ∀ s ∈ a.pieces, ∀ t ∈ b.pieces, Matches s t → Widens (Shared live) s t ∧
        Widens (Shared live) t s :=
      fun s member t member' => ih s member (left.piece member) (right.piece member') (neat.piece member)
    have onto := lifts.onto left right neat fun s member t member' =>
      Matches.symm (left.piece member) (right.piece member') (neat.piece member)
    cases a with
    | array m s =>
      cases b <;> cases kinds
      obtain ⟨forth, back⟩ := inner s mem_cons_self _ mem_cons_self lifts
      exact ⟨.array forth, .array back⟩
    | object m ps e =>
      cases b <;> cases kinds
      rename_i n qs f
      obtain ⟨sizes, extra, props⟩ := lifts
      have pairs : Forall₂ (fun p q => (p.name = q.name ∧ p.optional = q.optional) ∧
          Widens (Shared live) p.shape q.shape ∧
          Widens (Shared live) q.shape p.shape) ps qs := by
        refine forall₂_iff_getElem?.mpr ⟨sizes.1, fun i p q here there => ⟨(props i p q here there).1, ?_⟩⟩
        exact inner _ (mem_pieces_of_mem_props (mem_of_getElem? here)) _
          (mem_pieces_of_mem_props (mem_of_getElem? there))
          (props i p q here there).2
      have extras : Option.Rel (fun s t => Widens (Shared live) s t ∧ Widens (Shared live) t s) e f := by
        cases e with
        | none => cases f with
          | none => exact .none
          | some t => cases sizes.2
        | some s => cases f with
          | none => cases sizes.2
          | some t => exact .some (inner s mem_pieces_of_extra t mem_pieces_of_extra (extra s t rfl rfl))
      constructor
      · refine .object_of_forall₂ (pairs.imp fun p q pair =>
          ⟨pair.1.1, fun optional => pair.1.2 ▸ optional, pair.2.1⟩) ?_
        exact optionRel_imp (fun _ _ _ => And.left) extras
      · refine .object_of_forall₂ (pairs.flip.imp fun q p pair =>
          ⟨pair.1.1.symm, fun optional => pair.1.2 ▸ optional, pair.2.2⟩) ?_
        cases extras with
        | none => exact .none
        | some both => exact .some both.2
    | union m i ss =>
      cases b <;> cases kinds
      refine ⟨.unionLeft fun s member => ?_, .unionLeft fun t member' => ?_⟩
      · obtain ⟨t, member', same⟩ := lifts.2 s member
        exact .unionRight member' (inner s member t member' same).1
      · obtain ⟨s, member, same⟩ := onto t member'
        exact .unionRight member (inner s member t member' same).2
    | intersection m ss =>
      cases b <;> cases kinds
      refine ⟨.intersection_of_exists fun t member' => ?_, .intersection_of_exists fun s member => ?_⟩
      · obtain ⟨s, member, same⟩ := onto t member'
        exact ⟨s, member, (inner s member t member' same).1⟩
      · obtain ⟨t, member', same⟩ := lifts.2 s member
        exact ⟨t, member', (inner s member t member' same).2⟩
    | literal m w =>
      cases b <;> cases kinds
      have document := left.of_literal trivial
      have document' := right.of_literal trivial
      exact ⟨.literal document document' lifts, .literal document' document lifts.symm⟩
    | dateTime m f =>
      cases b <;> cases kinds
      obtain rfl := lifts
      exact ⟨.dateTime m _ f, .dateTime _ m f⟩
    | number | handle =>
      cases b <;> cases kinds
      obtain rfl := lifts
      exact ⟨.self left, .self left⟩
    | _ =>
      cases b <;> cases kinds
      exact ⟨.self left, .self left⟩

theorem gathered_widens (inclusive : Bool) {shapes : List Shape}
    (each : ∀ s ∈ shapes, s.Leaves True live ∧ s.Neat) :
    ∃ grown?, addMembers [] shapes = .ok grown? ∧
      ∀ n, (gathered n inclusive grown?).Leaves True live ∧
      Widens (Shared live) (gathered n inclusive grown?) (.union 0 inclusive shapes) ∧
      Widens (Shared live) (.union 0 inclusive shapes) (gathered n inclusive grown?) := by
  have unites := neat_unites live
  obtain ⟨grown?, run, covered⟩ := gathered_covers unites inclusive each
  refine ⟨grown?, run, fun n =>
    ⟨(covered n).1.1, .of_choices fun c choice => ?_, .unionLeft fun s member =>
    .of_choices fun c choice => ?_⟩⟩
  · rcases exists_choice_of_gathered run choice with rfl | ⟨s, member, inner⟩
    · exact .never _
    · exact .unionRight member (.to_choice (.self (unites.choice (each s member) inner).1) inner)
  · have own := unites.choice (each s member) choice
    rcases (covered n).2 s member c choice with rfl | free | ⟨d, taken, tidy, rfl | same⟩
    · exact .never _
    · exact free ▸ .any c
    · exact .to_choice (.self own.1) taken
    · exact .to_choice (same.widens tidy.1 own.1 tidy.2).2 taken

end Shape

namespace Conformance

open Shape

variable {g : Graph} {shapes : List Shape} {s t : Shape} {v : Value}

theorem leaves_reachedBy (documents : ∀ s ∈ shapes, g.Documented s) (member : s ∈ shapes)
    (reached : g.Reaches s t) : t.Leaves True (g.ReachedBy shapes) :=
  (leaves_of_reaches (fun _ => documents s member) reached).mono fun _ inside => ⟨s, member, inside⟩

theorem covers_self (documents : ∀ s ∈ shapes, g.Documented s) :
    Covers (Shared (g.ReachedBy shapes)) g g where
  apart first second := first.1.trans second.1.symm
  bound := by
    rintro id _ ⟨rfl, -⟩
    rfl
  wider := by
    rintro id _ ⟨rfl, root, member, reached⟩ s t here there
    obtain rfl := Option.some.inj (here.symm.trans there)
    exact .self (leaves_reachedBy documents member (reached.target here))

theorem documented_of_leaves_reachedBy (documents : ∀ s ∈ shapes, g.Documented s)
    (leaves : t.Leaves True (g.ReachedBy shapes)) : g.Documented t := by
  refine documented_of_leaves (fun id target known found => ?_) leaves
  obtain ⟨s, member, reached⟩ := known
  exact leaves_reachedBy documents member (reached.target found)

theorem conforms_decides_self (documented : g.Documented s) (v : Value) :
    Decides (conforms g s v) (conforms g s v = .ok true) := by
  have judges := issues_judges g s v
  cases checked : issues g s v with
  | error e => exact absurd documented (judges.compares e checked).2
  | ok found =>
    have run : conforms g s v = .ok found.isEmpty := by
      rw [conforms, checked]
      rfl
    rw [run]
    exact .ok (by simp)

theorem conforms_union_iff (documents : ∀ s ∈ shapes, g.Documented s) (n : Nat) (inclusive : Bool) :
    conforms g (.union n inclusive shapes) v = .ok true ↔ ∃ s ∈ shapes, conforms g s v = .ok true := by
  have covers := covers_self documents
  have own : ∀ s ∈ shapes, s.Leaves True (g.ReachedBy shapes) :=
    fun s member => leaves_reachedBy documents member .self
  have all := documented_of_leaves_reachedBy documents (t := .union n inclusive shapes)
      (leaves_of_pieces nofun nofun own)
  constructor
  · intro passes
    obtain ⟨s, member, passes⟩ := exists_of_check_union (issues_of_conforms passes)
    exact ⟨s, member, conforms_of_check covers (.self (own s member)) (documents s member) rfl passes⟩
  · rintro ⟨s, member, passes⟩
    exact conforms_wider covers (.unionRight member (.self (own s member))) all passes

end Conformance

namespace Shape

variable {flat : Prop} {s : Shape}

theorem neat_of_trim (trim : s.Trim flat)
    (apart : ∀ n members, intersection n members ∈ s.subshapes → members.Pairwise fun m m' =>
      m.equal m' ≠ .ok true) : s.Neat := by
  intro t inside
  cases t with
  | union n i members =>
    exact (trim _ inside).2.distinct.imp fun differ same => nomatch differ.symm.trans same
  | intersection n members => exact apart n members inside
  | _ => exact .nil

/-- A value passes a union, however it was put together, if and only if it passes one of the shapes
that were united. -/
theorem conforms_unionOf {flat : Prop} {g : Graph} {shapes : List Shape}
    (trim : ∀ s ∈ shapes, s.Trim flat)
    (plain : ∀ s ∈ shapes, ∀ t ∈ s.subshapes, t.kind ≠ .intersection)
    (documents : ∀ s ∈ shapes, g.Documented s) (inclusive : Bool) (n : Nat) :
    ∃ u n', unionOf inclusive shapes n = .ok (u, n') ∧ ∀ v, Decides (conforms g u v)
      (∃ s ∈ shapes, conforms g s v = .ok true) := by
  have each : ∀ s ∈ shapes, s.Leaves True (g.ReachedBy shapes) ∧ s.Neat := fun s member =>
    ⟨leaves_reachedBy documents member .self, neat_of_trim (trim s member) fun k members inside =>
      absurd rfl (plain s member _ inside)⟩
  obtain ⟨grown?, run, widens⟩ := gathered_widens inclusive each
  obtain ⟨_, n', united, k, rfl⟩ := unionOf_gathered run n
  obtain ⟨leaves, forth, back⟩ := widens k
  have covers := covers_self documents
  have all := documented_of_leaves_reachedBy documents (t := union 0 inclusive shapes)
    (leaves_of_pieces nofun nofun fun s member => (each s member).1)
  have documented := documented_of_leaves_reachedBy documents leaves
  refine ⟨_, n', united, fun v => ?_⟩
  refine (conforms_decides_self documented v).congr
    ((Iff.intro ?_ ?_).trans (conforms_union_iff documents 0 inclusive))
  · exact conforms_wider covers forth all
  · exact conforms_wider covers back documented

def one : Number.Binary := .finite false 4503599627370496 (-52)

theorem one_read : (Value.double one).rational? = some 1 := by decide +kernel

def variants : List Shape :=
  [union 3 false [literal 0 (.decimal "1"), array 1 (handle 0), handle 1], never, handle 0,
    array 2 (handle 0), literal 4 (.double one)]

def variantsGraph : Graph := ⟨#[⟨"Lists", "#", some (array 5 (handle 0))⟩, ⟨"Open", "#", none⟩], 6⟩

theorem conforms_unionOf_variants :
    unionOf false variants 6 =
      .ok (union 6 false [literal 0 (.decimal "1"), array 1 (handle 0), handle 1, handle 0], 7) ∧
      ∀ v, Decides (conforms variantsGraph
      (union 6 false [literal 0 (.decimal "1"), array 1 (handle 0), handle 1, handle 0]) v)
      (∃ s ∈ variants, conforms variantsGraph s v = .ok true) := by
  have united : unionOf false variants 6 = .ok
      (union 6 false [literal 0 (.decimal "1"), array 1 (handle 0), handle 1, handle 0], 7) := by
    decide +kernel
  have sound : ∀ s ∈ variants, ∀ t, variantsGraph.Reaches s t →
      t.Arranged True ∧ t.kind ≠ .intersection ∧ ∀ n w, t = literal n w → w.Document := by
    have each : ∀ t ∈ variants.flatMap subshapes ++ graphShapes variantsGraph,
        t.Arranged True ∧ t.kind ≠ .intersection ∧ ∀ n w, t = literal n w → w.Document := by
      have varied : Varied [literal 0 (.decimal "1"), array 1 (handle 0), handle 1] :=
        ⟨by simp [kind], by decide +kernel⟩
      simp [variants, variantsGraph, graphShapes, subshapes_eq, pieces, Arranged, kind, varied,
        Value.Document.decimal, Value.Document.double, one_read]
    intro s member t reached
    exact each t (mem_append.mpr ((mem_append.mp reached.mem_shapes).imp_left fun own =>
      mem_flatMap.mpr ⟨s, member, own⟩))
  have exact := conforms_unionOf (fun s member t part => (sound s member t (.of_mem_subshapes part)).1)
    (fun s member t part => (sound s member t (.of_mem_subshapes part)).2.1)
    (fun s member n w reached => (sound s member _ reached).2.2 n w rfl) false 6
  obtain ⟨u, n', run, decides⟩ := exact
  obtain ⟨rfl, rfl⟩ := Prod.mk.inj (Except.ok.inj (run.symm.trans united))
  exact ⟨united, decides⟩

end Shape

open Shape

/-- Equality of what is made has an answer, relates each shape to itself and chains. Where no member
of an intersection in a shape equals a later one, it goes both ways and the same values pass
both. -/
theorem Made.equal_interchanges {careful : Prop} {g : Graph} {pool : List Shape} {a b c : Shape}
    (made : Made careful g pool) (first : a ∈ pool) (second : b ∈ pool) (third : c ∈ pool) :
    a.equal a = .ok true ∧ (∃ answer, a.equal b = .ok answer) ∧
      (a.equal b = .ok true → b.equal c = .ok true → a.equal c = .ok true) ∧
      ((∀ n members, .intersection n members ∈ a.subshapes → members.Pairwise fun m m' =>
      m.equal m' ≠ .ok true) → a.equal b = .ok true → b.equal a = .ok true ∧
      ∀ v, conforms g a v = conforms g b v) := by
  have documents : ∀ s ∈ pool, g.Documented s :=
    fun s member => (made.composed s member).grounded.documents
  have leaves : ∀ s ∈ pool, s.Leaves True (g.ReachedBy pool) :=
    fun s member => leaves_reachedBy documents member .self
  obtain ⟨answer, run, -⟩ := equal_decides_matches (leaves a first) (leaves b second)
  refine ⟨(matches_iff (leaves a first) (leaves a first)).mpr (lifts_self equal_self a), ⟨answer, run⟩,
    Matches.trans (leaves a first) (leaves b second) (leaves c third), fun apart same => ?_⟩
  have neat : a.Neat := neat_of_trim (made.composed a first).arranged.trim apart
  obtain ⟨forth, back⟩ := Matches.widens (leaves a first) (leaves b second) neat same
  have covers := covers_self documents
  refine ⟨Matches.symm (leaves a first) (leaves b second) neat same, fun v => ?_⟩
  obtain ⟨x, checked, means⟩ := conforms_decides_self (documents a first) v
  obtain ⟨y, checked', means'⟩ := conforms_decides_self (documents b second) v
  have agree : x = true ↔ y = true := by
    rw [means, means']
    exact ⟨conforms_wider covers forth (documents b second),
      conforms_wider covers back (documents a first)⟩
  rw [checked, checked', Bool.eq_iff_iff.mpr agree]

def mirrorsSchema : Schema :=
  let self : Schema := .node { ref := "#" }
  let text : Schema := .node { type := .one "string" }
  let truth : Schema := .node { type := .one "boolean" }
  let all (parts : List Schema) : Schema := .node { allOf? := some (parts.map some) }
  let list (first second : Schema) : Schema :=
    .node { type := .one "array", items? := some (.node { anyOf? := some [some first, some second] }) }
  .node { type := .one "object", properties? := some [
    ("once", some (list (all [self, text, truth]) (.node { type := .one "number" }))),
    ("switched", some (all [text, self])), ("turned", some (all [self, text])),
    ("twice", some (list (all [self, text, self]) (all [self, truth, self])))] }

theorem mirrorsSchema_readable : Corpus.Readable #[mirrorsSchema] := by
  let self : Json.Tree := .object [("$ref", "", .string "#")]
  let type (name : String) : Json.Tree := .object [("type", "", .string name)]
  let all (parts : List Json.Tree) : Json.Tree := .object [("allOf", "", .array parts)]
  let list (first second : Json.Tree) : Json.Tree :=
    .object [("type", "", .string "array"), ("items", "", .object [("anyOf", "", .array [first, second])])]
  let tree : Json.Tree := .object [("type", "", .string "object"), ("properties", "", .object [
    ("once", "", list (all [self, type "string", type "boolean"]) (type "number")),
    ("switched", "", all [type "string", self]), ("turned", "", all [self, type "string"]),
    ("twice", "", list (all [self, type "string", self]) (all [self, type "boolean", self]))])]
  exact .of_tree tree rfl

def onceList : Shape :=
  .array 3 (.union 2 true [.intersection 1 [.handle 0, .string, .boolean], .number false])

def twiceList : Shape :=
  .array 11 (.union 10 true [.intersection 7 [.handle 0, .string, .handle 0],
  .intersection 9 [.handle 0, .boolean, .handle 0]])

def mirrors : Shape :=
  .object 12 [⟨"once", onceList, true, none⟩,
    ⟨"switched", .intersection 4 [.string, .handle 0], true, none⟩,
    ⟨"turned", .intersection 5 [.handle 0, .string], true, none⟩, ⟨"twice", twiceList, true, none⟩] none

def mirrorsGraph : Graph := ⟨#[⟨"Root", "#", some mirrors⟩], 13⟩

theorem mirrorsGraph_made : Made True mirrorsGraph [.handle 0] :=
  have derived : Derivation.run #[mirrorsSchema] ⟨0, []⟩ (.ofDocuments #[mirrorsSchema] [0]) {} {} =
      .ok (⟨.ok (.handle 0), []⟩, mirrorsGraph) := by cbv
  .derive (.start {}) mirrorsSchema_readable (.ofDocuments [0]) derived rfl

theorem mirrors_reached {t : Shape}
    (member : t ∈ [onceList, .intersection 4 [.string, .handle 0],
      .intersection 5 [.handle 0, .string], twiceList]) : mirrorsGraph.Reaches (.handle 0) t :=
  (Graph.Reaches.self.target rfl).piece (by simpa [mirrors, Shape.pieces] using member)

theorem switched_interchanges :
    (Shape.intersection 4 [.string, .handle 0]).equal (.intersection 5 [.handle 0, .string]) =
      .ok true ∧ (Shape.intersection 5 [.handle 0, .string]).equal
      (.intersection 4 [.string, .handle 0]) = .ok true ∧
      ∀ v, conforms mirrorsGraph (.intersection 4 [.string, .handle 0]) v = conforms mirrorsGraph
      (.intersection 5 [.handle 0, .string]) v := by
  have same : (Shape.intersection 4 [.string, .handle 0]).equal
      (.intersection 5 [.handle 0, .string]) = .ok true := by decide +kernel
  have made :=
    (mirrorsGraph_made.part mem_cons_self
    (mirrors_reached (t := .intersection 4 [.string, .handle 0]) (by simp))).part
    (mem_cons_of_mem _ mem_cons_self)
    (mirrors_reached (t := .intersection 5 [.handle 0, .string]) (by simp))
  have apart : ∀ n members,
      .intersection n members ∈ (Shape.intersection 4 [.string, .handle 0]).subshapes →
      members.Pairwise fun m m' => m.equal m' ≠ .ok true := by
    intro n members inside
    have parts : (Shape.intersection 4 [.string, .handle 0]).subshapes =
        [.intersection 4 [.string, .handle 0], .string, .handle 0] := by cbv
    obtain ⟨-, rfl⟩ : n = 4 ∧ members = [.string, .handle 0] := by simpa [parts] using inside
    decide +kernel
  obtain ⟨-, -, -, interchanges⟩ :=
    made.equal_interchanges (mem_cons_of_mem _ mem_cons_self) mem_cons_self mem_cons_self
  exact ⟨same, interchanges apart same⟩

/-- Each alternative of the one list is equal to the first one of the other. -/
theorem twice_equals_once :
    ∃ g a b v, Made True g [b, a, .handle 0] ∧ a.equal b = .ok true ∧ b.equal a = .ok false ∧
      conforms g a v = .ok false ∧ conforms g b v = .ok true := by
  refine ⟨mirrorsGraph, twiceList, onceList,
    .seq .values [.decimal "5"], ?_, by decide +kernel, by decide +kernel, by cbv, by cbv⟩
  exact (mirrorsGraph_made.part mem_cons_self (mirrors_reached (by simp))).part
    (mem_cons_of_mem _ mem_cons_self)
    (mirrors_reached (by simp))

end JsonShape
