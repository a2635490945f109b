import JsonShape.Proofs.Landing
import JsonShape.Schema.Decode

/-! Schemas that are read from documents. Derivations from them never break off, and what they give
has bound handles only. -/
namespace JsonShape
open List Option Entries

/-- All items are decoded, one after the other. -/
structure Traverses {m : Type → Type} [Monad m] {γ β : Type} (decode : γ → m β)
    (traverse : List γ → m (List β)) : Prop where
  nil : traverse [] = pure []
  cons : ∀ c rest, traverse (c :: rest) = decode c >>= fun b => traverse rest >>= fun bs => pure (b :: bs)

namespace Traverses

theorem forall_mem {β γ : Type} {decode : γ → Option β} {traverse : List γ → Option (List β)}
    (all : Traverses decode traverse) {good : β → Prop} {items : List γ}
    (each : ∀ c ∈ items, ∀ b, decode c = some b → good b) {results : List β}
    (found : traverse items = some results) : ∀ b ∈ results, good b := by
  induction items generalizing results with
  | nil =>
    cases all.nil.symm.trans found
    simp
  | cons c rest ih =>
    rw [all.cons] at found
    obtain ⟨b, here, found⟩ := Option.bind_eq_some_iff.mp found
    obtain ⟨bs, later, found⟩ := Option.bind_eq_some_iff.mp found
    cases found
    exact forall_mem_cons.mpr ⟨each c mem_cons_self b here, ih (forall_mem_cons.mp each).2 later⟩

end Traverses

namespace Json

theorem traverses_items : Traverses Tree.value? itemValues? := ⟨rfl, fun _ _ => rfl⟩

theorem traverses_members : Traverses (fun e => Prod.mk e.1 <$> e.2.2.value?) memberValues? := by
  refine ⟨rfl, fun e rest => ?_⟩
  rw [memberValues?]
  cases e.2.2.value? <;> rfl

end Json

theorem Json.Tree.value?_document {t : Tree} {v : Value} (found : t.value? = some v) : v.Document := by
  match t with
  | .null | .bool _ | .string _ =>
    cases found
    constructor
  | .number text =>
    rw [value?] at found
    split_ifs at found
    exact some.inj found ▸ .decimal text
  | .array items =>
    rw [value?] at found
    obtain ⟨values, inner, rfl⟩ := map_eq_some_iff.mp found
    exact .seq (Json.traverses_items.forall_mem (fun t inside v value => value?_document value) inner)
  | .object members =>
    rw [value?] at found
    obtain ⟨entries, inner, rfl⟩ := map_eq_some_iff.mp found
    have documents : ∀ e ∈ entries, e.2.Document :=
      Json.traverses_members.forall_mem (fun e inside e' value => by
      obtain ⟨v, here, rfl⟩ := map_eq_some_iff.mp value
      exact value?_document here) inner
    exact .map (ascending_ofList entries) fun e member => documents e (mem_of_mem_ofList member)
termination_by t
decreasing_by
  · have smaller := sizeOf_lt_of_mem inside
    simp only [array.sizeOf_spec]
    omega
  · have smaller := sizeOf_lt_of_mem inside
    obtain ⟨key, text, t⟩ := e
    simp only [object.sizeOf_spec, Prod.mk.sizeOf_spec] at smaller ⊢
    omega

structure Keywords.Readable (k : Keywords Schema) : Prop extends k.Ordered, k.DocumentConstants

/-- A schema whose keywords, and those of all schemas below it, may come from a document. -/
def Schema.Readable (s : Schema) : Prop := s.Everywhere fun t => t.keywords.Readable

def Corpus.Readable (corpus : Corpus) : Prop := ∀ s ∈ corpus, s.Readable

theorem Corpus.Readable.keywords {corpus : Corpus} (readable : corpus.Readable)
    {location : Location} {s : Schema} (present : corpus.get? location = some s) :
    s.keywords.Readable := by
  obtain ⟨root, found, reached⟩ := bind_eq_some_iff.mp present
  exact readable root (Array.mem_of_getElem? found) _ _ reached

namespace Schema

open Json

section Parts

variable (fine : Value → Prop) (good : Schema → Prop)

structure ReadNames (entries : List (String × Option Schema)) : Prop where
  ascending : Ascending entries
  each : ∀ e ∈ entries, ∀ s, e.2 = some s → good s

def ReadList (list : List (Option Schema)) : Prop := ∀ s, some s ∈ list → good s

/-- Keywords as they are read from the object of a document, by what is said of their values and of
the schemas in them. -/
structure Read (k : Keywords Schema) : Prop where
  boolean : k.boolean? = none
  const : ∀ v, k.const? = some v → fine v
  enum : ∀ values, k.enum? = some values → ∀ v ∈ values, fine v
  default : ∀ v, k.default? = some v → fine v
  properties : ReadNames good (k.properties?.getD [])
  defs : ReadNames good (k.defs?.getD [])
  definitions : ReadNames good (k.definitions?.getD [])
  additionalProperties : ∀ s, k.additionalProperties? = some s → good s
  items : ∀ s, k.items? = some s → good s
  anyOf : ReadList good (k.anyOf?.getD [])
  oneOf : ReadList good (k.oneOf?.getD [])
  allOf : ReadList good (k.allOf?.getD [])

theorem readNames_nil : ReadNames good [] := ⟨.nil, nofun⟩

theorem read_empty : Read fine good {} where
  boolean := rfl
  const := nofun
  enum := nofun
  default := nofun
  properties := readNames_nil good
  defs := readNames_nil good
  definitions := readNames_nil good
  additionalProperties := nofun
  items := nofun
  anyOf := nofun
  oneOf := nofun
  allOf := nofun

variable {fine good}

theorem Read.everywhere {P : Schema → Prop} (inside : ∀ s, good s → s.Everywhere P)
    {k : Keywords Schema} (read : Read fine good k) (own : P (node k)) : (node k).Everywhere P := by
  refine everywhere_of_children own fun c member => inside c.2 ?_
  obtain ⟨step, s⟩ := c
  have listed : ∀ {list : List (Option Schema)}, ReadList good list → ∀ {i : Nat},
      list[i]? = some (some s) → good s :=
    fun all _ found => all s (mem_of_getElem? found)
  simp only [children, keywords, mem_append, mem_namedChildren, mem_oneChild, mem_listedChildren] at member
  rcases member with ⟨name, inside, -⟩ | ⟨found, -⟩ | ⟨found, -⟩ | ⟨name, inside, -⟩ |
    ⟨name, inside, -⟩ | ⟨i, found, -⟩ | ⟨i, found, -⟩ |
    ⟨i, found, -⟩
  · exact read.properties.each _ inside s rfl
  · exact read.additionalProperties s found
  · exact read.items s found
  · exact read.defs.each _ inside s rfl
  · exact read.definitions.each _ inside s rfl
  · exact listed read.anyOf found
  · exact listed read.oneOf found
  · exact listed read.allOf found

end Parts

def Ensures {α : Type} (good : α → Prop) (r : Except DecodeError α) : Prop := ∀ a, r = .ok a → good a

namespace Ensures

variable {α β : Type} {good : α → Prop} {fine : β → Prop}

theorem ok {a : α} (holds : good a) : Ensures good (.ok a) := fun _ equal => Except.ok.inj equal ▸ holds

theorem error (e : DecodeError) : Ensures good (.error e) := nofun

theorem bind {first : Except DecodeError α} {next : α → Except DecodeError β} (here : Ensures good first)
    (later : ∀ a, good a → Ensures fine (next a)) : Ensures fine (first >>= next) := by
  cases first with
  | error e => exact nofun
  | ok a => exact later a (here a rfl)

end Ensures

/-- What is known of trees is known of their parts, and from it follows what is said of their values
and of the schemas in them. -/
structure Judgement where
  known : Tree → Prop
  fine : Value → Prop
  good : Schema → Prop
  item : ∀ {items : List Tree}, known (.array items) → ∀ t ∈ items, known t
  member : ∀ {members : List (String × String × Tree)}, known (.object members) →
      ∀ m ∈ members, known m.2.2
  value : ∀ {t : Tree} {v : Value}, known t → t.value? = some v → fine v
  truth : ∀ b, good (ofBool b)
  node : ∀ {k : Keywords Schema}, Read fine good k → good (node k)

section Judgement

variable (J : Judgement)

mutual
theorem ofTree_ensures :
    ∀ t : Tree, J.known t → Ensures (fun s? : Option Schema => ∀ s, s? = some s → J.good s)
      (ofTree t)
  | .null, _ => .ok nofun
  | .bool b, _ => .ok fun s equal => some.inj equal ▸ J.truth b
  | .object members, holds => by
    rw [ofTree]
    exact .bind (decodeMembers_ensures members (J.member holds) (read_empty J.fine J.good)) fun k read =>
      .ok fun s equal => some.inj equal ▸ J.node read
  | .number _, _ | .string _, _ | .array _, _ => .error _

theorem decodeMembers_ensures :
    ∀ members : List (String × String × Tree), (∀ m ∈ members, J.known m.2.2) →
      ∀ {k : Keywords Schema}, Read J.fine J.good k → Ensures (Read J.fine J.good)
      (decodeMembers k members)
  | [], _, k, read => by
    rw [decodeMembers]
    exact .ok read
  | (name, text, tree) :: rest, each, k, read => by
    obtain ⟨here, below⟩ := forall_mem_cons.mp each
    have later : ∀ {k : Keywords Schema}, Read J.fine J.good k → Ensures (Read J.fine J.good)
        (decodeMembers k rest) := decodeMembers_ensures rest below
    have named := namedSchemas_ensures name tree here
    have listed := listedSchemas_ensures name tree here
    have single := ofTree_ensures tree here
    have free : ∀ {α : Type} (r : Except DecodeError α), Ensures (fun _ => True) r := fun _ _ _ => trivial
    unfold decodeMembers
    split
    · exact .bind (free _) fun _ _ => later { read with }
    · exact .bind (free _) fun _ _ => later { read with }
    · exact .bind (free _) fun _ _ => later { read with }
    · exact .bind (free _) fun _ _ => later { read with }
    · exact .bind (free _) fun _ _ => later { read with }
    · exact .bind (free _) fun _ _ => later { read with }
    · exact .bind (free _) fun _ _ => later { read with }
    · split
      · exact later { read with enum := nofun }
      · split
        · rename_i values found
          refine later { read with enum := fun vs equal => some.inj equal ▸ ?_ }
          exact Json.traverses_items.forall_mem (fun t inside v => J.value (J.item here t inside)) found
        · exact .error _
      · exact .error _
    · split
      · exact later { read with }
      · split
        · exact later { read with }
        · exact .error _
      · exact .error _
    · exact .bind named fun _ names => later { read with properties := names }
    · exact .bind named fun _ names => later { read with defs := names }
    · exact .bind named fun _ names => later { read with definitions := names }
    · exact .bind single fun _ one => later { read with additionalProperties := one }
    · exact .bind single fun _ one => later { read with items := one }
    · exact .bind listed fun _ list => later { read with anyOf := list }
    · exact .bind listed fun _ list => later { read with oneOf := list }
    · exact .bind listed fun _ list => later { read with allOf := list }
    · refine .bind (later read) fun k read => ?_
      split
      · rename_i v found
        exact .ok { read with const := fun w equal => some.inj equal ▸ J.value here found }
      · exact .error _
    · refine .bind (later read) fun k read => ?_
      split
      · rename_i v found
        exact .ok { read with default := fun w equal => some.inj equal ▸ J.value here found }
      · exact .error _
    · exact later read

theorem namedSchemas_ensures (name : String) :
    ∀ t : Tree, J.known t → Ensures (fun entries? : Option (List (String × Option Schema)) =>
      ReadNames J.good (entries?.getD [])) (namedSchemas name t)
  | .null, _ => .ok (readNames_nil J.good)
  | .object members, holds => by
    rw [namedSchemas]
    refine .bind (memberSchemas_ensures members (J.member holds)) fun entries each =>
      .ok ⟨ascending_ofList entries, fun e member => ?_⟩
    exact each e (mem_of_mem_ofList member)
  | .bool _, _ | .number _, _ | .string _, _ | .array _, _ => .error _

theorem memberSchemas_ensures :
    ∀ members : List (String × String × Tree), (∀ m ∈ members, J.known m.2.2) →
      Ensures (fun entries : List (String × Option Schema) => ∀ e ∈ entries, ∀ s, e.2 = some s →
      J.good s) (memberSchemas members)
  | [], _ => .ok nofun
  | (key, _, tree) :: rest, each => by
    obtain ⟨here, below⟩ := forall_mem_cons.mp each
    rw [memberSchemas]
    refine .bind (ofTree_ensures tree here) fun s? one =>
      .bind (memberSchemas_ensures rest below) fun entries later => ?_
    exact .ok (forall_mem_cons.mpr ⟨one, later⟩)

theorem listedSchemas_ensures (name : String) :
    ∀ t : Tree, J.known t → Ensures (fun list? : Option (List (Option Schema)) =>
      ReadList J.good (list?.getD [])) (listedSchemas name t)
  | .null, _ => .ok nofun
  | .array items, holds => by
    rw [listedSchemas]
    exact .bind (itemSchemas_ensures items (J.item holds)) fun list all => .ok all
  | .bool _, _ | .number _, _ | .string _, _ | .object _, _ => .error _

theorem itemSchemas_ensures :
    ∀ items : List Tree, (∀ t ∈ items, J.known t) → Ensures (ReadList J.good) (itemSchemas items)
  | [], _ => .ok nofun
  | tree :: rest, each => by
    obtain ⟨here, below⟩ := forall_mem_cons.mp each
    rw [itemSchemas]
    refine .bind (ofTree_ensures tree here) fun s? one =>
      .bind (itemSchemas_ensures rest below) fun list later => .ok fun s member => ?_
    rcases mem_cons.mp member with equal | inside
    · exact one s equal.symm
    · exact later s inside
end

theorem good_of_ofJson {text : String} {s : Schema}
    (holds : ∀ t, Tree.ofText? .lenient text = some t → J.known t) (read : ofJson text = .ok s) :
    J.good s := by
  unfold ofJson at read
  split at read
  · cases read
  · cases read
  · split at read
    · cases read
    · rename_i tree parsed
      have ensures := ofTree_ensures J tree (holds tree parsed)
      revert ensures read
      cases ofTree tree with
      | error e => exact nofun
      | ok s? =>
        rintro read ensures
        obtain rfl := Except.ok.inj read
        cases s? with
        | none => exact J.node (read_empty J.fine J.good)
        | some s => exact ensures _ rfl s rfl

end Judgement

def readability : Judgement where
  known _ := True
  fine := Value.Document
  good := Readable
  item _ _ _ := trivial
  member _ _ _ := trivial
  value _ := Tree.value?_document
  truth _ := everywhere_of_children ⟨⟨.nil, .nil, .nil⟩, nofun, nofun⟩ nofun
  node read := read.everywhere (fun _ => id)
    ⟨⟨read.properties.ascending, read.defs.ascending, read.definitions.ascending⟩, read.const, read.enum⟩

end Schema

theorem Corpus.Readable.of_tree (tree : Json.Tree) {s : Schema}
    (read : Schema.ofTree tree = .ok (some s)) : Corpus.Readable #[s] := by
  intro r member
  obtain rfl : r = s := by simpa using member
  exact Schema.ofTree_ensures Schema.readability tree trivial _ read r rfl

/-- All documents are read from texts. -/
def Corpus.Decoded (corpus : Corpus) : Prop := ∀ s ∈ corpus, ∃ text, Schema.ofJson text = .ok s

theorem Corpus.Decoded.readable {corpus : Corpus} (decoded : corpus.Decoded) : corpus.Readable := by
  intro s member
  obtain ⟨text, read⟩ := decoded s member
  exact Schema.good_of_ofJson Schema.readability (fun _ _ => trivial) read

namespace Derivation

variable {corpus : Corpus} {t : Table} {node : Location} {options : Options} {g : Graph}

theorem run_absent (absent : corpus.get? node = none) :
    run corpus node t options g = .ok (⟨.ok .any, []⟩, g) := by
  rw [← runBy_true]
  unfold runBy
  rw [absent]
  obtain ⟨budget, enough⟩ :
      ∃ budget, deriveBudget corpus (t.push (.resource "" node)) = budget + 1 := ⟨_, rfl⟩
  change (deriveBy true corpus options (deriveBudget corpus (t.push (.resource "" node)))
    (some node) _ .root _ >>= _) = _
  rw [enough, deriveBy_absent (show (some node).bind corpus.get? = none from absent)]
  rfl

/-- A derivation from documents never breaks off, and every handle that the derived shape reaches is
bound. -/
theorem run_closed (decoded : corpus.Decoded) (t : Table) (node : Location) (options : Options)
    (g : Graph) :
    ∃ o g', run corpus node t options g = .ok (o, g') ∧ ∀ s, o.result = .ok s →
      ∀ id, g'.Reaches s (.handle id) → (g'.target? id).isSome = true := by
  cases present : corpus.get? node with
  | none =>
    refine ⟨_, _, run_absent present, fun s result id reached => ?_⟩
    obtain rfl := Except.ok.inj result
    have leaves : Shape.any.Leaves True fun _ => False := Shape.leaves_flat rfl nofun nofun
    exact (reached.leaves (fun _ _ => False.elim) leaves).of_handle.elim
  | some root =>
    have along : RunsAlong True g (run corpus node t options {}) (run corpus node t options g) :=
      run_along present (.refl _)
        (fun _ _ _ found => (decoded.readable.keywords found).toDocumentConstants) g
    obtain ⟨_, _, o, g', -, ran, copied⟩ := along.ok_of_strict
    exact ⟨o, g', ran, fun s result id reached => (copied.leaves_reached result reached).of_handle⟩

def selfMetText : String := "\x7b\"allOf\":[null,\x7b\"$ref\":\"#\"\x7d]\x7d"

def selfMet : Schema := .node { allOf? := some [none, some (.node { ref := "#" })] }

theorem read_selfMet : Schema.ofJson selfMetText = .ok selfMet := by
  have single : Duplicate.find selfMetText .error 1 = [] := by cbv
  have parsed : Json.Tree.ofText? .lenient selfMetText =
      some (.object [("allOf", "[null,\x7b\"$ref\":\"#\"\x7d]",
      .array [.null, .object [("$ref", "\"#\"", .string "#")]])]) := by cbv
  unfold Schema.ofJson
  rw [single]
  dsimp only
  rw [parsed]
  rfl

theorem run_closed_selfMet :
    Corpus.Decoded #[selfMet] ∧ ∃ o g', run #[selfMet] ⟨0, []⟩ (.ofDocuments #[selfMet] [0]) {}
      {} = .ok (o, g') ∧ o.result = .ok (.handle 0) ∧ (g'.target? 0).isSome = true := by
  have decoded : Corpus.Decoded #[selfMet] := by
    intro s member
    obtain rfl : s = selfMet := by simpa using member
    exact ⟨selfMetText, read_selfMet⟩
  have derived : ∃ o g', run #[selfMet] ⟨0, []⟩ (.ofDocuments #[selfMet] [0]) {} {} = .ok (o, g') ∧
      o.result = .ok (.handle 0) :=
    ⟨_, _, by cbv, rfl⟩
  obtain ⟨o, g', ran, bound⟩ := run_closed decoded (.ofDocuments #[selfMet] [0]) ⟨0, []⟩ {} {}
  obtain ⟨_, _, ran', result⟩ := derived
  obtain ⟨rfl, rfl⟩ := Prod.mk.inj (Except.ok.inj (ran.symm.trans ran'))
  exact ⟨decoded, o, g', ran, result, bound _ result 0 .self⟩

end Derivation

end JsonShape
