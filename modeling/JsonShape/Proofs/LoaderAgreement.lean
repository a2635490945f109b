import JsonShape.Proofs.RepeatedKeys
import JsonShape.Yaml.Document

/-! One document in two notations. A tree and a node that hold the same are refused for the same
repeated key. -/
namespace JsonShape.Yaml
open Json List Option

variable {members : List (String × String × Tree)} {node root : Node} {address : List Nat}
  {items : List Tree} {t : Tree}

mutual
/-- The node is the tree in the other notation: the scalars may be any, and the keys are scalars
with the same text. -/
def corresponds : Tree → Node → Bool
  | .array items, .sequence _ nodes => itemsCorrespond items nodes
  | .object members, .mapping _ entries => membersCorrespond members entries
  | .null, .scalar _ _ _ | .bool _, .scalar _ _ _ | .number _, .scalar _ _ _ | .string _,
      .scalar _ _ _ => true
  | _, _ => false

def itemsCorrespond : List Tree → List Node → Bool
  | [], [] => true
  | t :: items, node :: nodes => corresponds t node && itemsCorrespond items nodes
  | _, _ => false

def membersCorrespond : List (String × String × Tree) → List (Node × Node) → Bool
  | [], [] => true
  | (key, _, t) :: members, (.scalar _ _ text, node) :: entries =>
    key == text && (corresponds t node && membersCorrespond members entries)
  | _, _ => false
end

namespace Node

def child? : Node → Nat → Option Node
  | .sequence _ items, i => items[i]?
  | .mapping _ entries, i => entries[i]?.map (·.2)
  | _, _ => none

def at? : Node → List Nat → Option Node
  | node, [] => some node
  | node, i :: way => (node.child? i).bind (·.at? way)

def key? : Node → Nat → Option Node
  | .mapping _ entries, i => entries[i]?.map (·.1)
  | _, _ => none

def keyAt? (node : Node) (address : List Nat) (i : Nat) : Option Node := (node.at? address).bind (·.key? i)

theorem at?_append (node : Node) (address way : List Nat) :
    node.at? (address ++ way) = (node.at? address).bind (·.at? way) := by
  induction address generalizing node with
  | nil => rfl
  | cons i rest ih =>
    rw [cons_append, at?, at?, bind_assoc]
    exact congrArg _ (funext ih)

theorem at?_child (found : root.at? address = some node) (i : Nat) :
    root.at? (address ++ [i]) = node.child? i := by
  rw [at?_append, found, bind_some, at?]
  exact bind_fun_some _

end Node

/-- The error names the occurrence: its key, where the key stands in the node, and where it stood
before. -/
def Names (root : Node) (o : Occurrence) (error : RepeatedKey) : Prop :=
  ∃ i first second, o.before[i]? = some o.key ∧ root.keyAt? o.address i = some first ∧
    root.keyAt? o.address o.before.length = some second ∧
    error = .between o.key (positionOf first.start) (positionOf second.start)

/-- The first repeated key is the error, and without any there is a result. -/
def EndsAt {α : Type} (root : Node) (result : Except RepeatedKey α) (keys : List Occurrence) : Prop :=
  (repeatedAmong keys = [] ∧ ∃ a, result = .ok a) ∨
    ∃ o rest error, repeatedAmong keys = o :: rest ∧ result = .error error ∧ Names root o error

variable {α β : Type} {keys : List Occurrence} {o : Occurrence}

theorem EndsAt.of_ok (a : α) : EndsAt root (.ok a) [] := .inl ⟨rfl, a, rfl⟩

theorem EndsAt.bind {first : Except RepeatedKey α} {next : α → Except RepeatedKey β}
    {others : List Occurrence} (here : EndsAt root first keys)
    (later : ∀ a, EndsAt root (next a) others) : EndsAt root (first >>= next) (keys ++ others) := by
  unfold EndsAt
  rw [repeatedAmong_append]
  rcases here with ⟨none, a, rfl⟩ | ⟨o, rest, error, told, rfl, named⟩
  · rw [none, nil_append]
    exact later a
  · rw [told]
    exact .inr ⟨o, rest ++ repeatedAmong others, error, rfl, rfl, named⟩

theorem EndsAt.map {result : Except RepeatedKey α} (ends : EndsAt root result keys) (f : α → β) :
    EndsAt root (result >>= fun a => .ok (f a)) keys := by
  have all := ends.bind fun a => EndsAt.of_ok (f a)
  rwa [append_nil] at all

theorem EndsAt.pass {result : Except RepeatedKey α} (fresh : o.key ∉ o.before)
    (ends : EndsAt root result keys) : EndsAt root result (o :: keys) := by
  have untold : repeatedAmong (o :: keys) = repeatedAmong keys :=
    filter_cons_of_neg fun told => fresh (contains_iff_mem.mp told)
  unfold EndsAt
  rwa [untold]

theorem EndsAt.stop {error : RepeatedKey} (keys : List Occurrence) (again : o.key ∈ o.before)
    (named : Names root o error) :
    EndsAt root (.error error : Except RepeatedKey α) (o :: keys) := by
  have told : repeatedAmong (o :: keys) = o :: repeatedAmong keys :=
    filter_cons_of_pos (contains_iff_mem.mpr again)
  exact .inr ⟨o, repeatedAmong keys, error, told, rfl, named⟩

theorem eq_sequence (same : corresponds (.array items) node) :
    ∃ start nodes, node = .sequence start nodes ∧ itemsCorrespond items nodes := by
  cases node with
  | sequence start nodes => exact ⟨start, nodes, rfl, same⟩
  | scalar | aliasOf | mapping => cases same

theorem eq_mapping (same : corresponds (.object members) node) :
    ∃ start entries, node = .mapping start entries ∧ membersCorrespond members entries := by
  cases node with
  | mapping start entries => exact ⟨start, entries, rfl, same⟩
  | scalar | aliasOf | sequence => cases same

theorem eq_items {nodes : List Node} (same : itemsCorrespond (t :: items) nodes) :
    ∃ node rest, nodes = node :: rest ∧ corresponds t node ∧ itemsCorrespond items rest := by
  cases nodes with
  | nil => cases same
  | cons node rest => exact ⟨node, rest, rfl, Bool.and_eq_true_iff.mp same⟩

theorem eq_entries {key text : String} {entries : List (Node × Node)}
    (same : membersCorrespond ((key, text, t) :: members) entries) :
    ∃ start tag node rest, entries = (.scalar start tag key, node) :: rest ∧ corresponds t node ∧
      membersCorrespond members rest := by
  cases entries with
  | nil => cases same
  | cons entry rest =>
    obtain ⟨name, node⟩ := entry
    cases name with
    | scalar start tag text =>
      obtain ⟨spelled, below, others⟩ :
          key == text ∧ corresponds t node ∧ membersCorrespond members rest := by
        simpa [membersCorrespond] using same
      exact ⟨start, tag, node, rest, by rw [eq_of_beq spelled], below, others⟩
    | aliasOf | sequence | mapping => cases same

/-- The keys seen so far are those before, each with the mark of a key of the map. -/
structure Seen (root : Node) (address : List Nat) (before : List String)
    (seen : List (String × Mark)) : Prop where
  all : ∀ key ∈ before, ∃ entry ∈ seen, entry.1 = key
  marked : ∀ entry ∈ seen, ∃ i first, before[i]? = some entry.1 ∧
      root.keyAt? address i = some first ∧ entry.2 = first.start

theorem Seen.push {before : List String} {seen : List (String × Mark)}
    (known : Seen root address before seen) {key : Node}
    (stands : root.keyAt? address before.length = some key) :
    Seen root address (before ++ [key.keyText]) ((key.keyText, key.start) :: seen) where
  all := by
    intro name inside
    rcases mem_append.mp inside with earlier | last
    · obtain ⟨entry, member, same⟩ := known.all name earlier
      exact ⟨entry, mem_cons_of_mem _ member, same⟩
    · exact ⟨_, mem_cons_self, (mem_singleton.mp last).symm⟩
  marked := by
    intro entry inside
    rcases mem_cons.mp inside with rfl | earlier
    · exact ⟨before.length, key, by simp, stands, rfl⟩
    · obtain ⟨i, first, spelled, stood, mark⟩ := known.marked entry earlier
      obtain ⟨bound, -⟩ := List.getElem?_eq_some_iff.mp spelled
      exact ⟨i, first, by rw [getElem?_append_left bound, spelled], stood, mark⟩

mutual
theorem endsAt_value (root : Node) :
    ∀ (t : Tree) (node : Node) (address : List Nat) (pointer : String), corresponds t node →
      root.at? address = some node → EndsAt root node.value (t.keysFrom address pointer)
  | .null, node, _, _, same, _ | .bool _, node, _, _, same, _ | .number _, node, _, _, same,
      _ | .string _, node, _, _, same, _ => by
    cases node with
    | scalar start tag text => exact .of_ok _
    | aliasOf | sequence | mapping => cases same
  | .array items, node, address, pointer, same, found => by
    obtain ⟨start, nodes, rfl, same⟩ := eq_sequence same
    rw [Node.value, Tree.keysFrom]
    refine (endsAt_items root items nodes address pointer 0 same fun i => ?_).map _
    rw [Nat.zero_add]
    exact Node.at?_child found i
  | .object members, node, address, pointer, same, found => by
    obtain ⟨start, entries, rfl, same⟩ := eq_mapping same
    rw [Node.value, Tree.keysFrom]
    have none : Seen root address [] [] :=
      ⟨fun _ inside => absurd inside not_mem_nil, fun _ inside => absurd inside not_mem_nil⟩
    refine (endsAt_entries root members entries address pointer [] [] same none ?_ ?_).map _
    · intro i
      rw [length_nil, Nat.zero_add]
      exact Node.at?_child found i
    · intro i
      rw [length_nil, Nat.zero_add, Node.keyAt?, found]
      rfl

theorem endsAt_items (root : Node) :
    ∀ (items : List Tree) (nodes : List Node) (address : List Nat) (pointer : String) (next : Nat),
      itemsCorrespond items nodes → (∀ i, root.at? (address ++ [next + i]) = nodes[i]?) →
      EndsAt root (itemValues nodes) (itemKeys address pointer next items)
  | [], nodes, _, _, _, same, _ => by
    cases nodes with
    | nil => exact .of_ok _
    | cons => cases same
  | t :: items, nodes, address, pointer, next, same, found => by
    obtain ⟨node, rest, rfl, below, others⟩ := eq_items same
    rw [itemValues, itemKeys]
    refine (endsAt_value root t node _ _ below (found 0)).bind fun v => ?_
    refine (endsAt_items root items rest address pointer (next + 1) others fun i => ?_).map _
    rw [show next + 1 + i = next + (i + 1) by omega, found (i + 1)]
    rfl

theorem endsAt_entries (root : Node) :
    ∀ (members : List (String × String × Tree)) (entries : List (Node × Node)) (address : List
      Nat) (pointer : String) (before : List String) (seen : List (String × Mark)),
      membersCorrespond members entries → Seen root address before seen →
      (∀ i, root.at? (address ++ [before.length + i]) = entries[i]?.map (·.2)) →
      (∀ i, root.keyAt? address (before.length + i) = entries[i]?.map (·.1)) →
      EndsAt root (entryValues seen entries) (memberKeys address pointer before members)
  | [], entries, _, _, _, _, same, _, _, _ => by
    cases entries with
    | nil => exact .of_ok _
    | cons => cases same
  | (key, _, t) :: members, entries, address, pointer, before, seen, same, known, values, keys => by
    obtain ⟨start, tag, node, rest, rfl, below, others⟩ := eq_entries same
    have stands : root.keyAt? address before.length = some (.scalar start tag key) := keys 0
    rw [entryValues, memberKeys]
    cases found : seen.find? (·.1 == (Node.scalar start tag key).keyText) with
    | some entry =>
      obtain ⟨i, first, spelled, stood, mark⟩ := known.marked entry (mem_of_find?_eq_some found)
      have name : entry.1 = key := eq_of_beq (find?_some found :)
      rw [name] at spelled
      refine .stop _ (mem_of_getElem? spelled) ⟨i, first, _, spelled, stood, stands, ?_⟩
      rw [mark]
      rfl
    | none =>
      have fresh : key ∉ before := by
        intro inside
        obtain ⟨entry, member, name⟩ := known.all key inside
        exact find?_eq_none.mp found entry member (beq_iff_eq.mpr name)
      refine .pass fresh ?_
      refine (endsAt_value root t node _ _ below (values 0)).bind fun v => ?_
      have next : ∀ i, (before ++ [key]).length + i = before.length + (i + 1) := by
        intro i
        rw [length_append, length_singleton]
        omega
      refine (endsAt_entries root members rest address pointer (before ++ [key]) _ others
        (known.push stands) ?_ ?_).map _
      · intro i
        rw [next, values (i + 1)]
        rfl
      · intro i
        rw [next, keys (i + 1)]
        rfl
end

/-- A document in two notations is refused in both or in neither, and for the same occurrence of a
key. -/
theorem repeats_agree {t : Tree} {node : Node} (same : corresponds t node) {limit? : Option Nat}
    (wanted : limit? ≠ some 0) :
    ((∀ o, t.HasKey o → o.key ∉ o.before) ∧ Duplicate.search ⟨.error, limit?⟩ [] [] t.tokens = [] ∧
      ∃ v, node.value = .ok v) ∨ ∃ o, (t.HasKey o ∧ o.key ∈ o.before) ∧
      (∀ p, t.HasKey p → p.key ∈ p.before → p = o ∨ o.place < p.place) ∧
      Duplicate.search ⟨.error, limit?⟩ [] [] t.tokens = [Duplicate.finding o] ∧
      ∃ error, node.value = .error error ∧ Names node o error := by
  rw [Duplicate.search_strict t wanted]
  rcases endsAt_value node t node [] "" same rfl with ⟨none, value⟩ |
    ⟨o, rest, error, told, refused, named⟩
  · replace none : t.repeats = [] := none
    rw [none]
    refine .inl ⟨fun o stands again => ?_, rfl, value⟩
    have inside := mem_repeats.mpr ⟨stands, again⟩
    exact absurd (none ▸ inside) not_mem_nil
  · replace told : t.repeats = o :: rest := told
    have order := told ▸ inOrder_repeats t
    rw [told]
    refine .inr ⟨o, mem_repeats.mp (told ▸ mem_cons_self), fun p stands again => ?_, rfl,
      error, refused, named⟩
    have inside := mem_repeats.mpr ⟨stands, again⟩
    rcases mem_cons.mp (told ▸ inside) with same | later
    · exact .inl same
    · exact .inr ((pairwise_cons.mp order).1 p later)

def twiceTree : Tree :=
  .object [("type", "\"object\"", .string "object"),
    ("properties", "", .object [("a", "", .object [("type", "\"string\"", .string "string")]),
    ("a", "true", .bool true)])]

def twiceNode : Node :=
  .mapping ⟨0, 0, 0⟩ [(.scalar ⟨0, 0, 0⟩ "" "type", .scalar ⟨6, 0, 6⟩ "" "object"),
    (.scalar ⟨13, 1, 0⟩ "" "properties", .mapping ⟨27, 2, 2⟩
      [(.scalar ⟨27, 2, 2⟩ "" "a",
      .mapping ⟨30, 2, 5⟩ [(.scalar ⟨31, 2, 6⟩ "" "type", .scalar ⟨37, 2, 12⟩ "" "string")]),
        (.scalar ⟨47, 3, 2⟩ "" "a", .scalar ⟨50, 3, 5⟩ "" "true")])]

theorem repeats_agree_twice : (corresponds twiceTree twiceNode ∧ (some 1 : Option Nat) ≠ some 0) ∧
    Duplicate.search ⟨.error, some 1⟩ [] [] twiceTree.tokens = [Duplicate.repeated "/properties" "a"] ∧
    twiceNode.value = .error (.between "a" ⟨3, 3⟩ ⟨4, 3⟩) := by
  have same : corresponds twiceTree twiceNode := by decide +kernel
  have wanted : (some 1 : Option Nat) ≠ some 0 := by decide
  have keys : twiceTree.repeats = [⟨[1], "/properties", ["a"], "a"⟩] := by decide +kernel
  refine ⟨⟨same, wanted⟩, ?_⟩
  rcases repeats_agree same wanted with ⟨none, -, -⟩ |
    ⟨o, repeated, -, searched, error, refused, i, first, second, spelled, stood, stands, rfl⟩
  · have told := mem_repeats.mp (keys ▸ mem_cons_self)
    exact absurd told.2 (none _ told.1)
  · obtain rfl : o = ⟨[1], "/properties", ["a"], "a"⟩ := mem_singleton.mp (keys ▸ mem_repeats.mpr repeated)
    cases i with
    | zero =>
      cases stood
      cases stands
      exact ⟨searched, refused⟩
    | succ i => cases spelled

end JsonShape.Yaml
