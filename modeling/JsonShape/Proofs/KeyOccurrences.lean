import JsonShape.Json.Tree
import JsonShape.Text.Pointer
import Mathlib.Data.List.Basic

/-! The keys of a document. Every key stands at a place, which is the way to it by the numbers of
members and items, and the keys come in the order of their places. -/
namespace JsonShape.Json
open Text List Option

variable {before : List String} {t : Tree} {items : List Tree} {way : List Nat} {o : Occurrence}
  {next i : Nat}

structure Occurrence where
  address : List Nat
  pointer : String
  before : List String
  key : String
  deriving DecidableEq

namespace Occurrence

def place (o : Occurrence) : List Nat := o.address ++ [o.before.length]

def isRepeated (o : Occurrence) : Bool := o.before.contains o.key

end Occurrence

mutual
def Tree.keysFrom (address : List Nat) (pointer : String) : Tree → List Occurrence
  | .null | .bool _ | .number _ | .string _ => []
  | .array items => itemKeys address pointer 0 items
  | .object members => memberKeys address pointer [] members

def itemKeys (address : List Nat) (pointer : String) (next : Nat) : List Tree → List Occurrence
  | [] => []
  | t :: rest =>
    t.keysFrom (address ++ [next]) (pointer ++ "/" ++ toString next) ++ itemKeys address
      pointer (next + 1) rest

def memberKeys (address : List Nat) (pointer : String) (before : List String) :
    List (String × String × Tree) → List Occurrence
  | [] => []
  | (key, _, t) :: rest =>
    ⟨address, pointer, before, key⟩ ::
      (t.keysFrom (address ++ [before.length]) (pointer ++ "/" ++ Pointer.escape key) ++
        memberKeys address pointer (before ++ [key]) rest)
end

def repeatedAmong (keys : List Occurrence) : List Occurrence := keys.filter (·.isRepeated)

def Tree.repeats (t : Tree) : List Occurrence := repeatedAmong (t.keysFrom [] "")

def Tree.child? : Tree → Nat → Option (String × Tree)
  | .array items, i => items[i]?.map fun t => (toString i, t)
  | .object members, i => members[i]?.map fun m => (Pointer.escape m.1, m.2.2)
  | _, _ => none

def Tree.at? : Tree → List Nat → Option (List String × Tree)
  | t, [] => some ([], t)
  | t, i :: way =>
    (t.child? i).bind fun child => (child.2.at? way).map fun found => (child.1 :: found.1, found.2)

def pointerOf (tokens : List String) : String := String.join (tokens.map ("/" ++ ·))

/-- The key stands in an object of the tree, and all about it is as it is there. -/
def Tree.HasKey (t : Tree) (o : Occurrence) : Prop :=
  ∃ tokens members after, t.at? o.address = some (tokens, .object members) ∧ o.pointer = pointerOf tokens ∧
    members.map (·.1) = o.before ++ o.key :: after

theorem repeatedAmong_append (keys others : List Occurrence) :
    repeatedAmong (keys ++ others) = repeatedAmong keys ++ repeatedAmong others :=
      filter_append keys others

variable {address : List Nat} {pointer : String}
variable {members : List (String × String × Tree)}

theorem mem_itemKeys :
    o ∈ itemKeys address pointer next items ↔ ∃ (i : Nat) (t : Tree), items[i]? = some t ∧
      o ∈ t.keysFrom (address ++ [next + i]) (pointer ++ "/" ++ toString (next + i)) := by
  induction items generalizing next with
  | nil => simp [itemKeys]
  | cons t rest ih =>
    rw [itemKeys, mem_append, ih]
    constructor
    · rintro (here | ⟨i, u, found, inside⟩)
      · exact ⟨0, t, rfl, here⟩
      · exact ⟨i + 1, u, found, by rwa [show next + (i + 1) = next + 1 + i by omega]⟩
    · rintro ⟨i, u, found, inside⟩
      cases i with
      | zero =>
        obtain rfl : t = u := some.inj found
        exact .inl inside
      | succ i => exact .inr ⟨i, u, found, by rwa [show next + 1 + i = next + (i + 1) by omega]⟩

theorem mem_memberKeys :
    o ∈ memberKeys address pointer before members ↔ ∃ (i : Nat) (m : String × String × Tree),
      members[i]? = some m ∧
      (o = ⟨address, pointer, before ++ (members.take i).map (·.1), m.1⟩ ∨
      o ∈ m.2.2.keysFrom (address ++ [before.length + i]) (pointer ++ "/" ++ Pointer.escape m.1)) :=
      by
  induction members generalizing before with
  | nil => simp [memberKeys]
  | cons m rest ih =>
    rw [memberKeys, mem_cons, mem_append, ih]
    have counted : (before ++ [m.1]).length = before.length + 1 := by simp
    constructor
    · rintro (here | here | ⟨i, n, found, inside⟩)
      · exact ⟨0, m, rfl, .inl (by simpa using here)⟩
      · exact ⟨0, m, rfl, .inr here⟩
      · refine ⟨i + 1, n, found, ?_⟩
        rw [counted, append_assoc] at inside
        rwa [show before.length + (i + 1) = before.length + 1 + i by omega, take_succ_cons]
    · rintro ⟨i, n, found, inside⟩
      cases i with
      | zero =>
        obtain rfl : m = n := some.inj found
        exact inside.elim (fun here => .inl (by simpa using here)) fun here => .inr (.inl here)
      | succ i =>
        refine .inr (.inr ⟨i, n, found, ?_⟩)
        rw [counted, append_assoc]
        rwa [show before.length + (i + 1) = before.length + 1 + i by omega, take_succ_cons] at inside

theorem map_eq_append_cons_iff {key : String} :
    (∃ (i : Nat) (m : String × String × Tree), members[i]? = some m ∧ before = (members.take i).map
      (·.1) ∧ key = m.1) ↔ ∃ after, members.map (·.1) = before ++ key :: after := by
  constructor
  · rintro ⟨i, m, found, rfl, rfl⟩
    obtain ⟨bound, rfl⟩ := List.getElem?_eq_some_iff.mp found
    refine ⟨(members.drop (i + 1)).map (·.1), ?_⟩
    show _ = _ ++ (fun m : String × String × Tree => m.1) members[i] :: _
    rw [← map_cons, ← drop_eq_getElem_cons bound, ← map_append, take_append_drop]
  · rintro ⟨after, split⟩
    have at_length : (members.map (·.1))[before.length]? = some key := by simp [split]
    rw [getElem?_map] at at_length
    obtain ⟨m, found, rfl⟩ := map_eq_some_iff.mp at_length
    exact ⟨before.length, m, found, by rw [map_take, split, take_left], rfl⟩

theorem mem_keysFrom :
    o ∈ t.keysFrom address pointer ↔
      (∃ members after, t = .object members ∧ o.address = address ∧ o.pointer = pointer ∧
      members.map (·.1) = o.before ++ o.key :: after) ∨ ∃ (i : Nat) (child : String × Tree),
      t.child? i = some child ∧ o ∈ child.2.keysFrom (address ++ [i])
      (pointer ++ "/" ++ child.1) := by
  cases t with
  | null | bool | number | string => simp [Tree.keysFrom, Tree.child?]
  | array items => simp [Tree.keysFrom, Tree.child?, mem_itemKeys]
  | object members =>
    rw [Tree.keysFrom, mem_memberKeys]
    simp only [nil_append, length_nil, Nat.zero_add, Tree.child?, map_eq_some_iff]
    obtain ⟨a, p, before, key⟩ := o
    constructor
    · rintro ⟨i, m, found, own | inside⟩
      · cases own
        obtain ⟨after, split⟩ := map_eq_append_cons_iff.mp ⟨i, m, found, rfl, rfl⟩
        exact .inl ⟨members, after, rfl, rfl, rfl, split⟩
      · exact .inr ⟨i, _, ⟨m, found, rfl⟩, inside⟩
    · rintro (⟨_, after, same, rfl, rfl, split⟩ | ⟨i, _, ⟨m, found, rfl⟩, inside⟩)
      · cases same
        obtain ⟨i, m, found, rfl, rfl⟩ := map_eq_append_cons_iff.mpr ⟨after, split⟩
        exact ⟨i, m, found, .inl rfl⟩
      · exact ⟨i, m, found, .inr inside⟩

theorem pointerOf_cons (token : String) (tokens : List String) :
    pointerOf (token :: tokens) = "/" ++ token ++ pointerOf tokens := by
  rw [pointerOf, map_cons, String.join_cons]
  rfl

theorem mem_keysFrom_of_at? {tokens : List String} {after : List String}
    (found : t.at? way = some (tokens, .object members)) (reached : o.address = address ++ way)
    (spelled : o.pointer = pointer ++ pointerOf tokens)
    (split : members.map (·.1) = o.before ++ o.key :: after) : o ∈ t.keysFrom address pointer := by
  induction way generalizing t address pointer tokens with
  | nil =>
    simp only [Tree.at?, some.injEq, Prod.mk.injEq] at found
    obtain ⟨rfl, rfl⟩ := found
    exact mem_keysFrom.mpr
      (.inl ⟨members, after,
      rfl, by simpa using reached, by simpa [pointerOf] using spelled, split⟩)
  | cons i way ih =>
    obtain ⟨child, here, found⟩ := bind_eq_some_iff.mp found
    obtain ⟨⟨more, last⟩, below, equal⟩ := map_eq_some_iff.mp found
    simp only [Prod.mk.injEq] at equal
    obtain ⟨rfl, rfl⟩ := equal
    refine mem_keysFrom.mpr (.inr ⟨i, child, here, ih below (by simpa using reached) ?_⟩)
    rw [spelled, pointerOf_cons]
    simp only [String.append_assoc]

theorem sizeOf_lt_of_child? {child : String × Tree} (found : t.child? i = some child) :
    sizeOf child.2 < sizeOf t := by
  cases t with
  | null | bool | number | string => cases found
  | array items =>
    obtain ⟨u, inside, rfl⟩ := map_eq_some_iff.mp found
    have bound := sizeOf_lt_of_mem (mem_of_getElem? inside)
    simp only [Tree.array.sizeOf_spec]
    omega
  | object members =>
    obtain ⟨m, inside, rfl⟩ := map_eq_some_iff.mp found
    have bound := sizeOf_lt_of_mem (mem_of_getElem? inside)
    obtain ⟨key, text, u⟩ := m
    simp only [Prod.mk.sizeOf_spec, Tree.object.sizeOf_spec] at bound ⊢
    omega

theorem at?_of_mem_keysFrom (inside : o ∈ t.keysFrom address pointer) :
    ∃ way tokens members after, t.at? way = some (tokens, .object members) ∧ o.address = address ++ way ∧
      o.pointer = pointer ++ pointerOf tokens ∧ members.map (·.1) = o.before ++ o.key :: after := by
  induction size : sizeOf t using Nat.strongRecOn generalizing t address pointer with
  | _ bound ih =>
    subst size
    rcases mem_keysFrom.mp inside with ⟨members, after, rfl, reached, spelled, split⟩ |
      ⟨i, child, here, inside⟩
    · exact ⟨[], [], members, after, rfl, by simp [reached], by simp [spelled, pointerOf], split⟩
    · obtain ⟨way, tokens, members, after, found, reached, spelled, split⟩ :=
        ih _ (sizeOf_lt_of_child? here) inside rfl
      refine ⟨i :: way, child.1 :: tokens, members, after, ?_, by simp [reached], ?_, split⟩
      · rw [Tree.at?, here, bind_some, found, map_some]
      · rw [spelled, pointerOf_cons]
        simp only [String.append_assoc]

theorem mem_keys : o ∈ t.keysFrom [] "" ↔ t.HasKey o := by
  constructor
  · intro inside
    obtain ⟨way, tokens, members, after, found, reached, spelled, split⟩ := at?_of_mem_keysFrom inside
    rw [nil_append] at reached
    rw [String.empty_append] at spelled
    exact ⟨tokens, members, after, reached ▸ found, spelled, split⟩
  · rintro ⟨tokens, members, after, found, spelled, split⟩
    exact mem_keysFrom_of_at? found (nil_append _).symm (spelled.trans (String.empty_append).symm) split

theorem mem_repeats : o ∈ t.repeats ↔ t.HasKey o ∧ o.key ∈ o.before := by
  rw [Tree.repeats, repeatedAmong, mem_filter, mem_keys, Occurrence.isRepeated, contains_iff_mem]

theorem append_cons_lt (address : List Nat) {j : Nat} (below : i < j) (way way' : List Nat) :
    address ++ i :: way < address ++ j :: way' := by
  induction address with
  | nil => exact cons_lt_cons_iff.mpr (.inl below)
  | cons n rest ih => exact cons_lt_cons_iff.mpr (.inr ⟨rfl, ih⟩)

theorem lt_append (place : List Nat) (proper : way ≠ []) : place < place ++ way := by
  induction place with
  | nil =>
    cases way with
    | nil => exact absurd rfl proper
    | cons i way => exact nil_lt_cons i way
  | cons n rest ih => exact cons_lt_cons_iff.mpr (.inr ⟨rfl, ih⟩)

theorem place_of_mem_keysFrom (inside : o ∈ t.keysFrom address pointer) :
    ∃ way, way ≠ [] ∧ o.place = address ++ way := by
  obtain ⟨way, _, _, _, _, reached, _, _⟩ := at?_of_mem_keysFrom inside
  exact ⟨way ++ [o.before.length], by simp, by rw [Occurrence.place, reached, append_assoc]⟩

theorem place_of_mem_itemKeys (inside : o ∈ itemKeys address pointer next items) :
    ∃ i way, next ≤ i ∧ o.place = address ++ i :: way := by
  obtain ⟨i, t, _, inside⟩ := mem_itemKeys.mp inside
  obtain ⟨way, _, reached⟩ := place_of_mem_keysFrom inside
  exact ⟨next + i, way, Nat.le_add_right next i, by rw [reached, append_assoc, singleton_append]⟩

theorem place_of_mem_memberKeys (inside : o ∈ memberKeys address pointer before members) :
    ∃ i way, before.length ≤ i ∧ o.place = address ++ i :: way := by
  obtain ⟨i, m, found, rfl | inside⟩ := mem_memberKeys.mp inside
  · obtain ⟨bound, -⟩ := List.getElem?_eq_some_iff.mp found
    refine ⟨before.length + i, [], Nat.le_add_right before.length i, ?_⟩
    simp [Occurrence.place, Nat.min_eq_left (Nat.le_of_lt bound)]
  · obtain ⟨way, _, reached⟩ := place_of_mem_keysFrom inside
    exact ⟨before.length + i, way,
      Nat.le_add_right before.length i, by rw [reached, append_assoc, singleton_append]⟩

def InOrder (keys : List Occurrence) : Prop := keys.Pairwise fun o p => o.place < p.place

mutual
theorem inOrder_keysFrom :
    ∀ (t : Tree) (address : List Nat) (pointer : String), InOrder (t.keysFrom address pointer)
  | .null, _, _ | .bool _, _, _ | .number _, _, _ | .string _, _, _ => .nil
  | .array items, address, pointer => inOrder_itemKeys items address pointer 0
  | .object members, address, pointer => inOrder_memberKeys members address pointer []

theorem inOrder_itemKeys :
    ∀ (items : List Tree) (address : List Nat) (pointer : String) (next : Nat),
      InOrder (itemKeys address pointer next items)
  | [], _, _, _ => .nil
  | t :: rest, address, pointer, next => by
    rw [itemKeys]
    refine pairwise_append.mpr
      ⟨inOrder_keysFrom t _ _, inOrder_itemKeys rest address pointer (next + 1), ?_⟩
    intro o here p later
    obtain ⟨way, _, reached⟩ := place_of_mem_keysFrom here
    obtain ⟨i, way', above, reached'⟩ := place_of_mem_itemKeys later
    rw [reached, reached', append_assoc]
    exact append_cons_lt address above way way'

theorem inOrder_memberKeys :
    ∀ (members : List (String × String × Tree)) (address : List
      Nat) (pointer : String) (before : List String),
      InOrder (memberKeys address pointer before members)
  | [], _, _, _ => .nil
  | (key, _, t) :: rest, address, pointer, before => by
    rw [memberKeys]
    have ahead : ∀ o ∈ memberKeys address pointer (before ++ [key]) rest, ∀ way,
        address ++ before.length :: way < o.place := by
      intro o later way
      obtain ⟨i, way', above, reached⟩ := place_of_mem_memberKeys later
      rw [length_append, length_singleton] at above
      exact reached ▸ append_cons_lt address above way way'
    refine pairwise_cons.mpr ⟨?_,
      pairwise_append.mpr ⟨inOrder_keysFrom t _ _, inOrder_memberKeys rest address pointer _, ?_⟩⟩
    · intro o inside
      rcases mem_append.mp inside with below | later
      · obtain ⟨way, proper, reached⟩ := place_of_mem_keysFrom below
        exact reached ▸ lt_append _ proper
      · exact ahead o later []
    · intro o below p later
      obtain ⟨way, _, reached⟩ := place_of_mem_keysFrom below
      rw [reached, append_assoc]
      exact ahead p later way
end

theorem inOrder_repeats (t : Tree) : InOrder t.repeats := (inOrder_keysFrom t [] "").filter _

end JsonShape.Json
