import JsonShape.Proofs.KeyOccurrences
import JsonShape.Proofs.TokenStream
import JsonShape.Schema.Decode
import Mathlib.Data.List.Induction
import Mathlib.Data.List.Nodup

/-! Repeated keys. What the search finds are the keys that occurred before in their object, in the
order of the document; a limit cuts the list. A document with a repeated key is no schema. -/
namespace JsonShape.Duplicate
open Json List Option

variable {limit : Nat} {limit? : Option Nat} {rules : Rules} {text : String} {d : Demand} {t : Tree}

def finding (o : Occurrence) : Finding := repeated o.pointer o.key

def truncation : Finding := ⟨.truncated, "/", "", "max issues reached"⟩

def Demand.tell (d : Demand) :
    List Finding → List Occurrence → (List Finding → List Finding) → List Finding
  | found, [], next => next found
  | found, o :: rest, next =>
    if d.strictness == .error then d.add found (finding o) else d.tell (d.add found (finding o)) rest next

theorem Demand.tell_append (d : Demand) (found : List Finding) (keys others : List Occurrence)
    (next : List Finding → List Finding) :
    d.tell found (keys ++ others) next = d.tell found keys fun found =>
      d.tell found others next := by
  induction keys generalizing found with
  | nil => rfl
  | cons o rest ih =>
    rw [cons_append, tell, tell]
    split_ifs
    · rfl
    · exact ih _

def expectsValue : List Container → Bool
  | .object _ _ _ expectsKey :: _ => !expectsKey
  | _ => true

theorem search_string (d : Demand) {containers : List Container} (value : expectsValue containers)
    (found : List Finding) (s : String) (rest : List Token) :
    search d containers found (.string s :: rest) = search d (place containers).2 found rest := by
  cases containers with
  | nil => rfl
  | cons top outer =>
    cases top with
    | list path next => rfl
    | object path keys last expectsKey =>
      cases expectsKey with
      | true => cases value
      | false => rfl

mutual
theorem search_value (d : Demand) :
    ∀ (t : Tree) (containers : List Container) (found : List Finding) (rest : List
      Token) (address : List Nat), expectsValue containers →
      search d containers found (t.tokens ++ rest) = d.tell found
      (repeatedAmong (t.keysFrom address (place containers).1)) fun found =>
      search d (place containers).2 found rest
  | .null, _, _, _, _, _ | .bool _, _, _, _, _, _ | .number _, _, _, _, _, _ => by
    rw [Tree.tokens, singleton_append, search]
    rfl
  | .string s, _, _, _, _, value => by
    rw [Tree.tokens, singleton_append, search_string d value]
    rfl
  | .array items, containers, found, rest, address, _ => by
    rw [Tree.tokens, cons_append, append_assoc, search]
    exact search_items d items _ 0 _ found rest address
  | .object members, containers, found, rest, address, _ => by
    rw [Tree.tokens, cons_append, append_assoc, search]
    exact search_members d members _ [] [] "" _ found rest address fun _ => Iff.rfl

theorem search_items (d : Demand) :
    ∀ (items : List Tree) (path : String) (next : Nat) (outer : List Container) (found : List
      Finding) (rest : List Token) (address : List Nat), search d (.list path next :: outer) found
      (itemTokens items ++ ([.close] ++ rest)) = d.tell found
      (repeatedAmong (itemKeys address path next items)) fun found => search d outer found rest
  | [], _, _, _, _, _, _ => rfl
  | t :: items, path, next, outer, found, rest, address => by
    rw [itemTokens, append_assoc, search_value d t _ _ _ (address ++ [next]) rfl, itemKeys,
      repeatedAmong_append,
      Demand.tell_append]
    congr 1
    funext found
    exact search_items d items path (next + 1) outer found rest address

theorem search_members (d : Demand) :
    ∀ (members : List (String × String × Tree)) (path : String) (keys before : List
      String) (last : String) (outer : List Container) (found : List Finding) (rest : List Token)
      (address : List Nat), (∀ key, key ∈ keys ↔ key ∈ before) →
      search d (.object path keys last true :: outer) found
      (memberTokens members ++ ([.close] ++ rest)) = d.tell found
      (repeatedAmong (memberKeys address path before members)) fun found =>
      search d outer found rest
  | [], _, _, _, _, _, _, _, _, _ => rfl
  | (key, _, t) :: members, path, keys, before, last, outer, found, rest, address, same => by
    have later : ∀ (known : List String) (found : List Finding), (∀ k, k ∈ known ↔ k ∈ before ++ [key]) →
        search d (.object path known key false :: outer) found
        (t.tokens ++ (memberTokens members ++ ([.close] ++ rest))) =
          d.tell found (repeatedAmong
          (t.keysFrom (address ++ [before.length]) (path ++ "/" ++ Text.Pointer.escape key) ++
            memberKeys address path (before ++ [key]) members)) fun found =>
            search d outer found rest := by
      intro known found same'
      rw [search_value d t _ _ _ (address ++ [before.length]) rfl, repeatedAmong_append,
        Demand.tell_append]
      congr 1
      funext found
      exact search_members d members path known (before ++ [key]) key outer found rest address same'
    rw [memberTokens, cons_append, append_assoc, search, memberKeys]
    by_cases again : key ∈ before
    · have told : (Occurrence.mk address path before key).isRepeated = true := contains_iff_mem.mpr again
      rw [if_pos (contains_iff_mem.mpr ((same key).mpr again)), repeatedAmong,
        filter_cons_of_pos told, Demand.tell]
      split_ifs
      · rfl
      · exact later keys _ fun k => by grind
    · have untold : ¬(Occurrence.mk address path before key).isRepeated = true :=
        fun told => again (contains_iff_mem.mp told)
      rw [if_neg fun known => again ((same key).mp (contains_iff_mem.mp known)), repeatedAmong,
        filter_cons_of_neg untold]
      exact later (key :: keys) found fun k => by grind
end

theorem search_document (d : Demand) (t : Tree) : search d [] [] t.tokens = d.tell [] t.repeats id := by
  have all := search_value d t [] [] [] [] rfl
  rw [append_nil] at all
  exact all

theorem Demand.tell_of_ne_error (lists : d.strictness ≠ .error) (found : List Finding)
    (keys : List Occurrence) (next : List Finding → List Finding) :
    d.tell found keys next = next (keys.foldl (fun found o => d.add found (finding o)) found) := by
  induction keys generalizing found with
  | nil => rfl
  | cons o rest ih => rw [tell, if_neg (by simpa using lists), ih, foldl_cons]

theorem Demand.tell_of_eq_error (stops : d.strictness = .error) (found : List Finding)
    (o : Occurrence) (rest : List Occurrence) (next : List Finding → List Finding) :
    d.tell found (o :: rest) next = d.add found (finding o) := by
  rw [tell, if_pos (by simpa using stops)]

theorem foldl_add_unlimited (strictness : Strictness) (keys : List Occurrence)
    (found : List Finding) :
    keys.foldl (fun found o => Demand.add ⟨strictness, none⟩ found (finding o)) found = found ++
      keys.map finding := by
  induction keys generalizing found with
  | nil => simp
  | cons o rest ih => rw [foldl_cons, ih, Demand.add, map_cons, append_assoc, singleton_append]

def upTo (limit : Nat) (keys : List Occurrence) : List Finding :=
  (keys.take limit).map finding ++ if limit ≤ keys.length then [truncation] else []

theorem length_upTo (limit : Nat) (keys : List Occurrence) :
    (upTo limit keys).length = if limit ≤ keys.length then limit + 1 else keys.length := by
  rw [upTo, length_append, length_map, length_take]
  split_ifs with reached
  · rw [Nat.min_eq_left reached, length_singleton]
  · rw [Nat.min_eq_right (by omega), length_nil, Nat.add_zero]

theorem add_upTo (keys : List Occurrence) (o : Occurrence) :
    Demand.add ⟨.warn, some limit⟩ (upTo limit keys) (finding o) = upTo limit (keys ++ [o]) := by
  have size := length_upTo limit keys
  by_cases reached : limit ≤ keys.length
  · rw [if_pos reached] at size
    have cut : (keys ++ [o]).take limit = keys.take limit := take_append_of_le_length reached
    have reached' : limit ≤ (keys ++ [o]).length := by rw [length_append]; omega
    simp only [Demand.add]
    rw [if_pos (by omega), upTo, upTo, cut, if_pos reached, if_pos reached']
  · rw [if_neg reached] at size
    have whole : keys.take limit = keys := take_of_length_le (by omega)
    have whole' : (keys ++ [o]).take limit = keys ++ [o] :=
      take_of_length_le (by rw [length_append, length_singleton]; omega)
    have listed : upTo limit keys = keys.map finding := by rw [upTo, if_neg reached, whole, append_nil]
    simp only [Demand.add]
    rw [if_neg (by omega), size, listed, upTo, whole', map_append, length_append, length_singleton]
    by_cases last : limit ≤ keys.length + 1
    · rw [if_pos last, if_pos (by simpa [finding, repeated] using last), append_assoc]
      rfl
    · rw [if_neg last, if_neg (by simpa [finding, repeated] using last), append_nil]
      rfl

theorem foldl_add_upTo (wanted : 0 < limit) (keys : List Occurrence) :
    keys.foldl (fun found o => Demand.add ⟨.warn, some limit⟩ found (finding o)) [] = upTo limit keys := by
  induction keys using reverseRecOn with
  | nil =>
    rw [upTo, length_nil, if_neg (Nat.not_le.mpr wanted), take_nil]
    rfl
  | append_singleton keys o ih => rw [foldl_append, ih, foldl_cons, foldl_nil, add_upTo]

theorem add_first (wanted : limit? ≠ some 0) (o : Occurrence) :
    Demand.add ⟨.error, limit?⟩ [] (finding o) = [finding o] := by
  cases limit? with
  | none => rfl
  | some limit =>
    have positive : ¬ (0 ≥ limit) := fun zero => wanted (by rw [Nat.le_zero.mp zero])
    simp only [Demand.add]
    rw [length_nil, if_neg positive, if_neg (by simp [finding, repeated])]
    rfl

theorem search_listing (t : Tree) : search ⟨.warn, none⟩ [] [] t.tokens = t.repeats.map finding := by
  rw [search_document, Demand.tell_of_ne_error (by decide), foldl_add_unlimited]
  rfl

theorem search_limited (t : Tree) (wanted : 0 < limit) :
    search ⟨.warn, some limit⟩ [] [] t.tokens = upTo limit t.repeats := by
  have lists : Strictness.warn ≠ .error := by decide
  rw [search_document, Demand.tell_of_ne_error lists, foldl_add_upTo wanted]
  rfl

theorem search_strict (t : Tree) (wanted : limit? ≠ some 0) :
    search ⟨.error, limit?⟩ [] [] t.tokens = (t.repeats.take 1).map finding := by
  rw [search_document]
  cases t.repeats with
  | nil => rfl
  | cons o rest => rw [Demand.tell_of_eq_error rfl, add_first wanted]; rfl

theorem find_eq_search (read : Tree.ofText? rules text = some t) {strictness : Strictness}
    (asked : strictness ≠ .ignore) (limit : Int) :
    find text strictness limit = search ⟨strictness, if limit < 0 then none else some limit.toNat⟩
      [] [] t.tokens := by
  rw [find, if_neg (by simpa using asked), tokens_of_ofText? read]

def refusal (o : Occurrence) : RepeatedKey := .inObject o.key (finding o).path

theorem ofJson_refuses_iff (read : Tree.ofText? rules text = some t) (r : RepeatedKey) :
    Schema.ofJson text = .error (.repeatedKey r) ↔ t.repeats.head?.map refusal = some r := by
  have first : find text .error 1 = (t.repeats.take 1).map finding :=
    (find_eq_search read (by decide) 1).trans (search_strict t (by decide))
  unfold Schema.ofJson
  rw [first]
  cases t.repeats with
  | nil =>
    simp only [take_nil, map_nil, head?_nil, map_none, reduceCtorEq, iff_false]
    cases Tree.ofText? .lenient text with
    | none => simp
    | some u => cases decoded : Schema.ofTree u <;> simp [decoded]
  | cons o rest =>
    simp only [take_succ_cons, take_zero, map_cons, map_nil, head?_cons, map_some, some.injEq]
    show Except.error (LoadError.repeatedKey (refusal o)) = _ ↔ _
    simp

theorem not_nodup_iff {keys : List String} :
    ¬ keys.Nodup ↔ ∃ before key after, keys = before ++ key :: after ∧ key ∈ before := by
  constructor
  · intro twice
    induction keys using reverseRecOn with
    | nil => exact absurd .nil twice
    | append_singleton keys last ih =>
      by_cases again : last ∈ keys
      · exact ⟨keys, last, [], rfl, again⟩
      · have earlier : ¬ keys.Nodup := fun once => twice (nodup_append.mpr ⟨once, nodup_singleton last, by
          intro a inside b single same
          rw [mem_singleton.mp single] at same
          exact again (same ▸ inside)⟩)
        obtain ⟨before, key, after, rfl, inside⟩ := ih earlier
        exact ⟨before, key, after ++ [last], by simp, inside⟩
  · rintro ⟨before, key, after, rfl, inside⟩ once
    exact (nodup_append.mp once).2.2 key inside key mem_cons_self rfl

theorem repeats_ne_nil_iff (t : Tree) :
    t.repeats ≠ [] ↔ ∃ address tokens members, t.at? address = some (tokens, .object members) ∧
      ¬ (members.map (·.1)).Nodup := by
  constructor
  · intro some
    obtain ⟨o, inside⟩ := exists_mem_of_ne_nil _ some
    obtain ⟨⟨tokens, members, after, found, -, split⟩, again⟩ := mem_repeats.mp inside
    exact ⟨o.address, tokens, members, found, not_nodup_iff.mpr ⟨o.before, o.key, after, split, again⟩⟩
  · rintro ⟨address, tokens, members, found, twice⟩
    obtain ⟨before, key, after, split, again⟩ := not_nodup_iff.mp twice
    have inside : ⟨address, pointerOf tokens, before, key⟩ ∈ t.repeats :=
      mem_repeats.mpr ⟨⟨tokens, members, after, found, rfl, split⟩, again⟩
    exact ne_nil_of_mem inside

/-- What the search finds in a document: the keys that occurred before in their object, each once
and in order; up to a limit, with a remark when it is reached; the first alone where the search is
strict. A text is refused for the first of them, and only then. -/
theorem search_finds_repeats (t : Tree) :
    ((∀ o, o ∈ t.repeats ↔ t.HasKey o ∧ o.key ∈ o.before) ∧ InOrder t.repeats) ∧
      search ⟨.warn, none⟩ [] [] t.tokens = t.repeats.map finding ∧
      (∀ limit, 0 < limit → search ⟨.warn, some limit⟩ [] [] t.tokens = (t.repeats.take limit).map
      finding ++ if limit ≤ t.repeats.length then [truncation] else []) ∧
      (∀ limit?, limit? ≠ some 0 → search ⟨.error, limit?⟩ [] [] t.tokens = (t.repeats.take 1).map
      finding) ∧ ∀ rules text, Tree.ofText? rules text = some t →
      (∀ strictness limit, strictness ≠ .ignore →
      find text strictness limit = search ⟨strictness, if limit < 0 then none else some limit.toNat⟩
      [] [] t.tokens) ∧ (∀ r, Schema.ofJson text = .error (.repeatedKey r) ↔
      t.repeats.head?.map refusal = some r) ∧
      ((∃ r, Schema.ofJson text = .error (.repeatedKey r)) ↔ ∃ address tokens members,
      t.at? address = some (tokens, .object members) ∧ ¬ (members.map (·.1)).Nodup) := by
  refine ⟨⟨fun o => mem_repeats, inOrder_repeats t⟩, search_listing t, fun limit =>
    search_limited t, fun limit? => search_strict t, ?_⟩
  intro rules text read
  refine ⟨fun strictness limit asked => find_eq_search read asked limit, ofJson_refuses_iff read, ?_⟩
  rw [← repeats_ne_nil_iff]
  simp only [ofJson_refuses_iff read]
  cases t.repeats with
  | nil => simp
  | cons o rest => simp

def echoText : String :=
  "\x7b\"a\": \x7b\"x\": 1, \"x\": 2\x7d, \"c/d\": [true, \x7b\"z\": null, \"z\": \"z\"\x7d]\x7d"

def echoTree : Tree :=
  .object [("a", "\x7b\"x\": 1, \"x\": 2\x7d", .object [("x", "1", .number "1"), ("x", "2", .number "2")]),
    ("c/d", "[true, \x7b\"z\": null, \"z\": \"z\"\x7d]",
      .array [.bool true, .object [("z", "null", .null), ("z", "\"z\"", .string "z")]])]

theorem search_finds_repeats_echo :
    Tree.ofText? .strict echoText = some echoTree ∧
      search ⟨.warn, none⟩ [] [] echoTree.tokens = [repeated "/a" "x", repeated "/c~1d/1" "z"] ∧
      search ⟨.warn, some 1⟩ [] [] echoTree.tokens = [repeated "/a" "x", truncation] ∧
      search ⟨.error, some 1⟩ [] [] echoTree.tokens = [repeated "/a" "x"] ∧
      Schema.ofJson echoText = .error (.repeatedKey (.inObject "x" "/a")) := by
  have read : Tree.ofText? .strict echoText = some echoTree := by cbv
  have keys : echoTree.repeats = [⟨[0], "/a", ["x"], "x"⟩, ⟨[1, 1], "/c~1d/1", ["z"], "z"⟩] := by
    decide +kernel
  obtain ⟨-, listed, limited, strict, texts⟩ := search_finds_repeats echoTree
  obtain ⟨-, refused, -⟩ := texts .strict echoText read
  refine ⟨read, ?_, ?_, ?_, ?_⟩
  · rw [listed, keys]
    rfl
  · rw [limited 1 (by decide), keys]
    rfl
  · rw [strict (some 1) (by decide), keys]
    rfl
  · rw [refused, keys]
    rfl

end JsonShape.Duplicate
