import JsonShape.Json.Token
import Mathlib.Data.List.Basic

/-! The tokens of a tree. Reading a text as a tree and scanning it for tokens see the same document:
the tokens of a text that holds a tree are the tokens of the tree. -/
namespace JsonShape.Json
open Text List Option

variable {cs rest s : List Char} {c : Char} {rules : Rules} {budget : Nat}
  {value : List Char → Option (Tree × List Char)} {t : Tree}

mutual
def Tree.tokens : Tree → List Token
  | .null | .bool _ | .number _ => [.scalar]
  | .string s => [.string s]
  | .array items => .openArray :: (itemTokens items ++ [.close])
  | .object members => .openObject :: (memberTokens members ++ [.close])

def itemTokens : List Tree → List Token
  | [] => []
  | t :: rest => t.tokens ++ itemTokens rest

def memberTokens : List (String × String × Tree) → List Token
  | [] => []
  | (key, _, t) :: rest => .string key :: (t.tokens ++ memberTokens rest)
end

def readChar? (rules : Rules) : List Char → Option (Char × List Char)
  | [] => none
  | c :: rest =>
    if c == '\\' then
      match rest with
      | 'u' :: more => unicodeEscape? more
      | e :: more => (shortEscape? e).map fun d => (d, more)
      | [] => none
    else if rules.character c then some (c, rest) else none

theorem readString?_cons (rules : Rules) (budget : Nat) (c : Char) (rest : List Char) :
    readString? rules (budget + 1) (c :: rest) = if c == '\"' then
      some ([], rest) else (readChar? rules (c :: rest)).bind fun r =>
      (readString? rules budget r.2).map fun q => (r.1 :: q.1, q.2) := by
  have pure : ∀ {d : Char} (o : Option (List Char × List Char)),
      (o.bind fun q => some (d :: q.1, q.2)) = o.map fun q => (d :: q.1, q.2) := by
    intro d o
    cases o <;> rfl
  rw [readString?.eq_def]
  simp only [readChar?, bind_eq_bind]
  by_cases quoted : c == '\"'
  · rw [if_pos quoted, if_pos quoted]
  rw [if_neg quoted, if_neg quoted]
  by_cases escaped : c == '\\'
  · rw [if_pos escaped, if_pos escaped]
    split
    · simp only [pure]
    · simp only [pure, bind_map]
      rfl
    · rfl
  · rw [if_neg escaped, if_neg escaped]
    by_cases plain : rules.character c
    · rw [if_pos plain, if_pos plain, pure]
      rfl
    · rw [if_neg plain, if_neg plain]
      rfl

theorem fourHex?_length {n : Nat} (read : fourHex? cs = some (n, rest)) : rest.length ≤ cs.length := by
  unfold fourHex? at read
  split at read
  · simp only [bind_eq_bind, bind_eq_some_iff, some.injEq, Prod.mk.injEq] at read
    obtain ⟨_, _, _, _, _, _, _, _, _, rfl⟩ := read
    simp only [length_cons]
    omega
  · cases read

theorem unicodeEscape?_length (read : unicodeEscape? cs = some (c, rest)) : rest.length ≤ cs.length := by
  simp only [unicodeEscape?, bind_eq_bind, bind_eq_some_iff] at read
  obtain ⟨⟨n, after⟩, first, read⟩ := read
  have bound := fourHex?_length first
  have same : ∀ {d : Char}, some (d, after) = some (c, rest) → rest.length ≤ cs.length := by
    intro d equal
    simp only [some.injEq, Prod.mk.injEq] at equal
    exact equal.2 ▸ bound
  simp only at read
  split_ifs at read
  · exact same read
  · exact same read
  · split at read
    · split at read
      · rename_i low last second
        have bound' := fourHex?_length second
        split_ifs at read
        · simp only [some.injEq, Prod.mk.injEq] at read
          simp only [length_cons] at bound
          rw [← read.2]
          omega
        · exact same read
      · exact same read
    · exact same read

theorem readChar?_length (read : readChar? rules cs = some (c, rest)) : rest.length < cs.length := by
  unfold readChar? at read
  split at read
  · cases read
  · split_ifs at read
    · split at read
      · have bound := unicodeEscape?_length read
        simp only [length_cons]
        omega
      · simp only [map_eq_some_iff, Prod.mk.injEq] at read
        obtain ⟨_, _, _, rfl⟩ := read
        simp only [length_cons]
        omega
      · cases read
    · simp only [some.injEq, Prod.mk.injEq] at read
      simp only [← read.2, length_cons, Nat.lt_succ_self]

theorem readChar?_lenient (read : readChar? rules cs = some (c, rest)) :
    readChar? .lenient cs = some (c, rest) := by
  cases cs with
  | nil => cases read
  | cons d cs =>
    simp only [readChar?] at read ⊢
    split_ifs at read ⊢ with escaped plain
    · exact read
    · exact read
    · exact absurd rfl ‹_›

theorem readString?_lenient (read : readString? rules budget cs = some (s, rest)) :
    readString? .lenient budget cs = some (s, rest) ∧ rest.length < cs.length := by
  induction budget generalizing cs s rest with
  | zero => cases read
  | succ budget ih =>
    cases cs with
    | nil => cases read
    | cons c cs =>
      rw [readString?_cons] at read ⊢
      by_cases quoted : c == '\"'
      · rw [if_pos quoted] at read ⊢
        simp only [some.injEq, Prod.mk.injEq] at read
        simp [read]
      · rw [if_neg quoted] at read ⊢
        obtain ⟨⟨d, after⟩, first, read⟩ := bind_eq_some_iff.mp read
        obtain ⟨⟨ds, last⟩, more, equal⟩ := map_eq_some_iff.mp read
        simp only [Prod.mk.injEq] at equal
        obtain ⟨rfl, rfl⟩ := equal
        obtain ⟨later, shorter⟩ := ih more
        rw [readChar?_lenient first, bind_some, later]
        exact ⟨rfl, Nat.lt_trans shorter (readChar?_length first)⟩

theorem dropStart?_length {word : List Char} (found : dropStart? word cs = some rest) :
    rest.length + word.length = cs.length := by
  induction word generalizing cs with
  | nil => rw [← some.inj found, length_nil, Nat.add_zero]
  | cons p ps ih =>
    cases cs with
    | nil => cases found
    | cons c cs =>
      rw [dropStart?] at found
      split_ifs at found
      have bound := ih found
      simp only [length_cons]
      omega

def dropConstant? (cs : List Char) : Option (List Char) :=
  (dropWord? "true" cs).or ((dropWord? "false" cs).or (dropWord? "null" cs))

theorem dropConstant?_length (found : dropConstant? cs = some rest) : rest.length < cs.length := by
  simp only [dropConstant?, dropWord?, or_eq_some_iff] at found
  rcases found with found | ⟨-, found | ⟨-, found⟩⟩ <;>
  · have bound := dropStart?_length found
    simp at bound
    omega

def scanStep (scanRest : List Char → List Token) (c : Char) (rest : List Char) : List Token :=
  if isSpace c || c == ',' || c == ':' then scanRest rest
  else if c == '\x7b' then .openObject :: scanRest rest
  else if c == '[' then .openArray :: scanRest rest
  else if c == '\x7d' || c == ']' then .close :: scanRest rest
  else if c == '\"' then
    match readString? .lenient (rest.length + 1) rest with
    | some (s, rest) => .string (String.ofList s) :: scanRest rest
    | none => [.broken]
  else if startsNumber c then .scalar :: scanRest (rest.dropWhile isNumberChar)
  else if c.toNat == 0 then []
  else
    match dropConstant? (c :: rest) with
    | some rest => .scalar :: scanRest rest
    | none => [.broken]

theorem scan_cons (budget : Nat) (c : Char) (rest : List Char) :
    scan (budget + 1) (c :: rest) = scanStep (scan budget) c rest := rfl

theorem scanStep_congr {f g : List Char → List Token}
    (same : ∀ cs : List Char, cs.length ≤ rest.length → f cs = g cs) :
    scanStep f c rest = scanStep g c rest := by
  unfold scanStep
  rw [same rest (Nat.le_refl _), same _ (dropWhile_suffix _).length_le]
  have strings : ∀ s after, readString? .lenient (rest.length + 1) rest = some (s, after) →
      f after = g after :=
    fun s after read => same after (Nat.le_of_lt (readString?_lenient read).2)
  have words : ∀ after, dropConstant? (c :: rest) = some after → f after = g after :=
    fun after found => same after (Nat.le_of_lt_succ (dropConstant?_length found))
  cases read : readString? .lenient (rest.length + 1) rest with
  | none =>
    cases found : dropConstant? (c :: rest) with
    | none => rfl
    | some after => simp only [words after found]
  | some r =>
    cases found : dropConstant? (c :: rest) with
    | none => simp only [strings r.1 r.2 read]
    | some after => simp only [strings r.1 r.2 read, words after found]

theorem scan_budget {budget' : Nat} (enough : cs.length ≤ budget) (enough' : cs.length ≤ budget') :
    scan budget cs = scan budget' cs := by
  induction budget generalizing budget' cs with
  | zero =>
    rw [length_eq_zero_iff.mp (Nat.le_zero.mp enough)]
    cases budget' <;> rfl
  | succ budget ih =>
    cases cs with
    | nil => cases budget' <;> rfl
    | cons c rest =>
      simp only [length_cons] at enough enough'
      cases budget' with
      | zero => omega
      | succ budget' =>
        rw [scan_cons, scan_cons]
        exact scanStep_congr fun after shorter => ih (by omega) (by omega)

def tokensOf (cs : List Char) : List Token := scan cs.length cs

theorem tokensOf_nil : tokensOf [] = [] := rfl

theorem tokensOf_cons (c : Char) (rest : List Char) : tokensOf (c :: rest) = scanStep tokensOf c rest := by
  rw [tokensOf, length_cons, scan_cons]
  exact scanStep_congr fun after shorter => scan_budget shorter (Nat.le_refl _)

theorem tokensOf_skip (skipped : isSpace c || c == ',' || c == ':') (rest : List Char) :
    tokensOf (c :: rest) = tokensOf rest := by
  rw [tokensOf_cons, scanStep, if_pos skipped]

theorem tokensOf_skipSpaces (cs : List Char) : tokensOf (skipSpaces cs) = tokensOf cs := by
  induction cs with
  | nil => rfl
  | cons c rest ih =>
    rw [skipSpaces, dropWhile_cons]
    split_ifs with space
    · rw [tokensOf_skip (by simp [space]), ← ih]
      rfl
    · rfl

/-- A reader of values that sees the tokens of what it reads. -/
def SeesTokens (value : List Char → Option (Tree × List Char)) : Prop :=
  ∀ {cs rest : List Char} {t : Tree}, value cs = some (t, rest) → tokensOf cs = t.tokens ++ tokensOf rest

theorem tokensOf_readString? {after : List Char}
    (read : readString? rules (rest.length + 1) rest = some (s, after)) :
    tokensOf ('\"' :: rest) = .string (String.ofList s) :: tokensOf after := by
  rw [tokensOf_cons]
  simp [scanStep, isSpace, (readString?_lenient read).1]

theorem tokensOf_readItems? (sees : SeesTokens value) {items : List Tree}
    (read : readItems? value budget cs = some (items, rest)) :
    tokensOf cs = itemTokens items ++ .close :: tokensOf rest := by
  induction budget generalizing cs items with
  | zero => cases read
  | succ budget ih =>
    rw [readItems?] at read
    obtain ⟨⟨item, after⟩, first, read⟩ := bind_eq_some_iff.mp read
    rw [sees first, ← tokensOf_skipSpaces after]
    simp only at read
    split at read
    · rename_i more next
      obtain ⟨⟨others, last⟩, later, equal⟩ := bind_eq_some_iff.mp read
      cases equal
      rw [next, tokensOf_skip rfl, ih later, itemTokens, append_assoc]
    · rename_i more next
      cases read
      rw [next, tokensOf_cons, itemTokens, itemTokens, append_nil]
      rfl
    · cases read

theorem tokensOf_readMembers? (sees : SeesTokens value) {members : List (String × String × Tree)}
    (read : readMembers? rules value budget cs = some (members, rest)) :
    tokensOf cs = memberTokens members ++ .close :: tokensOf rest := by
  induction budget generalizing cs members with
  | zero => cases read
  | succ budget ih =>
    rw [readMembers?] at read
    rw [← tokensOf_skipSpaces cs]
    split at read
    · rename_i quoted start
      obtain ⟨⟨key, colon⟩, named, read⟩ := bind_eq_some_iff.mp read
      rw [start, tokensOf_readString? named, ← tokensOf_skipSpaces colon]
      simp only at read
      split at read
      · rename_i source marked
        obtain ⟨⟨item, after⟩, first, read⟩ := bind_eq_some_iff.mp read
        rw [marked, tokensOf_skip rfl, ← tokensOf_skipSpaces source, sees first,
          ← tokensOf_skipSpaces after]
        simp only at read
        split at read
        · rename_i more next
          obtain ⟨⟨others, last⟩, later, equal⟩ := bind_eq_some_iff.mp read
          cases equal
          rw [next, tokensOf_skip rfl, ih later, memberTokens, cons_append, append_assoc]
        · rename_i more next
          cases read
          rw [next, tokensOf_cons, memberTokens, memberTokens, append_nil]
          rfl
        · cases read
      · cases read
    · cases read

theorem tokensOf_number (starts : startsNumber c) (rest : List Char) :
    tokensOf (c :: rest) = .scalar :: tokensOf (rest.dropWhile isNumberChar) := by
  have other : ∀ d : Char, startsNumber d = false → (c == d) = false := by
    intro d stops
    refine beq_eq_false_iff_ne.mpr fun same => ?_
    rw [same, stops] at starts
    cases starts
  rw [tokensOf_cons, scanStep, isSpace, other ' ' rfl, other '\n' rfl, other '\t' rfl,
    other '\r' rfl, other ',' rfl, other ':' rfl,
    other '\x7b' rfl, other '[' rfl, other '\x7d' rfl, other ']' rfl, other '\"' rfl, if_pos starts]
  rfl

theorem tokensOf_constant (found : dropConstant? cs = some rest) :
    tokensOf cs = .scalar :: tokensOf rest := by
  have letter : ∀ {word : String} {c : Char} {more : List Char}, word.toList = c :: more →
      dropStart? word.toList cs = some rest →
      ∃ others, cs = c :: others := by
    intro word c more spelled found
    rw [spelled] at found
    cases cs with
    | nil => cases found
    | cons d others =>
      rw [dropStart?] at found
      split_ifs at found with same
      exact ⟨others, by rw [eq_of_beq same]⟩
  have one : ∃ c others, cs = c :: others ∧ (c = 't' ∨ c = 'f' ∨ c = 'n') := by
    have words := found
    simp only [dropConstant?, dropWord?, or_eq_some_iff] at words
    rcases words with words | ⟨-, words | ⟨-, words⟩⟩
    · obtain ⟨others, rfl⟩ := letter (c := 't') rfl words
      exact ⟨'t', others, rfl, .inl rfl⟩
    · obtain ⟨others, rfl⟩ := letter (c := 'f') rfl words
      exact ⟨'f', others, rfl, .inr (.inl rfl)⟩
    · obtain ⟨others, rfl⟩ := letter (c := 'n') rfl words
      exact ⟨'n', others, rfl, .inr (.inr rfl)⟩
  obtain ⟨c, others, rfl, first⟩ := one
  rw [tokensOf_cons]
  rcases first with rfl | rfl | rfl <;> simp [scanStep, isSpace, startsNumber, isDigit, found]

/-- How a value is read from characters of which the first is no space: by the kind of tree and what
is left. -/
inductive ValueRead (rules : Rules) (budget : Nat) : List Char → Tree → List Char → Prop
  | emptyObject {inner rest : List Char} (closed : skipSpaces inner = '\x7d' :: rest) :
    ValueRead rules budget ('\x7b' :: inner) (.object []) rest
  | object {inner rest : List Char} {members : List (String × String × Tree)}
    (inside : readMembers? rules (readValue? rules budget) ((skipSpaces inner).length + 1)
    (skipSpaces inner) = some (members, rest)) :
    ValueRead rules budget ('\x7b' :: inner) (.object members) rest
  | emptyArray {inner rest : List Char} (closed : skipSpaces inner = ']' :: rest) :
      ValueRead rules budget ('[' :: inner) (.array []) rest
  | array {inner rest : List Char} {items : List Tree}
    (inside : readItems? (readValue? rules budget) ((skipSpaces inner).length + 1)
    (skipSpaces inner) = some (items, rest)) :
    ValueRead rules budget ('[' :: inner) (.array items) rest
  | string {inner rest s : List Char}
      (inside : readString? rules (inner.length + 1) inner = some (s, rest)) :
    ValueRead rules budget ('\"' :: inner) (.string (String.ofList s)) rest
  | number {c : Char} {inner : List Char} (starts : startsNumber c) :
    ValueRead rules budget (c :: inner)
    (.number (String.ofList (c :: inner.takeWhile isNumberChar))) (inner.dropWhile isNumberChar)
  | bool {cs rest : List Char} {b : Bool} (found : dropConstant? cs = some rest) :
      ValueRead rules budget cs (.bool b) rest
  | null {cs rest : List Char} (found : dropConstant? cs = some rest) :
      ValueRead rules budget cs .null rest

theorem valueRead_of_readValue? (read : readValue? rules (budget + 1) cs = some (t, rest)) :
    ValueRead rules budget (skipSpaces cs) t rest := by
  rw [readValue?] at read
  split at read
  · cases read
  · rename_i inner start
    rw [start]
    split at read
    · rename_i closed
      cases read
      exact .emptyObject closed
    · obtain ⟨⟨members, last⟩, inside, equal⟩ := bind_eq_some_iff.mp read
      cases equal
      exact .object inside
  · rename_i inner start
    rw [start]
    split at read
    · rename_i closed
      cases read
      exact .emptyArray closed
    · obtain ⟨⟨items, last⟩, inside, equal⟩ := bind_eq_some_iff.mp read
      cases equal
      exact .array inside
  · rename_i inner start
    rw [start]
    obtain ⟨⟨s, last⟩, inside, equal⟩ := bind_eq_some_iff.mp read
    cases equal
    exact .string inside
  · rename_i c inner _ _ _ start
    rw [start]
    by_cases starts : startsNumber c
    · rw [if_pos starts] at read
      simp only at read
      split_ifs at read
      cases read
      exact .number starts
    · rw [if_neg starts] at read
      split at read
      · rename_i found
        cases read
        exact .bool (by rw [dropConstant?, dropWord?, found]; rfl)
      · rename_i missed
        split at read
        · rename_i found
          cases read
          exact .bool (by rw [dropConstant?, dropWord?, missed, dropWord?, found]; rfl)
        · rename_i missed'
          obtain ⟨more, found, equal⟩ := map_eq_some_iff.mp read
          simp only [Prod.mk.injEq] at equal
          obtain ⟨rfl, rfl⟩ := equal
          exact .null (by rw [dropConstant?, dropWord?, missed, dropWord?, missed', dropWord?, found]; rfl)

theorem seesTokens_readValue? (rules : Rules) (budget : Nat) : SeesTokens (readValue? rules budget) := by
  induction budget with
  | zero =>
    intro cs rest t read
    cases read
  | succ budget ih =>
    intro cs rest t read
    have opened : ∀ inner : List Char, tokensOf ('\x7b' :: inner) = .openObject :: tokensOf
        (skipSpaces inner) := by
      intro inner
      rw [tokensOf_cons, tokensOf_skipSpaces]
      rfl
    have opened' : ∀ inner : List Char, tokensOf ('[' :: inner) = .openArray :: tokensOf
        (skipSpaces inner) := by
      intro inner
      rw [tokensOf_cons, tokensOf_skipSpaces]
      rfl
    have kind := valueRead_of_readValue? read
    rw [← tokensOf_skipSpaces cs]
    generalize skipSpaces cs = start at kind ⊢
    cases kind with
    | emptyObject closed =>
      rw [opened, closed, tokensOf_cons]
      rfl
    | object inside =>
      rw [opened, tokensOf_readMembers? ih inside, Tree.tokens]
      simp
    | emptyArray closed =>
      rw [opened', closed, tokensOf_cons]
      rfl
    | array inside =>
      rw [opened', tokensOf_readItems? ih inside, Tree.tokens]
      simp
    | string inside =>
      rw [tokensOf_readString? inside]
      rfl
    | number starts =>
      rw [tokensOf_number starts]
      rfl
    | bool found =>
      rw [tokensOf_constant found]
      rfl
    | null found =>
      rw [tokensOf_constant found]
      rfl

theorem tokens_of_ofText? {text : String} (read : Tree.ofText? rules text = some t) :
    Json.tokens text = t.tokens := by
  obtain ⟨⟨found, rest⟩, inside, read⟩ := bind_eq_some_iff.mp read
  simp only at read
  split_ifs at read with blank
  rw [some.inj read] at inside
  have none : tokensOf rest = [] := by
    rw [← tokensOf_skipSpaces, isEmpty_iff.mp blank, tokensOf_nil]
  have all := seesTokens_readValue? rules _ inside
  rw [none, append_nil] at all
  exact all

end JsonShape.Json
