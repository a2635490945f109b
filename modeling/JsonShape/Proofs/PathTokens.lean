import JsonShape.Proofs.Outline
import JsonShape.Proofs.Pointer

/-! Paths as pointers. The tokens of a path can be read off its pointer, unless some of them are
empty; and from the tokens of steps the steps are read. -/
namespace JsonShape
open List Text.Pointer

variable {step : Step} {tokens : List String}

namespace Text

theorem splitAt_eq_splitOn (separator : Char) (cs : List Char) :
    splitAt separator cs = cs.splitOn separator := by
  induction cs with
  | nil => rfl
  | cons c rest ih =>
    rw [splitAt, ih]
    unfold splitOn
    rw [splitOnP_cons_eq_if_modifyHead]
    split_ifs
    · rfl
    · cases pieces : splitOnP (· == separator) rest with
      | nil => exact absurd pieces (splitOnP_ne_nil _ _)
      | cons piece pieces => rfl

theorem separator_not_mem_splitAt {separator : Char} {cs piece : List Char}
    (member : piece ∈ splitAt separator cs) : separator ∉ piece := by
  induction cs generalizing piece with
  | nil =>
    rw [mem_singleton.mp member]
    exact not_mem_nil
  | cons c rest ih =>
    rw [splitAt] at member
    split_ifs at member with same
    · rcases mem_cons.mp member with rfl | member
      · exact not_mem_nil
      · exact ih member
    · have other : separator ≠ c := fun equal => same (by simp [equal])
      cases pieces : splitAt separator rest with
      | nil =>
        rw [pieces] at member
        rw [mem_singleton.mp member]
        simpa using other
      | cons first more =>
        rw [pieces] at member ih
        rcases mem_cons.mp member with rfl | member
        · simpa [other] using ih mem_cons_self
        · exact ih (mem_cons_of_mem _ member)

theorem slash_not_mem_split {text piece : String} (member : piece ∈ split '/' text) :
    '/' ∉ piece.toList := by
  obtain ⟨cs, inside, rfl⟩ := mem_map.mp member
  rw [String.toList_ofList]
  exact separator_not_mem_splitAt inside

def Tokens (tokens : List String) : Prop := ∀ token ∈ tokens, token ≠ "" ∧ '/' ∉ token.toList

theorem tokens_nil : Tokens [] := fun _ member => absurd member not_mem_nil

theorem split_intercalate (plain : ∀ token ∈ tokens, '/' ∉ token.toList) (some : tokens ≠ []) :
    split '/' ("/".intercalate tokens) = tokens := by
  have pieces : splitAt '/' ("/".intercalate tokens).toList = tokens.map String.toList := by
    rw [splitAt_eq_splitOn, String.toList_intercalate]
    refine splitOn_intercalate '/' ?_ (by simpa using some)
    intro cs member
    obtain ⟨token, inside, rfl⟩ := mem_map.mp member
    exact plain token inside
  rw [split, pieces, map_map]
  simp

end Text

namespace Path

def way (p : Path) : String := if p.tokens = [] then "" else p.pointer

theorem field_ref_pointer (p : Path) : (p.field "$ref").pointer = p.way ++ "/$ref" := by
  have escaped : escape "$ref" = "$ref" := by decide
  unfold field way pointer
  rw [if_neg (by decide), escaped]
  split_ifs with root
  · rw [root]
    rfl
  · rw [String.intercalate_append_of_ne_nil root (by simp), String.intercalate_singleton,
      String.append_assoc, String.append_assoc]
    rfl

end Path

namespace Step

theorem ofPointer?_slash {rest : List Char} (longer : rest ≠ []) :
    ofPointer? (String.ofList ('/' :: rest)) = ofTokens? (Text.split '/' (String.ofList rest)) := by
  rw [ofPointer?, if_neg (by simp [longer]), String.toList_ofList]
  rfl

theorem ofPointer?_way {p : Path} (plain : Text.Tokens p.tokens) :
    ofPointer? p.way = ofTokens? p.tokens := by
  unfold Path.way
  split_ifs with root
  · rw [root]
    rfl
  · have pieces := Text.split_intercalate (fun token member => (plain token member).2) root
    have written : ("/".intercalate p.tokens).toList ≠ [] := by
      intro empty
      rw [String.toList_eq_nil_iff.mp empty] at pieces
      exact (plain "" (pieces ▸ mem_cons_self)).1 rfl
    have chars : p.pointer.toList = '/' :: ("/".intercalate p.tokens).toList := String.toList_append
    rw [← String.ofList_toList (s := p.pointer), chars, ofPointer?_slash written,
      String.ofList_toList, pieces]

theorem ofTokens?_cons (token : String) (rest : List String) : ofTokens? (token :: rest) =
    if unescape token == "items" then (ofTokens? rest).map (items :: ·)
    else if unescape token == "additionalProperties" then (ofTokens? rest).map (additionalProperties :: ·)
    else match rest with
      | [] => none
      | argument :: rest => (ofArgument? (unescape token) (unescape argument)).bind fun step =>
          (ofTokens? rest).bind fun steps => some (step :: steps) := by
  cases rest <;> rfl

theorem ofTokens?_append {steps : List Step} (read : ofTokens? tokens = some steps) (more : List String) :
    ofTokens? (tokens ++ more) = (ofTokens? more).map (steps ++ ·) := by
  induction size : tokens.length using Nat.strong_induction_on generalizing tokens steps with
  | h n ih =>
    cases tokens with
    | nil =>
      cases read
      simp
    | cons token rest =>
      rw [ofTokens?_cons] at read
      rw [cons_append, ofTokens?_cons]
      split_ifs at read ⊢
      · obtain ⟨later, found, rfl⟩ := Option.map_eq_some_iff.mp read
        rw [ih rest.length (by simp only [← size, length_cons]; omega) found rfl, Option.map_map]
        rfl
      · obtain ⟨later, found, rfl⟩ := Option.map_eq_some_iff.mp read
        rw [ih rest.length (by simp only [← size, length_cons]; omega) found rfl, Option.map_map]
        rfl
      · cases rest with
        | nil => cases read
        | cons argument rest =>
          obtain ⟨step, known, read⟩ := Option.bind_eq_some_iff.mp read
          obtain ⟨later, found, ended⟩ := Option.bind_eq_some_iff.mp read
          cases ended
          dsimp only [cons_append]
          rw [known, ih rest.length (by simp only [← size, length_cons]; omega) found rfl,
            Option.bind_some, Option.bind_map]
          cases ofTokens? more <;> rfl

def Named : Step → Prop
  | property name => name ≠ ""
  | defs name => name ≠ ""
  | definitions name => name ≠ ""
  | _ => True

theorem digits_toString (index : Nat) :
    (toString index).toList = Nat.toDigits 10 index ∧ ∀ c ∈ Nat.toDigits 10 index,
      Text.isDigit c = true :=
  ⟨by rw [Nat.toString_eq_ofList_toDigits, String.toList_ofList],
    fun _ member => Nat.isDigit_of_mem_toDigits (by decide) (by decide) member⟩

theorem escape_toString (index : Nat) : escape (toString index) = toString index := by
  obtain ⟨chars, digits⟩ := digits_toString index
  have kept : ∀ cs : List Char, (∀ c ∈ cs, Text.isDigit c = true) → cs.flatMap escapeChar = cs := by
    intro cs digits
    induction cs with
    | nil => rfl
    | cons c rest ih =>
      have digit := digits c mem_cons_self
      have tilde : c ≠ '~' := fun equal => absurd (equal ▸ digit) (by decide)
      have slash : c ≠ '/' := fun equal => absurd (equal ▸ digit) (by decide)
      rw [flatMap_cons, ih (forall_mem_cons.mp digits).2]
      simp [escapeChar, tilde, slash]
  rw [escape, chars, kept _ digits, ← chars, String.ofList_toList]

theorem index?_toString (index : Nat) : index? (toString index) = some index := by
  obtain ⟨chars, digits⟩ := digits_toString index
  have value : Text.natOfDigits (Nat.toDigits 10 index) = index :=
    Nat.ofDigitChars_toDigits (by decide) (by decide)
  have all : (Nat.toDigits 10 index).all Text.isDigit = true := all_eq_true.mpr digits
  unfold index?
  rw [chars]
  cases first : Nat.toDigits 10 index with
  | nil => exact absurd first Nat.toDigits_ne_nil
  | cons c rest =>
    have digit := digits c (first ▸ mem_cons_self)
    have minus : c ≠ '-' := fun equal => absurd (equal ▸ digit) (by decide)
    have plus : c ≠ '+' := fun equal => absurd (equal ▸ digit) (by decide)
    rw [first] at value all
    split
    rename_i negative cs parts
    -- neither sign stands before the digits
    split at parts
    · rename_i equal
      exact absurd (cons.inj equal).1 minus
    · rename_i equal
      exact absurd (cons.inj equal).1 plus
    · cases parts
      simp [all, value]

theorem escape_ne_empty {name : String} (named : name ≠ "") : escape name ≠ "" := by
  intro empty
  have back := unescape_escape name
  rw [empty] at back
  exact named (back.symm.trans (by decide))

theorem of_mem_tokens {token : String} (member : token ∈ step.tokens) :
    (step.Named → token ≠ "") ∧ '/' ∉ token.toList := by
  have argument (name : String) : (name ≠ "" → escape name ≠ "") ∧ '/' ∉ (escape name).toList :=
    ⟨escape_ne_empty, slash_not_mem_escape name⟩
  have number (index : Nat) : (True → toString index ≠ "") ∧ '/' ∉ (toString index).toList := by
    rw [← escape_toString]
    refine ⟨fun _ => (argument _).1 fun empty => ?_, (argument _).2⟩
    have read := index?_toString index
    rw [empty] at read
    cases read
  have two {named : Prop} {keyword argument : String}
      (first : (named → keyword ≠ "") ∧ '/' ∉ keyword.toList)
      (second : (named → argument ≠ "") ∧ '/' ∉ argument.toList) (member : token ∈ [keyword, argument]) :
      (named → token ≠ "") ∧ '/' ∉ token.toList := by
    rcases mem_pair.mp member with rfl | rfl
    · exact first
    · exact second
  cases step with
  | property name => exact two (by simp) (argument name) member
  | defs name => exact two (by simp) (argument name) member
  | definitions name => exact two (by simp) (argument name) member
  | anyOf index => exact two (by simp) (number index) member
  | oneOf index => exact two (by simp) (number index) member
  | allOf index => exact two (by simp) (number index) member
  | items => exact mem_singleton.mp member ▸ (by simp)
  | additionalProperties => exact mem_singleton.mp member ▸ (by simp)

theorem tokens_plain (named : step.Named) : Text.Tokens step.tokens :=
  fun _ member => ⟨(of_mem_tokens member).1 named, (of_mem_tokens member).2⟩

theorem ofTokens?_tokens (step : Step) : ofTokens? step.tokens = some [step] := by
  have number : ∀ index : Nat, unescape (toString index) = toString index := by
    intro index
    rw [← escape_toString index, unescape_escape, escape_toString]
  have two : ∀ {keyword argument : String}, (keyword == "items") = false →
      (keyword == "additionalProperties") = false →
      unescape keyword = keyword → ofArgument? keyword (unescape argument) = some step →
      ofTokens? [keyword, argument] = some [step] := by
    intro keyword argument notItems notExtra plain read
    rw [ofTokens?_cons, plain, notItems, notExtra]
    dsimp only
    rw [read]
    rfl
  cases step with
  | property name => exact two (by decide) (by decide) (by decide) (by rw [unescape_escape]; rfl)
  | defs name => exact two (by decide) (by decide) (by decide) (by rw [unescape_escape]; rfl)
  | definitions name => exact two (by decide) (by decide) (by decide) (by rw [unescape_escape]; rfl)
  | anyOf index =>
    exact two (by decide) (by decide) (by decide)
      (by rw [number, ofArgument?, index?_toString]; rfl)
  | oneOf index =>
    exact two (by decide) (by decide) (by decide)
      (by rw [number, ofArgument?, index?_toString]; rfl)
  | allOf index =>
    exact two (by decide) (by decide) (by decide)
      (by rw [number, ofArgument?, index?_toString]; rfl)
  | items => rfl
  | additionalProperties => rfl

end Step

theorem Path.step_tokens (p : Path) (named : step.Named) :
    (p.step step).tokens = p.tokens ++ step.tokens := by
  have field : ∀ (q : Path) {name : String}, name ≠ "" →
      (q.field name).tokens = q.tokens ++ [escape name] := by
    intro q name named
    rw [Path.field, if_neg (by simpa using named)]
  have keyword : ∀ (q : Path) {name : String}, name ≠ "" → escape name = name →
      (q.field name).tokens = q.tokens ++ [name] := by
    intro q name named plain
    rw [field q named, plain]
  cases step with
  | property name =>
    exact (field _ named).trans (by rw [keyword p (by decide) (by decide), append_assoc]; rfl)
  | defs name => exact (field _ named).trans (by rw [keyword p (by decide) (by decide), append_assoc]; rfl)
  | definitions name =>
    exact (field _ named).trans (by rw [keyword p (by decide) (by decide), append_assoc]; rfl)
  | anyOf index =>
    exact congrArg (· ++ [toString index]) (keyword p (by decide) (by decide)) |>.trans
      (append_assoc ..)
  | oneOf index =>
    exact congrArg (· ++ [toString index]) (keyword p (by decide) (by decide)) |>.trans
      (append_assoc ..)
  | allOf index =>
    exact congrArg (· ++ [toString index]) (keyword p (by decide) (by decide)) |>.trans
      (append_assoc ..)
  | items => exact keyword p (by decide) (by decide)
  | additionalProperties => exact keyword p (by decide) (by decide)

end JsonShape
