import JsonShape.Proofs.Table
import Mathlib.Data.List.Basic

/-! Reference tokens: reading a written token gives the token back, and a written token has no
slash. So a pointer to a definition of the innermost resource leads to it. -/
namespace JsonShape.Text.Pointer
open List

theorem slash_not_mem_escapeChar (c : Char) : '/' ∉ escapeChar c := by
  unfold escapeChar
  split_ifs with tilde slash
  · decide
  · decide
  · exact fun member => slash (beq_iff_eq.mpr (mem_singleton.mp member).symm)

theorem slash_not_mem_escape (token : String) : '/' ∉ (escape token).toList := by
  rw [escape, String.toList_ofList, mem_flatMap]
  rintro ⟨c, -, member⟩
  exact slash_not_mem_escapeChar c member

def halfEscapeChar (c : Char) : List Char := if c == '~' then ['~', '0'] else [c]

theorem replaceAll_other {old new rest : List Char} {c : Char} (budget : Nat)
    (other : dropStart? old (c :: rest) = none) :
    replaceAll old new (budget + 1) (c :: rest) = c :: replaceAll old new budget rest := by
  rw [replaceAll, other]

theorem replaceAll_slash (cs : List Char) (extra : Nat) :
    replaceAll ['~', '1'] ['/'] ((cs.flatMap escapeChar).length + extra) (cs.flatMap escapeChar) =
      cs.flatMap halfEscapeChar := by
  induction cs generalizing extra with
  | nil => cases extra <;> rfl
  | cons c rest ih =>
    rw [flatMap_cons, flatMap_cons, length_append]
    by_cases tilde : c = '~'
    · subst tilde
      have budget : (escapeChar '~').length + (rest.flatMap escapeChar).length + extra =
          (rest.flatMap escapeChar).length + extra + 1 + 1 := by
            simp only [show (escapeChar '~').length = 2 from rfl]; omega
      rw [budget, ← ih extra]
      rfl
    by_cases slash : c = '/'
    · subst slash
      have budget : (escapeChar '/').length + (rest.flatMap escapeChar).length + extra =
          (rest.flatMap escapeChar).length + (extra + 1) + 1 := by
            simp only [show (escapeChar '/').length = 2 from rfl]; omega
      rw [budget, ← ih (extra + 1)]
      rfl
    · have plain : escapeChar c = [c] := by simp [escapeChar, tilde, slash]
      have plain' : halfEscapeChar c = [c] := by simp [halfEscapeChar, tilde]
      have budget : [c].length + (rest.flatMap escapeChar).length +
          extra = (rest.flatMap escapeChar).length + extra + 1 := by
        rw [length_singleton]
        omega
      rw [plain, plain', budget, singleton_append, singleton_append, ← ih extra]
      exact replaceAll_other _ (by simp [dropStart?, Ne.symm tilde])

theorem replaceAll_tilde (cs : List Char) (extra : Nat) :
    replaceAll ['~', '0'] ['~'] ((cs.flatMap halfEscapeChar).length + extra)
      (cs.flatMap halfEscapeChar) = cs := by
  induction cs generalizing extra with
  | nil => cases extra <;> rfl
  | cons c rest ih =>
    rw [flatMap_cons, length_append]
    by_cases tilde : c = '~'
    · subst tilde
      have budget : (halfEscapeChar '~').length + (rest.flatMap halfEscapeChar).length + extra =
          (rest.flatMap halfEscapeChar).length + (extra + 1) + 1 := by
            simp only [show (halfEscapeChar '~').length = 2 from rfl]; omega
      rw [budget]
      exact congrArg ('~' :: ·) (ih (extra + 1))
    · have plain : halfEscapeChar c = [c] := by simp [halfEscapeChar, tilde]
      have budget : [c].length + (rest.flatMap halfEscapeChar).length +
          extra = (rest.flatMap halfEscapeChar).length + extra + 1 := by
        rw [length_singleton]
        omega
      rw [plain, budget, singleton_append, replaceAll_other _ (by simp [dropStart?, Ne.symm tilde]),
        ih extra]

theorem unescape_escape (token : String) : unescape (escape token) = token := by
  have slashes : replaceAll "~1".toList "/".toList (token.toList.flatMap escapeChar).length
      (token.toList.flatMap escapeChar) =
      token.toList.flatMap halfEscapeChar := replaceAll_slash token.toList 0
  have tildes : replaceAll "~0".toList "~".toList (token.toList.flatMap halfEscapeChar).length
      (token.toList.flatMap halfEscapeChar) = token.toList := replaceAll_tilde token.toList 0
  simp only [unescape, replace, escape, String.toList_ofList, String.length_ofList, slashes, tildes,
    String.ofList_toList]

end JsonShape.Text.Pointer

namespace JsonShape.Table

theorem resolve_definition {corpus : Corpus} {t : Table} {r d : Entry} {name : String}
    (resource : t.resource? = some r) (definition : t.definition? r.id name = some d) :
    t.resolve corpus ("#/$defs/" ++ Text.Pointer.escape name) = some (d.node?, t.push r) := by
  have parts : Text.cut '#' ("#/$defs/" ++ Text.Pointer.escape name).toList =
      ([], some ("/$defs/".toList ++ (Text.Pointer.escape name).toList)) := by
    rw [String.toList_append]
    rfl
  have dropped : Text.dropStart? "/$defs/".toList ("/$defs/".toList ++ (Text.Pointer.escape name).toList) =
      some (Text.Pointer.escape name).toList := rfl
  have pointed : t.pointedDefinition? r.id ("/$defs/".toList ++ (Text.Pointer.escape name).toList) =
      some d := by
    unfold pointedDefinition?
    simp only [dropped, Option.bind_eq_bind, Option.bind_some]
    rw [if_neg (by simpa using Text.Pointer.slash_not_mem_escape name), String.ofList_toList,
      Text.Pointer.unescape_escape, definition]
    rfl
  have fragment : t.fragment? corpus r ("/$defs/".toList ++ (Text.Pointer.escape name).toList) =
      some d.node? := by
    have slash : "/$defs/".toList ++ (Text.Pointer.escape name).toList =
        '/' :: ("$defs/".toList ++ (Text.Pointer.escape name).toList) := rfl
    rw [slash] at pointed ⊢
    rw [fragment?, pointed]
  unfold resolve
  rw [parts]
  dsimp only
  rw [if_pos (by decide), resource, Option.bind_eq_bind, Option.bind_some, fragment]
  rfl

end JsonShape.Table
