import JsonShape.Shape.Equality

/-! Identity of values and shapes, as it is computed, is equality. -/
namespace JsonShape

namespace Value

mutual
theorem same_iff {v w : Value} : v.same w = true ↔ v = w := by
  cases v with
  | seq kind items => cases w <;> simp [same, sameItems_iff items]
  | map kind entries => cases w <;> simp [same, sameEntries_iff entries]
  | ref target =>
    cases target with
    | none =>
      cases w with
      | ref target' => cases target' <;> simp [same]
      | _ => simp [same]
    | some x =>
      cases w with
      | ref target' => cases target' <;> simp [same, @same_iff x]
      | _ => simp [same]
  | _ => cases w <;> simp [same]

theorem sameItems_iff (items others : List Value) : sameItems items others = true ↔ items = others := by
  cases items with
  | nil => cases others <;> simp [sameItems]
  | cons v rest => cases others <;> simp [sameItems, @same_iff v, sameItems_iff rest]

theorem sameEntries_iff (entries others : List (String × Value)) :
    sameEntries entries others = true ↔ entries = others := by
  cases entries with
  | nil => cases others <;> simp [sameEntries]
  | cons entry rest =>
    obtain ⟨key, v⟩ := entry
    rcases others with _ | ⟨⟨key', w⟩, rest'⟩ <;> simp [sameEntries, @same_iff v, sameEntries_iff rest]
end

end Value

namespace Shape

theorem sameDefault_iff {d e : Option Value} : sameDefault d e = true ↔ d = e := by
  cases d <;> cases e <;> simp [sameDefault, Value.same_iff]

mutual
@[simp]
theorem same_iff {s t : Shape} : s.same t = true ↔ s = t := by
  cases s with
  | literal n v => cases t <;> simp [same, Value.same_iff]
  | array n items => cases t <;> simp [same, @same_iff items]
  | object n props extra? =>
    cases t <;> simp [same, sameProperties_iff props, sameOption_iff extra?, and_assoc]
  | union n inclusive members => cases t <;> simp [same, sameMembers_iff members, and_assoc]
  | intersection n members => cases t <;> simp [same, sameMembers_iff members]
  | _ => cases t <;> simp [same]
termination_by structural s

theorem sameProperties_iff (ps qs : List (Property Shape)) : sameProperties ps qs = true ↔ ps = qs := by
  cases ps with
  | nil => cases qs <;> simp [sameProperties]
  | cons p rest =>
    obtain ⟨name, s, optional, default?⟩ := p
    rcases qs with _ | ⟨⟨name', t, optional', default?'⟩, rest'⟩
    · simp [sameProperties]
    · simp only [sameProperties, Bool.and_eq_true, beq_iff_eq, sameDefault_iff, @same_iff s,
        sameProperties_iff rest, List.cons.injEq,
        Property.mk.injEq]
      grind
termination_by structural ps

theorem sameOption_iff (s? t? : Option Shape) : sameOption s? t? = true ↔ s? = t? := by
  cases s? with
  | none => cases t? <;> simp [sameOption]
  | some s => cases t? <;> simp [sameOption, @same_iff s]
termination_by structural s?

theorem sameMembers_iff (ss ts : List Shape) : sameMembers ss ts = true ↔ ss = ts := by
  cases ss with
  | nil => cases ts <;> simp [sameMembers]
  | cons s rest => cases ts <;> simp [sameMembers, @same_iff s, sameMembers_iff rest]
termination_by structural ss
end

instance : DecidableEq Shape := fun _ _ => decidable_of_iff _ same_iff

end Shape

end JsonShape
