import JsonShape.Proofs.Exactness

/-! Equality of literals goes by value: numbers are equal if they denote the same rational, maps if
they have the same keys with equal values. Numbers whose exponents are out of bounds are compared as
texts. -/
namespace JsonShape.Value
open Option Entries

variable {a b v : Value} {r : Rat}

/-- What a number denotes: an integer itself, and a numeral with an exponent in bounds what its
digits say. -/
inductive Denotes : Value → Rat → Prop
  | int (type : String) (n : Int) : Denotes (.int type n) n
  | numeral {d : Number.Spelling} (moderate : d.Moderate) : Denotes (.decimal d.text) d.value

theorem Denotes.document (denotes : Denotes v r) : v.Document := by
  cases denotes with
  | int type n => exact .int type n
  | numeral => exact .decimal _

theorem Denotes.meaning_eq (denotes : Denotes v r) : v.meaning = .number r := by
  classical
  refine (meaning_eq_number_iff denotes.document).mpr ?_
  cases denotes with
  | int => rfl
  | numeral moderate => rw [rational?, Number.readRational?_text, if_pos moderate]

theorem literalEqual_iff (left : a.Document) (right : b.Document) :
    a.literalEqual b = .ok true ↔ a.meaning = b.meaning :=
  ⟨(literalEqual_decides left right).of_eq_ok_true, (literalEqual_decides left right).eq_ok_true⟩

/-- A number means the rational that is read from it, or else its text. -/
theorem number_meaning_eq_iff (left : a.Document) (right : b.Document) (number : a.isNumber = true)
    (number' : b.isNumber = true) :
    a.meaning = b.meaning ↔ (∃ r, a.rational? = some r ∧ b.rational? = some r) ∨
      a.rational? = none ∧ b = a := by
  cases read : a.rational? with
  | some r =>
    rw [(meaning_eq_number_iff left).mpr read, eq_comm, meaning_eq_number_iff right]
    simp
  | none =>
    cases left with
    | decimal x =>
      have unread : Number.readRational? x = none := read
      cases right with
      | decimal y =>
        by_cases same : x = y
        · simp [same]
        · cases read' : Number.readRational? y <;> simp [unread, read', same, Ne.symm same]
      | int | single | double => simp [unread]
      | _ => cases number'
    | int => cases read
    | single found | double found => simp [read] at found
    | _ => cases number

theorem ascending_entryMeanings {entries : List (String × Value)} (ascending : Ascending entries) :
    Ascending (entryMeanings entries) := by
  rw [entryMeanings_eq]
  exact List.pairwise_map.mpr ascending

theorem literalEqual_map_iff_get? {entries others : List (String × Value)}
    (left : (map .values entries).Document) (right : (map .values others).Document) :
    (map .values entries).literalEqual (map .values others) = .ok true ↔
      ∀ key, Rel (fun v w => v.literalEqual w = .ok true) (get? entries key) (get? others key) := by
  have means := literalEqual_iff left right
  cases left with
  | map ascending inside =>
    cases right with
    | map ascending' inside' =>
      rw [means, meaning, meaning, Meaning.record.injEq]
      have same : entryMeanings entries = entryMeanings others ↔
          ∀ key, (get? entries key).map meaning = (get? others key).map meaning := by
        simp only [← entryMeanings_get?]
        exact ⟨fun equal key =>
          by
          rw [equal], (ascending_entryMeanings ascending).ext (ascending_entryMeanings ascending')⟩
      rw [same]
      refine forall_congr' fun key => ?_
      cases found : get? entries key with
      | none => cases get? others key <;> simp
      | some x =>
        cases found' : get? others key with
        | none => simp
        | some y =>
          have here := inside _ (mem_of_get?_eq_some found)
          have there := inside' _ (mem_of_get?_eq_some found')
          rw [map_some, map_some, some.injEq, rel_some_some, literalEqual_iff here there]

/-- Equality of literals answers, and is an equivalence. It holds between numbers that denote one
rational, and between maps that have the same keys with equal values; a number that cannot be read
equals only itself. -/
theorem literalEqual_by_value (left : a.Document) (right : b.Document) :
    (∃ answer, a.literalEqual b = .ok answer) ∧ a.literalEqual a = .ok true ∧
      (a.literalEqual b = .ok true → b.literalEqual a = .ok true) ∧
      (∀ c : Value, c.Document → a.literalEqual b = .ok true → b.literalEqual c = .ok true →
      a.literalEqual c = .ok true) ∧
      (∀ r q : Rat, a.Denotes r → b.Denotes q → (a.literalEqual b = .ok true ↔ r = q)) ∧
      (a.isNumber = true → b.isNumber = true →
      (a.literalEqual b = .ok true ↔ (∃ r, a.rational? = some r ∧ b.rational? = some r) ∨
      a.rational? = none ∧ b = a)) ∧ ∀ entries others : List (String × Value),
      a = map .values entries → b = map .values others →
      (a.literalEqual b = .ok true ↔ ∀ key, Rel (fun v w => v.literalEqual w = .ok true)
      (get? entries key) (get? others key)) := by
  refine ⟨?_, (literalEqual_iff left left).mpr rfl, fun equal => ?_,
    fun c document first second => ?_, fun r q denotes denotes' => ?_,
    fun number number' => ?_, fun entries others => ?_⟩
  · obtain ⟨answer, equal, -⟩ := literalEqual_decides left right
    exact ⟨answer, equal⟩
  · exact (literalEqual_iff right left).mpr ((literalEqual_iff left right).mp equal).symm
  · exact (literalEqual_iff left document).mpr
      (((literalEqual_iff left right).mp first).trans ((literalEqual_iff right document).mp second))
  · rw [literalEqual_iff left right, denotes.meaning_eq, denotes'.meaning_eq, Meaning.number.injEq]
  · rw [literalEqual_iff left right, number_meaning_eq_iff left right number number']
  · rintro rfl rfl
    exact literalEqual_map_iff_get? left right

theorem Denotes.of_spelling (d : Number.Spelling) {text : String} (moderate : d.Moderate)
    (spelled : d.text = text) (valued : d.value = r) : (decimal text).Denotes r :=
  spelled ▸ valued ▸ .numeral moderate

/-- `1.50` and `15E-1` are equal as literals. -/
theorem oneAndHalf_equal : (decimal "1.50").Denotes (3 / 2) ∧ (decimal "15E-1").Denotes (3 / 2) ∧
    (decimal "1.50").literalEqual (decimal "15E-1") = .ok true := by
  have left : (decimal "1.50").Denotes (3 / 2) := by
    refine .of_spelling ⟨false, [1], [5, 0], none, by simp⟩ ⟨nofun, .inr (by decide)⟩ (by decide) ?_
    norm_num [Number.Spelling.value, Number.Spelling.magnitude, Number.Spelling.power, Number.digitsNumber]
  have right : (decimal "15E-1").Denotes (3 / 2) := by
    refine .of_spelling ⟨false, [1, 5], [], some ⟨true, some true, [1], by simp⟩, by simp⟩
      ⟨by rintro e ⟨⟩; decide, .inr (by decide)⟩
      (by decide) ?_
    norm_num [Number.Spelling.value, Number.Spelling.magnitude, Number.Spelling.power,
      Number.digitsNumber, Number.Exponent.value,
      Number.Exponent.size]
  obtain ⟨-, -, -, -, value, -⟩ := literalEqual_by_value left.document right.document
  exact ⟨left, right, (value _ _ left right).mpr rfl⟩

open JsonShape.Derivation in
/-- `1.0e-1000001` and `1e-1000001` denote the same and are not equal as literals. -/
theorem tiny_unequal :
    tinyPointZero.value = tiny.value ∧
      (decimal tinyPointZero.text).literalEqual (decimal tiny.text) = .ok false :=
  ⟨tiny_value_eq, (literalEqual_decides (.decimal _) (.decimal _)).eq_ok_false tiny_meaning_ne⟩

end JsonShape.Value
