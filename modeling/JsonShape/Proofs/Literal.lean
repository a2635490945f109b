import JsonShape.Proofs.Entries
import JsonShape.Proofs.Nesting
import Mathlib.Data.List.Perm.Subperm

/-! Equality of the values of documents. It is equality of what they mean: a number means the
rational that it denotes, if its spelling can be read, and everything else means its content. -/
namespace JsonShape
open List Entries

/-- A test that answers, and answers whether something holds. -/
def Decides (test : Except Fault Bool) (P : Prop) : Prop :=
  ∃ answer, test = .ok answer ∧ (answer = true ↔ P)

namespace Decides

variable {first second : Except Fault Bool} {P Q : Prop}

theorem congr (decides : Decides first P) (same : P ↔ Q) : Decides first Q := by
  obtain ⟨answer, equal, means⟩ := decides
  exact ⟨answer, equal, means.trans same⟩

theorem ok {answer : Bool} (means : answer = true ↔ P) : Decides (.ok answer) P := ⟨answer, rfl, means⟩

theorem no (fails : ¬ P) : Decides (.ok false) P := ok (by simpa using fails)

theorem of_eq_ok_true (decides : Decides first P) (equal : first = .ok true) : P := by
  obtain ⟨answer, found, means⟩ := decides
  rw [equal] at found
  exact means.mp (Except.ok.inj found).symm

theorem eq_ok_true (decides : Decides first P) (holds : P) : first = .ok true := by
  obtain ⟨answer, found, means⟩ := decides
  rw [found, means.mpr holds]

theorem eq_ok_false (decides : Decides first P) (fails : ¬ P) : first = .ok false := by
  obtain ⟨answer, found, means⟩ := decides
  cases answer with
  | false => exact found
  | true => exact absurd (means.mp rfl) fails

theorem and (one : Decides first P) (two : P → Decides second Q) :
    Decides (do if ← first then second else .ok false) (P ∧ Q) := by
  by_cases holds : P
  · rw [one.eq_ok_true holds]
    exact (two holds).congr (by simp [holds])
  · rw [one.eq_ok_false holds]
    exact no fun both => holds both.1

theorem anyM {α : Type} {test : α → Except Fault Bool} {R : α → Prop} {items : List α}
    (each : ∀ a ∈ items, Decides (test a) (R a)) : Decides (items.anyM test) (∃ a ∈ items, R a) := by
  induction items with
  | nil => exact no (by simp)
  | cons a rest ih =>
    rw [anyM_cons]
    have here := each a mem_cons_self
    by_cases holds : R a
    · rw [here.eq_ok_true holds]
      exact ok (by simp [holds])
    · rw [here.eq_ok_false holds]
      refine (ih (forall_mem_cons.mp each).2).congr ?_
      simp [holds]

end Decides

/-- A test whose answer, if there is one, is whether something holds. -/
def Tells (test : Except Fault Bool) (P : Prop) : Prop := ∀ answer, test = .ok answer → (answer = true ↔ P)

namespace Tells

variable {first second : Except Fault Bool} {P Q : Prop}

theorem congr (tells : Tells first P) (same : P ↔ Q) : Tells first Q :=
  fun answer found => (tells answer found).trans same

theorem ok {answer : Bool} (means : answer = true ↔ P) : Tells (.ok answer) P :=
  fun _ found => Except.ok.inj found ▸ means

theorem no (fails : ¬ P) : Tells (.ok false) P := ok (by simpa using fails)

theorem and (one : Tells first P) (two : P → Tells second Q) :
    Tells (do if ← first then second else .ok false) (P ∧ Q) := by
  cases first with
  | error e => exact fun _ found => (by cases found)
  | ok answer =>
    have means := one answer rfl
    cases answer with
    | true => exact (two (means.mp rfl)).congr (and_iff_right (means.mp rfl)).symm
    | false => exact no fun both => absurd (means.mpr both.1) Bool.false_ne_true

theorem anyM {α : Type} {test : α → Except Fault Bool} {R : α → Prop} {items : List α}
    (each : ∀ a ∈ items, Tells (test a) (R a)) : Tells (items.anyM test) (∃ a ∈ items, R a) := by
  induction items with
  | nil => exact no (by simp)
  | cons a rest ih =>
    rw [anyM_cons]
    obtain ⟨here, later⟩ := forall_mem_cons.mp each
    cases found : test a with
    | error e => exact fun _ found => (by cases found)
    | ok answer =>
      have means := here answer found
      cases answer with
      | true => exact ok (by simp [means.mp rfl])
      | false =>
        exact (ih later).congr
          (by simp [show ¬ R a from fun holds => absurd (means.mpr holds) Bool.false_ne_true])

end Tells

namespace Value

variable {v a b : Value} {r : Rat}

/-- The values of documents, and the numbers of a program that a rational is read from, in lists and
maps of any depth. -/
inductive Document : Value → Prop
  | null : Document .null
  | bool (b : Bool) : Document (.bool b)
  | string (s : String) : Document (.string s)
  | decimal (text : String) : Document (.decimal text)
  | int (type : String) (n : Int) : Document (.int type n)
  | single {x : Number.Binary} (read : (Value.single x).rational?.isSome) : Document (.single x)
  | double {x : Number.Binary} (read : (Value.double x).rational?.isSome) : Document (.double x)
  | seq {items : List Value} (inside : ∀ v ∈ items, Document v) : Document (.seq .values items)
  | map {entries : List (String × Value)} (ascending : Ascending entries)
      (inside : ∀ entry ∈ entries, Document entry.2) : Document (.map .values entries)

inductive Meaning where
  | null
  | bool (b : Bool)
  | text (s : String)
  | number (r : Rat)
  | spelling (text : String)
  | list (items : List Meaning)
  | record (entries : List (String × Meaning))

mutual
@[simp] def meaning : Value → Meaning
  | null => .null
  | bool b => .bool b
  | string s => .text s
  | decimal text =>
    match Number.readRational? text with
    | some r => .number r
    | none => .spelling text
  | int _ n => .number n
  | single x => .number ((single x).rational?.getD 0)
  | double x => .number ((double x).rational?.getD 0)
  | seq _ items => .list (itemMeanings items)
  | map _ entries => .record (entryMeanings entries)
  | _ => .null

@[simp] def itemMeanings : List Value → List Meaning
  | [] => []
  | v :: rest => v.meaning :: itemMeanings rest

@[simp] def entryMeanings : List (String × Value) → List (String × Meaning)
  | [] => []
  | (key, v) :: rest => (key, v.meaning) :: entryMeanings rest
end

theorem itemMeanings_eq (items : List Value) : itemMeanings items = items.map meaning := by
  induction items with
  | nil => rfl
  | cons v rest ih => rw [itemMeanings, ih, map_cons]

theorem entryMeanings_eq (entries : List (String × Value)) :
    entryMeanings entries = entries.map fun entry => (entry.1, entry.2.meaning) := by
  induction entries with
  | nil => rfl
  | cons entry rest ih => rw [entryMeanings, ih, map_cons]

theorem entryMeanings_eq_iff {as bs : List (String × Value)} (left : Ascending as)
    (right : Ascending bs) :
    entryMeanings as = entryMeanings bs ↔ as.length = bs.length ∧ ∀ entry ∈ as, ∃ b,
      get? bs entry.1 = some b ∧ entry.2.meaning = b.meaning := by
  rw [entryMeanings_eq, entryMeanings_eq]
  constructor
  · intro equal
    refine ⟨by simpa using congrArg length equal, ?_⟩
    intro entry member
    have member' : (entry.1, entry.2.meaning) ∈ bs.map fun entry => (entry.1, entry.2.meaning) :=
      equal ▸ mem_map_of_mem member
    obtain ⟨other, inside, same⟩ := mem_map.mp member'
    obtain ⟨key, means⟩ := Prod.mk.inj same
    exact ⟨other.2, get?_eq_some_of_mem right (key ▸ inside), means.symm⟩
  · rintro ⟨length, inside⟩
    -- Both lists of keys and meanings are sorted, so it is enough that the first is part of the second.
    have sorted : ∀ {entries : List (String × Value)}, Ascending entries →
        Ascending (entries.map fun entry => (entry.1, entry.2.meaning)) :=
      fun ascending => pairwise_map.mpr ascending
    have part : (as.map fun entry => (entry.1, entry.2.meaning)) ⊆ bs.map fun entry =>
        (entry.1, entry.2.meaning) := by
      intro pair listed
      obtain ⟨entry, member, rfl⟩ := mem_map.mp listed
      obtain ⟨b, found, means⟩ := inside entry member
      exact mem_map.mpr ⟨(entry.1, b), mem_of_get?_eq_some found, by rw [means]⟩
    have distinct : (as.map fun entry => (entry.1, entry.2.meaning)).Nodup :=
      (sorted left).imp fun less equal => absurd (congrArg Prod.fst equal) (ne_of_lt less)
    have permuted := (distinct.subperm part).perm_of_length_le (by simp [length])
    exact permuted.eq_of_pairwise (fun _ _ _ _ less greater => absurd less (not_lt_of_gt greater))
      (sorted left)
      (sorted right)

theorem itemsEqual_decides {as bs : List Value} (length : as.length = bs.length)
    (each : ∀ a ∈ as, ∀ b ∈ bs, Decides (a.literalEqual b) (a.meaning = b.meaning)) :
    Decides (itemsEqual as bs) (itemMeanings as = itemMeanings bs) := by
  induction as generalizing bs with
  | nil =>
    obtain rfl := length_eq_zero_iff.mp length.symm
    exact .ok (by simp)
  | cons a rest ih =>
    obtain ⟨b, others, rfl⟩ := exists_cons_of_length_eq_add_one length.symm
    rw [itemsEqual, itemMeanings, itemMeanings]
    have here := each a mem_cons_self b mem_cons_self
    have later := ih (Nat.succ.inj length) fun x inside y inside' =>
      each x (mem_cons_of_mem _ inside) y (mem_cons_of_mem _ inside')
    exact (here.and fun _ => later).congr (by simp)

theorem entriesEqual_decides {as bs : List (String × Value)}
    (each : ∀ a ∈ as, ∀ b ∈ bs, Decides (a.2.literalEqual b.2) (a.2.meaning = b.2.meaning)) :
    Decides (entriesEqual as bs)
      (∀ entry ∈ as, ∃ b, get? bs entry.1 = some b ∧ entry.2.meaning = b.meaning) := by
  induction as with
  | nil => exact .ok (by simp)
  | cons entry rest ih =>
    obtain ⟨key, a⟩ := entry
    rw [entriesEqual]
    have later := ih (forall_mem_cons.mp each).2
    cases found : get? bs key with
    | none => exact .no (by simp [found])
    | some b =>
      have here := each (key, a) mem_cons_self (key, b) (mem_of_get?_eq_some found)
      exact (here.and fun _ => later).congr (by simp [found])

theorem meaning_eq_number_iff (document : v.Document) : v.meaning = .number r ↔ v.rational? = some r := by
  cases document with
  | decimal text => cases read : Number.readRational? text <;> simp [rational?, read]
  | single read | double read =>
    obtain ⟨q, found⟩ := Option.isSome_iff_exists.mp read
    simp [found]
  | _ => simp [rational?]

theorem literalEqual_of_read (left : v.Document) (read : v.rational? = some r) (right : b.Document) :
    Decides (v.literalEqual b) (v.meaning = b.meaning) := by
  rw [literalEqual.eq_def, read, (meaning_eq_number_iff left).mpr read]
  exact .ok (by rw [beq_iff_eq, ← meaning_eq_number_iff right, eq_comm])

theorem literalEqual_of_unread {x : String} (unread : Number.readRational? x = none) (b : Value) :
    (decimal x).literalEqual b = (decimal x).identical b := by
  rw [literalEqual.eq_def, rational?, unread]

theorem literalEqual_seq (items others : List Value) :
    (seq .values items).literalEqual (seq .values others) = if items.length = others.length then
      itemsEqual items others else .ok false := by
  simp [literalEqual, rational?]

theorem literalEqual_map (entries others : List (String × Value)) :
    (map .values entries).literalEqual (map .values others) = if entries.length = others.length then
      entriesEqual entries others else .ok false := by
  simp [literalEqual, rational?]

theorem meaning_ne_decimal {m : Meaning} (notNumber : ∀ r, m ≠ .number r)
    (notSpelling : ∀ text, m ≠ .spelling text) (text : String) : m ≠ (decimal text).meaning := by
  rw [meaning]
  split
  · exact notNumber _
  · exact notSpelling _

/-- Values are equal as literals if and only if they mean the same. -/
theorem literalEqual_decides (left : a.Document) (right : b.Document) :
    Decides (a.literalEqual b) (a.meaning = b.meaning) := by
  induction left generalizing b with
  | null =>
    cases right with
    | decimal text => exact .no (meaning_ne_decimal (by simp) (by simp) text)
    | null => exact .ok (by simp)
    | _ => exact .no (by simp)
  | bool x =>
    cases right with
    | decimal text => exact .no (meaning_ne_decimal (by simp) (by simp) text)
    | bool y => exact .ok (by simp)
    | _ => exact .no (by simp)
  | string x =>
    cases right with
    | decimal text => exact .no (meaning_ne_decimal (by simp) (by simp) text)
    | string y => exact .ok (by simp)
    | _ => exact .no (by simp)
  | decimal x =>
    cases read : Number.readRational? x with
    | some r => exact literalEqual_of_read (.decimal x) read right
    | none =>
      rw [literalEqual_of_unread read]
      cases right with
      | decimal y =>
        by_cases same : x = y
        · exact .ok (by simp [same])
        · cases read' : Number.readRational? y <;> exact .ok (by simp [read, read', same])
      | _ => exact .no (by simp [read])
  | int type n => exact literalEqual_of_read (.int type n) rfl right
  | single read => exact literalEqual_of_read (.single read) (Option.some_get read).symm right
  | double read => exact literalEqual_of_read (.double read) (Option.some_get read).symm right
  | @seq items inside ih =>
    cases right with
    | decimal text => exact .no (meaning_ne_decimal (by simp) (by simp) text)
    | @seq others inside' =>
      have means : (seq .values items).meaning = (seq .values others).meaning ↔
          itemMeanings items = itemMeanings others := by
        simp
      rw [literalEqual_seq]
      split_ifs with length
      · exact (itemsEqual_decides length fun a member b member' =>
          ih a member (inside' b member')).congr means.symm
      · refine .no fun equal => length ?_
        simpa [itemMeanings_eq] using congrArg List.length (means.mp equal)
    | _ => exact .no (by simp)
  | @map entries ascending inside ih =>
    cases right with
    | decimal text => exact .no (meaning_ne_decimal (by simp) (by simp) text)
    | @map others ascending' inside' =>
      have means : (map .values entries).meaning = (map .values others).meaning ↔
          entryMeanings entries = entryMeanings others := by
        simp
      rw [entryMeanings_eq_iff ascending ascending'] at means
      rw [literalEqual_map]
      split_ifs with length
      · refine (entriesEqual_decides fun a member b member' => ih a member (inside' b member')).congr ?_
        rw [means]
        exact (and_iff_right length).symm
      · exact .no fun equal => length (means.mp equal).1
    | _ => exact .no (by simp)

theorem literalKind_eq_of_meaning_eq (left : a.Document) (right : b.Document)
    (same : a.meaning = b.meaning) : a.literalKind = b.literalKind := by
  cases left with
  | decimal x =>
    cases right with
    | decimal | int | single | double => rfl
    | _ => exact absurd same.symm (meaning_ne_decimal (by simp) (by simp) x)
  | int | single | double =>
    cases right with
    | decimal | int | single | double => rfl
    | _ => simp at same
  | _ =>
    cases right with
    | decimal y => exact absurd same (meaning_ne_decimal (by simp) (by simp) y)
    | _ => first | rfl | simp at same

theorem Document.cases_of_meaning_eq (left : a.Document) (right : b.Document)
    (same : a.meaning = b.meaning) :
    a = b ∨ (a.isNumber = true ∧ b.isNumber = true) ∨
      (∃ as bs, a = .seq .values as ∧ b = .seq .values bs ∧ (∀ a ∈ as, a.Document) ∧
      (∀ b ∈ bs, b.Document) ∧ itemMeanings as = itemMeanings bs) ∨ ∃ as bs, a = .map .values as ∧
      b = .map .values bs ∧ (∀ a ∈ as, a.2.Document) ∧ (∀ b ∈ bs, b.2.Document) ∧
      entryMeanings as = entryMeanings bs := by
  have kinds := literalKind_eq_of_meaning_eq left right same
  cases left with
  | decimal | int | single | double =>
    cases right with
    | decimal | int | single | double => exact .inr (.inl ⟨rfl, rfl⟩)
    | _ => cases kinds
  | seq inside =>
    cases right with
    | seq inside' => exact .inr (.inr (.inl ⟨_, _, rfl, rfl, inside, inside', by simpa using same⟩))
    | _ => cases kinds
  | map ascending inside =>
    cases right with
    | map ascending' inside' =>
      exact .inr (.inr (.inr ⟨_, _, rfl, rfl, inside, inside', by simpa using same⟩))
    | _ => cases kinds
  | _ =>
    cases right with
    | null | bool | string => simp_all
    | _ => cases kinds

theorem literalEqual_eq_identical (unread : v.rational? = none)
    (notMap : ∀ entries, v ≠ map .values entries) (notSeq : ∀ items, v ≠ seq .values items)
    (a : Value) : v.literalEqual a = v.identical a := by
  rw [literalEqual.eq_def, unread]
  dsimp only
  split
  · exact absurd rfl (notMap _)
  · exact absurd rfl (notMap _)
  · exact absurd rfl (notSeq _)
  · exact absurd rfl (notSeq _)
  · rfl

theorem literalEqual_map_other (entries : List (String × Value))
    (other : ∀ others, a ≠ map .values others) :
    (map .values entries).literalEqual a = .ok false := by
  cases a with
  | map kind others =>
    cases kind with
    | values => exact absurd rfl (other others)
    | _ => simp [literalEqual, rational?]
  | _ => simp [literalEqual, rational?]

theorem literalEqual_seq_other (items : List Value) (other : ∀ others, a ≠ seq .values others) :
    (seq .values items).literalEqual a = .ok false := by
  cases a with
  | seq kind others =>
    cases kind with
    | values => exact absurd rfl (other others)
    | _ => simp [literalEqual, rational?]
  | _ => simp [literalEqual, rational?]

theorem entryMeanings_get? (entries : List (String × Value)) (key : String) :
    get? (entryMeanings entries) key = (get? entries key).map meaning := by
  rw [entryMeanings_eq, get?_map]

theorem matchesLiteral_decides (left : a.Document) (right : b.Document) :
    Decides (a.matchesLiteral b) (a.meaning = b.meaning) := by
  unfold matchesLiteral
  split_ifs with kinds
  · exact literalEqual_decides left right
  · exact .no fun same => kinds (by simp [literalKind_eq_of_meaning_eq left right same])

theorem Document.plain_eq (document : v.Document) : v.plain = v := by
  induction document with
  | seq _ ih => rw [plain, plainItems_eq_self_iff.mpr ih]
  | map _ _ ih => exact congrArg _ (plainEntries_eq_self_iff.mpr ih)
  | _ => rfl

theorem Document.settle_eq (document : v.Document) : v.settle = v := by
  cases document <;> rfl

end Value

end JsonShape
