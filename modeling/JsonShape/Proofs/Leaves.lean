import JsonShape.Proofs.Alternatives
import JsonShape.Proofs.Literal

/-! The leaves of shapes. Comparing and uniting shapes breaks off at most for the lack of an
equality of their literals, and what is built has the leaves that it is built from. -/
namespace JsonShape
open List Entries

variable {g : Graph} {id n : Nat} {s p : Shape}

/-- A result that is missing at most because values cannot be compared, and never in strict use. -/
def Compares {α : Type} (strict : Prop) (result : Except Fault α) : Prop :=
  ∀ e, result = .error e → e = .incomparable ∧ ¬ strict

namespace Compares

variable {α β : Type} {strict : Prop}

theorem ok (a : α) : Compares strict (.ok a) := by
  intro e broken
  cases broken

theorem bind {result : Except Fault α} {next : α → Except Fault β} (first : Compares strict result)
    (second : ∀ a, result = .ok a → Compares strict (next a)) : Compares strict (result >>= next) := by
  intro e broken
  cases result with
  | error fault =>
    obtain rfl : fault = e := Except.error.inj broken
    exact first fault rfl
  | ok a => exact second a rfl e broken

theorem anyM {test : α → Except Fault Bool} {items : List α}
    (each : ∀ a ∈ items, Compares strict (test a)) : Compares strict (items.anyM test) := by
  induction items with
  | nil => exact ok false
  | cons a rest ih =>
    refine bind (each a mem_cons_self) fun found _ => ?_
    cases found with
    | true => exact ok true
    | false => exact ih (forall_mem_cons.mp each).2

end Compares

namespace Value

variable {strict : Prop} {v w : Value} {items : List Value} {entries : List (String × Value)}

mutual
theorem identical_compares (v w : Value) : Compares False (v.identical w) := by
  have fault : Compares False (.error .incomparable : Except Fault Bool) :=
    fun e broken => ⟨(Except.error.inj broken).symm, not_false⟩
  cases v with
  | seq kind items =>
    cases w with
    | seq kind' others =>
      rw [identical]
      split_ifs
      · exact .ok _
      · exact fault
      · exact identicalItems_compares items others
      · exact .ok _
    | _ => exact .ok _
  | map kind entries =>
    cases w with
    | map kind' others =>
      rw [identical]
      split_ifs
      · exact fault
      · exact .ok _
    | _ => exact .ok _
  | namedBytes type bs =>
    cases w with
    | namedBytes type' others =>
      rw [identical]
      split_ifs
      · exact fault
      · exact .ok _
    | _ => exact .ok _
  | timeRef target =>
    cases w <;> cases target <;> first | exact .ok _ | (rename_i other; cases other <;> exact .ok _)
  | ref target =>
    cases w <;> cases target <;> first | exact .ok _ | (rename_i other; cases other <;> exact .ok _)
  | _ => cases w <;> first | exact .ok _ | exact fault
termination_by structural v

theorem identicalItems_compares (items others : List Value) :
    Compares False (identicalItems items others) := by
  cases items with
  | nil => cases others <;> exact .ok _
  | cons v rest =>
    cases others with
    | nil => exact .ok _
    | cons w rest' =>
      rw [identicalItems]
      refine .bind (identical_compares v w) fun found _ => ?_
      cases found with
      | true => exact identicalItems_compares rest rest'
      | false => exact .ok _
termination_by structural items
end

/-- To compare the first two values is to compare the last two by type and content, among others. -/
inductive Confronts : Value → Value → Value → Value → Prop
  | self {v w : Value} (unread : v.rational? = none) (notMap : ∀ entries, v ≠ map .values entries)
      (notSeq : ∀ items, v ≠ seq .values items) :
      Confronts v w v w
  | item {items others : List Value} {i : Nat} {v w x y : Value} (here : items[i]? = some v)
      (there : others[i]? = some w)
      (inside : Confronts v w x y) : Confronts (seq .values items) (seq .values others) x y
  | entry {entries others : List (String × Value)} {key : String} {v w x y : Value}
      (here : (key, v) ∈ entries)
      (there : get? others key = some w) (inside : Confronts v w x y) :
      Confronts (map .values entries) (map .values others) x y

theorem itemsEqual_compares {others : List Value}
    (each : ∀ (i : Nat) v w, items[i]? = some v → others[i]? = some w →
      Compares strict (v.literalEqual w)) : Compares strict (itemsEqual items others) := by
  induction items generalizing others with
  | nil => cases others <;> exact .ok _
  | cons v rest ih =>
    cases others with
    | nil => exact .ok _
    | cons w rest' =>
      rw [itemsEqual]
      refine .bind (each 0 v w rfl rfl) fun found _ => ?_
      cases found with
      | true => exact ih fun i => each (i + 1)
      | false => exact .ok _

theorem entriesEqual_compares {others : List (String × Value)}
    (each : ∀ key v w, (key, v) ∈ entries → get? others key = some w →
      Compares strict (v.literalEqual w)) : Compares strict (entriesEqual entries others) := by
  induction entries with
  | nil => exact .ok _
  | cons entry rest ih =>
    obtain ⟨key, v⟩ := entry
    have later := ih fun key v w member => each key v w (mem_cons_of_mem _ member)
    rw [entriesEqual]
    cases found : get? others key with
    | none => exact .ok _
    | some w =>
      refine .bind (each key v w mem_cons_self found) fun same _ => ?_
      cases same with
      | true => exact later
      | false => exact .ok _

theorem literalEqual_compares_of {v w : Value}
    (each : ∀ x y, Confronts v w x y → Compares strict (x.identical y)) :
    Compares strict (v.literalEqual w) := by
  cases read : v.rational? with
  | some r =>
    rw [literalEqual.eq_def, read]
    exact .ok _
  | none =>
    by_cases isMap : ∃ entries, v = map .values entries
    · obtain ⟨entries, rfl⟩ := isMap
      by_cases other : ∃ others, w = map .values others
      · obtain ⟨others, rfl⟩ := other
        rw [literalEqual_map]
        split_ifs
        · refine entriesEqual_compares fun key a b here there => ?_
          have smaller : a.size < (map .values entries).size := size_lt_of_mem_entries rfl here
          exact literalEqual_compares_of fun x y inside => each x y (.entry here there inside)
        · exact .ok _
      · rw [literalEqual_map_other _ fun others same => other ⟨others, same⟩]
        exact .ok _
    by_cases isSeq : ∃ items, v = seq .values items
    · obtain ⟨items, rfl⟩ := isSeq
      by_cases other : ∃ others, w = seq .values others
      · obtain ⟨others, rfl⟩ := other
        rw [literalEqual_seq]
        split_ifs
        · refine itemsEqual_compares fun i a b here there => ?_
          have smaller : a.size < (seq .values items).size :=
            size_lt_of_mem_items rfl (mem_of_getElem? here)
          exact literalEqual_compares_of fun x y inside => each x y (.item here there inside)
        · exact .ok _
      · rw [literalEqual_seq_other _ fun others same => other ⟨others, same⟩]
        exact .ok _
    have notMap : ∀ entries, v ≠ map .values entries := fun entries same => isMap ⟨entries, same⟩
    have notSeq : ∀ items, v ≠ seq .values items := fun items same => isSeq ⟨items, same⟩
    rw [literalEqual_eq_identical read notMap notSeq]
    exact each v w (.self read notMap notSeq)
termination_by v.size

theorem literalEqual_lenient (v w : Value) : Compares False (v.literalEqual w) :=
  literalEqual_compares_of fun x y _ => identical_compares x y

theorem literalEqual_compares (left : strict → v.Document) (right : strict → w.Document) :
    Compares strict (v.literalEqual w) := by
  intro e broken
  refine ⟨(literalEqual_lenient v w e broken).1, fun holds => ?_⟩
  obtain ⟨answer, equal, -⟩ := literalEqual_decides (left holds) (right holds)
  rw [equal] at broken
  cases broken

/-- Whether any two values of the type of a value can be compared. -/
def hasEquality : Value → Bool
  | bytes _ | namedBytes _ _ | map _ _ | seq _ _ => false
  | _ => true

theorem identical_compares_of (apart : v.type ≠ w.type ∨ v.hasEquality = true) :
    Compares strict (v.identical w) := by
  cases v with
  | seq kind items =>
    cases w with
    | seq kind' others =>
      have differ : kind ≠ kind' := by simpa [type, hasEquality] using apart
      rw [identical, if_pos (by simpa using differ)]
      exact .ok _
    | _ => exact .ok _
  | map kind entries =>
    cases w with
    | map kind' others =>
      have differ : kind ≠ kind' := by simpa [type, hasEquality] using apart
      rw [identical, if_neg (by simpa using differ)]
      exact .ok _
    | _ => exact .ok _
  | namedBytes name bs =>
    cases w with
    | namedBytes name' others =>
      have differ : name ≠ name' := by simpa [type, hasEquality] using apart
      rw [identical, if_neg (by simpa using differ)]
      exact .ok _
    | _ => exact .ok _
  | bytes =>
    cases w with
    | bytes => simp [type, hasEquality] at apart
    | _ => exact .ok _
  | timeRef target =>
    cases w <;> cases target <;> first | exact .ok _ | (rename_i other; cases other <;> exact .ok _)
  | ref target =>
    cases w <;> cases target <;> first | exact .ok _ | (rename_i other; cases other <;> exact .ok _)
  | _ => cases w <;> exact .ok _

/-- Next to the value of a document a plain value has at each place another type, or one with an
equality, or is looked into. -/
theorem Confronts.apart {x y : Value} (confronts : Confronts v w x y) (plain : v.plain = v)
    (document : w.Document) : x.type ≠ y.type ∨ x.hasEquality = true := by
  induction confronts with
  | @self v w unread notMap notSeq =>
    cases v with
    | seq kind items =>
      obtain ⟨rfl, -⟩ := seq.inj plain
      exact absurd rfl (notSeq items)
    | map kind entries =>
      cases document with
      | map =>
        have other : kind ≠ .values := fun same => notMap entries (by rw [same])
        simp [type, other]
      | _ => simp [type]
    | bytes | namedBytes => cases document <;> simp [type]
    | _ => exact .inr rfl
  | item here there _ ih =>
    cases document with
    | seq inside =>
      rw [Value.plain, seq.injEq, plainItems_eq_self_iff] at plain
      exact ih (plain.2 _ (mem_of_getElem? here)) (inside _ (mem_of_getElem? there))
  | entry here there _ ih =>
    cases document with
    | map _ inside =>
      rw [Value.plain, if_pos (by decide), map.injEq, plainEntries_eq_self_iff] at plain
      exact ih (plain.2 _ here) (inside _ (mem_of_get?_eq_some there))

theorem matchesLiteral_plain_compares (document : strict → w.Document) (v : Value) :
    Compares strict (v.plain.matchesLiteral w) := by
  intro e broken
  unfold matchesLiteral at broken
  split_ifs at broken
  · refine ⟨(literalEqual_lenient _ w e broken).1, fun holds => ?_⟩
    have answers : Compares True (v.plain.literalEqual w) := literalEqual_compares_of fun x y inside =>
      identical_compares_of (inside.apart v.plain_plain (document holds))
    exact (answers e broken).2 trivial

theorem matchesLiteral_compares (left : strict → v.Document) (right : strict → w.Document) :
    Compares strict (v.matchesLiteral w) := by
  unfold matchesLiteral
  split_ifs
  · exact literalEqual_compares left right
  · exact .ok _

end Value

namespace Shape

/-- What the leaves of a shape are like: in strict use its literals are values of documents, and its
handles are live. -/
structure Leaves (strict : Prop) (live : Nat → Prop) (s : Shape) : Prop where
  literals : ∀ n v, literal n v ∈ s.subshapes → strict → v.Document
  handles : ∀ id, handle id ∈ s.subshapes → live id

variable {strict : Prop} {live : Nat → Prop} {v : Value}

theorem Leaves.piece (leaves : s.Leaves strict live) (member : p ∈ s.pieces) : p.Leaves strict live where
  literals n v inside := leaves.literals n v (mem_subshapes_iff.mpr (.inr ⟨p, member, inside⟩))
  handles id inside := leaves.handles id (mem_subshapes_iff.mpr (.inr ⟨p, member, inside⟩))

theorem leaves_of_pieces (notLiteral : s.kind ≠ .literal) (notHandle : s.kind ≠ .named)
    (each : ∀ p ∈ s.pieces, p.Leaves strict live) : s.Leaves strict live where
  literals n v inside := by
    rcases mem_subshapes_iff.mp inside with rfl | ⟨p, member, deeper⟩
    · exact absurd rfl notLiteral
    · exact (each p member).literals n v deeper
  handles id inside := by
    rcases mem_subshapes_iff.mp inside with rfl | ⟨p, member, deeper⟩
    · exact absurd rfl notHandle
    · exact (each p member).handles id deeper

theorem leaves_flat (flat : s.pieces = []) (notLiteral : s.kind ≠ .literal)
    (notHandle : s.kind ≠ .named) : s.Leaves strict live :=
  leaves_of_pieces notLiteral notHandle fun p member => by rw [flat] at member; cases member

theorem leaves_literal (holds : strict → v.Document) : (literal n v).Leaves strict live where
  literals m w inside := by
    rcases mem_subshapes_iff.mp inside with same | ⟨p, member, -⟩
    · obtain ⟨-, rfl⟩ := Shape.literal.inj same
      exact holds
    · cases member
  handles id inside := by
    rcases mem_subshapes_iff.mp inside with same | ⟨p, member, -⟩
    · cases same
    · cases member

theorem leaves_handle (holds : live id) : (handle id).Leaves strict live where
  literals m w inside := by
    rcases mem_subshapes_iff.mp inside with same | ⟨p, member, -⟩
    · cases same
    · cases member
  handles id inside := by
    rcases mem_subshapes_iff.mp inside with same | ⟨p, member, -⟩
    · obtain rfl := Shape.handle.inj same
      exact holds
    · cases member

theorem Leaves.of_literal (leaves : (literal n v).Leaves strict live) : strict → v.Document :=
  leaves.literals n v (mem_subshapes_self _)

theorem Leaves.of_handle (leaves : (handle id).Leaves strict live) : live id :=
  leaves.handles id (mem_subshapes_self _)

theorem Leaves.mono {live' : Nat → Prop} (leaves : s.Leaves strict live)
    (weaker : ∀ id, live id → live' id) : s.Leaves strict live' :=
  ⟨leaves.literals, fun id inside => weaker id (leaves.handles id inside)⟩

variable {live' : Nat → Prop} {shapes : List Shape}
variable {members : List Shape}

theorem equalProperties_compares {ps : List (Property Shape)} {qs : List (Property Shape)}
    (each : ∀ p ∈ ps, ∀ q ∈ qs, Compares strict (p.shape.equal q.shape)) :
    Compares strict (equalProperties ps qs) := by
  induction ps generalizing qs with
  | nil => cases qs <;> exact .ok _
  | cons p rest ih =>
    cases qs with
    | nil => exact .ok _
    | cons q qs =>
      have later := ih fun p' member q' member' =>
          each p' (mem_cons_of_mem _ member) q' (mem_cons_of_mem _ member')
      rw [equalProperties]
      split_ifs
      · refine .bind (each p mem_cons_self q mem_cons_self) fun found _ => ?_
        cases found with
        | true => exact later
        | false => exact .ok _
      · exact .ok _

theorem containedMembers_compares {ss ts : List Shape}
    (each : ∀ s ∈ ss, ∀ t ∈ ts, Compares strict (s.equal t)) :
    Compares strict (containedMembers ss ts) := by
  induction ss with
  | nil => exact .ok _
  | cons s rest ih =>
    rw [containedMembers]
    refine .bind (.anyM fun t member => each s mem_cons_self t member) fun found _ => ?_
    cases found with
    | true => exact ih fun s' member => each s' (mem_cons_of_mem _ member)
    | false => exact .ok _

theorem equalOption_compares {e f : Option Shape}
    (each : ∀ s ∈ e.toList, ∀ t ∈ f.toList, Compares strict (s.equal t)) :
    Compares strict (equalOption e f) := by
  cases e with
  | none => cases f <;> exact .ok _
  | some s =>
    cases f with
    | none => exact .ok _
    | some t => exact each s mem_cons_self t mem_cons_self

theorem equal_compares {a b : Shape} (left : a.Leaves strict live) (right : b.Leaves strict live') :
    Compares strict (a.equal b) := by
  induction a using pieces_induction generalizing b with
  | step a ih =>
    have inner : ∀ p ∈ a.pieces, ∀ q ∈ b.pieces, Compares strict (p.equal q) :=
      fun p member q member' => ih p member (left.piece member) (right.piece member')
    rw [equal.eq_def]
    split_ifs
    · exact .ok _
    cases a with
    | literal m v =>
      cases b with
      | literal n w => exact Value.matchesLiteral_compares left.of_literal right.of_literal
      | _ => exact .ok _
    | array m s =>
      cases b with
      | array n t => exact inner s mem_cons_self t mem_cons_self
      | _ => exact .ok _
    | object m ps e =>
      cases b with
      | object n qs f =>
        dsimp only
        split_ifs
        · refine .bind (equalOption_compares fun s member t member' =>
            inner s (mem_append_right _ member) t (mem_append_right _ member')) fun found _ => ?_
          cases found with
          | true =>
            exact equalProperties_compares fun p member q member' =>
              inner _ (mem_pieces_of_mem_props member) _ (mem_pieces_of_mem_props member')
          | false => exact .ok _
        · exact .ok _
      | _ => exact .ok _
    | union m i ss =>
      cases b with
      | union n j ts =>
        dsimp only
        split_ifs
        · exact containedMembers_compares inner
        · exact .ok _
      | _ => exact .ok _
    | intersection m ss =>
      cases b with
      | intersection n ts =>
        dsimp only
        split_ifs
        · exact containedMembers_compares inner
        · exact .ok _
      | _ => exact .ok _
    | _ => cases b <;> exact .ok _

structure Gathers (strict : Prop) (live : Nat → Prop)
    (result : Except Fault (Option (List Shape))) : Prop where
  compares : Compares strict result
  leaves : ∀ members, result = .ok (some members) → ∀ m ∈ members, m.Leaves strict live

theorem Gathers.ok (each : ∀ m ∈ members, m.Leaves strict live) :
    Gathers strict live (.ok (some members)) where
  compares := .ok _
  leaves others equal := by
    obtain rfl := Option.some.inj (Except.ok.inj equal)
    exact each

theorem leaves_choice {c : Shape} (leaves : s.Leaves strict live) (choice : Choice s c) :
    c.Leaves strict live := by
  induction choice with
  | self => exact leaves
  | member member _ ih => exact ih (leaves.piece member)

theorem leaves_alternatives (leaves : ∀ s ∈ shapes, s.Leaves strict live) :
    ∀ c ∈ shapes.flatMap spread, c.Leaves strict live := by
  intro c member
  obtain ⟨s, listed, inside⟩ := mem_flatMap.mp member
  exact leaves_choice (leaves s listed) (mem_spread_iff.mp inside).1

theorem enlist_gathers {alternatives : List Shape} (kept : ∀ m ∈ members, m.Leaves strict live)
    (leaves : ∀ c ∈ alternatives, c.Leaves strict live) :
    Gathers strict live (enlist members alternatives) := by
  fun_induction enlist members alternatives with
  | case1 => exact .ok kept
  | case2 => exact ⟨.ok _, fun _ equal => by cases equal⟩
  | case3 members c rest _ e failed =>
    have compares : Compares strict (members.anyM fun m => m.equal c) :=
      .anyM fun m member => equal_compares (kept m member) (leaves c mem_cons_self)
    exact ⟨fun e' equal => compares e' (failed.trans (Except.error.inj equal ▸ rfl)),
      fun _ equal => by cases equal⟩
  | case4 members c rest _ _ ih => exact ih kept (forall_mem_cons.mp leaves).2
  | case5 members c rest _ _ ih =>
    obtain ⟨own, later⟩ := forall_mem_cons.mp leaves
    exact ih (forall_mem_append.mpr ⟨kept, forall_mem_singleton.mpr own⟩) later

theorem addMembers_gathers (kept : ∀ m ∈ members, m.Leaves strict live)
    (leaves : ∀ s ∈ shapes, s.Leaves strict live) : Gathers strict live (addMembers members shapes) :=
  addMembers_eq_enlist members shapes ▸ enlist_gathers kept (leaves_alternatives leaves)

end Shape

/-- The literals that a shape reaches are values of documents. -/
def Graph.Documented (g : Graph) (s : Shape) : Prop := ∀ n w, g.Reaches s (.literal n w) → w.Document

theorem Graph.Documented.piece (documented : g.Documented s) (member : p ∈ s.pieces) : g.Documented p :=
  fun n w reached => documented n w (reached.of_piece member)

theorem Graph.Documented.target (documented : g.Documented (.handle id))
    (bound : g.target? id = some s) : g.Documented s :=
  fun n w reached => documented n w (reached.of_target bound)

theorem Shape.leaves_of_reaches {strict : Prop} {root : Shape} (documented : strict → g.Documented root)
    (reached : g.Reaches root s) : s.Leaves strict fun id => g.Reaches root (.handle id) where
  literals n w inside holds := documented holds n w (reached.trans (.of_mem_subshapes inside))
  handles _ inside := reached.trans (.of_mem_subshapes inside)

end JsonShape
