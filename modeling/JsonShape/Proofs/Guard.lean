import JsonShape.Proofs.Inhabitation
import Mathlib.Data.Finset.Card
import Mathlib.Data.Finset.Range
import Mathlib.Data.Nat.Find

/-! Checks against graphs of shapes, where handles lead around in circles. A handle that is met
again at one place is cut off. What is let pass has the shape; and what has the shape passes, since
the shortest derivation never comes back to a handle. -/
namespace JsonShape

open Conformance List Entries Shape Value

namespace Path

theorem length_intercalate (c : Char) (parts : List (List Char)) :
    ([c].intercalate parts).length = (parts.map fun part => part.length + 1).sum - 1 := by
  induction parts with
  | nil => rfl
  | cons first rest ih =>
    cases rest with
    | nil => simp [intercalate]
    | cons second rest =>
      rw [intercalate_cons_cons, length_append, length_append, ih]
      simp only [map_cons, sum_cons, length_singleton]
      omega

theorem length_pointer (p : Path) :
    p.pointer.length = (p.tokens.map fun token => token.length + 1).sum - 1 + 1 := by
  have inner : ("/".intercalate p.tokens).length = (p.tokens.map fun token => token.length + 1).sum
      - 1 := by
    rw [← String.length_toList, String.toList_intercalate, show "/".toList = ['/'] from rfl]
    have counted := length_intercalate '/' (p.tokens.map String.toList)
    simpa only [map_map, Function.comp_def, String.length_toList] using counted
  rw [pointer, String.length_append, inner, Nat.add_comm]
  rfl

theorem length_pointer_append (p : Path) {token : String} (written : 0 < token.length) :
    p.pointer.length < (⟨p.tokens ++ [token]⟩ : Path).pointer.length := by
  rw [length_pointer, length_pointer]
  simp only [map_append, map_cons, map_nil, sum_append, sum_cons, sum_nil]
  omega

theorem length_pointer_index (p : Path) (i : Nat) : p.pointer.length < (p.index i).pointer.length := by
  apply length_pointer_append
  change 0 < (Nat.repr i).length
  simp [Nat.repr, Nat.length_toDigits_pos]

theorem length_pointer_field (p : Path) {name : String} (named : name ≠ "") :
    p.pointer.length < (p.field name).pointer.length := by
  have longer : name.toList.length ≤ (name.toList.flatMap Text.Pointer.escapeChar).length := by
    rw [length_flatMap]
    have each : ∀ c ∈ name.toList, 1 ≤ (Text.Pointer.escapeChar c).length := by
      intro c _
      unfold Text.Pointer.escapeChar
      split_ifs <;> simp
    simpa using length_le_sum_of_one_le (name.toList.map fun c =>
      (Text.Pointer.escapeChar c).length) (by simpa using each)
  have some : 0 < name.toList.length := by
    rw [String.length_toList, Nat.pos_iff_ne_zero]
    simpa using named
  rw [field, if_neg (by simpa using named)]
  apply length_pointer_append
  rw [Text.Pointer.escape, String.length_ofList]
  exact some.trans_le longer

end Path

variable {g : Graph} {s : Shape} {v : Value} {n : Nat}

def InhabitsWithin (g : Graph) : Nat → Shape → Value → Prop
  | 0, _, _ => False
  | _ + 1, .any, _ => True
  | _ + 1, .literal _ w, v => v.settle.plain.matchesLiteral w = .ok true
  | n + 1, .array _ items, v => ∃ vs, v.settle.items? = some vs ∧ ∀ x ∈ vs, InhabitsWithin g n items x
  | n + 1, .object _ props extra?, v => ∃ entries, v.settle.entries? = some entries ∧
      (∀ p ∈ props, get? entries p.name = none → p.optional = true) ∧
      (∀ p ∈ props, ∀ x, get? entries p.name = some x → InhabitsWithin g n p.shape x) ∧
      ∀ extra, extra? = some extra → ∀ entry ∈ entries, property? props entry.1 = none →
      InhabitsWithin g n extra entry.2
  | n + 1, .union _ _ members, v => ∃ m ∈ members, InhabitsWithin g n m v
  | n + 1, .intersection _ members, v => ∀ m ∈ members, InhabitsWithin g n m v
  | n + 1, .handle id, v => ∀ target, g.target? id = some target → InhabitsWithin g n target v
  | _ + 1, s, v => fitsKind v.settle s.kind = true

theorem InhabitsWithin.succ (within : InhabitsWithin g n s v) : InhabitsWithin g (n + 1) s v := by
  induction n generalizing s v with
  | zero => exact within.elim
  | succ n ih =>
    cases s with
    | array =>
      obtain ⟨vs, listed, each⟩ := within
      exact ⟨vs, listed, fun x member => ih (each x member)⟩
    | object =>
      obtain ⟨entries, keyed, present, declared, undeclared⟩ := within
      exact ⟨entries, keyed, present, fun p member x found => ih (declared p member x found),
        fun extra equal entry member free => ih (undeclared extra equal entry member free)⟩
    | union =>
      obtain ⟨m, member, inside⟩ := within
      exact ⟨m, member, ih inside⟩
    | intersection => exact fun m member => ih (within m member)
    | handle => exact fun target found => ih (within target found)
    | _ => exact within

theorem InhabitsWithin.mono (within : InhabitsWithin g n s v) {m : Nat} (deeper : n ≤ m) :
    InhabitsWithin g m s v := by
  induction deeper with
  | refl => exact within
  | step _ ih => exact ih.succ

theorem inhabitsWithin_settle : InhabitsWithin g n s v.settle ↔ InhabitsWithin g n s v := by
  induction n generalizing s with
  | zero => exact Iff.rfl
  | succ n ih =>
    cases s with
    | union => exact exists_congr fun m => and_congr_right fun _ => ih
    | intersection => exact forall₂_congr fun m _ => ih
    | handle => exact forall₂_congr fun target _ => ih
    | any => exact Iff.rfl
    | _ =>
      unfold InhabitsWithin
      rw [settle_settle]

theorem exists_common_depth {ι : Type} {P : ι → Nat → Prop} (mono : ∀ i m n, m ≤ n → P i m → P i n)
    {items : List ι} (each : ∀ i ∈ items, ∃ n, P i n) : ∃ n, ∀ i ∈ items, P i n := by
  induction items with
  | nil => exact ⟨0, nofun⟩
  | cons i rest ih =>
    obtain ⟨m, here⟩ := each i mem_cons_self
    obtain ⟨n, later⟩ := ih (forall_mem_cons.mp each).2
    refine ⟨max m n, forall_mem_cons.mpr ⟨mono i m _ (le_max_left m n) here, fun j member => ?_⟩⟩
    exact mono j n _ (le_max_right m n) (later j member)

theorem Inhabits.exists_within (inhabits : Inhabits g s v) : ∃ n, InhabitsWithin g n s v := by
  have deeper : ∀ {ι : Type} (shape : ι → Shape) (value : ι → Value) (i : ι) (m n : Nat), m ≤ n →
      InhabitsWithin g m (shape i) (value i) → InhabitsWithin g n (shape i) (value i) :=
    fun shape value i m n less within => within.mono less
  induction inhabits with
  | any v => exact ⟨1, trivial⟩
  | @flat s v fits =>
    refine ⟨1, ?_⟩
    cases s <;> first | exact fits | trivial
  | literal equal => exact ⟨1, equal⟩
  | @array _ items v vs listed _ ih =>
    obtain ⟨n, each⟩ := exists_common_depth (deeper (fun _ => items) id) ih
    exact ⟨n + 1, vs, listed, each⟩
  | @object _ props extra? v entries keyed present _ _ ih ih' =>
    have known : ∃ n, ∀ p ∈ props, ∀ x, get? entries p.name = some x → InhabitsWithin g n p.shape x := by
      apply exists_common_depth
      · exact fun p m n less all x found => (all x found).mono less
      · intro p member
        cases found : get? entries p.name with
        | none => exact ⟨0, nofun⟩
        | some x =>
          obtain ⟨n, within⟩ := ih p member x found
          exact ⟨n, fun y same => Option.some.inj same ▸ within⟩
    have unknown : ∃ n, ∀ extra, extra? = some extra → ∀ entry ∈ entries, property? props entry.1 = none →
        InhabitsWithin g n extra entry.2 := by
      cases extra? with
      | none => exact ⟨0, nofun⟩
      | some extra =>
        have each : ∃ n, ∀ entry ∈ entries, property? props entry.1 = none →
            InhabitsWithin g n extra entry.2 := by
          apply exists_common_depth
          · exact fun entry m n less within free => (within free).mono less
          · intro entry member
            by_cases free : property? props entry.1 = none
            · obtain ⟨n, within⟩ := ih' extra rfl entry member free
              exact ⟨n, fun _ => within⟩
            · exact ⟨0, fun free' => absurd free' free⟩
        obtain ⟨n, within⟩ := each
        exact ⟨n, fun extra' same => Option.some.inj same ▸ within⟩
    obtain ⟨m, declared⟩ := known
    obtain ⟨n, undeclared⟩ := unknown
    refine ⟨max m n + 1, entries, keyed, present, ?_, ?_⟩
    · exact fun p member x found => (declared p member x found).mono (le_max_left m n)
    · exact fun extra equal entry member free =>
        (undeclared extra equal entry member free).mono (le_max_right m n)
  | union member _ ih =>
    obtain ⟨n, inside⟩ := ih
    exact ⟨n + 1, _, member, inside⟩
  | @intersection _ members v _ ih =>
    obtain ⟨n, each⟩ := exists_common_depth (deeper id fun _ => v) ih
    exact ⟨n + 1, each⟩
  | @unbound id v free => exact ⟨1, fun target found => by simp [free] at found⟩
  | bound found _ ih =>
    obtain ⟨n, inside⟩ := ih
    exact ⟨n + 1, fun target found' => Option.some.inj (found.symm.trans found') ▸ inside⟩

theorem InhabitsWithin.inhabits (within : InhabitsWithin g n s v) : Inhabits g s v := by
  induction n generalizing s v with
  | zero => exact within.elim
  | succ n ih =>
    cases s with
    | any => exact .any v
    | literal => exact .literal within
    | array =>
      obtain ⟨vs, listed, each⟩ := within
      exact .array listed fun x member => ih (each x member)
    | object =>
      obtain ⟨entries, keyed, present, declared, undeclared⟩ := within
      exact .object keyed present (fun p member x found => ih (declared p member x found))
        fun extra equal entry member free => ih (undeclared extra equal entry member free)
    | union =>
      obtain ⟨m, member, inside⟩ := within
      exact .union member (ih inside)
    | intersection => exact .intersection fun m member => ih (within m member)
    | handle => exact Inhabits.handle_iff.mpr fun target found => ih (within target found)
    | _ => exact .flat within

theorem inhabits_settle (inhabits : Inhabits g s v.settle) : Inhabits g s v := by
  generalize settled : v.settle = w at inhabits
  induction inhabits with
  | any => exact .any v
  | flat fits => exact .flat (by rwa [← settled, settle_settle] at fits)
  | literal equal => exact .literal (by rwa [← settled, settle_settle] at equal)
  | array listed each _ => exact .array (by rwa [← settled, settle_settle] at listed) each
  | object keyed present declared undeclared _ _ =>
    exact .object (by rwa [← settled, settle_settle] at keyed) present declared undeclared
  | union member _ ih => exact .union member (ih settled)
  | intersection _ ih => exact .intersection fun m member => ih m member settled
  | unbound free => exact .unbound free
  | bound found _ ih => exact .bound found (ih settled)

namespace Conformance

variable {items : Shape} {props : List (Property Shape)} {extra? : Option Shape}

/-- Findings that are missing at most for the lack of an equality. No finding implies something, and
something else implies that there is none. -/
structure Judges (strict : Prop) (findings : Findings) (sound complete : Prop) : Prop where
  compares : Compares strict findings
  sound : findings = .ok [] → sound
  complete : complete → ∀ found, findings = .ok found → found = []

namespace Judges

variable {strict P P' Q Q' : Prop} {first second : Findings} {issue : Issue} {more : List Issue}

theorem imp (judges : Judges strict first P Q) (weaker : P → P') (stronger : Q' → Q) :
    Judges strict first P' Q' :=
  ⟨judges.compares, fun none => weaker (judges.sound none), fun holds => judges.complete (stronger holds)⟩

theorem pass (holds : P) : Judges strict (.ok []) P Q :=
  ⟨.ok _, fun _ => holds, fun _ _ equal => (Except.ok.inj equal).symm⟩

theorem fail (fails : ¬ Q) : Judges strict (.ok (issue :: more)) P Q :=
  ⟨.ok _, nofun, fun holds => absurd holds fails⟩

theorem test {holds : Bool} (sound : holds = true → P) (complete : Q → holds = true) :
    Judges strict (.ok (if holds then [] else issue :: more)) P Q := by
  cases holds with
  | true => exact pass (sound rfl)
  | false => exact fail fun holds => nomatch complete holds

theorem both (one : Judges strict first P Q) (two : Judges strict second P' Q') :
    Judges strict (do return (← first) ++ (← second)) (P ∧ P') (Q ∧ Q') := by
  refine ⟨one.compares.bind fun found _ => two.compares.bind fun more _ => .ok _, ?_, ?_⟩
  · intro none
    cases first with
    | error e => cases none
    | ok found =>
      cases second with
      | error e => cases none
      | ok more =>
        obtain ⟨rfl, rfl⟩ := append_eq_nil_iff.mp (Except.ok.inj none)
        exact ⟨one.sound rfl, two.sound rfl⟩
  · intro holds all equal
    cases first with
    | error e => cases equal
    | ok found =>
      cases second with
      | error e => cases equal
      | ok more =>
        rw [← Except.ok.inj equal, one.complete holds.1 found rfl, two.complete holds.2 more rfl]
        rfl

theorem each {α : Type} {check : α → Findings} {R S : α → Prop} {items : List α}
    (judges : ∀ a ∈ items, Judges strict (check a) (R a) (S a)) :
    Judges strict (checkEach check items) (∀ a ∈ items, R a) (∀ a ∈ items, S a) := by
  induction items with
  | nil => exact pass nofun
  | cons a rest ih =>
    have here := judges a mem_cons_self
    have later := ih (forall_mem_cons.mp judges).2
    rw [checkEach]
    exact (here.both later).imp forall_mem_cons.mpr forall_mem_cons.mp

theorem some {check : Shape → Findings} {R S : Shape → Prop} {shapes : List Shape}
    (judges : ∀ s ∈ shapes, Judges strict (check s) (R s) (S s)) :
    Judges strict
      (do
      if ← acceptsSome check shapes then return [] else return [issue]) (∃ s ∈ shapes, R s)
      (∃ s ∈ shapes, S s) := by
  induction shapes with
  | nil => exact fail (by simp)
  | cons s rest ih =>
    have here := judges s mem_cons_self
    have later := ih (forall_mem_cons.mp judges).2
    rw [acceptsSome]
    cases checked : check s with
    | error e =>
      rw [checked] at here
      exact ⟨fun e' broken => here.compares e' broken, nofun, nofun⟩
    | ok found =>
      rw [checked] at here
      cases found with
      | nil => exact pass ⟨s, mem_cons_self, here.sound rfl⟩
      | cons issue' more =>
        apply later.imp
        · exact fun ⟨t, member, holds⟩ => ⟨t, mem_cons_of_mem _ member, holds⟩
        · rintro ⟨t, member, holds⟩
          rcases mem_cons.mp member with rfl | inside
          · exact nomatch here.complete holds _ rfl
          · exact ⟨t, inside, holds⟩

end Judges

/-- The handles that are not open at a place. -/
def closedAt (g : Graph) (opened : Opened) (p : Path) : Finset Nat :=
  {id ∈ Finset.range g.handles.size | (id, p.pointer) ∉ opened}

/-- How deep the way down can still be: into the value, through the handles that are not open at the
place, and through the shape below the last handle. -/
def toGo (g : Graph) (opened : Opened) (s : Shape) (room : Nat) (p : Path) : Nat :=
  (g.handles.size * room + (closedAt g opened p).card) * g.size + s.size

def Affords (g : Graph) (opened : Opened) (s : Shape) (room : Nat) (p : Path) (budget : Nat) :
    Prop := toGo g opened s room p ≤ budget

variable {budget room room' id : Nat} {opened : Opened} {m : Shape} {p : Path}

theorem card_closedAt_le (g : Graph) (opened : Opened) (p : Path) :
    (closedAt g opened p).card ≤ g.handles.size := by
  simpa [closedAt] using Finset.card_filter_le (Finset.range g.handles.size) fun id =>
    (id, p.pointer) ∉ opened

theorem card_closedAt_cons (known : id < g.handles.size) (fresh : (id, p.pointer) ∉ opened) :
    (closedAt g ((id, p.pointer) :: opened) p).card < (closedAt g opened p).card := by
  refine Finset.card_lt_card ((Finset.ssubset_iff_of_subset ?_).mpr ⟨id, ?_, ?_⟩)
  · exact Finset.monotone_filter_right _ fun other _ apart inside => apart (mem_cons_of_mem _ inside)
  · simpa [closedAt, known] using fresh
  · simp [closedAt]

theorem Affords.pos (affords : Affords g opened s room p budget) : 0 < budget := by
  have positive := s.size_pos
  unfold Affords toGo at affords
  omega

theorem Affords.mono (affords : Affords g opened s room p budget) (less : room' ≤ room) :
    Affords g opened s room' p budget := by
  refine le_trans ?_ affords
  unfold toGo
  gcongr

theorem Affords.settle (affords : Affords g opened s v.size p budget) :
    Affords g opened s v.settle.size p budget := affords.mono v.size_settle_le

theorem Affords.piece (affords : Affords g opened s room p (budget + 1)) (member : m ∈ s.pieces) :
    Affords g opened m room p budget := by
  have smaller := size_lt_of_mem_pieces member
  unfold Affords toGo at *
  omega

theorem Affords.descend (affords : Affords g opened s room p (budget + 1)) (member : m ∈ s.pieces)
    (deeper : room' < room) (q : Path) : Affords g opened m room' q budget := by
  have smaller := size_lt_of_mem_pieces member
  have openings : (g.handles.size * room' + (closedAt g opened q).card) * g.size ≤
      (g.handles.size * room + (closedAt g opened p).card) * g.size := by
    refine Nat.mul_le_mul_right _ ?_
    have few := card_closedAt_le g opened q
    have product := Nat.mul_le_mul_left g.handles.size deeper
    rw [Nat.mul_succ] at product
    omega
  unfold Affords toGo at *
  omega

theorem Affords.open_handle (affords : Affords g opened (.handle id) room p (budget + 1))
    (fresh : (id, p.pointer) ∉ opened) {target : Shape} (found : g.target? id = some target) :
    Affords g ((id, p.pointer) :: opened) target room p budget := by
  obtain ⟨h, listed, -⟩ := Option.bind_eq_some_iff.mp found
  have fewer := card_closedAt_cons (Array.getElem?_eq_some_iff.mp listed).1 fresh
  have small := target_size_le found
  have openings := Nat.mul_le_mul_right g.size (Nat.add_lt_add_left fewer (g.handles.size * room))
  have one : (handle id).size = 1 := rfl
  rw [Nat.succ_mul] at openings
  unfold Affords toGo at *
  omega

theorem affords_checkBudget (g : Graph) (s : Shape) (v : Value) :
    Affords g [] s v.size .root (checkBudget g s v) := by
  have few := Nat.add_le_add_left (card_closedAt_le g [] .root) (g.handles.size * v.size)
  have openings := Nat.mul_le_mul few (show g.size ≤ g.size + s.size + 1 by omega)
  rw [← Nat.mul_add_one] at openings
  unfold Affords toGo checkBudget
  rw [Nat.succ_mul (g.handles.size * (v.size + 1))]
  omega

/-- The guard leaves a derivation of some depth alone: at this place it holds only handles that the
value has by deeper derivations. -/
structure Clear (g : Graph) (opened : Opened) (n : Nat) (v : Value) (p : Path) : Prop where
  blocked : ∀ id, (id, p.pointer) ∈ opened → ¬ InhabitsWithin g n (.handle id) v
  above : ∀ entry ∈ opened, entry.2.length ≤ p.pointer.length

/-- Nothing stands in the way of a derivation: there is no handle, or entries have names and the
guard is clear. -/
def Open (g : Graph) (opened : Opened) (s : Shape) (n : Nat) (v : Value) (p : Path) : Prop :=
  (∀ id, .handle id ∉ s.subshapes) ∨ v.labelled = true ∧ Clear g opened n v p

/-- There is a derivation that the check can follow. -/
def Passable (g : Graph) (opened : Opened) (s : Shape) (v : Value) (p : Path) : Prop :=
  ∃ n, InhabitsWithin g n s v ∧ Open g opened s n v p

variable {k : Nat} {x : Value} {q : Path} {members : List Shape}

theorem Passable.settle (passable : Passable g opened s v p) : Passable g opened s v.settle p := by
  obtain ⟨n, within, bare | ⟨named, clear⟩⟩ := passable
  · exact ⟨n, inhabitsWithin_settle.mpr within, .inl bare⟩
  · refine ⟨n, inhabitsWithin_settle.mpr within,
      .inr ⟨everyMap_settle named, fun id listed => ?_, clear.above⟩⟩
    rw [inhabitsWithin_settle]
    exact clear.blocked id listed

theorem Open.piece (way : Open g opened s (n + 1) v p) (member : m ∈ s.pieces) :
    Open g opened m n v p := by
  rcases way with bare | ⟨named, clear⟩
  · exact .inl fun id inside => bare id (mem_subshapes_iff.mpr (.inr ⟨m, member, inside⟩))
  · exact .inr ⟨named, fun id listed within => clear.blocked id listed within.succ, clear.above⟩

theorem Open.descend (way : Open g opened s (n + 1) v p) (member : m ∈ s.pieces)
    (below : v.labelled = true → x.labelled = true ∧ p.pointer.length < q.pointer.length) :
    Open g opened m n x q := by
  rcases way with bare | ⟨named, clear⟩
  · exact .inl fun id inside => bare id (mem_subshapes_iff.mpr (.inr ⟨m, member, inside⟩))
  · obtain ⟨named', longer⟩ := below named
    refine .inr ⟨named', fun id listed => ?_, fun entry listed => ?_⟩
    · exact absurd (clear.above _ listed) (Nat.not_le.mpr longer)
    · exact (clear.above entry listed).trans longer.le

theorem entry_below (named : v.labelled = true) {entries : List (String × Value)}
    (keyed : v.entries? = some entries) {entry : String × Value} (member : entry ∈ entries)
    (p : Path) : entry.2.labelled = true ∧ p.pointer.length < (p.field entry.1).pointer.length := by
  have names : "" ∉ entries.map (·.1) := by simpa using test_of_entries named keyed
  have label : entry.1 ≠ "" := fun empty => names (empty ▸ mem_map_of_mem member)
  exact ⟨everyMap_of_mem_entries named keyed member, p.length_pointer_field label⟩

theorem Passable.inhabits (passable : Passable g opened s v p) : Inhabits g s v := by
  obtain ⟨n, within, -⟩ := passable
  exact within.inhabits

theorem Passable.union {inclusive : Bool} (passable : Passable g opened (.union k inclusive members) v p) :
    ∃ m ∈ members, Passable g opened m v p := by
  obtain ⟨_ | n, within, way⟩ := passable
  · exact within.elim
  · obtain ⟨m, member, inside⟩ := within
    exact ⟨m, member, n, inside, way.piece member⟩

theorem Passable.intersection (passable : Passable g opened (.intersection k members) v p) :
    ∀ m ∈ members, Passable g opened m v p := by
  obtain ⟨_ | n, within, way⟩ := passable
  · exact within.elim
  · exact fun m member => ⟨n, within m member, way.piece member⟩

theorem Passable.array (settled : v.settle = v) (passable : Passable g opened (.array k items) v p) :
    ∃ vs, v.items? = some vs ∧ ∀ x ∈ vs, ∀ i : Nat, Passable g opened items x (p.index i) := by
  obtain ⟨_ | n, within, way⟩ := passable
  · exact within.elim
  · obtain ⟨vs, listed, each⟩ := within
    rw [settled] at listed
    refine ⟨vs, listed, fun x member i => ⟨n, each x member, way.descend mem_cons_self fun named => ?_⟩⟩
    exact ⟨everyMap_of_mem_items named listed member, p.length_pointer_index i⟩

theorem Passable.object (settled : v.settle = v)
    (passable : Passable g opened (.object k props extra?) v p) :
    ∃ entries, v.entries? = some entries ∧
      (∀ prop ∈ props, get? entries prop.name = none → prop.optional = true) ∧
      (∀ prop ∈ props, ∀ x, get? entries prop.name = some x →
      Passable g opened prop.shape x (p.field prop.name)) ∧ ∀ extra, extra? = some extra →
      ∀ entry ∈ entries, property? props entry.1 = none →
      Passable g opened extra entry.2 (p.field entry.1) := by
  obtain ⟨_ | n, within, way⟩ := passable
  · exact within.elim
  · obtain ⟨entries, keyed, present, declared, undeclared⟩ := within
    rw [settled] at keyed
    refine ⟨entries, keyed, present, fun prop member x found => ⟨n, declared prop member x found, ?_⟩, ?_⟩
    · apply way.descend (mem_pieces_of_mem_props member)
      exact fun named => entry_below named keyed (mem_of_get?_eq_some found) p
    · rintro extra rfl entry member free
      exact ⟨n, undeclared extra rfl entry member free, way.descend mem_pieces_of_extra fun named =>
        entry_below named keyed member p⟩

theorem Passable.not_met (passable : Passable g opened (.handle id) v p) : (id, p.pointer) ∉ opened := by
  obtain ⟨n, within, bare | ⟨-, clear⟩⟩ := passable
  · exact absurd (mem_subshapes_self _) (bare id)
  · exact fun listed => clear.blocked id listed within

theorem Passable.target (passable : Passable g opened (.handle id) v p) {target : Shape}
    (found : g.target? id = some target) : Passable g ((id, p.pointer) :: opened) target v p := by
  classical
  obtain ⟨n, within, bare | ⟨named, clear⟩⟩ := passable
  · exact absurd (mem_subshapes_self _) (bare id)
  have some : ∃ k, InhabitsWithin g k (.handle id) v := ⟨n, within⟩
  have shallow := Nat.find_spec some
  have least := fun k => Nat.find_min (H := some) (m := k)
  have bound : Nat.find some ≤ n := Nat.find_min' some within
  cases depth : Nat.find some with
  | zero => rw [depth] at shallow; exact shallow.elim
  | succ k =>
    rw [depth] at shallow least bound
    refine ⟨k, shallow target found, .inr ⟨named, fun other listed => ?_, fun entry listed => ?_⟩⟩
    · rcases mem_cons.mp listed with same | before
      · rw [(Prod.mk.inj same).1]
        exact least k k.lt_succ_self
      · exact fun within' => clear.blocked other before (within'.mono (by omega))
    · rcases mem_cons.mp listed with rfl | before
      · exact Nat.le_refl _
      · exact clear.above entry before

variable {strict : Prop} {entries : List (String × Value)}

theorem check_settle (g : Graph) (budget : Nat) (opened : Opened) (s : Shape) (v : Value) (p : Path) :
    check g budget opened s v.settle p = check g budget opened s v p := by
  cases budget with
  | zero => rfl
  | succ budget =>
    rw [check.eq_def, check.eq_def g (budget + 1) opened s v]
    simp only [settle_settle]

theorem checkProperty_judges {check : Shape → Value → Path → Findings} {prop : Property Shape}
    {Q : Value → Prop}
    (inside : ∀ x, get? entries prop.name = some x →
      Judges strict (check prop.shape x (p.field prop.name)) (Inhabits g prop.shape x) (Q x)) :
    Judges strict (checkProperty check entries p prop)
      ((get? entries prop.name = none → prop.optional = true) ∧
      ∀ x, get? entries prop.name = some x → Inhabits g prop.shape x)
      ((get? entries prop.name = none → prop.optional = true) ∧
      ∀ x, get? entries prop.name = some x → Q x) := by
  unfold checkProperty
  cases found : get? entries prop.name with
  | some x => exact (inside x found).imp (by simp) (by simp)
  | none => exact Judges.test (by simp) (by simp)

theorem checkExtra_judges {check : Shape → Value → Path → Findings} (props : List (Property Shape))
    {extra : Shape} {Q : String × Value → Prop}
    (inside : ∀ entry ∈ entries, Judges strict (check extra entry.2 (p.field entry.1))
      (Inhabits g extra entry.2) (Q entry)) :
    Judges strict (checkExtra check entries p props extra)
      (∀ entry ∈ entries, property? props entry.1 = none → Inhabits g extra entry.2)
      (∀ entry ∈ entries, property? props entry.1 = none → Q entry) := by
  refine (Judges.each fun entry member => inside entry (mem_of_mem_filter member)).imp ?_ ?_
  · simp [mem_filter]
  · simp [mem_filter]

theorem check_array_judges {Q : Value → Path → Prop} (settled : v.settle = v)
    (inside : ∀ vs, v.items? = some vs → ∀ x ∈ vs, ∀ i : Nat, Judges strict
      (check g budget opened items x (p.index i)) (Inhabits g items x) (Q x (p.index i))) :
    Judges strict (check g (budget + 1) opened (.array n items) v p) (Inhabits g (.array n items) v)
      (∃ vs, v.items? = some vs ∧ ∀ x ∈ vs, ∀ i : Nat, Q x (p.index i)) := by
  rw [check, settled]
  cases listed : v.items? with
  | none => exact .fail (by simp)
  | some vs =>
    have each : ∀ pair ∈ vs.zipIdx, Judges strict
        (check g budget opened items pair.1 (p.index pair.2)) (Inhabits g items pair.1)
        (Q pair.1 (p.index pair.2)) :=
      fun pair member => inside vs listed _ (fst_mem_of_mem_zipIdx member) pair.2
    apply (Judges.each each).imp
    · intro all
      apply Inhabits.array (settled ▸ listed)
      intro x member
      obtain ⟨i, found⟩ := getElem?_of_mem member
      exact all (x, i) (mem_zipIdx_iff_getElem?.mpr found)
    · rintro ⟨vs', same, all⟩ pair member
      obtain rfl := Option.some.inj same
      exact all _ (fst_mem_of_mem_zipIdx member) pair.2

theorem check_object_judges {Q : Shape → Value → Path → Prop} (settled : v.settle = v)
    (declared : ∀ entries, v.entries? = some entries → ∀ prop ∈ props, ∀ x,
      get? entries prop.name = some x →
      Judges strict (check g budget opened prop.shape x (p.field prop.name))
      (Inhabits g prop.shape x) (Q prop.shape x (p.field prop.name)))
    (undeclared : ∀ entries, v.entries? = some entries → ∀ extra, extra? = some extra →
      ∀ entry ∈ entries, Judges strict (check g budget opened extra entry.2 (p.field entry.1))
      (Inhabits g extra entry.2) (Q extra entry.2 (p.field entry.1))) :
    Judges strict (check g (budget + 1) opened (.object n props extra?) v p)
      (Inhabits g (.object n props extra?) v)
      (∃ entries, v.entries? = some entries ∧
      (∀ prop ∈ props, get? entries prop.name = none → prop.optional = true) ∧
      (∀ prop ∈ props, ∀ x, get? entries prop.name = some x → Q prop.shape x (p.field prop.name)) ∧
      ∀ extra, extra? = some extra → ∀ entry ∈ entries, property? props entry.1 = none →
      Q extra entry.2 (p.field entry.1)) := by
  rw [check, Inhabits.object_iff, settled]
  cases keyed : v.entries? with
  | none => exact .fail (by simp)
  | some entries =>
    have known := Judges.each fun prop member => checkProperty_judges (declared entries keyed prop member)
    cases extra? with
    | none =>
      have judged := known.both (Judges.pass (Q := True) trivial)
      exact judged.imp (by simp [forall_and]) (by simp [forall_and])
    | some extra =>
      have unknown := checkExtra_judges props (undeclared entries keyed extra rfl)
      exact (known.both unknown).imp (by simp [forall_and, and_assoc]) (by simp [forall_and, and_assoc])

theorem check_literal_judges {w : Value} (settled : v.settle = v) (document : strict → w.Document) :
    Judges strict (check g (budget + 1) opened (.literal n w) v p) (Inhabits g (.literal n w) v)
      (Inhabits g (.literal n w) v) := by
  have compares := matchesLiteral_plain_compares document v
  rw [check, Inhabits.literal_iff, settled]
  cases matched : v.plain.matchesLiteral w with
  | error e =>
    rw [matched] at compares
    exact ⟨fun e' broken => compares e' (by rw [Except.error.inj broken]), nofun, nofun⟩
  | ok same =>
    cases same with
    | true => exact .pass rfl
    | false => exact .fail nofun

theorem check_flat (flat : s.isFlat = true) (proper : s ≠ .any) (budget : Nat) (opened : Opened)
    (v : Value) (path : Path) : check g (budget + 1) opened s v path =
      .ok (if fitsKind v.settle s.kind then [] else mismatch path (g.shapeText s) v.settle) := by
  cases s with
  | any => exact absurd rfl proper
  | never | null | boolean | number | string | binary | dateTime => rfl
  | _ => cases flat

theorem check_flat_judges (flat : s.isFlat = true) :
    Judges strict (check g (budget + 1) opened s v p) (Inhabits g s v) (Inhabits g s v) := by
  by_cases proper : s = .any
  · subst proper
    exact .pass (.any v)
  · rw [check_flat flat proper, Inhabits.flat_iff flat proper]
    exact .test id id

/-- A check with a budget that suffices: no finding means that the value has the shape, and a
derivation that it can follow means that there is no finding. -/
theorem check_judges (affords : Affords g opened s v.size p budget)
    (documented : strict → g.Documented s) :
    Judges strict (check g budget opened s v p) (Inhabits g s v) (Passable g opened s v p) := by
  induction budget generalizing opened s v p with
  | zero => exact absurd affords.pos (Nat.lt_irrefl 0)
  | succ budget ih =>
    -- References are followed first, so the value can be taken to be none.
    rw [← check_settle]
    refine Judges.imp ?_ inhabits_settle Passable.settle
    have settled := v.settle_settle
    have affords := affords.settle
    generalize v.settle = v at settled affords ⊢
    have inner : ∀ m ∈ s.pieces, strict → g.Documented m :=
      fun m member holds => (documented holds).piece member
    have same : ∀ m ∈ s.pieces, Judges strict (check g budget opened m v p) (Inhabits g m v)
        (Passable g opened m v p) :=
      fun m member => ih (affords.piece member) (inner m member)
    have below : ∀ m ∈ s.pieces, ∀ x : Value, x.size < v.size → ∀ q : Path,
        Judges strict (check g budget opened m x q) (Inhabits g m x) (Passable g opened m x q) :=
      fun m member x smaller q => ih (affords.descend member smaller q) (inner m member)
    cases s with
    | handle id =>
      rw [check]
      split_ifs with met
      · exact .fail fun passable => passable.not_met (by simpa using met)
      · cases found : g.target? id with
        | none => exact .pass (.unbound found)
        | some target =>
          have opens := affords.open_handle (by simpa using met) found
          have judged := ih opens fun holds => (documented holds).target found
          rw [settled]
          exact judged.imp (.bound found) fun passable => passable.target found
    | union n inclusive members =>
      rw [check, settled]
      exact (Judges.some same).imp (fun ⟨m, member, inside⟩ => .union member inside) Passable.union
    | intersection n members =>
      rw [check, settled]
      exact (Judges.each same).imp .intersection Passable.intersection
    | literal n w =>
      exact (check_literal_judges settled fun holds => documented holds n w .self).imp id Passable.inhabits
    | array n items =>
      have judged := check_array_judges (n := n) settled fun vs listed x member i =>
        below items mem_cons_self x (size_lt_of_mem_items listed member) (p.index i)
      exact judged.imp id (Passable.array settled)
    | object n props extra? =>
      have declared : ∀ prop ∈ props, prop.shape ∈ (object n props extra?).pieces :=
        fun prop => mem_pieces_of_mem_props
      have undeclared : ∀ extra, extra? = some extra → extra ∈ (object n props extra?).pieces :=
        fun extra equal => equal ▸ mem_pieces_of_extra
      have judged := check_object_judges (n := n) settled
        (fun entries keyed prop member x found => below _ (declared prop member) x
          (size_lt_of_mem_entries keyed (mem_of_get?_eq_some found)) (p.field prop.name))
        fun entries keyed extra equal entry member => below extra (undeclared extra equal) entry.2
          (size_lt_of_mem_entries keyed member) (p.field entry.1)
      exact judged.imp id (Passable.object settled)
    | _ => exact (check_flat_judges rfl).imp id Passable.inhabits

theorem issues_judges (g : Graph) (s : Shape) (v : Value) :
    Judges (g.Documented s) (issues g s v) (Inhabits g s v) (Passable g [] s v .root) :=
  check_judges (affords_checkBudget g s v) fun documented => documented

theorem passable_of_inhabits (told : v.labelled = true ∨ ∀ id, .handle id ∉ s.subshapes)
    (inhabits : Inhabits g s v) : Passable g [] s v .root := by
  obtain ⟨n, within⟩ := inhabits.exists_within
  rcases told with named | bare
  · exact ⟨n, within, .inr ⟨named, nofun, nofun⟩⟩
  · exact ⟨n, within, .inl bare⟩

theorem issues_of_conforms (conforms : conforms g s v = .ok true) : issues g s v = .ok [] := by
  obtain ⟨found, passes, none⟩ := bind_eq_ok_iff.mp conforms
  rwa [isEmpty_iff.mp (Except.ok.inj none)] at passes

theorem conforms_decides_told (g : Graph) (documented : g.Documented s)
    (told : v.labelled = true ∨ ∀ id, .handle id ∉ s.subshapes) :
    Decides (conforms g s v) (Inhabits g s v) := by
  have judges := issues_judges g s v
  cases checked : issues g s v with
  | error e => exact absurd documented (judges.compares e checked).2
  | ok found =>
    refine ⟨found.isEmpty, by rw [conforms, checked]; rfl, ?_⟩
    rw [List.isEmpty_iff]
    exact ⟨fun none => judges.sound (none ▸ checked), fun inhabits =>
      judges.complete (passable_of_inhabits told inhabits) found checked⟩

theorem conforms_decides (g : Graph) (tidy : s.Tidy fun leaf => leaf.kind ≠ .named) (v : Value) :
    Decides (conforms g s v) (Inhabits g s v) :=
  conforms_decides_told g (tidy.documented g fun _ => absurd rfl) (.inr fun _ inside =>
    absurd rfl (tidy.of_reaches (fun _ => absurd rfl)
      (.of_mem_subshapes inside : g.Reaches s _)).of_handle)

/-- A check comes to an end, unless a constant that no document can hold has no equality. Where it
finds nothing, the value has the shape. -/
theorem inhabits_of_no_issue (g : Graph) (s : Shape) (v : Value) :
    (∃ found, issues g s v = .ok found ∧ (found = [] → Inhabits g s v)) ∨
      issues g s v = .error .incomparable ∧ ¬ g.Documented s := by
  have judges := issues_judges g s v
  cases checked : issues g s v with
  | error e =>
    obtain ⟨rfl, loose⟩ := judges.compares e checked
    exact .inr ⟨rfl, loose⟩
  | ok found =>
    refine .inl ⟨found, rfl, ?_⟩
    rintro rfl
    exact judges.sound checked

/-- A value that has a shape passes the check, if each entry in it has a name or no handle is in the
way. -/
theorem no_issue_of_inhabits (g : Graph) (s : Shape) (v : Value)
    (told : v.labelled = true ∨ ∀ id, .handle id ∉ s.subshapes) (inhabits : Inhabits g s v) :
    issues g s v = .ok [] ∨ issues g s v = .error .incomparable ∧ ¬ g.Documented s := by
  have judges := issues_judges g s v
  cases checked : issues g s v with
  | error e =>
    obtain ⟨rfl, loose⟩ := judges.compares e checked
    exact .inr ⟨rfl, loose⟩
  | ok found =>
    rw [judges.complete (passable_of_inhabits told inhabits) found checked]
    exact .inl rfl

def chain : Graph where
  handles :=
    #[⟨"Chain", "", some (.union 0 false
    [.null, .object 1 [⟨"next", .handle 1, false, none⟩] none])⟩,
    ⟨"Link", "", some (.handle 0)⟩]
  next := 2

def links : Value := .map .values [("next", .map .values [("next", .null)])]

theorem links_inhabit : Inhabits chain (.handle 0) links := by
  have target : chain.target? 0 =
      some (.union 0 false [.null, .object 1 [⟨"next", .handle 1, false, none⟩] none]) := rfl
  have around : ∀ {v : Value}, Inhabits chain (.handle 0) v → Inhabits chain (.handle 1) v := .bound rfl
  have link : ∀ v : Value, Inhabits chain (.handle 0) v → Inhabits chain (.handle 0)
      (.map .values [("next", v)]) := by
    intro v inside
    apply Inhabits.bound target
    apply Inhabits.union (mem_cons_of_mem _ mem_cons_self)
    apply Inhabits.object rfl
    · simp [get?]
    · simpa [get?] using around inside
    · rintro _ ⟨⟩
  apply link
  apply link
  exact .bound target (.union mem_cons_self (.flat rfl))

theorem links_pass :
    Inhabits chain (.handle 0) links ∧ (issues chain (.handle 0) links = .ok [] ∨
      issues chain (.handle 0) links = .error .incomparable ∧ ¬ chain.Documented (.handle 0)) :=
  ⟨links_inhabit, no_issue_of_inhabits chain (.handle 0) links (.inl (by decide)) links_inhabit⟩

def loop : Graph where
  handles := #[⟨"Root", "", some (.object 0 [⟨"", .handle 0, true, none⟩] none)⟩]
  next := 1

def unnamed : Value := .map .values [("", .map .values [])]

/-- The place of an entry without a name looks like the place of its map, so its handle is cut
off. -/
theorem unnamed_refused :
    Inhabits loop (.handle 0) unnamed ∧ ∃ issue, issues loop (.handle 0) unnamed = .ok [issue] := by
  have target : loop.target? 0 = some (.object 0 [⟨"", .handle 0, true, none⟩] none) := rfl
  constructor
  · have inner : Inhabits loop (.handle 0) (.map .values []) :=
      .bound target (.object rfl (by simp) (by simp [get?]) (by rintro _ ⟨⟩))
    exact .bound target (.object rfl (by simp) (by simpa [get?] using inner) (by rintro _ ⟨⟩))
  · have budget : checkBudget loop (.handle 0) unnamed = 12 + 5 := rfl
    have same : Path.root.field "" = Path.root := rfl
    refine ⟨.atPath .root .invalidType ("recursive type " ++ loop.nameOf 0 ++ " has no concrete shape")
      [("expected", .string (loop.nameOf 0))], ?_⟩
    rw [issues, budget]
    simp [check, target, unnamed, settle, entries?, MapKind.isKeyedByText, checkEach,
      checkProperty, get?, same]
    rfl

end Conformance

end JsonShape
