import JsonShape.Proofs.Conversion
import JsonShape.Proofs.Projection
import JsonShape.Proofs.Termination

/-! Recursive functions end. Neither a shape nor a value need get smaller when the target of a
handle is followed, but what the meet, the check and the walk of the codec ask of themselves is well
founded: their budgets last. -/

namespace JsonShape
open List

/-- Two runs with one outcome, which is good unless values cannot be compared. -/
structure Agrees {α : Type} (good : α → Prop) (result result' : Except Fault α) : Prop where
  same : result = result'
  attains : Attains False good result

namespace Shape

/-- Two shapes to be met, with the pairs that are being met around them. -/
structure Encounter where
  active : List (Shape × Shape)
  left : Shape
  right : Shape

namespace Encounter

variable {target? : Nat → Option Shape} {active : List (Shape × Shape)} {a b : Shape} {m n : Nat}
  {c : Encounter}

/-- What an encounter can ask for: pieces of its shapes, in either order, and the targets of a pair
that is not being met. -/
inductive Asks (target? : Nat → Option Shape) : Encounter → Encounter → Prop
  | descend {active : List (Shape × Shape)} {a b a' b' : Shape} (descends : Descends a b a' b') :
    Asks target? ⟨active, a, b⟩ ⟨active, a', b'⟩
  | opening {active : List (Shape × Shape)} {a b ta tb : Shape} (fresh : (a, b) ∉ active)
      (left : opened target? a = some ta)
    (right : opened target? b = some tb) : Asks target? ⟨active, a, b⟩ ⟨(a, b) :: active, ta, tb⟩

/-- Two budgets with which an encounter has one outcome. -/
def Ends (target? : Nat → Option Shape) (m n : Nat) (c : Encounter) : Prop :=
  ∀ k, Agrees (fun _ => True) (meet target? m c.active c.left c.right k)
    (meet target? n c.active c.left c.right k)

theorem shiftPairs_zero (active : List (Shape × Shape)) : shiftPairs ⟨0, 0⟩ active = active := by
  have same : Prod.map (shift ⟨0, 0⟩) (shift ⟨0, 0⟩) = id := by
    funext pair
    exact Prod.ext pair.1.shift_zero pair.2.shift_zero
  rw [shiftPairs, same, map_id]

theorem ends_iff_follows :
    Ends target? m n ⟨active, a, b⟩ ↔ MeetFollows ⟨0, 0⟩ False (fun _ => True)
      (meet target? m active) (meet target? n (shiftPairs ⟨0, 0⟩ active)) a b := by
  unfold MeetFollows Ends
  rw [shiftPairs_zero, shift_zero, shift_zero]
  refine forall_congr' fun k => ⟨fun ends => ?_, fun pairs => ?_⟩
  · obtain ⟨same, attains⟩ := ends
    change Fresh.Pairs ⟨0, 0⟩ False _ _ _ (meet target? n active a b k)
    rw [← same]
    generalize meet target? m active a b k = result at attains
    cases attains with
    | fault lenient => exact .fault lenient
    | @ok r holds =>
      have paired : Fresh.Pairs ⟨0, 0⟩ False (shift ⟨0, 0⟩) (Leaves False fun _ => True)
          (.ok (r.1, r.2)) (.ok (r.1.shift ⟨0, 0⟩, r.2)) :=
        .ok (leaves_free r.1)
      rwa [shift_zero] at paired
  · change Fresh.Pairs ⟨0, 0⟩ False _ _ _ (meet target? n active a b k) at pairs
    generalize meet target? m active a b k = result, meet target? n active a b k = result' at pairs
    cases pairs with
    | ok holds => exact ⟨by rw [shift_zero]; rfl, .ok trivial⟩
    | fault lenient => exact ⟨rfl, .fault lenient⟩

theorem acc_of_affords {shapes : List Shape} {size budget : Nat}
    (confined : Confined target? shapes size)
    (affords : Affords shapes size c.active c.left c.right budget) :
    Acc (fun c' c => Asks target? c c') c := by
  induction budget generalizing c with
  | zero => exact absurd affords.pos (Nat.lt_irrefl 0)
  | succ budget ih =>
    refine .intro c fun c' asks => ih ?_
    cases asks with
    | descend descends => exact affords.descend confined descends
    | opening fresh left right => exact affords.open_pair confined fresh left right

end Encounter

open Encounter in
/-- The meet of two shapes ends: an encounter's outcome rests on the encounters that it asks for,
there is no endless chain of those, and every budget from the one of `intersect` on has the outcome
of `intersect`. -/
theorem intersect_ends (g : Graph) (a b : Shape) :
    (∀ c m n, (∀ c', Asks g.target? c c' → c'.Ends g.target? m n) → c.Ends g.target? (m + 1)
      (n + 1)) ∧ Acc (fun c' c => Asks g.target? c c') ⟨[], a, b⟩ ∧
      ∀ budget, meetBudget g a b ≤ budget → ∀ n, Agrees (fun _ => True) (intersect g a b n)
      (meet g.target? budget [] a b n) := by
  have confined := confined_meetShapes g a b
  have affords := affords_meetBudget g a b
  refine ⟨?_, acc_of_affords confined affords, fun budget more => ?_⟩
  · rintro ⟨active, a, b⟩ m n each
    refine ends_iff_follows.mpr (meet_step_follows (targetsFollow_self g) (leaves_free a)
      (leaves_free b) ?_ fun a' b' descends => ?_)
    · exact fun fresh ta tb left right => ends_iff_follows.mp (each _ (.opening fresh left right))
    · exact ends_iff_follows.mp (each _ (.descend descends))
  · have larger : Affords (meetShapes g a b) (a.size + b.size + g.size) [] a b budget :=
      { affords with enough := affords.enough.trans more }
    refine ends_iff_follows.mpr (meet_follows (targetsFollow_self g) (fun _ _ s _ => leaves_free s)
      confined confined (leaves_free a)
      (leaves_free b) affords ?_)
    rwa [shiftPairs_zero, shift_zero, shift_zero]

end Shape

namespace Wire

open Conformance

/-- How deep a value can be walked into. -/
def Nests : Nat → Value → Prop
  | 0, v => convertible? v = none ∧ v.entries? = none
  | n + 1, v =>
    (∀ vs, convertible? v = some vs → ∀ w ∈ vs, Nests n w) ∧ ∀ entries, v.entries? = some entries →
      ∀ e ∈ entries, Nests n e.2

variable {g : Graph} {direction : Direction} {budget budget' n : Nat} {opened : Opened} {s : Shape}
  {v : Value} {p : Path}

theorem nests_of_flat (unlisted : convertible? v = none) (unkeyed : v.entries? = none) : Nests n v := by
  cases n with
  | zero => exact ⟨unlisted, unkeyed⟩
  | succ n => simp [Nests, unlisted, unkeyed]

theorem Nests.exists_of_items (nests : Nests n v) {vs : List Value}
    (listed : convertible? v = some vs) : ∃ m, n = m + 1 ∧ ∀ w ∈ vs, Nests m w := by
  cases n with
  | zero => cases nests.1.symm.trans listed
  | succ n => exact ⟨n, rfl, nests.1 vs listed⟩

theorem Nests.exists_of_entries (nests : Nests n v) {entries : List (String × Value)}
    (keyed : v.entries? = some entries) : ∃ m, n = m + 1 ∧ ∀ e ∈ entries, Nests m e.2 := by
  cases n with
  | zero => cases nests.2.symm.trans keyed
  | succ n => exact ⟨n, rfl, nests.2 entries keyed⟩

theorem nests_of_size_le (small : v.size ≤ n) : Nests n v := by
  induction n generalizing v with
  | zero =>
    have positive : 0 < v.size := by
      fun_cases Value.size v <;> omega
    omega
  | succ n ih =>
    refine ⟨fun vs listed w member => ?_, fun entries keyed e member => ?_⟩
    · cases v with
      | seq kind items =>
        have smaller := Value.size_lt_of_mem_items (v := .seq kind items) listed member
        exact ih (by omega)
      | namedBytes bs =>
        obtain rfl := Option.some.inj listed
        obtain ⟨b, -, rfl⟩ := mem_map.mp member
        exact nests_of_flat rfl rfl
      | _ => cases listed
    · have smaller := Value.size_lt_of_mem_entries keyed member
      exact ih (by omega)

/-- A conversion that ends with something good, whatever issues there are already, unless values
cannot be compared. -/
def Settles {α : Type} (good : α → Prop) (c : Convert α) : Prop :=
  ∀ found, Attains False (fun r => good r.1) (c found)

namespace Settles

variable {α β : Type} {good : α → Prop} {fine : β → Prop}

theorem pure {a : α} (holds : good a) : Settles good (Pure.pure a) := fun _ => .ok holds

theorem bind {c : Convert α} {next : α → Convert β} (first : Settles good c)
    (second : ∀ a, good a → Settles fine (next a)) : Settles fine (c >>= next) :=
  fun found => (first found).bind fun r holds => second r.1 holds r.2

theorem mapM {f : α → Convert β} {items : List α} (each : ∀ a ∈ items, Settles fine (f a)) :
    Settles (fun bs => ∀ b ∈ bs, fine b) (items.mapM f) := by
  induction items with
  | nil => exact pure fun _ member => absurd member not_mem_nil
  | cons a rest ih =>
    rw [mapM_cons]
    rw [forall_mem_cons] at each
    exact bind each.1 fun b here => bind (ih each.2) fun bs later =>
      pure (forall_mem_cons.mpr ⟨here, later⟩)

theorem foldlM {f : β → α → Convert β} {items : List α}
    (each : ∀ a ∈ items, ∀ b, fine b → Settles fine (f b a)) {b : β} (holds : fine b) :
    Settles fine (items.foldlM f b) := by
  induction items generalizing b with
  | nil => exact pure holds
  | cons a rest ih =>
    rw [foldlM_cons]
    rw [forall_mem_cons] at each
    exact bind (each.1 b holds) fun b' holds' => ih each.2 holds'

theorem lift {result : Except Fault α} (attains : Attains False good result) :
    Settles good (liftM result) := by
  cases attains with
  | ok holds => exact pure holds
  | fault lenient => exact fun _ => .fault lenient

end Settles

theorem settleLeaf_settles (leaf : Leaf) (text : String) :
    Settles (Nests n) (settleLeaf p (leaf.decode text)) := by
  have flat : ∀ w, leaf.decode text = .ok w → Nests n w := by
    intro w decoded
    unfold Leaf.decode at decoded
    split at decoded <;> (try split at decoded) <;> cases decoded <;> exact nests_of_flat rfl rfl
  cases decoded : leaf.decode text with
  | ok w => exact .pure (flat w decoded)
  | error issue => exact fun _ => .ok (nests_of_flat rfl rfl)

theorem convertTime_settles (format : String) (nests : Nests n v) :
    Settles (Nests n) (convertTime direction format v p) := by
  unfold convertTime
  dsimp only
  split <;> first
    | exact .pure (nests_of_flat rfl rfl)
    | exact settleLeaf_settles _ _
    | exact .bind (settleLeaf_settles (n := 0) _ _) fun _ _ => .pure nests
    | exact fun _ => .ok nests

theorem convertBytes_settles (nests : Nests n v) : Settles (Nests n) (convertBytes direction v p) := by
  unfold convertBytes
  split <;> first
    | exact .pure (nests_of_flat rfl rfl)
    | exact settleLeaf_settles _ _
    | exact fun _ => .ok nests

theorem weak_attains (anchored : g.Anchored s) : Attains False (fun _ => True) (Graph.weak s g) := by
  have rules : Graph.Remakes False g Graph.weakLeaf g.Anchored fun _ _ _ => True :=
    { piece := .piece
      target := .target
      inside := fun own => own _ .self
      mono := fun _ _ => trivial
      handle := fun _ => trivial
      leaf := fun {_ s} _ _ _ => by cases s <;> exact .ok trivial
      array := fun _ => trivial
      object := fun _ _ => trivial
      union := fun {_ _ _ inclusive _ ts} _ _ _ k =>
          (Shape.unionOf_compares inclusive ts k).attains fun _ _ => trivial
      intersection := fun _ => trivial }
  exact (Graph.mapLeaves_remakes rules anchored).imp fun _ _ => trivial

theorem check_attains (affords : Affords g opened s v.size p budget) :
    Attains False (fun _ => True) (check g budget opened s v p) :=
  (check_judges affords False.elim).compares.attains fun _ _ => trivial

theorem firstFit?_attains {members : List Shape} (anchored : ∀ m ∈ members, g.Anchored m) :
    Attains False (fun found => ∀ m, found = some m → m ∈ members) (firstFit? g v members) := by
  induction members with
  | nil => exact .ok fun _ found => (by cases found)
  | cons m rest ih =>
    rw [forall_mem_cons] at anchored
    refine (weak_attains anchored.1).bind fun r _ => ?_
    have judged : Attains False (fun _ => True) (conforms r.2 r.1 v) :=
      (check_attains (affords_checkBudget r.2 r.1 v)).bind fun _ _ => .ok trivial
    refine judged.bind fun fits _ => ?_
    cases fits with
    | true => exact .ok fun m' found => Option.some.inj found ▸ mem_cons_self
    | false => exact (ih anchored.2).imp fun found inside m' equal => mem_cons_of_mem _ (inside m' equal)

theorem convert_settles (anchored : g.Anchored s) (nests : Nests n v)
    (affords : Affords g opened s n p budget) :
    Settles (Nests n) (convert g direction budget opened s v p) := by
  induction budget generalizing opened s v p n with
  | zero => exact absurd affords.pos (Nat.lt_irrefl 0)
  | succ budget ih =>
    have inner : ∀ m ∈ s.pieces, g.Anchored m := fun m => anchored.piece
    have same : ∀ m ∈ s.pieces, ∀ v, Nests n v →
        Settles (Nests n) (convert g direction budget opened m v p) :=
      fun m member v nests => ih (inner m member) nests (affords.piece member)
    have below : ∀ m ∈ s.pieces, ∀ k < n, ∀ x, Nests k x → ∀ q, Settles (Nests k)
        (convert g direction budget opened m x q) :=
      fun m member k less x nests q => ih (inner m member) nests (affords.descend member less q)
    cases s with
    | handle id =>
      rw [convert]
      split_ifs with met
      · exact .pure nests
      · cases found : g.target? id with
        | none => exact .pure nests
        | some target =>
          exact ih (anchored.target found) nests (affords.open_handle (by simpa using met) found)
    | dateTime m format => exact convertTime_settles format nests
    | binary => exact convertBytes_settles nests
    | array m items =>
      cases listed : convertible? v with
      | none =>
        simp only [convert, listed]
        exact .pure nests
      | some vs =>
        obtain ⟨k, rfl, each⟩ := nests.exists_of_items listed
        rw [convert_array listed]
        refine .bind (.mapM fun e member => below items mem_cons_self k (Nat.lt_succ_self k) e.1
          (each _ (fst_mem_of_mem_zipIdx member)) (p.index e.2)) fun ws inside =>
          .pure ⟨fun vs equal => ?_, fun _ keyed => ?_⟩
        · exact Option.some.inj equal ▸ inside
        · cases keyed
    | object m props extra? =>
      cases keyed : v.entries? with
      | none =>
        simp only [convert, keyed]
        exact .pure nests
      | some entries =>
        obtain ⟨k, rfl, each⟩ := nests.exists_of_entries keyed
        have entry : ∀ e ∈ entries, Settles (fun e => Nests k e.2)
            (convertEntry g direction budget opened props extra? p e) := by
          intro e member
          unfold convertEntry
          cases asked : Shape.entryShape? props extra? e.1 with
          | none => exact .pure (each e member)
          | some s =>
            exact .bind (below s (Shape.entryShape?_mem_pieces asked) k (Nat.lt_succ_self k) e.2
              (each e member) _) fun w inside => .pure inside
        rw [convert_object keyed]
        refine .bind (.mapM entry) fun es inside => .pure ⟨fun _ listed => ?_, fun entries equal => ?_⟩
        · cases listed
        · exact Option.some.inj equal ▸ inside
    | union m inclusive members =>
      refine .bind (.lift (firstFit?_attains inner)) fun found inside => ?_
      cases found with
      | none => exact .pure nests
      | some m => exact same m (inside m rfl) v nests
    | intersection m members => exact .foldlM same nests
    | _ => exact .pure nests

/-- The check and the walk of a value in both directions end: a budget lasts if it covers the room
that is left in the value, the handles that are not open at this place and the shape below the last
handle, and that of a whole run does. -/
theorem check_and_walk_end (g : Graph) (s : Shape) (v : Value) (anchored : g.Anchored s) :
    (∀ opened p budget, toGo g opened s v.size p ≤ budget → Attains False (fun _ => True)
      (check g budget opened s v p) ∧ ∀ direction found, Attains False (fun _ => True)
      (convert g direction budget opened s v p found)) ∧ Attains False (fun _ => True)
      (issues g s v) ∧ ∀ direction, Attains False (fun _ => True) (run g direction s v) := by
  have nests : Nests v.size v := nests_of_size_le (Nat.le_refl _)
  have enough := affords_checkBudget g s v
  refine ⟨fun opened p budget affords => ⟨check_attains affords, fun direction found => ?_⟩,
    check_attains enough, fun direction => ?_⟩
  · exact (convert_settles anchored nests affords found).imp fun _ _ => trivial
  · exact (convert_settles anchored nests enough []).bind fun _ _ => .ok trivial

/-- The place of the entry without a name looks like the place of its map, and its shape is the
handle again. -/
theorem loop_ends :
    loop.Anchored (.handle 0) ∧ ∀ direction, Attains False (fun _ => True)
      (run loop direction (.handle 0) unnamed) := by
  have anchored : loop.Anchored (.handle 0) := by
    intro id reached
    obtain rfl : id = 0 := by
      simpa [loop, Shape.subshapes_eq, Shape.pieces, Shape.graphShapes] using reached.mem_shapes
    exact Nat.one_pos
  exact ⟨anchored, (check_and_walk_end loop (.handle 0) unnamed anchored).2.2⟩

end Wire

end JsonShape
