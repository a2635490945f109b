import JsonShape.Proofs.Identity
import JsonShape.Proofs.Leaves

/-! Shapes with other numbers. Moved shapes are compared, united and put together to the moved
result, as long as different numbers stay different. -/
namespace JsonShape
open List

variable {extra? : Option Shape} {shapes : List Shape} {s : Shape} {n : Nat}

def Property.map {α β : Type} (f : α → β) (p : Property α) : Property β :=
  ⟨p.name, f p.shape, p.optional, p.default?⟩

namespace Shape

variable {onSerial onHandle : Nat → Nat}

mutual
/-- A shape with other serial numbers and handles. -/
def rename (onSerial onHandle : Nat → Nat) : Shape → Shape
  | dateTime n format => dateTime (onSerial n) format
  | literal n v => literal (onSerial n) v
  | array n items => array (onSerial n) (items.rename onSerial onHandle)
  | object n props extra? =>
    object (onSerial n) (renameProperties onSerial onHandle props) (renameOption onSerial onHandle extra?)
  | union n inclusive members => union (onSerial n) inclusive (renameMembers onSerial onHandle members)
  | intersection n members => intersection (onSerial n) (renameMembers onSerial onHandle members)
  | handle id => handle (onHandle id)
  | s => s

def renameProperties (onSerial onHandle : Nat → Nat) : List (Property Shape) → List (Property Shape)
  | [] => []
  | ⟨name, s, optional, default?⟩ :: rest =>
    ⟨name, s.rename onSerial onHandle, optional, default?⟩ :: renameProperties onSerial onHandle rest

def renameOption (onSerial onHandle : Nat → Nat) : Option Shape → Option Shape
  | none => none
  | some s => some (s.rename onSerial onHandle)

def renameMembers (onSerial onHandle : Nat → Nat) : List Shape → List Shape
  | [] => []
  | s :: rest => s.rename onSerial onHandle :: renameMembers onSerial onHandle rest
end

section Rename

variable (onSerial onHandle : Nat → Nat)

theorem renameProperties_eq (props : List (Property Shape)) :
    renameProperties onSerial onHandle props = props.map (Property.map (rename onSerial onHandle)) := by
  induction props with
  | nil => rfl
  | cons p rest ih => rw [renameProperties, ih]; rfl

theorem renameOption_eq (s? : Option Shape) :
    renameOption onSerial onHandle s? = s?.map (rename onSerial onHandle) := by
  cases s? <;> rfl

theorem renameMembers_eq (members : List Shape) :
    renameMembers onSerial onHandle members = members.map (rename onSerial onHandle) := by
  induction members with
  | nil => rfl
  | cons s rest ih => rw [renameMembers, ih]; rfl

theorem rename_object (n : Nat) (props : List (Property Shape)) (extra? : Option Shape) :
    (object n props extra?).rename onSerial onHandle = object (onSerial n)
      (props.map (Property.map (rename onSerial onHandle)))
      (extra?.map (rename onSerial onHandle)) := by
  rw [rename, renameProperties_eq, renameOption_eq]

theorem rename_union (n : Nat) (inclusive : Bool) (members : List Shape) :
    (union n inclusive members).rename onSerial onHandle = union (onSerial n) inclusive
      (members.map (rename onSerial onHandle)) := by
  rw [rename, renameMembers_eq]

theorem rename_intersection (n : Nat) (members : List Shape) :
    (intersection n members).rename onSerial onHandle = intersection (onSerial n)
      (members.map (rename onSerial onHandle)) := by
  rw [rename, renameMembers_eq]

theorem pieces_rename (s : Shape) :
    (s.rename onSerial onHandle).pieces = s.pieces.map (rename onSerial onHandle) := by
  cases s with
  | object n props extra? =>
    rw [rename_object]
    cases extra? <;> simp [pieces, Function.comp_def, Property.map]
  | union n inclusive members => rw [rename_union]; rfl
  | intersection n members => rw [rename_intersection]; rfl
  | _ => rfl

theorem kind_rename (s : Shape) : (s.rename onSerial onHandle).kind = s.kind := by cases s <;> rfl

end Rename

theorem mem_subshapes_rename {q : Shape} (inside : q ∈ s.subshapes) :
    q.rename onSerial onHandle ∈ (s.rename onSerial onHandle).subshapes := by
  induction s using pieces_induction with
  | step s ih =>
    rcases mem_subshapes_iff.mp inside with rfl | ⟨p, member, inner⟩
    · exact mem_subshapes_self _
    · refine mem_subshapes_iff.mpr (.inr ⟨p.rename onSerial onHandle, ?_, ih p member inner⟩)
      rw [pieces_rename]
      exact mem_map.mpr ⟨p, member, rfl⟩

theorem leaves_rename {strict : Prop} {live live' : Nat → Prop} (leaves : s.Leaves strict live)
    (moved : ∀ id, live id → live' (onHandle id)) : (s.rename onSerial onHandle).Leaves strict live' := by
  induction s using pieces_induction with
  | step s ih =>
    cases s with
    | literal n v => exact leaves_literal leaves.of_literal
    | handle id => exact leaves_handle (moved id leaves.of_handle)
    | _ =>
      refine leaves_of_pieces ?_ ?_ fun p member => ?_
      · rw [kind_rename]
        exact nofun
      · rw [kind_rename]
        exact nofun
      · rw [pieces_rename] at member
        obtain ⟨q, inside, rfl⟩ := mem_map.mp member
        exact ih q inside (leaves.piece inside)

theorem object_congr {f f' : Shape → Shape} {props : List (Property Shape)}
    (each : ∀ p ∈ (object n props extra?).pieces, f p = f' p) (m : Nat) :
    object m (props.map (.map f)) (extra?.map f) = object m (props.map (.map f'))
      (extra?.map f') := by
  congr 1
  · exact map_congr_left fun p member => congrArg (Property.mk p.name · p.optional p.default?)
      (each _ (mem_pieces_of_mem_props member))
  · cases extra? with
    | none => rfl
    | some extra => exact congrArg some (each extra mem_pieces_of_extra)

theorem rename_comp (onSerial onHandle onSerial' onHandle' : Nat → Nat) (s : Shape) :
    (s.rename onSerial onHandle).rename onSerial' onHandle' = s.rename (onSerial' ∘ onSerial)
      (onHandle' ∘ onHandle) := by
  induction s using pieces_induction with
  | step s ih =>
    cases s with
    | array n items =>
      rw [rename, rename, rename, ih items mem_cons_self]
      rfl
    | object n props extra? =>
      rw [rename_object, rename_object, rename_object, map_map, Option.map_map]
      exact object_congr ih _
    | union n inclusive members =>
      rw [rename_union, rename_union, rename_union, map_map]
      exact congrArg (union _ inclusive) (map_congr_left ih)
    | intersection n members =>
      rw [rename_intersection, rename_intersection, rename_intersection, map_map]
      exact congrArg (intersection _) (map_congr_left ih)
    | _ => rfl

theorem rename_id (s : Shape) : s.rename id id = s := by
  induction s using pieces_induction with
  | step s ih =>
    cases s with
    | array n items => rw [rename, ih items mem_cons_self, id_eq]
    | object n props extra? =>
      rw [rename_object, id_eq]
      refine (object_congr ih n).trans ?_
      rw [Option.map_id']
      exact congrArg (object n · extra?) (map_id props)
    | union n inclusive members =>
      rw [rename_union]
      exact congrArg (union n inclusive) ((map_congr_left ih).trans (map_id members))
    | intersection n members =>
      rw [rename_intersection]
      exact congrArg (intersection n) ((map_congr_left ih).trans (map_id members))
    | _ => rfl

theorem rename_rename {serialBack handleBack : Nat → Nat}
    (serials : ∀ n, serialBack (onSerial n) = n) (handles : ∀ n, handleBack (onHandle n) = n)
    (s : Shape) : (s.rename onSerial onHandle).rename serialBack handleBack = s := by
  have back : serialBack ∘ onSerial = id := funext serials
  have back' : handleBack ∘ onHandle = id := funext handles
  rw [rename_comp, back, back', rename_id]

end Shape

structure Shift where
  serials : Nat
  handles : Nat

namespace Shape

variable {d : Shift}

def shift (d : Shift) (s : Shape) : Shape := s.rename (· + d.serials) (· + d.handles)

theorem shift_zero (s : Shape) : s.shift ⟨0, 0⟩ = s := s.rename_id

theorem shift_injective (d : Shift) : Function.Injective (shift d) :=
  Function.LeftInverse.injective (g := rename (· - d.serials) (· - d.handles)) fun s =>
    rename_rename (fun n => Nat.add_sub_cancel n d.serials) (fun n => Nat.add_sub_cancel n d.handles) s

@[simp]
theorem shift_object (n : Nat) (props : List (Property Shape)) (extra? : Option Shape) :
    (object n props extra?).shift d = object (n + d.serials) (props.map (.map (shift d)))
      (extra?.map (shift d)) :=
  rename_object _ _ _ _ _

@[simp]
theorem shift_union (n : Nat) (inclusive : Bool) (members : List Shape) :
    (union n inclusive members).shift d = union (n + d.serials) inclusive (members.map (shift d)) :=
  rename_union _ _ _ _ _

@[simp]
theorem shift_intersection (n : Nat) (members : List Shape) :
    (intersection n members).shift d = intersection (n + d.serials) (members.map (shift d)) :=
  rename_intersection _ _ _ _

@[simp]
theorem pieces_shift (s : Shape) : (s.shift d).pieces = s.pieces.map (shift d) := pieces_rename _ _ s

@[simp]
theorem kind_shift (s : Shape) : (s.shift d).kind = s.kind := kind_rename _ _ s

@[simp]
theorem same_shift (s t : Shape) : (s.shift d).same (t.shift d) = s.same t := by
  rw [Bool.eq_iff_iff, same_iff, same_iff, (shift_injective d).eq_iff]

theorem anyM_shift {test test' : Shape → Except Fault Bool}
    (each : ∀ s ∈ shapes, test' (s.shift d) = test s) :
    (shapes.map (shift d)).anyM test' = shapes.anyM test := by
  induction shapes with
  | nil => rfl
  | cons s rest ih =>
    rw [map_cons, anyM, anyM, each s mem_cons_self, ih (forall_mem_cons.mp each).2]

theorem equalProperties_shift {ps : List (Property Shape)}
    (each : ∀ p ∈ ps, ∀ t : Shape, (p.shape.shift d).equal (t.shift d) = p.shape.equal t)
    (qs : List (Property Shape)) :
    equalProperties (ps.map (.map (shift d))) (qs.map (.map (shift d))) =
      equalProperties ps qs := by
  induction ps generalizing qs with
  | nil => cases qs <;> rfl
  | cons p rest ih =>
    cases qs with
    | nil => rfl
    | cons q qs =>
      have later := ih (forall_mem_cons.mp each).2 qs
      simp only [map_cons, Property.map, equalProperties, each p mem_cons_self, later]

theorem containedMembers_shift {ss : List Shape}
    (each : ∀ s ∈ ss, ∀ t : Shape, (s.shift d).equal (t.shift d) = s.equal t) (ts : List Shape) :
    containedMembers (ss.map (shift d)) (ts.map (shift d)) = containedMembers ss ts := by
  induction ss with
  | nil => rfl
  | cons s rest ih =>
    rw [map_cons, containedMembers, containedMembers, ih (forall_mem_cons.mp each).2,
      anyM_shift fun t _ => each s mem_cons_self t]

theorem equalOption_shift {e : Option Shape}
    (each : ∀ s ∈ e.toList, ∀ t : Shape, (s.shift d).equal (t.shift d) = s.equal t)
    (f : Option Shape) : equalOption (e.map (shift d)) (f.map (shift d)) = equalOption e f := by
  cases e with
  | none => cases f <;> rfl
  | some s =>
    cases f with
    | none => rfl
    | some t => simpa [equalOption] using each s mem_cons_self t

theorem equal_shift (s t : Shape) : (s.shift d).equal (t.shift d) = s.equal t := by
  induction s using pieces_induction generalizing t with
  | step s ih =>
    rw [equal.eq_def, equal.eq_def s, same_shift]
    congr 1
    cases s with
    | array n items =>
      cases t with
      | array => exact ih items mem_cons_self _
      | _ => rfl
    | object n props extra? =>
      cases t with
      | object n' props' extra?' =>
        have left := equalProperties_shift (fun p member => ih _ (mem_pieces_of_mem_props member)) props'
        have right := equalOption_shift (fun s member => ih s (mem_append_right _ member)) extra?'
        simp only [shift_object, length_map, Option.isSome_map, left, right]
      | _ => rfl
    | union n inclusive members =>
      cases t with
      | union n' inclusive' members' =>
        simp only [shift_union, length_map,
          containedMembers_shift (show ∀ m ∈ members, _ from ih) members']
      | _ => rfl
    | intersection n members =>
      cases t with
      | intersection n' members' =>
        simp only [shift_intersection, length_map,
          containedMembers_shift (show ∀ m ∈ members, _ from ih) members']
      | _ => rfl
    | _ => cases t <;> rfl

structure Invariant (onSerial onHandle : Nat → Nat) (P : Shape → Prop) : Prop where
  members : ∀ {n inclusive members}, P (union n inclusive members) → ∀ m ∈ members, P m
  equal : ∀ {a b}, P a → P b → (a.rename onSerial onHandle).equal (b.rename onSerial onHandle) = a.equal b

theorem invariant_shift (d : Shift) : Invariant (· + d.serials) (· + d.handles) fun _ => True :=
  ⟨fun _ _ _ => trivial, fun {a b} _ _ => a.equal_shift b⟩

variable {onSerial onHandle : Nat → Nat} {P : Shape → Prop}
variable {members : List Shape}

theorem anyM_rename (invariant : Invariant onSerial onHandle P) (kept : ∀ m ∈ members, P m)
    (own : P s) :
    ((members.map (rename onSerial onHandle)).anyM fun m => m.equal (s.rename onSerial onHandle)) =
      members.anyM fun m => m.equal s := by
  induction members with
  | nil => rfl
  | cons m rest ih =>
    rw [map_cons, anyM, anyM, invariant.equal (kept m mem_cons_self) own,
      ih (forall_mem_cons.mp kept).2]

theorem spread_rename (s : Shape) :
    (s.rename onSerial onHandle).spread = s.spread.map (rename onSerial onHandle) := by
  induction s using pieces_induction with
  | step s ih =>
    cases s with
    | union n inclusive members =>
      rw [rename_union, spread_union, spread_union, flatMap_map, map_flatMap]
      exact flatMap_congr ih
    | _ => rfl

theorem enlist_rename (invariant : Invariant onSerial onHandle P) {alternatives : List Shape}
    (kept : ∀ m ∈ members, P m) (each : ∀ c ∈ alternatives, P c) :
    enlist (members.map (rename onSerial onHandle)) (alternatives.map (rename onSerial onHandle)) =
      (enlist members alternatives).map (Option.map (map (rename onSerial onHandle))) := by
  fun_induction enlist members alternatives with
  | case1 => rfl
  | case2 members c rest free =>
    rw [map_cons, enlist, if_pos (by rwa [kind_rename])]
    rfl
  | case3 members c rest proper e failed =>
    rw [map_cons, enlist, if_neg (by rwa [kind_rename]),
      anyM_rename invariant kept (each c mem_cons_self), failed]
    rfl
  | case4 members c rest proper there ih =>
    obtain ⟨own, later⟩ := forall_mem_cons.mp each
    rw [map_cons, enlist, if_neg (by rwa [kind_rename]), anyM_rename invariant kept own, there]
    exact ih kept later
  | case5 members c rest proper new ih =>
    obtain ⟨own, later⟩ := forall_mem_cons.mp each
    rw [map_cons, enlist, if_neg (by rwa [kind_rename]), anyM_rename invariant kept own, new]
    simpa using ih (forall_mem_append.mpr ⟨kept, forall_mem_singleton.mpr own⟩) later

theorem addMembers_rename (invariant : Invariant onSerial onHandle P) (shapes : List Shape)
    (kept : ∀ m ∈ members, P m) (each : ∀ s ∈ shapes, P s) :
    addMembers (members.map (rename onSerial onHandle)) (shapes.map (rename onSerial onHandle)) =
      (addMembers members shapes).map (Option.map (map (rename onSerial onHandle))) := by
  have chosen : ∀ {s c : Shape}, P s → Choice s c → P c := by
    intro s c own choice
    induction choice with
    | self => exact own
    | member member _ ih => exact ih (invariant.members own _ member)
  have alternatives : ∀ c ∈ shapes.flatMap spread, P c := by
    intro c member
    obtain ⟨s, listed, inside⟩ := mem_flatMap.mp member
    exact chosen (each s listed) (mem_spread_iff.mp inside).1
  have spreads : (shapes.map (rename onSerial onHandle)).flatMap spread =
      (shapes.flatMap spread).map (rename onSerial onHandle) := by
    rw [flatMap_map, map_flatMap]
    exact flatMap_congr fun s _ => spread_rename s
  rw [addMembers_eq_enlist, addMembers_eq_enlist, spreads, enlist_rename invariant kept alternatives]

theorem addMembers_shift (members shapes : List Shape) :
    addMembers (members.map (shift d)) (shapes.map (shift d)) = (addMembers members shapes).map
      (Option.map (map (shift d))) :=
  addMembers_rename (invariant_shift d) shapes (fun _ _ => trivial) fun _ _ => trivial

theorem property?_map (f : Shape → Shape) (props : List (Property Shape)) (name : String) :
    property? (props.map (.map f)) name = (property? props name).map (.map f) := by
  rw [property?, property?, find?_map]
  rfl

theorem sortProperties_shift (props : List (Property Shape)) :
    sortProperties (props.map (.map (shift d))) = (sortProperties props).map (.map (shift d)) := by
  unfold sortProperties
  rw [map_mergeSort]
  intros
  rfl

end Shape

namespace Fresh

/-- Two results of which the second is the first one moved: good in strict use, and else possibly
missing for the lack of an equality. -/
inductive Pairs {α β : Type} (d : Shift) (strict : Prop) (move : α → β) (good : α → Prop) :
    Except Fault (α × Nat) → Except Fault (β × Nat) → Prop
  | ok {a : α} {n : Nat} (holds : good a) :
      Pairs d strict move good (.ok (a, n)) (.ok (move a, n + d.serials))
  | fault (lenient : ¬ strict) : Pairs d strict move good (.error .incomparable) (.error .incomparable)

/-- A computation that does to moved shapes what another does to the shapes. -/
def Follows {α β : Type} (d : Shift) (strict : Prop) (move : α → β) (good : α → Prop) (f : Fresh α)
    (f' : Fresh β) : Prop :=
  ∀ n, Pairs d strict move good (f n) (f' (n + d.serials))

namespace Follows

variable {α β γ ε : Type} {d : Shift} {strict : Prop} {move : α → β} {move' : γ → ε}
  {good : α → Prop} {fine : γ → Prop}

theorem compares {f : Fresh α} {f' : Fresh β} (follows : Follows d strict move good f f')
    (n : Nat) : Compares strict (f n) := by
  intro e broken
  have paired := follows n
  generalize f' (n + d.serials) = other at paired
  rw [broken] at paired
  cases paired with
  | fault lenient => exact ⟨rfl, lenient⟩

theorem pure {a : α} (holds : good a) :
    Follows d strict move good (Pure.pure a) (Pure.pure (move a)) := fun _ => .ok holds

theorem bind {f : Fresh α} {f' : Fresh β} {next : α → Fresh γ} {next' : β → Fresh ε}
    (first : Follows d strict move good f f')
    (second : ∀ a, good a → Follows d strict move' fine (next a) (next' (move a))) :
    Follows d strict move' fine (f >>= next) (f' >>= next') := by
  intro n
  change Pairs d strict move' fine (f n >>= fun (a, m) => next a m)
    (f' (n + d.serials) >>= fun (b, m) => next' b m)
  have pairs := first n
  revert pairs
  generalize f n = result, f' (n + d.serials) = result'
  rintro (@⟨a, m, holds⟩ | lenient)
  · exact second a holds m
  · exact .fault lenient

theorem lift {result : Except Fault α} {result' : Except Fault β} {next : α → Fresh γ}
    {next' : β → Fresh ε} (compares : Compares strict result) (moved : result' = result.map move)
    (second : ∀ a, result = .ok a → Follows d strict move' fine (next a) (next' (move a))) :
    Follows d strict move' fine (liftM result >>= next) (liftM result' >>= next') := by
  subst moved
  cases result with
  | error e =>
    obtain ⟨rfl, lenient⟩ := compares e rfl
    exact fun n => .fault lenient
  | ok a => exact second a rfl

theorem serial {next : Nat → Fresh α} {next' : Nat → Fresh β}
    (second : ∀ n, Follows d strict move good (next n) (next' (n + d.serials))) :
    Follows d strict move good (Fresh.serial >>= next) (Fresh.serial >>= next') := by
  intro n
  have drawn := second n (n + 1)
  rwa [Nat.add_right_comm] at drawn

theorem mapM {ι κ : Type} {f : ι → Fresh α} {f' : κ → Fresh β} {items : List ι} {moveItem : ι → κ}
    (each : ∀ i ∈ items, Follows d strict move good (f i) (f' (moveItem i))) :
    Follows d strict (map move) (fun as => ∀ a ∈ as, good a) (items.mapM f)
      ((items.map moveItem).mapM f') := by
  induction items with
  | nil => exact pure fun a member => nomatch member
  | cons i rest ih =>
    rw [map_cons, mapM_cons, mapM_cons]
    refine bind (each i mem_cons_self) fun a here => ?_
    refine bind (ih (forall_mem_cons.mp each).2) fun as later => ?_
    exact pure (forall_mem_cons.mpr ⟨here, later⟩)

end Follows

end Fresh

namespace Shape

open Fresh

variable {d : Shift} {strict : Prop} {live : Nat → Prop}
variable {props : List (Property Shape)}

theorem ofItems_follows {items : Shape} (leaves : items.Leaves strict live) :
    Follows d strict (shift d) (Leaves strict live) (ofItems items) (ofItems (items.shift d)) := by
  refine .serial fun n => .pure (leaves_of_pieces nofun nofun fun p member => ?_)
  exact mem_singleton.mp member ▸ leaves

structure EntryLeaves (strict : Prop) (live : Nat → Prop) (props : List (Property Shape))
    (extra? : Option Shape) : Prop where
  props : ∀ p ∈ props, p.shape.Leaves strict live
  extra : ∀ s, extra? = some s → s.Leaves strict live

theorem leaves_object_iff :
    (object n props extra?).Leaves strict live ↔ EntryLeaves strict live props extra? := by
  constructor
  · intro leaves
    refine ⟨fun p member => leaves.piece (mem_pieces_of_mem_props member), ?_⟩
    rintro s rfl
    exact leaves.piece mem_pieces_of_extra
  · rintro ⟨props, extra⟩
    exact leaves_of_pieces nofun nofun (forall_mem_pieces_object props extra)

theorem mem_sortProperties {p : Property Shape} : p ∈ sortProperties props ↔ p ∈ props :=
  (mergeSort_perm props _).mem_iff

theorem ofProperties_follows (leaves : EntryLeaves strict live props extra?) :
    Follows d strict (shift d) (Leaves strict live) (ofProperties props extra?)
      (ofProperties (props.map (.map (shift d))) (extra?.map (shift d))) := by
  refine .serial fun n => ?_
  rw [sortProperties_shift, ← shift_object]
  exact .pure (leaves_object_iff.mpr ⟨fun p member =>
    leaves.props p (mem_sortProperties.mp member), leaves.extra⟩)

theorem unionOf_follows (inclusive : Bool) (leaves : ∀ s ∈ shapes, s.Leaves strict live) :
    Follows d strict (shift d) (Leaves strict live) (unionOf inclusive shapes)
      (unionOf inclusive (shapes.map (shift d))) := by
  have gathers : Gathers strict live (addMembers [] shapes) :=
    addMembers_gathers (fun m member => nomatch member) leaves
  refine .lift gathers.compares (addMembers_shift [] shapes) fun grown equal => ?_
  match grown with
  | none => exact .pure (leaves_flat rfl nofun nofun)
  | some [] => exact .pure (leaves_flat rfl nofun nofun)
  | some [s] => exact .pure (gathers.leaves [s] equal s mem_cons_self)
  | some (s :: t :: rest) =>
    refine .serial fun n => ?_
    rw [← map_cons, ← shift_union]
    exact .pure (leaves_of_pieces nofun nofun (gathers.leaves _ equal))

end Shape

end JsonShape
