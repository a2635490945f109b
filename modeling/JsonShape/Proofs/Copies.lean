import JsonShape.Proofs.Guard
import JsonShape.Proofs.Renaming

/-! Copies of graphs. Where the targets of handles are moved together with a shape, the moved shape
accepts the same values. What a shape accepts, it accepts in a copy of some number of layers. -/
namespace JsonShape
open List Shape Inhabits

variable {id n : Nat} {d : Shift}

namespace Graph

theorem target?_declare (g : Graph) (name ref : String) (id : Nat) :
    (g.declare name ref).2.target? id = g.target? id := by
  unfold declare target?
  rw [Array.getElem?_push]
  split_ifs with last
  · subst last
    simp
  · rfl

theorem size_declare (g : Graph) (name ref : String) :
    (g.declare name ref).2.handles.size = g.handles.size + 1 :=
  Array.size_push _

theorem target?_bind (g : Graph) (known : id < g.handles.size) (s : Shape) (other : Nat) :
    (g.bind id s).target? other = if other = id then some s else g.target? other := by
  unfold bind target?
  rw [Array.getElem?_modify]
  split_ifs with same same'
  · subst same
    rw [Array.getElem?_eq_getElem known]
    rfl
  · exact absurd same.symm same'
  · exact absurd (Eq.symm ‹_›) same
  · rfl

theorem size_bind (g : Graph) (id : Nat) (s : Shape) :
    (g.bind id s).handles.size = g.handles.size := Array.size_modify

theorem nameOf_declare (g : Graph) (name ref : String) (id : Nat) :
    (g.declare name ref).2.nameOf id = if id = g.handles.size then name else g.nameOf id := by
  unfold declare nameOf
  rw [Array.getElem?_push]
  split_ifs <;> rfl

theorem nameOf_bind (g : Graph) (id : Nat) (s : Shape) (other : Nat) :
    (g.bind id s).nameOf other = g.nameOf other := by
  unfold bind nameOf
  rw [Array.getElem?_modify]
  split_ifs with equal
  · cases g.handles[other]? <;> rfl
  · rfl

theorem target?_eq_none (g : Graph) (outside : g.handles.size ≤ id) : g.target? id = none := by
  unfold target?
  rw [Array.getElem?_eq_none outside]
  rfl

def Bound (g : Graph) (id : Nat) : Prop := (g.target? id).isSome = true

def Closed (g : Graph) (strict : Prop) : Prop := ∀ id s, g.target? id = some s → s.Leaves strict g.Bound

/-- A graph has the targets of another one, with their numbers moved. -/
def Copies (d : Shift) (base g : Graph) : Prop :=
  ∀ id s, base.target? id = some s → g.target? (id + d.handles) = some (s.shift d)

structure Extends (g g' : Graph) : Prop where
  size : g.handles.size ≤ g'.handles.size
  old : ∀ id < g.handles.size, g'.target? id = g.target? id

theorem Copies.extend {base g g' : Graph} (copies : Copies d base g) (grows : g.Extends g') :
    Copies d base g' := by
  intro id s found
  have here := copies id s found
  have known : id + d.handles < g.handles.size := by
    by_contra outside
    rw [g.target?_eq_none (Nat.not_lt.mp outside)] at here
    cases here
  rw [grows.old _ known, here]

end Graph

variable {strict : Prop} {live : Nat → Prop} {onSerial onHandle : Nat → Nat} {base g : Graph}
  {s : Shape} {v : Value}

theorem inhabitsWithin_rename
    (closed : ∀ id s, live id → base.target? id = some s → s.Leaves strict live)
    (copies : ∀ id, live id →
      g.target? (onHandle id) = (base.target? id).map (rename onSerial onHandle))
    (leaves : s.Leaves strict live) (n : Nat) :
    InhabitsWithin g n (s.rename onSerial onHandle) v ↔ InhabitsWithin base n s v := by
  induction n generalizing s v with
  | zero => exact Iff.rfl
  | succ n ih =>
    cases s with
    | array m items =>
      have inside := leaves.piece mem_cons_self
      exact exists_congr fun vs => and_congr_right fun _ => forall₂_congr fun x _ => ih inside
    | object m props extra? =>
      rw [rename_object]
      refine exists_congr fun entries => and_congr_right fun _ => and_congr ?_ (and_congr ?_ ?_)
      · rw [forall_mem_map]
        exact Iff.rfl
      · rw [forall_mem_map]
        exact forall₂_congr fun p member => forall₂_congr fun x _ =>
          ih (leaves.piece (mem_pieces_of_mem_props member))
      · cases extra? with
        | none => simp
        | some extra =>
          simp only [Option.map_some, Option.some.injEq, forall_eq', property?_map, Option.map_eq_none_iff]
          exact forall₂_congr fun entry _ => forall_congr' fun _ => ih (leaves.piece mem_pieces_of_extra)
    | union m inclusive members =>
      rw [rename_union]
      change (∃ t ∈ members.map (rename onSerial onHandle), InhabitsWithin g n t v) ↔
        ∃ t ∈ members, InhabitsWithin base n t v
      simp only [mem_map, exists_exists_and_eq_and]
      exact exists_congr fun t => and_congr_right fun member => ih (leaves.piece member)
    | intersection m members =>
      rw [rename_intersection]
      change (∀ t ∈ members.map (rename onSerial onHandle), InhabitsWithin g n t v) ↔
        ∀ t ∈ members, InhabitsWithin base n t v
      rw [forall_mem_map]
      exact forall₂_congr fun t member => ih (leaves.piece member)
    | handle id =>
      change (∀ t, g.target? (onHandle id) = some t → InhabitsWithin g n t v) ↔
        ∀ t, base.target? id = some t → InhabitsWithin base n t v
      rw [copies id leaves.of_handle]
      cases found : base.target? id with
      | none => simp
      | some target => simpa using ih (closed id target leaves.of_handle found)
    | _ => exact Iff.rfl

theorem inhabits_rename (closed : ∀ id s, live id → base.target? id = some s → s.Leaves strict live)
    (copies : ∀ id, live id → g.target? (onHandle id) = (base.target? id).map (rename onSerial onHandle))
    (leaves : s.Leaves strict live) : Inhabits g (s.rename onSerial onHandle) v ↔ Inhabits base s v := by
  constructor
  · intro inhabits
    obtain ⟨n, within⟩ := inhabits.exists_within
    exact ((inhabitsWithin_rename closed copies leaves n).mp within).inhabits
  · intro inhabits
    obtain ⟨n, within⟩ := inhabits.exists_within
    exact ((inhabitsWithin_rename closed copies leaves n).mpr within).inhabits

theorem inhabits_shift (closed : base.Closed strict) (copies : Graph.Copies d base g)
    (leaves : s.Leaves strict base.Bound) : Inhabits g (s.shift d) v ↔ Inhabits base s v := by
  refine inhabits_rename (fun id s _ found => closed id s found) (fun id bound => ?_) leaves
  obtain ⟨target, found⟩ := Option.isSome_iff_exists.mp bound
  rw [found, copies id target found]
  rfl

namespace Graph

theorem inhabits_of_handles {g' : Graph} {live : Nat → Prop} (leaves : s.Leaves strict live)
    (handles : ∀ id, live id → ∀ v, Inhabits g (.handle id) v → Inhabits g' (.handle id) v)
    (inhabits : Inhabits g s v) : Inhabits g' s v := by
  induction s using pieces_induction generalizing v with
  | step s ih =>
    cases s with
    | literal n w => exact literal_iff.mpr (literal_iff.mp inhabits)
    | array n items =>
      obtain ⟨vs, listed, each⟩ := array_iff.mp inhabits
      exact .array listed fun x member =>
        ih items mem_cons_self (leaves.piece mem_cons_self) (each x member)
    | object n props extra? =>
      obtain ⟨entries, keyed, present, declared, undeclared⟩ := object_iff.mp inhabits
      refine .object keyed present (fun p member x found => ?_) fun extra equal entry member free => ?_
      · have inside : p.shape ∈ (object n props extra?).pieces := mem_pieces_of_mem_props member
        exact ih p.shape inside (leaves.piece inside) (declared p member x found)
      · subst equal
        exact ih extra mem_pieces_of_extra (leaves.piece mem_pieces_of_extra)
          (undeclared extra rfl entry member free)
    | union n inclusive members =>
      obtain ⟨m, member, inside⟩ := union_iff.mp inhabits
      exact .union member (ih m member (leaves.piece member) inside)
    | intersection n members =>
      have each := intersection_iff.mp inhabits
      exact .intersection fun m member => ih m member (leaves.piece member) (each m member)
    | handle id => exact handles id leaves.of_handle v inhabits
    | _ => exact inhabits.of_flat rfl

/-- A graph whose handles are opened no more often than a number: each layer has the targets of the
graph, with handles of the next layer, and those of the last accept nothing. -/
def layers (g : Graph) : Nat → Graph
  | 0 => { g with handles := g.handles.map fun h => { h with target? := h.target?.map fun _ => .never } }
  | n + 1 => { g with handles := (g.handles ++ (g.layers n).handles).map fun h =>
      { h with target? := h.target?.map (shift ⟨0, g.handles.size⟩) } }

theorem target?_layers_zero (g : Graph) (id : Nat) :
    (g.layers 0).target? id = (g.target? id).map fun _ => .never := by
  unfold layers target?
  rw [Array.getElem?_map]
  cases g.handles[id]? <;> rfl

theorem target?_layers_succ (g : Graph) (n id : Nat) :
    (g.layers (n + 1)).target? id = (if id < g.handles.size then
      g.target? id else (g.layers n).target? (id - g.handles.size)).map
      (shift ⟨0, g.handles.size⟩) := by
  rw [layers, target?, Array.getElem?_map, Array.getElem?_append]
  split_ifs with first
  · unfold target?
    cases g.handles[id]? <;> rfl
  · unfold target?
    cases (g.layers n).handles[id - g.handles.size]? <;> rfl

theorem lt_size_of_bound (bound : g.Bound id) : id < g.handles.size := by
  by_contra outside
  rw [Bound, g.target?_eq_none (Nat.not_lt.mp outside)] at bound
  cases bound

theorem bound_layers (bound : g.Bound id) (n : Nat) : (g.layers n).Bound id := by
  unfold Bound
  cases n with
  | zero =>
    rw [target?_layers_zero, Option.isSome_map]
    exact bound
  | succ n =>
    rw [target?_layers_succ, Option.isSome_map, if_pos (lt_size_of_bound bound)]
    exact bound

theorem layers_copies (g : Graph) (n : Nat) :
    Copies ⟨0, g.handles.size⟩ (g.layers n) (g.layers (n + 1)) := by
  intro id s found
  rw [target?_layers_succ, if_neg (Nat.not_lt.mpr (Nat.le_add_left _ _)), Nat.add_sub_cancel, found]
  rfl

theorem layers_closed (closed : g.Closed strict) (n : Nat) : (g.layers n).Closed strict := by
  induction n with
  | zero =>
    intro id s found
    rw [target?_layers_zero] at found
    obtain ⟨t, -, rfl⟩ := Option.map_eq_some_iff.mp found
    exact leaves_flat rfl nofun nofun
  | succ n ih =>
    have deeper : ∀ id, (g.layers n).Bound id → (g.layers (n + 1)).Bound (id + g.handles.size) := by
      intro id bound
      obtain ⟨s, found⟩ := Option.isSome_iff_exists.mp bound
      exact Option.isSome_iff_exists.mpr ⟨_, g.layers_copies n id s found⟩
    intro id s found
    rw [target?_layers_succ] at found
    obtain ⟨t, there, rfl⟩ := Option.map_eq_some_iff.mp found
    split_ifs at there
    · exact leaves_rename (closed id t there) fun id bound => deeper id (bound_layers bound n)
    · exact leaves_rename (ih _ t there) deeper

theorem inhabits_layers_handle (closed : g.Closed strict) {target : Shape}
    (found : g.target? id = some target) (n : Nat) :
    Inhabits (g.layers (n + 1)) (.handle id) v ↔ Inhabits (g.layers n) target v := by
  have known : id < g.handles.size := lt_size_of_bound (Option.isSome_iff_exists.mpr ⟨target, found⟩)
  have leaves := (closed id target found).mono fun id bound => bound_layers bound n
  rw [handle_iff, target?_layers_succ, if_pos known, found]
  simpa using inhabits_shift (layers_closed closed n) (g.layers_copies n) leaves

theorem not_inhabits_layers_zero (bound : g.Bound id) : ¬ Inhabits (g.layers 0) (.handle id) v := by
  obtain ⟨target, found⟩ := Option.isSome_iff_exists.mp bound
  rw [handle_iff, target?_layers_zero, found]
  simpa using not_never

theorem inhabits_layers_succ (closed : g.Closed strict) (leaves : s.Leaves strict g.Bound)
    (inhabits : Inhabits (g.layers n) s v) : Inhabits (g.layers (n + 1)) s v := by
  induction n generalizing s v with
  | zero =>
    exact inhabits_of_handles leaves (fun id bound v handle =>
      absurd handle (not_inhabits_layers_zero bound)) inhabits
  | succ n ih =>
    refine inhabits_of_handles leaves (fun id bound v handle => ?_) inhabits
    obtain ⟨target, found⟩ := Option.isSome_iff_exists.mp bound
    rw [inhabits_layers_handle closed found] at handle ⊢
    exact ih (closed id target found) handle

theorem inhabits_of_layers (closed : g.Closed strict) (leaves : s.Leaves strict g.Bound)
    (inhabits : Inhabits (g.layers n) s v) : Inhabits g s v := by
  induction n generalizing s v with
  | zero =>
    exact inhabits_of_handles leaves (fun id bound v handle =>
      absurd handle (not_inhabits_layers_zero bound)) inhabits
  | succ n ih =>
    refine inhabits_of_handles leaves (fun id bound v handle => ?_) inhabits
    obtain ⟨target, found⟩ := Option.isSome_iff_exists.mp bound
    rw [inhabits_layers_handle closed found] at handle
    exact .bound found (ih (closed id target found) handle)

theorem inhabits_layers_of_within (closed : g.Closed strict) (leaves : s.Leaves strict g.Bound)
    (within : InhabitsWithin g n s v) : Inhabits (g.layers n) s v := by
  induction n generalizing s v with
  | zero => exact within.elim
  | succ n ih =>
    have deeper : ∀ {t : Shape} {x : Value}, t.Leaves strict g.Bound → InhabitsWithin g n t x →
        Inhabits (g.layers (n + 1)) t x :=
      fun leaves within => inhabits_layers_succ closed leaves (ih leaves within)
    cases s with
    | any => exact .any v
    | literal => exact .literal within
    | array =>
      obtain ⟨vs, listed, each⟩ := within
      exact .array listed fun x member => deeper (leaves.piece mem_cons_self) (each x member)
    | object n props extra? =>
      obtain ⟨entries, keyed, present, declared, undeclared⟩ := within
      refine .object keyed present (fun p member x found => ?_) fun extra equal entry member free => ?_
      · exact deeper (leaves.piece (mem_pieces_of_mem_props member)) (declared p member x found)
      · subst equal
        exact deeper (leaves.piece mem_pieces_of_extra) (undeclared extra rfl entry member free)
    | union =>
      obtain ⟨m, member, inside⟩ := within
      exact .union member (deeper (leaves.piece member) inside)
    | intersection => exact .intersection fun m member => deeper (leaves.piece member) (within m member)
    | handle id =>
      obtain ⟨target, found⟩ := Option.isSome_iff_exists.mp leaves.of_handle
      exact (inhabits_layers_handle closed found n).mpr (ih (closed id target found) (within target found))
    | _ => exact .flat within

theorem inhabits_iff_layers (closed : g.Closed strict) (leaves : s.Leaves strict g.Bound) :
    Inhabits g s v ↔ ∃ n, Inhabits (g.layers n) s v := by
  constructor
  · intro inhabits
    obtain ⟨n, within⟩ := inhabits.exists_within
    exact ⟨n, inhabits_layers_of_within closed leaves within⟩
  · intro inhabits
    obtain ⟨n, inside⟩ := inhabits
    exact inhabits_of_layers closed leaves inside

end Graph

end JsonShape
