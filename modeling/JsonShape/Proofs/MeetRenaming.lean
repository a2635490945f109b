import JsonShape.Proofs.MeetRules
import JsonShape.Proofs.Renaming
import Mathlib.Data.List.ProdSigma

/-! Intersections of moved shapes. Meeting moved shapes gives the moved meet, and the budget of a
meet suffices: on the way down each pair of shapes is opened at most once. -/
namespace JsonShape.Shape

open Fresh List

variable {d : Shift} {strict : Prop} {live : Nat → Prop} {other a b : Shape}
  {target?' target? : Nat → Option Shape} {n : Nat} {g g' : Graph}

theorem conjuncts_shift (s : Shape) : conjuncts (s.shift d) = (conjuncts s).map (shift d) := by
  cases s with
  | intersection n members => rw [shift_intersection]; rfl
  | _ => rfl

theorem conjuncts_leaves {s : Shape} (leaves : s.Leaves strict live) :
    ∀ m ∈ conjuncts s, m.Leaves strict live := by
  cases s with
  | intersection n members => exact fun m member => leaves.piece member
  | _ => exact fun m member => mem_singleton.mp member ▸ leaves

theorem unmerged_follows (left : a.Leaves strict live) (right : b.Leaves strict live) :
    Follows d strict (shift d) (Leaves strict live) (unmerged a b) (unmerged (a.shift d) (b.shift d)) := by
  rw [unmerged_eq, unmerged_eq, conjuncts_shift, conjuncts_shift, ← map_append]
  refine .serial fun n => ?_
  rw [← shift_intersection]
  refine .pure (leaves_of_pieces nofun nofun fun p member => ?_)
  exact (mem_append.mp member).elim (conjuncts_leaves left p) (conjuncts_leaves right p)

theorem isRich_shift (s : Shape) : (s.shift d).isRich = s.isRich := by cases s <;> rfl

theorem meetPlain_shift : meetPlain (a.shift d) (b.shift d) = (meetPlain a b).shift d := by
  unfold meetPlain
  rw [kind_shift, kind_shift, isRich_shift, isRich_shift]
  split_ifs
  · rfl
  · rfl
  · rfl
  · cases b with
    | number integer => cases integer <;> rfl
    | _ => rfl

theorem meetPlain_leaves (left : a.Leaves strict live) (right : b.Leaves strict live) :
    (meetPlain a b).Leaves strict live := by
  unfold meetPlain
  split_ifs
  · exact right
  · exact left
  · exact leaves_flat rfl nofun nofun
  · split
    · exact right
    · exact left

theorem meetLiteral_follows {v : Value} (left : (literal n v).Leaves strict live)
    (right : other.Leaves strict live) :
    Follows d strict (shift d) (Leaves strict live) (liftM (meetLiteral (literal n v) v other))
      (liftM (meetLiteral ((literal n v).shift d) v (other.shift d))) := by
  have never_leaves : never.Leaves strict live := leaves_flat rfl nofun nofun
  have settled : ∀ other : Shape, other.Leaves strict live → other.kind ≠ .literal →
      Follows d strict (shift d) (Leaves strict live) (liftM (meetLiteral (literal n v) v other))
        (liftM (meetLiteral ((literal n v).shift d) v (other.shift d))) := by
    intro other right notLiteral
    have plain : ∀ (l s : Shape), s.kind ≠ .literal → meetLiteral l v s =
        if v.literalKind == s.kind && s.kind != .array && s.kind != .object then .ok l
        else if v.literalKind == .string && s.isRich then .ok s
        else .ok never := by
      intro l s notLiteral
      cases s with
      | literal => exact absurd rfl notLiteral
      | _ => rfl
    rw [plain _ _ notLiteral, plain _ _ (by rwa [kind_shift]), kind_shift, isRich_shift]
    split_ifs
    · exact .pure left
    · exact .pure right
    · exact .pure never_leaves
  cases other with
  | literal m w =>
    have compares : Compares strict (v.literalEqual w) :=
      Value.literalEqual_compares left.of_literal right.of_literal
    change Follows d strict (shift d) (Leaves strict live)
      (liftM (do return if ← v.literalEqual w then literal n v else never : Except Fault Shape))
      (liftM (do return if ← v.literalEqual w then (literal n v).shift d else never : Except Fault Shape))
    cases tested : v.literalEqual w with
    | error e =>
      obtain ⟨rfl, lenient⟩ := compares e tested
      exact fun k => .fault lenient
    | ok found =>
      cases found with
      | true => exact .pure left
      | false => exact .pure never_leaves
  | _ => exact settled _ right nofun

section

variable {meet meet' : Shape → Shape → Fresh Shape}

def MeetFollows (d : Shift) (strict : Prop) (live : Nat → Prop)
    (meet meet' : Shape → Shape → Fresh Shape) (a b : Shape) : Prop :=
  Follows d strict (shift d) (Leaves strict live) (meet a b) (meet' (a.shift d) (b.shift d))

theorem distribute_follows (inclusive : Bool) {members : List Shape}
    (each : ∀ m ∈ members, MeetFollows d strict live meet meet' m other) :
    Follows d strict (shift d) (Leaves strict live) (distribute meet inclusive members other)
      (distribute meet' inclusive (members.map (shift d)) (other.shift d)) :=
  .bind (.mapM each) fun _ leaves => unionOf_follows inclusive leaves

theorem meetProperty_follows {p : Property Shape} {others : List (Property Shape)}
    {extra? : Option Shape} (leaves : p.shape.Leaves strict live)
    (declared : ∀ q ∈ others, MeetFollows d strict live meet meet' p.shape q.shape)
    (extra : ∀ s, extra? = some s → MeetFollows d strict live meet meet' p.shape s) :
    Follows d strict (.map (shift d)) (fun q => q.shape.Leaves strict live)
      (meetProperty meet p others extra?)
      (meetProperty meet' (p.map (shift d)) (others.map (.map (shift d)))
      (extra?.map (shift d))) := by
  unfold meetProperty
  rw [show (p.map (shift d)).name = p.name from rfl, property?_map]
  cases found : property? others p.name with
  | some q => exact .bind (declared q (mem_of_property? found).1) fun s leaves => .pure leaves
  | none =>
    cases extra? with
    | some s => exact .bind (extra s rfl) fun s leaves => .pure leaves
    | none => exact .pure leaves

theorem meetProperties_follows {meet meet' : Property Shape → Fresh (Property Shape)}
    {props : List (Property Shape)}
    (each : ∀ p ∈ props, Follows d strict (.map (shift d)) (fun q => q.shape.Leaves strict live)
      (meet p) (meet' (p.map (shift d)))) :
    Follows d strict (Option.map (map (.map (shift d))))
      (fun qs? => ∀ qs, qs? = some qs → ∀ q ∈ qs, q.shape.Leaves strict live)
      (meetProperties meet props) (meetProperties meet' (props.map (.map (shift d)))) := by
  induction props with
  | nil => exact .pure fun qs equal => Option.some.inj equal ▸ fun q member => (by cases member)
  | cons p rest ih =>
    rw [map_cons, meetProperties, meetProperties]
    refine .bind (each p mem_cons_self) fun q here => ?_
    rw [show (q.map (shift d)).shape.kind = q.shape.kind from kind_shift _,
      show (q.map (shift d)).optional = q.optional from rfl]
    split_ifs
    · exact .pure fun qs equal => (by cases equal)
    · refine .bind (ih fun p' member => each p' (mem_cons_of_mem _ member)) fun qs? later => ?_
      cases qs? with
      | none => exact .pure fun qs equal => (by cases equal)
      | some qs =>
        refine .pure fun all equal => ?_
        obtain rfl := Option.some.inj equal
        exact forall_mem_cons.mpr ⟨here, later qs rfl⟩

theorem meetExtra_follows {e f : Option Shape} (left : ∀ s, e = some s → s.Leaves strict live)
    (right : ∀ t, f = some t → t.Leaves strict live)
    (both : ∀ s t, e = some s → f = some t → MeetFollows d strict live meet meet' s t) :
    Follows d strict (Option.map (shift d)) (fun s? => ∀ s, s? = some s → s.Leaves strict live)
      (meetExtra meet e f) (meetExtra meet' (e.map (shift d)) (f.map (shift d))) := by
  cases e with
  | none =>
    cases f with
    | none => exact .pure right
    | some t => exact .pure right
  | some s =>
    cases f with
    | none => exact .pure left
    | some t =>
      exact .bind (both s t rfl rfl) fun r leaves => .pure fun s equal =>
        Option.some.inj equal ▸ leaves

theorem meetObjects_follows {m : Nat} {ps qs : List (Property Shape)} {e f : Option Shape}
    (left : (object m ps e).Leaves strict live) (right : (object n qs f).Leaves strict live)
    (both : ∀ p ∈ (object m ps e).pieces, ∀ q ∈ (object n qs f).pieces,
      MeetFollows d strict live meet meet' p q ∧ MeetFollows d strict live meet meet' q p) :
    Follows d strict (shift d) (Leaves strict live) (meetObjects meet ps e qs f)
      (meetObjects meet' (ps.map (.map (shift d))) (e.map (shift d)) (qs.map (.map (shift d)))
      (f.map (shift d))) := by
  have never_leaves : never.Leaves strict live := leaves_flat rfl (by rintro ⟨⟩) (by rintro ⟨⟩)
  have left := leaves_object_iff.mp left
  have right := leaves_object_iff.mp right
  have others : (qs.map (Property.map (shift d))).filter
      (fun q => (property? (ps.map (.map (shift d))) q.name).isNone) =
      (qs.filter fun q => (property? ps q.name).isNone).map (.map (shift d)) := by
    rw [filter_map]
    congr 2
    funext q
    simp only [Function.comp_apply, Property.map, property?_map, Option.isNone_map]
  have extra_left : ∀ s, e = some s → s ∈ (object m ps e).pieces := by
    rintro s rfl
    exact mem_pieces_of_extra
  have extra_right : ∀ s, f = some s → s ∈ (object n qs f).pieces := by
    rintro s rfl
    exact mem_pieces_of_extra
  have declared : ∀ p ∈ ps, Follows d strict (.map (shift d)) (fun r => r.shape.Leaves strict live)
      (meetProperty meet p qs f)
      (meetProperty meet' (p.map (shift d)) (qs.map (.map (shift d))) (f.map (shift d))) := by
    intro p member
    exact meetProperty_follows (left.props p member)
      (fun q member' => (both _ (mem_pieces_of_mem_props member) _ (mem_pieces_of_mem_props member')).1)
      fun s equal => (both _ (mem_pieces_of_mem_props member) s (extra_right s equal)).1
  have undeclared : ∀ q ∈ qs.filter fun q => (property? ps q.name).isNone,
      Follows d strict (.map (shift d)) (fun r => r.shape.Leaves strict live) (meetProperty meet q [] e)
        (meetProperty meet' (q.map (shift d)) [] (e.map (shift d))) := by
    intro q member
    have member := mem_of_mem_filter member
    have nothing : ∀ q' ∈ ([] : List (Property Shape)), MeetFollows d strict live meet meet' q.shape
        q'.shape := by simp
    exact meetProperty_follows (right.props q member) nothing fun s equal =>
      (both s (extra_left s equal) _ (mem_pieces_of_mem_props member)).2
  unfold meetObjects
  rw [others]
  refine .bind (meetProperties_follows declared) fun props? kept => ?_
  cases props? with
  | none => exact .pure never_leaves
  | some props =>
    refine .bind (meetProperties_follows undeclared) fun props'? kept' => ?_
    cases props'? with
    | none => exact .pure never_leaves
    | some props' =>
      dsimp only [Option.map_some]
      rw [← map_append]
      refine .bind (meetExtra_follows left.extra right.extra fun s t equal equal' =>
        (both s (extra_left s equal) t (extra_right t equal')).1) fun extra? leaves => ?_
      refine ofProperties_follows ⟨fun p member => ?_, leaves⟩
      exact (mem_append.mp member).elim (kept props rfl p) (kept' props' rfl p)

def TargetsFollow (d : Shift) (target? target?' : Nat → Option Shape) : Prop :=
  ∀ id, target?' (id + d.handles) = (target? id).map (shift d)

theorem opened_shift (targets : TargetsFollow d target? target?') (s : Shape) :
    opened target?' (s.shift d) = (opened target? s).map (shift d) := by
  cases s with
  | handle id => exact targets id
  | _ => rfl

theorem meetHandles_follows (targets : TargetsFollow d target? target?')
    (left : a.Leaves strict live) (right : b.Leaves strict live)
    (inner : ∀ ta tb, opened target? a = some ta → opened target? b = some tb →
      MeetFollows d strict live meet meet' ta tb) :
    Follows d strict (shift d) (Leaves strict live) (meetHandles target? meet a b)
      (meetHandles target?' meet' (a.shift d) (b.shift d)) := by
  rw [meetHandles_eq, meetHandles_eq, opened_shift targets, opened_shift targets, kind_shift, kind_shift]
  cases first : opened target? a with
  | none => exact unmerged_follows left right
  | some ta =>
    cases second : opened target? b with
    | none => exact unmerged_follows left right
    | some tb =>
      dsimp only [Option.map_some]
      refine .bind (inner ta tb first second) fun r leaves => ?_
      rw [same_shift, same_shift]
      split_ifs
      · exact .pure left
      · exact .pure right
      · exact .pure leaves

end

variable {shapes : List Shape} {size budget : Nat} {active : List (Shape × Shape)} {s a' b' : Shape}

inductive Descends (a b : Shape) : Shape → Shape → Prop
  | left {p : Shape} (member : p ∈ a.pieces) : Descends a b p b
  | right {q : Shape} (member : q ∈ b.pieces) : Descends a b q a
  | both {p q : Shape} (member : p ∈ a.pieces) (member' : q ∈ b.pieces) : Descends a b p q
  | crossed {p q : Shape} (member : p ∈ a.pieces) (member' : q ∈ b.pieces) : Descends a b q p

theorem Descends.smaller (descends : Descends a b a' b') : a'.size + b'.size < a.size + b.size := by
  cases descends with
  | left member =>
    have := size_lt_of_mem_pieces member
    omega
  | right member =>
    have := size_lt_of_mem_pieces member
    omega
  | both member member' | crossed member member' =>
    have := size_lt_of_mem_pieces member
    have := size_lt_of_mem_pieces member'
    omega

theorem Descends.shift (descends : Descends a b a' b') :
    Descends (a.shift d) (b.shift d) (a'.shift d) (b'.shift d) := by
  have moved : ∀ {s p : Shape}, p ∈ s.pieces → p.shift d ∈ (s.shift d).pieces := by
    intro s p member
    rw [pieces_shift]
    exact mem_map.mpr ⟨p, member, rfl⟩
  cases descends with
  | left member => exact .left (moved member)
  | right member => exact .right (moved member)
  | both member member' => exact .both (moved member) (moved member')
  | crossed member member' => exact .crossed (moved member) (moved member')

theorem Descends.forall {P : Shape → Prop} (inner : ∀ s, P s → ∀ p ∈ s.pieces, P p) (left : P a)
    (right : P b) (descends : Descends a b a' b') : P a' ∧ P b' := by
  cases descends with
  | left member => exact ⟨inner a left _ member, right⟩
  | right member => exact ⟨inner b right _ member, left⟩
  | both member member' => exact ⟨inner a left _ member, inner b right _ member'⟩
  | crossed member member' => exact ⟨inner b right _ member', inner a left _ member⟩

/-- Some shapes of limited size with all that can be reached from them. -/
structure Confined (target? : Nat → Option Shape) (shapes : List Shape) (size : Nat) : Prop where
  pieces : ∀ s ∈ shapes, ∀ p ∈ s.pieces, p ∈ shapes
  targets : ∀ id, handle id ∈ shapes → ∀ s, target? id = some s → s ∈ shapes
  small : ∀ s ∈ shapes, s.size ≤ size

theorem Confined.opened (confined : Confined target? shapes size) {t : Shape} (member : s ∈ shapes)
    (found : opened target? s = some t) : t ∈ shapes := by
  cases s with
  | handle id => exact confined.targets id member t found
  | _ => exact Option.some.inj found ▸ member

/-- The budget of a meet: each pair that is not being met can still be opened, and after each
opening the shapes get smaller. -/
structure Affords (shapes : List Shape) (size : Nat) (active : List (Shape × Shape)) (a b : Shape)
    (budget : Nat) : Prop where
  left : a ∈ shapes
  right : b ∈ shapes
  distinct : active.Nodup
  inside : active ⊆ shapes ×ˢ shapes
  enough : (shapes.length * shapes.length - active.length) * (2 * size + 1) + a.size + b.size ≤ budget

theorem Affords.pos (affords : Affords shapes size active a b budget) : 0 < budget := by
  have enough := affords.enough
  have := a.size_pos
  omega

theorem Affords.descend (confined : Confined target? shapes size)
    (affords : Affords shapes size active a b (budget + 1)) (descends : Descends a b a' b') :
    Affords shapes size active a' b' budget := by
  obtain ⟨left, right⟩ := descends.forall confined.pieces affords.left affords.right
  have smaller := descends.smaller
  have enough := affords.enough
  exact ⟨left, right, affords.distinct, affords.inside, by omega⟩

theorem Affords.open_pair (confined : Confined target? shapes size)
    (affords : Affords shapes size active a b (budget + 1)) (fresh : (a, b) ∉ active)
    {ta tb : Shape} (left : opened target? a = some ta) (right : opened target? b = some tb) :
    Affords shapes size ((a, b) :: active) ta tb budget := by
  have distinct : ((a, b) :: active).Nodup := nodup_cons.mpr ⟨fresh, affords.distinct⟩
  have inside : (a, b) :: active ⊆ shapes ×ˢ shapes :=
    cons_subset.mpr ⟨mem_product.mpr ⟨affords.left, affords.right⟩, affords.inside⟩
  have member := confined.opened affords.left left
  have member' := confined.opened affords.right right
  refine ⟨member, member', distinct, inside, ?_⟩
  have few := (subperm_of_subset distinct inside).length_le
  rw [length_product, length_cons] at few
  have small := confined.small ta member
  have small' := confined.small tb member'
  have enough := affords.enough
  have spare : shapes.length * shapes.length - active.length = shapes.length * shapes.length -
      (active.length + 1) + 1 := by omega
  rw [spare, Nat.add_mul] at enough
  rw [length_cons]
  omega

def meetShapes (g : Graph) (a b : Shape) : List Shape := a.subshapes ++ b.subshapes ++ graphShapes g

theorem length_meetShapes (g : Graph) (a b : Shape) :
    (meetShapes g a b).length = a.size + b.size + g.size := by
  rw [meetShapes, length_append, length_append, length_subshapes, length_subshapes, length_graphShapes]

theorem exists_root_of_mem_meetShapes (member : s ∈ meetShapes g a b) :
    ∃ root : Shape, root.subshapes.Sublist (meetShapes g a b) ∧ s ∈ root.subshapes := by
  rcases mem_append.mp member with given | stored
  · rcases mem_append.mp given with left | right
    · exact ⟨a, (sublist_append_left _ _).trans (sublist_append_left _ _), left⟩
    · exact ⟨b, (sublist_append_right _ _).trans (sublist_append_left _ _), right⟩
  · obtain ⟨h, listed, inside⟩ := mem_flatMap.mp stored
    obtain ⟨root, bound, deeper⟩ := mem_flatMap.mp inside
    have kept := subshapes_sublist_graphShapes listed (Option.mem_toList.mp bound)
    exact ⟨root, kept.trans (sublist_append_right _ _), deeper⟩

theorem confined_meetShapes (g : Graph) (a b : Shape) :
    Confined g.target? (meetShapes g a b) (a.size + b.size + g.size) where
  pieces s member p piece := by
    obtain ⟨root, kept, inside⟩ := exists_root_of_mem_meetShapes member
    exact kept.subset (mem_subshapes_of_mem_pieces inside piece)
  targets id _ s found := by
    obtain ⟨h, listed, bound⟩ := Option.bind_eq_some_iff.mp found
    have kept := subshapes_sublist_graphShapes (Array.mem_of_getElem? listed).val bound
    exact mem_append_right _ (kept.subset s.mem_subshapes_self)
  small s member := by
    obtain ⟨root, kept, inside⟩ := exists_root_of_mem_meetShapes member
    calc s.size ≤ root.size := size_le_of_mem_subshapes inside
      _ = root.subshapes.length := (length_subshapes root).symm
      _ ≤ (meetShapes g a b).length := kept.length_le
      _ = a.size + b.size + g.size := length_meetShapes g a b

theorem affords_meetBudget (g : Graph) (a b : Shape) :
    Affords (meetShapes g a b) (a.size + b.size + g.size) [] a b (meetBudget g a b) where
  left := mem_append_left _ (mem_append_left _ a.mem_subshapes_self)
  right := mem_append_left _ (mem_append_right _ b.mem_subshapes_self)
  distinct := nodup_nil
  inside := nil_subset _
  enough := by
    rw [length_meetShapes, length_nil, Nat.sub_zero]
    unfold meetBudget
    generalize count : g.size + g.handles.size + a.size + b.size = n
    have few : a.size + b.size + g.size ≤ n + 1 := by omega
    have pairs := Nat.mul_le_mul few few
    have deep : 2 * (a.size + b.size + g.size) + 1 ≤ 2 * n + 2 := by omega
    have product := Nat.mul_le_mul pairs deep
    rw [Nat.add_mul ((n + 1) * (n + 1)) 1]
    omega

variable {budget' : Nat}

def shiftPairs (d : Shift) (pairs : List (Shape × Shape)) : List (Shape × Shape) :=
  pairs.map (Prod.map (shift d) (shift d))

theorem any_shiftPairs (active : List (Shape × Shape)) (a b : Shape) :
    ((shiftPairs d active).any fun (x, y) => x.same (a.shift d) && y.same (b.shift d)) =
      active.any fun (x, y) => x.same a && y.same b := by
  rw [shiftPairs, any_map]
  congr 1
  funext pair
  simp only [Function.comp_apply, Prod.map, same_shift]

def Meeting.shift (d : Shift) : Meeting → Meeting
  | settled s => settled (s.shift d)
  | unmerged => unmerged
  | opened => opened
  | each inclusive members other => each inclusive (members.map (Shape.shift d)) (other.shift d)
  | objects ps e qs f =>
    objects (ps.map (.map (Shape.shift d))) (e.map (Shape.shift d)) (qs.map (.map (Shape.shift d)))
      (f.map (Shape.shift d))
  | arrays n s t => arrays (n + d.serials) (s.shift d) (t.shift d)
  | literals n v other => literals (n + d.serials) v (other.shift d)

theorem meeting_shift (a b : Shape) : meeting (a.shift d) (b.shift d) = (meeting a b).shift d := by
  unfold meeting
  rw [same_shift]
  split_ifs
  · rfl
  · cases a <;> cases b <;> first
      | rfl
      | exact congrArg Meeting.settled meetPlain_shift
      | (rw [shift_union]; rfl)
      | (rw [shift_object, shift_object]; rfl)

theorem meet_step_follows (targets : TargetsFollow d target? target?') (left : a.Leaves strict live)
    (right : b.Leaves strict live)
    (opens : (a, b) ∉ active → ∀ ta tb, opened target? a = some ta → opened target? b = some tb →
      MeetFollows d strict live (meet target? budget ((a, b) :: active))
      (meet target?' budget' (shiftPairs d ((a, b) :: active))) ta tb)
    (inner : ∀ a' b', Descends a b a' b' → MeetFollows d strict live (meet target? budget active)
      (meet target?' budget' (shiftPairs d active)) a' b') :
    MeetFollows d strict live (meet target? (budget + 1) active)
      (meet target?' (budget' + 1) (shiftPairs d active)) a b := by
  have never_leaves : never.Leaves strict live := leaves_flat rfl nofun nofun
  have calls := callsFor_meeting a b
  unfold MeetFollows
  rw [meet_eq, meet_eq, meeting_shift]
  generalize meeting a b = m at calls ⊢
  cases calls with
  | same => exact .pure left
  | anyLeft => exact .pure right
  | anyRight => exact .pure left
  | neverLeft | neverRight | apart => exact .pure never_leaves
  | opened named =>
    dsimp only [Meeting.shift]
    rw [any_shiftPairs]
    split_ifs with active
    · exact unmerged_follows left right
    · exact meetHandles_follows targets left right (opens fun member => active (any_same_iff.mpr member))
  | unionLeft n inclusive members =>
    exact distribute_follows inclusive fun m member => inner m b (.left member)
  | unionRight n inclusive members =>
    exact distribute_follows inclusive fun m member => inner m a (.right member)
  | unmerged => exact unmerged_follows left right
  | objects =>
    exact meetObjects_follows left right fun p member q member' =>
      ⟨inner p q (.both member member'), inner q p (.crossed member member')⟩
  | arrays m n s t =>
    refine .bind (inner s t (.both mem_cons_self mem_cons_self)) fun items leaves => ?_
    rw [same_shift]
    split_ifs
    · exact .pure left
    · exact ofItems_follows leaves
  | literals | literalLeft => exact meetLiteral_follows left right
  | literalRight => exact meetLiteral_follows right left
  | flat => exact .pure (meetPlain_leaves left right)

theorem meet_follows {shapes' : List Shape} {size' : Nat}
    (targets : TargetsFollow d target? target?')
    (bound : ∀ id, live id → ∀ s, target? id = some s → s.Leaves strict live)
    (confined : Confined target? shapes size) (confined' : Confined target?' shapes' size')
    (left : a.Leaves strict live) (right : b.Leaves strict live)
    (affords : Affords shapes size active a b budget)
    (affords' : Affords shapes' size' (shiftPairs d active) (a.shift d) (b.shift d) budget') :
    MeetFollows d strict live (meet target? budget active)
      (meet target?' budget' (shiftPairs d active)) a b := by
  induction budget generalizing budget' active a b with
  | zero => exact absurd affords.pos (Nat.lt_irrefl 0)
  | succ budget ih =>
    obtain ⟨budget', rfl⟩ := Nat.exists_eq_add_one_of_ne_zero affords'.pos.ne'
    have leaves : ∀ s t, s.Leaves strict live → opened target? s = some t → t.Leaves strict live := by
      intro s t leaves found
      cases s with
      | handle id => exact bound id leaves.of_handle t found
      | _ => exact Option.some.inj found ▸ leaves
    refine meet_step_follows targets left right (fun fresh ta tb found found' => ?_)
      fun a' b' descends => ?_
    · refine ih (leaves a ta left found) (leaves b tb right found')
        (affords.open_pair confined fresh found found') ?_
      refine affords'.open_pair confined' ?_ (by rw [opened_shift targets, found]; rfl)
        (by rw [opened_shift targets, found']; rfl)
      rwa [← any_same_iff, any_shiftPairs, any_same_iff]
    · obtain ⟨left', right'⟩ := descends.forall (fun s leaves p member => leaves.piece member) left right
      exact ih left' right' (affords.descend confined descends) (affords'.descend confined' descends.shift)

theorem intersect_follows (targets : TargetsFollow d g.target? g'.target?)
    (bound : ∀ id, live id → ∀ s, g.target? id = some s → s.Leaves strict live)
    (left : a.Leaves strict live) (right : b.Leaves strict live) :
    MeetFollows d strict live (intersect g) (intersect g') a b :=
  meet_follows targets bound (confined_meetShapes g a b) (confined_meetShapes g' _ _) left right
    (affords_meetBudget g a b)
    (affords_meetBudget g' _ _)

theorem intersectAll_follows (targets : TargetsFollow d g.target? g'.target?)
    (bound : ∀ id, live id → ∀ s, g.target? id = some s → s.Leaves strict live)
    (leaves : ∀ s ∈ shapes, s.Leaves strict live) :
    Follows d strict (shift d) (Leaves strict live) (intersectAll g shapes)
      (intersectAll g' (shapes.map (shift d))) := by
  have fold : ∀ start : Shape, start.Leaves strict live → Follows d strict (shift d) (Leaves strict live)
      (shapes.foldlM (intersect g) start)
      ((shapes.map (shift d)).foldlM (intersect g') (start.shift d)) := by
    induction shapes with
    | nil => exact fun start leaves => .pure leaves
    | cons s rest ih =>
      intro start here
      rw [map_cons, foldlM_cons, foldlM_cons]
      obtain ⟨first, later⟩ := forall_mem_cons.mp leaves
      exact .bind (intersect_follows targets bound here first) fun r kept => ih later r kept
  exact fold any (leaves_flat rfl nofun nofun)

theorem targetsFollow_self (g : Graph) : TargetsFollow ⟨0, 0⟩ g.target? g.target? := by
  intro id
  cases g.target? id with
  | none => rfl
  | some s => exact congrArg some s.shift_zero.symm

theorem intersect_compares (g : Graph) (a b : Shape) (n : Nat) :
    Compares (g.Documented a ∧ g.Documented b) (intersect g a b n) := by
  have left : ∀ {s : Shape}, g.Reaches a s → s.Leaves (g.Documented a ∧ g.Documented b) fun id =>
      g.Reaches a (.handle id) ∨ g.Reaches b (.handle id) :=
    fun reached => (leaves_of_reaches And.left reached).mono fun id => .inl
  have right : ∀ {s : Shape}, g.Reaches b s → s.Leaves (g.Documented a ∧ g.Documented b) fun id =>
      g.Reaches a (.handle id) ∨ g.Reaches b (.handle id) :=
    fun reached => (leaves_of_reaches And.right reached).mono fun id => .inr
  have bound : ∀ id, g.Reaches a (.handle id) ∨ g.Reaches b (.handle id) → ∀ s, g.target? id = some s →
      s.Leaves (g.Documented a ∧ g.Documented b) fun id => g.Reaches a (.handle id) ∨
      g.Reaches b (.handle id) := by
    intro id live s found
    rcases live with reached | reached
    · exact left (reached.target found)
    · exact right (reached.target found)
  exact (intersect_follows (targetsFollow_self g) bound (left .self) (right .self)).compares n

end JsonShape.Shape
