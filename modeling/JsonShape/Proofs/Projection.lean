import JsonShape.Proofs.Copies
import JsonShape.Proofs.Matching
import JsonShape.Shape.Projection

/-! Projections as plain functions of shapes. Rebuilding a shape with other leaves gives the
projected shape with its handles renumbered, and the new handles have the projected targets. -/
namespace JsonShape
open List

variable {shapes parts : List Shape} {id : Nat}

namespace Shape

variable {grown? : Option (List Shape)} {live : Nat → Prop}

def united (inclusive : Bool) (shapes : List Shape) : Shape :=
  match addMembers [] shapes with
  | .ok grown? => gathered 0 inclusive grown?
  | .error _ => never

theorem united_eq {inclusive : Bool} (run : addMembers [] shapes = .ok grown?) :
    united inclusive shapes = gathered 0 inclusive grown? := by rw [united, run]

mutual
/-- A shape with its leaves replaced, its unions in normal form, and no serial numbers. -/
def projected (leaf : Shape → Shape) : Shape → Shape
  | array _ items => array 0 (items.projected leaf)
  | object _ props extra? => object 0 (projectedProperties leaf props) (projectedOption leaf extra?)
  | union _ inclusive members => united inclusive (projectedMembers leaf members)
  | intersection _ members => intersection 0 (projectedMembers leaf members)
  | handle id => handle id
  | s => leaf s

def projectedProperties (leaf : Shape → Shape) : List (Property Shape) → List (Property Shape)
  | [] => []
  | ⟨name, s, optional, default?⟩ :: rest =>
    ⟨name, s.projected leaf, optional, default?⟩ :: projectedProperties leaf rest

def projectedOption (leaf : Shape → Shape) : Option Shape → Option Shape
  | none => none
  | some s => some (s.projected leaf)

def projectedMembers (leaf : Shape → Shape) : List Shape → List Shape
  | [] => []
  | s :: rest => s.projected leaf :: projectedMembers leaf rest
end

def bareLeaf : Shape → Shape
  | dateTime _ _ | binary => string
  | literal _ v => literal 0 v
  | s => s

def looseLeaf : Shape → Shape
  | dateTime _ format => union 0 false [dateTime 0 format, string]
  | binary => union 0 false [binary, string]
  | literal _ v => literal 0 v
  | s => s

section Equations

variable (leaf : Shape → Shape)

theorem projectedProperties_eq (props : List (Property Shape)) :
    projectedProperties leaf props = props.map (.map (projected leaf)) := by
  induction props with
  | nil => rfl
  | cons p rest ih => rw [projectedProperties, ih]; rfl

theorem projectedOption_eq (s? : Option Shape) :
    projectedOption leaf s? = s?.map (projected leaf) := by cases s? <;> rfl

theorem projectedMembers_eq (members : List Shape) :
    projectedMembers leaf members = members.map (projected leaf) := by
  induction members with
  | nil => rfl
  | cons s rest ih => rw [projectedMembers, ih]; rfl

theorem projected_object (n : Nat) (props : List (Property Shape)) (extra? : Option Shape) :
    (object n props extra?).projected leaf = object 0 (props.map (.map (projected leaf)))
      (extra?.map (projected leaf)) := by
  rw [projected, projectedProperties_eq, projectedOption_eq]

theorem pieces_projected_object (n : Nat) (props : List (Property Shape)) (extra? : Option Shape) :
    ((object n props extra?).projected leaf).pieces = (object n props extra?).pieces.map
      (projected leaf) := by
  rw [projected_object]
  cases extra? <;> simp [pieces, Property.map, Function.comp_def]

theorem projected_union (n : Nat) (inclusive : Bool) (members : List Shape) :
    (union n inclusive members).projected leaf = united inclusive (members.map (projected leaf)) := by
  rw [projected, projectedMembers_eq]

theorem projected_intersection (n : Nat) (members : List Shape) :
    (intersection n members).projected leaf = intersection 0 (members.map (projected leaf)) := by
  rw [projected, projectedMembers_eq]

end Equations

theorem Gathers.gathered (gathers : Gathers True live (.ok grown?)) (n : Nat)
    (inclusive : Bool) : (gathered n inclusive grown?).Leaves True live := by
  match grown? with
  | none | some [] => exact leaves_flat rfl nofun nofun
  | some [s] => exact gathers.leaves [s] rfl s mem_cons_self
  | some (s :: t :: rest) => exact leaves_of_pieces nofun nofun (gathers.leaves _ rfl)

theorem rename_gathered (onSerial onHandle : Nat → Nat) (n : Nat) (inclusive : Bool)
    (grown? : Option (List Shape)) :
    (gathered n inclusive grown?).rename onSerial onHandle = gathered (onSerial n) inclusive
      (grown?.map (map (rename onSerial onHandle))) := by
  match grown? with
  | none | some [] | some [_] => rfl
  | some (s :: t :: rest) => rw [gathered, rename_union]; rfl

theorem addMembers_leaves (leaves : ∀ s ∈ shapes, s.Leaves True live) :
    ∃ grown?, addMembers [] shapes = .ok grown? ∧ ∀ n inclusive,
      (gathered n inclusive grown?).Leaves True live := by
  have gathers : Gathers True live (addMembers [] shapes) := addMembers_gathers nofun leaves
  cases run : addMembers [] shapes with
  | error e => exact absurd trivial (gathers.compares e run).2
  | ok grown? => exact ⟨grown?, rfl, (run ▸ gathers).gathered⟩

theorem united_rename (inclusive : Bool) (leaves : ∀ p ∈ parts, p.Leaves True live)
    {back : Nat → Nat} (apart : ∀ i j, live i → live j → back i = back j → i = j)
    (run : addMembers [] parts = .ok grown?) (n : Nat) :
    (gathered n inclusive grown?).rename (fun _ => 0) back = united inclusive
      (parts.map (rename (fun _ => 0) back)) := by
  have renamed : addMembers [] (parts.map (rename (fun _ => 0) back)) =
      (addMembers [] parts).map (Option.map (map (rename (fun _ => 0) back))) :=
    addMembers_rename (invariant_rename apart) parts (forall_mem_nil _) leaves
  rw [run] at renamed
  rw [rename_gathered, united_eq renamed]

theorem unionOf_united (inclusive : Bool) (leaves : ∀ p ∈ parts, p.Leaves True live) :
    (unionOf inclusive parts).Yields fun t => t.Leaves True live ∧ ∀ back : Nat → Nat,
      (∀ i j, live i → live j → back i = back j → i = j) →
      t.rename (fun _ => 0) back = united inclusive (parts.map (rename (fun _ => 0) back)) := by
  obtain ⟨grown?, run, kept⟩ := addMembers_leaves leaves
  exact (unionOf_gathered run).imp fun t ⟨n, equal⟩ =>
    equal ▸ ⟨kept n inclusive, fun back apart => united_rename inclusive leaves apart run n⟩

def isLeaf (s : Shape) : Bool := s.isFlat || s.kind == .literal

/-- A computation that replaces leaves as a plain function does, up to serial numbers. -/
def Draws (leaf : Shape → Fresh Shape) (leaf' : Shape → Shape) : Prop :=
  ∀ s : Shape, s.isLeaf = true → s.Leaves True (fun _ => False) → (leaf s).Yields fun t =>
    t.Leaves True (fun _ => False) ∧ ∀ back, t.rename (fun _ => 0) back = leaf' s

end Shape

/-- A result that is good, or that is missing for the lack of an equality. -/
inductive Attains {α : Type} (strict : Prop) (good : α → Prop) : Except Fault α → Prop
  | ok {a : α} (holds : good a) : Attains strict good (.ok a)
  | fault (lenient : ¬ strict) : Attains strict good (.error .incomparable)

namespace Attains

variable {α β : Type} {strict : Prop} {good : α → Prop} {fine : β → Prop} {result : Except Fault α}

theorem exists_ok (attains : Attains True good result) : ∃ a, result = .ok a ∧ good a := by
  cases attains with
  | ok holds => exact ⟨_, rfl, holds⟩
  | fault lenient => exact absurd trivial lenient

theorem bind {next : α → Except Fault β} (first : Attains strict good result)
    (second : ∀ a, good a → Attains strict fine (next a)) :
    Attains strict fine (result >>= next) := by
  cases first with
  | ok holds => exact second _ holds
  | fault lenient => exact .fault lenient

theorem imp {good' : α → Prop} (attains : Attains strict good result)
    (weaker : ∀ a, good a → good' a) : Attains strict good' result := by
  cases attains with
  | ok holds => exact .ok (weaker _ holds)
  | fault lenient => exact .fault lenient

theorem of_yields {f : Fresh α} (yields : f.Yields good) (n : Nat) :
    Attains strict (fun r => good r.1) (f n) := by
  obtain ⟨a, m, run, holds⟩ := yields n
  rw [run]
  exact .ok holds

end Attains

theorem Compares.attains {α : Type} {strict : Prop} {good : α → Prop} {result : Except Fault α}
    (compares : Compares strict result) (each : ∀ a, result = .ok a → good a) :
    Attains strict good result := by
  cases result with
  | ok a => exact .ok (each a rfl)
  | error e =>
    obtain ⟨rfl, lenient⟩ := compares e rfl
    exact .fault lenient

namespace Graph

open Shape

/-- The graph of the projected targets. -/
def projected (leaf : Shape → Shape) (g : Graph) : Graph :=
  { g with handles := g.handles.map fun h => { h with target? := h.target?.map (Shape.projected leaf) } }

theorem target?_projected (leaf : Shape → Shape) (g : Graph) (id : Nat) :
    (g.projected leaf).target? id = (g.target? id).map (Shape.projected leaf) := by
  unfold projected target?
  rw [Array.getElem?_map]
  cases g.handles[id]? <;> rfl

def label? (g : Graph) (id : Nat) : Option (String × String) := g.handles[id]?.map fun h => (h.name, h.ref)

theorem label?_projected (leaf : Shape → Shape) (g : Graph) (id : Nat) :
    (g.projected leaf).label? id = g.label? id := by
  unfold projected label?
  rw [Array.getElem?_map]
  cases g.handles[id]? <;> rfl

theorem label?_bind (g : Graph) (id : Nat) (s : Shape) (other : Nat) :
    (g.bind id s).label? other = g.label? other := by
  unfold bind label?
  rw [Array.getElem?_modify]
  split_ifs
  · cases g.handles[other]? <;> rfl
  · rfl

def renew (g : Graph) (id : Nat) : Graph :=
  (g.declare (g.nameOf id) ((g.handles[id]?.map (·.ref)).getD "")).2

theorem label?_renew (g : Graph) (inside : id < g.handles.size) (other : Nat) :
    (g.renew id).label? other = if other = g.handles.size then g.label? id else g.label? other := by
  unfold renew declare label? nameOf
  rw [Array.getElem?_push, Array.getElem?_eq_getElem inside]
  split_ifs <;> rfl

variable {base g g' g'' : Graph} {leaf : Shape → Shape} {ren ren' ren'' known : List (Nat × Nat)}
  {limit : Nat} {s t p : Shape} {f : Shape → Rebuild Shape}
variable {back : Nat → Nat} {drawn : Shape → Fresh Shape} {strict : Prop} {source : Shape → Prop}
variable {R : List (Nat × Nat) → Shape → Shape → Prop}

def Anchored (g : Graph) (s : Shape) : Prop := ∀ id, g.Reaches s (.handle id) → id < g.handles.size

/-- All that a shape reaches makes sense: literals are values of documents, and handles are those of
the graph. -/
structure Grounded (g : Graph) (s : Shape) : Prop where
  documents : g.Documented s
  handles : ∀ id, g.Reaches s (.handle id) → id < g.handles.size

theorem Anchored.piece (anchored : g.Anchored s) (member : p ∈ s.pieces) : g.Anchored p :=
  fun id reached => anchored id (reached.of_piece member)

theorem Anchored.target (anchored : g.Anchored (.handle id)) (bound : g.target? id = some s) :
    g.Anchored s :=
  fun id reached => anchored id (reached.of_target bound)

theorem Grounded.piece (grounded : g.Grounded s) (member : p ∈ s.pieces) : g.Grounded p where
  documents := grounded.documents.piece member
  handles := Anchored.piece grounded.handles member

theorem Grounded.target (grounded : g.Grounded (.handle id)) (bound : g.target? id = some s) :
    g.Grounded s where
  documents := grounded.documents.target bound
  handles := Anchored.target grounded.handles bound

theorem Reaches.leaves {live : Nat → Prop} (reached : g.Reaches s t)
    (closed : ∀ id s, live id → g.target? id = some s → s.Leaves strict live)
    (leaves : s.Leaves strict live) : t.Leaves strict live := by
  induction reached with
  | self => exact leaves
  | piece _ member ih => exact ih.piece member
  | target _ bound ih => exact closed _ _ ih.of_handle bound

structure Enlarges (g g' : Graph) : Prop extends g.Extends g' where
  labels : ∀ id < g.handles.size, g'.label? id = g.label? id

/-- The handles replaced so far, and the graph: old handles are kept, and new ones are in it, one
for each, with the same name. -/
structure Replaces (base : Graph) (ren : List (Nat × Nat)) (g : Graph) : Prop where
  kept : base.Enlarges g
  inside : ∀ e ∈ ren, e.2 < g.handles.size
  single : ∀ e ∈ ren, ∀ e' ∈ ren, e.1 = e'.1 ↔ e.2 = e'.2
  labels : ∀ e ∈ ren, g.label? e.2 = base.label? e.1

inductive RemadeProperty (R : Shape → Shape → Prop) : Property Shape → Property Shape → Prop
  | mk {name : String} {s t : Shape} {optional : Bool} {default? : Option Value} (remade : R s t) :
    RemadeProperty R ⟨name, s, optional, default?⟩ ⟨name, t, optional, default?⟩

theorem RemadeProperty.imp {R R' : Shape → Shape → Prop} {p q : Property Shape}
    (remade : RemadeProperty R p q) (weaker : ∀ t, R p.shape t → R' p.shape t) :
    RemadeProperty R' p q := by
  obtain ⟨remade⟩ := remade
  exact ⟨weaker _ remade⟩

/-- How the shapes from some source are related to what they are rebuilt to, where some handles are
replaced. -/
structure Remakes (strict : Prop) (base : Graph) (drawn : Shape → Fresh Shape) (source : Shape → Prop)
    (R : List (Nat × Nat) → Shape → Shape → Prop) : Prop where
  piece {s p : Shape} (own : source s) (member : p ∈ s.pieces) : source p
  target {id : Nat} {s : Shape} (own : source (.handle id)) (bound : base.target? id = some s) : source s
  inside {id : Nat} (own : source (.handle id)) : id < base.handles.size
  mono {ren ren' : List (Nat × Nat)} {s t : Shape} (more : ren ⊆ ren') (remade : R ren s t) : R ren' s t
  handle {ren : List (Nat × Nat)} {id fresh : Nat} (member : (id, fresh) ∈ ren) :
      R ren (.handle id) (.handle fresh)
  leaf {ren : List (Nat × Nat)} {s : Shape} (own : source s) (plain : s.isLeaf = true) (n : Nat) :
    Attains strict (fun r => R ren s r.1) (drawn s n)
  array {ren : List (Nat × Nat)} {n m : Nat} {s t : Shape} (items : R ren s t) :
      R ren (.array n s) (.array m t)
  object {ren : List (Nat × Nat)} {n m : Nat} {ps qs : List (Property Shape)} {e f : Option Shape}
    (props : Forall₂ (RemadeProperty (R ren)) ps qs) (extra : Option.Rel (R ren) e f) :
    R ren (.object n ps e) (.object m qs f)
  union {ren : List (Nat × Nat)} {g : Graph} {n : Nat} {inclusive : Bool} {ss ts : List Shape}
      (own : source (.union n inclusive ss))
    (replaces : Replaces base ren g) (members : Forall₂ (R ren) ss ts) (k : Nat) :
    Attains strict (fun r => R ren (.union n inclusive ss) r.1) (unionOf inclusive ts k)
  intersection {ren : List (Nat × Nat)} {n m : Nat} {ss ts : List Shape}
      (members : Forall₂ (R ren) ss ts) :
    R ren (.intersection n ss) (.intersection m ts)

theorem Enlarges.refl (g : Graph) : g.Enlarges g := ⟨⟨Nat.le_refl _, fun _ _ => rfl⟩, fun _ _ => rfl⟩

theorem Enlarges.trans (first : g.Enlarges g') (second : g'.Enlarges g'') : g.Enlarges g'' where
  size := first.size.trans second.size
  old id inside := (second.old id (inside.trans_le first.size)).trans (first.old id inside)
  labels id inside := (second.labels id (inside.trans_le first.size)).trans (first.labels id inside)

structure Advances (R : List (Nat × Nat) → Shape → Shape → Prop) (base : Graph)
    (ren : List (Nat × Nat)) (g : Graph) (ren' : List (Nat × Nat)) (g' : Graph) : Prop where
  grows : g.Enlarges g'
  replaces : Replaces base ren' g'
  more : ren ⊆ ren'
  settled : ∀ e ∈ ren', e ∈ ren ∨ Option.Rel (R ren') (base.target? e.1) (g'.target? e.2)

theorem Advances.refl (replaces : Replaces base ren g) : Advances R base ren g ren g :=
  ⟨.refl g, replaces, fun _ member => member, fun _ => .inl⟩

theorem Advances.trans (rules : Remakes strict base drawn source R) (first : Advances R base ren g ren' g')
    (second : Advances R base ren' g' ren'' g'') : Advances R base ren g ren'' g'' where
  grows := first.grows.trans second.grows
  replaces := second.replaces
  more _ member := second.more (first.more member)
  settled e member := by
    rcases second.settled e member with old | new
    · rw [second.grows.old _ (first.replaces.inside e old)]
      exact (first.settled e old).imp_right (optionRel_imp fun _ _ _ => rules.mono second.more)
    · exact .inr new

/-- A computation that goes on in this way from wherever some handles are replaced, and gives a good
result. -/
def Rebuilds {α : Type} (strict : Prop) (R : List (Nat × Nat) → Shape → Shape → Prop) (base : Graph)
    (limit : Nat) (known : List (Nat × Nat)) (c : Rebuild α) (good : List (Nat × Nat) → α → Prop) :
    Prop :=
  ∀ ren g, known ⊆ ren → Replaces base ren g → base.others (ren.map (·.1)) ≤ limit →
    Attains strict (fun r => Advances R base ren g r.1.2 r.2 ∧ good r.1.2 r.1.1) (c ren g)

namespace Rebuilds

variable {α β ι : Type} {good : List (Nat × Nat) → α → Prop} {fine : List (Nat × Nat) → β → Prop}

theorem pure {a : α} (holds : ∀ ren, known ⊆ ren → good ren a) :
    Rebuilds strict R base limit known (Pure.pure a) good :=
  fun ren _ more replaces _ => .ok ⟨.refl replaces, holds ren more⟩

theorem bind (rules : Remakes strict base drawn source R) {c : Rebuild α} {next : α → Rebuild β}
    (first : Rebuilds strict R base limit known c good)
    (second : ∀ a ren, known ⊆ ren → good ren a → Rebuilds strict R base limit ren (next a) fine) :
    Rebuilds strict R base limit known (c >>= next) fine := by
  intro ren g more replaces enough
  refine (first ren g more replaces enough).bind fun r advances => ?_
  refine (second r.1.1 r.1.2 (Subset.trans more advances.1.more) advances.2 r.1.2 r.2
    (fun _ member => member) advances.1.replaces
    ((others_mono (map_subset _ advances.1.more)).trans enough)).imp fun r' advances' => ?_
  exact ⟨advances.1.trans rules advances'.1, advances'.2⟩

theorem mapM (rules : Remakes strict base drawn source R) {f : ι → Rebuild α}
    {related : List (Nat × Nat) → ι → α → Prop} {items : List ι}
    (mono : ∀ ren ren' i a, ren ⊆ ren' → related ren i a → related ren' i a)
    (each : ∀ i ∈ items, ∀ known, Rebuilds strict R base limit known (f i) fun ren => related ren i) :
    Rebuilds strict R base limit known (items.mapM f) fun ren => Forall₂ (related ren) items := by
  induction items generalizing known with
  | nil => exact pure fun _ _ => .nil
  | cons i rest ih =>
    rw [mapM_cons]
    refine bind rules (each i mem_cons_self known) fun a ren _ here => ?_
    refine bind rules (ih (forall_mem_cons.mp each).2) fun as ren' more later => ?_
    exact pure fun ren'' more' => .cons (mono _ _ i a (Subset.trans more more') here)
      (later.imp fun i a => mono _ _ i a more')

theorem draw {f : Fresh α}
    (attains : ∀ ren g, known ⊆ ren → Replaces base ren g →
      ∀ n, Attains strict (fun r => good ren r.1) (f n)) :
    Rebuilds strict R base limit known (Graph.draw f) good := by
  intro ren g more replaces _
  change Attains strict _ ((f g.next >>= fun r => .ok (r.1, { g with next := r.2 })) >>= fun r =>
    .ok ((r.1, ren), r.2))
  rw [bind_assoc]
  refine (attains ren g more replaces g.next).bind fun r holds => ?_
  have grows : g.Enlarges { g with next := r.2 } := ⟨⟨Nat.le_refl _, fun _ _ => rfl⟩, fun _ _ => rfl⟩
  exact .ok ⟨⟨grows, ⟨replaces.kept.trans grows, replaces.inside, replaces.single, replaces.labels⟩,
    fun _ member => member, fun _ => .inl⟩, holds⟩

end Rebuilds

theorem rebuildHandle_known {e : Nat × Nat} (found : ren.find? (·.1 == id) = some e) :
    rebuildHandle f id ren g = .ok ((.handle e.2, ren), g) := by
  change ((rebuildHandle f id).run ren).run g = _
  simp only [rebuildHandle, StateT.run_bind, StateT.run_get, pure_bind, found]
  rfl

theorem rebuildHandle_new (new : ren.find? (·.1 == id) = none) :
    rebuildHandle f id ren g = (match g.target? id with
    | some target => do
      let target ← f target
      modifyThe Graph (·.bind g.handles.size target)
      return .handle g.handles.size
    | _ => return .handle g.handles.size : Rebuild Shape) ((id, g.handles.size) :: ren) (g.renew id) := by
  change ((rebuildHandle f id).run ren).run g = _
  simp only [rebuildHandle, StateT.run_bind, StateT.run_get, pure_bind, new]
  rfl

theorem rebuildHandle_free (new : ren.find? (·.1 == id) = none) (free : g.target? id = none) :
    rebuildHandle f id ren g = .ok ((.handle g.handles.size, (id, g.handles.size) :: ren),
      g.renew id) := by
  rw [rebuildHandle_new new, free]
  rfl

theorem rebuildHandle_bound (new : ren.find? (·.1 == id) = none) {target : Shape}
    (found : g.target? id = some target) :
    rebuildHandle f id ren g = (f target ((id, g.handles.size) :: ren) (g.renew id) >>= fun r =>
      .ok ((.handle g.handles.size, r.1.2), r.2.bind g.handles.size r.1.1)) := by
  rw [rebuildHandle_new new, found]
  rfl

theorem Replaces.renew (replaces : Replaces base ren g) (inside : id < base.handles.size)
    (new : id ∉ ren.map (·.1)) :
    Replaces base ((id, g.handles.size) :: ren) (g.renew id) ∧ g.Enlarges (g.renew id) := by
  have here := inside.trans_le replaces.kept.size
  have grows : g.Enlarges (g.renew id) := by
    refine ⟨⟨(g.size_declare _ _).symm ▸ Nat.le_succ _, fun other _ => g.target?_declare _ _ other⟩,
      fun other known => ?_⟩
    rw [g.label?_renew here, if_neg known.ne]
  have other : ∀ e ∈ ren, (id = e.1 ↔ g.handles.size = e.2) := fun e member =>
    iff_of_false (fun equal => new (equal ▸ mem_map.mpr ⟨e, member, rfl⟩)) (replaces.inside e member).ne'
  refine ⟨⟨replaces.kept.trans grows, ?_, ?_, forall_mem_cons.mpr ⟨?_, fun e member => ?_⟩⟩, grows⟩
  · rw [Graph.renew, size_declare]
    exact forall_mem_cons.mpr ⟨Nat.lt_succ_self _, fun e member =>
      (replaces.inside e member).trans (Nat.lt_succ_self _)⟩
  · refine forall_mem_cons.mpr ⟨forall_mem_cons.mpr ⟨iff_of_true rfl rfl, other⟩, fun e member => ?_⟩
    refine forall_mem_cons.mpr ⟨?_, replaces.single e member⟩
    rw [eq_comm, other e member, eq_comm]
  · rw [g.label?_renew here, if_pos rfl, replaces.kept.labels id inside]
  · rw [grows.labels _ (replaces.inside e member), replaces.labels e member]

theorem rebuildHandle_rebuilds (rules : Remakes strict base drawn source R)
    (inside : id < base.handles.size)
    (inner : ∀ target known, base.target? id = some target → 0 < limit →
      Rebuilds strict R base (limit - 1) known (f target) fun ren => R ren target) :
    Rebuilds strict R base limit known (rebuildHandle f id) fun ren => R ren (.handle id) := by
  intro ren g _ replaces enough
  cases seen : ren.find? (·.1 == id) with
  | some e =>
    have member := mem_of_find?_eq_some seen
    obtain rfl : e.1 = id := by simpa using find?_some seen
    rw [rebuildHandle_known seen]
    exact .ok ⟨.refl replaces, rules.handle member⟩
  | none =>
    have new : id ∉ ren.map (·.1) := not_mem_map_of_find?_eq_none seen
    have same := replaces.kept.old id inside
    cases found : base.target? id with
    | none =>
      obtain ⟨replaces', grows⟩ := replaces.renew inside new
      rw [rebuildHandle_free seen (same.trans found)]
      refine .ok ⟨⟨grows, replaces', subset_cons_self _ _, ?_⟩, rules.handle mem_cons_self⟩
      intro e member
      rcases mem_cons.mp member with rfl | old
      · rw [found, renew, target?_declare, g.target?_eq_none (Nat.le_refl _)]
        exact .inr .none
      · exact .inl old
    | some target =>
      obtain ⟨replaces', grows⟩ := replaces.renew inside new
      have fewer := (others_cons inside new).trans_le enough
      rw [rebuildHandle_bound seen (same.trans found)]
      refine (inner target ((id, g.handles.size) :: ren) found (by omega) _ _ (fun _ member =>
        member) replaces'
        (Nat.le_sub_one_of_lt fewer)).bind fun r holds => ?_
      obtain ⟨⟨t, ren'⟩, g'⟩ := r
      obtain ⟨advances, good⟩ := holds
      dsimp only at advances good
      have own : (id, g.handles.size) ∈ ren' := advances.more mem_cons_self
      have bound := g'.target?_bind (advances.replaces.inside _ own) t
      have size : (g'.bind g.handles.size t).handles.size = g'.handles.size := g'.size_bind _ t
      have grows' : g.Enlarges (g'.bind g.handles.size t) := by
        refine ⟨⟨size ▸ (grows.trans advances.grows).size, fun other known => ?_⟩, fun other known => ?_⟩
        · rw [bound, if_neg known.ne]
          exact (grows.trans advances.grows).old other known
        · rw [label?_bind]
          exact (grows.trans advances.grows).labels other known
      refine .ok ⟨⟨grows', ⟨replaces.kept.trans grows', ?_, advances.replaces.single,
        fun e member => ?_⟩, ?_, ?_⟩, rules.handle own⟩
      · rw [size]
        exact advances.replaces.inside
      · rw [label?_bind]
        exact advances.replaces.labels e member
      · exact fun e member => advances.more (mem_cons_of_mem _ member)
      · intro e member
        by_cases this : e.2 = g.handles.size
        · obtain rfl : e = (id, g.handles.size) :=
            Prod.ext ((advances.replaces.single e member _ own).mpr this) this
          rw [found, bound, if_pos rfl]
          exact .inr (.some good)
        · rw [bound, if_neg this]
          exact (advances.settled e member).imp_left fun old =>
            mem_of_ne_of_mem (fun same => this (same ▸ rfl)) old

theorem rebuildProperties_rebuilds (rules : Remakes strict base drawn source R)
    {props : List (Property Shape)}
    (each : ∀ p ∈ props, ∀ known, Rebuilds strict R base limit known (f p.shape) fun ren =>
      R ren p.shape) :
    Rebuilds strict R base limit known (rebuildProperties f props) fun ren =>
      Forall₂ (RemadeProperty (R ren)) props := by
  refine .mapM rules (fun ren ren' p q more remade => remade.imp fun _ => rules.mono more)
    fun p member known => ?_
  exact .bind rules (each p member known) fun t ren _ remade => .pure fun ren' more =>
    ⟨rules.mono more remade⟩

theorem rebuildExtra_rebuilds (rules : Remakes strict base drawn source R) {extra? : Option Shape}
    (each : ∀ extra ∈ extra?, ∀ known, Rebuilds strict R base limit known (f extra) fun ren =>
      R ren extra) :
    Rebuilds strict R base limit known (extra?.mapM f) fun ren => Option.Rel (R ren) extra? := by
  cases extra? with
  | none => exact .pure fun _ _ => .none
  | some extra =>
    rw [Option.mapM_some]
    exact .bind rules (each extra rfl known) fun t ren _ remade => .pure fun ren' more =>
      .some (rules.mono more remade)

theorem rebuildMembers_rebuilds (rules : Remakes strict base drawn source R)
    (each : ∀ s ∈ shapes, ∀ known, Rebuilds strict R base limit known (f s) fun ren => R ren s) :
    Rebuilds strict R base limit known (shapes.mapM f) fun ren => Forall₂ (R ren) shapes :=
  .mapM rules (fun _ _ _ _ => rules.mono) each

theorem serial_rebuilds : Rebuilds strict R base limit known (draw Fresh.serial) fun _ _ => True :=
  .draw fun _ _ _ _ _ => .ok trivial

/-- Rebuilding a shape remakes it. The budget lasts for the shape and for one target of each handle
that is left. -/
theorem rebuild_rebuilds (rules : Remakes strict base drawn source R) {budget : Nat}
    (own : source s) (affords : limit * base.size + s.size ≤ budget) :
    Rebuilds strict R base limit known (rebuild drawn budget s) fun ren => R ren s := by
  induction budget generalizing s limit known with
  | zero => exact absurd s.size_pos (by omega)
  | succ budget ih =>
    have piece : ∀ p ∈ s.pieces, ∀ known,
        Rebuilds strict R base limit known (rebuild drawn budget p) fun ren => R ren p := by
      intro p member known
      have smaller := size_lt_of_mem_pieces member
      exact ih (rules.piece own member) (by omega)
    cases s with
    | array n items =>
      rw [rebuild]
      refine .bind rules (piece items mem_cons_self known) fun t ren _ remade =>
        .draw fun ren' g more _ m => ?_
      exact .ok (rules.array (rules.mono more remade))
    | object n props extra? =>
      rw [rebuild]
      refine .bind rules (rebuildProperties_rebuilds rules fun p member =>
        piece _ (mem_pieces_of_mem_props member)) fun qs ren _ each => ?_
      refine .bind rules (rebuildExtra_rebuilds rules fun extra member => piece _ ?_)
        fun f ren' more extra => ?_
      · rw [Option.mem_def.mp member]
        exact mem_pieces_of_extra
      · refine .bind rules serial_rebuilds fun m ren₁ more₁ _ => .pure fun ren₂ more₂ => ?_
        have all := Subset.trans more₁ more₂
        exact rules.object (each.imp fun p q remade => remade.imp fun _ =>
          rules.mono (Subset.trans more all))
          (optionRel_imp (fun _ _ _ => rules.mono all) extra)
    | union n inclusive members =>
      rw [rebuild]
      refine .bind rules (rebuildMembers_rebuilds rules piece) fun ts ren _ each =>
        .draw fun ren' g more replaces k => ?_
      exact rules.union own replaces (each.imp fun _ _ => rules.mono more) k
    | intersection n members =>
      rw [rebuild]
      refine .bind rules (rebuildMembers_rebuilds rules piece) fun ts ren _ each => ?_
      refine .bind rules serial_rebuilds fun m ren₁ more₁ _ => .pure fun ren₂ more₂ => ?_
      exact rules.intersection (each.imp fun _ _ => rules.mono (Subset.trans more₁ more₂))
    | handle id =>
      rw [rebuild]
      refine rebuildHandle_rebuilds rules (rules.inside own) fun target known found positive =>
        ih (rules.target own found) ?_
      have small := target_size_le found
      have one : (Shape.handle id).size = 1 := rfl
      have split : limit * base.size = (limit - 1) * base.size + base.size := by
        rw [← Nat.succ_mul, Nat.succ_eq_add_one, Nat.sub_add_cancel positive]
      omega
    | _ => exact .draw fun _ _ _ _ => rules.leaf own rfl

theorem mapLeaves_remakes (rules : Remakes strict g drawn source R) (own : source s) :
    Attains strict (fun r => ∃ ren, Advances R g [] g ren r.2 ∧ R ren s r.1) (mapLeaves drawn s g) := by
  have rebuilds : Rebuilds strict R g (g.others []) []
      (rebuild drawn (g.reachBudget s) s) fun ren => R ren s :=
    rebuild_rebuilds rules own (others_nil_lt_reachBudget g s).le
  exact (rebuilds [] g (fun _ member => member) ⟨.refl g, nofun, nofun, nofun⟩ (Nat.le_refl _)).bind
    fun r holds => .ok ⟨r.1.2, holds⟩

def Stands (ren : List (Nat × Nat)) (fresh : Nat) : Prop := ∃ id, (id, fresh) ∈ ren

def Undoes (back : Nat → Nat) (ren : List (Nat × Nat)) : Prop := ∀ e ∈ ren, back e.2 = e.1

/-- A shape that is the projection of another one with its handles replaced. -/
structure Shaped (leaf : Shape → Shape) (ren : List (Nat × Nat)) (s t : Shape) : Prop where
  leaves : t.Leaves True (Stands ren)
  projected : ∀ back, Undoes back ren → t.rename (fun _ => 0) back = s.projected leaf

theorem Shaped.mono (shaped : Shaped leaf ren s t) (more : ren ⊆ ren') : Shaped leaf ren' s t where
  leaves := shaped.leaves.mono fun _ ⟨id, member⟩ => ⟨id, more member⟩
  projected back undoes := shaped.projected back fun e member => undoes e (more member)

theorem Replaces.apart (replaces : Replaces base ren g) (undoes : Undoes back ren) :
    ∀ i j, Stands ren i → Stands ren j → back i = back j → i = j := by
  rintro i j ⟨id, member⟩ ⟨id', member'⟩ equal
  rw [undoes _ member, undoes _ member'] at equal
  exact (replaces.single _ member _ member').mp equal

theorem Shaped.members {ss ts : List Shape} (each : Forall₂ (Shaped leaf ren) ss ts) :
    (∀ t ∈ ts, t.Leaves True (Stands ren)) ∧ ∀ back, Undoes back ren →
      ts.map (rename (fun _ => 0) back) = ss.map (Shape.projected leaf) := by
  induction each with
  | nil => exact ⟨nofun, fun _ _ => rfl⟩
  | cons shaped _ ih =>
    refine ⟨forall_mem_cons.mpr ⟨shaped.leaves, ih.1⟩, fun back undoes => ?_⟩
    rw [map_cons, map_cons, shaped.projected back undoes, ih.2 back undoes]

theorem Shaped.properties {ps qs : List (Property Shape)}
    (each : Forall₂ (RemadeProperty (Shaped leaf ren)) ps qs) :
    (∀ q ∈ qs, q.shape.Leaves True (Stands ren)) ∧ ∀ back, Undoes back ren →
      qs.map (Property.map (rename (fun _ => 0) back)) = ps.map
      (Property.map (Shape.projected leaf)) := by
  induction each with
  | nil => exact ⟨nofun, fun _ _ => rfl⟩
  | cons shaped _ ih =>
    obtain ⟨shaped⟩ := shaped
    refine ⟨forall_mem_cons.mpr ⟨shaped.leaves, ih.1⟩, fun back undoes => ?_⟩
    rw [map_cons, map_cons, ih.2 back undoes, Property.map, Property.map, shaped.projected back undoes]

theorem Shaped.object {n m : Nat} {ps qs : List (Property Shape)} {e f : Option Shape}
    (each : Forall₂ (RemadeProperty (Shaped leaf ren)) ps qs) (extra : Option.Rel (Shaped leaf ren) e f) :
    Shaped leaf ren (.object n ps e) (.object m qs f) := by
  obtain ⟨leaves, shapes⟩ := Shaped.properties each
  refine ⟨leaves_object_iff.mpr ⟨leaves, ?_⟩, fun back undoes => ?_⟩
  · cases extra with
    | some shaped => exact fun t equal => Option.some.inj equal ▸ shaped.leaves
    | none => exact nofun
  · rw [rename_object, projected_object, shapes back undoes]
    cases extra with
    | some shaped => rw [Option.map_some, Option.map_some, shaped.projected back undoes]
    | none => rfl

theorem shaped_remakes (draws : Draws drawn leaf) :
    Remakes True base drawn base.Grounded (Shaped leaf) where
  piece := .piece
  target := .target
  inside grounded := grounded.handles _ .self
  mono more shaped := shaped.mono more
  handle member := ⟨leaves_handle ⟨_, member⟩, fun back undoes => congrArg Shape.handle (undoes _ member)⟩
  leaf {ren s} grounded plain n := by
    have same : s.projected leaf = leaf s := by cases s <;> first | rfl | cases plain
    have leaves : s.Leaves True fun _ => False := by
      cases s with
      | literal n v => exact leaves_literal fun _ => grounded.documents n v .self
      | array | object | union | intersection | handle => cases plain
      | _ => exact leaves_flat rfl (by simp [kind]) (by simp [kind])
    exact .of_yields ((draws s plain leaves).imp fun t good =>
      ⟨good.1.mono fun _ => False.elim, fun back _ => (good.2 back).trans same.symm⟩) n
  array shaped := by
    refine ⟨leaves_of_pieces (by simp [kind]) (by simp [kind])
      (forall_mem_singleton.mpr shaped.leaves), fun back undoes => ?_⟩
    rw [rename, Shape.projected, shaped.projected back undoes]
  object := .object
  union {ren g n inclusive ss ts} _ replaces members k := by
    obtain ⟨leaves, shapes⟩ := Shaped.members members
    refine .of_yields ((unionOf_united inclusive leaves).imp fun t good =>
      ⟨good.1, fun back undoes => ?_⟩) k
    rw [projected_union, ← shapes back undoes]
    exact good.2 back (replaces.apart undoes)
  intersection members := by
    obtain ⟨leaves, shapes⟩ := Shaped.members members
    refine ⟨leaves_of_pieces (by simp [kind]) (by simp [kind]) leaves, fun back undoes => ?_⟩
    rw [rename_intersection, projected_intersection, shapes back undoes]

theorem Replaces.exists_undoes (replaces : Replaces base ren g) : ∃ back, Undoes back ren := by
  refine ⟨fun fresh => ((ren.find? (·.2 == fresh)).map (·.1)).getD fresh, fun e member => ?_⟩
  cases found : ren.find? (·.2 == e.2) with
  | none => exact absurd (beq_self_eq_true _) (find?_eq_none.mp found e member)
  | some e' =>
    have same : e'.2 = e.2 := by simpa using find?_some found
    simpa [found] using (replaces.single e' (mem_of_find?_eq_some found) e member).mpr same

/-- A shape in a graph that is a shape in another graph, but for the numbers. -/
structure Renumbers (back : Nat → Nat) (g : Graph) (s : Shape) (g' : Graph) (t : Shape) : Prop where
  apart : ∀ i j, g.Reaches s (.handle i) → g.Reaches s (.handle j) → back i = back j → i = j
  shape : s.rename (fun _ => 0) back = t
  labels : ∀ id, g.Reaches s (.handle id) → g'.label? (back id) = g.label? id
  targets : ∀ id, g.Reaches s (.handle id) →
      g'.target? (back id) = (g.target? id).map (rename (fun _ => 0) back)

theorem Renumbers.reaches (renumbers : Renumbers back g s g' t) {r : Shape} (reached : g.Reaches s r) :
    g'.Reaches t (r.rename (fun _ => 0) back) := by
  induction reached with
  | self => exact renumbers.shape ▸ .self
  | piece _ member ih => exact ih.piece (pieces_rename _ _ _ ▸ mem_map.mpr ⟨_, member, rfl⟩)
  | target reached bound ih =>
    exact .target ih (by rw [renumbers.targets _ reached, bound, Option.map_some])

theorem Renumbers.inhabits (renumbers : Renumbers back g s g' t) (documented : g.Documented s)
    {v : Value} : Inhabits g s v ↔ Inhabits g' t v := by
  have leaves : ∀ {r}, g.Reaches s r → r.Leaves True fun id => g.Reaches s (.handle id) :=
    leaves_of_reaches fun _ => documented
  rw [← renumbers.shape]
  exact (inhabits_rename (fun id t reached found => leaves (reached.target found)) renumbers.targets
    (leaves .self)).symm

/-- A shape with its leaves replaced is the projected shape among the projected targets, but for the
numbers. -/
theorem mapLeaves_renumbers (draws : Draws drawn leaf) (grounded : g.Grounded s) :
    ∃ t g' back, mapLeaves drawn s g = .ok (t, g') ∧ g.Extends g' ∧ g'.Grounded t ∧
      Renumbers back g' t (g.projected leaf) (s.projected leaf) := by
  obtain ⟨⟨t, g'⟩, run, ren, advances, shaped⟩ :=
    (mapLeaves_remakes (shaped_remakes draws) grounded).exists_ok
  obtain ⟨back, undoes⟩ := advances.replaces.exists_undoes
  have settled : ∀ {old id}, (old, id) ∈ ren → Option.Rel (Shaped leaf ren) (g.target? old)
      (g'.target? id) :=
    fun member => (advances.settled _ member).resolve_left not_mem_nil
  have stands : ∀ {r}, g'.Reaches t r → r.Leaves True (Stands ren) := by
    refine fun reached => reached.leaves ?_ shaped.leaves
    rintro id t ⟨old, member⟩ found
    have here := settled member
    generalize g.target? old = s? at here
    rw [found] at here
    cases here with
    | some shaped => exact shaped.leaves
  refine ⟨t, g', back, run, advances.grows.toExtends,
    ⟨fun n w reached => (stands reached).of_literal trivial, fun id reached => ?_⟩,
    fun i j here there => advances.replaces.apart undoes i j (stands here).of_handle
    (stands there).of_handle,
    shaped.projected back undoes, fun id reached => ?_, fun id reached => ?_⟩
  · obtain ⟨old, member⟩ := (stands reached).of_handle
    exact advances.replaces.inside _ member
  · obtain ⟨old, member⟩ := (stands reached).of_handle
    rw [undoes _ member, label?_projected, advances.replaces.labels _ member]
  · obtain ⟨old, member⟩ := (stands reached).of_handle
    rw [undoes _ member, target?_projected]
    have here := settled member
    generalize g.target? old = s?, g'.target? id = t? at here ⊢
    cases here with
    | none => rfl
    | some shaped => rw [Option.map_some, Option.map_some, shaped.projected back undoes]

theorem strictLeaf_draws : Draws strictLeaf bareLeaf := by
  intro s plain leaves
  cases s <;> first
    | exact absurd plain Bool.false_ne_true
    | exact .pure ⟨leaves, fun _ => rfl⟩
    | exact .pure ⟨leaves_flat rfl nofun nofun, fun _ => rfl⟩

theorem weakLeaf_draws : Draws weakLeaf looseLeaf := by
  intro s plain leaves
  have both : ∀ {s : Shape}, s.Leaves True (fun _ => False) →
      ∀ n, (Shape.union n false [s, .string]).Leaves True fun _ => False :=
    fun leaves n => leaves_of_pieces nofun nofun
      (forall_mem_cons.mpr ⟨leaves, forall_mem_singleton.mpr (leaves_flat rfl nofun nofun)⟩)
  cases s <;> first
    | exact absurd plain Bool.false_ne_true
    | exact .pure ⟨leaves, fun _ => rfl⟩
    | exact .serial fun n => .pure ⟨both leaves n, fun _ => rfl⟩

end Graph

end JsonShape
