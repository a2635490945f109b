import JsonShape.Proofs.Entries
import JsonShape.Proofs.Lowering
import JsonShape.Proofs.Visiting

/-! The declarations of named shapes: one for each root and for each handle that is reached and is
no root, under names that differ. -/
namespace JsonShape.Declaration
open List Entries

variable {n : Names}

def targetType (g : Graph) (name : Nat → String) (id : Nat) : GoType :=
  ((g.target? id).map (typeOf g name)).getD .any

variable {reserved : List String} {rooted live : Nat → Prop} {g : Graph} {id : Nat}

theorem Names.Fair.congr {others : List String} (fair : n.Fair reserved rooted live)
    (same : ∀ x, x ∈ others ↔ x ∈ reserved) : n.Fair others rooted live :=
  { fair with
    kept := fun x member => fair.kept ((same x).mp member)
    own := fun e inside member => fair.own e inside ((same e.2).mp member) }

theorem settles_mapM {α β : Type} {f : α → Lower β} {result : α → (Nat → String) → β} {items : List α}
    (each : ∀ a ∈ items, Settles reserved rooted live (f a) (result a)) :
    Settles reserved rooted live (items.mapM f) fun name => items.map (result · name) := by
  induction items with
  | nil => exact .pure []
  | cons a rest ih =>
    rw [mapM_cons]
    refine (each a mem_cons_self).bind (fun b name => b :: rest.map (result · name)) fun b => ?_
    exact (ih fun a' member => each a' (mem_cons_of_mem _ member)).map (b :: ·)

theorem settles_target
    (alive : ∀ target, g.target? id = some target → ∀ id', .handle id' ∈ target.subshapes →
      live id') :
    Settles reserved rooted live ((g.target? id).elim (pure .any) (lower g)) fun name =>
      targetType g name id := by
  unfold targetType
  cases found : g.target? id with
  | none => exact .pure _
  | some target => exact settles_lower target (alive target found)

theorem Settles.named {α : Type} {m : Lower α} {result : (Nat → String) → α}
    (settles : Settles reserved rooted live m result) (fair : n.Fair reserved rooted live)
    {name : Nat → String} (agrees : (m.run n).2.AgreesWith name)
    (depends : ∀ name', (∀ i, i ≠ id → name' i = name i) → name' id ≠ name id →
      result name' ≠ result name) : (id, name id) ∈ (m.run n).2.handles := by
  obtain ⟨-, -, same⟩ := settles n fair
  by_contra missing
  have nameless : ∀ e ∈ (m.run n).2.handles, e.1 ≠ id := by
    rintro ⟨i, x⟩ member rfl
    exact missing (agrees _ member ▸ member)
  let other : Nat → String := fun i => if i = id then name id ++ toString 2 else name i
  have agrees' : (m.run n).2.AgreesWith other := by
    intro e member
    rw [← agrees e member]
    exact if_neg (nameless e member)
  refine depends other (fun i differs => if_neg differs) ?_
    ((same other agrees').symm.trans (same name agrees))
  show (if id = id then name id ++ toString 2 else name id) ≠ name id
  rw [if_pos rfl]
  exact (ne_append_toString (name id) 2).symm

def Names.naming (n : Names) (id : Nat) : String := ((n.handles.find? (·.1 == id)).map (·.2)).getD ""

theorem Names.agreesWith_naming (ids : (n.handles.map (·.1)).Nodup) : n.AgreesWith n.naming := by
  intro e member
  cases found : n.handles.find? (·.1 == e.1) with
  | none => exact absurd (beq_self_eq_true e.1) (find?_eq_none.mp found e member)
  | some e' =>
    have same : e'.1 = e.1 := eq_of_beq (find?_some found :)
    have equal : e' = e := inj_on_of_nodup_map ids (mem_of_find?_eq_some found) member same
    rw [naming, found, equal]
    rfl

def Names.claim (n : Names) (given : String) (s : Shape) : Names :=
  (Graph.handleId? s).elim n fun id => if n.handles.any (·.1 == id) then
    n else { n with handles := (id, given) :: n.handles }

theorem run_nameRoots_cons (name : String) (s : Shape) (rest : List (String × Shape)) (n : Names) :
    (nameRoots ((name, s) :: rest)).run n =
      let given := untaken n.taken (exportedName name)
      let r := (nameRoots rest).run (Names.claim ⟨n.handles, given :: n.taken⟩ given s)
      ((given, s) :: r.1, r.2) := by
  cases s <;> rfl

variable {given : String} {s : Shape}

theorem Names.taken_claim (n : Names) (given : String) (s : Shape) :
    (n.claim given s).taken = n.taken := by
  unfold claim
  cases Graph.handleId? s with
  | none => rfl
  | some id =>
    dsimp only [Option.elim]
    split_ifs <;> rfl

theorem Names.mem_claim {e : Nat × String} (member : e ∈ (n.claim given s).handles) :
    e ∈ n.handles ∨ e.2 = given ∧ s = .handle e.1 := by
  unfold claim at member
  cases s with
  | handle id =>
    dsimp only [Graph.handleId?, Option.elim] at member
    split_ifs at member
    · exact .inl member
    · rcases mem_cons.mp member with rfl | old
      · exact .inr ⟨rfl, rfl⟩
      · exact .inl old
  | _ => exact .inl member

theorem Names.handles_subset_claim (n : Names) (given : String) (s : Shape) :
    n.handles ⊆ (n.claim given s).handles := by
  unfold claim
  cases Graph.handleId? s with
  | none => exact Subset.refl _
  | some id =>
    dsimp only [Option.elim]
    split_ifs
    · exact Subset.refl _
    · exact subset_cons_self _ _

theorem Names.exists_mem_claim (n : Names) (given : String) (id : Nat) :
    ∃ x, (id, x) ∈ (n.claim given (.handle id)).handles := by
  dsimp only [claim, Graph.handleId?, Option.elim]
  split_ifs with named
  · obtain ⟨e, member, same⟩ := any_eq_true.mp named
    exact ⟨e.2, eq_of_beq same ▸ member⟩
  · exact ⟨given, mem_cons_self⟩

theorem Names.Fair.claim (fair : n.Fair reserved rooted live) (free : given ∉ n.taken)
    (exported : given ∉ predeclared) (known : ∀ id, s = .handle id → rooted id ∧ live id) :
    (Names.claim ⟨n.handles, given :: n.taken⟩ given s).Fair (given :: reserved) rooted live := by
  have plain : Names.Fair (given :: reserved) rooted live ⟨n.handles, given :: n.taken⟩ := {
    kept := cons_subset_cons _ fair.kept
    taken := fun e member => mem_cons_of_mem _ (fair.taken e member)
    ids := fair.ids
    names := fair.names
    own := by
      intro e member used
      rcases mem_cons.mp used with same | old
      · exact absurd (same ▸ fair.taken e member) free
      · exact fair.own e member old
    live := fair.live
    exported := fair.exported }
  cases s with
  | handle id =>
    dsimp only [Names.claim, Graph.handleId?, Option.elim]
    split_ifs with named
    · exact plain
    · refine { plain with taken := ?_, ids := ?_, names := ?_, own := ?_, live := ?_, exported := ?_ }
      · exact forall_mem_cons.mpr ⟨mem_cons_self, plain.taken⟩
      · refine nodup_cons.mpr ⟨fun member => ?_, plain.ids⟩
        obtain ⟨e, inside, same⟩ := mem_map.mp member
        exact named (any_eq_true.mpr ⟨e, inside, beq_iff_eq.mpr same⟩)
      · refine nodup_cons.mpr ⟨fun member => ?_, plain.names⟩
        obtain ⟨e, inside, same⟩ := mem_map.mp member
        replace same : e.2 = given := same
        exact free (same ▸ fair.taken e inside)
      · exact forall_mem_cons.mpr ⟨fun _ => (known id rfl).1, plain.own⟩
      · exact forall_mem_cons.mpr ⟨(known id rfl).2, plain.live⟩
      · exact forall_mem_cons.mpr ⟨exported, plain.exported⟩
  | _ => exact plain

/-- What naming roots does: they get different names that were not taken, and a handle that is a
root has the name of a root that it is. -/
structure NamesRoots (shapes given : List (String × Shape)) (n n' : Names) : Prop where
  forms : Forall₂ (fun root named => named.2 = root.2 ∧ IsFormOf (exportedName root.1) named.1)
    shapes given
  free : ∀ named ∈ given, named.1 ∉ n.taken
  different : (given.map (·.1)).Nodup
  kept : n.handles ⊆ n'.handles
  origin : ∀ e ∈ n'.handles, e ∈ n.handles ∨ (e.2, .handle e.1) ∈ given
  named : ∀ x id, (x, .handle id) ∈ given → ∃ y, (id, y) ∈ n'.handles

theorem nameRoots_spec (shapes : List (String × Shape)) (fair : n.Fair reserved rooted live)
    (known : ∀ root ∈ shapes, ∀ id, root.2 = .handle id → rooted id ∧ live id) :
    NamesRoots shapes ((nameRoots shapes).run n).1 n ((nameRoots shapes).run n).2 ∧
      ((nameRoots shapes).run n).2.Fair (((nameRoots shapes).run n).1.map (·.1) ++ reserved)
      rooted live := by
  induction shapes generalizing n reserved with
  | nil =>
    refine ⟨⟨.nil, ?_, nodup_nil, Subset.refl _, fun e member => .inl member, ?_⟩, fair⟩
    · intro named member
      cases member
    · intro x id member
      cases member
  | cons root rest ih =>
    obtain ⟨name, s⟩ := root
    rw [run_nameRoots_cons]
    dsimp only
    have free := untaken_not_mem n.taken (exportedName name)
    have form := isFormOf_untaken n.taken (exportedName name)
    generalize untaken n.taken (exportedName name) = given at free form
    have fair' := fair.claim free form.not_predeclared (known (name, s) mem_cons_self)
    obtain ⟨spec, after⟩ := ih fair' (forall_mem_cons.mp known).2
    refine ⟨?_, after.congr fun x => by simp only [map_cons, mem_append, mem_cons]; tauto⟩
    exact {
      forms := .cons ⟨rfl, form⟩ spec.forms
      free := by
        refine forall_mem_cons.mpr ⟨free, fun named member used => spec.free named member ?_⟩
        rw [Names.taken_claim]
        exact mem_cons_of_mem _ used
      different := by
        refine nodup_cons.mpr ⟨fun member => ?_, spec.different⟩
        obtain ⟨named, inside, same⟩ := mem_map.mp member
        refine spec.free named inside ?_
        rw [Names.taken_claim]
        exact mem_cons.mpr (.inl same)
      kept := Subset.trans (Names.handles_subset_claim ⟨n.handles, given :: n.taken⟩ given s) spec.kept
      origin := by
        intro e member
        rcases spec.origin e member with before | later
        · rcases Names.mem_claim before with old | ⟨rfl, rfl⟩
          · exact .inl old
          · exact .inr mem_cons_self
        · exact .inr (mem_cons_of_mem _ later)
      named := by
        intro x id member
        rcases mem_cons.mp member with same | later
        · cases same
          obtain ⟨y, inside⟩ := Names.exists_mem_claim ⟨n.handles, given :: n.taken⟩ given id
          exact ⟨y, spec.kept inside⟩
        · exact spec.named x id later }

def ownedId? (n : Names) (named : String × Shape) : Option Nat :=
  (Graph.handleId? named.2).filter fun id => n.handles.any fun e => e.1 == id && e.2 == named.1

def undeclared (g : Graph) (shapes : List (String × Shape)) (declared : List Nat) : List Nat :=
  ((shapes.flatMap fun root => g.handlesIn root.2).filter fun id => !declared.contains id).eraseDups

def declareRoot (g : Graph) (n : Names) (named : String × Shape) : Lower Decl := do
  let type ← (ownedId? n named).elim (lower g named.2) fun id => (g.target? id).elim (pure .any) (lower g)
  return ⟨named.1, type, g.format named.2⟩

def declareHandle (g : Graph) (id : Nat) : Lower Decl := do
  let name ← handleName g id
  let type ← (g.target? id).elim (pure .any) (lower g)
  return ⟨name, type, ""⟩

theorem lowerAll_eq (g : Graph) (shapes : List (String × Shape)) : lowerAll g shapes = (do
      let given ← nameRoots shapes
      let n ← get
      let first ← given.mapM (declareRoot g n)
      let second ← (undeclared g shapes (given.filterMap (ownedId? n))).mapM (declareHandle g)
      return first ++ second) := by
  unfold lowerAll
  refine bind_congr fun given => bind_congr fun n =>
    congrArg₂ Bind.bind ?_ (funext fun first => congrArg₂ Bind.bind ?_ rfl)
  · refine congrArg (fun f => given.mapM f) (funext fun named => ?_)
    obtain ⟨x, s⟩ := named
    cases s with
    | handle id =>
      dsimp only [declareRoot, ownedId?, Graph.handleId?, Option.filter]
      split_ifs
      · dsimp only [Option.elim]
        cases g.target? id <;> rfl
      · rfl
    | _ => rfl
  · refine congrArg₂ (fun f others => mapM f others) (funext fun id => ?_) ?_
    · dsimp only [declareHandle]
      cases g.target? id <;> rfl
    · refine congrArg (undeclared g shapes) ?_
      refine filterMap_congr fun named _ => ?_
      obtain ⟨x, s⟩ := named
      cases s <;> rfl

def rootDecl (g : Graph) (name : Nat → String) (n : Names) (named : String × Shape) : Decl :=
  ⟨named.1, (ownedId? n named).elim (typeOf g name named.2) (targetType g name), g.format named.2⟩

def handleDecl (g : Graph) (name : Nat → String) (id : Nat) : Decl := ⟨name id, targetType g name id, ""⟩

def IsRoot (roots : List (String × Shape)) (id : Nat) : Prop := ∃ root ∈ roots, root.2 = .handle id

def IsReached (g : Graph) (roots : List (String × Shape)) (id : Nat) : Prop :=
  ∃ root ∈ roots, g.Reaches root.2 (.handle id)

section Closing

variable {roots given : List (String × Shape)} {named : String × Shape} {handles : List Nat}

theorem IsRoot.isReached (root : IsRoot roots id) : IsReached g roots id := by
  obtain ⟨root, member, same⟩ := root
  exact ⟨root, member, same ▸ .self⟩

theorem IsReached.of_target (reached : IsReached g roots id) {target : Shape}
    (bound : g.target? id = some target) {id' : Nat} (inside : .handle id' ∈ target.subshapes) :
    IsReached g roots id' := by
  obtain ⟨root, member, path⟩ := reached
  exact ⟨root, member, (path.target bound).trans (.of_mem_subshapes inside)⟩

theorem mem_undeclared {declared : List Nat} :
    id ∈ undeclared g roots declared ↔ IsReached g roots id ∧ id ∉ declared := by
  simp only [undeclared, mem_eraseDups, mem_filter, mem_flatMap, Graph.mem_handlesIn, IsReached,
    Bool.not_eq_true',
    contains_eq_mem, decide_eq_false_iff_not]

theorem nodup_eraseDups (ids : List Nat) : ids.eraseDups.Nodup := by
  induction h : ids.length using Nat.strong_induction_on generalizing ids with
  | _ size ih =>
    cases ids with
    | nil => exact nodup_nil
    | cons id rest =>
      rw [eraseDups_cons, nodup_cons, mem_eraseDups, mem_filter]
      refine ⟨fun member => by simp at member, ih _ ?_ _ rfl⟩
      exact h ▸ Nat.lt_succ_of_le (length_filter_le _ rest)

theorem ownedId?_eq_some :
    ownedId? n named = some id ↔ named.2 = .handle id ∧ (id, named.1) ∈ n.handles := by
  have listed : (n.handles.any fun e => e.1 == id && e.2 == named.1) = true ↔
      (id, named.1) ∈ n.handles := by
    simp [any_eq_true]
  have handle : Graph.handleId? named.2 = some id ↔ named.2 = .handle id := by
    cases named.2 <;> simp [Graph.handleId?]
  rw [ownedId?, Option.filter_eq_some_iff, handle, listed]

theorem NamesRoots.shapes (spec : NamesRoots roots given {} n) : given.map (·.2) = roots.map (·.2) := by
  have forms := spec.forms
  clear spec
  induction forms with
  | nil => rfl
  | cons first _ ih => rw [map_cons, map_cons, first.1, ih]

theorem NamesRoots.exists_root (spec : NamesRoots roots given {} n) (member : named ∈ given) :
    ∃ root ∈ roots, root.2 = named.2 := by
  have shape : named.2 ∈ roots.map (·.2) := spec.shapes ▸ mem_map.mpr ⟨named, member, rfl⟩
  exact mem_map.mp shape

theorem NamesRoots.isRoot_iff (spec : NamesRoots roots given {} n) :
    IsRoot roots id ↔ .handle id ∈ given.map (·.2) := by
  rw [spec.shapes, mem_map]
  rfl

theorem NamesRoots.exists_name (spec : NamesRoots roots given {} n) (root : IsRoot roots id) :
    ∃ x, (id, x) ∈ n.handles ∧ (x, .handle id) ∈ given := by
  obtain ⟨⟨y, s⟩, member, same⟩ := mem_map.mp (spec.isRoot_iff.mp root)
  obtain rfl : s = .handle id := same
  obtain ⟨x, listed⟩ := spec.named y id member
  exact ⟨x, listed, (spec.origin _ listed).resolve_left not_mem_nil⟩

theorem NamesRoots.mem_declared (spec : NamesRoots roots given {} n) :
    id ∈ given.filterMap (ownedId? n) ↔ IsRoot roots id := by
  rw [mem_filterMap]
  constructor
  · rintro ⟨named, member, owned⟩
    rw [spec.isRoot_iff, ← (ownedId?_eq_some.mp owned).1]
    exact mem_map.mpr ⟨named, member, rfl⟩
  · intro root
    obtain ⟨x, listed, member⟩ := spec.exists_name root
    exact ⟨(x, .handle id), member, ownedId?_eq_some.mpr ⟨rfl, listed⟩⟩

theorem NamesRoots.settles_declarations (spec : NamesRoots roots given {} n) :
    Settles reserved rooted (IsReached g roots)
      (do
      let first ← given.mapM (declareRoot g n) let second ←
      (undeclared g roots (given.filterMap (ownedId? n))).mapM (declareHandle g) return first ++
      second) fun name => given.map (rootDecl g name n) ++
      (undeclared g roots (given.filterMap (ownedId? n))).map (handleDecl g name) := by
  have target : ∀ {id}, IsReached g roots id →
      Settles reserved rooted (IsReached g roots) ((g.target? id).elim (pure .any) (lower g))
      fun name => targetType g name id :=
    fun reached => settles_target fun t bound _ inside => reached.of_target bound inside
  have first : Settles reserved rooted (IsReached g roots)
      (given.mapM (declareRoot g n)) fun name => given.map (rootDecl g name n) := by
    refine settles_mapM fun named member => ?_
    obtain ⟨root, listed, same⟩ := spec.exists_root member
    unfold declareRoot rootDecl
    cases owned : ownedId? n named with
    | none =>
      refine (settles_lower named.2 fun id inside => ?_).map _
      exact ⟨root, listed, .of_mem_subshapes (same ▸ inside)⟩
    | some id =>
      refine (target (IsRoot.isReached ⟨root, listed, ?_⟩)).map _
      exact same.trans (ownedId?_eq_some.mp owned).1
  have second : Settles reserved rooted (IsReached g roots)
      ((undeclared g roots (given.filterMap (ownedId? n))).mapM (declareHandle g))
      fun name => (undeclared g roots (given.filterMap (ownedId? n))).map (handleDecl g name) := by
    refine settles_mapM fun id member => ?_
    have reached := (mem_undeclared.mp member).1
    refine (settles_handleName g reached).bind (fun x name =>
      (⟨x, targetType g name id, ""⟩ : Decl)) fun x => ?_
    exact (target reached).map _
  exact first.bind (fun decls name =>
    decls ++ (undeclared g roots (given.filterMap (ownedId? n))).map (handleDecl g name))
    fun decls => second.map (decls ++ ·)

/-- How names stand when all declarations are made: those of roots are kept, and every other handle
that is reached has one. -/
structure Closed (g : Graph) (roots given : List (String × Shape)) (n n' : Names) : Prop where
  spec : NamesRoots roots given {} n
  fair : n'.Fair (given.map (·.1)) (IsRoot roots) (IsReached g roots)
  kept : n.handles ⊆ n'.handles
  named : ∀ id, IsReached g roots id → ¬ IsRoot roots id → (id, n'.naming id) ∈ n'.handles

variable {n' : Names}

theorem Closed.naming_eq (closed : Closed g roots given n n') {x : String}
    (listed : (id, x) ∈ n.handles) : n'.naming id = x :=
  Names.agreesWith_naming closed.fair.ids _ (closed.kept listed)

theorem Closed.naming_mem_iff (closed : Closed g roots given n n') (reached : IsReached g roots id) :
    n'.naming id ∈ given.map (·.1) ↔ IsRoot roots id := by
  constructor
  · intro member
    by_contra other
    exact other (closed.fair.own _ (closed.named id reached other) member)
  · intro root
    obtain ⟨x, listed, member⟩ := closed.spec.exists_name root
    exact mem_map.mpr ⟨_, member, (closed.naming_eq listed).symm⟩

structure DeclaresRoot (g : Graph) (name : Nat → String) (root : String × Shape) (d : Decl) : Prop where
  form : IsFormOf (exportedName root.1) d.name
  comment : d.comment = g.format root.2
  own : ∀ id, root.2 = .handle id → name id = d.name → d.type = targetType g name id
  type : (∀ id, root.2 = .handle id → name id ≠ d.name) → d.type = typeOf g name root.2

theorem Closed.declaresRoot (closed : Closed g roots given n n') {root : String × Shape}
    (member : named ∈ given) (shape : named.2 = root.2)
    (form : IsFormOf (exportedName root.1) named.1) :
    DeclaresRoot g n'.naming root (rootDecl g n'.naming n named) where
  form := form
  comment := congrArg g.format shape
  own := by
    intro id handle same
    have root : IsRoot roots id :=
      closed.spec.isRoot_iff.mpr (mem_map.mpr ⟨named, member, shape.trans handle⟩)
    obtain ⟨x, listed, -⟩ := closed.spec.exists_name root
    obtain rfl : x = named.1 := (closed.naming_eq listed).symm.trans same
    rw [rootDecl, ownedId?_eq_some.mpr ⟨shape.trans handle, listed⟩]
    rfl
  type := by
    intro other
    have none : ownedId? n named = none := by
      cases owned : ownedId? n named with
      | none => rfl
      | some id =>
        obtain ⟨handle, listed⟩ := ownedId?_eq_some.mp owned
        exact absurd (closed.naming_eq listed) (other id (shape.symm.trans handle))
    rw [rootDecl, none, ← shape]
    rfl

theorem Closed.declaresRoots (closed : Closed g roots given n n') :
    Forall₂ (DeclaresRoot g n'.naming) roots (given.map (rootDecl g n'.naming n)) := by
  rw [forall₂_map_right_iff]
  have each := (forall₂_and_left given roots).mpr ⟨fun named member => member, closed.spec.forms.flip⟩
  exact each.flip.imp fun root named known => closed.declaresRoot known.1 known.2.1 known.2.2

theorem Closed.nodup (closed : Closed g roots given n n') (different : handles.Nodup)
    (others : ∀ id ∈ handles, IsReached g roots id ∧ ¬ IsRoot roots id) :
    (given.map (·.1) ++ handles.map n'.naming).Nodup := by
  have listed : ∀ id ∈ handles, (id, n'.naming id) ∈ n'.handles := fun id member =>
    closed.named id (others id member).1 (others id member).2
  refine nodup_append.mpr ⟨closed.spec.different, ?_, ?_⟩
  · refine Nodup.map_on (fun id member id' member' same => ?_) different
    have equal := inj_on_of_nodup_map closed.fair.names (listed id member) (listed id' member') same
    exact congrArg Prod.fst equal
  · rintro x member y member' rfl
    obtain ⟨id, inside, rfl⟩ := mem_map.mp member'
    exact (others id inside).2 ((closed.naming_mem_iff (others id inside).1).mp member)

theorem Closed.naming_mem (closed : Closed g roots given n n')
    (others : ∀ id, IsReached g roots id → ¬ IsRoot roots id → id ∈ handles)
    (reached : IsReached g roots id) : n'.naming id ∈ given.map (·.1) ++ handles.map n'.naming := by
  rw [mem_append]
  by_cases root : IsRoot roots id
  · exact .inl ((closed.naming_mem_iff reached).mpr root)
  · exact .inr (mem_map.mpr ⟨id, others id reached root, rfl⟩)

section Fitting

variable {name : Nat → String} {named : String → Prop}
  (names : ∀ id, IsReached g roots id → named (name id))

include names

theorem fits_targetType (reached : IsReached g roots id) : Fits named (targetType g name id) := by
  unfold targetType
  cases bound : g.target? id with
  | none => exact .any
  | some target =>
    exact fits_typeOf g name target fun id' inside => names id' (reached.of_target bound inside)

theorem fits_rootDecl (spec : NamesRoots roots given {} n) {entry : String × Shape}
    (member : entry ∈ given) : Fits named (rootDecl g name n entry).type := by
  obtain ⟨root, listed, same⟩ := spec.exists_root member
  unfold rootDecl
  cases owned : ownedId? n entry with
  | none =>
    exact fits_typeOf g name entry.2 fun id inside =>
      names id ⟨root, listed, .of_mem_subshapes (same ▸ inside)⟩
  | some id =>
    exact fits_targetType names
      (IsRoot.isReached ⟨root, listed, same.trans (ownedId?_eq_some.mp owned).1⟩)

end Fitting

theorem exists_closed (g : Graph) (shapes : List (String × Shape)) :
    ∃ (given : List (String × Shape)) (n n' : Names) (handles : List Nat),
      Closed g (ofList shapes) given n n' ∧ handles.Nodup ∧
      (∀ id, id ∈ handles ↔ IsReached g (ofList shapes) id ∧ ¬ IsRoot (ofList shapes) id) ∧
      ofShapes g shapes = given.map (rootDecl g n'.naming n) ++ handles.map
      (handleDecl g n'.naming) := by
  rw [ofShapes, lowerAll_eq]
  generalize ofList shapes = roots
  have start : Names.Fair [] (IsRoot roots) (IsReached g roots) {} := by constructor <;> simp
  obtain ⟨spec, fair⟩ := nameRoots_spec roots start fun root member id same =>
    ⟨⟨root, member, same⟩, IsRoot.isReached ⟨root, member, same⟩⟩
  rw [append_nil] at fair
  have settles : Settles (((nameRoots roots).run {}).1.map (·.1)) (IsRoot roots) _ _ _ :=
    spec.settles_declarations (g := g)
  obtain ⟨fair', kept, same⟩ := settles _ fair
  have agrees := Names.agreesWith_naming fair'.ids
  have member_iff : ∀ {id}, id ∈ undeclared g roots _ ↔ IsReached g roots id ∧ ¬ IsRoot roots id :=
    fun {id} => by
    rw [mem_undeclared, spec.mem_declared]
  refine ⟨_, _, _, _, ⟨spec, fair', kept, fun id reached other => ?_⟩, nodup_eraseDups _, fun id =>
    member_iff, same _ agrees⟩
  -- The declaration of the handle has the name of the handle, so this is a name that has been given.
  refine settles.named fair agrees fun name _ differs equal => differs ?_
  have declared := append_inj_right equal (by simp)
  exact congrArg Decl.name (map_inj_left.mp declared id (member_iff.mpr ⟨reached, other⟩))

end Closing

/-- The declarations of named shapes are one for each root and for each handle that is reached and
is no root. Their names differ, what they mention is predeclared or declared, and the fields of each
struct have different names. -/
theorem ofShapes_closed (g : Graph) (shapes : List (String × Shape)) :
    ∃ (name : Nat → String) (first : List Decl) (handles : List Nat),
      ofShapes g shapes = first ++ handles.map (handleDecl g name) ∧ Forall₂ (DeclaresRoot g name)
      (ofList shapes) first ∧ handles.Nodup ∧
      (∀ id, id ∈ handles ↔ IsReached g (ofList shapes) id ∧ name id ∉ first.map (·.name)) ∧
      (∀ id, IsReached g (ofList shapes) id →
      (name id ∈ first.map (·.name) ↔ IsRoot (ofList shapes) id)) ∧
      ((ofShapes g shapes).map (·.name)).Nodup ∧ ∀ d ∈ ofShapes g shapes,
      Fits (· ∈ (ofShapes g shapes).map (·.name)) d.type := by
  obtain ⟨given, n, n', handles, closed, different, member_iff, decls⟩ := exists_closed g shapes
  have names : (ofShapes g shapes).map (·.name) = given.map (·.1) ++ handles.map n'.naming := by
    rw [decls, map_append, map_map, map_map]
    rfl
  have roots : (given.map (rootDecl g n'.naming n)).map (·.name) = given.map (·.1) := by
    rw [map_map]
    rfl
  refine ⟨n'.naming, _, handles, decls, closed.declaresRoots, different, fun id => ?_,
    fun id reached => ?_, ?_, fun d member => ?_⟩
  · rw [member_iff, roots]
    exact and_congr_right fun reached => not_congr (closed.naming_mem_iff reached).symm
  · rw [roots, closed.naming_mem_iff reached]
  · rw [names]
    exact closed.nodup different fun id => (member_iff id).mp
  · rw [names]
    have known : ∀ id, IsReached g (ofList shapes) id →
        n'.naming id ∈ given.map (·.1) ++ handles.map n'.naming :=
      fun id reached => closed.naming_mem (fun id reached other =>
        (member_iff id).mpr ⟨reached, other⟩) reached
    rw [decls, mem_append, mem_map, mem_map] at member
    rcases member with ⟨named, inside, rfl⟩ | ⟨id, inside, rfl⟩
    · exact fits_rootDecl known closed.spec inside
    · exact fits_targetType known ((member_iff id).mp inside).1

end JsonShape.Declaration
