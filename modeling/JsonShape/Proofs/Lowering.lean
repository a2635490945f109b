import JsonShape.Declaration.Lower
import JsonShape.Proofs.Pieces
import Mathlib.Data.List.Nodup
import Mathlib.Data.List.Perm.Subperm

/-! Lowering and the names it gives out. What lowering gives for a shape is the type of the shape
under the names that the handles have in the end. -/
namespace JsonShape.Declaration
open List

def IsFormOf (name form : String) : Prop := form = name ∨ ∃ i, 2 ≤ i ∧ form = name ++ toString i

variable {taken : List String} {name : String}

theorem numbered_spec (taken : List String) (name : String) (budget first : Nat) :
    ∃ i, first ≤ i ∧ numbered taken name budget first = name ++ toString i ∧
      (∀ j, first ≤ j → j < i → name ++ toString j ∈ taken) ∧
      (name ++ toString i ∉ taken ∨ i = first + budget) := by
  induction budget generalizing first with
  | zero => exact ⟨first, Nat.le_refl first, rfl, fun j above below => by omega, .inr rfl⟩
  | succ budget ih =>
    rw [numbered]
    by_cases used : taken.contains (name ++ toString first)
    · rw [if_pos used]
      obtain ⟨i, above, form, before, last⟩ := ih (first + 1)
      refine ⟨i, by omega, form, fun j least below => ?_, last.imp_right fun ends => by omega⟩
      by_cases here : j = first
      · exact here ▸ contains_iff_mem.mp used
      · exact before j (by omega) below
    · rw [if_neg used]
      exact ⟨first, Nat.le_refl first,
        rfl, fun j above below => by omega, .inl fun member => used (contains_iff_mem.mpr member)⟩

theorem ne_append_toString (name : String) (i : Nat) : name ≠ name ++ toString i := by
  intro same
  have shorter := congrArg String.length same
  rw [String.length_append] at shorter
  have positive : 0 < (toString i).length := by
    show 0 < (Nat.repr i).length
    simp [Nat.repr, Nat.length_toDigits_pos]
  omega

theorem append_toString_injective (name : String) {i j : Nat}
    (same : name ++ toString i = name ++ toString j) : i = j := by
  have chars := congrArg String.toList same
  rw [String.toList_append, String.toList_append] at chars
  have digits : Nat.toDigits 10 i = Nat.toDigits 10 j := by
    simpa [toString, Nat.repr] using append_cancel_left chars
  have values := congrArg (fun ds => Nat.ofDigitChars 10 ds 0) digits
  simpa [Nat.ofDigitChars_toDigits] using values

theorem isFormOf_untaken (taken : List String) (name : String) : IsFormOf name (untaken taken name) := by
  unfold untaken
  split_ifs
  · obtain ⟨i, above, form, -, -⟩ := numbered_spec taken name taken.length 2
    exact .inr ⟨i, above, form⟩
  · exact .inl rfl

theorem untaken_not_mem (taken : List String) (name : String) : untaken taken name ∉ taken := by
  unfold untaken
  split_ifs with used
  · obtain ⟨i, above, form, before, last⟩ := numbered_spec taken name taken.length 2
    rw [form]
    refine last.resolve_right fun spent => ?_
    have forms : (name :: (range taken.length).map fun j => name ++ toString (j + 2)) ⊆ taken := by
      refine cons_subset.mpr ⟨contains_iff_mem.mp used, fun form member => ?_⟩
      obtain ⟨j, inside, rfl⟩ := mem_map.mp member
      exact before (j + 2) (by omega) (by rw [mem_range] at inside; omega)
    have different : (name :: (range taken.length).map fun j => name ++ toString (j + 2)).Nodup := by
      refine nodup_cons.mpr ⟨fun member => ?_, nodup_range.map fun j k same => ?_⟩
      · obtain ⟨j, -, same⟩ := mem_map.mp member
        exact ne_append_toString name (j + 2) same.symm
      · have := append_toString_injective name same
        omega
    have count := (different.subperm forms).length_le
    rw [length_cons, length_map, length_range] at count
    omega
  · exact fun member => used (contains_iff_mem.mpr member)

namespace GoType

mutual
def subtypes : GoType → List GoType
  | ident name package => [ident name package]
  | slice element => slice element :: element.subtypes
  | map element => map element :: element.subtypes
  | pointer element => pointer element :: element.subtypes
  | struct fields => struct fields :: fieldSubtypes fields
  | absent => [absent]

def fieldSubtypes : List (Field GoType) → List GoType
  | [] => []
  | ⟨_, _, type, _, _⟩ :: rest => type.subtypes ++ fieldSubtypes rest
end

theorem mem_fieldSubtypes {t : GoType} {fields : List (Field GoType)} :
    t ∈ fieldSubtypes fields ↔ ∃ f ∈ fields, t ∈ f.type.subtypes := by
  induction fields with
  | nil => simp [fieldSubtypes]
  | cons f rest ih => simp [fieldSubtypes, ih]

def isIdent (name : String) : GoType → Bool
  | ident other _ => other == name
  | _ => false

end GoType

def predeclared : List String := ["any", "string", "bool", "byte", "int64", "float64", "time.Time"]

def common : List GoType → GoType
  | [] => .any
  | [type] => type
  | .ident name package :: rest => if rest.all (·.isIdent name) then .ident name package else .any
  | _ => .any

def nilable (asked : Bool) (type : GoType) : GoType :=
  if asked && !type.isNilable then .pointer type else type

def fieldOf (g : Graph) (goName : String) (p : Property Shape) (type : GoType) : Field GoType :=
  ⟨goName, p.name, if (p.optional && !type.isNilable) || isStructHandle g p.shape then
    .pointer type else type, p.optional,
    p.default?.filter fun v => v.literalKind != .null⟩

mutual
def typeOf (g : Graph) (name : Nat → String) : Shape → GoType
  | .handle id => .ident (name id) ""
  | .string => .ident "string" ""
  | .boolean => .ident "bool" ""
  | .number integer => .ident (if integer then "int64" else "float64") ""
  | .dateTime _ _ => .ident "time.Time" "time"
  | .binary => .slice (.ident "byte" "")
  | .literal _ v => literalType v
  | .array _ items => .slice (typeOf g name items)
  | .object _ props extra? =>
    if props.isEmpty then .map (extraType g name extra?) else .struct (fieldsOf g name [] props)
  | .union _ _ members => nilable (members.any isNull) (common (memberTypes g name members))
  | .any | .never | .null | .intersection _ _ => .any

def extraType (g : Graph) (name : Nat → String) : Option Shape → GoType
  | none => .any
  | some s => typeOf g name s

def fieldsOf (g : Graph) (name : Nat → String) (taken : List String) :
    List (Property Shape) → List (Field GoType)
  | [] => []
  | ⟨property, s, optional, default?⟩ :: rest =>
    let goName := untaken taken (exportedName property)
    fieldOf g goName ⟨property, s, optional, default?⟩ (typeOf g name s) :: fieldsOf g name
    (goName :: taken) rest

def memberTypes (g : Graph) (name : Nat → String) : List Shape → List GoType
  | [] => []
  | m :: rest => if isNull m then memberTypes g name rest else typeOf g name m :: memberTypes g name rest
end

theorem mem_memberTypes {g : Graph} {name : Nat → String} {members : List Shape} {t : GoType}
    (member : t ∈ memberTypes g name members) : ∃ m ∈ members, t = typeOf g name m := by
  induction members with
  | nil => cases member
  | cons m rest ih =>
    rw [memberTypes] at member
    split_ifs at member
    · obtain ⟨m', inside, same⟩ := ih member
      exact ⟨m', mem_cons_of_mem _ inside, same⟩
    · rcases mem_cons.mp member with rfl | later
      · exact ⟨m, mem_cons_self, rfl⟩
      · obtain ⟨m', inside, same⟩ := ih later
        exact ⟨m', mem_cons_of_mem _ inside, same⟩

theorem common_eq (types : List GoType) : common types = .any ∨ common types ∈ types := by
  unfold common
  split
  · exact .inl rfl
  · exact .inr mem_cons_self
  · split_ifs
    · exact .inr mem_cons_self
    · exact .inl rfl
  · exact .inl rfl

theorem fieldsOf_spec (g : Graph) (name : Nat → String) (taken : List String)
    (props : List (Property Shape)) :
    ((fieldsOf g name taken props).map (·.goName)).Nodup ∧
      (∀ f ∈ fieldsOf g name taken props, f.goName ∉ taken) ∧ ∀ f ∈ fieldsOf g name taken props,
      ∃ p ∈ props, f.type = typeOf g name p.shape ∧ isStructHandle g p.shape = false ∨
      f.type = .pointer (typeOf g name p.shape) := by
  induction props generalizing taken with
  | nil => simp [fieldsOf]
  | cons p rest ih =>
    obtain ⟨different, free, origin⟩ := ih (untaken taken (exportedName p.name) :: taken)
    rw [fieldsOf]
    refine ⟨?_, ?_, ?_⟩
    · refine nodup_cons.mpr ⟨fun member => ?_, different⟩
      obtain ⟨f, inside, same⟩ := mem_map.mp member
      exact free f inside (same ▸ mem_cons_self)
    · refine forall_mem_cons.mpr ⟨untaken_not_mem taken _, fun f inside used => ?_⟩
      exact free f inside (mem_cons_of_mem _ used)
    · refine forall_mem_cons.mpr ⟨⟨p, mem_cons_self, ?_⟩, fun f inside => ?_⟩
      · simp only [fieldOf]
        split_ifs with pointed
        · exact .inr rfl
        · exact .inl ⟨rfl, (Bool.or_eq_false_iff.mp (Bool.eq_false_iff.mpr pointed)).2⟩
      · obtain ⟨q, member, form⟩ := origin f inside
        exact ⟨q, mem_cons_of_mem _ member, form⟩

/-- Every identifier in the type is predeclared or the name of a handle, and the fields of every
struct in it have different names. -/
structure Fits (named : String → Prop) (type : GoType) : Prop where
  idents : ∀ x package, .ident x package ∈ type.subtypes → x ∈ predeclared ∨ named x
  fields : ∀ fs, .struct fs ∈ type.subtypes → (fs.map (·.goName)).Nodup

variable {named : String → Prop} {type : GoType}

theorem Fits.ident {x : String} (package : String) (known : x ∈ predeclared ∨ named x) :
    Fits named (.ident x package) where
  idents := by
    intro y package' member
    cases mem_singleton.mp member
    exact known
  fields := by
    intro fs member
    cases mem_singleton.mp member

theorem Fits.any : Fits named .any := .ident "" (.inl (by decide))

theorem Fits.wrap {outer : GoType} (fits : Fits named type)
    (inside : outer.subtypes = outer :: type.subtypes)
    (plain : ∀ x package, outer ≠ .ident x package) (open_ : ∀ fs, outer ≠ .struct fs) :
    Fits named outer where
  idents := by
    intro x package member
    rw [inside] at member
    exact fits.idents x package ((mem_cons.mp member).resolve_left (plain x package).symm)
  fields := by
    intro fs member
    rw [inside] at member
    exact fits.fields fs ((mem_cons.mp member).resolve_left (open_ fs).symm)

theorem Fits.slice (fits : Fits named type) : Fits named (.slice type) :=
  fits.wrap rfl (fun _ _ same => by cases same) (fun _ same => by cases same)

theorem Fits.map (fits : Fits named type) : Fits named (.map type) :=
  fits.wrap rfl (fun _ _ same => by cases same) (fun _ same => by cases same)

theorem Fits.pointer (fits : Fits named type) : Fits named (.pointer type) :=
  fits.wrap rfl (fun _ _ same => by cases same) (fun _ same => by cases same)

theorem Fits.struct {fs : List (Field GoType)} (different : (fs.map (·.goName)).Nodup)
    (each : ∀ f ∈ fs, Fits named f.type) : Fits named (.struct fs) where
  idents := by
    intro x package member
    rw [GoType.subtypes, mem_cons] at member
    obtain ⟨f, inside, deeper⟩ := GoType.mem_fieldSubtypes.mp (member.resolve_left (by simp))
    exact (each f inside).idents x package deeper
  fields := by
    intro fs' member
    rw [GoType.subtypes, mem_cons] at member
    rcases member with same | deeper
    · cases same
      exact different
    · obtain ⟨f, inside, deeper⟩ := GoType.mem_fieldSubtypes.mp deeper
      exact (each f inside).fields fs' deeper

theorem Fits.nilable (fits : Fits named type) (asked : Bool) : Fits named (nilable asked type) := by
  unfold Declaration.nilable
  split_ifs
  · exact fits.pointer
  · exact fits

theorem fits_literalType (v : Value) : Fits named (literalType v) := by
  unfold literalType
  split
  · exact .ident "" (.inl (by decide))
  · exact .ident "" (.inl (by decide))
  · exact .ident "" (.inl (by decide))
  · exact .any

theorem fits_typeOf (g : Graph) (name : Nat → String) {named : String → Prop} (s : Shape)
    (handles : ∀ id, .handle id ∈ s.subshapes → named (name id)) : Fits named (typeOf g name s) := by
  induction s using Shape.pieces_induction with
  | step s ih =>
    have inner : ∀ p ∈ s.pieces, Fits named (typeOf g name p) := fun p member =>
      ih p member fun id inside => handles id (Shape.mem_subshapes_iff.mpr (.inr ⟨p, member, inside⟩))
    cases s with
    | handle id => exact .ident "" (.inr (handles id (Shape.mem_subshapes_self _)))
    | string | boolean => exact .ident "" (.inl (by decide))
    | number integer => cases integer <;> exact .ident "" (.inl (by decide))
    | dateTime => exact .ident "time" (.inl (by decide))
    | binary => exact (Fits.ident "" (.inl (by decide))).slice
    | literal n v => exact fits_literalType v
    | array n items => exact (inner items mem_cons_self).slice
    | object n props extra? =>
      rw [typeOf]
      split_ifs
      · cases extra? with
        | none => exact Fits.any.map
        | some extra => exact (inner extra Shape.mem_pieces_of_extra).map
      · obtain ⟨different, -, origin⟩ := fieldsOf_spec g name [] props
        refine .struct different fun f inside => ?_
        obtain ⟨p, member, ⟨same, -⟩ | same⟩ := origin f inside
        · exact same ▸ inner p.shape (Shape.mem_pieces_of_mem_props member)
        · exact same ▸ (inner p.shape (Shape.mem_pieces_of_mem_props member)).pointer
    | union n inclusive members =>
      rw [typeOf]
      refine Fits.nilable ?_ _
      rcases common_eq (memberTypes g name members) with same | member
      · exact same ▸ .any
      · obtain ⟨m, inside, same⟩ := mem_memberTypes member
        exact same ▸ inner m inside
    | any | never | null | intersection => exact .any

theorem exportedName_head (text : String) :
    ∃ c rest, (exportedName text).toList = c :: rest ∧ Text.isLower c = false := by
  unfold exportedName
  dsimp only
  split
  · exact ⟨'F', ['i', 'e', 'l', 'd'], rfl, rfl⟩
  · rename_i c rest _
    split_ifs with digit small
    · exact ⟨'X', _, String.toList_append, rfl⟩
    · refine ⟨_, rest, String.toList_ofList, ?_⟩
      have raised : ∀ n < 123, 97 ≤ n → Text.isLower (Char.ofNat (n - 32)) = false := by decide
      have range : 'a' ≤ c ∧ c ≤ 'z' := by simpa [Text.isLower] using small
      exact raised c.toNat (Nat.lt_succ_of_le range.2) range.1
    · exact ⟨c, rest, String.toList_ofList, Bool.eq_false_iff.mpr small⟩

theorem IsFormOf.not_predeclared {text form : String} (formed : IsFormOf (exportedName text) form) :
    form ∉ predeclared := by
  obtain ⟨c, rest, exported, high⟩ := exportedName_head text
  have head : form.toList.head? = some c := by
    rcases formed with rfl | ⟨i, -, rfl⟩
    · rw [exported]
      rfl
    · rw [String.toList_append, exported]
      rfl
  intro member
  have low : ∀ x ∈ predeclared, x.toList.head?.all Text.isLower = true := by decide
  have lower := low form member
  rw [head] at lower
  exact Bool.false_ne_true (high.symm.trans lower)

/-- Names that have been given out: those of handles are taken and differ, and one that is reserved
belongs to a handle that is a root. -/
structure Names.Fair (reserved : List String) (rooted live : Nat → Prop) (n : Names) : Prop where
  kept : reserved ⊆ n.taken
  taken : ∀ e ∈ n.handles, e.2 ∈ n.taken
  ids : (n.handles.map (·.1)).Nodup
  names : (n.handles.map (·.2)).Nodup
  own : ∀ e ∈ n.handles, e.2 ∈ reserved → rooted e.1
  live : ∀ e ∈ n.handles, live e.1
  exported : ∀ e ∈ n.handles, e.2 ∉ predeclared

/-- The naming of handles agrees with the names that have been given out. -/
def Names.AgreesWith (n : Names) (name : Nat → String) : Prop := ∀ e ∈ n.handles, name e.1 = e.2

variable {reserved : List String} {rooted live : Nat → Prop} {α β : Type}
variable {x package : String} {members : List Shape}

/-- A lowering keeps names fair and the names of handles as they are, and its result is settled by
the names that handles have in the end. -/
def Settles (reserved : List String) (rooted live : Nat → Prop) (m : Lower α)
    (result : (Nat → String) → α) : Prop :=
  ∀ n : Names, n.Fair reserved rooted live →
    (m.run n).2.Fair reserved rooted live ∧ n.handles ⊆ (m.run n).2.handles ∧
    ∀ name, (m.run n).2.AgreesWith name → (m.run n).1 = result name

theorem Settles.pure (a : α) : Settles reserved rooted live (pure a : Lower α) fun _ => a :=
  fun _ fair => ⟨fair, Subset.refl _, fun _ _ => rfl⟩

theorem Settles.bind {m : Lower α} {next : α → Lower β} {result : (Nat → String) → α}
    (first : Settles reserved rooted live m result) (result' : α → (Nat → String) → β)
    (second : ∀ a, Settles reserved rooted live (next a) (result' a)) :
    Settles reserved rooted live (m >>= next) fun name => result' (result name) name := by
  intro n fair
  obtain ⟨fair₁, more₁, same₁⟩ := first n fair
  obtain ⟨fair₂, more₂, same₂⟩ := second (m.run n).1 (m.run n).2 fair₁
  refine ⟨fair₂, Subset.trans more₁ more₂, fun name agrees => ?_⟩
  have known := same₁ name fun e member => agrees e (more₂ member)
  exact (same₂ name agrees).trans (by rw [known])

theorem Settles.map {m : Lower α} {result : (Nat → String) → α}
    (first : Settles reserved rooted live m result) (f : α → β) :
    Settles reserved rooted live (m >>= fun a => Pure.pure (f a)) fun name => f (result name) :=
  first.bind (fun a _ => f a) fun a => .pure (f a)

theorem settles_handleName (g : Graph) {id : Nat} (alive : live id) :
    Settles reserved rooted live (handleName g id) fun name => name id := by
  intro n fair
  cases found : n.handles.find? (·.1 == id) with
  | some e =>
    have run : (handleName g id).run n = (e.2, n) := by
      simp only [handleName, StateT.run_bind, StateT.run_get, pure_bind, found]
      rfl
    rw [run]
    refine ⟨fair, Subset.refl _, fun name agrees => ?_⟩
    have same : e.1 = id := eq_of_beq (find?_some found :)
    exact same ▸ (agrees e (mem_of_find?_eq_some found)).symm
  | none =>
    have run : (handleName g id).run n =
        (untaken n.taken (exportedName (g.nameOf id)),
        ⟨(id, untaken n.taken (exportedName (g.nameOf id))) :: n.handles,
          untaken n.taken (exportedName (g.nameOf id)) :: n.taken⟩) := by
      simp only [handleName, StateT.run_bind, StateT.run_get, pure_bind, found]
      rfl
    rw [run]
    have free := untaken_not_mem n.taken (exportedName (g.nameOf id))
    have exported := (isFormOf_untaken n.taken (exportedName (g.nameOf id))).not_predeclared
    generalize untaken n.taken (exportedName (g.nameOf id)) = given at free exported
    have new : id ∉ n.handles.map (·.1) := by
      intro member
      obtain ⟨e, inside, same⟩ := mem_map.mp member
      exact find?_eq_none.mp found e inside (beq_iff_eq.mpr same)
    refine ⟨?_, subset_cons_self _ _, fun name agrees => (agrees _ mem_cons_self).symm⟩
    exact {
      kept := fun x member => mem_cons_of_mem _ (fair.kept member)
      taken := forall_mem_cons.mpr ⟨mem_cons_self, fun e member => mem_cons_of_mem _ (fair.taken e member)⟩
      ids := nodup_cons.mpr ⟨new, fair.ids⟩
      names := by
        refine nodup_cons.mpr ⟨fun member => ?_, fair.names⟩
        obtain ⟨e, inside, same⟩ := mem_map.mp member
        replace same : e.2 = given := same
        exact free (same ▸ fair.taken e inside)
      own := forall_mem_cons.mpr ⟨fun member => absurd (fair.kept member) free, fair.own⟩
      live := forall_mem_cons.mpr ⟨alive, fair.live⟩
      exported := forall_mem_cons.mpr ⟨exported, fair.exported⟩ }

variable {g : Graph}

theorem settles_lowerFields {props : List (Property Shape)}
    (each : ∀ p ∈ props, Settles reserved rooted live (lower g p.shape) fun name =>
      typeOf g name p.shape) (taken : List String) :
    Settles reserved rooted live (lowerFields g taken props) fun name =>
      fieldsOf g name taken props := by
  induction props generalizing taken with
  | nil => exact .pure []
  | cons p rest ih =>
    rw [lowerFields]
    refine (each p mem_cons_self).bind (fun type name =>
      fieldOf g (untaken taken (exportedName p.name)) p type ::
      fieldsOf g name (untaken taken (exportedName p.name) :: taken) rest) fun type => ?_
    exact (ih (forall_mem_cons.mp each).2 _).map _

def sharedAs (x package : String) (types : List GoType) : GoType :=
  if types.all (·.isIdent x) then .ident x package else .any

theorem sharedAs_cons_of_isIdent {type : GoType} (same : type.isIdent x) (types : List GoType) :
    sharedAs x package (type :: types) = sharedAs x package types := by
  rw [sharedAs, sharedAs, all_cons, same, Bool.true_and]

theorem sharedAs_cons_of_not {type : GoType} (other : ¬ type.isIdent x) (types : List GoType) :
    sharedAs x package (type :: types) = .any := by
  rw [sharedAs, all_cons, Bool.eq_false_iff.mpr other, Bool.false_and, if_neg Bool.false_ne_true]

theorem settles_lowerMembers_some (x : String)
    (each : ∀ m ∈ members, Settles reserved rooted live (lower g m) fun name => typeOf g name m) :
    Settles reserved rooted live (lowerMembers g true (some x) members) fun name =>
      sharedAs x "" (memberTypes g name members) := by
  induction members with
  | nil => exact .pure _
  | cons m rest ih =>
    have later := ih fun m' member => each m' (mem_cons_of_mem _ member)
    rw [lowerMembers]
    simp only [memberTypes]
    by_cases isNil : isNull m
    · simpa only [if_pos isNil] using later
    · simp only [if_neg isNil]
      refine (each m mem_cons_self).bind (fun type name =>
        sharedAs x "" (type :: memberTypes g name rest)) fun type => ?_
      by_cases same : type.isIdent x
      · cases type with
        | ident y package =>
          simp only [sharedAs_cons_of_isIdent same, Bool.not_true, Bool.false_eq_true, if_false]
          rw [if_pos (show (y == x) = true from same)]
          exact later
        | slice | map | pointer | struct | absent => cases same
      · simp only [sharedAs_cons_of_not same]
        cases type with
        | ident y package =>
          simp only [Bool.not_true, Bool.false_eq_true, if_false]
          rw [if_neg (show ¬ (y == x) = true from same)]
          exact .pure _
        | slice | map | pointer | struct | absent => exact .pure _

theorem package_typeOf (g : Graph) (name : Nat → String) (s : Shape)
    (type : typeOf g name s = .ident x package) : package = "" ∨ x = "time.Time" := by
  induction s using Shape.pieces_induction generalizing x package with
  | step s ih =>
    have plain : GoType.any = .ident x package → package = "" := by
      intro same
      cases same
      rfl
    cases s with
    | handle | string | boolean | number => cases type; exact .inl rfl
    | dateTime => cases type; exact .inr rfl
    | binary | array => cases type
    | literal n v =>
      rw [typeOf, literalType] at type
      split at type <;> cases type <;> exact .inl rfl
    | object n props extra? =>
      rw [typeOf] at type
      split_ifs at type
    | union n inclusive members =>
      rw [typeOf, nilable] at type
      split_ifs at type
      rcases common_eq (memberTypes g name members) with same | member
      · exact .inl (plain (same.symm.trans type))
      · obtain ⟨m, inside, same⟩ := mem_memberTypes member
        exact ih m inside (same.symm.trans type)
    | any | never | null | intersection => exact .inl (plain type)

def adopt (x package : String) : GoType → GoType
  | .ident found _ => if found == x then .ident x package else .any
  | _ => .any

theorem adopt_sharedAs (known : package = "" ∨ x = "time.Time") (types : List GoType) :
    adopt x package (sharedAs x "" types) = sharedAs x package types := by
  unfold sharedAs
  split_ifs
  · simp [adopt]
  · rcases known with rfl | rfl
    · by_cases same : "any" = x
      · subst same
        rfl
      · simp [adopt, GoType.any, same]
    · rfl

def severalAs : List GoType → GoType
  | .ident x package :: rest => sharedAs x package rest
  | _ => .any

theorem settles_lowerMembers_several
    (each : ∀ m ∈ members, Settles reserved rooted live (lower g m) fun name => typeOf g name m) :
    Settles reserved rooted live (lowerMembers g true none members) fun name =>
      severalAs (memberTypes g name members) := by
  induction members with
  | nil => exact .pure _
  | cons m rest ih =>
    have inner : ∀ m' ∈ rest, Settles reserved rooted live (lower g m') fun name => typeOf g name m' :=
      fun m' member => each m' (mem_cons_of_mem _ member)
    rw [lowerMembers]
    simp only [memberTypes]
    by_cases isNil : isNull m
    · simpa only [if_pos isNil] using ih inner
    · simp only [if_neg isNil]
      let chosen : GoType → (Nat → String) → GoType := fun type name => match type with
        | .ident x package => adopt x package (sharedAs x "" (memberTypes g name rest))
        | _ => .any
      have same : (fun name => chosen (typeOf g name m) name) = fun name =>
          severalAs (typeOf g name m :: memberTypes g name rest) := by
        funext name
        cases found : typeOf g name m with
        | ident x package => exact adopt_sharedAs (package_typeOf g name m found) _
        | slice | map | pointer | struct | absent => rfl
      rw [← same]
      refine (each m mem_cons_self).bind chosen fun type => ?_
      cases type with
      | ident x package => exact (settles_lowerMembers_some x inner).map (adopt x package)
      | slice | map | pointer | struct | absent => exact .pure _

theorem length_memberTypes (g : Graph) (name : Nat → String) (members : List Shape) :
    (memberTypes g name members).length = (members.filter fun m => !isNull m).length := by
  induction members with
  | nil => rfl
  | cons m rest ih => by_cases isNil : isNull m <;> simp [memberTypes, isNil, ih]

theorem settles_lowerMembers_single
    (each : ∀ m ∈ members, Settles reserved rooted live (lower g m) fun name => typeOf g name m)
    (few : (members.filter fun m => !isNull m).length ≤ 1) :
    Settles reserved rooted live (lowerMembers g false none members) fun name =>
      common (memberTypes g name members) := by
  induction members with
  | nil => exact .pure _
  | cons m rest ih =>
    rw [lowerMembers]
    simp only [memberTypes]
    by_cases isNil : isNull m
    · simp only [if_pos isNil]
      exact ih (fun m' member => each m' (mem_cons_of_mem _ member)) (by simpa [isNil] using few)
    · simp only [if_neg isNil]
      have alone : ∀ name, memberTypes g name rest = [] := by
        intro name
        rw [← length_eq_zero_iff, length_memberTypes]
        simpa [isNil] using few
      simp only [alone]
      exact (each m mem_cons_self).map id

theorem severalAs_eq_common {types : List GoType} (many : 1 < types.length) :
    severalAs types = common types := by
  cases types with
  | nil => rfl
  | cons first rest =>
    cases rest with
    | nil => exact absurd many (by simp)
    | cons second rest => cases first <;> rfl

theorem settles_lower (s : Shape) (alive : ∀ id, .handle id ∈ s.subshapes → live id) :
    Settles reserved rooted live (lower g s) fun name => typeOf g name s := by
  induction s using Shape.pieces_induction with
  | step s ih =>
    have inner : ∀ p ∈ s.pieces, Settles reserved rooted live (lower g p) fun name =>
        typeOf g name p := fun p member =>
      ih p member fun id inside => alive id (Shape.mem_subshapes_iff.mpr (.inr ⟨p, member, inside⟩))
    cases s with
    | handle id =>
      rw [lower]
      exact (settles_handleName g (alive id (Shape.mem_subshapes_self _))).map fun x => GoType.ident x ""
    | array n items =>
      rw [lower]
      exact (inner items mem_cons_self).map GoType.slice
    | object n props extra? =>
      rw [lower]
      simp only [typeOf]
      split_ifs
      · cases extra? with
        | none => exact .pure _
        | some extra =>
          rw [lowerExtra]
          exact (inner extra Shape.mem_pieces_of_extra).map GoType.map
      · exact (settles_lowerFields (fun p member =>
          inner p.shape (Shape.mem_pieces_of_mem_props member)) []).map GoType.struct
    | union n inclusive members =>
      rw [lower]
      suffices shared : Settles reserved rooted live
          (lowerMembers g (decide ((members.filter fun m => !isNull m).length > 1)) none members)
          fun name => common (memberTypes g name members) from shared.map (nilable (members.any isNull))
      by_cases many : (members.filter fun m => !isNull m).length > 1
      · rw [decide_eq_true many]
        have same : (fun name => common (memberTypes g name members)) = fun name =>
            severalAs (memberTypes g name members) :=
          funext fun name => (severalAs_eq_common (by rw [length_memberTypes]; exact many)).symm
        rw [same]
        exact settles_lowerMembers_several inner
      · rw [decide_eq_false many]
        exact settles_lowerMembers_single inner (Nat.not_lt.mp many)
    | _ => exact .pure _

end JsonShape.Declaration
