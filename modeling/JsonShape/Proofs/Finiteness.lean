import JsonShape.Proofs.Assembly
import JsonShape.Proofs.Declarations

/-! Declared types are finite, unless handles lead around. Only a handle that stands for a handle
can close a cycle of declarations that mention each other without a pointer, slice or map between
them. -/
namespace JsonShape
open List Entries Shape

namespace Graph

variable {g : Graph} {id k m n : Nat} {s t : Shape}

def Alias (g : Graph) (id k : Nat) : Prop := g.target? id = some (.handle k)

inductive Ends (g : Graph) : Nat → Nat → Shape → Prop
  | here {id : Nat} {s : Shape} (bound : g.target? id = some s) (other : ∀ k, s ≠ .handle k) :
      Ends g 0 id s
  | via {id k n : Nat} {s : Shape} (next : g.Alias id k) (ends : Ends g n k s) : Ends g (n + 1) id s

theorem Ends.of_alias (ends : g.Ends n id s) (next : g.Alias id k) : ∃ m, n = m + 1 ∧ g.Ends m k s := by
  cases ends with
  | here bound other => exact absurd (Option.some.inj (bound.symm.trans next)) (other k)
  | via next' ends =>
    cases Option.some.inj (next'.symm.trans next)
    exact ⟨_, rfl, ends⟩

theorem Ends.unique (ends : g.Ends n id s) (ends' : g.Ends m id t) : n = m := by
  induction ends generalizing m with
  | here bound other =>
    cases ends' with
    | here => rfl
    | via next => exact absurd (Option.some.inj (bound.symm.trans next)) (other _)
  | via next _ ih =>
    obtain ⟨m, rfl, rest⟩ := ends'.of_alias next
    exact congrArg (· + 1) (ih rest)

theorem Ends.lt_size (ends : g.Ends n id s) : n < g.handles.size := by
  obtain ⟨path, distinct, length, each⟩ : ∃ path : List Nat, path.Nodup ∧ path.length = n + 1 ∧
      ∀ k ∈ path, ∃ m ≤ n, g.Ends m k s := by
    induction ends with
    | here bound other =>
      exact ⟨[_], nodup_singleton _, rfl, forall_mem_singleton.mpr ⟨0, le_rfl, .here bound other⟩⟩
    | @via id k n s next ends ih =>
      obtain ⟨path, distinct, length, each⟩ := ih
      refine ⟨id :: path, nodup_cons.mpr ⟨fun member => ?_, distinct⟩, congrArg (· + 1) length, ?_⟩
      · obtain ⟨m, less, again⟩ := each id member
        have := (Ends.via next ends).unique again
        omega
      · refine forall_mem_cons.mpr ⟨⟨n + 1, le_rfl, .via next ends⟩, fun k member => ?_⟩
        obtain ⟨m, less, ends⟩ := each k member
        exact ⟨m, by omega, ends⟩
  have inside : path ⊆ range g.handles.size := by
    intro k member
    obtain ⟨m, -, ends⟩ := each k member
    have bound : g.Bound k := by
      cases ends with
      | here bound => exact Option.isSome_iff_exists.mpr ⟨_, bound⟩
      | via next => exact Option.isSome_iff_exists.mpr ⟨_, next⟩
    exact mem_range.mpr (lt_size_of_bound bound)
  have count := (distinct.subperm inside).length_le
  rw [length_range] at count
  omega

theorem Ends.follow_eq (ends : g.Ends n id s) {budget : Nat} (enough : n + 2 ≤ budget) :
    g.follow budget (.handle id) = s := by
  induction ends generalizing budget with
  | @here id s bound other =>
    obtain ⟨budget, rfl⟩ : ∃ more, budget = more + 2 := ⟨budget - 2, by omega⟩
    rw [follow, bound]
    cases s with
    | handle k => exact absurd rfl (other k)
    | _ => rfl
  | via next _ ih =>
    obtain ⟨budget, rfl⟩ : ∃ more, budget = more + 1 := ⟨budget - 1, by omega⟩
    rw [follow, next]
    exact ih (by omega)

theorem Ends.deref_eq (ends : g.Ends n id s) : g.deref (.handle id) = s := by
  have := ends.lt_size
  exact ends.follow_eq (by omega)

end Graph

namespace Declaration

open Relation

variable {x : String} {flat : Prop}

mutual
def GoType.bare : GoType → List String
  | .ident name _ => [name]
  | .struct fields => bareFields fields
  | _ => []

def GoType.bareFields : List (Field GoType) → List String
  | [] => []
  | ⟨_, _, type, _, _⟩ :: rest => type.bare ++ bareFields rest
end

theorem GoType.mem_bareFields {fields : List (Field GoType)} :
    x ∈ bareFields fields ↔ ∃ f ∈ fields, x ∈ f.type.bare := by
  induction fields with
  | nil => simp [bareFields]
  | cons f rest ih => simp [bareFields, ih]

def Mentions (decls : List Decl) (d e : Decl) : Prop := d ∈ decls ∧ e ∈ decls ∧ e.name ∈ d.type.bare

/-- A shape has a handle that its type mentions bare: it is the handle, or has a field for it that
is no pointer. -/
inductive Shows (g : Graph) : Shape → Nat → Prop
  | handle (id : Nat) : Shows g (.handle id) id
  | field {n id : Nat} {props : List (Property Shape)} {extra? : Option Shape} {p : Property Shape}
      (member : p ∈ props)
      (plain : isStructHandle g p.shape = false) (shows : Shows g p.shape id) :
      Shows g (.object n props extra?) id

variable {g : Graph} {name : Nat → String} {s : Shape} {id k : Nat} {members : List Shape}

theorem Shows.mem_subshapes (shows : Shows g s id) : .handle id ∈ s.subshapes := by
  induction shows with
  | handle id => exact mem_subshapes_self _
  | field member _ _ ih => exact mem_subshapes_iff.mpr (.inr ⟨_, mem_pieces_of_mem_props member, ih⟩)

theorem Shows.plain (shows : Shows g s id) (plain : isStructHandle g s = false) :
    isStructHandle g (.handle id) = false := by
  induction shows with
  | handle => exact plain
  | field _ inside _ ih => exact ih inside

theorem memberTypes_eq_map (none : ∀ m ∈ members, isNull m = false) :
    memberTypes g name members = members.map (typeOf g name) := by
  induction members with
  | nil => rfl
  | cons m rest ih =>
    obtain ⟨here, later⟩ := forall_mem_cons.mp none
    simp [memberTypes, here, ih later]

theorem bare_nilable {asked : Bool} {type : GoType} (bare : x ∈ (nilable asked type).bare) :
    x ∈ type.bare ∧ (asked = true → x = "any") := by
  unfold nilable at bare
  split_ifs at bare with pointed
  · cases bare
  · refine ⟨bare, fun asks => ?_⟩
    have nils : type.isNilable = true := by simpa [asks] using pointed
    cases type with
    | ident y package => rw [mem_singleton.mp bare, eq_of_beq nils]
    | slice | map | pointer => cases bare
    | struct | absent => cases nils

theorem eq_handle_of_typeOf {package : String} (single : s.kind ≠ .union)
    (type : typeOf g name s = .ident x package) (declared : x ∉ predeclared) :
    ∃ id, s = .handle id ∧ name id = x := by
  cases s with
  | handle id =>
    cases type
    exact ⟨id, rfl, rfl⟩
  | union => exact absurd rfl single
  | literal n v =>
    rw [typeOf, literalType] at type
    split at type <;> cases type <;> exact absurd (by decide) declared
  | number integer => cases integer <;> cases type <;> exact absurd (by decide) declared
  | object n props extra? =>
    rw [typeOf] at type
    split_ifs at type
  | binary | array => cases type
  | _ =>
    cases type
    exact absurd (by decide) declared

theorem bare_union {n : Nat} {inclusive : Bool} (two : 2 ≤ members.length)
    (single : ∀ m ∈ members, m.kind ≠ .union)
    (distinct : members.Pairwise fun m n => m.equal n = .ok false)
    (apart : ∀ id k, .handle id ∈ members → .handle k ∈ members → name id = name k → id = k)
    (bare : x ∈ (typeOf g name (.union n inclusive members)).bare) : x ∈ predeclared := by
  rw [typeOf] at bare
  obtain ⟨shared, asked⟩ := bare_nilable bare
  by_contra declared
  have none : ∀ m ∈ members, isNull m = false := by
    intro m member
    by_contra isNil
    have any : members.any isNull = true := any_eq_true.mpr ⟨m, member, by simpa using isNil⟩
    exact declared (asked any ▸ by decide)
  rw [memberTypes_eq_map none] at shared
  obtain ⟨a, b, rest, rfl⟩ : ∃ a b rest, members = a :: b :: rest := by
    rcases members with _ | ⟨a, _ | ⟨b, rest⟩⟩
    · cases two
    · cases Nat.le_of_succ_le_succ two
    · exact ⟨a, b, rest, rfl⟩
  have known : ∃ package package', typeOf g name a = .ident x package ∧
      typeOf g name b = .ident x package' := by
    rw [map_cons, map_cons] at shared
    cases first : typeOf g name a with
    | ident y package =>
      rw [first, common] at shared
      · split_ifs at shared with same
        · cases mem_singleton.mp shared
          obtain ⟨second, -⟩ := Bool.and_eq_true_iff.mp same
          cases type : typeOf g name b with
          | ident z package' =>
            rw [type] at second
            exact ⟨package, package', rfl, by rw [eq_of_beq second]⟩
          | _ =>
            rw [type] at second
            cases second
        · exact absurd (mem_singleton.mp shared ▸ by decide) declared
      · simp
    | _ =>
      rw [first] at shared
      exact absurd (mem_singleton.mp shared ▸ by decide) declared
  obtain ⟨package, package', first, second⟩ := known
  obtain ⟨id, rfl, here⟩ := eq_handle_of_typeOf (single a mem_cons_self) first declared
  obtain ⟨k, rfl, there⟩ := eq_handle_of_typeOf (single b (by simp)) second declared
  obtain rfl := apart id k mem_cons_self (by simp) (here.trans there.symm)
  have differ : (handle id).equal (.handle id) = .ok false := (pairwise_cons.mp distinct).1 _ mem_cons_self
  simp [equal] at differ

theorem shows_of_bare (trim : s.Trim flat)
    (apart : ∀ id k, .handle id ∈ s.subshapes → .handle k ∈ s.subshapes → name id = name k → id = k)
    (bare : x ∈ (typeOf g name s).bare) : x ∈ predeclared ∨ ∃ id, Shows g s id ∧ x = name id := by
  induction s using pieces_induction with
  | step s ih =>
    have inside : ∀ p ∈ s.pieces, ∀ t ∈ p.subshapes, t ∈ s.subshapes := fun p member t inside =>
      mem_subshapes_iff.mpr (.inr ⟨p, member, inside⟩)
    cases s with
    | handle id => exact .inr ⟨id, .handle id, mem_singleton.mp bare⟩
    | object n props extra? =>
      rw [typeOf] at bare
      split_ifs at bare
      · cases bare
      · obtain ⟨f, listed, bare⟩ := GoType.mem_bareFields.mp bare
        obtain ⟨p, member, ⟨same, plain⟩ | same⟩ := (fieldsOf_spec g name [] props).2.2 f listed
        · have piece : p.shape ∈ (object n props extra?).pieces := mem_pieces_of_mem_props member
          rw [same] at bare
          refine (ih p.shape piece (trim.piece piece) (fun id k here there => ?_) bare).imp_right ?_
          · exact apart id k (inside _ piece _ here) (inside _ piece _ there)
          · rintro ⟨id, shows, named⟩
            exact ⟨id, .field member plain shows, named⟩
        · rw [same] at bare
          cases bare
    | union n inclusive members =>
      obtain ⟨two, varied⟩ := trim.own
      refine .inl (bare_union two (fun m member => (varied.single m member).2.2) varied.distinct
        (fun id k here there => ?_) bare)
      exact apart id k (inside _ here _ (mem_subshapes_self _)) (inside _ there _ (mem_subshapes_self _))
    | literal n v =>
      rw [typeOf, literalType] at bare
      split at bare <;> exact .inl (mem_singleton.mp bare ▸ by decide)
    | number integer => cases integer <;> exact .inl (mem_singleton.mp bare ▸ by decide)
    | binary | array => cases bare
    | _ => exact .inl (mem_singleton.mp bare ▸ by decide)

def Exposes (g : Graph) (id k : Nat) : Prop := ∃ s, g.target? id = some s ∧ Shows g s k

def Hides (g : Graph) (id : Nat) : Prop :=
  ∃ m n props extra?, g.Ends m id (.object n props extra?) ∧ props ≠ []

theorem Hides.isStructHandle (hides : Hides g id) : isStructHandle g (.handle id) = true := by
  obtain ⟨m, n, props, extra?, ends, some⟩ := hides
  rw [Declaration.isStructHandle, ends.deref_eq]
  cases props with
  | nil => exact absurd rfl some
  | cons => rfl

theorem hides_of_alias (next : g.Alias id k) : Hides g id ↔ Hides g k := by
  constructor
  · rintro ⟨m, n, props, extra?, ends, some⟩
    obtain ⟨m, -, ends⟩ := ends.of_alias next
    exact ⟨m, n, props, extra?, ends, some⟩
  · rintro ⟨m, n, props, extra?, ends, some⟩
    exact ⟨m + 1, n, props, extra?, .via next ends, some⟩

theorem Exposes.cases (exposes : Exposes g id k) : g.Alias id k ∨ Hides g id ∧ ¬ Hides g k := by
  obtain ⟨s, bound, shows⟩ := exposes
  cases shows with
  | handle => exact .inl bound
  | @field n _ props extra? p member plain shows =>
    refine .inr ⟨⟨0, n, props, extra?, .here bound nofun, ne_nil_of_mem member⟩, fun hides => ?_⟩
    exact Bool.false_ne_true ((shows.plain plain).symm.trans hides.isStructHandle)

theorem alias_of_exposes (around : TransGen (Exposes g) id id) : TransGen g.Alias id id := by
  by_cases hides : Hides g id
  · -- all that leads to a handle of a struct stands for one
    have back : ∀ {k}, TransGen (Exposes g) k id → TransGen g.Alias k id ∧ Hides g k := by
      intro k path
      induction path using TransGen.head_induction_on with
      | single exposes =>
        have next := exposes.cases.resolve_right fun other => other.2 hides
        exact ⟨.single next, (hides_of_alias next).mpr hides⟩
      | head exposes _ ih =>
        have next := exposes.cases.resolve_right fun other => other.2 ih.2
        exact ⟨.head next ih.1, (hides_of_alias next).mpr ih.2⟩
    exact (back around).1
  · have onward : ∀ {k}, TransGen (Exposes g) id k → TransGen g.Alias id k ∧ ¬ Hides g k := by
      intro k path
      induction path with
      | single exposes =>
        have next := exposes.cases.resolve_right fun other => hides other.1
        exact ⟨.single next, fun later => hides ((hides_of_alias next).mpr later)⟩
      | tail _ exposes ih =>
        have next := exposes.cases.resolve_right fun other => ih.2 other.1
        exact ⟨.tail ih.1 next, fun later => ih.2 ((hides_of_alias next).mpr later)⟩
    exact (onward around).1

variable {roots given : List (String × Shape)} {n n' : Names} {d e : Decl} {handles : List Nat}

theorem Closed.listed (closed : Closed g roots given n n') (reached : IsReached g roots id) :
    (id, n'.naming id) ∈ n'.handles := by
  by_cases root : IsRoot roots id
  · obtain ⟨x, listed, -⟩ := closed.spec.exists_name root
    rw [closed.naming_eq listed]
    exact closed.kept listed
  · exact closed.named id reached root

theorem Closed.naming_inj (closed : Closed g roots given n n') (reached : IsReached g roots id)
    (reached' : IsReached g roots k) (same : n'.naming id = n'.naming k) : id = k :=
  congrArg Prod.fst (inj_on_of_nodup_map closed.fair.names (closed.listed reached)
    (closed.listed reached') same)

def declarations (g : Graph) (given : List (String × Shape)) (n n' : Names) (handles : List Nat) :
    List Decl :=
  given.map (rootDecl g n'.naming n) ++ handles.map (handleDecl g n'.naming)

theorem mem_declarations :
    d ∈ declarations g given n n' handles ↔ (∃ entry ∈ given, rootDecl g n'.naming n entry = d) ∨
      ∃ id ∈ handles, handleDecl g n'.naming id = d := by
  rw [declarations, mem_append, mem_map, mem_map]

theorem Closed.exported (closed : Closed g roots given n n')
    (others : ∀ id ∈ handles, IsReached g roots id)
    (member : d ∈ declarations g given n n' handles) : d.name ∉ predeclared := by
  rcases mem_declarations.mp member with ⟨entry, inside, rfl⟩ | ⟨id, inside, rfl⟩
  · have forms := closed.spec.forms
    clear closed others member
    induction forms with
    | nil => cases inside
    | cons form _ ih => exact (mem_cons.mp inside).elim (fun same => same ▸ form.2.not_predeclared) ih
  · exact closed.fair.exported _ (closed.listed (others id inside))

theorem Closed.type_eq (closed : Closed g roots given n n')
    (others : ∀ id ∈ handles, IsReached g roots id ∧ ¬ IsRoot roots id)
    (member : d ∈ declarations g given n n' handles) (reached : IsReached g roots id)
    (named : d.name = n'.naming id) : d.type = targetType g n'.naming id := by
  rcases mem_declarations.mp member with ⟨entry, inside, rfl⟩ | ⟨k, inside, rfl⟩
  · have root : IsRoot roots id := (closed.naming_mem_iff reached).mp (mem_map.mpr ⟨entry, inside, named⟩)
    obtain ⟨x, listed, own⟩ := closed.spec.exists_name root
    have same : entry = (x, .handle id) :=
      inj_on_of_nodup_map closed.spec.different inside own (named.trans (closed.naming_eq listed))
    rw [rootDecl, ownedId?_eq_some.mpr ⟨congrArg Prod.snd same, by rw [same]; exact listed⟩]
    rfl
  · rw [closed.naming_inj (others k inside).1 reached named]
    rfl

theorem Closed.exists_shown (closed : Closed g roots given n n') {root : String × Shape}
    (member : root ∈ roots) (arranged : g.Arranged flat root.2) {s : Shape}
    (reached : g.Reaches root.2 s) (bare : x ∈ (typeOf g n'.naming s).bare)
    (declared : x ∉ predeclared) : ∃ k, Shows g s k ∧ IsReached g roots k ∧ x = n'.naming k := by
  have inside : ∀ k, .handle k ∈ s.subshapes → IsReached g roots k := fun k inside =>
    ⟨root, member, reached.trans (.of_mem_subshapes inside)⟩
  obtain ⟨k, shows, named⟩ := (shows_of_bare (arranged.reached reached).trim (fun id k here there =>
    closed.naming_inj (inside id here) (inside k there)) bare).resolve_left declared
  exact ⟨k, shows, inside k shows.mem_subshapes, named⟩

section Arranged

variable (closed : Closed g roots given n n') (arranged : ∀ root ∈ roots, g.Arranged flat root.2)
    (others : ∀ id ∈ handles, IsReached g roots id ∧ ¬ IsRoot roots id)

include closed arranged others

theorem Closed.exposes (mentions : Mentions (declarations g given n n' handles) d e)
    (reached : IsReached g roots id) (named : d.name = n'.naming id) :
    ∃ k, Exposes g id k ∧ IsReached g roots k ∧ e.name = n'.naming k := by
  obtain ⟨first, second, bare⟩ := mentions
  have declared := closed.exported (fun id member => (others id member).1) second
  rw [closed.type_eq others first reached named, targetType] at bare
  cases bound : g.target? id with
  | none =>
    rw [bound] at bare
    exact absurd (mem_singleton.mp bare ▸ by decide) declared
  | some s =>
    rw [bound] at bare
    obtain ⟨root, member, path⟩ := reached
    obtain ⟨k, shows, reached, named⟩ :=
      closed.exists_shown member (arranged root member) (path.target bound) bare declared
    exact ⟨k, ⟨s, bound, shows⟩, reached, named⟩

theorem Closed.exists_reached (mentions : Mentions (declarations g given n n' handles) d e) :
    ∃ k, IsReached g roots k ∧ e.name = n'.naming k := by
  obtain ⟨first, second, bare⟩ := mentions
  by_cases named : ∃ id, IsReached g roots id ∧ d.name = n'.naming id
  · obtain ⟨id, reached, named⟩ := named
    obtain ⟨k, -, reached, named⟩ := closed.exposes arranged others ⟨first, second, bare⟩ reached named
    exact ⟨k, reached, named⟩
  · -- the declaration is that of a root that is no handle with its name
    have declared := closed.exported (fun id member => (others id member).1) second
    rcases mem_declarations.mp first with ⟨entry, inside, rfl⟩ | ⟨id, inside, rfl⟩
    · obtain ⟨root, member, same⟩ := closed.spec.exists_root inside
      rw [rootDecl] at bare
      cases owned : ownedId? n entry with
      | some id =>
        obtain ⟨handle, listed⟩ := ownedId?_eq_some.mp owned
        exact absurd ⟨id, ⟨root, member, same.trans handle ▸ .self⟩, (closed.naming_eq listed).symm⟩ named
      | none =>
        rw [owned] at bare
        obtain ⟨k, -, reached, named⟩ :=
          closed.exists_shown member (arranged root member) .self (same ▸ bare) declared
        exact ⟨k, reached, named⟩
    · exact absurd ⟨id, (others id inside).1, rfl⟩ named

theorem Closed.alias_of_cycle (around : TransGen (Mentions (declarations g given n n' handles)) d d) :
    ∃ id, IsReached g roots id ∧ TransGen g.Alias id id := by
  obtain ⟨_, -, last⟩ := TransGen.tail'_iff.mp around
  obtain ⟨id, reached, named⟩ := closed.exists_reached arranged others last
  have onward : ∀ {e}, TransGen (Mentions (declarations g given n n' handles)) d e →
      ∃ k, TransGen (Exposes g) id k ∧ IsReached g roots k ∧ e.name = n'.naming k := by
    intro e path
    induction path with
    | single mentions =>
      obtain ⟨k, exposes, known⟩ := closed.exposes arranged others mentions reached named
      exact ⟨k, .single exposes, known⟩
    | tail _ mentions ih =>
      obtain ⟨m, path, reached, named⟩ := ih
      obtain ⟨k, exposes, known⟩ := closed.exposes arranged others mentions reached named
      exact ⟨k, .tail path exposes, known⟩
  obtain ⟨k, path, reached', named'⟩ := onward around
  obtain rfl := closed.naming_inj reached' reached (named'.symm.trans named)
  exact ⟨k, reached, alias_of_exposes path⟩

omit arranged in
theorem Closed.cycle_of_alias (all : ∀ id, IsReached g roots id → ¬ IsRoot roots id → id ∈ handles)
    (reached : IsReached g roots id) (around : TransGen g.Alias id id) :
    ∃ d, TransGen (Mentions (declarations g given n n' handles)) d d := by
  have names : (declarations g given n n' handles).map (·.name) =
      given.map (·.1) ++ handles.map n'.naming := by
    rw [declarations, List.map_append, List.map_map, List.map_map]
    rfl
  have exists_decl : ∀ {k}, IsReached g roots k →
      ∃ d ∈ declarations g given n n' handles, d.name = n'.naming k := by
    intro k reached
    have member := closed.naming_mem all reached
    rw [← names] at member
    exact mem_map.mp member
  have step : ∀ {k m d e}, g.Alias k m → IsReached g roots k → d ∈ declarations g given n n' handles →
      d.name = n'.naming k → e ∈ declarations g given n n' handles → e.name = n'.naming m →
      Mentions (declarations g given n n' handles) d e := by
    intro k m d e next reached first named second named'
    refine ⟨first, second, ?_⟩
    rw [closed.type_eq others first reached named, targetType, next, named']
    exact mem_singleton_self _
  have onward : ∀ {k}, TransGen g.Alias id k → IsReached g roots k ∧ ∀ {d e},
      d ∈ declarations g given n n' handles → d.name = n'.naming id →
      e ∈ declarations g given n n' handles → e.name = n'.naming k →
      TransGen (Mentions (declarations g given n n' handles)) d e := by
    intro k path
    induction path with
    | single next =>
      exact ⟨reached.of_target next (mem_subshapes_self _), fun first named second named' =>
        .single (step next reached first named second named')⟩
    | tail _ next ih =>
      obtain ⟨reached, before⟩ := ih
      refine ⟨reached.of_target next (mem_subshapes_self _), fun first named second named' => ?_⟩
      obtain ⟨d, member, same⟩ := exists_decl reached
      exact .tail (before first named member same) (step next reached member same second named')
  obtain ⟨d, member, named⟩ := exists_decl reached
  exact ⟨d, (onward around).2 member named member named⟩

end Arranged

/-- Declarations of made shapes mention each other around, without a pointer, slice or map between,
only where a handle leads back to itself through handles alone. -/
theorem ofShapes_cyclic_iff {careful : Prop} {g : Graph} {pool : List Shape}
    (made : Made careful g pool) {shapes : List (String × Shape)}
    (members : ∀ root ∈ shapes, root.2 ∈ pool) :
    (∃ d, TransGen (Mentions (ofShapes g shapes)) d d) ↔ ∃ id, IsReached g (ofList shapes) id ∧
      TransGen g.Alias id id := by
  obtain ⟨given, n, n', handles, closed, -, member_iff, decls⟩ := exists_closed g shapes
  have arranged : ∀ root ∈ ofList shapes, g.Arranged careful root.2 := fun root member =>
    (made.composed root.2 (members root (mem_of_mem_ofList member))).arranged
  have others : ∀ id ∈ handles, IsReached g (ofList shapes) id ∧ ¬ IsRoot (ofList shapes) id :=
    fun id => (member_iff id).mp
  rw [decls]
  constructor
  · rintro ⟨d, around⟩
    exact closed.alias_of_cycle arranged others around
  · rintro ⟨id, reached, around⟩
    exact closed.cycle_of_alias others (fun id reached other =>
      (member_iff id).mpr ⟨reached, other⟩) reached around

section Around

open JsonShape.Derivation JsonShape.Derivation.Cache

theorem link_finite :
    ∃ g, Made True g [.handle 0] ∧
      ¬ ∃ d, TransGen (Mentions (ofShapes g [("Chain", .handle 0)])) d d := by
  have readable : Corpus.Readable #[link] :=
    .of_tree (.object [("$id", "", .string "a"), ("type", "", .string "object"),
    ("properties", "", .object [("next", "", .object [("$ref", "", .string "#")])])]) rfl
  let g : Graph := ⟨#[⟨"A", "a", some (.object 0 [⟨"next", .handle 0, true, none⟩] none)⟩], 1⟩
  have derived : run #[link] ⟨0, []⟩ (.ofDocuments #[link] [0]) {}
      {} = .ok (⟨.ok (.handle 0), []⟩, g) := by cbv
  have made : Made True g [.handle 0] := .derive (.start {}) readable (.ofDocuments [0]) derived rfl
  refine ⟨g, made, fun cyclic => ?_⟩
  obtain ⟨id, -, around⟩ := (ofShapes_cyclic_iff made (by simp)).mp cyclic
  obtain ⟨k, next, -⟩ := TransGen.head'_iff.mp around
  have only : ∀ id k, g.target? id ≠ some (.handle k) := by
    rintro (_ | id) k equal <;> cases equal
  exact only id k next

/-- A schema that is only a reference to itself becomes a type that is itself. -/
theorem self_cyclic :
    ∃ g, Made True g [.handle 0] ∧
      ∃ d, TransGen (Mentions (ofShapes g [("Root", .handle 0)])) d d := by
  have readable : Corpus.Readable #[.node { ref := "#" }] :=
    .of_tree (.object [("$ref", "", .string "#")]) rfl
  let g : Graph := ⟨#[⟨"Root", "#", some (.handle 0)⟩], 0⟩
  have derived : run #[.node { ref := "#" }] ⟨0, []⟩ (.ofDocuments #[.node { ref := "#" }] [0]) {}
      {} = .ok (⟨.ok (.handle 0), []⟩, g) := by
    cbv
  have decls : ofShapes g [("Root", .handle 0)] =
      [⟨"Root", .ident "Root" "", g.format (.handle 0)⟩] := by cbv
  refine ⟨g, .derive (.start {}) readable (.ofDocuments [0]) derived rfl,
    ⟨"Root", .ident "Root" "", g.format (.handle 0)⟩, .single ?_⟩
  rw [decls]
  exact ⟨mem_singleton_self _, mem_singleton_self _, mem_singleton_self _⟩

end Around

end Declaration

end JsonShape
