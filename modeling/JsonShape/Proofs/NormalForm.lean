import JsonShape.Proofs.Joint
import JsonShape.Proofs.Meet

/-! Shapes in normal form: literals are documents, the names of properties ascend, and the members
of unions differ. For one such shape joint acceptance is plain acceptance. -/
namespace JsonShape.Shape
open List Entries

inductive Normal : Shape → Prop
  | flat {s : Shape} (flat : s.isFlat = true) : Normal s
  | literal {n : Nat} {v : Value} (document : v.Document) : Normal (.literal n v)
  | array {n : Nat} {items : Shape} (inside : Normal items) : Normal (.array n items)
  | object {n : Nat} {props : List (Property Shape)} {extra? : Option Shape}
      (ascending : props.Pairwise fun p q => p.name < q.name)
      (inside : ∀ p ∈ props, Normal p.shape) (extra : ∀ s, extra? = some s → Normal s) :
      Normal (.object n props extra?)
  | union {n : Nat} {inclusive : Bool} {members : List Shape} (inside : ∀ m ∈ members, Normal m)
      (distinct : members.Pairwise fun m n => ¬ Alike m n) (proper : ∀ m ∈ members, m.kind ≠ .any) :
      Normal (.union n inclusive members)

variable {s t c : Shape}

theorem Normal.tidy (normal : s.Normal) : s.Tidy fun leaf => leaf.kind ≠ .named := by
  induction normal with
  | @flat s flat =>
    refine .flat flat fun named => ?_
    cases s <;> cases named
    cases flat
  | literal document => exact .literal document nofun
  | array _ ih => exact .array ih
  | object _ _ _ ih ih' => exact .object nofun ih ih'
  | union _ distinct _ ih => exact .union ih distinct

theorem Normal.piece (normal : s.Normal) (member : t ∈ s.pieces) : t.Normal := by
  cases normal with
  | flat flat =>
    have none : s.pieces = [] := by cases s <;> first | rfl | cases flat
    rw [none] at member
    cases member
  | literal => cases member
  | array inside => exact mem_singleton.mp member ▸ inside
  | object _ inside extra => exact forall_mem_pieces_object inside extra t member
  | union inside => exact inside t member

theorem Normal.of_literal {n : Nat} {v : Value} (normal : (Shape.literal n v).Normal) : v.Document :=
  normal.tidy.of_literal.1

theorem Normal.ascending {n : Nat} {props : List (Property Shape)} {extra? : Option Shape}
    (normal : (Shape.object n props extra?).Normal) :
    props.Pairwise fun p q => p.name < q.name := by
  cases normal with
  | flat flat => cases flat
  | object ascending => exact ascending

theorem Normal.kind_ne (normal : s.Normal) : s.kind ≠ .named ∧ s.kind ≠ .intersection := by
  cases normal with
  | flat flat => cases s <;> simp_all [kind, isFlat]
  | _ => simp [kind]

theorem Normal.choice (normal : s.Normal) (choice : Choice s c) : c.Normal := by
  induction choice with
  | self => exact normal
  | member member _ ih => exact ih (normal.piece member)

theorem Normal.eq_any (normal : s.Normal) (choice : Choice s c) (free : c = any) : s = any := by
  induction choice with
  | self => exact free
  | @member n inclusive members m c member inside ih =>
    cases normal with
    | flat flat => cases flat
    | union inner _ proper => exact absurd (congrArg kind (ih (inner m member) free)) (proper m member)

theorem normal_unites : Unites Normal Alike where
  any := .flat rfl
  never := .flat rfl
  members normal _ member := normal.piece member
  union inside distinct proper := .union inside distinct proper
  decides left right := equal_decides left.tidy right.tidy
  accepts _ _ alike _ _ inhabits := alike.symm.inhabits inhabits

variable {g : Graph} {agree : Prop} {v : Value} {props : List (Property Shape)}
  {extra? : Option Shape} {n : Nat}

theorem entryAt?_of_mem {p : Property Shape} (ascending : props.Pairwise fun p q => p.name < q.name)
    (member : p ∈ props) : entryAt? p.name (object n props extra?) = some p.shape := by
  rw [entryAt?, property?_of_mem_ascending ascending member]

theorem entryAt?_of_none {name : String} (unknown : property? props name = none) :
    entryAt? name (object n props extra?) = extra? := by
  rw [entryAt?, unknown]

theorem Joint.inhabits (normal : s.Normal) (joint : Joint g agree [s] v) : Inhabits g s v := by
  generalize equal : [s] = ts at joint
  induction joint generalizing s with
  | @leaves ts cs v chosen fit =>
    subst equal
    obtain ⟨c, rest, choice, none, rfl⟩ := forall₂_cons_left_iff.mp chosen
    cases none
    refine choice.inhabits ?_
    obtain inhabits | ⟨-, r, inside, -, inhabits⟩ := fit.fits c (mem_singleton_self c)
    · exact inhabits
    · exact mem_singleton.mp inside ▸ inhabits
  | @lists ts cs v vs chosen single listed each ih =>
    subst equal
    obtain ⟨c, rest, choice, none, rfl⟩ := forall₂_cons_left_iff.mp chosen
    cases none
    refine choice.inhabits ?_
    obtain rfl | kind := single c (mem_singleton_self c)
    · exact .any v
    · obtain ⟨n, items, rfl⟩ := exists_of_kind_array kind
      exact .array listed fun x member => ih x member ((normal.choice choice).piece mem_cons_self) rfl
  | @objects ts cs v entries chosen single keyed present each ih =>
    subst equal
    obtain ⟨c, rest, choice, none, rfl⟩ := forall₂_cons_left_iff.mp chosen
    cases none
    refine choice.inhabits ?_
    obtain rfl | kind := single c (mem_singleton_self c)
    · exact .any v
    · obtain ⟨n, props, extra?, rfl⟩ := exists_of_kind_object kind
      have inner := normal.choice choice
      refine .object keyed (fun p member absent => ?_)
        (fun p member x found => ?_) fun extra equal e member unknown => ?_
      · by_contra required
        exact present _ (mem_singleton_self _) p.name ⟨p, member, rfl, by simpa using required⟩ absent
      · refine ih (p.name, x) (mem_of_get?_eq_some found) (inner.piece (mem_pieces_of_mem_props member)) ?_
        simp [entryAt?_of_mem inner.ascending member]
      · subst equal
        refine ih e member (inner.piece mem_pieces_of_extra) ?_
        simp [entryAt?_of_none unknown]

theorem fit_single (single : s.isFlat = true ∨ s.kind = .literal) (inhabits : Inhabits g s v) :
    Fit g agree [s] v where
  single := forall_mem_singleton.mpr single
  fits := forall_mem_singleton.mpr (.inl inhabits)
  agreed _ _ _ _ _ here there := by
    cases (mem_singleton.mp here).trans (mem_singleton.mp there).symm
    rfl

theorem joint_nil (v : Value) : Joint g agree [] v := .leaves .nil ⟨nofun, nofun, nofun⟩

theorem joint_of_inhabits (normal : s.Normal) (ordered : v.ordered = true)
    (inhabits : Inhabits g s v) : Joint g agree [s] v := by
  induction inhabits with
  | any v => exact .leaves (.cons (.self (by rintro ⟨⟩)) .nil) (fit_single (.inl rfl) (.any v))
  | @flat s v fits =>
    have flat : s.isFlat = true := Inhabits.isFlat_of_fits fits
    refine .leaves (.cons (.self fun union => ?_) .nil) (fit_single (.inl flat) (.flat fits))
    cases s <;> cases union
    cases flat
  | literal equal =>
    exact .leaves (.cons (.self (by rintro ⟨⟩)) .nil) (fit_single (.inr rfl) (.literal equal))
  | @array n items v vs listed each ih =>
    refine .lists (.cons (.self (by rintro ⟨⟩)) .nil) (forall_mem_singleton.mpr (.inr rfl))
      listed fun x member => ?_
    exact ih x member (normal.piece mem_cons_self)
      (Value.everyMap_of_mem_items (Value.everyMap_settle ordered) listed member)
  | @object n props extra? v entries keyed present declared undeclared ih ih' =>
    have ascending := Value.ascending_of_ordered (Value.everyMap_settle ordered) keyed
    refine .objects (.cons (.self (by rintro ⟨⟩)) .nil) (forall_mem_singleton.mpr (.inr rfl)) keyed
      (forall_mem_singleton.mpr ?_) ?_
    · rintro name ⟨p, member, rfl, required⟩ absent
      exact Bool.false_ne_true (required.symm.trans (present p member absent))
    · intro e member
      have ordered' := Value.everyMap_of_mem_entries (Value.everyMap_settle ordered) keyed member
      cases known : property? props e.1 with
      | some p =>
        obtain ⟨inside, named⟩ := mem_of_property? known
        have found : get? entries p.name = some e.2 := named ▸ get?_eq_some_of_mem ascending member
        simpa [entryAt?, known] using ih p inside e.2 found
          (normal.piece (mem_pieces_of_mem_props inside)) ordered'
      | none =>
        cases extra? with
        | none => simpa [entryAt?, known] using joint_nil e.2
        | some extra =>
          simpa [entryAt?, known] using ih' extra rfl e member known
            (normal.piece mem_pieces_of_extra) ordered'
  | union member _ ih =>
    obtain ⟨c, choice, joint⟩ := (ih (normal.piece member) ordered).exists_choice
    exact joint.of_choice (.member member choice)
  | intersection => exact absurd rfl normal.kind_ne.2
  | unbound => exact absurd rfl normal.kind_ne.1
  | bound => exact absurd rfl normal.kind_ne.1

end JsonShape.Shape
