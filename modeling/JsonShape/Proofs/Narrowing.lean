import JsonShape.Proofs.MeetRenaming

/-! Intersections narrow. A value that has the intersection of two shapes has both, also where
handles lead around in circles and what is met again is left unmerged. -/
namespace JsonShape
open List Option Entries Inhabits Value

namespace Shape

def orderly : Shape → Bool
  | dateTime _ _ | binary => false
  | object _ props _ => decide (props.Pairwise fun p q => p.name < q.name)
  | _ => true

end Shape

/-- All that a shape reaches is orderly. -/
def Graph.Orderly (g : Graph) (s : Shape) : Prop := ∀ t, g.Reaches s t → t.orderly = true

theorem Graph.Orderly.piece {g : Graph} {s p : Shape} (orderly : g.Orderly s)
    (member : p ∈ s.pieces) : g.Orderly p :=
  fun t reached => orderly t (reached.of_piece member)

theorem Value.ascending_of_ordered {v : Value} (ordered : v.ordered = true)
    {entries : List (String × Value)} (keyed : v.entries? = some entries) : Ascending entries :=
  pairwise_map.mp (of_decide_eq_true (test_of_entries ordered keyed))

namespace Shape

open Fresh

variable {g : Graph}

def Narrows (g : Graph) (a b s : Shape) : Prop :=
  g.Orderly a → g.Orderly b → ∀ v : Value, v.ordered = true → Inhabits g s v →
    Inhabits g a v ∧ Inhabits g b v

theorem Narrows.never (a b : Shape) : Narrows g a b never :=
  fun _ _ _ _ inhabits => absurd inhabits not_never

theorem Narrows.symm {a b s : Shape} (narrows : Narrows g a b s) : Narrows g b a s :=
  fun left right v ordered inhabits => (narrows right left v ordered inhabits).symm

theorem orderly_opened {s t : Shape} (found : opened g.target? s = some t) (orderly : g.Orderly s) :
    g.Orderly t := by
  cases s with
  | handle id => exact fun u reached => orderly u (reached.of_target found)
  | _ => exact some.inj found ▸ orderly

variable {n : Nat} {v : Value} {a b s : Shape}

theorem fitsKind_of_literalKind {kind : Kind} (equal : v.settle.plain.literalKind = kind)
    (single : kind = .null ∨ kind = .boolean ∨ kind = .number ∨ kind = .string) :
    Conformance.fitsKind v.settle kind = true := by
  have settled := v.settle_settle
  generalize v.settle = w at equal settled
  subst equal
  cases w with
  | timeRef t? => cases t? <;> cases settled
  | ref target =>
    cases target with
    | none => cases settled
    | some u =>
      have smaller := u.size_settle_le
      rw [settle] at settled
      rw [settled, Value.size] at smaller
      omega
  | map kind entries =>
    rcases kind with _ | ⟨type, _ | _⟩ <;> simp [plain, MapKind.isKeyedByText,
      literalKind] at single
  | _ => simp_all [plain, literalKind, Conformance.fitsKind, isNumber, Value.isText]

theorem isRich_of_orderly (orderly : g.Orderly s) : s.isRich = false := by
  have own := orderly s .self
  cases s <;> first | rfl | cases own

theorem narrows_meetLiteral (proper : b.Proper) (met : meetLiteral (literal n v) v b = .ok s) :
    Narrows g (literal n v) b s := by
  intro _ right x _ inhabits
  by_cases other : b.kind = .literal
  · obtain ⟨m, w, rfl⟩ := exists_of_kind_literal other
    obtain ⟨equal, compared, result⟩ := bind_eq_ok_iff.mp met
    obtain rfl : (if equal then literal n v else never) = s := Except.ok.inj result
    cases equal with
    | false => exact absurd inhabits not_never
    | true =>
      have matched := literal_iff.mp inhabits
      rw [matchesLiteral_iff] at matched
      exact ⟨inhabits, .literal (matchesLiteral_iff.mpr (literalEqual_trans matched compared))⟩
  · rw [meetLiteral_of_ne other, isRich_of_orderly right, Bool.and_false, if_neg Bool.false_ne_true] at met
    split_ifs at met with kinds
    · obtain rfl := Except.ok.inj met
      obtain ⟨⟨kind, notArray⟩, notObject⟩ :
          (v.literalKind = b.kind ∧ b.kind ≠ .array) ∧ b.kind ≠ .object := by simpa using kinds
      have matched := literal_iff.mp inhabits
      rw [matchesLiteral_iff] at matched
      refine ⟨inhabits, .flat
        (fitsKind_of_literalKind ((literalKind_eq_of_literalEqual matched).trans kind) ?_)⟩
      have kept := proper.1
      rw [← kind] at notArray notObject kept ⊢
      unfold literalKind at *
      split at kept <;> simp_all
    · obtain rfl := Except.ok.inj met
      exact absurd inhabits not_never

theorem narrows_meetPlain (flat : a.isFlat = true) (flat' : b.isFlat = true) (proper : a.Proper)
    (proper' : b.Proper) : Narrows g a b (meetPlain a b) := by
  intro left right x _ inhabits
  unfold meetPlain at inhabits
  rw [isRich_of_orderly left, isRich_of_orderly right, Bool.and_false, Bool.and_false,
    if_neg (by simp), if_neg (by simp)] at inhabits
  split_ifs at inhabits with differ
  · exact absurd inhabits not_never
  have kinds : a.kind = b.kind := by simpa using differ
  have either : Inhabits g a x ∨ Inhabits g b x := by
    split at inhabits
    · exact .inr inhabits
    · exact .inl inhabits
  have any : ∀ {s : Shape}, s.Proper → s ≠ .any := fun proper equal => proper.1 (equal ▸ rfl)
  rw [flat_iff flat (any proper), flat_iff flat' (any proper'), kinds] at either ⊢
  exact ⟨or_self_iff.mp either, or_self_iff.mp either⟩

variable {ps qs left right : List (Property Shape)} {e f extra? : Option Shape} {p r : Property Shape}

theorem MetProperty.allowed {others : List (Property Shape)}
    (met : MetProperty (Narrows g) others extra? p r) (own : g.Orderly p.shape)
    (declared : ∀ q ∈ others, g.Orderly q.shape) (undeclared : ∀ s, extra? = some s → g.Orderly s)
    {x : Value} (ordered : x.ordered = true) (inhabits : Inhabits g r.shape x) :
    Allowed g others extra? p x := by
  cases met with
  | @declared q s found met =>
    have both := met own (declared q (mem_of_property? found).1) x ordered inhabits
    refine ⟨both.1, fun q' found' => ?_, fun unknown => ?_⟩
    · exact some.inj (found.symm.trans found') ▸ both.2
    · rw [found] at unknown
      cases unknown
  | @extra y s unknown equal met =>
    have both := met own (undeclared y equal) x ordered inhabits
    refine ⟨both.1, fun q found => ?_, fun _ y' equal' => ?_⟩
    · rw [unknown] at found
      cases found
    · exact some.inj (equal.symm.trans equal') ▸ both.2
  | free unknown equal =>
    refine ⟨inhabits, fun q found => ?_, fun _ y equal' => ?_⟩
    · rw [unknown] at found
      cases found
    · rw [equal] at equal'
      cases equal'

theorem MetProperty.optional {others : List (Property Shape)}
    (met : MetProperty (Narrows g) others extra? p r) (optional : r.optional = true) :
    p.optional = true ∧ ∀ q, property? others p.name = some q → q.optional = true := by
  cases met with
  | @declared q s found =>
    obtain ⟨own, other⟩ : p.optional = true ∧ q.optional = true := by simpa using optional
    exact ⟨own, fun q' found' => some.inj (found.symm.trans found') ▸ other⟩
  | extra unknown => exact ⟨optional, fun q found => nomatch unknown.symm.trans found⟩
  | free unknown => exact ⟨optional, fun q found => nomatch unknown.symm.trans found⟩

theorem MetExtra.allowed (met : MetExtra (Narrows g) e f extra?)
    (left : ∀ s, e = some s → g.Orderly s) (right : ∀ s, f = some s → g.Orderly s) {x : Value}
    (ordered : x.ordered = true) (inhabits : ∀ s, extra? = some s → Inhabits g s x) :
    (∀ s, e = some s → Inhabits g s x) ∧ ∀ s, f = some s → Inhabits g s x := by
  cases met with
  | @both s t r met =>
    have both := met (left s rfl) (right t rfl) x ordered (inhabits r rfl)
    exact ⟨fun s' equal => some.inj equal ▸ both.1, fun t' equal => some.inj equal ▸ both.2⟩
  | left s => exact ⟨inhabits, nofun⟩
  | right f => exact ⟨nofun, inhabits⟩

theorem property?_of_mem_ascending (ascending : ps.Pairwise fun p q => p.name < q.name)
    (member : p ∈ ps) : property? ps p.name = some p :=
  property?_of_mem (pairwise_map.mpr (ascending.imp ne_of_lt)) member

theorem narrows_objects {m n k : Nat} (first : Forall₂ (MetProperty (Narrows g) qs f) ps left)
    (second : Forall₂ (MetProperty (Narrows g) [] e) (undeclared ps qs) right)
    (others : MetExtra (Narrows g) e f extra?) :
    Narrows g (object m ps e) (object n qs f)
      (object k (sortProperties (left ++ right)) extra?) := by
  intro orderly orderly' v ordered inhabits
  obtain ⟨entries, keyed, present, declared, extras⟩ := object_iff.mp inhabits
  have settled := everyMap_settle ordered
  have ascending : Ascending entries := ascending_of_ordered settled keyed
  have ordered' : ∀ entry ∈ entries, entry.2.ordered = true :=
    fun entry => everyMap_of_mem_entries settled keyed
  have member_left : ∀ {r : Property Shape}, r ∈ left → r ∈ sortProperties (left ++ right) :=
    fun member => mem_sortProperties.mpr (mem_append_left _ member)
  have member_right : ∀ {r : Property Shape}, r ∈ right → r ∈ sortProperties (left ++ right) :=
    fun member => mem_sortProperties.mpr (mem_append_right _ member)
  have inside : ∀ p ∈ ps, g.Orderly p.shape :=
    fun p member => orderly.piece (mem_pieces_of_mem_props member)
  have inside' : ∀ q ∈ qs, g.Orderly q.shape :=
    fun q member => orderly'.piece (mem_pieces_of_mem_props member)
  have extra : ∀ s, e = some s → g.Orderly s := by
    rintro s rfl
    exact orderly.piece mem_pieces_of_extra
  have extra' : ∀ s, f = some s → g.Orderly s := by
    rintro s rfl
    exact orderly'.piece mem_pieces_of_extra
  -- what the merged object says where the first one declares a property, and where only the second one does
  have here : ∀ p ∈ ps, (get? entries p.name = none → p.optional = true ∧
      ∀ q, property? qs p.name = some q → q.optional = true) ∧ ∀ x, get? entries p.name = some x →
      Allowed g qs f p x := by
    intro p member
    obtain ⟨r, member', met⟩ := exists_right_of_mem first member
    refine ⟨fun absent => met.optional (present r (member_left member') (met.name_eq ▸ absent)),
      fun x found => ?_⟩
    apply met.allowed (inside p member) inside' extra' (ordered' _ (mem_of_get?_eq_some found))
    exact declared r (member_left member') x (met.name_eq ▸ found)
  have there : ∀ q ∈ undeclared ps qs, (get? entries q.name = none → q.optional = true) ∧
      ∀ x, get? entries q.name = some x → Allowed g [] e q x := by
    intro q member
    obtain ⟨r, member', met⟩ := exists_right_of_mem second member
    refine ⟨fun absent =>
      (met.optional (present r (member_right member') (met.name_eq ▸ absent))).1, fun x found => ?_⟩
    apply met.allowed (inside' q (mem_undeclared.mp member).1)
      (by simp) extra (ordered' _ (mem_of_get?_eq_some found))
    exact declared r (member_right member') x (met.name_eq ▸ found)
  have elsewhere : ∀ entry ∈ entries, property? ps entry.1 = none → property? qs entry.1 = none →
      (∀ s, e = some s → Inhabits g s entry.2) ∧ ∀ s, f = some s → Inhabits g s entry.2 := by
    intro entry member unknown unknown'
    refine others.allowed extra extra' (ordered' entry member) fun s equal =>
      extras s equal entry member ?_
    rw [property?_eq_none_iff] at unknown unknown' ⊢
    intro r member
    rcases mem_append.mp (mem_sortProperties.mp member) with member | member
    · obtain ⟨p, member', met⟩ := exists_left_of_mem first member
      exact met.name_eq ▸ unknown p member'
    · obtain ⟨q, member', met⟩ := exists_left_of_mem second member
      exact met.name_eq ▸ unknown' q (mem_undeclared.mp member').1
  constructor
  · refine .object keyed (fun p member absent => ((here p member).1 absent).1)
      (fun p member x found => ((here p member).2 x found).own) ?_
    intro s equal entry member unknown
    cases known : property? qs entry.1 with
    | none => exact (elsewhere entry member unknown known).1 s equal
    | some q =>
      obtain ⟨member', named⟩ := mem_of_property? known
      have found : get? entries q.name = some entry.2 := named ▸ get?_eq_some_of_mem ascending member
      exact ((there q (mem_undeclared.mpr ⟨member', named ▸ unknown⟩)).2 entry.2 found).undeclared
        rfl s equal
  · have distinct : qs.Pairwise fun p q => p.name < q.name := of_decide_eq_true (orderly' _ .self)
    refine .object keyed (fun q member absent => ?_) (fun q member x found => ?_) ?_
    · cases known : property? ps q.name with
      | none => exact (there q (mem_undeclared.mpr ⟨member, known⟩)).1 absent
      | some p =>
        obtain ⟨member', named⟩ := mem_of_property? known
        exact ((here p member').1 (named ▸ absent)).2 q
          (named ▸ property?_of_mem_ascending distinct member)
    · cases known : property? ps q.name with
      | none => exact ((there q (mem_undeclared.mpr ⟨member, known⟩)).2 x found).own
      | some p =>
        obtain ⟨member', named⟩ := mem_of_property? known
        exact ((here p member').2 x (named ▸ found)).declared q
          (named ▸ property?_of_mem_ascending distinct member)
    · intro s equal entry member unknown
      cases known : property? ps entry.1 with
      | none => exact (elsewhere entry member known unknown).2 s equal
      | some p =>
        obtain ⟨member', named⟩ := mem_of_property? known
        have found : get? entries p.name = some entry.2 := named ▸ get?_eq_some_of_mem ascending member
        exact ((here p member').2 entry.2 found).undeclared (named ▸ unknown) s equal

theorem narrows_union {n : Nat} {inclusive : Bool} {members parts : List Shape} {b s : Shape}
    (each : Forall₂ (fun m part => Narrows g m b part) members parts)
    (united : ∃ k k', 0 ≤ k ∧ unionOf inclusive parts k = .ok (s, k')) :
    Narrows g (union n inclusive members) b s := by
  intro left right v ordered inhabits
  obtain ⟨k, k', -, run⟩ := united
  obtain ⟨grown?, taken, rfl, -⟩ := unionOf_eq_gathered run
  obtain ⟨part, member, inside⟩ := gathered_drawn taken k inclusive inhabits
  obtain ⟨m, member', narrows⟩ := exists_left_of_mem each member
  have both := narrows (left.piece member') right v ordered inside
  exact ⟨.union member' both.1, both.2⟩

theorem narrows_arrays {l m n : Nat} {s t items : Shape} (met : Narrows g s t items) :
    Narrows g (array l s) (array m t) (array n items) := by
  intro left right v ordered inhabits
  obtain ⟨vs, listed, each⟩ := array_iff.mp inhabits
  have both : ∀ x ∈ vs, Inhabits g s x ∧ Inhabits g t x := fun x member =>
    met (left.piece mem_cons_self) (right.piece mem_cons_self) x
      (everyMap_of_mem_items (everyMap_settle ordered) listed member) (each x member)
  exact ⟨.array listed fun x member => (both x member).1, .array listed fun x member => (both x member).2⟩

theorem narrows_rules (g : Graph) : MeetRules 0 g.target? (Narrows g) where
  same _ := fun _ _ _ _ inhabits => ⟨inhabits, inhabits⟩
  any_left _ := fun _ _ v _ inhabits => ⟨.any v, inhabits⟩
  any_right _ := fun _ _ v _ inhabits => ⟨inhabits, .any v⟩
  never_left b := .never _ b
  never_right a := .never a _
  unmerged n _ := fun _ _ v _ inhabits => by
    have each := forall_mem_append.mp (intersection_iff.mp inhabits)
    exact ⟨inhabits_conjuncts.mp each.1, inhabits_conjuncts.mp each.2⟩
  through _ opens opens' met := fun left right v ordered inhabits => by
    have both := met (orderly_opened opens left) (orderly_opened opens' right) v ordered inhabits
    exact ⟨(inhabits_opened opens).mpr both.1, (inhabits_opened opens').mpr both.2⟩
  kept_left _ opens opens' met := fun left right v ordered inhabits => by
    have both := met (orderly_opened opens left) (orderly_opened opens' right) v ordered
        ((inhabits_opened opens).mp inhabits)
    exact ⟨inhabits, (inhabits_opened opens').mpr both.2⟩
  kept_right _ opens opens' met := fun left right v ordered inhabits => by
    have both := met (orderly_opened opens left) (orderly_opened opens' right) v ordered
        ((inhabits_opened opens').mp inhabits)
    exact ⟨(inhabits_opened opens).mpr both.1, inhabits⟩
  union_left each united := narrows_union each united
  union_right each united := (narrows_union each united).symm
  arrays _ met := narrows_arrays met
  objects _ first second others := narrows_objects first second others
  void_left _ _ _ _ := .never _ _
  void_right _ _ _ _ := .never _ _
  literal_left _ proper met := narrows_meetLiteral proper met
  literal_right _ proper met := (narrows_meetLiteral proper met).symm
  flat left right proper proper' := narrows_meetPlain left right proper proper'
  apart _ _ _ _ _ _ := .never _ _

/-- A value that has the intersection of two orderly shapes has both. There is one unless literals
cannot be compared. -/
theorem intersect_narrows (g : Graph) (a b : Shape) (n : Nat) (left : g.Orderly a)
    (right : g.Orderly b) :
    (∃ s n', intersect g a b n = .ok (s, n') ∧ ∀ v : Value, v.ordered = true → Inhabits g s v →
      Inhabits g a v ∧ Inhabits g b v) ∨ intersect g a b n = .error .incomparable ∧
      ¬ (g.Documented a ∧ g.Documented b) := by
  cases run : intersect g a b n with
  | error e =>
    obtain ⟨rfl, loose⟩ := intersect_compares g a b n e run
    exact .inr ⟨rfl, loose⟩
  | ok result =>
    have narrows : Narrows g a b result.1 :=
      intersect_ensures (narrows_rules g) a b n result.1 result.2 run
    exact .inl ⟨result.1, result.2, rfl, narrows left right⟩

def ring : Shape := .object 0 [⟨"next", .handle 0, true, none⟩] none

def sized : Shape := .object 1 [⟨"next", .handle 1, true, none⟩, ⟨"size", .number false, false, none⟩] none

def rings : Graph := ⟨#[⟨"Ring", "", some ring⟩, ⟨"Sized", "", some sized⟩], 2⟩

theorem rings_narrow :
    rings.Orderly (.handle 0) ∧ rings.Orderly (.handle 1) ∧ ∃ s n', intersect rings (.handle 0)
      (.handle 1) 2 = .ok (s, n') ∧ ∀ v : Value, v.ordered = true → Inhabits rings s v →
      Inhabits rings (.handle 0) v ∧ Inhabits rings (.handle 1) v := by
  have known : ∀ s ∈ [handle 0, handle 1], ∀ t ∈ s.subshapes ++ graphShapes rings,
      t.orderly = true ∧ t.kind ≠ .literal := by decide +kernel
  have orderly : ∀ s ∈ [handle 0, handle 1], rings.Orderly s :=
    fun s member t reached => (known s member t reached.mem_shapes).1
  have documented : ∀ s ∈ [handle 0, handle 1], rings.Documented s := fun s member n w reached =>
    absurd rfl (known s member _ reached.mem_shapes).2
  have left := orderly (handle 0) (by simp)
  have right := orderly (handle 1) (by simp)
  refine ⟨left, right, (intersect_narrows rings _ _ 2 left right).resolve_right fun broken =>
    broken.2 ⟨?_, ?_⟩⟩
  · exact documented _ (by simp)
  · exact documented _ (by simp)

end Shape

end JsonShape
