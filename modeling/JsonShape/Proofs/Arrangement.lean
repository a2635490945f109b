import JsonShape.Proofs.Decoding
import JsonShape.Proofs.Meet
import JsonShape.Proofs.Termination

/-! How shapes are arranged: the names of properties ascend, and unions and intersections are put
together from different members. All that is built of arranged shapes is arranged. -/
namespace JsonShape
open List

variable {extra? : Option Shape} {n : Nat} {p : Property Shape}

namespace Shape

variable {props : List (Property Shape)}

def halve (test : Nat → Bool) (low high : Nat) : Nat :=
  if low < high then
    if test ((low + high) / 2) then
      halve test low ((low + high) / 2) else halve test ((low + high) / 2 + 1) high
  else low
termination_by high - low

theorem halve_lowest {test : Nat → Bool} (upward : ∀ i j, i ≤ j → test i = true → test j = true)
    (low high : Nat) (ordered : low ≤ high) :
    halve test low high ≤ high ∧ (∀ i, low ≤ i → i < halve test low high → test i = false) ∧
      (halve test low high < high → test (halve test low high) = true) := by
  fun_induction halve test low high with
  | case1 low high less passes ih =>
    obtain ⟨below, failing, passing⟩ := ih (by omega)
    refine ⟨by omega, failing, fun _ => ?_⟩
    by_cases inside : halve test low ((low + high) / 2) < (low + high) / 2
    · exact passing inside
    · rwa [show halve test low ((low + high) / 2) = (low + high) / 2 by omega]
  | case2 low high less fails ih =>
    obtain ⟨below, failing, passing⟩ := ih (by omega)
    refine ⟨below, fun i above under => ?_, passing⟩
    by_cases late : (low + high) / 2 + 1 ≤ i
    · exact failing i late under
    · exact Bool.eq_false_iff.mpr fun passes => fails (upward i _ (by omega) passes)
  | case3 low high done =>
    exact ⟨ordered, fun i above under => absurd above (by omega), fun less =>
      absurd less (by omega)⟩

def atLeast (props : List (Property Shape)) (name : String) (i : Nat) : Bool :=
  match props[i]? with
  | some p => decide (name ≤ p.name)
  | none => true

def search (props : List (Property Shape)) (name : String) : Option (Property Shape) :=
  props[halve (atLeast props name) 0 props.length]?.filter (·.name == name)

theorem atLeast_eq {i : Nat} (inside : i < props.length) (name : String) :
    atLeast props name i = decide (name ≤ props[i].name) := by
  rw [atLeast, getElem?_eq_getElem inside]

theorem search_eq_some_iff (ascending : props.Pairwise fun p q => p.name < q.name) {name : String}
    : search props name = some p ↔ p ∈ props ∧ p.name = name := by
  have upward : ∀ i j, i ≤ j → atLeast props name i = true → atLeast props name j = true := by
    intro i j ordered passes
    rcases Nat.lt_or_ge j props.length with inside | outside
    · rw [atLeast_eq (ordered.trans_lt inside), decide_eq_true_eq] at passes
      rw [atLeast_eq inside, decide_eq_true_eq]
      rcases Nat.eq_or_lt_of_le ordered with rfl | less
      · exact passes
      · exact passes.trans (pairwise_iff_getElem.mp ascending i j _ inside less).le
    · rw [atLeast, getElem?_eq_none outside]
  obtain ⟨-, failing, passing⟩ := halve_lowest upward 0 props.length (Nat.zero_le _)
  unfold search
  generalize halve (atLeast props name) 0 props.length = place at failing passing
  rw [Option.filter_eq_some_iff, beq_iff_eq]
  refine and_congr_left fun named => ⟨fun found => mem_of_getElem? found, fun member => ?_⟩
  obtain ⟨i, inside, rfl⟩ := getElem_of_mem member
  -- the place is not behind the property, and a name before it would be below
  have early : place ≤ i := by
    by_contra late
    have fails := failing i (Nat.zero_le _) (Nat.lt_of_not_le late)
    rw [atLeast_eq inside, named, decide_eq_false_iff_not] at fails
    exact fails le_rfl
  have passes := passing (early.trans_lt inside)
  rw [atLeast_eq (early.trans_lt inside), decide_eq_true_eq] at passes
  rcases Nat.eq_or_lt_of_le early with rfl | less
  · exact getElem?_eq_getElem inside
  · have before := pairwise_iff_getElem.mp ascending place i (early.trans_lt inside) inside less
    rw [named] at before
    exact absurd passes (not_le_of_gt before)

theorem search_eq_property? (ascending : props.Pairwise fun p q => p.name < q.name)
    (name : String) : search props name = property? props name := by
  ext p
  rw [search_eq_some_iff ascending]
  constructor
  · rintro ⟨member, rfl⟩
    exact property?_of_mem_ascending ascending member
  · exact mem_of_property?

variable {flat : Prop} {s t : Shape}

/-- Members of a union: none of them is put together from alternatives, and none is found equal to a
later one. -/
structure Varied (members : List Shape) : Prop where
  single : ∀ m ∈ members, m.kind ≠ .any ∧ m.kind ≠ .never ∧ m.kind ≠ .union
  distinct : members.Pairwise fun m n => m.equal n = .ok false

/-- A shape that is arranged, its parts aside. Whether intersections may be members of intersections
is left open. -/
def Arranged (flat : Prop) : Shape → Prop
  | object _ props _ => props.Pairwise fun p q => p.name < q.name
  | union _ _ members => 2 ≤ members.length ∧ Varied members
  | intersection _ members => 2 ≤ members.length ∧ (flat → ∀ m ∈ members, m.kind ≠ .intersection)
  | _ => True

def Trim (flat : Prop) (s : Shape) : Prop := ∀ t ∈ s.subshapes, t.Arranged flat

theorem Trim.own (trim : s.Trim flat) : s.Arranged flat := trim s s.mem_subshapes_self

theorem Trim.piece (trim : s.Trim flat) (member : t ∈ s.pieces) : t.Trim flat :=
  fun r inside => trim r (mem_subshapes_iff.mpr (.inr ⟨t, member, inside⟩))

theorem trim_of_pieces (own : s.Arranged flat) (each : ∀ p ∈ s.pieces, p.Trim flat) : s.Trim flat := by
  intro t inside
  rcases mem_subshapes_iff.mp inside with rfl | ⟨p, member, deeper⟩
  · exact own
  · exact each p member t deeper

theorem trim_flat (plain : s.isFlat = true) : s.Trim flat := by
  refine trim_of_pieces ?_ ?_
  · cases s <;> first | exact trivial | exact absurd plain Bool.false_ne_true
  · cases s <;> first | exact absurd plain Bool.false_ne_true | exact nofun

theorem trim_object (ascending : props.Pairwise fun p q => p.name < q.name)
    (each : ∀ p ∈ props, p.shape.Trim flat) (extra : ∀ s, extra? = some s → s.Trim flat) :
    (object n props extra?).Trim flat := by
  exact trim_of_pieces ascending (forall_mem_pieces_object each extra)

theorem trim_choice {c : Shape} (trim : s.Trim flat) (choice : Choice s c) : c.Trim flat := by
  induction choice with
  | self => exact trim
  | member member _ ih => exact ih (trim.piece member)

variable {shapes : List Shape}

theorem gathered_trim {grown? : Option (List Shape)} (run : addMembers [] shapes = .ok grown?)
    (each : ∀ s ∈ shapes, s.Trim flat) (n : Nat) (inclusive : Bool) :
    (gathered n inclusive grown?).Trim flat := by
  rw [addMembers_eq_enlist] at run
  cases grown? with
  | none => exact trim_flat rfl
  | some grown =>
    have enlisted := enlist_some run
    have origin : ∀ m ∈ grown, ∃ s ∈ shapes, Choice s m ∧ m.kind ≠ .never := by
      intro m member
      obtain ⟨s, listed, inside⟩ := mem_flatMap.mp ((enlisted.drawn m member).resolve_left not_mem_nil)
      exact ⟨s, listed, mem_spread_iff.mp inside⟩
    have inside : ∀ m ∈ grown, m.Trim flat := by
      intro m member
      obtain ⟨s, listed, choice, -⟩ := origin m member
      exact trim_choice (each s listed) choice
    have single : ∀ m ∈ grown, m.kind ≠ .any ∧ m.kind ≠ .never ∧ m.kind ≠ .union := by
      intro m member
      obtain ⟨s, listed, choice, proper⟩ := origin m member
      exact ⟨enlisted.proper m ((enlisted.drawn m member).resolve_left not_mem_nil), proper, choice.single⟩
    match grown with
    | [] => exact trim_flat rfl
    | [s] => exact inside s mem_cons_self
    | s :: t :: rest => exact trim_of_pieces ⟨Nat.le_add_left _ _, single, enlisted.distinct .nil⟩ inside

theorem unionOf_trim (inclusive : Bool) (each : ∀ s ∈ shapes, s.Trim flat) :
    (unionOf inclusive shapes).Ensures (Trim flat) := by
  intro n s n' run
  obtain ⟨grown?, taken, rfl, -⟩ := unionOf_eq_gathered run
  exact gathered_trim taken each n inclusive

end Shape

namespace Graph

open Shape

variable {flat : Prop} {g g' : Graph} {s t r : Shape}

def Arranged (flat : Prop) (g : Graph) (s : Shape) : Prop := ∀ t, g.Reaches s t → t.Arranged flat

theorem Arranged.trim (arranged : g.Arranged flat s) : s.Trim flat :=
  fun t inside => arranged t (.of_mem_subshapes inside)

theorem Arranged.reached (arranged : g.Arranged flat s) (reached : g.Reaches s t) : g.Arranged flat t :=
  fun r deeper => arranged r (reached.trans deeper)

theorem Arranged.piece (arranged : g.Arranged flat s) (member : t ∈ s.pieces) : g.Arranged flat t :=
  arranged.reached (Reaches.self.piece member)

theorem Arranged.opened (arranged : g.Arranged flat s) (found : opened g.target? s = some t) :
    g.Arranged flat t := by
  cases s with
  | handle id => exact arranged.reached (Reaches.self.target found)
  | _ => exact Option.some.inj found ▸ arranged

theorem arranged_of_trim (trim : s.Trim flat)
    (bound : ∀ id s, g.target? id = some s → s.Trim flat) : g.Arranged flat s := by
  have inner : ∀ t, g.Reaches s t → t.Trim flat := by
    intro t reached
    induction reached with
    | self => exact trim
    | piece _ member ih => exact ih.piece member
    | target _ found _ => exact bound _ _ found
  exact fun t reached => (inner t reached).own

end Graph

namespace Shape

variable {flat : Prop} {g : Graph} {a b s : Shape}

def MeetsTrim (flat : Prop) (g : Graph) (a b s : Shape) : Prop :=
  g.Arranged flat a → g.Arranged flat b → s.Trim flat

theorem conjuncts_arranged (arranged : g.Arranged flat a) :
    (∀ m ∈ conjuncts a, g.Arranged flat m) ∧ conjuncts a ≠ [] ∧
      (flat → ∀ m ∈ conjuncts a, m.kind ≠ .intersection) := by
  cases a with
  | intersection n members =>
    obtain ⟨length, apart⟩ := arranged _ .self
    refine ⟨fun m member => arranged.piece member, fun empty => ?_, apart⟩
    rw [show members = [] from empty] at length
    cases length
  | _ => exact ⟨forall_mem_singleton.mpr arranged, nofun, fun _ => forall_mem_singleton.mpr nofun⟩

theorem trim_unmerged (left : g.Arranged flat a) (right : g.Arranged flat b) (n : Nat) :
    (intersection n (conjuncts a ++ conjuncts b)).Trim flat := by
  obtain ⟨inside, some, apart⟩ := conjuncts_arranged left
  obtain ⟨inside', some', apart'⟩ := conjuncts_arranged right
  refine trim_of_pieces ⟨?_, fun holds => forall_mem_append.mpr ⟨apart holds, apart' holds⟩⟩ ?_
  · have one := length_pos_iff.mpr some
    have two := length_pos_iff.mpr some'
    rw [length_append]
    omega
  · exact forall_mem_append.mpr ⟨fun m member => (inside m member).trim, fun m member =>
      (inside' m member).trim⟩

theorem trim_meetLiteral {v : Value} (other : b.Trim flat)
    (met : meetLiteral (literal n v) v b = .ok s) : s.Trim flat := by
  have own : (literal n v).Trim flat := trim_of_pieces trivial nofun
  by_cases literal : b.kind = .literal
  · obtain ⟨m, w, rfl⟩ := exists_of_kind_literal literal
    obtain ⟨equal, -, met⟩ := bind_eq_ok_iff.mp met
    rw [← Except.ok.inj met]
    split_ifs
    · exact own
    · exact trim_flat rfl
  · rw [meetLiteral_of_ne literal] at met
    split_ifs at met <;> rw [← Except.ok.inj met]
    · exact own
    · exact other
    · exact trim_flat rfl

theorem MetProperty.trim {others : List (Property Shape)} {r : Property Shape}
    (met : MetProperty (MeetsTrim flat g) others extra? p r) (own : g.Arranged flat p.shape)
    (inside : ∀ q ∈ others, g.Arranged flat q.shape)
    (extra : ∀ x, extra? = some x → g.Arranged flat x) : r.shape.Trim flat := by
  cases met with
  | declared found met => exact met own (inside _ (mem_of_property? found).1)
  | extra _ equal met => exact met own (extra _ equal)
  | free => exact own.trim

theorem meetsTrim_objects {m k : Nat} {ps qs left right : List (Property Shape)}
    {e f : Option Shape} (first : Forall₂ (MetProperty (MeetsTrim flat g) qs f) ps left)
    (second : Forall₂ (MetProperty (MeetsTrim flat g) [] e) (undeclared ps qs) right)
    (others : MetExtra (MeetsTrim flat g) e f extra?) :
    MeetsTrim flat g (object m ps e) (object n qs f)
      (object k (sortProperties (left ++ right)) extra?) := by
  intro here there
  have inside : ∀ p ∈ ps, g.Arranged flat p.shape :=
    fun p member => here.piece (mem_pieces_of_mem_props member)
  have inside' : ∀ q ∈ qs, g.Arranged flat q.shape :=
    fun q member => there.piece (mem_pieces_of_mem_props member)
  have extra : ∀ x, e = some x → g.Arranged flat x := by
    rintro x rfl
    exact here.piece mem_pieces_of_extra
  have extra' : ∀ x, f = some x → g.Arranged flat x := by
    rintro x rfl
    exact there.piece mem_pieces_of_extra
  have named : ∀ {R : Property Shape → Property Shape → Prop} {props met : List (Property Shape)},
      Forall₂ R props met →
      (∀ p r, R p r → r.name = p.name) → met.map (·.name) = props.map (·.name) := by
    intro R props met each same
    induction each with
    | nil => rfl
    | cons here _ ih => rw [map_cons, map_cons, same _ _ here, ih]
  refine trim_object (merged_ascending (here _ .self) (there _ .self)
    (named first fun _ _ met => met.name_eq)
    (named second fun _ _ met => met.name_eq)) (fun r member => ?_) fun x equal => ?_
  · rcases mem_append.mp (mem_sortProperties.mp member) with early | late
    · obtain ⟨p, listed, met⟩ := exists_left_of_mem first early
      exact met.trim (inside p listed) inside' extra'
    · obtain ⟨q, listed, met⟩ := exists_left_of_mem second late
      exact met.trim (inside' q (mem_undeclared.mp listed).1) nofun extra
  · subst equal
    cases others with
    | both met => exact met (extra _ rfl) (extra' _ rfl)
    | left => exact (extra _ rfl).trim
    | right => exact (extra' _ rfl).trim

theorem meetsTrim_union {inclusive : Bool} {members parts : List Shape}
    (inside : ∀ m ∈ members, g.Arranged flat m) (other : g.Arranged flat b)
    (each : Forall₂ (fun m part => MeetsTrim flat g m b part) members parts)
    (united : ∃ k k', 0 ≤ k ∧ unionOf inclusive parts k = .ok (s, k')) : s.Trim flat := by
  obtain ⟨k, k', -, run⟩ := united
  refine unionOf_trim inclusive (fun part member => ?_) k s k' run
  obtain ⟨m, listed, met⟩ := exists_left_of_mem each member
  exact met (inside m listed) other

theorem meetsTrim_rules (flat : Prop) (g : Graph) : MeetRules 0 g.target? (MeetsTrim flat g) where
  same _ left _ := left.trim
  any_left _ _ right := right.trim
  any_right _ left _ := left.trim
  never_left _ _ _ := trim_flat rfl
  never_right _ _ _ := trim_flat rfl
  unmerged n _ left right := trim_unmerged left right n
  through _ found found' met left right := met (left.opened found) (right.opened found')
  kept_left _ _ _ _ left _ := left.trim
  kept_right _ _ _ _ _ right := right.trim
  union_left each united left right :=
    meetsTrim_union (fun _ member => left.piece member) right each united
  union_right each united left right :=
    meetsTrim_union (fun _ member => right.piece member) left each united
  arrays _ met left right := trim_of_pieces trivial
    (forall_mem_singleton.mpr (met (left.piece mem_cons_self) (right.piece mem_cons_self)))
  objects _ first second others := meetsTrim_objects first second others
  void_left _ _ _ _ _ _ := trim_flat rfl
  void_right _ _ _ _ _ _ := trim_flat rfl
  literal_left _ _ met _ right := trim_meetLiteral right.trim met
  literal_right _ _ met left _ := trim_meetLiteral left.trim met
  flat left right _ _ here there := by
    unfold meetPlain
    split_ifs
    · exact there.trim
    · exact here.trim
    · exact trim_flat rfl
    · split
      · exact there.trim
      · exact here.trim
  apart _ _ _ _ _ _ _ _ := trim_flat rfl

theorem intersect_trim (left : g.Arranged flat a) (right : g.Arranged flat b) :
    (intersect g a b).Ensures (Trim flat) :=
  fun n s n' run => intersect_ensures (meetsTrim_rules flat g) a b n s n' run left right

theorem trim_builds (flat : Prop) : Builds (Trim flat) Nodup fun _ => True where
  flat := trim_flat
  handle _ := trim_of_pieces trivial nofun
  literal _ _ _ := trim_of_pieces trivial nofun
  array _ _ inside := trim_of_pieces trivial (forall_mem_singleton.mpr inside)
  object _ _ _ named each extra :=
    trim_object (sortProperties_ascending named)
    (fun p member => each p (mem_sortProperties.mp member)) extra
  union inclusive _ each := unionOf_trim inclusive each
  meet _ bound _ _ left right :=
    intersect_trim (Graph.arranged_of_trim left bound) (Graph.arranged_of_trim right bound)
  unnamed := .nil

variable {onSerial onHandle : Nat → Nat} {P : Shape → Prop}

theorem arranged_rename (invariant : Invariant onSerial onHandle P) (inside : ∀ p ∈ s.pieces, P p) :
    (s.rename onSerial onHandle).Arranged flat ↔ s.Arranged flat := by
  cases s with
  | object n props extra? =>
    rw [rename_object]
    exact pairwise_map
  | union n inclusive members =>
    rw [rename_union]
    refine and_congr (by rw [length_map]) ⟨fun ⟨single, distinct⟩ =>
      ⟨fun m member => ?_, ?_⟩, fun ⟨single, distinct⟩ => ⟨?_, ?_⟩⟩
    · simpa only [kind_rename] using single _ (mem_map_of_mem member)
    · refine (pairwise_map.mp distinct).imp_of_mem fun here there differ => ?_
      rwa [invariant.equal (inside _ here) (inside _ there)] at differ
    · exact forall_mem_map.mpr fun m member => by simpa only [kind_rename] using single m member
    · refine pairwise_map.mpr (distinct.imp_of_mem fun here there differ => ?_)
      rwa [invariant.equal (inside _ here) (inside _ there)]
  | intersection n members =>
    rw [rename_intersection]
    refine and_congr (by rw [length_map]) (forall_congr' fun _ => ?_)
    simp only [forall_mem_map, kind_rename]
  | _ => exact Iff.rfl

theorem trim_rename (invariant : Invariant onSerial onHandle P)
    (inner : ∀ s, P s → ∀ p ∈ s.pieces, P p) (own : P s) :
    (s.rename onSerial onHandle).Trim flat ↔ s.Trim flat := by
  induction s using pieces_induction with
  | step s ih =>
    have here : (s.rename onSerial onHandle).Arranged flat ↔ s.Arranged flat :=
      arranged_rename invariant (inner s own)
    have pieces := pieces_rename onSerial onHandle s
    constructor
    · intro trim
      refine trim_of_pieces (here.mp trim.own) fun p member =>
        (ih p member (inner s own p member)).mp (trim.piece ?_)
      exact pieces ▸ mem_map_of_mem member
    · intro trim
      refine trim_of_pieces (here.mpr trim.own) ?_
      rw [pieces]
      exact forall_mem_map.mpr fun p member => (ih p member (inner s own p member)).mpr (trim.piece member)

theorem trim_shift (d : Shift) : (s.shift d).Trim flat ↔ s.Trim flat :=
  trim_rename (invariant_shift d) (fun _ _ _ _ => trivial) trivial

variable {leaf : Shape → Shape} {live : Nat → Prop}

theorem united_trim (inclusive : Bool) {shapes : List Shape} (each : ∀ s ∈ shapes, s.Trim flat) :
    (united inclusive shapes).Trim flat := by
  unfold united
  cases run : addMembers [] shapes with
  | error e => exact trim_flat rfl
  | ok grown? => exact gathered_trim run each 0 inclusive

/-- No intersection in the shape has a member that is projected to an intersection. -/
def StaysFlat (leaf : Shape → Shape) (s : Shape) : Prop :=
  ∀ n members, s = intersection n members → ∀ m ∈ members, (m.projected leaf).kind ≠ .intersection

theorem projected_trim (leaves : ∀ s : Shape, s.isLeaf = true → (leaf s).Trim flat) (trim : s.Trim flat)
    (stays : flat → ∀ t ∈ s.subshapes, StaysFlat leaf t) : (s.projected leaf).Trim flat := by
  induction s using pieces_induction with
  | step s ih =>
    have inside : ∀ p ∈ s.pieces, (p.projected leaf).Trim flat := fun p member =>
      ih p member (trim.piece member) fun holds t deeper =>
        stays holds t (mem_subshapes_iff.mpr (.inr ⟨p, member, deeper⟩))
    cases s with
    | array n items => exact trim_of_pieces trivial (forall_mem_singleton.mpr (inside items mem_cons_self))
    | object n props extra? =>
      refine trim_of_pieces ?_ ?_
      · rw [projected_object]
        exact pairwise_map.mpr trim.own
      · rw [pieces_projected_object]
        exact forall_mem_map.mpr inside
    | union n inclusive members =>
      rw [projected_union]
      exact united_trim inclusive (forall_mem_map.mpr inside)
    | intersection n members =>
      rw [projected_intersection]
      refine trim_of_pieces ⟨by rw [length_map]; exact trim.own.1, fun holds => ?_⟩
        (forall_mem_map.mpr inside)
      exact forall_mem_map.mpr (stays holds _ (mem_subshapes_self _) n members rfl)
    | handle id => exact trim
    | _ => exact leaves _ rfl

theorem bareLeaf_trim (plain : s.isLeaf = true) : (bareLeaf s).Trim flat := by
  cases s <;> first | exact absurd plain Bool.false_ne_true | exact trim_of_pieces trivial nofun

theorem looseLeaf_trim (plain : s.isLeaf = true) : (looseLeaf s).Trim flat := by
  have both : ∀ {s : Shape}, s.isRich = true → (union 0 false [s, string]).Trim flat := by
    intro s rich
    have other : s.kind ≠ string.kind := by
      cases s <;> first | exact absurd rich Bool.false_ne_true | exact nofun
    have single : s.kind ≠ .any ∧ s.kind ≠ .never ∧ s.kind ≠ .union := by
      refine ⟨?_, ?_, ?_⟩ <;> cases s <;> first | exact absurd rich Bool.false_ne_true | exact nofun
    refine trim_of_pieces ⟨Nat.le_refl _, ?_, ?_⟩ ?_
    · exact forall_mem_cons.mpr ⟨single, forall_mem_singleton.mpr ⟨nofun, nofun, nofun⟩⟩
    · exact .cons (forall_mem_singleton.mpr (equal_of_kind_ne other)) (pairwise_singleton _ _)
    · refine forall_mem_cons.mpr ⟨?_, forall_mem_singleton.mpr (trim_flat rfl)⟩
      cases s <;> first | exact trim_flat rfl | exact absurd rich Bool.false_ne_true
  cases s <;> first | exact absurd plain Bool.false_ne_true | exact both rfl |
    exact trim_of_pieces trivial nofun

end Shape

end JsonShape
