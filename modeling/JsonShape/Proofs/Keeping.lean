import JsonShape.Proofs.Guard
import JsonShape.Proofs.MeetRenaming
import Mathlib

/-! Intersections lose nothing. A document that has two shapes without handles has their
intersection, unless a literal of one shape faces its description in the other one. -/
namespace JsonShape.Shape

open Fresh List Option Entries Inhabits Conformance

variable {g : Graph} {admitted : Shape → Prop} {n : Nat}
variable {a b s : Shape}

variable {v : Value}

theorem inhabits_flat_iff (document : v.Document) (flat : s.isFlat = true) (poor : s.isRich = false)
    (proper : s ≠ any) : Inhabits g s v ↔ v.literalKind = s.kind := by
  rw [flat_iff flat proper, document.settle_eq]
  cases s with
  | any => exact absurd rfl proper
  | null | boolean | number | string | never =>
    cases document <;> simp [fitsKind, kind, Value.literalKind, Value.isNumber, Value.isText]
  | dateTime | binary => cases poor
  | _ => cases flat

theorem inhabits_literal_iff {w : Value} (document : v.Document) (document' : w.Document) :
    Inhabits g (literal n w) v ↔ v.meaning = w.meaning := by
  have decides := Value.matchesLiteral_decides document document'
  rw [literal_iff, document.settle_eq, document.plain_eq]
  exact ⟨decides.of_eq_ok_true, decides.eq_ok_true⟩

theorem literalKind_of_inhabits (document : v.Document)
    (single : s.isFlat = true ∨ s.kind = .array ∨ s.kind = .object) (poor : s.isRich = false)
    (proper : s ≠ any) (inhabits : Inhabits g s v) : v.literalKind = s.kind := by
  rcases single with flat | list | entries
  · exact (inhabits_flat_iff document flat poor proper).mp inhabits
  · obtain ⟨n, items, rfl⟩ := exists_of_kind_array list
    obtain ⟨vs, listed, -⟩ := array_iff.mp inhabits
    rw [document.settle_eq] at listed
    cases document <;> first | rfl | cases listed
  · obtain ⟨n, props, extra?, rfl⟩ := exists_of_kind_object entries
    obtain ⟨entries, keyed, -⟩ := object_iff.mp inhabits
    rw [document.settle_eq] at keyed
    cases document <;> first | rfl | cases keyed

/-- Somewhere a literal of one shape faces a list or an object of the other one that it fits. -/
inductive Opposed (g : Graph) : Shape → Shape → Prop
  | literal {n : Nat} {v : Value} {b : Shape} (parts : b.kind = .array ∨ b.kind = .object)
      (fits : Inhabits g b v) :
      Opposed g (literal n v) b
  | symm {a b : Shape} (opposed : Opposed g a b) : Opposed g b a
  | member {n : Nat} {inclusive : Bool} {members : List Shape} {m b : Shape} (member : m ∈ members)
      (opposed : Opposed g m b) :
      Opposed g (union n inclusive members) b
  | items {m n : Nat} {s t : Shape} (opposed : Opposed g s t) : Opposed g (array m s) (array n t)
  | declared {m n : Nat} {ps qs : List (Property Shape)} {e f : Option Shape} {p q : Property Shape}
      (member : p ∈ ps)
      (found : property? qs p.name = some q) (opposed : Opposed g p.shape q.shape) :
      Opposed g (object m ps e) (object n qs f)
  | undeclared {m n : Nat} {ps qs : List (Property Shape)} {e : Option Shape} {p : Property Shape}
      {s : Shape} (member : p ∈ ps)
      (unknown : property? qs p.name = none) (opposed : Opposed g p.shape s) :
      Opposed g (object m ps e) (object n qs (some s))
  | extras {m n : Nat} {ps qs : List (Property Shape)} {s t : Shape} (opposed : Opposed g s t) :
      Opposed g (object m ps (some s)) (object n qs (some t))

/-- Which leaves and objects are admitted, so that intersections stay among them: no richer forms of
string and no handles. -/
structure Simple (admitted : Shape → Prop) : Prop where
  any : admitted any
  never : admitted never
  poor : ∀ s, admitted s → s.isRich = false
  bare : ∀ id, ¬ admitted (handle id)
  merged :
      ∀ {m n : Nat} {ps qs left right : List (Property Shape)} {e f : Option Shape} (k : Nat)
      (extra? : Option Shape),
    admitted (object m ps e) → admitted (object n qs f) → left.map (·.name) = ps.map (·.name) →
      right.map (·.name) = (undeclared ps qs).map (·.name) →
      admitted (object k (sortProperties (left ++ right)) extra?)

/-- A tidy shape that documents have if they have two others, unless these are opposed. -/
def Keeps (g : Graph) (admitted : Shape → Prop) (a b s : Shape) : Prop :=
  a.Tidy admitted → b.Tidy admitted → ¬ Opposed g a b →
    s.Tidy admitted ∧ ∀ v : Value, v.Document → Inhabits g a v → Inhabits g b v → Inhabits g s v

theorem Keeps.symm (keeps : Keeps g admitted a b s) : Keeps g admitted b a s := by
  intro left right apart
  obtain ⟨tidy, kept⟩ := keeps right left fun opposed => apart opposed.symm
  exact ⟨tidy, fun v document here there => kept v document there here⟩

theorem Keeps.never (simple : Simple admitted)
    (disjoint : a.Tidy admitted → b.Tidy admitted → ¬ Opposed g a b → ∀ v : Value, v.Document →
      Inhabits g a v → ¬ Inhabits g b v) : Keeps g admitted a b never := by
  intro left right apart
  refine ⟨.flat rfl simple.never, fun v document here there => ?_⟩
  exact absurd there (disjoint left right apart v document here)

theorem Tidy.isRich_eq (simple : Simple admitted) (tidy : s.Tidy admitted) : s.isRich = false := by
  cases tidy with
  | flat _ leaf => exact simple.poor s leaf
  | _ => rfl

theorem Tidy.kind_ne (simple : Simple admitted) (tidy : s.Tidy admitted) :
    s.kind ≠ .named ∧ s.kind ≠ .intersection := by
  cases tidy with
  | flat flat leaf => cases s <;> simp_all [kind, isFlat]
  | handle leaf => exact absurd leaf (simple.bare _)
  | _ => simp [kind]

theorem meetLiteral_eq (poor : b.isRich = false) (other : b.kind ≠ .literal) :
    meetLiteral (literal n v) v b = .ok (if v.literalKind = b.kind ∧ b.kind ≠ .array ∧
      b.kind ≠ .object then literal n v else never) := by
  rw [meetLiteral_of_ne other, poor, Bool.and_false, if_neg Bool.false_ne_true]
  simp only [Bool.and_eq_true, beq_iff_eq, bne_iff_ne, and_assoc]
  split_ifs <;> rfl

theorem keeps_meetLiteral (simple : Simple admitted)
    (single : b.kind = .literal ∨ b.isFlat = true ∨ b.kind = .array ∨ b.kind = .object) (proper : b.Proper)
    (met : meetLiteral (literal n v) v b = .ok s) : Keeps g admitted (literal n v) b s := by
  intro left right apart
  have document := left.of_literal.1
  by_cases other : b.kind = .literal
  · obtain ⟨m, w, rfl⟩ := exists_of_kind_literal other
    have document' := right.of_literal.1
    have decides := Value.literalEqual_decides document document'
    by_cases same : v.meaning = w.meaning
    · rw [meetLiteral, decides.eq_ok_true same] at met
      obtain rfl : literal n v = s := Except.ok.inj met
      exact ⟨left, fun x _ here _ => here⟩
    · rw [meetLiteral, decides.eq_ok_false same] at met
      obtain rfl : never = s := Except.ok.inj met
      refine Keeps.never simple (fun _ _ _ x document'' here there => same ?_) left right apart
      rw [← (inhabits_literal_iff document'' document).mp here,
        (inhabits_literal_iff document'' document').mp there]
  have rest := single.resolve_left other
  have poor := right.isRich_eq simple
  have some : b ≠ .any := fun equal => proper.1 (equal ▸ rfl)
  rw [meetLiteral_eq poor other] at met
  obtain rfl := Except.ok.inj met
  split_ifs with kinds
  · exact ⟨left, fun x _ here _ => here⟩
  · refine Keeps.never simple (fun _ _ _ x document' here there => ?_) left right apart
    -- the value means what the literal means, so the literal has the other shape too
    have same := (inhabits_literal_iff document' document).mp here
    have kind : v.literalKind = b.kind := by
      rw [← Value.literalKind_eq_of_meaning_eq document' document same]
      exact literalKind_of_inhabits document' rest poor some there
    refine apart (.literal ?_ (there.of_meaning_eq document' document same))
    by_contra neither
    exact kinds ⟨kind, not_or.mp neither⟩

theorem keeps_apart (simple : Simple admitted)
    (left : a.isFlat = true ∨ a.kind = .array ∨ a.kind = .object)
    (right : b.isFlat = true ∨ b.kind = .array ∨ b.kind = .object) (proper : a.Proper)
    (proper' : b.Proper) (kinds : a.kind ≠ b.kind) : Keeps g admitted a b never := by
  have some : ∀ {s : Shape}, s.Proper → s ≠ .any := fun proper equal => proper.1 (equal ▸ rfl)
  refine .never simple fun tidy tidy' _ v document here there => kinds ?_
  rw [← literalKind_of_inhabits document left (tidy.isRich_eq simple) (some proper) here,
    literalKind_of_inhabits document right (tidy'.isRich_eq simple) (some proper') there]

theorem keeps_meetPlain (simple : Simple admitted) (flat : a.isFlat = true)
    (flat' : b.isFlat = true) (proper : a.Proper) (proper' : b.Proper) :
    Keeps g admitted a b (meetPlain a b) := by
  intro left right apart
  unfold meetPlain
  rw [left.isRich_eq simple, right.isRich_eq simple, Bool.and_false, Bool.and_false,
    if_neg (by simp), if_neg (by simp)]
  split_ifs with differ
  · exact keeps_apart simple (.inl flat) (.inl flat') proper proper' (by simpa using differ)
      left right apart
  · split
    · exact ⟨right, fun v _ _ there => there⟩
    · exact ⟨left, fun v _ here _ => here⟩

variable {ps qs left : List (Property Shape)} {e f extra? : Option Shape} {p r : Property Shape}
  {x : Value}
variable {others : List (Property Shape)} {m : Nat}

structure KeepsProperty (g : Graph) (admitted : Shape → Prop) (others : List (Property Shape))
    (extra? : Option Shape) (p r : Property Shape) : Prop where
  name : r.name = p.name
  tidy : r.shape.Tidy admitted
  optional : p.optional = true → (∀ q, property? others p.name = some q → q.optional = true) →
      r.optional = true
  value : ∀ x : Value, x.Document → Allowed g others extra? p x → Inhabits g r.shape x

theorem MetProperty.keeps (met : MetProperty (Keeps g admitted) others extra? p r)
    (own : p.shape.Tidy admitted) (declared : ∀ q ∈ others, q.shape.Tidy admitted)
    (undeclared : ∀ s, extra? = some s → s.Tidy admitted)
    (apart : ∀ q, property? others p.name = some q → ¬ Opposed g p.shape q.shape)
    (apart' : property? others p.name = none → ∀ s, extra? = some s → ¬ Opposed g p.shape s) :
    KeepsProperty g admitted others extra? p r := by
  cases met with
  | @declared q s found met =>
    obtain ⟨tidy, kept⟩ := met own (declared q (mem_of_property? found).1) (apart q found)
    exact ⟨rfl, tidy, fun optional others => by simp [optional, others q found],
      fun x document allowed => kept x document allowed.own (allowed.declared q found)⟩
  | @extra y s unknown equal met =>
    obtain ⟨tidy, kept⟩ := met own (undeclared y equal) (apart' unknown y equal)
    exact ⟨rfl, tidy, fun optional _ => optional,
      fun x document allowed => kept x document allowed.own (allowed.undeclared unknown y equal)⟩
  | free => exact ⟨rfl, own, fun optional _ => optional, fun x _ allowed => allowed.own⟩

structure Facing (g : Graph) (admitted : Shape → Prop) (ps : List (Property Shape))
    (e : Option Shape) (qs : List (Property Shape)) (f : Option Shape) : Prop where
  left : (∀ p ∈ ps, p.shape.Tidy admitted) ∧ ∀ s, e = some s → s.Tidy admitted
  right : (∀ q ∈ qs, q.shape.Tidy admitted) ∧ ∀ s, f = some s → s.Tidy admitted
  shared : ∀ p ∈ ps, ∀ q, property? qs p.name = some q → ¬ Opposed g p.shape q.shape
  single : ∀ p ∈ ps, property? qs p.name = none → ∀ s, f = some s → ¬ Opposed g p.shape s
  single' : ∀ q ∈ qs, property? ps q.name = none → ∀ s, e = some s → ¬ Opposed g q.shape s
  extras : ∀ s t, e = some s → f = some t → ¬ Opposed g s t

theorem facing_of_apart (tidy : (object m ps e).Tidy admitted) (tidy' : (object n qs f).Tidy admitted)
    (apart : ¬ Opposed g (object m ps e) (object n qs f)) : Facing g admitted ps e qs f where
  left := tidy.of_object.2
  right := tidy'.of_object.2
  shared _ member _ found opposed := apart (.declared member found opposed)
  single _ member unknown _ equal opposed := apart (equal ▸ .undeclared member unknown opposed)
  single' _ member unknown _ equal opposed := apart (equal ▸ .symm (.undeclared member unknown opposed))
  extras _ _ equal equal' opposed := apart (equal ▸ equal' ▸ .extras opposed)

theorem Facing.keeps_left (facing : Facing g admitted ps e qs f) (member : p ∈ ps)
    (met : MetProperty (Keeps g admitted) qs f p r) : KeepsProperty g admitted qs f p r :=
  met.keeps (facing.left.1 p member) facing.right.1 facing.right.2 (facing.shared p member)
    (facing.single p member)

theorem Facing.keeps_right (facing : Facing g admitted ps e qs f) (member : p ∈ undeclared ps qs)
    (met : MetProperty (Keeps g admitted) [] e p r) : KeepsProperty g admitted [] e p r := by
  obtain ⟨listed, unknown⟩ := mem_undeclared.mp member
  exact met.keeps (facing.right.1 p listed) (by simp) facing.left.2 (by simp [property?_nil])
    fun _ => facing.single' p listed unknown

theorem Facing.keeps_extra (facing : Facing g admitted ps e qs f)
    (met : MetExtra (Keeps g admitted) e f extra?) :
    ∀ s, extra? = some s → s.Tidy admitted ∧ ∀ x : Value, x.Document →
      (∀ t, e = some t → Inhabits g t x) → (∀ t, f = some t → Inhabits g t x) → Inhabits g s x := by
  intro s equal
  cases met with
  | @both t t' r met =>
    obtain ⟨tidy, kept⟩ := met (facing.left.2 t rfl) (facing.right.2 t' rfl) (facing.extras t t' rfl rfl)
    obtain rfl := some.inj equal
    exact ⟨tidy, fun x document here there => kept x document (here t rfl) (there t' rfl)⟩
  | left t => exact ⟨facing.left.2 s equal, fun x _ here _ => here s equal⟩
  | right => exact ⟨facing.right.2 s equal, fun x _ _ there => there s equal⟩

variable {entries : List (String × Value)}

structure Fits (g : Graph) (props : List (Property Shape)) (extra? : Option Shape)
    (entries : List (String × Value)) : Prop where
  present : ∀ p ∈ props, get? entries p.name = none → p.optional = true
  declared : ∀ p ∈ props, ∀ x, get? entries p.name = some x → Inhabits g p.shape x
  others : ∀ s, extra? = some s → ∀ entry ∈ entries, property? props entry.1 = none → Inhabits g s entry.2

theorem inhabits_object_iff {props : List (Property Shape)} :
    Inhabits g (object n props extra?) v ↔ ∃ entries, v.settle.entries? = some entries ∧
      Fits g props extra? entries := by
  rw [object_iff]
  exact ⟨fun ⟨entries, keyed, present, declared, undeclared⟩ =>
    ⟨entries, keyed, present, declared, undeclared⟩,
    fun ⟨entries, keyed, fits⟩ => ⟨entries, keyed, fits.present, fits.declared, fits.others⟩⟩

theorem Fits.extra (fits : Fits g ps e entries) {name : String} (found : get? entries name = some x)
    (unknown : property? ps name = none) : ∀ s, e = some s → Inhabits g s x :=
  fun s equal => fits.others s equal (name, x) (mem_of_get?_eq_some found) unknown

theorem Fits.allowed_left (here : Fits g ps e entries) (there : Fits g qs f entries) (member : p ∈ ps)
    (found : get? entries p.name = some x) : Allowed g qs f p x where
  own := here.declared p member x found
  declared q known := there.declared q (mem_of_property? known).1 x ((mem_of_property? known).2 ▸ found)
  undeclared unknown := there.extra found unknown

theorem Fits.allowed_right (here : Fits g ps e entries) (there : Fits g qs f entries)
    (member : p ∈ undeclared ps qs) (found : get? entries p.name = some x) :
    Allowed g [] e p x where
  own := there.declared p (mem_undeclared.mp member).1 x found
  declared _ known := nomatch known
  undeclared _ := here.extra found (mem_undeclared.mp member).2

theorem KeepsProperty.fits (keeps : KeepsProperty g admitted others extra? p r)
    (documents : ∀ entry ∈ entries, entry.2.Document)
    (present : get? entries p.name = none → p.optional = true)
    (present' : ∀ q, property? others p.name = some q → get? entries p.name = none →
      q.optional = true)
    (allowed : ∀ x, get? entries p.name = some x → Allowed g others extra? p x) :
    (get? entries r.name = none → r.optional = true) ∧ ∀ x, get? entries r.name = some x →
      Inhabits g r.shape x := by
  rw [keeps.name]
  refine ⟨fun absent => keeps.optional (present absent) fun q known =>
    present' q known absent, fun x found => ?_⟩
  exact keeps.value x (documents _ (mem_of_get?_eq_some found)) (allowed x found)

theorem Fits.kept_left (here : Fits g ps e entries) (there : Fits g qs f entries)
    (documents : ∀ entry ∈ entries, entry.2.Document) (member : p ∈ ps)
    (keeps : KeepsProperty g admitted qs f p r) :
    (get? entries r.name = none → r.optional = true) ∧ ∀ x, get? entries r.name = some x →
      Inhabits g r.shape x := by
  refine keeps.fits documents (here.present p member) (fun q known absent => ?_) fun x =>
    here.allowed_left there member
  obtain ⟨listed, named⟩ := mem_of_property? known
  exact there.present q listed (named ▸ absent)

theorem Fits.kept_right (here : Fits g ps e entries) (there : Fits g qs f entries)
    (documents : ∀ entry ∈ entries, entry.2.Document) (member : p ∈ undeclared ps qs)
    (keeps : KeepsProperty g admitted [] e p r) :
    (get? entries r.name = none → r.optional = true) ∧ ∀ x, get? entries r.name = some x →
      Inhabits g r.shape x :=
  keeps.fits documents (there.present p (mem_undeclared.mp member).1) (fun _ known => nomatch known)
    fun _ => here.allowed_right there member

theorem map_name_of_met {R : Shape → Shape → Shape → Prop}
    (pairs : Forall₂ (MetProperty R others e) ps left) : left.map (·.name) = ps.map (·.name) := by
  induction pairs with
  | nil => rfl
  | cons here _ ih => rw [map_cons, map_cons, here.name_eq, ih]

theorem exists_fits (document : v.Document) (here : Inhabits g (object m ps e) v)
    (there : Inhabits g (object n qs f) v) : ∃ entries, v.settle.entries? = some entries ∧
      (∀ entry ∈ entries, entry.2.Document) ∧ Fits g ps e entries ∧ Fits g qs f entries := by
  obtain ⟨entries, keyed, fits⟩ := inhabits_object_iff.mp here
  obtain ⟨entries', keyed', fits'⟩ := inhabits_object_iff.mp there
  obtain rfl := some.inj (keyed.symm.trans keyed')
  refine ⟨entries, keyed, ?_, fits, fits'⟩
  rw [document.settle_eq] at keyed
  cases document with
  | map _ inside =>
    obtain rfl := some.inj keyed
    exact inside
  | _ => cases keyed

theorem keeps_void_left (simple : Simple admitted) (member : p ∈ ps)
    (met : MetProperty (Keeps g admitted) qs f p r) (void : r.shape = never)
    (required : r.optional = false) : Keeps g admitted (object m ps e) (object n qs f) never := by
  refine .never simple fun tidy tidy' apart v document here there => ?_
  obtain ⟨entries, -, documents, fits, fits'⟩ := exists_fits document here there
  have kept := fits.kept_left fits' documents member
      ((facing_of_apart tidy tidy' apart).keeps_left member met)
  rw [void, required] at kept
  cases found : get? entries r.name with
  | none => cases kept.1 found
  | some x => exact not_never (kept.2 x found)

theorem keeps_void_right (simple : Simple admitted) (member : p ∈ undeclared ps qs)
    (met : MetProperty (Keeps g admitted) [] e p r) (void : r.shape = never)
    (required : r.optional = false) : Keeps g admitted (object m ps e) (object n qs f) never := by
  refine .never simple fun tidy tidy' apart v document here there => ?_
  obtain ⟨entries, -, documents, fits, fits'⟩ := exists_fits document here there
  have kept := fits.kept_right fits' documents member
      ((facing_of_apart tidy tidy' apart).keeps_right member met)
  rw [void, required] at kept
  cases found : get? entries r.name with
  | none => cases kept.1 found
  | some x => exact not_never (kept.2 x found)

theorem keeps_objects (simple : Simple admitted) {k : Nat} {right : List (Property Shape)}
    (first : Forall₂ (MetProperty (Keeps g admitted) qs f) ps left)
    (second : Forall₂ (MetProperty (Keeps g admitted) [] e) (undeclared ps qs) right)
    (others : MetExtra (Keeps g admitted) e f extra?) :
    Keeps g admitted (object m ps e) (object n qs f)
      (object k (sortProperties (left ++ right)) extra?) := by
  intro tidy tidy' apart
  have facing := facing_of_apart tidy tidy' apart
  have extras := facing.keeps_extra others
  constructor
  · refine .object (simple.merged k extra? tidy.of_object.1 tidy'.of_object.1
      (map_name_of_met first) (map_name_of_met second)) ?_
      fun s equal => (extras s equal).1
    intro r member
    rcases mem_append.mp (mem_sortProperties.mp member) with listed | listed
    · obtain ⟨p, member', met⟩ := exists_left_of_mem first listed
      exact (facing.keeps_left member' met).tidy
    · obtain ⟨q, member', met⟩ := exists_left_of_mem second listed
      exact (facing.keeps_right member' met).tidy
  · intro v document here there
    obtain ⟨entries, keyed, documents, fits, fits'⟩ := exists_fits document here there
    have kept : ∀ r ∈ sortProperties (left ++ right), (get? entries r.name = none → r.optional = true) ∧
        ∀ x, get? entries r.name = some x → Inhabits g r.shape x := by
      intro r member
      rcases mem_append.mp (mem_sortProperties.mp member) with listed | listed
      · obtain ⟨p, member', met⟩ := exists_left_of_mem first listed
        exact fits.kept_left fits' documents member' (facing.keeps_left member' met)
      · obtain ⟨q, member', met⟩ := exists_left_of_mem second listed
        exact fits.kept_right fits' documents member' (facing.keeps_right member' met)
    refine .object keyed (fun r member => (kept r member).1) (fun r member => (kept r member).2) ?_
    intro s equal entry member unknown
    rw [property?_eq_none_iff] at unknown
    have unknown_left : property? ps entry.1 = none := by
      refine property?_eq_none_iff.mpr fun p listed => ?_
      obtain ⟨r, member', met⟩ := exists_right_of_mem first listed
      exact met.name_eq ▸ unknown r (mem_sortProperties.mpr (mem_append_left _ member'))
    have unknown_right : property? qs entry.1 = none := by
      refine property?_eq_none_iff.mpr fun q listed named => ?_
      obtain ⟨r, member', met⟩ :=
        exists_right_of_mem second (mem_undeclared.mpr ⟨listed, named ▸ unknown_left⟩)
      exact unknown r (mem_sortProperties.mpr (mem_append_right _ member')) (met.name_eq.trans named)
    exact (extras s equal).2 entry.2 (documents entry member)
      (fun t equal' => fits.others t equal' entry member unknown_left)
      fun t equal' => fits'.others t equal' entry member unknown_right

theorem keeps_union (simple : Simple admitted) {inclusive : Bool} {members parts : List Shape}
    (each : Forall₂ (fun m part => Keeps g admitted m b part) members parts)
    (united : ∃ k k', 0 ≤ k ∧ unionOf inclusive parts k = .ok (s, k')) :
    Keeps g admitted (union n inclusive members) b s := by
  intro left right apart
  have kept : ∀ m ∈ members, ∀ part, Keeps g admitted m b part → part.Tidy admitted ∧
      ∀ v : Value, v.Document → Inhabits g m v → Inhabits g b v → Inhabits g part v :=
    fun m member part keeps => keeps (left.piece member) right fun opposed =>
      apart (.member member opposed)
  have tidy : ∀ part ∈ parts, part.Tidy admitted := by
    intro part member
    obtain ⟨m, member', keeps⟩ := exists_left_of_mem each member
    exact (kept m member' part keeps).1
  obtain ⟨k, k', -, run⟩ := united
  obtain ⟨s', k'', run', tidy', accepts⟩ := unionOf_yields inclusive tidy simple.any simple.never k
  obtain rfl : s' = s := by
    rw [run] at run'
    exact (Prod.mk.inj (Except.ok.inj run')).1.symm
  refine ⟨tidy', fun v document here there => (accepts g v).mpr ?_⟩
  obtain ⟨m, member, inside⟩ := union_iff.mp here
  obtain ⟨part, member', keeps⟩ := exists_right_of_mem each member
  exact ⟨part, member', (kept m member part keeps).2 v document inside there⟩

theorem keeps_arrays {l m : Nat} {t items : Shape} (met : Keeps g admitted s t items) :
    Keeps g admitted (array l s) (array m t) (array n items) := by
  intro left right apart
  obtain ⟨tidy, kept⟩ := met (left.piece mem_cons_self) (right.piece mem_cons_self) fun opposed =>
      apart (.items opposed)
  refine ⟨.array tidy, fun v document here there => ?_⟩
  obtain ⟨vs, listed, each⟩ := array_iff.mp here
  obtain ⟨vs', listed', each'⟩ := array_iff.mp there
  obtain rfl := some.inj (listed.symm.trans listed')
  have documents : ∀ x ∈ vs, x.Document := by
    rw [document.settle_eq] at listed
    cases document with
    | seq inside =>
      obtain rfl := some.inj listed
      exact inside
    | _ => cases listed
  exact .array listed fun x member => kept x (documents x member) (each x member) (each' x member)

theorem keeps_rules (g : Graph) (simple : Simple admitted) : MeetRules 0 g.target? (Keeps g admitted) where
  same _ := fun left _ _ => ⟨left, fun _ _ here _ => here⟩
  any_left _ := fun _ right _ => ⟨right, fun _ _ _ there => there⟩
  any_right _ := fun left _ _ => ⟨left, fun _ _ here _ => here⟩
  never_left _ := .never simple fun _ _ _ _ _ here => absurd here not_never
  never_right _ := .never simple fun _ _ _ _ _ _ => not_never
  unmerged _ late := fun left right _ => by
    have bare := left.kind_ne simple
    have bare' := right.kind_ne simple
    rcases late with (named | named) | whole | whole
    · exact absurd named bare.1
    · exact absurd named bare'.1
    · exact absurd whole bare.2
    · exact absurd whole bare'.2
  through named _ _ _ := fun left right _ =>
    named.elim (fun named => absurd named (left.kind_ne simple).1) fun named =>
      absurd named (right.kind_ne simple).1
  kept_left named _ _ _ := fun left _ _ => absurd named (left.kind_ne simple).1
  kept_right named _ _ _ := fun _ right _ => absurd named (right.kind_ne simple).1
  union_left each united := keeps_union simple each united
  union_right each united := (keeps_union simple each united).symm
  arrays _ met := keeps_arrays met
  objects _ first second others := keeps_objects simple first second others
  void_left member met void required := keeps_void_left simple member met void required
  void_right member met void required := keeps_void_right simple member met void required
  literal_left single proper met := keeps_meetLiteral simple single proper met
  literal_right single proper met := (keeps_meetLiteral simple (.inr single) proper met).symm
  flat left right proper proper' := keeps_meetPlain simple left right proper proper'
  apart left right proper proper' kinds _ := keeps_apart simple left right proper proper' kinds

theorem intersect_tidy (simple : Simple admitted) (left : a.Tidy admitted) (right : b.Tidy admitted)
    (apart : ¬ Opposed g a b) (n : Nat) : ∃ s n', intersect g a b n = .ok (s, n') ∧ s.Tidy admitted ∧
      ∀ v : Value, v.Document → Inhabits g a v → Inhabits g b v → Inhabits g s v := by
  cases run : intersect g a b n with
  | error e =>
    have strict := (intersect_compares g a b n e run).2
    exact absurd ⟨left.documented g simple.bare, right.documented g simple.bare⟩ strict
  | ok result =>
    have keeps : Keeps g admitted a b result.1 :=
      intersect_ensures (keeps_rules g simple) a b n result.1 result.2 run
    exact ⟨result.1, result.2, rfl, keeps left right apart⟩

theorem not_opposed (simple : Simple admitted)
    (scalar : ∀ n v, admitted (literal n v) → v.literalKind ≠ .array ∧ v.literalKind ≠ .object)
    (left : a.Tidy admitted) (right : b.Tidy admitted) : ¬ Opposed g a b := by
  intro opposed
  induction opposed with
  | @literal n v b parts fits =>
    obtain ⟨document, leaf⟩ := left.of_literal
    have proper : b ≠ .any := fun equal => by simp [equal, kind] at parts
    have kind := literalKind_of_inhabits document (.inr parts) (right.isRich_eq simple) proper fits
    rcases parts with list | entries
    · exact (scalar n v leaf).1 (kind.trans list)
    · exact (scalar n v leaf).2 (kind.trans entries)
  | symm _ ih => exact ih right left
  | member member _ ih => exact ih (left.piece member) right
  | items _ ih => exact ih (left.piece mem_cons_self) (right.piece mem_cons_self)
  | declared member found _ ih =>
    exact ih (left.piece (mem_pieces_of_mem_props member))
      (right.piece (mem_pieces_of_mem_props (mem_of_property? found).1))
  | undeclared member _ _ ih =>
    exact ih (left.piece (mem_pieces_of_mem_props member)) (right.piece mem_pieces_of_extra)
  | extras _ ih => exact ih (left.piece mem_pieces_of_extra) (right.piece mem_pieces_of_extra)

/-- The leaves of shapes that describe documents: no moments, bytes or handles. -/
def DocumentLeaf : Shape → Prop
  | dateTime _ _ | binary | handle _ => False
  | _ => True

theorem simple_documentLeaf : Simple DocumentLeaf where
  any := trivial
  never := trivial
  poor s leaf := by cases s <;> first | rfl | exact leaf.elim
  bare _ leaf := leaf
  merged _ _ _ _ _ _ := trivial

theorem Tidy.decides (tidy : s.Tidy DocumentLeaf) (g : Graph) (v : Value) :
    Decides (conforms g s v) (Inhabits g s v) := by
  refine conforms_decides g (tidy.mono fun leaf plain named => ?_) v
  cases leaf <;> first | exact plain | cases named

/-- A document that conforms to two tidy shapes conforms to their intersection, unless the shapes
are opposed. -/
theorem conforms_intersect (g : Graph) (a b : Shape) (n : Nat) (left : a.Tidy DocumentLeaf)
    (right : b.Tidy DocumentLeaf) (apart : ¬ Opposed g a b) :
    ∃ s n', intersect g a b n = .ok (s, n') ∧ ∀ v : Value, v.Document → conforms g a v = .ok true →
      conforms g b v = .ok true → conforms g s v = .ok true := by
  obtain ⟨s, n', run, tidy, kept⟩ := intersect_tidy simple_documentLeaf left right apart n
  refine ⟨s, n', run, fun v document here there => (tidy.decides g v).eq_ok_true ?_⟩
  exact kept v document ((left.decides g v).of_eq_ok_true here) ((right.decides g v).of_eq_ok_true there)

def listed : Value := .seq .values [.decimal "1"]

theorem document_listed : listed.Document := .seq (forall_mem_singleton.mpr (.decimal "1"))

def constant : Shape := union 1 false [literal 0 listed, null]

theorem constant_strings :
    constant.Tidy DocumentLeaf ∧ (array 2 string).Tidy DocumentLeaf ∧
      ¬ Opposed {} constant (array 2 string) ∧ ∃ s n', intersect {} constant (array 2 string) 3 =
      .ok (s, n') ∧ ∀ v : Value, v.Document → conforms {} constant v = .ok true →
      conforms {} (array 2 string) v = .ok true → conforms {} s v = .ok true := by
  have left : constant.Tidy DocumentLeaf := by
    refine .union ?_ (pairwise_pair.mpr fun alike => (by cases alike))
    exact forall_mem_cons.mpr ⟨.literal document_listed trivial,
      forall_mem_singleton.mpr (.flat rfl trivial)⟩
  have right : (array 2 string).Tidy DocumentLeaf := .array (.flat rfl trivial)
  have misfit : ¬ Inhabits {} (array 2 string) listed := by
    intro inhabits
    obtain ⟨vs, rfl, each⟩ : ∃ vs, [.decimal "1"] = vs ∧ ∀ x ∈ vs, Inhabits {} string x := by
      simpa [listed, Value.settle, Value.items?] using array_iff.mp inhabits
    have text := (inhabits_flat_iff (.decimal "1") rfl rfl (by simp)).mp (each _ mem_cons_self)
    cases text
  have apart : ∀ a b, Opposed {} a b → ¬ (a ∈ [constant, literal 0 listed, null] ∧ b = array 2 string) ∧
      ¬ (b ∈ [constant, literal 0 listed, null] ∧ a = array 2 string) := by
    intro a b opposed
    induction opposed with
    | literal _ fits =>
      constructor
      · rintro ⟨member, rfl⟩
        obtain ⟨-, rfl⟩ : _ ∧ _ = listed := by simpa [constant] using member
        exact misfit fits
      · rintro ⟨-, ⟨⟩⟩
    | symm _ ih => exact ih.symm
    | member member _ ih =>
      constructor
      · rintro ⟨member', rfl⟩
        obtain ⟨-, -, rfl⟩ : _ ∧ _ ∧ _ = [literal 0 listed, null] := by simpa [constant] using member'
        exact ih.1 ⟨mem_cons_of_mem _ member, rfl⟩
      · rintro ⟨-, ⟨⟩⟩
    | _ => simp [constant]
  have unopposed : ¬ Opposed {} constant (array 2 string) :=
    fun opposed => (apart _ _ opposed).1 ⟨by simp, rfl⟩
  exact ⟨left, right, unopposed, conforms_intersect {} constant (array 2 string) 3 left right unopposed⟩

def doubled (n : Nat) : Shape := object n [⟨"p", union 0 true [string, string], false, none⟩] none

def hesitant (n : Nat) : Shape := object n [⟨"p", union 1 true [string, null], false, none⟩] none

/-- A constant list is lost where it faces a list, and a member of a union where another one seems
equal. -/
theorem documents_lost :
    (conforms {} (literal 0 listed) listed = .ok true ∧
      conforms {} (array 1 any) listed = .ok true ∧ intersect {} (literal 0 listed)
      (array 1 any) 2 = .ok (never, 2) ∧ conforms {} never listed = .ok false) ∧
      ∃ v s n', v.Document ∧ conforms {} (union 4 true [doubled 2, hesitant 3]) v = .ok true ∧
      conforms {} (object 5 [] none) v = .ok true ∧
      intersect {} (union 4 true [doubled 2, hesitant 3]) (object 5 [] none) 6 = .ok (s, n') ∧
      conforms {} s v = .ok false := by
  refine ⟨⟨rfl, rfl, ?_, rfl⟩, .map .values [("p", .null)], doubled 6, 8, ?_, rfl, rfl, ?_, rfl⟩
  · rw [← bind_pure (intersect _ _ _)]
    cbv
  · exact .map (pairwise_singleton _ _) (forall_mem_singleton.mpr .null)
  · rw [← bind_pure (intersect _ _ _)]
    cbv

end JsonShape.Shape
