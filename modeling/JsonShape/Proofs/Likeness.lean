import JsonShape.Proofs.Identity
import JsonShape.Proofs.Leaves
import Mathlib.Data.Fintype.EquivFin

/-! Likeness of shapes: they differ in serial numbers, spelling of literals, defaults and the order
of members only. Structural equality decides it on tidy shapes. -/
namespace JsonShape.Shape
open List Option

variable {ss ts : List Shape} {m n : Nat} {i j : Bool} {a b : Shape}

/-- Shapes that are built alike. The members of unions correspond to each other in both
directions. -/
inductive Alike : Shape → Shape → Prop
  | refl (s : Shape) : Alike s s
  | dateTime (m n : Nat) (format : String) : Alike (.dateTime m format) (.dateTime n format)
  | literal {m n : Nat} {v w : Value} (left : v.Document) (right : w.Document)
      (means : v.meaning = w.meaning) :
      Alike (.literal m v) (.literal n w)
  | array {m n : Nat} {s t : Shape} (items : Alike s t) : Alike (.array m s) (.array n t)
  | object {m n : Nat} {ps qs : List (Property Shape)} {e f : Option Shape}
      (length : ps.length = qs.length)
      (named : ∀ (i : Nat) (p q : Property Shape), ps[i]? = some p → qs[i]? = some q →
        p.name = q.name ∧ p.optional = q.optional)
      (shaped : ∀ (i : Nat) (p q : Property Shape), ps[i]? = some p → qs[i]? = some q →
      Alike p.shape q.shape)
      (extras : e.isSome = f.isSome) (extra : ∀ s t, e = some s → f = some t → Alike s t) :
      Alike (.object m ps e) (.object n qs f)
  | union {m n : Nat} {i j : Bool} {ss ts : List Shape} (forth back : Shape → Shape)
      (listed : ∀ s ∈ ss, forth s ∈ ts) (alike : ∀ s ∈ ss, Alike s (forth s))
      (listed' : ∀ t ∈ ts, back t ∈ ss) (alike' : ∀ t ∈ ts, Alike (back t) t) :
      Alike (.union m i ss) (.union n j ts)

namespace Alike

variable {s t u : Shape}

theorem symm (alike : Alike s t) : Alike t s := by
  induction alike with
  | refl s => exact .refl s
  | dateTime m n format => exact .dateTime n m format
  | literal left right means => exact .literal right left means.symm
  | array _ ih => exact .array ih
  | object length named _ extras _ ih ih' =>
    refine .object length.symm ?_ ?_ extras.symm fun s t found found' => ih' t s found' found
    · intro i p q here there
      obtain ⟨name, optional⟩ := named i q p there here
      exact ⟨name.symm, optional.symm⟩
    · exact fun i p q here there => ih i q p there here
  | union forth back listed _ listed' _ ih ih' => exact .union back forth listed' ih' listed ih

theorem trans (first : Alike s t) (second : Alike t u) : Alike s u := by
  induction first generalizing u with
  | refl s => exact second
  | dateTime m n format =>
    cases second with
    | refl => exact .dateTime m n format
    | dateTime _ k => exact .dateTime m k format
  | literal left right means =>
    cases second with
    | refl => exact .literal left right means
    | literal _ right' means' => exact .literal left right' (means.trans means')
  | array items ih =>
    cases second with
    | refl => exact .array items
    | array items' => exact .array (ih items')
  | @object _ _ ps qs _ _ length named shaped extras extra ih ih' =>
    cases second with
    | refl => exact .object length named shaped extras extra
    | @object _ _ _ rs _ _ length' named' shaped' extras' extra' =>
      have between {i : Nat} {r : Property Shape} (there : rs[i]? = some r) : ∃ q, qs[i]? = some q :=
        ⟨_, List.getElem?_eq_getElem (length' ▸ (List.getElem?_eq_some_iff.mp there).1)⟩
      refine .object (length.trans length') ?_ ?_ (extras.trans extras') ?_
      · intro i p r here there
        obtain ⟨q, middle⟩ := between there
        obtain ⟨name, optional⟩ := named i p q here middle
        obtain ⟨name', optional'⟩ := named' i q r middle there
        exact ⟨name.trans name', optional.trans optional'⟩
      · intro i p r here there
        obtain ⟨q, middle⟩ := between there
        exact ih i p q here middle (shaped' i q r middle there)
      · rintro s u rfl rfl
        obtain ⟨t, rfl⟩ := isSome_iff_exists.mp extras.symm
        exact ih' s t rfl rfl (extra' t u rfl rfl)
  | union forth back listed alike listed' alike' ih ih' =>
    cases second with
    | refl => exact .union forth back listed alike listed' alike'
    | union forth₂ back₂ listed₂ alike₂ listed₂' alike₂' =>
      refine .union (fun s => forth₂ (forth s)) (fun u => back (back₂ u)) ?_ ?_ ?_ ?_
      · exact fun s member => listed₂ _ (listed s member)
      · exact fun s member => ih s member (alike₂ _ (listed s member))
      · exact fun u member => listed' _ (listed₂' u member)
      · exact fun u member => ih' _ (listed₂' u member) (alike₂' u member)

end Alike

def isFlat : Shape → Bool
  | any | never | null | boolean | number _ | string | binary | dateTime _ _ => true
  | _ => false

/-- Shapes without intersections where literals are documents, no two members of a union are alike,
and all leaves and objects are admitted. -/
inductive Tidy (admitted : Shape → Prop) : Shape → Prop
  | flat {s : Shape} (flat : s.isFlat = true) (leaf : admitted s) : Tidy admitted s
  | handle {id : Nat} (leaf : admitted (.handle id)) : Tidy admitted (.handle id)
  | literal {n : Nat} {v : Value} (document : v.Document) (leaf : admitted (.literal n v)) :
      Tidy admitted (.literal n v)
  | array {n : Nat} {items : Shape} (inside : Tidy admitted items) : Tidy admitted (.array n items)
  | object {n : Nat} {props : List (Property Shape)} {extra? : Option Shape}
      (own : admitted (.object n props extra?)) (inside : ∀ p ∈ props, Tidy admitted p.shape)
      (extra : ∀ s, extra? = some s → Tidy admitted s) : Tidy admitted (.object n props extra?)
  | union {n : Nat} {inclusive : Bool} {members : List Shape} (inside : ∀ m ∈ members, Tidy admitted m)
      (distinct : members.Pairwise fun m n => ¬ Alike m n) : Tidy admitted (.union n inclusive members)

variable {admitted : Shape → Prop} {s : Shape}

theorem Tidy.mono {admitted' : Shape → Prop} (weaker : ∀ s, admitted s → admitted' s)
    (tidy : s.Tidy admitted) : s.Tidy admitted' := by
  induction tidy with
  | flat flat leaf => exact .flat flat (weaker _ leaf)
  | handle leaf => exact .handle (weaker _ leaf)
  | literal document leaf => exact .literal document (weaker _ leaf)
  | array _ ih => exact .array ih
  | object own _ _ ih ih' => exact .object (weaker _ own) ih ih'
  | union _ distinct ih => exact .union ih distinct

theorem Tidy.of_literal {v : Value} (tidy : (Shape.literal n v).Tidy admitted) :
    v.Document ∧ admitted (.literal n v) := by
  cases tidy with
  | flat flat => cases flat
  | literal document leaf => exact ⟨document, leaf⟩

theorem Tidy.of_object {props : List (Property Shape)} {extra? : Option Shape}
    (tidy : (Shape.object n props extra?).Tidy admitted) : admitted (.object n props extra?) ∧
      (∀ p ∈ props, p.shape.Tidy admitted) ∧ ∀ s, extra? = some s → s.Tidy admitted := by
  cases tidy with
  | flat flat => cases flat
  | object own inside extra => exact ⟨own, inside, extra⟩

theorem Tidy.of_union {inclusive : Bool} {members : List Shape}
    (tidy : (Shape.union n inclusive members).Tidy admitted) :
    members.Pairwise fun m n => ¬ Alike m n := by
  cases tidy with
  | flat flat => cases flat
  | union _ distinct => exact distinct

theorem Tidy.of_handle {id : Nat} (tidy : (Shape.handle id).Tidy admitted) : admitted (.handle id) := by
  cases tidy with
  | flat flat => cases flat
  | handle leaf => exact leaf

theorem Tidy.piece (tidy : s.Tidy admitted) {p : Shape} (member : p ∈ s.pieces) : p.Tidy admitted := by
  cases tidy with
  | @flat s flat _ =>
    have none : s.pieces = [] := by cases s <;> first | rfl | cases flat
    rw [none] at member
    cases member
  | handle => cases member
  | literal => cases member
  | array inside => exact mem_singleton.mp member ▸ inside
  | object _ inside extra => exact forall_mem_pieces_object inside extra p member
  | union inside _ => exact inside p member

theorem Tidy.of_reaches {g : Graph} (bare : ∀ id, ¬ admitted (.handle id)) (tidy : s.Tidy admitted)
    {t : Shape} (reached : g.Reaches s t) : t.Tidy admitted := by
  induction reached with
  | self => exact tidy
  | piece _ member ih => exact ih.piece member
  | target _ _ ih => exact absurd ih.of_handle (bare _)

theorem Tidy.documented (g : Graph) (bare : ∀ id, ¬ admitted (.handle id))
    (tidy : s.Tidy admitted) : g.Documented s :=
  fun _ _ reached => (tidy.of_reaches bare reached).of_literal.1

theorem Tidy.leaves {live : Nat → Prop} (admits : ∀ id, admitted (.handle id) → live id)
    (tidy : s.Tidy admitted) : s.Leaves True live := by
  have inside : ∀ {t}, t ∈ s.subshapes → t.Tidy admitted := by
    intro t member
    induction s using pieces_induction with
    | step s ih =>
      rcases mem_subshapes_iff.mp member with rfl | ⟨p, piece, deeper⟩
      · exact tidy
      · exact ih p piece (tidy.piece piece) deeper
  exact ⟨fun _ _ member _ => (inside member).of_literal.1, fun id member =>
    admits id (inside member).of_handle⟩

theorem Alike.exists_mem (alike : Alike (.union m i ss) (.union n j ts)) :
    (∀ s ∈ ss, ∃ t ∈ ts, Alike s t) ∧ ∀ t ∈ ts, ∃ s ∈ ss, Alike s t := by
  cases alike with
  | refl => exact ⟨fun s member => ⟨s, member, .refl s⟩, fun t member => ⟨t, member, .refl t⟩⟩
  | union forth back listed alike listed' alike' =>
    exact ⟨fun s member => ⟨forth s, listed s member, alike s member⟩,
      fun t member => ⟨back t, listed' t member, alike' t member⟩⟩

theorem alike_union (forth : ∀ s ∈ ss, ∃ t ∈ ts, Alike s t) (back : ∀ t ∈ ts, ∃ s ∈ ss, Alike s t) :
    Alike (.union m i ss) (.union n j ts) := by
  choose! f listed alike using forth
  choose! b listed' alike' using back
  exact .union f b listed alike listed' alike'

theorem equal_self (s : Shape) : s.equal s = .ok true := by
  rw [equal.eq_def, if_pos (same_iff.mpr rfl)]

theorem isFlat_of_kind_eq (kinds : a.kind = b.kind) (flat : b.isFlat = true) : a.isFlat = true := by
  cases b <;> simp [isFlat] at flat <;> cases a <;> first | rfl | cases kinds

theorem Alike.kind_eq (alike : Alike a b) : a.kind = b.kind := by
  cases alike <;> rfl

theorem equal_of_kind_ne (differ : a.kind ≠ b.kind) : a.equal b = .ok false := by
  have different : a ≠ b := fun same => differ (congrArg kind same)
  rw [equal.eq_def, if_neg (by simpa using different)]
  cases a <;> cases b <;> first | rfl | exact absurd rfl differ

def Matches (a b : Shape) : Prop := a.equal b = .ok true

/-- Shapes that are equal at the top and whose parts are related. The members of unions and
intersections are compared in one direction. -/
def Lifts (R : Shape → Shape → Prop) : Shape → Shape → Prop
  | any, any | never, never | null, null | boolean, boolean | string, string | binary, binary => True
  | number i, number j => i = j
  | dateTime _ f, dateTime _ g => f = g
  | literal _ v, literal _ w => v.meaning = w.meaning
  | array _ s, array _ t => R s t
  | object _ ps e, object _ qs f => (ps.length = qs.length ∧ e.isSome = f.isSome) ∧
      (∀ s t, e = some s → f = some t → R s t) ∧ ∀ (i : Nat) (p q : Property Shape),
      ps[i]? = some p → qs[i]? = some q →
        (p.name = q.name ∧ p.optional = q.optional) ∧ R p.shape q.shape
  | union _ _ ss, union _ _ ts => ss.length = ts.length ∧ ∀ s ∈ ss, ∃ t ∈ ts, R s t
  | intersection _ ss, intersection _ ts => ss.length = ts.length ∧ ∀ s ∈ ss, ∃ t ∈ ts, R s t
  | handle i, handle j => i = j
  | _, _ => False

variable {R S : Shape → Shape → Prop} {live live' : Nat → Prop}

theorem Lifts.kind_eq (lifts : Lifts R a b) : a.kind = b.kind := by
  cases a <;> cases b <;> first | rfl | exact lifts.elim

theorem Lifts.trans {T : Shape → Shape → Prop} {c : Shape} (first : Lifts R a b) (second : Lifts S b c)
    (chain : ∀ s ∈ a.pieces, ∀ t ∈ b.pieces, ∀ u ∈ c.pieces, R s t → S t u → T s u) : Lifts T a c := by
  have kinds := first.kind_eq
  have kinds' := second.kind_eq
  have members : ∀ {ss ts us : List Shape}, (∀ s ∈ ss, ∀ t ∈ ts, ∀ u ∈ us, R s t → S t u → T s u) →
      (ss.length = ts.length ∧ ∀ s ∈ ss, ∃ t ∈ ts, R s t) →
      (ts.length = us.length ∧ ∀ t ∈ ts, ∃ u ∈ us, S t u) →
      ss.length = us.length ∧ ∀ s ∈ ss, ∃ u ∈ us, T s u := by
    intro ss ts us chain first second
    refine ⟨first.1.trans second.1, fun s member => ?_⟩
    obtain ⟨t, member', related⟩ := first.2 s member
    obtain ⟨u, member'', related'⟩ := second.2 t member'
    exact ⟨u, member'', chain s member t member' u member'' related related'⟩
  cases a with
  | array m s =>
    cases b <;> cases kinds
    cases c <;> cases kinds'
    exact chain s mem_cons_self _ mem_cons_self _ mem_cons_self first second
  | object m ps e =>
    cases b <;> cases kinds
    cases c <;> cases kinds'
    obtain ⟨sizes, extra, props⟩ := first
    obtain ⟨sizes', extra', props'⟩ := second
    refine ⟨⟨sizes.1.trans sizes'.1, sizes.2.trans sizes'.2⟩, ?_, fun i p r here there => ?_⟩
    · rintro s u rfl rfl
      obtain ⟨t, rfl⟩ := isSome_iff_exists.mp sizes.2.symm
      exact chain s mem_pieces_of_extra t mem_pieces_of_extra u mem_pieces_of_extra
        (extra s t rfl rfl) (extra' t u rfl rfl)
    · have middle := List.getElem?_eq_getElem (sizes'.1 ▸ (List.getElem?_eq_some_iff.mp there).1)
      obtain ⟨⟨name, optional⟩, related⟩ := props i p _ here middle
      obtain ⟨⟨name', optional'⟩, related'⟩ := props' i _ r middle there
      refine ⟨⟨name.trans name', optional.trans optional'⟩, ?_⟩
      exact chain _ (mem_pieces_of_mem_props (mem_of_getElem? here)) _
        (mem_pieces_of_mem_props (mem_of_getElem? middle)) _
        (mem_pieces_of_mem_props (mem_of_getElem? there))
        related related'
  | union | intersection =>
    cases b <;> cases kinds
    cases c <;> cases kinds'
    exact members chain first second
  | number | dateTime | literal | handle =>
    cases b <;> cases kinds
    cases c <;> cases kinds'
    exact Eq.trans first second
  | _ =>
    cases b <;> cases kinds
    cases c <;> cases kinds'
    trivial

theorem lifts_self (refl : ∀ s, R s s) (a : Shape) : Lifts R a a := by
  cases a with
  | array n s => exact refl s
  | object n ps e =>
    refine ⟨⟨rfl, rfl⟩, fun s t here there => ?_, fun i p q here there => ?_⟩
    · obtain rfl := some.inj (here.symm.trans there)
      exact refl s
    · obtain rfl := some.inj (here.symm.trans there)
      exact ⟨⟨rfl, rfl⟩, refl p.shape⟩
  | union n i ss => exact ⟨rfl, fun s member => ⟨s, member, refl s⟩⟩
  | intersection n ss => exact ⟨rfl, fun s member => ⟨s, member, refl s⟩⟩
  | _ => trivial

theorem Lifts.imp (lifts : Lifts R a b) (weaker : ∀ s ∈ a.pieces, ∀ t ∈ b.pieces, R s t → S s t) :
    Lifts S a b :=
  lifts.trans (lifts_self Eq.refl b) fun s member t member' _ _ related equal =>
    equal ▸ weaker s member t member' related

theorem equalProperties_tells {ps qs : List (Property Shape)} (length : ps.length = qs.length)
    (each : ∀ p ∈ ps, ∀ q ∈ qs, Tells (p.shape.equal q.shape) (R p.shape q.shape)) :
    Tells (equalProperties ps qs) (∀ (i : Nat) (p q : Property Shape), ps[i]? = some p → qs[i]? = some q →
      (p.name = q.name ∧ p.optional = q.optional) ∧ R p.shape q.shape) := by
  induction ps generalizing qs with
  | nil => exact .ok (by simp)
  | cons p rest ih =>
    obtain ⟨q, others, rfl⟩ := exists_cons_of_length_eq_add_one length.symm
    obtain ⟨name, s, optional, default?⟩ := p
    rw [equalProperties]
    have here := each _ mem_cons_self q mem_cons_self
    have later := ih (Nat.succ.inj length) fun x inside y inside' =>
      each x (mem_cons_of_mem _ inside) y (mem_cons_of_mem _ inside')
    by_cases same : name = q.name ∧ optional = q.optional
    · rw [if_pos (by simpa using same)]
      refine (here.and fun _ => later).congr ⟨?_, ?_⟩
      · rintro ⟨alike, more⟩ i p' q' here there
        cases i with
        | zero =>
          obtain rfl := some.inj here
          obtain rfl := some.inj there
          exact ⟨same, alike⟩
        | succ i => exact more i p' q' here there
      · intro all
        exact ⟨(all 0 _ q rfl rfl).2, fun i p' q' here there => all (i + 1) p' q' here there⟩
    · rw [if_neg (by simpa using same)]
      exact .no fun all => same (all 0 _ q rfl rfl).1

theorem containedMembers_tells (each : ∀ s ∈ ss, ∀ t ∈ ts, Tells (s.equal t) (R s t)) :
    Tells (containedMembers ss ts) (∀ s ∈ ss, ∃ t ∈ ts, R s t) := by
  induction ss with
  | nil => exact .ok (by simp)
  | cons s rest ih =>
    rw [containedMembers]
    have here := Tells.anyM (each s mem_cons_self)
    have later := ih (forall_mem_cons.mp each).2
    exact (here.and fun _ => later).congr (by simp)

theorem equalOption_tells {e f : Option Shape} (present : e.isSome = f.isSome)
    (each : ∀ s t, e = some s → f = some t → Tells (s.equal t) (R s t)) :
    Tells (equalOption e f) (∀ s t, e = some s → f = some t → R s t) := by
  cases e with
  | none => exact .ok (by simp)
  | some s =>
    obtain ⟨t, rfl⟩ := isSome_iff_exists.mp present.symm
    exact (each s t rfl rfl).congr (by simp)

theorem equal_decides_matches (left : a.Leaves True live) (right : b.Leaves True live') :
    Decides (a.equal b) (Matches a b) := by
  cases found : a.equal b with
  | error e => exact absurd trivial (equal_compares left right e found).2
  | ok answer => exact .ok (by rw [Matches, found, Except.ok.injEq])

theorem equal_tells_lifts (refl : ∀ s, R s s) (each : ∀ s t, Tells (s.equal t) (R s t))
    (literals : ∀ m v n w, a = literal m v → b = literal n w → Tells (v.matchesLiteral w)
      (v.meaning = w.meaning)) : Tells (a.equal b) (Lifts R a b) := by
  by_cases same : a = b
  · rw [← same, equal_self]
    exact .ok (iff_of_true rfl (lifts_self refl a))
  by_cases kinds : a.kind = b.kind
  swap
  · rw [equal_of_kind_ne kinds]
    exact .no fun lifts => kinds lifts.kind_eq
  have members : ∀ ss ts : List Shape,
      Tells (if ss.length == ts.length then containedMembers ss ts else .ok false)
      (ss.length = ts.length ∧ ∀ s ∈ ss, ∃ t ∈ ts, R s t) := by
    intro ss ts
    by_cases length : ss.length = ts.length
    · rw [if_pos (by simpa using length)]
      exact (containedMembers_tells fun s _ t _ => each s t).congr (and_iff_right length).symm
    · rw [if_neg (by simpa using length)]
      exact .no fun both => length both.1
  rw [equal.eq_def, if_neg (by simpa using same)]
  cases a with
  | literal m v =>
    cases b <;> cases kinds
    exact literals m v _ _ rfl rfl
  | array m s =>
    cases b <;> cases kinds
    exact each s _
  | object m ps e =>
    cases b <;> cases kinds
    rename_i n qs f
    dsimp only
    by_cases sizes : ps.length = qs.length ∧ e.isSome = f.isSome
    · rw [if_pos (by simpa using sizes)]
      exact ((equalOption_tells sizes.2 fun s t _ _ => each s t).and fun _ =>
        equalProperties_tells sizes.1 fun p _ q _ =>
        each p.shape q.shape).congr (and_iff_right sizes).symm
    · rw [if_neg (by simpa using sizes)]
      exact .no fun lifts => sizes lifts.1
  | union m i ss =>
    cases b <;> cases kinds
    exact members ss _
  | intersection m ss =>
    cases b <;> cases kinds
    exact members ss _
  | dateTime m f =>
    cases b <;> cases kinds
    exact .ok beq_iff_eq
  | number i =>
    cases b <;> cases kinds
    exact .no fun equal => same (congrArg number equal)
  | handle i =>
    cases b <;> cases kinds
    exact .no fun equal => same (congrArg handle equal)
  | _ =>
    cases b <;> cases kinds
    exact absurd rfl same

theorem matches_iff (left : a.Leaves True live) (right : b.Leaves True live') :
    Matches a b ↔ Lifts Matches a b := by
  obtain ⟨answer, found, means⟩ := equal_decides_matches left right
  have tells : Tells (a.equal b) (Lifts Matches a b) := by
    refine equal_tells_lifts equal_self
      (fun s t answer found => by rw [Matches, found, Except.ok.injEq]) ?_
    rintro m v n w rfl rfl answer found
    obtain ⟨answer', found', means⟩ :=
      Value.matchesLiteral_decides (left.of_literal trivial) (right.of_literal trivial)
    rwa [Except.ok.inj (found.symm.trans found')]
  exact means.symm.trans (tells answer found)

theorem exists_partner (each : ∀ s ∈ ss, ∃ t ∈ ts, R s t)
    (apart : ss.Pairwise fun s s' => ∀ t ∈ ts, R s t → ¬ R s' t) :
    ∃ partner : Fin ss.length → Fin ts.length, Function.Injective partner ∧
      ∀ i, R (ss.get i) (ts.get (partner i)) := by
  have indexed : ∀ i : Fin ss.length, ∃ j : Fin ts.length, R (ss.get i) (ts.get j) := by
    intro i
    obtain ⟨t, member, related⟩ := each ss[i] (getElem_mem i.2)
    obtain ⟨j, bound, rfl⟩ := getElem_of_mem member
    exact ⟨⟨j, bound⟩, related⟩
  choose partner related using indexed
  refine ⟨partner, fun i j equal => ?_, related⟩
  by_contra differ
  have one := related i
  have two := related j
  rw [equal] at one
  have inside : ts.get (partner j) ∈ ts := get_mem _ _
  rcases Nat.lt_or_gt_of_ne (fun same => differ (Fin.ext same)) with less | less
  · exact pairwise_iff_getElem.mp apart i j i.2 j.2 less _ inside one two
  · exact pairwise_iff_getElem.mp apart j i j.2 i.2 less _ inside two one

theorem length_le_of_related (each : ∀ s ∈ ss, ∃ t ∈ ts, R s t)
    (apart : ss.Pairwise fun s s' => ∀ t ∈ ts, R s t → ¬ R s' t) : ss.length ≤ ts.length := by
  obtain ⟨partner, injective, -⟩ := exists_partner each apart
  simpa using Fintype.card_le_of_injective partner injective

/-- As many shapes as others, each related to one of them and no two to the same, are related to
all. -/
theorem exists_related (length : ss.length = ts.length) (each : ∀ s ∈ ss, ∃ t ∈ ts, R s t)
    (apart : ss.Pairwise fun s s' => ∀ t ∈ ts, R s t → ¬ R s' t) : ∀ t ∈ ts, ∃ s ∈ ss, R s t := by
  obtain ⟨partner, injective, related⟩ := exists_partner each apart
  have surjective : Function.Surjective partner :=
    ((Fintype.bijective_iff_injective_and_card partner).mpr ⟨injective, by simpa using length⟩).2
  intro t member
  obtain ⟨j, bound, rfl⟩ := getElem_of_mem member
  obtain ⟨i, equal⟩ := surjective ⟨j, bound⟩
  refine ⟨ss[i], getElem_mem i.2, ?_⟩
  have found := related i
  rwa [equal] at found

theorem alike_union_iff (distinct : ss.Pairwise fun s t => ¬ Alike s t)
    (distinct' : ts.Pairwise fun s t => ¬ Alike s t) :
    Alike (.union m i ss) (.union n j ts) ↔ ss.length = ts.length ∧
      ∀ s ∈ ss, ∃ t ∈ ts, Alike s t := by
  have apart : ss.Pairwise fun s s' => ∀ t ∈ ts, Alike s t → ¬ Alike s' t :=
    distinct.imp fun unlike t _ one two => unlike (one.trans two.symm)
  constructor
  · intro alike
    obtain ⟨forth, back⟩ := alike.exists_mem
    refine ⟨Nat.le_antisymm (length_le_of_related forth apart) (length_le_of_related back ?_), forth⟩
    exact distinct'.imp fun unlike s _ one two => unlike (one.symm.trans two)
  · rintro ⟨length, forth⟩
    exact alike_union forth (exists_related length forth apart)

variable {admitted' : Shape → Prop}

theorem lifts_alike_iff (left : Tidy admitted a) (right : Tidy admitted' b) :
    Lifts Alike a b ↔ Alike a b := by
  by_cases kinds : a.kind = b.kind
  swap
  · exact iff_of_false (fun lifts => kinds lifts.kind_eq) fun alike => kinds alike.kind_eq
  cases a with
  | array m s =>
    cases b <;> cases kinds
    refine ⟨.array, fun alike => ?_⟩
    cases alike with
    | refl => exact .refl s
    | array items => exact items
  | object m ps e =>
    cases b <;> cases kinds
    refine ⟨fun ⟨⟨length, extras⟩, extra, props⟩ => ?_, fun alike => ?_⟩
    · exact .object length (fun i p q here there => (props i p q here there).1)
        (fun i p q here there => (props i p q here there).2) extras extra
    · cases alike with
      | refl => exact lifts_self .refl _
      | object length named shaped extras extra =>
        exact ⟨⟨length, extras⟩, extra, fun i p q here there =>
          ⟨named i p q here there, shaped i p q here there⟩⟩
  | union m i ss =>
    cases b <;> cases kinds
    exact (alike_union_iff left.of_union right.of_union).symm
  | intersection => cases left with | flat flat => cases flat
  | literal m v =>
    cases b <;> cases kinds
    refine ⟨.literal left.of_literal.1 right.of_literal.1, fun alike => ?_⟩
    cases alike with
    | refl => rfl
    | literal _ _ means => exact means
  | dateTime | number | handle =>
    cases b <;> cases kinds
    refine ⟨fun equal => ?_, fun alike => ?_⟩
    · obtain rfl := equal
      first | exact .refl _ | exact .dateTime ..
    · cases alike <;> rfl
  | _ =>
    cases b <;> cases kinds
    exact iff_of_true trivial (.refl _)

theorem matches_iff_alike (left : Tidy admitted a) (right : Tidy admitted' b) :
    Matches a b ↔ Alike a b := by
  induction a using pieces_induction generalizing b with
  | step a ih =>
    have parts : ∀ s ∈ a.pieces, ∀ t ∈ b.pieces, (Matches s t ↔ Alike s t) :=
      fun s member t member' => ih s member (left.piece member) (right.piece member')
    rw [matches_iff (left.leaves fun _ _ => trivial) (right.leaves fun _ _ => trivial),
      ← lifts_alike_iff left right]
    exact ⟨fun lifts => lifts.imp fun s member t member' => (parts s member t member').mp,
      fun lifts => lifts.imp fun s member t member' => (parts s member t member').mpr⟩

theorem equal_decides (left : Tidy admitted a) (right : Tidy admitted' b) :
    Decides (a.equal b) (Alike a b) :=
  (equal_decides_matches (left.leaves fun _ _ => trivial) (right.leaves fun _ _ => trivial)).congr
    (matches_iff_alike left right)

end JsonShape.Shape
