import JsonShape.Proofs.Comparison
import JsonShape.Proofs.Likeness

/-! Inhabitation: which values have a shape, by finite derivations. Shapes that are built alike have
the same inhabitants. -/
namespace JsonShape

open Conformance List Option Entries Value

variable {props : List (Property Shape)} {w v : Value} {g : Graph}

inductive Inhabits (g : Graph) : Shape → Value → Prop
  | any (v : Value) : Inhabits g .any v
  | flat {s : Shape} {v : Value} (fits : fitsKind v.settle s.kind = true) : Inhabits g s v
  | literal {n : Nat} {w v : Value} (equal : v.settle.plain.matchesLiteral w = .ok true) :
      Inhabits g (.literal n w) v
  | array {n : Nat} {items : Shape} {v : Value} {vs : List Value} (listed : v.settle.items? = some vs)
      (each : ∀ x ∈ vs, Inhabits g items x) : Inhabits g (.array n items) v
  | object {n : Nat} {props : List (Property Shape)} {extra? : Option Shape} {v : Value}
      {entries : List (String × Value)}
      (keyed : v.settle.entries? = some entries)
      (present : ∀ p ∈ props, get? entries p.name = none → p.optional = true)
      (declared : ∀ p ∈ props, ∀ x, get? entries p.name = some x → Inhabits g p.shape x)
      (undeclared : ∀ extra, extra? = some extra → ∀ entry ∈ entries,
      Shape.property? props entry.1 = none →
        Inhabits g extra entry.2) : Inhabits g (.object n props extra?) v
  | union {n : Nat} {inclusive : Bool} {members : List Shape} {m : Shape} {v : Value}
      (member : m ∈ members)
      (inside : Inhabits g m v) : Inhabits g (.union n inclusive members) v
  | intersection {n : Nat} {members : List Shape} {v : Value} (each : ∀ m ∈ members, Inhabits g m v) :
      Inhabits g (.intersection n members) v
  | unbound {id : Nat} {v : Value} (free : g.target? id = none) : Inhabits g (.handle id) v
  | bound {id : Nat} {target : Shape} {v : Value} (found : g.target? id = some target)
      (inside : Inhabits g target v) :
      Inhabits g (.handle id) v

namespace Inhabits

variable {n : Nat} {s : Shape} {members : List Shape}

theorem isFlat_of_fits (fits : fitsKind v s.kind = true) : s.isFlat = true := by
  cases s <;> first | rfl | cases fits

theorem flat_iff (flat : s.isFlat = true) (proper : s ≠ .any) :
    Inhabits g s v ↔ fitsKind v.settle s.kind = true := by
  refine ⟨fun inhabits => ?_, .flat⟩
  cases inhabits with
  | any => exact absurd rfl proper
  | flat fits => exact fits
  | _ => cases flat

theorem of_flat {g' : Graph} (flat : s.isFlat = true) (inhabits : Inhabits g s v) : Inhabits g' s v := by
  cases inhabits with
  | any v => exact .any v
  | flat fits => exact .flat fits
  | _ => cases flat

theorem not_never : ¬ Inhabits g .never v := by
  rw [flat_iff rfl (by simp)]
  exact Bool.false_ne_true

theorem literal_iff : Inhabits g (.literal n w) v ↔ v.settle.plain.matchesLiteral w = .ok true := by
  refine ⟨fun inhabits => ?_, .literal⟩
  cases inhabits with
  | flat fits => cases isFlat_of_fits fits
  | literal equal => exact equal

theorem array_iff {items : Shape} :
    Inhabits g (.array n items) v ↔ ∃ vs, v.settle.items? = some vs ∧
      ∀ x ∈ vs, Inhabits g items x := by
  refine ⟨fun inhabits => ?_, fun ⟨vs, listed, each⟩ => .array listed each⟩
  cases inhabits with
  | flat fits => cases isFlat_of_fits fits
  | array listed each => exact ⟨_, listed, each⟩

theorem object_iff {extra? : Option Shape} :
    Inhabits g (.object n props extra?) v ↔ ∃ entries, v.settle.entries? = some entries ∧
      (∀ p ∈ props, get? entries p.name = none → p.optional = true) ∧
      (∀ p ∈ props, ∀ x, get? entries p.name = some x → Inhabits g p.shape x) ∧
      ∀ extra, extra? = some extra → ∀ entry ∈ entries, Shape.property? props entry.1 = none →
      Inhabits g extra entry.2 := by
  refine ⟨fun inhabits => ?_, fun ⟨_, keyed, present, declared, undeclared⟩ =>
    .object keyed present declared undeclared⟩
  cases inhabits with
  | flat fits => cases isFlat_of_fits fits
  | object keyed present declared undeclared => exact ⟨_, keyed, present, declared, undeclared⟩

theorem union_iff {inclusive : Bool} :
    Inhabits g (.union n inclusive members) v ↔ ∃ m ∈ members, Inhabits g m v := by
  refine ⟨fun inhabits => ?_, fun ⟨_, member, inside⟩ => .union member inside⟩
  cases inhabits with
  | flat fits => cases isFlat_of_fits fits
  | union member inside => exact ⟨_, member, inside⟩

theorem intersection_iff : Inhabits g (.intersection n members) v ↔ ∀ m ∈ members, Inhabits g m v := by
  refine ⟨fun inhabits => ?_, .intersection⟩
  cases inhabits with
  | flat fits => cases isFlat_of_fits fits
  | intersection each => exact each

theorem handle_iff {id : Nat} :
    Inhabits g (.handle id) v ↔ ∀ target, g.target? id = some target → Inhabits g target v := by
  constructor
  · intro inhabits target found
    cases inhabits with
    | flat fits => cases isFlat_of_fits fits
    | unbound free => simp [found] at free
    | bound found' inside => rwa [← some.inj (found.symm.trans found')] at inside
  · intro inside
    cases found : g.target? id with
    | none => exact .unbound found
    | some target => exact .bound found (inside target found)

end Inhabits

theorem Shape.property?_eq_none_iff {name : String} :
    Shape.property? props name = none ↔ ∀ p ∈ props, p.name ≠ name := by
  simp [Shape.property?]

theorem Shape.property?_of_mem {prop : Property Shape} (distinct : (props.map (·.name)).Nodup)
    (member : prop ∈ props) : property? props prop.name = some prop := by
  induction props with
  | nil => cases member
  | cons first rest ih =>
    obtain ⟨new, later⟩ := nodup_cons.mp distinct
    rcases mem_cons.mp member with rfl | inside
    · exact find?_cons_of_pos (by simp)
    · have other : first.name ≠ prop.name := fun equal => new (mem_map.mpr ⟨prop, inside, equal.symm⟩)
      rw [property?, find?_cons_of_neg (by simpa using other)]
      exact ih later inside

theorem Inhabits.object_of_parts {m n : Nat} {ps qs : List (Property Shape)} {e f : Option Shape}
    (length : ps.length = qs.length)
    (named : ∀ (i : Nat) (p q : Property Shape), ps[i]? = some p → qs[i]? = some q →
      p.name = q.name ∧ p.optional = q.optional) (extras : e.isSome = f.isSome)
    (shaped : ∀ (i : Nat) (p q : Property Shape), ps[i]? = some p → qs[i]? = some q →
      ∀ x, Inhabits g p.shape x → Inhabits g q.shape x)
    (extra : ∀ s t, e = some s → f = some t → ∀ x, Inhabits g s x → Inhabits g t x)
    (inhabits : Inhabits g (.object m ps e) v) : Inhabits g (.object n qs f) v := by
  have partner {q : Property Shape} (member : q ∈ qs) :
      ∃ (i : Nat) (p : Property Shape), ps[i]? = some p ∧ qs[i]? = some q := by
    obtain ⟨i, here⟩ := getElem?_of_mem member
    exact ⟨i, _, List.getElem?_eq_getElem (length ▸ (List.getElem?_eq_some_iff.mp here).1), here⟩
  have partner' {p : Property Shape} (member : p ∈ ps) :
      ∃ (i : Nat) (q : Property Shape), ps[i]? = some p ∧ qs[i]? = some q := by
    obtain ⟨i, here⟩ := getElem?_of_mem member
    exact ⟨i, _, here, List.getElem?_eq_getElem (length ▸ (List.getElem?_eq_some_iff.mp here).1)⟩
  obtain ⟨entries, keyed, present, declared, undeclared⟩ := Inhabits.object_iff.mp inhabits
  refine .object keyed ?_ ?_ ?_
  · intro q member absent
    obtain ⟨i, p, here, there⟩ := partner member
    obtain ⟨name, optional⟩ := named i p q here there
    rw [← optional]
    exact present p (mem_of_getElem? here) (name ▸ absent)
  · intro q member x found
    obtain ⟨i, p, here, there⟩ := partner member
    exact shaped i p q here there x
      (declared p (mem_of_getElem? here) x ((named i p q here there).1 ▸ found))
  · rintro t rfl entry member free
    obtain ⟨s, rfl⟩ := isSome_iff_exists.mp extras
    refine extra s t rfl rfl _ (undeclared s rfl entry member ?_)
    rw [Shape.property?_eq_none_iff] at free ⊢
    intro p inside
    obtain ⟨i, q, here, there⟩ := partner' inside
    rw [(named i p q here there).1]
    exact free q (mem_of_getElem? there)

theorem Shape.Alike.inhabits {g : Graph} {s t : Shape} (alike : Alike s t) {v : Value}
    (inhabits : Inhabits g s v) : Inhabits g t v := by
  induction alike generalizing v with
  | refl => exact inhabits
  | dateTime m n format =>
    rw [Inhabits.flat_iff rfl (by simp)] at inhabits ⊢
    exact inhabits
  | literal left right means =>
    rw [Inhabits.literal_iff, matchesLiteral_iff] at inhabits ⊢
    exact literalEqual_trans inhabits ((literalEqual_decides left right).eq_ok_true means)
  | array _ ih =>
    obtain ⟨vs, listed, each⟩ := Inhabits.array_iff.mp inhabits
    exact .array listed fun x member => ih (each x member)
  | object length named _ extras _ ih ih' =>
    exact inhabits.object_of_parts length named extras (fun i p q here there x =>
      ih i p q here there) fun s t here there x =>
      ih' s t here there
  | union forth _ listed _ _ _ ih _ =>
    obtain ⟨m, member, inside⟩ := Inhabits.union_iff.mp inhabits
    exact .union (listed m member) (ih m member inside)

namespace Value

theorem fitsKind_of_isNumber (number : v.isNumber = true) (kind : Kind) :
    fitsKind v kind = (kind == .number) := by
  cases v <;> first | (cases number; done) | (cases kind <;> rfl)

theorem parts_of_isNumber (number : v.isNumber = true) : v.items? = none ∧ v.entries? = none := by
  cases v <;> first | exact ⟨rfl, rfl⟩ | cases number

theorem fitsKind_of_meaning_eq (left : v.Document) (right : w.Document)
    (same : v.meaning = w.meaning) (kind : Kind) : fitsKind v kind = fitsKind w kind := by
  rcases left.cases_of_meaning_eq right same with rfl | ⟨number, number'⟩ | ⟨as, bs, rfl, rfl, -⟩ |
    ⟨as, bs, rfl, rfl, -⟩
  · rfl
  · rw [fitsKind_of_isNumber number, fitsKind_of_isNumber number']
  all_goals cases kind <;> rfl

end Value

theorem Inhabits.of_meaning_eq {s : Shape} (inhabits : Inhabits g s v) (left : v.Document)
    (right : w.Document) (same : v.meaning = w.meaning) : Inhabits g s w := by
  induction inhabits generalizing w with
  | any => exact .any w
  | @flat s v fits =>
    rw [left.settle_eq, fitsKind_of_meaning_eq left right same] at fits
    exact .flat (right.settle_eq.symm ▸ fits)
  | @literal n l v equal =>
    rw [left.settle_eq, left.plain_eq, matchesLiteral_iff] at equal
    have again : w.literalEqual v = .ok true := (literalEqual_decides right left).eq_ok_true same.symm
    apply Inhabits.literal
    rw [right.settle_eq, right.plain_eq, matchesLiteral_iff]
    exact literalEqual_trans again equal
  | @array n items v vs listed each ih =>
    rw [left.settle_eq] at listed
    rcases left.cases_of_meaning_eq right same with rfl | ⟨number, -⟩ |
      ⟨as, bs, rfl, rfl, documents, documents', means⟩ |
      ⟨as, bs, rfl, rfl, -⟩
    · exact .array (left.settle_eq.symm ▸ listed) each
    · cases (parts_of_isNumber number).1.symm.trans listed
    · obtain rfl : as = vs := some.inj listed
      refine .array rfl fun x member => ?_
      rw [itemMeanings_eq, itemMeanings_eq] at means
      have there : x.meaning ∈ as.map meaning := means ▸ mem_map_of_mem member
      obtain ⟨y, member', same'⟩ := mem_map.mp there
      exact ih y member' (documents y member') (documents' x member) same'
    · cases listed
  | @object n props extra? v entries keyed present declared undeclared ih ih' =>
    rw [left.settle_eq] at keyed
    rcases left.cases_of_meaning_eq right same with rfl | ⟨number, -⟩ | ⟨as, bs, rfl, rfl, -⟩ |
      ⟨as, bs, rfl, rfl, documents, documents', means⟩
    · exact .object (left.settle_eq.symm ▸ keyed) present declared undeclared
    · cases (parts_of_isNumber number).2.symm.trans keyed
    · cases keyed
    · obtain rfl : as = entries := some.inj keyed
      have looked : ∀ name, (get? as name).map meaning = (get? bs name).map meaning := by
        intro name
        rw [← entryMeanings_get?, ← entryMeanings_get?, means]
      have found : ∀ name y, get? bs name = some y → ∃ x, get? as name = some x ∧
          x.meaning = y.meaning := by
        intro name y found
        have both := looked name
        rw [found] at both
        exact map_eq_some_iff.mp both
      refine .object rfl (fun p member absent => present p member ?_)
        (fun p member y there => ?_) fun extra equal entry member free => ?_
      · have both := looked p.name
        rw [absent] at both
        exact map_eq_none_iff.mp both
      · obtain ⟨x, here, same'⟩ := found p.name y there
        exact ih p member x here (documents _ (mem_of_get?_eq_some here))
          (documents' _ (mem_of_get?_eq_some there)) same'
      · rw [entryMeanings_eq, entryMeanings_eq] at means
        have there : (entry.1, entry.2.meaning) ∈ as.map fun e => (e.1, e.2.meaning) :=
          means ▸ mem_map_of_mem member
        obtain ⟨entry', member', equal'⟩ := mem_map.mp there
        obtain ⟨name, same'⟩ := Prod.mk.inj equal'
        exact ih' extra equal entry' member' (name ▸ free) (documents _ member')
          (documents' _ member) same'
  | union member _ ih => exact .union member (ih left right same)
  | intersection _ ih => exact .intersection fun m member => ih m member left right same
  | unbound free => exact .unbound free
  | bound found _ ih => exact .bound found (ih left right same)

theorem Shape.size_pos (s : Shape) : 0 < s.size := by
  cases s <;> simp [size]

end JsonShape
