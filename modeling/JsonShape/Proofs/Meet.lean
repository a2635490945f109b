import JsonShape.Proofs.Keeping
import JsonShape.Proofs.Narrowing
import Mathlib.Data.List.Sort

/-! Meets of plain shapes: those that describe documents, without handles. The meet accepts the
documents that both shapes accept. -/
namespace JsonShape
open List

theorem Value.Document.ordered {v : Value} (document : v.Document) : v.ordered = true := by
  unfold Value.ordered
  induction document with
  | seq _ ih => exact Value.everyMapItems_iff.mpr ih
  | map ascending _ ih =>
    have names := pairwise_map.mpr ascending
    rw [Value.everyMap, Bool.and_eq_true]
    exact ⟨decide_eq_true names, Value.everyMapEntries_iff.mpr ih⟩
  | _ => rfl

namespace Shape

variable {props : List (Property Shape)} {s : Shape}

theorem sortProperties_perm (props : List (Property Shape)) : (sortProperties props).Perm props :=
  mergeSort_perm props _

theorem sortProperties_ascending (distinct : (props.map (·.name)).Nodup) :
    (sortProperties props).Pairwise fun p q => p.name < q.name := by
  have sorted : (sortProperties props).Pairwise fun p q => p.name ≤ q.name := by
    refine (pairwise_mergeSort (fun p q r first second => ?_) (fun p q => ?_) props).imp
      fun less => by simpa using less
    · simp only [decide_eq_true_eq] at first second ⊢
      exact le_trans first second
    · simpa using le_total p.name q.name
  have distinct' : (sortProperties props).Pairwise fun p q => p.name ≠ q.name :=
    pairwise_map.mp (((sortProperties_perm props).map _).nodup_iff.mpr distinct)
  exact (sorted.and distinct').imp fun both => lt_of_le_of_ne both.1 both.2

theorem nodup_names_of_ascending (ascending : props.Pairwise fun p q => p.name < q.name) :
    (props.map (·.name)).Nodup :=
  pairwise_map.mpr (ascending.imp fun less => ne_of_lt less)

theorem merged_ascending {ps qs left right : List (Property Shape)}
    (ascending : ps.Pairwise fun p q => p.name < q.name)
    (ascending' : qs.Pairwise fun p q => p.name < q.name)
    (names : left.map (·.name) = ps.map (·.name))
    (names' : right.map (·.name) = (undeclared ps qs).map (·.name)) :
    (sortProperties (left ++ right)).Pairwise fun p q => p.name < q.name := by
  apply sortProperties_ascending
  rw [map_append, names, names']
  refine (nodup_names_of_ascending ascending).append
    ((nodup_names_of_ascending ascending').sublist (filter_sublist.map _)) ?_
  intro name here there
  obtain ⟨p, member, rfl⟩ := mem_map.mp here
  obtain ⟨q, member', equal⟩ := mem_map.mp there
  exact property?_eq_none_iff.mp (mem_undeclared.mp member').2 p member equal.symm

/-- The leaves and objects of plain shapes: no moments, bytes or handles, literals without parts,
and properties in the order of their names. -/
def PlainLeaf : Shape → Prop
  | dateTime _ _ | binary | handle _ => False
  | literal _ v => v.literalKind ≠ .array ∧ v.literalKind ≠ .object
  | object _ props _ => props.Pairwise fun p q => p.name < q.name
  | _ => True

theorem simple_plainLeaf : Simple PlainLeaf where
  any := trivial
  never := trivial
  poor s leaf := by cases s <;> first | rfl | exact leaf.elim
  bare _ leaf := leaf
  merged _ _ ascending ascending' names names' := merged_ascending ascending ascending' names names'

theorem orderly_of_plain (plain : s.Tidy PlainLeaf) (g : Graph) : g.Orderly s := by
  intro t reached
  cases plain.of_reaches simple_plainLeaf.bare reached with
  | flat flat leaf => cases t <;> first | rfl | exact leaf.elim | cases flat
  | object own _ _ => exact decide_eq_true own
  | _ => rfl

theorem inhabits_of_plain {g g' : Graph} {v : Value} (plain : s.Tidy PlainLeaf)
    (inhabits : Inhabits g s v) : Inhabits g' s v := by
  induction inhabits with
  | any v => exact .any v
  | flat fits => exact .flat fits
  | literal equal => exact .literal equal
  | array listed _ ih => exact .array listed fun x member => ih x member (plain.piece mem_cons_self)
  | object keyed present _ _ ih ih' =>
    refine .object keyed present (fun p member x found =>
      ih p member x found (plain.piece (mem_pieces_of_mem_props member))) ?_
    rintro extra rfl entry member unknown
    exact ih' extra rfl entry member unknown (plain.piece mem_pieces_of_extra)
  | union member _ ih => exact .union member (ih (plain.piece member))
  | intersection _ ih => exact .intersection fun m member => ih m member (plain.piece member)
  | unbound => exact plain.of_handle.elim
  | bound => exact plain.of_handle.elim

structure IsMeet (a b s : Shape) : Prop where
  plain : s.Tidy PlainLeaf
  accepts : ∀ g v, v.Document → (Inhabits g s v ↔ Inhabits g a v ∧ Inhabits g b v)

theorem intersect_yields (g : Graph) {a b : Shape} (left : a.Tidy PlainLeaf)
    (right : b.Tidy PlainLeaf) : (intersect g a b).Yields (IsMeet a b) := by
  intro n
  have apart : ¬ Opposed g a b := not_opposed simple_plainLeaf (fun _ _ leaf => leaf) left right
  obtain ⟨s, n', run, plain, kept⟩ := intersect_tidy simple_plainLeaf left right apart n
  have narrows : Narrows g a b s := intersect_ensures (narrows_rules g) a b n s n' run
  refine ⟨s, n', run, plain, fun g' v document => ⟨fun inhabits => ?_, fun both => ?_⟩⟩
  · have both := narrows (orderly_of_plain left g) (orderly_of_plain right g) v document.ordered
        (inhabits_of_plain plain inhabits)
    exact ⟨inhabits_of_plain left both.1, inhabits_of_plain right both.2⟩
  · exact inhabits_of_plain plain (kept v document (inhabits_of_plain left both.1)
      (inhabits_of_plain right both.2))

theorem intersectAll_yields (g : Graph) {shapes : List Shape}
    (plain : ∀ s ∈ shapes, s.Tidy PlainLeaf) :
    (intersectAll g shapes).Yields fun s => s.Tidy PlainLeaf ∧ ∀ g v, v.Document →
      (Inhabits g s v ↔ ∀ m ∈ shapes, Inhabits g m v) := by
  have fold : ∀ start : Shape, start.Tidy PlainLeaf →
      (shapes.foldlM (intersect g) start).Yields fun s => s.Tidy PlainLeaf ∧
      ∀ g v, v.Document → (Inhabits g s v ↔ Inhabits g start v ∧ ∀ m ∈ shapes, Inhabits g m v) := by
    induction shapes with
    | nil => exact fun start plain => .pure ⟨plain, by simp⟩
    | cons m rest ih =>
      intro start plain'
      rw [foldlM_cons]
      refine (intersect_yields g plain' (plain m mem_cons_self)).bind fun s meets => ?_
      refine (ih (forall_mem_cons.mp plain).2 s meets.plain).imp fun r both =>
        ⟨both.1, fun g v document => ?_⟩
      rw [both.2 g v document, meets.accepts g v document, and_assoc, forall_mem_cons]
  refine (fold any (.flat rfl trivial)).imp fun s both => ⟨both.1, fun g v document => ?_⟩
  rw [both.2 g v document]
  simp [Inhabits.any]

theorem ofProperties_yields {extra? : Option Shape} (distinct : (props.map (·.name)).Nodup)
    (inside : ∀ p ∈ props, p.shape.Tidy PlainLeaf)
    (extra : ∀ s, extra? = some s → s.Tidy PlainLeaf) :
    (ofProperties props extra?).Yields fun s => ∃ n sorted, s = object n sorted extra? ∧
      s.Tidy PlainLeaf ∧ sorted.Perm props := by
  have permuted := sortProperties_perm props
  refine .serial fun n => .pure ⟨n, _, rfl, .object (sortProperties_ascending distinct) ?_ extra, permuted⟩
  exact fun p member => inside p (permuted.mem_iff.mp member)

end Shape

end JsonShape
