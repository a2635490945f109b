import JsonShape.Proofs.Blending
import Mathlib

/-! The order of intersections. The intersection of many shapes lies between two kinds of joint
acceptance, and neither depends on the order of the shapes. -/
namespace JsonShape.Shape

open Conformance List

variable {g : Graph} {lo : Nat}

def Below (lo : Nat) (s : Shape) : Prop := ∀ (n : Nat) (inclusive : Bool) (members : List Shape),
  union n inclusive members ∈ s.subshapes → n < lo

theorem Stems.unshared {a b s u : Shape} (stems : Stems lo a b s) (left : Unshared a u)
    (right : Unshared b u) (below : u.Below lo) : Unshared s u := by
  intro t here there choice
  obtain ⟨n, inclusive, members, rfl⟩ := exists_of_kind_union choice
  rcases stems n inclusive members here with old | old | new
  · exact left _ old there choice
  · exact right _ old there choice
  · exact absurd (below n inclusive members there) (Nat.not_lt.mpr new)

theorem intersect_blends (g : Graph) {a b : Shape} (left : a.Normal) (right : b.Normal) {n : Nat}
    (low : lo ≤ n) : ∃ s n', intersect g a b n = .ok (s, n') ∧ lo ≤ n' ∧ Blend g lo a b s := by
  cases run : intersect g a b n with
  | error e =>
    have documented : ∀ {s : Shape}, s.Normal → g.Documented s :=
      fun normal => normal.tidy.documented g fun _ => absurd rfl
    exact absurd ⟨documented left, documented right⟩ (intersect_compares g a b n e run).2
  | ok result =>
    obtain ⟨low', blends⟩ := intersect_ensures_from (blends_rules g lo) a b n result.1 result.2 low run
    exact ⟨result.1, result.2, rfl, low', blends left right⟩

theorem foldlM_intersect (g : Graph) {us : List Shape} (each : ∀ u ∈ us, u.Normal) {start : Shape}
    (own : start.Normal) {n : Nat} (low : lo ≤ n) :
    ∃ s n', us.foldlM (intersect g) start n = .ok (s, n') ∧ s.Normal ∧
      (∀ v, Joint g False [s] v → Joint g False (start :: us) v) ∧ ∀ v, v.Coarse ∨
      (start :: us).Pairwise Unshared ∧ (∀ u ∈ us, u.Below lo) → Joint g True (start :: us) v →
      Joint g True [s] v := by
  induction us generalizing start n with
  | nil => exact ⟨start, n, rfl, own, fun _ => id, fun _ _ => id⟩
  | cons u rest ih =>
    obtain ⟨m, n', run, low', blend⟩ := intersect_blends g own (each u mem_cons_self) low
    obtain ⟨s, n'', run', normal, sound, complete⟩ := ih (forall_mem_cons.mp each).2 blend.normal low'
    refine ⟨s, n'', ?_, normal, fun v joint => blend.sound rest v (sound v joint),
      fun v way joint => complete v ?_ (blend.complete rest v ?_ joint)⟩
    · rw [foldlM_cons, ← run']
      exact congrArg (fun r => r >>= fun (a, n) => rest.foldlM (intersect g) a n) run
    · refine way.imp_right fun ⟨pairs, below⟩ => ?_
      obtain ⟨first, pairs⟩ := pairwise_cons.mp pairs
      obtain ⟨second, later⟩ := pairwise_cons.mp pairs
      have below' : ∀ t ∈ rest, t.Below lo := (forall_mem_cons.mp below).2
      refine ⟨pairwise_cons.mpr ⟨fun t member => ?_, later⟩, below'⟩
      exact blend.stems.unshared (first t (mem_cons_of_mem _ member)) (second t member) (below' t member)
    · exact way.imp_right fun both => (pairwise_cons.mp both.1).1 u mem_cons_self

theorem unshared_any (u : Shape) : Unshared any u := by
  intro t inside _ choice
  rw [eq_any_of_mem_subshapes inside] at choice
  cases choice

/-- The intersection of shapes in normal form accepts only what they accept jointly, and all of it
if the literals agree and no union of moments or bytes is shared. -/
theorem intersectAll_between (g : Graph) {ts : List Shape} (normal : ∀ t ∈ ts, t.Normal) {n : Nat}
    (below : ∀ t ∈ ts, t.Below n) :
    ∃ s n', intersectAll g ts n = .ok (s, n') ∧ s.Normal ∧ ∀ v, v.ordered = true →
      (Inhabits g s v → Joint g False ts v) ∧
      (v.Coarse ∨ ts.Pairwise Unshared → Joint g True ts v → Inhabits g s v) := by
  obtain ⟨s, n', run, own, sound, complete⟩ :=
    foldlM_intersect g normal (.flat rfl : any.Normal) (Nat.le_refl n)
  refine ⟨s, n', run, own, fun v ordered =>
    ⟨fun inhabits => ?_, fun way joint => Joint.inhabits own (complete v ?_ ?_)⟩⟩
  · refine (sound v (joint_of_inhabits own ordered inhabits)).carry (carries_drops g) ⟨[any], rfl, .inr ?_⟩
    exact forall_mem_singleton.mpr (.inl coarse_any)
  · exact way.imp_right fun pairs => ⟨pairwise_cons.mpr ⟨fun u _ => unshared_any u, pairs⟩, below⟩
  · exact joint.carry (carries_repeats g) ⟨[any], rfl, forall_mem_singleton.mpr (.inl rfl)⟩

/-- The intersection of shapes in normal form accepts the same values in every order. For moments
and bytes this takes that no union of such is shared, and that the literals of what is accepted
jointly agree. -/
theorem intersectAll_perm (g : Graph) {ts us : List Shape} (perm : ts.Perm us) (m n : Nat)
    (normal : ∀ t ∈ ts, t.Normal) (below : ∀ t ∈ ts, t.Below m ∧ t.Below n) :
    ∃ s m' t n', intersectAll g ts m = .ok (s, m') ∧ intersectAll g us n = .ok (t, n') ∧
      ∀ v, v.ordered = true → v.Coarse ∨ ts.Pairwise Unshared ∧
      (Joint g False ts v → Joint g True ts v) → ∃ answer, conforms g s v = .ok answer ∧
      conforms g t v = .ok answer := by
  have back : ∀ {u}, u ∈ us → u ∈ ts := perm.mem_iff.mpr
  have normal' : ∀ u ∈ us, u.Normal := fun u member => normal u (back member)
  obtain ⟨s, m', run, own, between⟩ := intersectAll_between g normal fun t member => (below t member).1
  obtain ⟨t, n', run', own', between'⟩ :=
    intersectAll_between g normal' fun u member => (below u (back member)).2
  refine ⟨s, m', t, n', run, run', fun v ordered way => ?_⟩
  obtain ⟨sound, complete⟩ := between v ordered
  obtain ⟨sound', complete'⟩ := between' v ordered
  have agree : Joint g False ts v → Joint g True ts v :=
    way.elim (fun coarse => Joint.agree normal ordered (.inl coarse)) And.right
  have free : v.Coarse ∨ ts.Pairwise Unshared := way.imp_right And.left
  have free' : v.Coarse ∨ us.Pairwise Unshared :=
    free.imp_right fun pairs => perm.pairwise pairs Unshared.symm
  have same : Inhabits g s v ↔ Inhabits g t v := by
    constructor
    · exact fun inhabits => complete' free' ((agree (sound inhabits)).carry (carries_perm g) perm)
    · exact fun inhabits => complete free (agree ((sound' inhabits).carry (carries_perm g) perm.symm))
  obtain ⟨answer, checked, means⟩ := conforms_decides g own.tidy v
  obtain ⟨answer', checked', means'⟩ := conforms_decides g own'.tidy v
  obtain rfl : answer = answer' := Bool.eq_iff_iff.mpr (means.trans (same.trans means'.symm))
  exact ⟨answer, checked, checked'⟩

def planned : Shape :=
  object 3 [⟨"at", union 2 false [dateTime 0 "date-time", literal 1 (.string "open")], false, none⟩]
  none

def booked : Shape :=
  object 6 [⟨"at", union 5 true [literal 4 (.string "open"), null], false, none⟩,
    ⟨"seats", number true, true, none⟩] none

def dated : Shape := object 8 [⟨"at", dateTime 7 "date", false, none⟩] (some string)

def visit : Value := .map .values [("at", .time ⟨63876600000, 0, .utc⟩), ("note", .string "late")]

theorem visit_reordered :
    [planned, booked, dated].Perm [dated, planned, booked] ∧
      (∀ t ∈ [planned, booked, dated], t.Normal ∧ t.Below 9) ∧
      [planned, booked, dated].Pairwise Unshared ∧ TextsAgree [planned, booked, dated] ∧
      visit.ordered = true ∧ ¬ visit.Coarse ∧ ∃ s m t n, intersectAll {}
      [planned, booked, dated] 9 = .ok (s, m) ∧ intersectAll {} [dated, planned, booked] 9 =
      .ok (t, n) ∧ conforms {} s visit = .ok true ∧ conforms {} t visit = .ok true := by
  have moved : ([planned, booked] ++ [dated]).Perm ([dated] ++ [planned, booked]) := perm_append_comm
  have perm : [planned, booked, dated].Perm [dated, planned, booked] := moved
  have parts : planned.subshapes = [planned,
      union 2 false [dateTime 0 "date-time", literal 1 (.string "open")], dateTime 0 "date-time",
      literal 1 (.string "open")] ∧ booked.subshapes =
      [booked, union 5 true [literal 4 (.string "open"), null], literal 4 (.string "open"),
      null, number true] ∧ dated.subshapes = [dated, dateTime 7 "date", string] := by
    simp [planned, booked, dated, subshapes_eq, pieces]
  have normal : ∀ t ∈ [planned, booked, dated], t.Normal := by
    have text : ∀ n, (literal n (.string "open")).Normal := fun n => .literal (.string "open")
    simp only [forall_mem_cons]
    refine ⟨.object (by simp) (forall_mem_singleton.mpr (.union ?_ ?_ ?_)) (by simp),
      .object (pairwise_pair.mpr (by decide)) (forall_mem_cons.mpr ⟨.union ?_ ?_ ?_, ?_⟩) (by simp),
      .object (by simp) ?_ ?_, by simp⟩
    all_goals first | exact pairwise_pair.mpr (by rintro ⟨⟩) | (simp [text, kind]; try exact .flat rfl)
  have below : ∀ t ∈ [planned, booked, dated], t.Below 9 := by
    simp only [forall_mem_cons, Below, parts]
    simp +contextual [planned, booked, dated]
  have unshared : [planned, booked, dated].Pairwise Unshared := by
    simp only [pairwise_cons, forall_mem_cons, Unshared, parts]
    simp [planned, booked, dated, kind]
  have texts : TextsAgree [planned, booked, dated] := by
    simp only [forall_mem_cons, TextsAgree, parts]
    simp +contextual [planned, booked, dated]
  have ordered : visit.ordered = true := by decide
  have rich : ¬ visit.Coarse := by
    intro coarse
    have moment := coarse.entry rfl mem_cons_self
    exact moment.not_inhabits (s := dateTime 0 "") rfl (.flat rfl : Inhabits {} _ _)
  obtain ⟨s, m, t, n, run, run', same⟩ := intersectAll_perm {} perm 9 9 normal fun t member =>
      ⟨below t member, below t member⟩
  obtain ⟨answer, checked, checked'⟩ :=
    same visit ordered (.inr ⟨unshared, Joint.agree normal ordered (.inr texts)⟩)
  have accepted : (intersectAll {} [planned, booked, dated] 9).bind (fun result =>
      conforms {} result.1 visit) = .ok true := by cbv
  obtain rfl : answer = true := by
    rw [run] at accepted
    exact Except.ok.inj (checked.symm.trans accepted)
  exact ⟨perm, fun t member => ⟨normal t member, below t member⟩, unshared, texts, ordered, rich, s,
    m, t, n, run, run', checked, checked'⟩

def noon : Value := .time ⟨63876600000, 0, .utc⟩

def halves : Shape := union 4 false
    [object 1 [⟨"from", dateTime 0 "date-time", false, none⟩, ⟨"to", string, false, none⟩] none,
  object 3 [⟨"from", string, false, none⟩, ⟨"to", dateTime 2 "date-time", false, none⟩] none]

/-- The order counts where two literals that differ give way to a moment, and where a union of
moments is met with itself. -/
theorem order_counts :
    intersectAll {} [literal 0 (.string "x"), literal 1 (.string "y"), dateTime 2 "date-time"] 3 =
      .ok (never, 3) ∧ intersectAll {}
      [literal 0 (.string "x"), dateTime 2 "date-time", literal 1 (.string "y")] 3 =
      .ok (dateTime 2 "date-time", 3) ∧ conforms {} never noon = .ok false ∧
      conforms {} (dateTime 2 "date-time") noon = .ok true ∧
      (intersectAll {} [halves, object 5 [] none, halves] 6).bind (fun result =>
      conforms {} result.1 (.map .values [("from", noon), ("to", noon)])) = .ok true ∧
      (intersectAll {} [halves, halves, object 5 [] none] 6).bind (fun result =>
      conforms {} result.1 (.map .values [("from", noon), ("to", noon)])) = .ok false := by
  refine ⟨?_, ?_, rfl, rfl, ?_, ?_⟩ <;> cbv

end JsonShape.Shape
