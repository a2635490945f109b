import JsonShape.Wire
import JsonShape.Proofs.Guard

/-! Conversions and checks, one level of a shape at a time. A conversion that notes no issue leaves
the issues as they were; a check that finds nothing finds nothing in any part. -/
namespace JsonShape
open List Option Entries Except

variable {entries : List (String × Value)} {vs : List Value} {items : Shape}

/-- The values that are put on the wire: documents, with numbers of any kind, moments and bytes in
them. -/
inductive Value.Rich : Value → Prop
  | null : Rich .null
  | bool (b : Bool) : Rich (.bool b)
  | string (s : String) : Rich (.string s)
  | decimal (text : String) : Rich (.decimal text)
  | int (type : String) (n : Int) : Rich (.int type n)
  | single (x : Number.Binary) : Rich (.single x)
  | double (x : Number.Binary) : Rich (.double x)
  | time {t : Time.Moment} (fine : t.nano < 10 ^ 9) : Rich (.time t)
  | bytes (bs : List UInt8) : Rich (.bytes bs)
  | seq {items : List Value} (each : ∀ x ∈ items, Rich x) : Rich (.seq .values items)
  | map {entries : List (String × Value)} (ascending : Ascending entries)
      (each : ∀ e ∈ entries, Rich e.2) :
    Rich (.map .values entries)

namespace Value.Rich

variable {v : Value}

theorem settle_eq (rich : v.Rich) : v.settle = v := by cases rich <;> rfl

theorem of_items (rich : v.Rich) (listed : v.items? = some vs) :
    v = .seq .values vs ∧ ∀ x ∈ vs, x.Rich := by
  cases rich with
  | seq each =>
    obtain rfl := some.inj listed
    exact ⟨rfl, each⟩
  | _ => cases listed

theorem of_entries (rich : v.Rich) (keyed : v.entries? = some entries) :
    v = .map .values entries ∧ Ascending entries ∧ ∀ e ∈ entries, e.2.Rich := by
  cases rich with
  | map ascending each =>
    obtain rfl := some.inj keyed
    exact ⟨rfl, ascending, each⟩
  | _ => cases keyed

end Value.Rich

def Shape.entryShape? (props : List (Property Shape)) (extra? : Option Shape) (key : String) :
    Option Shape :=
  ((property? props key).map (·.shape)).or extra?

theorem Shape.entryShape?_mem_pieces {n : Nat} {props : List (Property Shape)}
    {extra? : Option Shape} {key : String} {s : Shape}
    (asked : entryShape? props extra? key = some s) : s ∈ (Shape.object n props extra?).pieces := by
  rcases or_eq_some_iff.mp asked with declared | ⟨-, extra⟩
  · obtain ⟨prop, found, rfl⟩ := map_eq_some_iff.mp declared
    exact mem_pieces_of_mem_props (mem_of_find?_eq_some found)
  · obtain rfl := extra
    exact mem_pieces_of_extra

namespace Conformance

variable {g : Graph} {budget n id : Nat} {opened : Opened} {v : Value} {p : Path}
  {props : List (Property Shape)} {extra? : Option Shape}
variable {target : Shape}

theorem checkEach_eq_nil_iff {α : Type} {check : α → Findings} {items : List α} :
    checkEach check items = .ok [] ↔ ∀ a ∈ items, check a = .ok [] := by
  induction items with
  | nil => simp [checkEach]; rfl
  | cons a rest ih =>
    rw [forall_mem_cons, ← ih, checkEach]
    cases check a with
    | error e => exact ⟨by rintro ⟨⟩, by rintro ⟨⟨⟩, -⟩⟩
    | ok found =>
      cases checkEach check rest with
      | error e => exact ⟨by rintro ⟨⟩, by rintro ⟨-, ⟨⟩⟩⟩
      | ok more =>
        show ok (found ++ more) = ok [] ↔ _
        simp

theorem check_array_eq_nil_iff (settled : v.settle = v) :
    check g (budget + 1) opened (.array n items) v p = .ok [] ↔ ∃ vs, v.items? = some vs ∧
      ∀ e ∈ vs.zipIdx, check g budget opened items e.1 (p.index e.2) = .ok [] := by
  rw [check]
  simp only [settled]
  cases listed : v.items? with
  | none => exact ⟨by rintro ⟨⟩, by rintro ⟨_, ⟨⟩, -⟩⟩
  | some vs =>
    rw [checkEach_eq_nil_iff]
    refine ⟨fun each => ⟨vs, rfl, each⟩, ?_⟩
    rintro ⟨_, ⟨⟩, each⟩
    exact each

theorem check_object_parts (keyed : v.settle.entries? = some entries) :
    check g (budget + 1) opened (.object n props extra?) v p = .ok [] ↔
      checkEach (checkProperty (check g budget opened) entries p) props = .ok [] ∧ ∀ extra,
      extra? = some extra → checkExtra (check g budget opened) entries p props extra = .ok [] := by
  rw [check]
  simp only [keyed]
  cases checkEach (checkProperty (check g budget opened) entries p) props with
  | error e => exact ⟨by rintro ⟨⟩, by rintro ⟨⟨⟩, -⟩⟩
  | ok declared =>
    cases extra? with
    | none =>
      show ok (declared ++ []) = ok [] ↔ _
      simp
    | some extra =>
      show (checkExtra (check g budget opened) entries p props extra >>= fun rest =>
        ok (declared ++ rest)) = ok [] ↔ _
      cases rest : checkExtra (check g budget opened) entries p props extra with
      | error e => exact ⟨by rintro ⟨⟩, fun both => by cases rest.symm.trans (both.2 extra rfl)⟩
      | ok found =>
        show ok (declared ++ found) = ok [] ↔ _
        simp [rest]

theorem check_object_eq_nil_iff (distinct : (props.map (·.name)).Nodup)
    (keyed : v.settle.entries? = some entries) (ascending : Ascending entries) :
    check g (budget + 1) opened (.object n props extra?) v p = .ok [] ↔
      (∀ prop ∈ props, prop.optional = false → ∃ e ∈ entries, e.1 = prop.name) ∧ ∀ e ∈ entries, ∀ s,
      Shape.entryShape? props extra? e.1 = some s →
      check g budget opened s e.2 (p.field e.1) = .ok [] := by
  rw [check_object_parts keyed, checkEach_eq_nil_iff]
  constructor
  · rintro ⟨declared, extras⟩
    constructor
    · intro prop member required
      have passed := declared prop member
      rw [checkProperty] at passed
      cases found : get? entries prop.name with
      | some x => exact ⟨_, mem_of_get?_eq_some found, rfl⟩
      | none => simp [found, required, pure, Except.pure] at passed
    · intro e member s asked
      rcases or_eq_some_iff.mp asked with known | ⟨unknown, extra⟩
      · obtain ⟨prop, found, rfl⟩ := map_eq_some_iff.mp known
        have named : prop.name = e.1 := by simpa using find?_some found
        have passed := declared prop (mem_of_find?_eq_some found)
        rwa [checkProperty, named, get?_eq_some_of_mem ascending member] at passed
      · have passed := checkEach_eq_nil_iff.mp (extras s extra)
        exact passed e (mem_filter.mpr ⟨member, by simpa using unknown⟩)
  · rintro ⟨present, each⟩
    constructor
    · intro prop member
      rw [checkProperty]
      cases found : get? entries prop.name with
      | some x =>
        apply each _ (mem_of_get?_eq_some found)
        rw [Shape.entryShape?, Shape.property?_of_mem distinct member]
        rfl
      | none =>
        cases optional : prop.optional with
        | true => rfl
        | false =>
          obtain ⟨e, inside, named⟩ := present prop member optional
          rw [← named, get?_eq_some_of_mem ascending inside] at found
          cases found
    · intro extra known
      apply checkEach_eq_nil_iff.mpr
      intro e kept
      obtain ⟨member, unknown⟩ := mem_filter.mp kept
      apply each e member
      rw [Shape.entryShape?, isNone_iff_eq_none.mp unknown, known]
      rfl

theorem not_contains_of_check (passes : check g (budget + 1) opened (.handle id) v p = .ok []) :
    opened.contains (id, p.pointer) = false := by
  rw [check] at passes
  split at passes
  · cases passes
  · rename_i fresh
    simpa using fresh

theorem check_bound (fresh : opened.contains (id, p.pointer) = false)
    (found : g.target? id = some target) :
    check g (budget + 1) opened (.handle id) v p = check g budget ((id, p.pointer) :: opened)
      target v p := by
  rw [check, ← check_settle g budget _ target v p]
  simp only [fresh, found, Bool.false_eq_true, if_false]

end Conformance

namespace Wire

variable {α β : Type} {c : Convert α} {f : α → Convert β} {a : α} {b : β} {as : List α} {bs : List β}

def Yields (c : Convert α) (a : α) : Prop := ∀ issues, c issues = .ok (a, issues)

theorem Yields.pure (a : α) : Yields (Pure.pure a : Convert α) a := fun _ => rfl

theorem Yields.bind (first : Yields c a) (next : Yields (f a) b) : Yields (c >>= f) b := by
  intro issues
  show (c issues >>= fun r => f r.1 r.2) = _
  rw [first issues]
  exact next issues

theorem Yields.mapM_nil (f : α → Convert β) : Yields ([].mapM f) [] := by
  rw [List.mapM_nil]
  exact .pure []

theorem Yields.mapM_cons (first : Yields (f a) b) (rest : Yields (as.mapM f) bs) :
    Yields ((a :: as).mapM f) (b :: bs) := by
  rw [List.mapM_cons]
  exact first.bind (rest.bind (.pure _))

variable {g : Graph} {direction : Direction} {budget n id : Nat} {opened : Conformance.Opened}
  {s : Shape} {v : Value} {p : Path}
variable {props : List (Property Shape)} {extra? : Option Shape}

theorem Yields.eq_of_pure {b : α} (yields : Yields (Pure.pure a : Convert α) b) : a = b :=
  (Prod.mk.inj (ok.inj (yields []))).1

/-- A conversion that notes issues after those that are there, whatever they are. -/
def Appends (c : Convert α) : Prop := ∀ issues, c issues = (c []).map fun r => (r.1, issues ++ r.2)

namespace Appends

theorem pure (a : α) : Appends (Pure.pure a : Convert α) := fun issues =>
  congrArg (fun more => ok (a, more)) issues.append_nil.symm

theorem throw (fault : Fault) : Appends (MonadExcept.throw fault : Convert α) := fun _ => rfl

theorem note (issue : Issue) : Appends (note issue) := fun _ => rfl

theorem lift (result : Except Fault α) : Appends (liftM result : Convert α) := by
  intro issues
  cases result with
  | error e => rfl
  | ok a => exact pure a issues

theorem bind (first : Appends c) (next : ∀ a, Appends (f a)) : Appends (c >>= f) := by
  intro issues
  show (c issues >>= fun r => f r.1 r.2) = (c [] >>= fun r => f r.1 r.2).map _
  rw [first issues]
  cases c [] with
  | error e => rfl
  | ok r =>
    show f r.1 (issues ++ r.2) = (f r.1 r.2).map _
    rw [next r.1 (issues ++ r.2), next r.1 r.2]
    cases f r.1 [] with
    | error e => rfl
    | ok last => exact congrArg (fun more => ok (last.1, more)) (append_assoc _ _ _)

theorem mapM (each : ∀ a ∈ as, Appends (f a)) : Appends (as.mapM f) := by
  induction as with
  | nil => exact pure []
  | cons a rest ih =>
    rw [mapM_cons]
    refine bind (each a mem_cons_self) fun b => ?_
    exact bind (ih (forall_mem_cons.mp each).2) fun bs => pure (b :: bs)

theorem foldlM {f : β → α → Convert β} (each : ∀ b, ∀ a ∈ as, Appends (f b a)) (b : β) :
    Appends (as.foldlM f b) := by
  induction as generalizing b with
  | nil => exact pure b
  | cons a rest ih =>
    rw [foldlM_cons]
    exact bind (each b a mem_cons_self) (ih fun b a member => each b a (mem_cons_of_mem _ member))

theorem yields (appends : Appends c) (run : c [] = .ok (a, [])) : Yields c a := by
  intro issues
  rw [appends issues, run]
  exact congrArg (fun more => ok (a, more)) issues.append_nil

end Appends

theorem Yields.of_bind (run : Yields (c >>= f) b) (first : Appends c) (next : ∀ a, Appends (f a)) :
    ∃ a, Yields c a ∧ Yields (f a) b := by
  obtain ⟨⟨a, issues⟩, here, later⟩ := bind_eq_ok_iff.mp (run [])
  change f a issues = .ok (b, []) at later
  rw [next a issues] at later
  obtain ⟨⟨b', more⟩, there, equal⟩ := bind_eq_ok_iff.mp later
  obtain ⟨rfl, none⟩ := Prod.mk.inj (ok.inj equal)
  obtain ⟨rfl, rfl⟩ := append_eq_nil_iff.mp none
  exact ⟨a, first.yields here, (next a).yields there⟩

theorem Yields.of_mapM (run : Yields (as.mapM f) bs) (each : ∀ a ∈ as, Appends (f a)) :
    as.length = bs.length ∧ ∀ (i : Nat) a b, as[i]? = some a → bs[i]? = some b → Yields (f a) b := by
  induction as generalizing bs with
  | nil =>
    obtain rfl := run.eq_of_pure
    exact ⟨rfl, nofun⟩
  | cons a rest ih =>
    obtain ⟨here, later⟩ := forall_mem_cons.mp each
    rw [List.mapM_cons] at run
    obtain ⟨b, first, run⟩ := run.of_bind here fun b => .bind (.mapM later) fun bs => .pure (b :: bs)
    obtain ⟨bs, second, run⟩ := run.of_bind (.mapM later) fun bs => .pure (b :: bs)
    obtain rfl := run.eq_of_pure
    obtain ⟨length, inside⟩ := ih second later
    refine ⟨congrArg Nat.succ length, fun i x y atX atY => ?_⟩
    cases i with
    | zero =>
      obtain rfl := some.inj atX
      obtain rfl := some.inj atY
      exact first
    | succ i => exact inside i x y atX atY

theorem exists_yields_map (appends : Appends c) (h : α → β) :
    (∃ b, Yields (c >>= fun a => return h a) b) ↔ ∃ a, Yields c a := by
  constructor
  · rintro ⟨b, run⟩
    obtain ⟨a, first, -⟩ := run.of_bind appends fun a => .pure (h a)
    exact ⟨a, first⟩
  · rintro ⟨a, run⟩
    exact ⟨h a, run.bind (.pure _)⟩

theorem exists_yields_mapM (appends : ∀ a ∈ as, Appends (f a)) :
    (∃ bs, Yields (as.mapM f) bs) ↔ ∀ a ∈ as, ∃ b, Yields (f a) b := by
  constructor
  · rintro ⟨bs, run⟩ a member
    obtain ⟨long, each⟩ := run.of_mapM appends
    obtain ⟨i, here⟩ := getElem?_of_mem member
    have inside : i < bs.length := long ▸ (List.getElem?_eq_some_iff.mp here).1
    exact ⟨bs[i], each i a _ here (getElem?_eq_getElem inside)⟩
  · intro each
    induction as with
    | nil => exact ⟨[], .mapM_nil f⟩
    | cons a rest ih =>
      rw [forall_mem_cons] at appends each
      obtain ⟨b, first⟩ := each.1
      obtain ⟨bs, later⟩ := ih appends.2 each.2
      exact ⟨b :: bs, .mapM_cons first later⟩

def convertEntry (g : Graph) (direction : Direction) (budget : Nat) (opened : Conformance.Opened)
    (props : List (Property Shape)) (extra? : Option Shape) (p : Path) (e : String × Value) :
    Convert (String × Value) :=
  match Shape.entryShape? props extra? e.1 with
  | none => return e
  | some s => do return (e.1, ← convert g direction budget opened s e.2 (p.field e.1))

theorem convert_array (listed : convertible? v = some vs) :
    convert g direction (budget + 1) opened (.array n items) v p = (vs.zipIdx.mapM fun e =>
      convert g direction budget opened items e.1 (p.index e.2)) >>= fun ws =>
      return .seq .values ws := by
  rw [convert]
  simp only [listed]

theorem convert_object (keyed : v.entries? = some entries) :
    convert g direction (budget + 1) opened (.object n props extra?) v p = entries.mapM
      (convertEntry g direction budget opened props extra? p) >>= fun converted =>
      return .map .values converted := by
  rw [convert]
  simp only [keyed]
  rfl

def isInert : Shape → Bool
  | .any | .never | .null | .boolean | .number _ | .string | .literal _ _ => true
  | _ => false

theorem convert_inert (inert : isInert s = true) (v : Value) :
    convert g direction (budget + 1) opened s v p = (return v) := by
  cases s <;> cases inert <;> rfl

theorem convert_unbound (free : g.target? id = none) :
    convert g direction (budget + 1) opened (.handle id) v p = (return v) := by
  rw [convert]
  simp only [free, ite_self]

theorem convert_bound {target : Shape} (fresh : opened.contains (id, p.pointer) = false)
    (found : g.target? id = some target) :
    convert g direction (budget + 1) opened (.handle id) v p = convert g direction budget
      ((id, p.pointer) :: opened) target v p := by
  rw [convert]
  simp only [fresh, found, Bool.false_eq_true, if_false]

theorem settleLeaf_appends (p : Path) (result : Except Issue Value) : Appends (settleLeaf p result) := by
  cases result with
  | error issue => exact .bind (.note _) fun _ => .pure _
  | ok v => exact .pure v

theorem unfit_appends (p : Path) (accepted expected : String) (v : Value) :
    Appends (unfit p accepted expected v) :=
  .bind (.note _) fun _ => .pure v

theorem convertTime_appends (direction : Direction) (format : String) (v : Value) (p : Path) :
    Appends (convertTime direction format v p) := by
  unfold convertTime
  dsimp only
  split <;> first
    | exact .pure _
    | exact settleLeaf_appends _ _
    | exact .bind (settleLeaf_appends _ _) fun _ => .pure _
    | exact unfit_appends _ _ _ _

theorem convertBytes_appends (direction : Direction) (v : Value) (p : Path) :
    Appends (convertBytes direction v p) := by
  unfold convertBytes
  split <;> first
    | exact .pure _
    | exact settleLeaf_appends _ _
    | exact unfit_appends _ _ _ _

theorem convertEntry_appends {e : String × Value}
    (each : ∀ {s v p}, Appends (convert g direction budget opened s v p)) :
    Appends (convertEntry g direction budget opened props extra? p e) := by
  unfold convertEntry
  split
  · exact .pure e
  · exact .bind each fun _ => .pure _

theorem convert_appends : Appends (convert g direction budget opened s v p) := by
  induction budget generalizing opened s v p with
  | zero => exact .throw _
  | succ budget ih =>
    cases s with
    | handle id =>
      rw [convert]
      split
      · exact .pure v
      · split
        · exact .pure v
        · exact ih
    | dateTime n format => exact convertTime_appends direction format v p
    | binary => exact convertBytes_appends direction v p
    | array n items =>
      cases listed : convertible? v with
      | none =>
        rw [convert]
        simp only [listed]
        exact .pure v
      | some vs =>
        rw [convert_array listed]
        exact .bind (.mapM fun e _ => ih) fun _ => .pure _
    | object n props extra? =>
      cases keyed : v.entries? with
      | none =>
        rw [convert]
        simp only [keyed]
        exact .pure v
      | some entries =>
        rw [convert_object keyed]
        exact .bind (.mapM fun e _ => convertEntry_appends ih) fun _ => .pure _
    | union n inclusive members =>
      refine .bind (.lift _) fun m? => ?_
      cases m? with
      | none => exact .pure v
      | some m => exact ih
    | intersection n members => exact .foldlM (fun v m _ => ih) v
    | _ => exact .pure v

theorem run_eq_ok_iff {w : Value} :
    run g direction s v = .ok (.ok w) ↔
      Yields (convert g direction (Conformance.checkBudget g s v) [] s v .root) w := by
  rw [run]
  constructor
  · intro equal
    obtain ⟨⟨x, issues⟩, converted, equal⟩ := bind_eq_ok_iff.mp equal
    cases issues with
    | nil =>
      obtain rfl : x = w := ok.inj (ok.inj equal)
      exact convert_appends.yields converted
    | cons issue rest => cases equal
  · intro yields
    show ((convert g direction (Conformance.checkBudget g s v) [] s v .root) [] >>= _) = _
    rw [yields []]
    rfl

end Wire

end JsonShape
