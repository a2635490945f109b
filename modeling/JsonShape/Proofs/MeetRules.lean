import JsonShape.Proofs.Union
import JsonShape.Shape.Intersection

/-! The rules of intersection, one for each way in which two shapes are met. What respects the rules
holds of every intersection, whatever shapes are being met already. -/
namespace JsonShape
open List

def Fresh.Ensures {α : Type} (f : Fresh α) (good : α → Prop) : Prop := ∀ n a n', f n = .ok (a, n') → good a

theorem Fresh.Ensures.pure {α : Type} {good : α → Prop} {a : α} (holds : good a) :
    Ensures (Pure.pure a) good := by
  intro n b n' run
  rw [← (Prod.mk.inj (Except.ok.inj run)).1]
  exact holds

theorem Fresh.Ensures.serial {β : Type} {fine : β → Prop} {next : Nat → Fresh β}
    (second : ∀ n, (next n).Ensures fine) : (Fresh.serial >>= next).Ensures fine :=
  fun n => second n (n + 1)

/-- A computation whose results are good, if it gives any, as long as it draws serial numbers from a
lowest one on. -/
def Fresh.EnsuresFrom {α : Type} (lo : Nat) (f : Fresh α) (good : α → Prop) : Prop :=
  ∀ n a n', lo ≤ n → f n = .ok (a, n') → lo ≤ n' ∧ good a

namespace Fresh.EnsuresFrom

variable {α β : Type} {lo : Nat} {good : α → Prop} {fine : β → Prop}

theorem pure {a : α} (holds : good a) : EnsuresFrom lo (Pure.pure a) good := by
  intro n b n' low run
  obtain ⟨rfl, rfl⟩ := Prod.mk.inj (Except.ok.inj run)
  exact ⟨low, holds⟩

theorem bind {f : Fresh α} {next : α → Fresh β} (first : f.EnsuresFrom lo good)
    (second : ∀ a, good a → (next a).EnsuresFrom lo fine) : (f >>= next).EnsuresFrom lo fine := by
  intro n b n' low run
  change (f n >>= fun (a, m) => next a m) = .ok (b, n') at run
  cases ran : f n with
  | error e =>
    rw [ran] at run
    cases run
  | ok result =>
    rw [ran] at run
    obtain ⟨low', holds⟩ := first n result.1 result.2 low ran
    exact second result.1 holds result.2 b n' low' run

theorem serial {next : Nat → Fresh β} (second : ∀ n, (next n).EnsuresFrom lo fine) :
    (Fresh.serial >>= next).EnsuresFrom lo fine :=
  fun n b n' low run => second n (n + 1) b n' (Nat.le_succ_of_le low) run

theorem lift {result : Except Fault α} (holds : ∀ a, result = .ok a → good a) :
    EnsuresFrom lo (liftM result : Fresh α) good := by
  intro n a n' low run
  cases result with
  | error e => cases run
  | ok b =>
    obtain ⟨rfl, rfl⟩ := Prod.mk.inj (Except.ok.inj run)
    exact ⟨low, holds b rfl⟩

theorem mapM {ι : Type} {f : ι → Fresh α} {related : ι → α → Prop} {items : List ι}
    (each : ∀ i ∈ items, (f i).EnsuresFrom lo (related i)) :
    (items.mapM f).EnsuresFrom lo (Forall₂ related items) := by
  induction items with
  | nil => exact pure .nil
  | cons i rest ih =>
    rw [mapM_cons]
    refine bind (each i mem_cons_self) fun a here => ?_
    refine bind (ih (forall_mem_cons.mp each).2) fun as later => ?_
    exact pure (.cons here later)

end Fresh.EnsuresFrom

namespace Shape

open Fresh

variable {g : Graph} {props : List (Property Shape)} {p : Property Shape} {v : Value}

variable {target? : Nat → Option Shape}
variable {s : Shape}

def conjuncts : Shape → List Shape
  | intersection _ members => members
  | s => [s]

theorem inhabits_conjuncts : (∀ m ∈ conjuncts s, Inhabits g m v) ↔ Inhabits g s v := by
  cases s with
  | intersection n members => exact Inhabits.intersection_iff.symm
  | _ => exact forall_mem_singleton

theorem unmerged_eq (a b : Shape) :
    unmerged a b = (do return .intersection (← Fresh.serial) (conjuncts a ++ conjuncts b)) := rfl

def opened (target? : Nat → Option Shape) : Shape → Option Shape
  | handle id => target? id
  | s => some s

theorem inhabits_opened {t : Shape} (found : opened g.target? s = some t) :
    Inhabits g s v ↔ Inhabits g t v := by
  cases s with
  | handle id =>
    rw [Inhabits.handle_iff]
    exact ⟨fun each => each t found, fun inhabits target found' =>
      Option.some.inj (found.symm.trans found') ▸ inhabits⟩
  | _ => rw [Option.some.inj found]

theorem meetHandles_eq (target? : Nat → Option Shape) (meet : Shape → Shape → Fresh Shape)
    (a b : Shape) : meetHandles target? meet a b = match opened target? a, opened target? b with
      | some ta, some tb => do
        let r ← meet ta tb
        if a.kind == .named && r.same ta then return a
        else if b.kind == .named && r.same tb then return b
        else return r
      | _, _ => unmerged a b := rfl

theorem property?_nil (name : String) : property? [] name = none := rfl

theorem mem_of_property? {name : String} (found : property? props name = some p) :
    p ∈ props ∧ p.name = name :=
  ⟨mem_of_find?_eq_some found, by simpa using find?_some found⟩

def Proper (s : Shape) : Prop := s.kind ≠ .any ∧ s.kind ≠ .never

theorem eq_any_of_kind (kind : s.kind = .any) : s = any := by
  cases s <;> first | rfl | cases kind

theorem eq_never_of_kind (kind : s.kind = .never) : s = never := by
  cases s <;> first | rfl | cases kind

theorem exists_of_kind_literal (kind : s.kind = .literal) : ∃ n v, s = literal n v := by
  cases s <;> first | exact ⟨_, _, rfl⟩ | cases kind

theorem exists_of_kind_array (kind : s.kind = .array) : ∃ n items, s = array n items := by
  cases s <;> first | exact ⟨_, _, rfl⟩ | cases kind

theorem exists_of_kind_object (kind : s.kind = .object) : ∃ n props extra?, s = object n props extra? := by
  cases s <;> first | exact ⟨_, _, _, rfl⟩ | cases kind

theorem exists_of_kind_union (kind : s.kind = .union) :
    ∃ n inclusive members, s = union n inclusive members := by
  cases s <;> first | exact ⟨_, _, _, rfl⟩ | cases kind

theorem any_same_iff {active : List (Shape × Shape)} {a b : Shape} :
    (active.any fun (x, y) => x.same a && y.same b) = true ↔ (a, b) ∈ active := by
  simp only [any_eq_true, Bool.and_eq_true, same_iff, Prod.exists]
  constructor
  · rintro ⟨x, y, member, rfl, rfl⟩
    exact member
  · exact fun member => ⟨a, b, member, rfl, rfl⟩

/-- What a meet of two shapes comes to in one step. -/
inductive Meeting
  | settled (s : Shape)
  | unmerged
  | opened
  | each (inclusive : Bool) (members : List Shape) (other : Shape)
  | objects (ps : List (Property Shape)) (e : Option Shape) (qs : List (Property Shape)) (f : Option Shape)
  | arrays (n : Nat) (s t : Shape)
  | literals (n : Nat) (v : Value) (other : Shape)

def meeting (a b : Shape) : Meeting :=
  if a.same b then .settled a
  else
    match a, b with
    | any, b => .settled b
    | a, any => .settled a
    | never, _ | _, never => .settled never
    | handle _, _ | _, handle _ => .opened
    | union _ inclusive members, other | other, union _ inclusive members => .each inclusive members other
    | intersection _ _, _ | _, intersection _ _ => .unmerged
    | object _ ps e, object _ qs f => .objects ps e qs f
    | array n s, array _ t => .arrays n s t
    | literal n v, other | other, literal n v => .literals n v other
    | object _ _ _, _ | _, object _ _ _ | array _ _, _ | _, array _ _ => .settled never
    | _, _ => .settled (meetPlain a b)

theorem meet_eq (target? : Nat → Option Shape) (budget : Nat) (active : List (Shape × Shape))
    (a b : Shape) : meet target? (budget + 1) active a b = match meeting a b with
      | .settled s => pure s
      | .unmerged => Shape.unmerged a b
      | .opened => if active.any fun (x, y) => x.same a && y.same b then Shape.unmerged a b
        else meetHandles target? (meet target? budget ((a, b) :: active)) a b
      | .each inclusive members other => distribute (meet target? budget active) inclusive members other
      | .objects ps e qs f => meetObjects (meet target? budget active) ps e qs f
      | .arrays n s t => do
        let items ← meet target? budget active s t
        if items.same s then return array n s else ofItems items
      | .literals n v other => liftM (meetLiteral (literal n v) v other) := by
  unfold meeting
  by_cases same : a.same b = true
  · rw [if_pos same]
    exact if_pos same
  · rw [if_neg same]
    refine (if_neg same).trans ?_
    cases a <;> cases b <;> rfl

/-- Neither any nor never, and made of one kind of values that is not a constant. -/
structure Basic (s : Shape) : Prop where
  proper : s.Proper
  single : s.isFlat = true ∨ s.kind = .array ∨ s.kind = .object

/-- How the shapes are that call for a meeting. -/
inductive CallsFor : Shape → Shape → Meeting → Prop
  | same (a : Shape) : CallsFor a a (.settled a)
  | anyLeft (b : Shape) : CallsFor any b (.settled b)
  | anyRight (a : Shape) : CallsFor a any (.settled a)
  | neverLeft (b : Shape) : CallsFor never b (.settled never)
  | neverRight (a : Shape) : CallsFor a never (.settled never)
  | opened {a b : Shape} (named : a.kind = .named ∨ b.kind = .named) : CallsFor a b .opened
  | unionLeft (n : Nat) (inclusive : Bool) (members : List Shape) (b : Shape) :
      CallsFor (union n inclusive members) b (.each inclusive members b)
  | unionRight (n : Nat) (inclusive : Bool) (members : List Shape) (a : Shape) :
      CallsFor a (union n inclusive members) (.each inclusive members a)
  | unmerged {a b : Shape} (joint : a.kind = .intersection ∨ b.kind = .intersection) :
      CallsFor a b .unmerged
  | objects (m n : Nat) (ps qs : List (Property Shape)) (e f : Option Shape) :
      CallsFor (object m ps e) (object n qs f) (.objects ps e qs f)
  | arrays (m n : Nat) (s t : Shape) : CallsFor (array m s) (array n t) (.arrays m s t)
  | literals (m n : Nat) (v w : Value) : CallsFor (literal m v) (literal n w) (.literals m v (literal n w))
  | literalLeft (n : Nat) (v : Value) {b : Shape} (basic : b.Basic) :
      CallsFor (literal n v) b (.literals n v b)
  | literalRight (n : Nat) (v : Value) {a : Shape} (basic : a.Basic) :
      CallsFor a (literal n v) (.literals n v a)
  | apart {a b : Shape} (left : a.Basic) (right : b.Basic) (kinds : a.kind ≠ b.kind)
      (parted : a.isFlat = false ∨ b.isFlat = false) :
      CallsFor a b (.settled never)
  | flat {a b : Shape} (left : a.isFlat = true) (right : b.isFlat = true) (proper : a.Proper)
      (proper' : b.Proper) :
      CallsFor a b (.settled (meetPlain a b))

theorem callsFor_meeting (a b : Shape) : CallsFor a b (meeting a b) := by
  have proper : ∀ {s : Shape}, (s.kind == .any) = false → (s.kind == .never) = false → s.Proper :=
    fun top void => ⟨ne_of_beq_false top, ne_of_beq_false void⟩
  unfold meeting
  split_ifs with same
  · obtain rfl := same_iff.mp same
    exact .same a
  · cases a <;> cases b <;> first
      | exact .anyLeft _
      | exact .anyRight _
      | exact .neverLeft _
      | exact .neverRight _
      | exact .opened (.inl rfl)
      | exact .opened (.inr rfl)
      | exact .unionLeft _ _ _ _
      | exact .unionRight _ _ _ _
      | exact .unmerged (.inl rfl)
      | exact .unmerged (.inr rfl)
      | exact .objects _ _ _ _ _ _
      | exact .arrays _ _ _ _
      | exact .literals _ _ _ _
      | exact .flat rfl rfl (proper rfl rfl) (proper rfl rfl)
      | exact .literalLeft _ _ ⟨proper rfl rfl, by simp [isFlat, kind]⟩
      | exact .literalRight _ _ ⟨proper rfl rfl, by simp [isFlat, kind]⟩
      | exact .apart ⟨proper rfl rfl, by simp [isFlat, kind]⟩
          ⟨proper rfl rfl, by simp [isFlat, kind]⟩ (ne_of_beq_false rfl) (by simp [isFlat])

theorem meetLiteral_of_ne {n : Nat} {b : Shape} (other : b.kind ≠ .literal) :
    meetLiteral (literal n v) v b = if v.literalKind == b.kind && b.kind != .array &&
      b.kind != .object then .ok (literal n v) else if v.literalKind == .string && b.isRich then
      .ok b else .ok never := by
  cases b <;> first | rfl | exact absurd rfl other

variable {lo : Nat} {R : Shape → Shape → Shape → Prop} {others : List (Property Shape)}
  {extra? : Option Shape}

inductive MetProperty (R : Shape → Shape → Shape → Prop) (others : List (Property Shape))
    (extra? : Option Shape) (p : Property Shape) :
    Property Shape → Prop
  | declared {q : Property Shape} {s : Shape} (found : property? others p.name = some q)
      (met : R p.shape q.shape s) :
      MetProperty R others extra? p ⟨p.name, s, p.optional && q.optional, q.default?.or p.default?⟩
  | extra {x s : Shape} (unknown : property? others p.name = none) (equal : extra? = some x)
      (met : R p.shape x s) :
      MetProperty R others extra? p { p with shape := s }
  | free (unknown : property? others p.name = none) (equal : extra? = none) :
      MetProperty R others extra? p p

theorem MetProperty.name_eq {r : Property Shape} (met : MetProperty R others extra? p r) :
    r.name = p.name := by
  cases met <;> rfl

inductive MetExtra (R : Shape → Shape → Shape → Prop) : Option Shape → Option Shape → Option Shape → Prop
  | both {s t r : Shape} (met : R s t r) : MetExtra R (some s) (some t) (some r)
  | left (s : Shape) : MetExtra R (some s) none (some s)
  | right (f : Option Shape) : MetExtra R none f f

def undeclared (ps qs : List (Property Shape)) : List (Property Shape) :=
  qs.filter fun q => (property? ps q.name).isNone

theorem mem_undeclared {ps qs : List (Property Shape)} {q : Property Shape} :
    q ∈ undeclared ps qs ↔ q ∈ qs ∧ property? ps q.name = none := by
  simp [undeclared]

structure Allowed (g : Graph) (others : List (Property Shape)) (extra? : Option Shape)
    (p : Property Shape) (x : Value) : Prop where
  own : Inhabits g p.shape x
  declared : ∀ q, property? others p.name = some q → Inhabits g q.shape x
  undeclared : property? others p.name = none → ∀ s, extra? = some s → Inhabits g s x

/-- The rules of intersection: what two shapes and their meet are like, where serial numbers are
drawn from a lowest one on. -/
structure MeetRules (lo : Nat) (target? : Nat → Option Shape) (R : Shape → Shape → Shape → Prop) :
    Prop where
  same (a : Shape) : R a a a
  any_left (b : Shape) : R any b b
  any_right (a : Shape) : R a any a
  never_left (b : Shape) : R never b never
  never_right (a : Shape) : R a never never
  unmerged {a b : Shape} (n : Nat)
    (late : (a.kind = .named ∨ b.kind = .named) ∨ a.kind = .intersection ∨ b.kind = .intersection) :
    R a b (intersection n (conjuncts a ++ conjuncts b))
  through {a b ta tb r : Shape} (named : a.kind = .named ∨ b.kind = .named)
      (left : opened target? a = some ta)
    (right : opened target? b = some tb) (met : R ta tb r) : R a b r
  kept_left {a b ta tb : Shape} (named : a.kind = .named) (left : opened target? a = some ta)
    (right : opened target? b = some tb) (met : R ta tb ta) : R a b a
  kept_right {a b ta tb : Shape} (named : b.kind = .named) (left : opened target? a = some ta)
    (right : opened target? b = some tb) (met : R ta tb tb) : R a b b
  union_left {n : Nat} {inclusive : Bool} {members parts : List Shape} {b s : Shape}
    (each : Forall₂ (fun m part => R m b part) members parts)
    (united : ∃ k k', lo ≤ k ∧ unionOf inclusive parts k = .ok (s, k')) :
    R (union n inclusive members) b s
  union_right {n : Nat} {inclusive : Bool} {members parts : List Shape} {a s : Shape}
    (each : Forall₂ (fun m part => R m a part) members parts)
    (united : ∃ k k', lo ≤ k ∧ unionOf inclusive parts k = .ok (s, k')) :
    R a (union n inclusive members) s
  arrays {m n : Nat} {s t items : Shape} (k : Nat) (met : R s t items) :
      R (array m s) (array n t) (array k items)
  objects {m n : Nat} {ps qs left right : List (Property Shape)} {e f extra? : Option Shape} (k : Nat)
    (first : Forall₂ (MetProperty R qs f) ps left)
    (second : Forall₂ (MetProperty R [] e) (undeclared ps qs) right)
    (others : MetExtra R e f extra?) :
    R (object m ps e) (object n qs f) (object k (sortProperties (left ++ right)) extra?)
  void_left {m n : Nat} {ps qs : List (Property Shape)} {e f : Option Shape} {p r : Property Shape}
      (member : p ∈ ps)
    (met : MetProperty R qs f p r) (void : r.shape = never) (required : r.optional = false) :
    R (object m ps e) (object n qs f) never
  void_right {m n : Nat} {ps qs : List (Property Shape)} {e f : Option Shape} {q r : Property Shape}
      (member : q ∈ undeclared ps qs)
    (met : MetProperty R [] e q r) (void : r.shape = never) (required : r.optional = false) :
    R (object m ps e) (object n qs f) never
  literal_left {n : Nat} {v : Value} {b s : Shape} (single : b.kind = .literal ∨ b.isFlat = true ∨
      b.kind = .array ∨ b.kind = .object)
    (proper : b.Proper) (met : meetLiteral (literal n v) v b = .ok s) : R (literal n v) b s
  literal_right {n : Nat} {v : Value} {a s : Shape} (single : a.isFlat = true ∨ a.kind = .array ∨
      a.kind = .object)
    (proper : a.Proper) (met : meetLiteral (literal n v) v a = .ok s) : R a (literal n v) s
  flat {a b : Shape} (left : a.isFlat = true) (right : b.isFlat = true) (proper : a.Proper)
      (proper' : b.Proper) : R a b (meetPlain a b)
  apart {a b : Shape} (left : a.isFlat = true ∨ a.kind = .array ∨ a.kind = .object)
    (right : b.isFlat = true ∨ b.kind = .array ∨ b.kind = .object) (proper : a.Proper)
    (proper' : b.Proper) (kinds : a.kind ≠ b.kind)
    (parted : a.isFlat = false ∨ b.isFlat = false) : R a b never

variable {meet : Shape → Shape → Fresh Shape}

theorem meetProperty_ensures (inner : ∀ s t, (meet s t).EnsuresFrom lo (R s t)) :
    (meetProperty meet p others extra?).EnsuresFrom lo (MetProperty R others extra? p) := by
  unfold meetProperty
  cases found : property? others p.name with
  | some q => exact (inner p.shape q.shape).bind fun s met => .pure (.declared found met)
  | none =>
    cases equal : extra? with
    | some x => exact (inner p.shape x).bind fun s met => .pure (.extra found rfl met)
    | none => exact .pure (.free found rfl)

theorem meetProperties_ensures {meet : Property Shape → Fresh (Property Shape)}
    {related : Property Shape → Property Shape → Prop}
    (each : ∀ p ∈ props, (meet p).EnsuresFrom lo (related p)) :
    (meetProperties meet props).EnsuresFrom lo fun result => match result with
      | some met => Forall₂ related props met
      | none => ∃ p ∈ props, ∃ r, related p r ∧ r.shape = never ∧ r.optional = false := by
  induction props with
  | nil => exact .pure .nil
  | cons p rest ih =>
    rw [meetProperties]
    refine (each p mem_cons_self).bind fun r met => ?_
    by_cases void : r.shape.kind = .never ∧ r.optional = false
    · rw [if_pos (by simpa using void)]
      exact .pure ⟨p, mem_cons_self, r, met, eq_never_of_kind void.1, void.2⟩
    · rw [if_neg (by simpa using void)]
      refine (ih (forall_mem_cons.mp each).2).bind fun result later => ?_
      cases result with
      | some more => exact .pure (.cons met later)
      | none =>
        obtain ⟨q, member, found⟩ := later
        exact .pure ⟨q, mem_cons_of_mem _ member, found⟩

theorem meetExtra_ensures (inner : ∀ s t, (meet s t).EnsuresFrom lo (R s t)) (e f : Option Shape) :
    (meetExtra meet e f).EnsuresFrom lo (MetExtra R e f) := by
  cases e with
  | none => exact .pure (.right f)
  | some s =>
    cases f with
    | none => exact .pure (.left s)
    | some t => exact (inner s t).bind fun r met => .pure (.both met)

theorem meetObjects_ensures (rules : MeetRules lo target? R)
    (inner : ∀ s t, (meet s t).EnsuresFrom lo (R s t)) {m n : Nat} (ps qs : List (Property Shape))
    (e f : Option Shape) :
    (meetObjects meet ps e qs f).EnsuresFrom lo (R (object m ps e) (object n qs f)) := by
  have first : (meetProperties (meetProperty meet · qs f) ps).EnsuresFrom lo _ :=
    meetProperties_ensures fun p _ => meetProperty_ensures inner
  have second : (meetProperties (meetProperty meet · [] e) (undeclared ps qs)).EnsuresFrom lo _ :=
    meetProperties_ensures fun q _ => meetProperty_ensures inner
  unfold meetObjects
  refine first.bind fun result left => ?_
  cases result with
  | none =>
    obtain ⟨p, member, r, met, void, required⟩ := left
    exact .pure (rules.void_left member met void required)
  | some left' =>
    refine second.bind fun result right => ?_
    cases result with
    | none =>
      obtain ⟨q, member, r, met, void, required⟩ := right
      exact .pure (rules.void_right member met void required)
    | some right' =>
      refine (meetExtra_ensures inner e f).bind fun extra? others => ?_
      exact .serial fun k => .pure (rules.objects k left right others)

theorem distribute_ensures {other : Shape} (inner : ∀ s t, (meet s t).EnsuresFrom lo (R s t))
    (inclusive : Bool) (members : List Shape) :
    (distribute meet inclusive members other).EnsuresFrom lo fun s =>
      ∃ parts, Forall₂ (fun m part => R m other part) members parts ∧ ∃ k k', lo ≤ k ∧
      unionOf inclusive parts k = .ok (s, k') := by
  have each : (members.mapM fun m => meet m other).EnsuresFrom lo
      (Forall₂ (fun m part => R m other part) members) :=
    .mapM fun m _ => inner m other
  refine each.bind fun parts pairs k s k' low run => ?_
  obtain ⟨-, -, -, later⟩ := unionOf_eq_gathered run
  exact ⟨low.trans later, parts, pairs, k, k', low, run⟩

theorem unmerged_ensures (rules : MeetRules lo target? R) {a b : Shape}
    (late : (a.kind = .named ∨ b.kind = .named) ∨ a.kind = .intersection ∨ b.kind = .intersection) :
    (unmerged a b).EnsuresFrom lo (R a b) := by
  rw [unmerged_eq]
  exact .serial fun n => .pure (rules.unmerged n late)

theorem meetHandles_ensures (rules : MeetRules lo target? R)
    (inner : ∀ s t, (meet s t).EnsuresFrom lo (R s t)) {a b : Shape}
    (named : a.kind = .named ∨ b.kind = .named) :
    (meetHandles target? meet a b).EnsuresFrom lo (R a b) := by
  rw [meetHandles_eq]
  cases left : opened target? a with
  | none => exact unmerged_ensures rules (.inl named)
  | some ta =>
    cases right : opened target? b with
    | none => exact unmerged_ensures rules (.inl named)
    | some tb =>
      refine (inner ta tb).bind fun r met => ?_
      split_ifs with kept kept'
      · obtain ⟨handle, unchanged⟩ := Bool.and_eq_true_iff.mp kept
        rw [same_iff.mp unchanged] at met
        exact .pure (rules.kept_left (by simpa using handle) left right met)
      · obtain ⟨handle, unchanged⟩ := Bool.and_eq_true_iff.mp kept'
        rw [same_iff.mp unchanged] at met
        exact .pure (rules.kept_right (by simpa using handle) left right met)
      · exact .pure (rules.through named left right met)

variable {budget : Nat} {active : List (Shape × Shape)} {a b : Shape}

theorem meet_ensures (rules : MeetRules lo target? R) :
    (Shape.meet target? budget active a b).EnsuresFrom lo (R a b) := by
  induction budget generalizing active a b with
  | zero => exact fun n s n' _ run => nomatch run
  | succ budget ih =>
    have calls := callsFor_meeting a b
    rw [meet_eq]
    generalize meeting a b = m at calls ⊢
    cases calls with
    | same => exact .pure (rules.same a)
    | anyLeft => exact .pure (rules.any_left b)
    | anyRight => exact .pure (rules.any_right a)
    | neverLeft => exact .pure (rules.never_left b)
    | neverRight => exact .pure (rules.never_right a)
    | opened named =>
      dsimp only
      split_ifs
      · exact unmerged_ensures rules (.inl named)
      · exact meetHandles_ensures rules (fun s t => ih) named
    | unionLeft n inclusive members =>
      intro k s k' low run
      obtain ⟨low', parts, each, united⟩ :=
        distribute_ensures (fun s t => ih) inclusive members k s k' low run
      exact ⟨low', rules.union_left each united⟩
    | unionRight n inclusive members =>
      intro k s k' low run
      obtain ⟨low', parts, each, united⟩ :=
        distribute_ensures (fun s t => ih) inclusive members k s k' low run
      exact ⟨low', rules.union_right each united⟩
    | unmerged joint => exact unmerged_ensures rules (.inr joint)
    | objects m n ps qs e f => exact meetObjects_ensures rules (fun s t => ih) ps qs e f
    | arrays m n s t =>
      refine EnsuresFrom.bind (ih : (Shape.meet target? budget active s t).EnsuresFrom lo (R s t))
        fun items met => ?_
      split_ifs with unchanged
      · rw [same_iff.mp unchanged] at met
        exact .pure (rules.arrays m met)
      · exact .serial fun k => .pure (rules.arrays k met)
    | literals m n v w => exact .lift fun s met => rules.literal_left (.inl rfl) ⟨nofun, nofun⟩ met
    | literalLeft n v basic =>
      exact .lift fun s met => rules.literal_left (.inr basic.single) basic.proper met
    | literalRight n v basic => exact .lift fun s met => rules.literal_right basic.single basic.proper met
    | apart left right kinds parted =>
      exact .pure (rules.apart left.single right.single left.proper right.proper kinds parted)
    | flat left right proper proper' => exact .pure (rules.flat left right proper proper')

theorem intersect_ensures_from (rules : MeetRules lo g.target? R) (a b : Shape) :
    (intersect g a b).EnsuresFrom lo (R a b) :=
  meet_ensures rules

theorem intersect_ensures (rules : MeetRules 0 g.target? R) (a b : Shape) :
    (intersect g a b).Ensures (R a b) :=
  fun n s n' run => (intersect_ensures_from rules a b n s n' (Nat.zero_le n) run).2

end Shape

end JsonShape
