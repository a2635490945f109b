import JsonShape.Proofs.Grammar
import Mathlib.Order.FixedPoints

/-! What derived shapes mean. The meaning of the schemas is the least one that their alternatives
allow, and a shape that is formed by the alternatives of a schema accepts it. -/
namespace JsonShape.Derivation
open Option

variable {a : Alternative View} {w : View}

/-- A shape that alternatives give, when the schemas that they use have shapes. -/
structure Forms (kids : View → Shape → Prop) (alts : List (Alternative View)) (s : Shape) : Prop where
  tidy : s.Tidy fun _ => True
  members : ∃ shapes : List (Alternative Shape), List.Forall₂ (Alternative.Lift kids) alts shapes ∧
    ∀ g v, Inhabits g s v ↔ ∃ a ∈ shapes, a.Admits (Inhabits g) v

namespace Forms

variable {kids : View → Shape → Prop} {alts : List (Alternative View)} {s : Shape} {g : Graph}
  {P : View → Value → Prop} {v : Value}

theorem imp {kids' : View → Shape → Prop} (weaker : ∀ w c, kids w c → kids' w c)
    (forms : Forms kids alts s) : Forms kids' alts s := by
  obtain ⟨shapes, each, accepts⟩ := forms.members
  exact ⟨forms.tidy, shapes, each.imp fun _ _ lift => lift.imp weaker, accepts⟩

theorem admits (forms : Forms kids alts s) (sound : ∀ w c v, kids w c → Inhabits g c v → P w v)
    (inhabits : Inhabits g s v) : ∃ a ∈ alts, a.Admits P v := by
  obtain ⟨shapes, each, accepts⟩ := forms.members
  obtain ⟨b, member, admitted⟩ := (accepts g v).mp inhabits
  obtain ⟨a, member', lift⟩ := exists_left_of_mem each member
  exact ⟨a, member', lift.flip.admits (fun c w v kid => sound w c v kid) admitted⟩

theorem inhabits (forms : Forms kids alts s) (complete : ∀ w c v, kids w c → P w v → Inhabits g c v)
    (member : a ∈ alts) (admitted : a.Admits P v) : Inhabits g s v := by
  obtain ⟨shapes, each, accepts⟩ := forms.members
  obtain ⟨b, member', lift⟩ := exists_right_of_mem each member
  exact (accepts g v).mpr ⟨b, member', lift.admits complete admitted⟩

theorem uses (forms : Forms kids alts s) (member : a ∈ alts) (used : w ∈ a.uses) : ∃ c, kids w c := by
  obtain ⟨shapes, each, -⟩ := forms.members
  obtain ⟨b, -, lift⟩ := exists_right_of_mem each member
  obtain ⟨c, -, kid⟩ := lift.uses used
  exact ⟨c, kid⟩

end Forms

namespace Realm

def step (R : Realm) : (View → Value → Prop) →o (View → Value → Prop) where
  toFun P w v := ∀ location s, w.location? = some location → R.corpus.get? location = some s →
    ∃ alts, R.alternatives location (w.table.enter R.corpus location) s.keywords = some alts ∧
    ∃ a ∈ alts, a.Admits P v
  monotone' := by
    intro P Q larger w v admitted location s here present
    obtain ⟨alts, rule, a, member, holds⟩ := admitted location s here present
    exact ⟨alts, rule, a, member, a.lift_self.admits (fun x y v same => same ▸ larger x v) holds⟩

def means (R : Realm) : View → Value → Prop := OrderHom.lfp R.step

variable {R : Realm} {location : Location} {s : Schema} {t t' : Table} {P Q : View → Value → Prop}
  {v : Value}

theorem means_iff : R.means w v ↔ R.step R.means w v := by
  have fixed : R.step R.means = R.means := OrderHom.map_lfp R.step
  rw [fixed]

theorem enter_eq (present : R.corpus.get? location = some s) (t : Table) :
    t.enter R.corpus location = t.enterSchema s.keywords location t.scope := by
  unfold Table.enter
  rw [present]

theorem alike_of_key (present : R.corpus.get? location = some s) (here : R.seen t)
    (there : R.seen t') (same : keyOf s location t = keyOf s location t') :
    (t.enter R.corpus location).Alike (t'.enter R.corpus location) := by
  have here := R.enter t location here
  have there := R.enter t' location there
  refine (R.legible _ here).alike (R.legible _ there) ?_ (R.single _ there)
  rw [enter_eq present, enter_eq present]
  exact congrArg Key.fingerprint same

theorem admits_of_key (near : ∀ w w' v, R.Near w w' → P w v → Q w' v)
    (present : R.corpus.get? location = some s) (here : R.seen t) (there : R.seen t')
    (same : keyOf s location t = keyOf s location t') {alts : List (Alternative View)}
    (rule : R.alternatives location (t.enter R.corpus location) s.keywords = some alts)
    (member : a ∈ alts) (admitted : a.Admits P v) :
    ∃ alts, R.alternatives location (t'.enter R.corpus location) s.keywords = some alts ∧
      ∃ a ∈ alts, a.Admits Q v := by
  have related := alternatives_near (R.enter t location here) (R.enter t' location there)
      (alike_of_key present here there same) location
    s.keywords
  rw [rule] at related
  generalize R.alternatives location (t'.enter R.corpus location) s.keywords = other at related
  cases related with
  | some each =>
    obtain ⟨b, member', lift⟩ := exists_right_of_mem each member
    exact ⟨_, rfl, b, member', lift.admits near admitted⟩

theorem Near.key (near : R.Near ⟨some location, t⟩ ⟨some location, t'⟩) :
    keyOf s location t = keyOf s location t' :=
  (keyOf_alike (near.tables rfl).2.2).symm

theorem means_near {w' : View} (near : R.Near w w') (means : R.means w v) : R.means w' v := by
  have all : R.means ≤ fun w v => ∀ w', R.Near w w' → R.means w' v := by
    refine OrderHom.lfp_le _ fun w v admitted w' near => ?_
    rw [means_iff]
    intro location s here present
    have here' : w.location? = some location := near.location.symm.trans here
    obtain ⟨seen, seen', alike⟩ := near.tables (here' ▸ rfl)
    obtain ⟨alts, rule, a, member, holds⟩ := admitted location s here' present
    exact admits_of_key (fun x y v near means => means y near) present seen seen'
      (keyOf_alike alike).symm rule member holds
  exact all w v means w' near

end Realm

/-- Which schema, seen how, a handle stands for. -/
abbrev World := Nat → Option Key

def World.Grows (ω ω' : World) : Prop := ∀ id key, ω id = some key → ω' id = some key

theorem World.Grows.trans {ω ω' ω'' : World} (first : ω.Grows ω') (second : ω'.Grows ω'') : ω.Grows ω'' :=
  fun id key owned => second id key (first id key owned)

/-- A shape for a schema seen through a table. It depends on the table only by the key of the
schema. -/
inductive Gives (R : Realm) (ω : World) : View → Shape → Prop
  | nowhere {w : View} (absent : w.location?.bind R.corpus.get? = none) : Gives R ω w .any
  | back {location : Location} {s : Schema} {t : Table} {id : Nat}
      (present : R.corpus.get? location = some s) (here : R.seen t)
      (owned : ω id = some (keyOf s location t)) : Gives R ω ⟨some location, t⟩ (.handle id)
  | formed {location : Location} {s : Schema} {t t₀ : Table} {alts : List (Alternative View)}
      {shape : Shape} {kids : View → Shape → Prop}
      (present : R.corpus.get? location = some s) (here : R.seen t) (there : R.seen t₀)
      (same : keyOf s location t₀ = keyOf s location t)
      (rule : R.alternatives location (t₀.enter R.corpus location) s.keywords = some alts)
      (each : ∀ w c, kids w c → Gives R ω w c)
      (forms : Forms kids alts shape) : Gives R ω ⟨some location, t⟩ shape

structure Formed (R : Realm) (ω : World) (key : Key) (shape : Shape) : Prop where
  rule : ∃ location s t alts, R.corpus.get? location = some s ∧ R.seen t ∧ keyOf s location t = key ∧
    R.alternatives location (t.enter R.corpus location) s.keywords = some alts ∧
    Forms (Gives R ω) alts shape

/-- Every handle that stands for a schema is bound to a shape for it. -/
def Settled (R : Realm) (ω : World) (g : Graph) : Prop :=
  ∀ id key, ω id = some key → ∃ shape, g.target? id = some shape ∧ Formed R ω key shape

/-- Nothing is to be reported about a schema, and all that its alternatives use is in a set. -/
def Clean {α : Type} (W : α → Prop) (rule : Option (List (Alternative α))) : Prop :=
  ∃ alts, rule = some alts ∧ ∀ a ∈ alts, ∀ w ∈ a.uses, W w

theorem Clean.uses {α : Type} {W : α → Prop} {alts : List (Alternative α)}
    (clean : Clean W (some alts)) {a : Alternative α} (member : a ∈ alts) {w : α}
    (used : w ∈ a.uses) : W w := by
  obtain ⟨_, equal, each⟩ := clean
  exact each a (some.inj equal ▸ member) w used

variable {R : Realm} {ω ω' : World} {w' : View} {c : Shape} {location : Location} {s : Schema}
  {t : Table} {g : Graph} {strict : Prop} {v : Value}

theorem Gives.grow (grows : ω.Grows ω') (given : Gives R ω w c) : Gives R ω' w c := by
  induction given with
  | nowhere absent => exact .nowhere absent
  | back present here owned => exact .back present here (grows _ _ owned)
  | formed present here there same rule _ forms ih => exact .formed present here there same rule ih forms

theorem Formed.grow (grows : ω.Grows ω') {key : Key} (formed : Formed R ω key c) : Formed R ω' key c := by
  obtain ⟨location, s, t, alts, present, here, same, rule, forms⟩ := formed.rule
  exact ⟨location, s, t, alts, present, here, same, rule, forms.imp fun w c given => given.grow grows⟩

theorem Gives.tidy (given : Gives R ω w c) : c.Tidy fun _ => True := by
  cases given with
  | nowhere => exact .flat rfl trivial
  | back => exact .handle trivial
  | formed _ _ _ _ _ _ forms => exact forms.tidy

theorem Formed.at (formed : Formed R ω (keyOf s location t) c)
    (present : R.corpus.get? location = some s) :
    ∃ t₀ alts, R.seen t₀ ∧ keyOf s location t₀ = keyOf s location t ∧ R.alternatives location
      (t₀.enter R.corpus location) s.keywords = some alts ∧ Forms (Gives R ω) alts c := by
  obtain ⟨location', s', t', alts, present', there, same, rule, forms⟩ := formed.rule
  obtain rfl : location' = location := congrArg Key.node same
  obtain rfl : s' = s := some.inj (present'.symm.trans present)
  exact ⟨t', alts, there, same, rule, forms⟩

theorem Formed.gives (formed : Formed R ω (keyOf s location t) c)
    (present : R.corpus.get? location = some s) (here : R.seen t) :
    Gives R ω ⟨some location, t⟩ c := by
  obtain ⟨t₀, alts, there, same, rule, forms⟩ := formed.at present
  exact .formed present here there same rule (fun _ _ => id) forms

theorem Gives.seen (given : Gives R ω ⟨some location, t⟩ c)
    (present : R.corpus.get? location = some s) : R.seen t := by
  cases given with
  | nowhere absent => simp [present] at absent
  | back _ here => exact here
  | formed _ here => exact here

theorem Gives.near (near : R.Near w w') (given : Gives R ω w' c) : Gives R ω w c := by
  obtain ⟨location?, u⟩ := w
  obtain ⟨location?', u'⟩ := w'
  obtain rfl : location?' = location? := near.location
  cases given with
  | nowhere absent => exact .nowhere absent
  | back present here owned =>
    obtain ⟨seen, -, -⟩ := near.tables rfl
    exact .back present seen (owned.trans (congrArg some near.key.symm))
  | formed present here there same rule each forms =>
    obtain ⟨seen, -, -⟩ := near.tables rfl
    exact .formed present seen there (same.trans near.key.symm) rule each forms

theorem Settled.formed (settled : Settled R ω g) (present : R.corpus.get? location = some s)
    (given : Gives R ω ⟨some location, t⟩ c) :
    ∃ shape, Formed R ω (keyOf s location t) shape ∧ ∀ v, Inhabits g shape v → Inhabits g c v := by
  cases given with
  | nowhere absent => simp [present] at absent
  | back present' here owned =>
    obtain rfl := some.inj (present.symm.trans present')
    obtain ⟨shape, found, formed⟩ := settled _ _ owned
    exact ⟨shape, formed, fun v inside => .bound found inside⟩
  | formed present' here there same rule each forms =>
    obtain rfl := some.inj (present.symm.trans present')
    exact ⟨c, ⟨_, _, _, _, present, there, same, rule, forms.imp each⟩, fun v => id⟩

theorem Settled.clean (settled : Settled R ω g) (present : R.corpus.get? location = some s)
    (given : ∃ c, Gives R ω ⟨some location, t⟩ c) :
    Clean (fun w => ∃ c, Gives R ω w c)
      (R.alternatives location (t.enter R.corpus location) s.keywords) := by
  obtain ⟨c, given⟩ := given
  obtain ⟨shape, formed, -⟩ := settled.formed present given
  obtain ⟨t₀, alts₀, there, same, rule, forms⟩ := formed.at present
  have here := given.seen present
  have related := Realm.alternatives_near (R.enter t location here) (R.enter t₀ location there)
    (Realm.alike_of_key present here there same.symm) location s.keywords
  rw [rule] at related
  generalize R.alternatives location (t.enter R.corpus location) s.keywords = other at related
  cases related with
  | some each =>
    refine ⟨_, rfl, fun a member w used => ?_⟩
    obtain ⟨b, member', lift⟩ := exists_right_of_mem each member
    obtain ⟨w', used', near⟩ := lift.uses used
    obtain ⟨c', given'⟩ := forms.uses member' used'
    exact ⟨c', given'.near near⟩

theorem Gives.means_of_handles
    (handles : ∀ location s t id v, R.corpus.get? location = some s → R.seen t →
      ω id = some (keyOf s location t) → Inhabits g (.handle id) v → R.means ⟨some location, t⟩ v)
    (given : Gives R ω w c) (inhabits : Inhabits g c v) : R.means w v := by
  induction given generalizing v with
  | nowhere absent =>
    rw [Realm.means_iff]
    intro location s here present
    rw [here, bind_some, present] at absent
    cases absent
  | back present here owned => exact handles _ _ _ _ _ present here owned inhabits
  | formed present here there same rule _ forms ih =>
    obtain ⟨a, member, admitted⟩ := forms.admits (fun w c v kid inside => ih w c kid inside) inhabits
    rw [Realm.means_iff]
    intro location s equal present'
    obtain rfl := some.inj equal
    obtain rfl := some.inj (present.symm.trans present')
    exact Realm.admits_of_key (fun w w' v near means => Realm.means_near near means) present there
      here same rule member admitted

theorem Gives.means (closed : g.Closed strict) (settled : Settled R ω g) {n : Nat} (given : Gives R ω w c)
    (inhabits : Inhabits (g.layers n) c v) : R.means w v := by
  -- With every layer the handles are opened once.
  induction n generalizing w c v with
  | zero =>
    refine given.means_of_handles (fun location s t id v present here owned inside => ?_) inhabits
    obtain ⟨shape, found, -⟩ := settled _ _ owned
    exact absurd inside (Graph.not_inhabits_layers_zero (isSome_iff_exists.mpr ⟨shape, found⟩))
  | succ n ih =>
    refine given.means_of_handles (fun location s t id v present here owned inside => ?_) inhabits
    obtain ⟨shape, found, formed⟩ := settled _ _ owned
    exact ih (formed.gives present here) ((Graph.inhabits_layers_handle closed found n).mp inside)

theorem Gives.inhabits (settled : Settled R ω g) (given : Gives R ω w c) (means : R.means w v) :
    Inhabits g c v := by
  have all : R.means ≤ fun w v => ∀ c, Gives R ω w c → Inhabits g c v := by
    refine OrderHom.lfp_le _ fun w v admitted c given => ?_
    obtain ⟨location?, t⟩ := w
    cases absent : location?.bind R.corpus.get? with
    | none =>
      cases given with
      | nowhere => exact .any v
      | back present => simp [present] at absent
      | formed present => simp [present] at absent
    | some s =>
      obtain ⟨location, rfl, present⟩ := bind_eq_some_iff.mp absent
      obtain ⟨shape, formed, accepts⟩ := settled.formed present given
      obtain ⟨alts, rule, a, member, holds⟩ := admitted location s rfl present
      obtain ⟨t₀, alts₀, there, same, rule₀, forms⟩ := formed.at present
      obtain ⟨alts₁, rule₁, b, member', holds'⟩ :=
        Realm.admits_of_key (Q := fun w v => ∀ c, Gives R ω w c → Inhabits g c v)
        (fun w w' v near inside c given => inside c (given.near near)) present (given.seen present)
        there same.symm rule member holds
      obtain rfl : alts₀ = alts₁ := some.inj (rule₀.symm.trans rule₁)
      exact accepts v (forms.inhabits (fun w c v given inside => inside c given) member' holds')
  exact all w v means c given

theorem Gives.inhabits_iff (closed : g.Closed strict) (leaves : c.Leaves strict g.Bound)
    (settled : Settled R ω g) (given : Gives R ω w c) : Inhabits g c v ↔ R.means w v := by
  constructor
  · intro inhabits
    obtain ⟨n, inside⟩ := (Graph.inhabits_iff_layers closed leaves).mp inhabits
    exact given.means closed settled inside
  · exact given.inhabits settled

end JsonShape.Derivation
