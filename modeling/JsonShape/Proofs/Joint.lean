import JsonShape.Proofs.MeetRules
import Mathlib.Data.List.Perm.Basic

/-! Joint acceptance: what shapes accept when all of them speak about one value and texts give way
to moments and bytes. It depends neither on the order of the shapes nor on how often they are
repeated. -/
namespace JsonShape

open Conformance List Option

variable {v : Value}

inductive Value.Coarse : Value → Prop
  | intro {v : Value} (own : (fitsKind v.settle .dateTime || fitsKind v.settle .binary) = false)
      (items : ∀ vs, v.settle.items? = some vs → ∀ x ∈ vs, Coarse x)
      (entries : ∀ es, v.settle.entries? = some es → ∀ e ∈ es, Coarse e.2) : Coarse v

theorem Value.Coarse.item (coarse : v.Coarse) {vs : List Value} (listed : v.settle.items? = some vs)
    {x : Value} (member : x ∈ vs) : x.Coarse := by
  cases coarse with
  | intro _ items _ => exact items vs listed x member

theorem Value.Coarse.entry (coarse : v.Coarse) {es : List (String × Value)}
    (keyed : v.settle.entries? = some es) {e : String × Value} (member : e ∈ es) : e.2.Coarse := by
  cases coarse with
  | intro _ _ entries => exact entries es keyed e member

theorem Value.Coarse.not_inhabits {g : Graph} (coarse : v.Coarse) {s : Shape}
    (rich : s.isRich = true) : ¬ Inhabits g s v := by
  cases coarse with
  | intro own _ _ =>
    obtain ⟨moment, bytes⟩ := Bool.or_eq_false_iff.mp own
    intro inhabits
    cases s with
    | dateTime n format =>
      exact Bool.false_ne_true (moment.symm.trans ((Inhabits.flat_iff rfl (by simp)).mp inhabits))
    | binary => exact Bool.false_ne_true (bytes.symm.trans ((Inhabits.flat_iff rfl (by simp)).mp inhabits))
    | _ => cases rich

namespace Shape

variable {name : String} {s t : Shape}

def Coarse (s : Shape) : Prop := ∀ t ∈ s.subshapes, t.isRich = false

theorem Coarse.of_mem (coarse : s.Coarse) (inside : t ∈ s.subshapes) : t.Coarse :=
  fun u deeper => coarse u (mem_subshapes_trans inside deeper)

theorem eq_any_of_mem_subshapes (inside : t ∈ any.subshapes) : t = any :=
  (mem_subshapes_iff.mp inside).resolve_right fun ⟨_, member, _⟩ => nomatch member

theorem coarse_any : any.Coarse := fun _ inside => eq_any_of_mem_subshapes inside ▸ rfl

def isText : Shape → Bool
  | string => true
  | literal _ v => v.literalKind == .string
  | _ => false

def items? : Shape → Option Shape
  | array _ items => some items
  | _ => none

def entryAt? (name : String) : Shape → Option Shape
  | object _ props extra? =>
    match property? props name with
    | some p => some p.shape
    | none => extra?
  | _ => none

def Requires (name : String) : Shape → Prop
  | object _ props _ => ∃ p ∈ props, p.name = name ∧ p.optional = false
  | _ => False

theorem mem_pieces_of_items? (found : s.items? = some t) : t ∈ s.pieces := by
  cases s <;> cases found
  exact mem_singleton_self t

theorem mem_pieces_of_entryAt? (found : s.entryAt? name = some t) : t ∈ s.pieces := by
  cases s with
  | object n props extra? =>
    rw [entryAt?] at found
    cases known : property? props name with
    | some p =>
      rw [known] at found
      obtain rfl := some.inj found
      exact mem_pieces_of_mem_props (mem_of_property? known).1
    | none =>
      rw [known] at found
      obtain rfl : extra? = some t := found
      exact mem_pieces_of_extra
  | _ => cases found

theorem mem_subshapes_of_piece (member : t ∈ s.pieces) : t ∈ s.subshapes :=
  mem_subshapes_of_mem_pieces s.mem_subshapes_self member

theorem Alike.isRich_eq (alike : Alike s t) : s.isRich = t.isRich := by
  cases alike <;> rfl

theorem Alike.isText_eq (alike : Alike s t) : s.isText = t.isText := by
  cases alike with
  | literal left right means => simp only [isText, Value.literalKind_eq_of_meaning_eq left right means]
  | _ => rfl

theorem Alike.option (s? : Option Shape) : Rel Alike s? s? := by
  cases s? with
  | none => exact .none
  | some s => exact .some (.refl s)

theorem Alike.items? (alike : Alike s t) : Rel Alike s.items? t.items? := by
  cases alike with
  | refl => exact Alike.option _
  | array items => exact .some items
  | _ => exact .none

theorem forall₂_of_alike {ps qs : List (Property Shape)} (length : ps.length = qs.length)
    (named : ∀ (i : Nat) (p q : Property Shape), ps[i]? = some p → qs[i]? = some q →
      p.name = q.name ∧ p.optional = q.optional)
    (shaped : ∀ (i : Nat) (p q : Property Shape), ps[i]? = some p → qs[i]? = some q →
      Alike p.shape q.shape) :
    Forall₂ (fun p q => p.name = q.name ∧ p.optional = q.optional ∧ Alike p.shape q.shape) ps
      qs := by
  refine forall₂_iff_getElem?.mpr ⟨length, fun i p q here there => ?_⟩
  obtain ⟨name, optional⟩ := named i p q here there
  exact ⟨name, optional, shaped i p q here there⟩

theorem Alike.entryAt? (alike : Alike s t) : Rel Alike (s.entryAt? name) (t.entryAt? name) := by
  cases alike with
  | refl => exact Alike.option _
  | @object _ _ ps qs e f length named shaped extras extra =>
    have pairs := forall₂_of_alike length named shaped
    clear length named shaped
    simp only [Shape.entryAt?]
    induction pairs with
    | nil =>
      cases e with
      | none =>
        obtain rfl : f = none := by simpa using extras
        exact .none
      | some a =>
        obtain ⟨b, rfl⟩ := isSome_iff_exists.mp extras.symm
        exact .some (extra a b rfl rfl)
    | @cons p q ps qs here _ ih =>
      simp only [property?, find?_cons, here.1]
      cases q.name == name with
      | true => exact .some here.2.2
      | false => exact ih
  | _ => exact .none

theorem Alike.requires (alike : Alike s t) (required : t.Requires name) : s.Requires name := by
  cases alike with
  | refl => exact required
  | object length named shaped =>
    obtain ⟨q, member, rfl, strict⟩ := required
    obtain ⟨p, member', name, optional, -⟩ :=
      exists_left_of_mem (forall₂_of_alike length named shaped) member
    exact ⟨p, member', name, optional.trans strict⟩
  | _ => exact required.elim

variable {g : Graph} {agree : Prop} {x : Value} {ts us cs ds : List Shape} {f : Shape → Option Shape}

/-- Leaves that a value fits together. A text that does not accept it gives way to a richer form of
string that does. -/
structure Fit (g : Graph) (agree : Prop) (cs : List Shape) (v : Value) : Prop where
  single : ∀ c ∈ cs, c.isFlat = true ∨ c.kind = .literal
  fits : ∀ c ∈ cs, Inhabits g c v ∨ c.isText = true ∧ ∃ r ∈ cs, r.isRich = true ∧ Inhabits g r v
  agreed : agree → ∀ {m n : Nat} {x y : Value}, literal m x ∈ cs → literal n y ∈ cs → x.meaning = y.meaning

/-- A value that shapes accept jointly. -/
inductive Joint (g : Graph) (agree : Prop) : List Shape → Value → Prop
  | leaves {ts cs : List Shape} {v : Value} (chosen : Forall₂ Choice ts cs)
      (fit : Fit g agree cs v) : Joint g agree ts v
  | lists {ts cs : List Shape} {v : Value} {vs : List Value} (chosen : Forall₂ Choice ts cs)
      (single : ∀ c ∈ cs, c = any ∨ c.kind = .array) (listed : v.settle.items? = some vs)
      (each : ∀ x ∈ vs, Joint g agree (cs.filterMap items?) x) : Joint g agree ts v
  | objects {ts cs : List Shape} {v : Value} {entries : List (String × Value)}
      (chosen : Forall₂ Choice ts cs)
      (single : ∀ c ∈ cs, c = any ∨ c.kind = .object) (keyed : v.settle.entries? = some entries)
      (present : ∀ c ∈ cs, ∀ name, c.Requires name → Entries.get? entries name ≠ none)
      (each : ∀ e ∈ entries, Joint g agree (cs.filterMap (entryAt? e.1)) e.2) : Joint g agree ts v

/-- A way from shapes to others that accept jointly what the first ones accept. Alternatives follow,
and so do items and entries. -/
structure Carries (g : Graph) (related : Value → List Shape → List Shape → Prop) : Prop where
  choose : ∀ {v ts us cs}, related v ts us → Forall₂ Choice ts cs → ∃ ds, Forall₂ Choice us ds ∧
    related v cs ds
  member : ∀ {v ts us}, related v ts us → ∀ u ∈ us, u = any ∨ ∃ t ∈ ts, Alike t u
  rich : ∀ {v ts us}, related v ts us → ∀ t ∈ ts, t.isRich = true → Inhabits g t v →
      ∃ u ∈ us, u.isRich = true ∧ Inhabits g u v
  items : ∀ {v ts us vs x}, related v ts us → v.settle.items? = some vs → x ∈ vs →
    related x (ts.filterMap items?) (us.filterMap items?)
  entries : ∀ {v ts us es e}, related v ts us → v.settle.entries? = some es → e ∈ es →
    related e.2 (ts.filterMap (entryAt? e.1)) (us.filterMap (entryAt? e.1))

theorem Alike.meaning_eq {m n : Nat} {y : Value} (alike : Alike (.literal m x) (.literal n y)) :
    x.meaning = y.meaning := by
  cases alike with
  | refl => rfl
  | literal _ _ means => exact means

variable {related : Value → List Shape → List Shape → Prop}

theorem Carries.fit (carries : Carries g related) (step : related v cs ds)
    (fit : Fit g agree cs v) : Fit g agree ds v := by
  have origin : ∀ {n x}, literal n x ∈ ds → ∃ m y, literal m y ∈ cs ∧ y.meaning = x.meaning := by
    intro n x inside
    obtain equal | ⟨t, inside', alike⟩ := carries.member step _ inside
    · cases equal
    · obtain ⟨m, y, rfl⟩ := exists_of_kind_literal alike.kind_eq
      exact ⟨m, y, inside', alike.meaning_eq⟩
  refine ⟨fun d inside => ?_, fun d inside => ?_, fun must m n x y here there => ?_⟩
  · obtain rfl | ⟨c, inside', alike⟩ := carries.member step d inside
    · exact .inl rfl
    · exact (fit.single c inside').imp (isFlat_of_kind_eq alike.kind_eq.symm) alike.kind_eq.symm.trans
  · obtain rfl | ⟨c, inside', alike⟩ := carries.member step d inside
    · exact .inl (.any v)
    · obtain inhabits | ⟨text, r, inside, rich, inhabits⟩ := fit.fits c inside'
      · exact .inl (alike.inhabits inhabits)
      · exact .inr ⟨alike.isText_eq ▸ text, carries.rich step r inside rich inhabits⟩
  · obtain ⟨m', x', here', same⟩ := origin here
    obtain ⟨n', y', there', same'⟩ := origin there
    rw [← same, ← same']
    exact fit.agreed must here' there'

theorem Carries.single (carries : Carries g related) (step : related v cs ds) {kind : Kind}
    (single : ∀ c ∈ cs, c = any ∨ c.kind = kind) : ∀ d ∈ ds, d = any ∨ d.kind = kind := by
  intro d inside
  obtain equal | ⟨c, inside', alike⟩ := carries.member step d inside
  · exact .inl equal
  · refine (single c inside').imp (fun equal => eq_any_of_kind ?_) alike.kind_eq.symm.trans
    rw [← alike.kind_eq, equal]
    rfl

theorem Joint.carry (carries : Carries g related) (joint : Joint g agree ts v)
    (step : related v ts us) : Joint g agree us v := by
  induction joint generalizing us with
  | leaves chosen fit =>
    obtain ⟨ds, chosen', step'⟩ := carries.choose step chosen
    exact .leaves chosen' (carries.fit step' fit)
  | lists chosen single listed _ ih =>
    obtain ⟨ds, chosen', step'⟩ := carries.choose step chosen
    exact .lists chosen' (carries.single step' single) listed fun x member =>
      ih x member (carries.items step' listed member)
  | objects chosen single keyed present _ ih =>
    obtain ⟨ds, chosen', step'⟩ := carries.choose step chosen
    refine .objects chosen' (carries.single step' single) keyed
      (fun d inside name required => ?_) fun e member =>
      ih e member (carries.entries step' keyed member)
    obtain rfl | ⟨c, inside', alike⟩ := carries.member step' d inside
    · exact required.elim
    · exact present c inside' name (alike.requires required)

theorem carries_perm (g : Graph) : Carries g fun _ => Perm where
  choose perm chosen := by
    obtain ⟨ds, chosen', perm'⟩ := perm_comp_forall₂ perm.symm chosen
    exact ⟨ds, chosen', perm'.symm⟩
  member perm u inside := .inr ⟨u, perm.mem_iff.mpr inside, .refl u⟩
  rich perm t inside rich inhabits := ⟨t, perm.mem_iff.mp inside, rich, inhabits⟩
  items perm _ _ := perm.filterMap _
  entries perm _ _ := perm.filterMap _

theorem carries_alike (g : Graph) : Carries g fun _ => Forall₂ Alike where
  choose {_ ts us cs} alike chosen := by
    induction alike generalizing cs with
    | nil =>
      cases chosen
      exact ⟨[], .nil, .nil⟩
    | cons here _ ih =>
      cases chosen with
      | cons choice rest =>
        obtain ⟨d, choice', alike⟩ := choice.exists_alike here
        obtain ⟨ds, rest', alike'⟩ := ih rest
        exact ⟨d :: ds, .cons choice' rest', .cons alike alike'⟩
  member alike u inside := by
    obtain ⟨t, inside', here⟩ := exists_left_of_mem alike inside
    exact .inr ⟨t, inside', here⟩
  rich alike t inside rich inhabits := by
    obtain ⟨u, inside', here⟩ := exists_right_of_mem alike inside
    exact ⟨u, inside', here.isRich_eq ▸ rich, here.inhabits inhabits⟩
  items alike _ _ := rel_filterMap (fun _ _ here => here.items?) alike
  entries alike _ _ := rel_filterMap (fun _ _ here => here.entryAt?) alike

theorem exists_forall₂ {α β : Type} {R : α → β → Prop} {as : List α} (each : ∀ a ∈ as, ∃ b, R a b) :
    ∃ bs, Forall₂ R as bs := by
  induction as with
  | nil => exact ⟨[], .nil⟩
  | cons a rest ih =>
    obtain ⟨b, here⟩ := each a mem_cons_self
    obtain ⟨bs, later⟩ := ih (forall_mem_cons.mp each).2
    exact ⟨b :: bs, .cons here later⟩

theorem exists_of_forall₂_append {α β : Type} {R : α → β → Prop} {as bs : List α} {cs : List β}
    (each : Forall₂ R (as ++ bs) cs) :
    ∃ xs ys, cs = xs ++ ys ∧ Forall₂ R as xs ∧ Forall₂ R bs ys := by
  induction as generalizing cs with
  | nil => exact ⟨[], cs, rfl, .nil, each⟩
  | cons a rest ih =>
    cases each with
    | cons here later =>
      obtain ⟨xs, ys, rfl, first, second⟩ := ih later
      exact ⟨_ :: xs, ys, rfl, .cons here first, second⟩

/-- Shapes that say nothing, or say again what is said already. -/
def Repeats (ts us : List Shape) : Prop := ∃ ds, us = ds ++ ts ∧ ∀ d ∈ ds, d = any ∨ d ∈ ts

theorem Repeats.filterMap (void : f any = none) (repeats : Repeats ts us) :
    Repeats (ts.filterMap f) (us.filterMap f) := by
  obtain ⟨ds, rfl, each⟩ := repeats
  refine ⟨ds.filterMap f, filterMap_append, fun t inside => ?_⟩
  obtain ⟨d, member, found⟩ := mem_filterMap.mp inside
  obtain rfl | known := each d member
  · rw [void] at found
    cases found
  · exact .inr (mem_filterMap.mpr ⟨d, known, found⟩)

theorem carries_repeats (g : Graph) : Carries g fun _ => Repeats where
  choose {_ ts _ cs} repeats chosen := by
    obtain ⟨ds, rfl, each⟩ := repeats
    have choices : ∀ d ∈ ds, ∃ c, Choice d c ∧ (c = any ∨ c ∈ cs) := by
      intro d member
      obtain rfl | known := each d member
      · exact ⟨any, .self (by rintro ⟨⟩), .inl rfl⟩
      · obtain ⟨c, inside, choice⟩ := exists_right_of_mem chosen known
        exact ⟨c, choice, .inr inside⟩
    obtain ⟨es, chosen'⟩ := exists_forall₂ choices
    refine ⟨es ++ cs, rel_append (chosen'.imp fun _ _ both => both.1) chosen, es, rfl, fun c inside => ?_⟩
    obtain ⟨d, -, -, known⟩ := exists_left_of_mem chosen' inside
    exact known
  member repeats u inside := by
    obtain ⟨ds, rfl, each⟩ := repeats
    obtain new | old := mem_append.mp inside
    · exact (each u new).imp_right fun known => ⟨u, known, .refl u⟩
    · exact .inr ⟨u, old, .refl u⟩
  rich repeats t inside rich inhabits := by
    obtain ⟨ds, rfl, -⟩ := repeats
    exact ⟨t, mem_append_right _ inside, rich, inhabits⟩
  items repeats _ _ := repeats.filterMap rfl
  entries repeats _ _ := repeats.filterMap rfl

/-- Whether no union with a moment or bytes in it is in two shapes. -/
def Unshared (s t : Shape) : Prop := ∀ u ∈ s.subshapes, u ∈ t.subshapes → u.kind = .union → u.Coarse

theorem Unshared.symm (unshared : Unshared s t) : Unshared t s :=
  fun u here there choice => unshared u there here choice

theorem Unshared.mono {p q : Shape} (unshared : Unshared s t) (inside : p ∈ s.subshapes)
    (inside' : q ∈ t.subshapes) : Unshared p q :=
  fun u here there choice => unshared u (mem_subshapes_trans inside here)
    (mem_subshapes_trans inside' there) choice

/-- Shapes of which some can be left out: they have no moments and bytes, or they stay and have none
under a union. -/
def Drops (v : Value) (ts us : List Shape) : Prop :=
  ∃ ds, ts = ds ++ us ∧ (v.Coarse ∨ ∀ d ∈ ds, d.Coarse ∨ Unshared d d ∧ d ∈ us)

theorem Drops.filterMap (inside : ∀ s t, f s = some t → t ∈ s.pieces) (coarse : v.Coarse → x.Coarse)
    (drops : Drops v ts us) : Drops x (ts.filterMap f) (us.filterMap f) := by
  obtain ⟨ds, rfl, each⟩ := drops
  refine ⟨ds.filterMap f, filterMap_append, each.imp coarse fun each t member => ?_⟩
  obtain ⟨d, member', found⟩ := mem_filterMap.mp member
  have deeper := mem_subshapes_of_piece (inside d t found)
  refine (each d member').imp (fun coarse => coarse.of_mem deeper) fun ⟨unshared, known⟩ => ?_
  exact ⟨unshared.mono deeper deeper, mem_filterMap.mpr ⟨d, known, found⟩⟩

theorem carries_drops (g : Graph) : Carries g Drops where
  choose {v _ us cs} drops chosen := by
    obtain ⟨ds, rfl, each⟩ := drops
    obtain ⟨xs, ys, rfl, first, second⟩ := exists_of_forall₂_append chosen
    refine ⟨ys, second, xs, rfl, each.imp_right fun each c inside => ?_⟩
    obtain ⟨d, member, choice⟩ := exists_left_of_mem first inside
    obtain coarse | ⟨unshared, known⟩ := each d member
    · exact .inl (coarse.of_mem choice.mem_subshapes)
    by_cases union : d.kind = .union
    · have coarse := unshared d d.mem_subshapes_self d.mem_subshapes_self union
      exact .inl (coarse.of_mem choice.mem_subshapes)
    · obtain ⟨e, inside', again⟩ := exists_right_of_mem second known
      obtain rfl := choice.eq union
      obtain rfl := again.eq union
      exact .inr ⟨unshared, inside'⟩
  member drops u inside := by
    obtain ⟨ds, rfl, -⟩ := drops
    exact .inr ⟨u, mem_append_right _ inside, .refl u⟩
  rich drops t inside rich inhabits := by
    obtain ⟨ds, rfl, each⟩ := drops
    obtain dropped | kept := mem_append.mp inside
    · obtain coarse | each := each
      · exact absurd inhabits (coarse.not_inhabits rich)
      · obtain coarse | ⟨-, known⟩ := each t dropped
        · exact absurd rich (by simp [coarse t t.mem_subshapes_self])
        · exact ⟨t, known, rich, inhabits⟩
    · exact ⟨t, kept, rich, inhabits⟩
  items drops listed member := drops.filterMap (fun _ _ => mem_pieces_of_items?) fun coarse =>
      coarse.item listed member
  entries drops keyed member := drops.filterMap (fun _ _ => mem_pieces_of_entryAt?) fun coarse =>
      coarse.entry keyed member

theorem exists_of_chosen (single : s.kind ≠ .union) (chosen : Forall₂ Choice (s :: us) cs) :
    ∃ rest, cs = s :: rest ∧ Forall₂ Choice us rest := by
  cases chosen with
  | cons choice rest =>
    obtain rfl := choice.eq single
    exact ⟨_, rfl, rest⟩

/-- Only the alternatives count that are chosen. -/
theorem Joint.exists_chosen (joint : Joint g agree ts v) :
    ∃ cs, Forall₂ Choice ts cs ∧ ∀ us, Forall₂ Choice us cs → Joint g agree us v := by
  cases joint with
  | leaves chosen fit => exact ⟨_, chosen, fun _ chosen => .leaves chosen fit⟩
  | lists chosen single listed each => exact ⟨_, chosen, fun _ chosen => .lists chosen single listed each⟩
  | objects chosen single keyed present each =>
    exact ⟨_, chosen, fun _ chosen => .objects chosen single keyed present each⟩

theorem Joint.of_choice {c : Shape} (choice : Choice s c) (joint : Joint g agree (c :: us) v) :
    Joint g agree (s :: us) v := by
  obtain ⟨_, chosen, settle⟩ := joint.exists_chosen
  cases chosen with
  | cons here rest => exact settle _ (.cons (choice.trans here) rest)

theorem Joint.exists_choice (joint : Joint g agree (s :: us) v) :
    ∃ c, Choice s c ∧ Joint g agree (c :: us) v := by
  obtain ⟨_, chosen, settle⟩ := joint.exists_chosen
  cases chosen with
  | cons here rest => exact ⟨_, here, settle _ (.cons (.self here.single) rest)⟩

end Shape

end JsonShape
