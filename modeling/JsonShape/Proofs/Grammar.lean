import JsonShape.Proofs.Lockstep
import Mathlib.Data.List.Forall2
import Mathlib.Data.Option.Defs

/-! Schemas as the rules of a grammar: a schema seen through a table is worth the values that one of
its alternatives admits. Tables that are alike give the same alternatives. -/
namespace JsonShape.Derivation
open List Option

/-- One of the forms that the values of a schema have. -/
inductive Alternative (α : Type) where
  | leaf (s : Shape)
  | same (whole : α)
  | list (items : α)
  | record (props : List (Property α)) (extra? : Option α)
  /-- Parts that are looked at, and no values. -/
  | void (parts : List α)

structure PropertyLift {α β : Type} (r : α → β → Prop) (p : Property α) (q : Property β) : Prop where
  name : q.name = p.name
  optional : q.optional = p.optional
  shape : r p.shape q.shape

namespace Alternative

variable {α β : Type} {r : α → β → Prop}

def uses : Alternative α → List α
  | leaf _ => []
  | same whole => [whole]
  | list items => [items]
  | record props extra? => props.map (·.shape) ++ extra?.toList
  | void parts => parts

def map (f : α → β) : Alternative α → Alternative β
  | leaf s => leaf s
  | same whole => same (f whole)
  | list items => list (f items)
  | record props extra? => record (props.map (.map f)) (extra?.map f)
  | void parts => void (parts.map f)

/-- Which values an alternative admits, when it is known which ones its parts admit. -/
def Admits (P : α → Value → Prop) : Alternative α → Value → Prop
  | leaf s, v => Inhabits {} s v
  | same whole, v => P whole v
  | list items, v => ∃ vs, v.settle.items? = some vs ∧ ∀ x ∈ vs, P items x
  | record props extra?, v => ∃ entries, v.settle.entries? = some entries ∧
      (∀ p ∈ props, Entries.get? entries p.name = none → p.optional = true) ∧
      (∀ p ∈ props, ∀ x, Entries.get? entries p.name = some x → P p.shape x) ∧
      ∀ extra, extra? = some extra → ∀ entry ∈ entries, (∀ p ∈ props, p.name ≠ entry.1) → P extra entry.2
  | void _, _ => False

inductive Lift (r : α → β → Prop) : Alternative α → Alternative β → Prop
  | leaf (s : Shape) : Lift r (.leaf s) (.leaf s)
  | same {a : α} {b : β} (whole : r a b) : Lift r (.same a) (.same b)
  | list {a : α} {b : β} (items : r a b) : Lift r (.list a) (.list b)
  | record {props : List (Property α)} {others : List (Property β)} {extra? : Option α} {other? : Option β}
      (each : Forall₂ (PropertyLift r) props others) (extra : Rel r extra? other?) :
      Lift r (.record props extra?) (.record others other?)
  | void {parts : List α} {others : List β} (each : Forall₂ r parts others) :
      Lift r (.void parts) (.void others)

namespace Lift

variable {a : Alternative α} {b : Alternative β}

theorem imp {r' : α → β → Prop} (weaker : ∀ x y, r x y → r' x y) (lift : Lift r a b) : Lift r' a b := by
  cases lift with
  | leaf s => exact .leaf s
  | same whole => exact .same (weaker _ _ whole)
  | list items => exact .list (weaker _ _ items)
  | record each extra =>
    exact .record (each.imp fun p q same => ⟨same.name, same.optional, weaker _ _ same.shape⟩)
      (optionRel_imp (fun _ _ => weaker _) extra)
  | void each => exact .void (each.imp weaker)

theorem flip (lift : Lift r a b) : Lift (fun y x => r x y) b a := by
  cases lift with
  | leaf s => exact .leaf s
  | same whole => exact .same whole
  | list items => exact .list items
  | record each extra =>
    refine .record (each.flip.imp fun q p same => ⟨same.name.symm, same.optional.symm, same.shape⟩) ?_
    cases extra with
    | some related => exact .some related
    | none => exact .none
  | void each => exact .void each.flip

theorem admits {P : α → Value → Prop} {Q : β → Value → Prop}
    (larger : ∀ x y v, r x y → P x v → Q y v) (lift : Lift r a b) {v : Value}
    (admitted : a.Admits P v) : b.Admits Q v := by
  cases lift with
  | leaf s => exact admitted
  | same whole => exact larger _ _ v whole admitted
  | list items =>
    obtain ⟨vs, listed, each⟩ := admitted
    exact ⟨vs, listed, fun x member => larger _ _ x items (each x member)⟩
  | record each extra =>
    obtain ⟨entries, keyed, present, declared, undeclared⟩ := admitted
    refine ⟨entries, keyed, ?_, ?_, ?_⟩
    · intro q member absent
      obtain ⟨p, member', same⟩ := exists_left_of_mem each member
      rw [same.optional]
      exact present p member' (same.name ▸ absent)
    · intro q member x found
      obtain ⟨p, member', same⟩ := exists_left_of_mem each member
      exact larger _ _ x same.shape (declared p member' x (same.name ▸ found))
    · intro y equal entry member unknown
      cases extra with
      | none => cases equal
      | some related =>
        obtain rfl := some.inj equal
        refine larger _ _ _ related (undeclared _ rfl entry member fun p member' => ?_)
        obtain ⟨q, member'', same⟩ := exists_right_of_mem each member'
        exact same.name ▸ unknown q member''
  | void => exact admitted.elim

theorem uses (lift : Lift r a b) {x : α} (member : x ∈ a.uses) : ∃ y ∈ b.uses, r x y := by
  cases lift with
  | leaf s => cases member
  | same whole =>
    rw [mem_singleton.mp member]
    exact ⟨_, mem_singleton_self _, whole⟩
  | list items =>
    rw [mem_singleton.mp member]
    exact ⟨_, mem_singleton_self _, items⟩
  | record each extra =>
    rcases mem_append.mp member with inside | outside
    · obtain ⟨p, member', rfl⟩ := mem_map.mp inside
      obtain ⟨q, member'', same⟩ := exists_right_of_mem each member'
      exact ⟨q.shape, mem_append_left _ (mem_map_of_mem member''), same.shape⟩
    · cases extra with
      | none => cases outside
      | some related =>
        rw [mem_toList.mp outside |> some.inj |> Eq.symm]
        exact ⟨_, mem_append_right _ (mem_toList.mpr rfl), related⟩
  | void each => exact exists_right_of_mem each member

end Lift

theorem lift_map {γ : Type} {r : β → γ → Prop} {f : α → β} {f' : α → γ}
    (related : ∀ x, r (f x) (f' x)) (a : Alternative α) : Lift r (a.map f) (a.map f') := by
  cases a with
  | leaf s => exact .leaf s
  | same whole => exact .same (related whole)
  | list items => exact .list (related items)
  | record props extra? =>
    refine .record ?_ ?_
    · rw [forall₂_map_left_iff, forall₂_map_right_iff, forall₂_same]
      exact fun p _ => ⟨rfl, rfl, related p.shape⟩
    · cases extra? with
      | none => exact .none
      | some extra => exact .some (related extra)
  | void parts =>
    refine .void ?_
    rw [forall₂_map_left_iff, forall₂_map_right_iff, forall₂_same]
    exact fun x _ => related x

theorem uses_map (f : α → β) (a : Alternative α) : (a.map f).uses = a.uses.map f := by
  cases a with
  | record props extra? => cases extra? <;> simp [map, uses, Property.map, Function.comp_def]
  | _ => rfl

theorem lift_self (a : Alternative α) : Lift Eq a a := by
  have unchanged : a.map id = a := by
    have property : (Property.map id : Property α → Property α) = id := rfl
    cases a <;> simp [map, property]
  have lift := a.lift_map (r := Eq) fun x => Eq.refl (id x)
  rwa [unchanged] at lift

end Alternative

structure View where
  location? : Option Location
  table : Table

structure Hop where
  location? : Option Location
  through? : Option Location

def Hop.view (corpus : Corpus) (t : Table) (h : Hop) : View :=
  ⟨h.location?, (h.through?.map (t.enter corpus)).getD t⟩

section Rules

variable (options : Options) (location : Location) (k : Keywords Schema)

def branchAlternatives (step : Nat → Step) (list : List (Option Schema)) : List (Alternative Hop) :=
  list.zipIdx.map fun (s?, i) => .same ⟨s?.map fun _ => location.child (step i), none⟩

def listAlternatives : List (Alternative Hop) :=
  match k.items? with
  | none => [.list ⟨none, none⟩]
  | some items =>
    match if isBareOneOf items.keywords then items.keywords.oneOf? else none with
    | some list => list.zipIdx.map fun (s?, i) =>
        .list ⟨s?.map fun _ => (location.child .items).child (.oneOf i), some (location.child .items)⟩
    | none => [.list ⟨some (location.child .items), none⟩]

def extraHop? : Option Hop :=
  match k.additionalProperties? with
  | none => none
  | some s =>
    match s.keywords.boolean? with
    | some true => some ⟨none, none⟩
    | some false => none
    | none => some ⟨some (location.child .additionalProperties), none⟩

def propertyHop (name : String) (s? : Option Schema) : Property Hop :=
  let default? := s?.bind (·.keywords.default?)
  let present := options.mode == .response && default?.isSome
  ⟨name, ⟨s?.map fun _ => location.child (.property name), none⟩, !(k.isRequired name) &&
  !present, default?⟩

def branchRequires (s? : Option Schema) : List String := (s?.bind (·.keywords.required?)).getD []

def RequiresDeclared (names : List String) (branches : List (Option Schema)) : Prop :=
  ∀ s? ∈ branches, ∀ name ∈ branchRequires s?, name ∈ names

instance (names : List String) (branches : List (Option Schema)) :
    Decidable (RequiresDeclared names branches) := by
  unfold RequiresDeclared
  infer_instance

def requiring {α : Type} (names : List String) (p : Property α) : Property α :=
  { p with optional := p.optional && !names.contains p.name }

def propertyHops : List (Property Hop) :=
  (k.properties?.getD []).map fun (name, s?) => propertyHop options location k name s?

def recordParts : List Hop :=
  (propertyHops options location k).map (·.shape) ++ (extraHop? location k).toList

def recordAlternatives : Option (List (Alternative Hop)) :=
  match k.anyOf? with
  | none => some [.record (propertyHops options location k) (extraHop? location k)]
  | some branches =>
    if k.properties?.isSome ∧ RequiresDeclared ((k.properties?.getD []).map (·.1)) branches then
      some (.void (recordParts options location k) ::
        branches.map fun s? =>
        .record ((propertyHops options location k).map (requiring (branchRequires s?)))
        (extraHop? location k))
    else if options.strict then none
    else some [.void (recordParts options location k)]

def scalar : String → Shape
  | "string" =>
    if k.format == "date" || k.format == "date-time" then
      .dateTime 0 k.format else if k.format == "binary" then .binary else .string
  | "null" => .null
  | "boolean" => .boolean
  | "integer" => .number true
  | "number" => .number false
  | _ => .any

def typedAlternatives (name : String) : Option (List (Alternative Hop)) :=
  match name with
  | "object" => recordAlternatives options location k
  | "array" => some (listAlternatives location k)
  | name => some [.leaf (scalar k name)]

def constantShape : Value → Shape
  | .null => .null
  | v => .literal 0 v

/-- The alternatives of a schema that is no reference and asks for no meet; none if there is
something to report. -/
def ownAlternatives : Option (List (Alternative Hop)) :=
  match k.boolean?, k.const?, k.enum?, k.type with
  | some b, _, _, _ => some (if b then [.leaf .any] else [])
  | none, some v, _, _ => some [.leaf (constantShape v)]
  | none, none, some values, _ => some (values.map fun v => .leaf (constantShape v))
  | none, none, none, .one name => typedAlternatives options location k name
  | none, none, none, .list names => (names.mapM (typedAlternatives options location k)).map flatten
  | none, none, none, .absent =>
    match k.anyOf?, k.oneOf? with
    | some list, _ => some (branchAlternatives location .anyOf list)
    | none, some list => some (branchAlternatives location .oneOf list)
    | none, none => some [.leaf .any]

/-- The alternatives of a schema with what they lead to. -/
def alternatives (corpus : Corpus) (t : Table) : Option (List (Alternative View)) :=
  if k.boolean?.isNone && k.ref != "" then (t.resolve corpus k.ref).map fun (target?, u) =>
    [.same ⟨target?, u⟩]
  else (ownAlternatives options location k).map (·.map (.map (Hop.view corpus t)))

theorem exists_uses_of_mem_recordParts {alts : List (Alternative Hop)}
    (rule : recordAlternatives options location k = some alts) {h : Hop}
    (member : h ∈ recordParts options location k) : ∃ a ∈ alts, h ∈ a.uses := by
  unfold recordAlternatives at rule
  split at rule
  · rw [← some.inj rule]
    exact ⟨_, mem_singleton_self _, member⟩
  · split_ifs at rule
    · rw [← some.inj rule]
      exact ⟨_, mem_cons_self, member⟩
    · rw [← some.inj rule]
      exact ⟨_, mem_singleton_self _, member⟩

end Rules

/-- Schemas whose shapes follow from those of their subschemas: nothing is met, and required
properties stay required. -/
structure Tame (options : Options) (k : Keywords Schema) : Prop extends k.DocumentConstants where
  allOf : k.allOf? = none
  oneOf : k.type.has "object" = true → k.oneOf? = none
  steady : options.recursion = .required ∨
    ∀ entries, k.properties? = some entries → ∀ name s, (name, some s) ∈ entries →
    k.isRequired name = true → s.keywords.ref = ""

/-- Tame schemas, and tables for them that derivations do not leave and that are told apart by their
fingerprints. -/
structure Realm where
  corpus : Corpus
  options : Options
  seen : Table → Prop
  tame : ∀ location s, corpus.get? location = some s → Tame options s.keywords
  enter : ∀ t location, seen t → seen (t.enter corpus location)
  resolve : ∀ t u key node?, seen t → t.resolve corpus key = some (node?, u) → seen u
  legible : ∀ t, seen t → t.Legible corpus
  single : ∀ t, seen t → t.OneOwner

namespace Realm

variable (R : Realm)

def alternatives (location : Location) (t : Table) (k : Keywords Schema) :
    Option (List (Alternative View)) :=
  Derivation.alternatives R.options location k R.corpus t

structure Near (w w' : View) : Prop where
  location : w'.location? = w.location?
  tables : w.location?.isSome = true → R.seen w.table ∧ R.seen w'.table ∧ w.table.Alike w'.table

variable {R} {t t' : Table}

theorem near_view (here : R.seen t) (there : R.seen t') (alike : t.Alike t') (h : Hop) :
    R.Near (h.view R.corpus t) (h.view R.corpus t') := by
  refine ⟨rfl, fun _ => ?_⟩
  unfold Hop.view
  cases h.through? with
  | none => exact ⟨here, there, alike⟩
  | some location => exact ⟨R.enter t location here, R.enter t' location there, alike.enter location⟩

theorem alternatives_near (here : R.seen t) (there : R.seen t') (alike : t.Alike t')
    (location : Location) (k : Keywords Schema) :
    Rel (Forall₂ (Alternative.Lift R.Near)) (R.alternatives location t k)
      (R.alternatives location t' k) := by
  unfold alternatives Derivation.alternatives
  split_ifs
  · have ends : Table.EndAlike (t.resolve R.corpus k.ref) (t'.resolve R.corpus k.ref) :=
      alike.resolve k.ref
    have stays : ∀ node? u, t.resolve R.corpus k.ref = some (node?, u) → R.seen u :=
      fun node? u => R.resolve t u k.ref node? here
    have stays' : ∀ node? u, t'.resolve R.corpus k.ref = some (node?, u) → R.seen u :=
      fun node? u => R.resolve t' u k.ref node? there
    revert ends stays stays'
    generalize t.resolve R.corpus k.ref = found, t'.resolve R.corpus k.ref = found'
    rintro (_ | same) stays stays'
    · exact .none
    · refine .some (.cons (.same ⟨rfl, fun present => ?_⟩) .nil)
      exact ⟨stays _ _ rfl, stays' _ _ rfl, same present⟩
  · cases ownAlternatives R.options location k with
    | none => exact .none
    | some list =>
      refine .some ?_
      rw [forall₂_map_left_iff, forall₂_map_right_iff, forall₂_same]
      exact fun a _ => a.lift_map (near_view here there alike)

end Realm

end JsonShape.Derivation
