import JsonShape.Proofs.Inhabitation

/-! Unions of tidy shapes. What is built is tidy, and it accepts what some of the shapes accepts. -/
namespace JsonShape
open List

def Fresh.Yields {α : Type} (f : Fresh α) (good : α → Prop) : Prop :=
  ∀ n, ∃ a n', f n = .ok (a, n') ∧ good a

namespace Fresh.Yields

variable {α β : Type} {good : α → Prop} {fine : β → Prop}

theorem pure {a : α} (holds : good a) : Yields (Pure.pure a) good := fun n => ⟨a, n, rfl, holds⟩

theorem imp {f : Fresh α} {better : α → Prop} (yields : f.Yields better)
    (implies : ∀ a, better a → good a) : f.Yields good := by
  intro n
  obtain ⟨a, n', equal, holds⟩ := yields n
  exact ⟨a, n', equal, implies a holds⟩

theorem bind {f : Fresh α} {next : α → Fresh β} (first : f.Yields good)
    (second : ∀ a, good a → (next a).Yields fine) : (f >>= next).Yields fine := by
  intro n
  obtain ⟨a, n', equal, holds⟩ := first n
  obtain ⟨b, n'', equal', holds'⟩ := second a holds n'
  refine ⟨b, n'', ?_, holds'⟩
  rw [← equal']
  exact congrArg (fun r => r >>= fun (a, n) => next a n) equal

theorem serial {next : Nat → Fresh β} (second : ∀ n, (next n).Yields fine) :
    (Fresh.serial >>= next).Yields fine :=
  fun n => second n (n + 1)

theorem lift {result : Except Fault α} {next : α → Fresh β} {a : α} (equal : result = .ok a)
    (second : (next a).Yields fine) : Yields ((liftM result : Fresh α) >>= next) fine := by
  subst equal
  exact second

end Fresh.Yields

variable {α β : Type} {related : α → β → Prop} {as : List α} {bs : List β}

theorem exists_left_of_mem (each : Forall₂ related as bs) {b : β} (member : b ∈ bs) :
    ∃ a ∈ as, related a b := by
  induction each with
  | nil => cases member
  | cons here _ ih =>
    rcases mem_cons.mp member with rfl | inside
    · exact ⟨_, mem_cons_self, here⟩
    · obtain ⟨a, member', related⟩ := ih inside
      exact ⟨a, mem_cons_of_mem _ member', related⟩

theorem exists_right_of_mem (each : Forall₂ related as bs) {a : α} (member : a ∈ as) :
    ∃ b ∈ bs, related a b :=
  exists_left_of_mem each.flip member

theorem optionRel_imp {weak : α → β → Prop} {a? : Option α} {b? : Option β}
    (weaker : ∀ a ∈ a?, ∀ b, related a b → weak a b) (rel : Option.Rel related a? b?) :
    Option.Rel weak a? b? := by
  cases rel with
  | some holds => exact .some (weaker _ rfl _ holds)
  | none => exact .none

theorem mem_map_of_find?_eq_some [BEq β] [LawfulBEq β] {f : α → β} {a : α} {b : β}
    (found : as.find? (f · == b) = some a) : b ∈ as.map f := by
  have same : f a = b := by simpa using find?_some found
  exact same ▸ mem_map_of_mem (mem_of_find?_eq_some found)

theorem not_mem_map_of_find?_eq_none [BEq β] [LawfulBEq β] {f : α → β} {b : β}
    (found : as.find? (f · == b) = none) : b ∉ as.map f := by
  intro member
  obtain ⟨a, inside, same⟩ := mem_map.mp member
  exact find?_eq_none.mp found a inside (beq_iff_eq.mpr same)

theorem forall₂_iff_getElem? :
    Forall₂ related as bs ↔ as.length = bs.length ∧ ∀ (i : Nat) (a : α) (b : β), as[i]? = some a →
      bs[i]? = some b → related a b := by
  rw [forall₂_iff_get]
  refine and_congr_right fun _ => ⟨fun each i a b here there => ?_, fun each i here there => ?_⟩
  · obtain ⟨inside, rfl⟩ := List.getElem?_eq_some_iff.mp here
    obtain ⟨inside', rfl⟩ := List.getElem?_eq_some_iff.mp there
    exact each i inside inside'
  · exact each i _ _ (getElem?_eq_getElem here) (getElem?_eq_getElem there)

theorem Shape.property?_isNone_of_names {ps qs : List (Property Shape)}
    (names : Forall₂ (fun p q => p.name = q.name) ps qs) (key : String) :
    (property? ps key).isNone = (property? qs key).isNone := by
  unfold property?
  induction names with
  | nil => rfl
  | @cons p q _ _ name _ ih =>
    rw [find?_cons, find?_cons, name]
    cases q.name == key with
    | true => rfl
    | false => exact ih

namespace Shape

variable {admitted : Shape → Prop} {inclusive : Bool} {members : List Shape} {g : Graph} {v : Value}
variable {shapes : List Shape}

def gathered (n : Nat) (inclusive : Bool) : Option (List Shape) → Shape
  | none => any
  | some [] => never
  | some [s] => s
  | some (s :: t :: rest) => union n inclusive (s :: t :: rest)

theorem unionOf_gathered {grown? : Option (List Shape)} (run : addMembers [] shapes = .ok grown?) :
    (unionOf inclusive shapes).Yields fun s => ∃ n, s = gathered n inclusive grown? := by
  unfold unionOf
  refine .lift run ?_
  match grown? with
  | none | some [] | some [_] => exact .pure ⟨0, rfl⟩
  | some (s :: t :: rest) => exact .serial fun n => .pure ⟨n, rfl⟩

theorem unionOf_eq_gathered {k k' : Nat} {s : Shape} (run : unionOf inclusive shapes k = .ok (s, k')) :
    ∃ grown?, addMembers [] shapes = .ok grown? ∧ s = gathered k inclusive grown? ∧ k ≤ k' := by
  cases taken : addMembers [] shapes with
  | error e =>
    rw [unionOf, taken] at run
    cases run
  | ok grown? =>
    rw [unionOf, taken] at run
    refine ⟨grown?, rfl, ?_⟩
    match grown? with
    | none | some [] | some [_] =>
      obtain ⟨rfl, rfl⟩ := Prod.mk.inj (Except.ok.inj run)
      exact ⟨rfl, Nat.le_refl k⟩
    | some (s :: t :: rest) =>
      obtain ⟨rfl, rfl⟩ := Prod.mk.inj (Except.ok.inj run)
      exact ⟨rfl, Nat.le_succ k⟩

variable {s c : Shape}

theorem Choice.inhabits {g : Graph} {v : Value} (choice : Choice s c) (inhabits : Inhabits g c v) :
    Inhabits g s v := by
  induction choice with
  | self => exact inhabits
  | member member _ ih => exact .union member (ih inhabits)

theorem exists_choice_of_inhabits (inhabits : Inhabits g s v) : ∃ c, Choice s c ∧ Inhabits g c v := by
  induction s using pieces_induction with
  | step s ih =>
    by_cases single : s.kind = .union
    · cases s with
      | union n inclusive members =>
        obtain ⟨m, member, inside⟩ := Inhabits.union_iff.mp inhabits
        obtain ⟨c, choice, inside⟩ := ih m member inside
        exact ⟨c, .member member choice, inside⟩
      | _ => cases single
    · exact ⟨s, .self single, inhabits⟩

theorem Choice.exists_alike {t : Shape} (choice : Choice s c) (alike : Alike s t) :
    ∃ d, Choice t d ∧ Alike c d := by
  induction choice generalizing t with
  | @self s single => exact ⟨t, .self (alike.kind_eq ▸ single), alike⟩
  | @member n inclusive members m c member inside ih =>
    cases alike with
    | refl => exact ⟨c, .member member inside, .refl c⟩
    | union forth _ listed each _ _ =>
      obtain ⟨d, choice, alike⟩ := ih (each m member)
      exact ⟨d, .member (listed m member) choice, alike⟩

def SomeInhabits (g : Graph) (shapes : List Shape) (v : Value) : Prop := ∃ s ∈ shapes, Inhabits g s v

variable {grown? : Option (List Shape)}

/-- The members of a union are alternatives of the shapes. Where there are none left, a shape leaves
everything open. -/
def Drawn (shapes : List Shape) : Option (List Shape) → Prop
  | none => ∃ s ∈ shapes, Choice s any
  | some grown => ∀ m ∈ grown, ∃ s ∈ shapes, Choice s m

theorem addMembers_drawn (run : addMembers [] shapes = .ok grown?) : Drawn shapes grown? := by
  have origin : ∀ c ∈ shapes.flatMap spread, ∃ s ∈ shapes, Choice s c := by
    intro c member
    obtain ⟨s, listed, inside⟩ := mem_flatMap.mp member
    exact ⟨s, listed, (mem_spread_iff.mp inside).1⟩
  rw [addMembers_eq_enlist] at run
  cases grown? with
  | none => exact origin any (enlist_none run)
  | some grown =>
    exact fun m member => origin m (((enlist_some run).drawn m member).resolve_left not_mem_nil)

theorem exists_choice_of_gathered (run : addMembers [] shapes = .ok grown?) {n : Nat} {c : Shape}
    (choice : Choice (gathered n inclusive grown?) c) : c = never ∨ ∃ s ∈ shapes, Choice s c := by
  have drawn : Drawn shapes grown? := addMembers_drawn run
  cases grown? with
  | none =>
    obtain rfl : c = any := choice.eq nofun
    exact .inr drawn
  | some grown =>
    have origin : ∀ m ∈ grown, Choice m c → ∃ s ∈ shapes, Choice s c := by
      intro m member choice
      obtain ⟨s, listed, first⟩ := drawn m member
      exact ⟨s, listed, first.trans choice⟩
    match grown with
    | [] => exact .inl (choice.eq nofun)
    | [s] => exact .inr (origin s (mem_singleton_self s) choice)
    | s :: t :: rest =>
      cases choice with
      | self single => exact absurd rfl single
      | member member inside => exact .inr (origin _ member inside)

theorem mem_subshapes_of_gathered (run : addMembers [] shapes = .ok grown?) {m n : Nat} {i : Bool}
    (inside : union m i members ∈ (gathered n inclusive grown?).subshapes) :
    m = n ∨ ∃ s ∈ shapes, union m i members ∈ s.subshapes := by
  have drawn : Drawn shapes grown? := addMembers_drawn run
  cases grown? with
  | none => exact nomatch (mem_subshapes_iff.mp inside).resolve_right fun ⟨_, member, _⟩ => nomatch member
  | some grown =>
    have origin : ∀ t ∈ grown, union m i members ∈ t.subshapes → ∃ s ∈ shapes,
        union m i members ∈ s.subshapes := by
      intro t member deeper
      obtain ⟨s, listed, choice⟩ := drawn t member
      exact ⟨s, listed, mem_subshapes_trans choice.mem_subshapes deeper⟩
    match grown with
    | [] => exact nomatch (mem_subshapes_iff.mp inside).resolve_right fun ⟨_, member, _⟩ => nomatch member
    | [s] => exact .inr (origin s (mem_singleton_self s) inside)
    | s :: t :: rest =>
      rcases mem_subshapes_iff.mp inside with same | ⟨p, member, deeper⟩
      · exact .inl (Shape.union.inj same).1
      · exact .inr (origin p member deeper)

theorem gathered_drawn (run : addMembers [] shapes = .ok grown?) (n : Nat) (inclusive : Bool)
    (inhabits : Inhabits g (gathered n inclusive grown?) v) : SomeInhabits g shapes v := by
  obtain ⟨c, choice, inside⟩ := exists_choice_of_inhabits inhabits
  rcases exists_choice_of_gathered run choice with rfl | ⟨s, member, choice⟩
  · exact absurd inside Inhabits.not_never
  · exact ⟨s, member, choice.inhabits inside⟩

/-- Shapes that are united as they should be: equality decides a relation under which one shape
accepts what the other accepts. -/
structure Unites (P : Shape → Prop) (R : Shape → Shape → Prop) : Prop where
  any : P any
  never : P never
  members : ∀ {n inclusive members}, P (union n inclusive members) → ∀ m ∈ members, P m
  union : ∀ {n inclusive members}, (∀ m ∈ members, P m) → (members.Pairwise fun m n => ¬ R m n) →
      (∀ m ∈ members, m.kind ≠ .any) →
    P (union n inclusive members)
  decides : ∀ {a b}, P a → P b → Decides (a.equal b) (R a b)
  accepts : ∀ {a b}, P a → P b → R a b → ∀ g v, Inhabits g b v → Inhabits g a v

variable {P : Shape → Prop} {R : Shape → Shape → Prop}

theorem Unites.choice (unites : Unites P R) {s c : Shape} (own : P s) (choice : Choice s c) : P c := by
  induction choice with
  | self => exact own
  | member member _ ih => exact ih (unites.members own _ member)

theorem Unites.enlists (unites : Unites P R) {alternatives : List Shape} (kept : ∀ m ∈ members, P m)
    (each : ∀ c ∈ alternatives, P c) : ∃ grown?, enlist members alternatives = .ok grown? := by
  fun_induction enlist members alternatives with
  | case1 => exact ⟨_, rfl⟩
  | case2 => exact ⟨_, rfl⟩
  | case3 members c rest _ e failed =>
    obtain ⟨answer, tested, -⟩ :=
      Decides.anyM fun m member => unites.decides (kept m member) (each c mem_cons_self)
    cases failed.symm.trans tested
  | case4 members c rest _ _ ih => exact ih kept (forall_mem_cons.mp each).2
  | case5 members c rest _ _ ih =>
    obtain ⟨own, later⟩ := forall_mem_cons.mp each
    exact ih (forall_mem_append.mpr ⟨kept, forall_mem_singleton.mpr own⟩) later

/-- Shapes are taken together into one that leaves open, up to likeness, what they leave open. -/
theorem gathered_covers (unites : Unites P R) (inclusive : Bool) (each : ∀ s ∈ shapes, P s) :
    ∃ grown?, addMembers [] shapes = .ok grown? ∧ ∀ n, P (gathered n inclusive grown?) ∧
      ∀ s ∈ shapes, ∀ c, Choice s c → c = never ∨ gathered n inclusive grown? = any ∨
      ∃ d, Choice (gathered n inclusive grown?) d ∧ P d ∧ (d = c ∨ R d c) := by
  have alternatives : ∀ c ∈ shapes.flatMap spread, P c ∧ Choice c c := by
    intro c member
    obtain ⟨s, listed, inside⟩ := mem_flatMap.mp member
    have choice := (mem_spread_iff.mp inside).1
    exact ⟨unites.choice (each s listed) choice, .self choice.single⟩
  obtain ⟨grown?, run⟩ := unites.enlists (forall_mem_nil P) fun c member => (alternatives c member).1
  refine ⟨grown?, (addMembers_eq_enlist [] shapes).trans run, fun n => ?_⟩
  cases grown? with
  | none => exact ⟨unites.any, fun _ _ _ _ => .inr (.inl rfl)⟩
  | some grown =>
    have enlisted := enlist_some run
    have drawn : ∀ m ∈ grown, m ∈ shapes.flatMap spread :=
      fun m member => (enlisted.drawn m member).resolve_left not_mem_nil
    have inside : ∀ m ∈ grown, P m := fun m member => (alternatives m (drawn m member)).1
    have choice : ∀ m ∈ grown, Choice (gathered n inclusive (some grown)) m := by
      intro m member
      have self := (alternatives m (drawn m member)).2
      match grown with
      | [] => cases member
      | [s] => exact mem_singleton.mp member ▸ self
      | s :: t :: rest => exact .member member self
    have distinct : grown.Pairwise fun m n => ¬ R m n :=
      (enlisted.distinct .nil).imp_of_mem fun here there differ related =>
      nomatch differ.symm.trans ((unites.decides (inside _ here) (inside _ there)).eq_ok_true related)
    refine ⟨?_, fun s member c choice' => ?_⟩
    · match grown with
      | [] => exact unites.never
      | [s] => exact inside s mem_cons_self
      | s :: t :: rest =>
        exact unites.union inside distinct fun m member => enlisted.proper m (drawn m member)
    · by_cases empty : c.kind = .never
      · cases c <;> first | exact .inl rfl | cases empty
      · have listed : c ∈ shapes.flatMap spread :=
          mem_flatMap.mpr ⟨s, member, mem_spread_iff.mpr ⟨choice', empty⟩⟩
        obtain ⟨m, found, same⟩ := enlisted.covers c listed
        refine .inr (.inr ⟨m, choice m found, inside m found, same.imp_right fun equal => ?_⟩)
        exact (unites.decides (inside m found) (alternatives c listed).1).of_eq_ok_true equal

theorem gathered_unites (unites : Unites P R) (inclusive : Bool) (each : ∀ s ∈ shapes, P s) :
    ∃ grown?, addMembers [] shapes = .ok grown? ∧ ∀ n, P (gathered n inclusive grown?) ∧
      ∀ g v, Inhabits g (gathered n inclusive grown?) v ↔ SomeInhabits g shapes v := by
  obtain ⟨grown?, run, covered⟩ := gathered_covers unites inclusive each
  refine ⟨grown?, run, fun n => ?_⟩
  obtain ⟨own, covers⟩ := covered n
  refine ⟨own, fun g v => ⟨gathered_drawn run n inclusive, fun ⟨s, member, inhabits⟩ => ?_⟩⟩
  obtain ⟨c, choice, inside⟩ := exists_choice_of_inhabits inhabits
  rcases covers s member c choice with rfl | free | ⟨d, choice', own', same⟩
  · exact absurd inside Inhabits.not_never
  · exact free ▸ .any v
  · rcases same with rfl | related
    · exact choice'.inhabits inside
    · exact choice'.inhabits
        (unites.accepts own' (unites.choice (each s member) choice) related g v inside)

theorem unionOf_unites (unites : Unites P R) (inclusive : Bool) (each : ∀ s ∈ shapes, P s) :
    (unionOf inclusive shapes).Yields fun s => P s ∧ ∀ g v, Inhabits g s v ↔ SomeInhabits g shapes v := by
  obtain ⟨grown?, run, good⟩ := gathered_unites unites inclusive each
  exact (unionOf_gathered run).imp fun s ⟨n, equal⟩ => equal ▸ good n

theorem Tidy.unites (any : admitted any) (never : admitted never) : Unites (Tidy admitted) Alike where
  any := .flat rfl any
  never := .flat rfl never
  members tidy _ member := tidy.piece member
  union inside distinct _ := .union inside distinct
  decides := equal_decides
  accepts _ _ alike _ _ inhabits := alike.symm.inhabits inhabits

theorem unionOf_yields (inclusive : Bool) (tidy : ∀ s ∈ shapes, s.Tidy admitted)
    (any : admitted any) (never : admitted never) :
    (unionOf inclusive shapes).Yields fun s => s.Tidy admitted ∧ ∀ g v, Inhabits g s v ↔
      SomeInhabits g shapes v :=
  unionOf_unites (Tidy.unites any never) inclusive tidy

end Shape

end JsonShape
