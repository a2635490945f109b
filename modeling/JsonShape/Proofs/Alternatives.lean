import JsonShape.Proofs.Pieces
import JsonShape.Shape.Build

/-! How a union comes by its members. Shapes are taken apart into their alternatives, and these are
taken in one after the other. -/
namespace JsonShape
open List

theorem exists_of_anyM {α : Type} {test : α → Except Fault Bool} {items : List α}
    (found : items.anyM test = .ok true) : ∃ a ∈ items, test a = .ok true := by
  induction items with
  | nil => cases found
  | cons a rest ih =>
    rw [anyM_cons] at found
    cases tested : test a with
    | error e => exact nomatch tested ▸ found
    | ok here =>
      cases here with
      | true => exact ⟨a, mem_cons_self, tested⟩
      | false =>
        rw [tested] at found
        obtain ⟨b, member, tested⟩ := ih found
        exact ⟨b, mem_cons_of_mem _ member, tested⟩

theorem forall_of_anyM_false {α : Type} {test : α → Except Fault Bool} {items : List α}
    (none : items.anyM test = .ok false) : ∀ a ∈ items, test a = .ok false := by
  induction items with
  | nil => exact nofun
  | cons a rest ih =>
    rw [anyM_cons] at none
    cases tested : test a with
    | error e => exact nomatch tested ▸ none
    | ok here =>
      rw [tested] at none
      cases here with
      | true => cases none
      | false => exact forall_mem_cons.mpr ⟨tested, ih none⟩

namespace Shape

variable {s c : Shape}

/-- One of the alternatives that a shape leaves open. -/
inductive Choice : Shape → Shape → Prop
  | self {s : Shape} (single : s.kind ≠ .union) : Choice s s
  | member {n : Nat} {inclusive : Bool} {members : List Shape} {m c : Shape} (member : m ∈ members)
      (inside : Choice m c) :
      Choice (union n inclusive members) c

theorem Choice.single (choice : Choice s c) : c.kind ≠ .union := by
  induction choice with
  | self single => exact single
  | member _ _ ih => exact ih

theorem Choice.eq (choice : Choice s c) (single : s.kind ≠ .union) : c = s := by
  cases choice with
  | self => rfl
  | member => exact absurd rfl single

theorem Choice.trans {d : Shape} (first : Choice s c) (second : Choice c d) : Choice s d :=
  second.eq first.single ▸ first

theorem Choice.mem_subshapes (choice : Choice s c) : c ∈ s.subshapes := by
  induction choice with
  | self => exact mem_subshapes_self _
  | member member _ ih => exact mem_subshapes_iff.mpr (.inr ⟨_, member, ih⟩)

mutual
def spread : Shape → List Shape
  | never => []
  | union _ _ members => spreadAll members
  | s => [s]

def spreadAll : List Shape → List Shape
  | [] => []
  | s :: rest => s.spread ++ spreadAll rest
end

theorem spread_union (n : Nat) (inclusive : Bool) (members : List Shape) :
    (union n inclusive members).spread = members.flatMap spread := by
  have all : ∀ shapes, spreadAll shapes = shapes.flatMap spread := by
    intro shapes
    induction shapes with
    | nil => rfl
    | cons s rest ih => rw [spreadAll, ih, flatMap_cons]
  rw [spread, all]

theorem mem_spread_iff : c ∈ s.spread ↔ Choice s c ∧ c.kind ≠ .never := by
  induction s using pieces_induction with
  | step s ih =>
    cases s with
    | never => exact iff_of_false nofun fun both => both.2 (both.1.eq nofun ▸ rfl)
    | union n inclusive members =>
      rw [spread_union, mem_flatMap]
      constructor
      · rintro ⟨m, member, inside⟩
        exact ⟨.member member ((ih m member).mp inside).1, ((ih m member).mp inside).2⟩
      · rintro ⟨choice, proper⟩
        cases choice with
        | self single => exact absurd rfl single
        | member member choice => exact ⟨_, member, (ih _ member).mpr ⟨choice, proper⟩⟩
    | _ =>
      refine mem_singleton.trans ⟨?_, fun both => both.1.eq nofun⟩
      rintro rfl
      exact ⟨.self nofun, nofun⟩

/-- The members of a union with alternatives that equal none before them, unless one of these is
any. -/
def enlist (members : List Shape) : List Shape → Except Fault (Option (List Shape))
  | [] => .ok (some members)
  | c :: rest =>
    if c.kind = .any then .ok none
    else match members.anyM fun m => m.equal c with
      | .error e => .error e
      | .ok true => enlist members rest
      | .ok false => enlist (members ++ [c]) rest

theorem enlist_append (members first second : List Shape) : enlist members (first ++ second) = (do
    match ← enlist members first with
    | none => .ok none
    | some members => enlist members second) := by
  fun_induction enlist members first with
  | case1 => rfl
  | case2 members c rest free => rw [cons_append, enlist, if_pos free]; rfl
  | case3 members c rest free e failed => rw [cons_append, enlist, if_neg free, failed]; rfl
  | case4 members c rest free there ih | case5 members c rest free there ih =>
    rw [cons_append, enlist, if_neg free, there, ← ih]

theorem addMember_eq_enlist (members : List Shape) (s : Shape) :
    addMember members s = enlist members s.spread := by
  induction s using pieces_induction generalizing members with
  | step s ih =>
    have single : ∀ {t : Shape}, t.kind ≠ .any → ((members.anyM fun m => m.equal t) >>= fun there =>
        if there then .ok (some members) else .ok (some (members ++ [t]))) = enlist members [t] := by
      intro t proper
      rw [enlist, if_neg proper]
      cases members.anyM fun m => m.equal t with
      | error e => rfl
      | ok there => cases there <;> rfl
    cases s with
    | any => rfl
    | never => rfl
    | union n inclusive inner =>
      rw [addMember, spread_union]
      change ∀ m ∈ inner, _ at ih
      clear n inclusive single
      induction inner generalizing members with
      | nil => rfl
      | cons s rest again =>
        obtain ⟨here, later⟩ := forall_mem_cons.mp ih
        rw [addMembers, flatMap_cons, enlist_append, here]
        congr 1
        funext more?
        cases more? with
        | none => rfl
        | some more => exact again more later
    | _ => exact single nofun

theorem addMembers_eq_enlist (members shapes : List Shape) :
    addMembers members shapes = enlist members (shapes.flatMap spread) := by
  rw [← spread_union 0 false, ← addMember_eq_enlist, addMember]

structure Enlisted (members alternatives grown : List Shape) : Prop where
  kept : members ⊆ grown
  drawn : ∀ m ∈ grown, m ∈ members ∨ m ∈ alternatives
  proper : ∀ c ∈ alternatives, c.kind ≠ .any
  covers : ∀ c ∈ alternatives, ∃ m ∈ grown, m = c ∨ m.equal c = .ok true
  distinct : members.Pairwise (fun m n => m.equal n = .ok false) → grown.Pairwise fun m n =>
      m.equal n = .ok false

variable {members alternatives grown : List Shape}

theorem enlist_some (run : enlist members alternatives = .ok (some grown)) :
    Enlisted members alternatives grown := by
  fun_induction enlist members alternatives with
  | case1 members =>
    obtain rfl := Option.some.inj (Except.ok.inj run)
    exact ⟨fun _ => id, fun _ => .inl, nofun, nofun, id⟩
  | case2 => cases run
  | case3 => cases run
  | case4 members c rest proper found ih =>
    obtain ⟨m, member, equal⟩ := exists_of_anyM found
    have later := ih run
    refine ⟨later.kept, fun m member =>
      (later.drawn m member).imp_right (mem_cons_of_mem _), ?_, ?_, later.distinct⟩
    · exact forall_mem_cons.mpr ⟨proper, later.proper⟩
    · exact forall_mem_cons.mpr ⟨⟨m, later.kept member, .inr equal⟩, later.covers⟩
  | case5 members c rest proper new ih =>
    have later := ih run
    refine ⟨Subset.trans (subset_append_left _ _) later.kept, fun m member => ?_, ?_, ?_,
      fun distinct => later.distinct ?_⟩
    · rcases later.drawn m member with old | inside
      · exact (mem_append.mp old).imp_right fun own => mem_cons.mpr (.inl (mem_singleton.mp own))
      · exact .inr (mem_cons_of_mem _ inside)
    · exact forall_mem_cons.mpr ⟨proper, later.proper⟩
    · exact forall_mem_cons.mpr ⟨⟨c, later.kept (mem_append_right _ mem_cons_self), .inl rfl⟩,
        later.covers⟩
    · exact pairwise_append.mpr ⟨distinct, pairwise_singleton _ _,
        fun m member d own => mem_singleton.mp own ▸ forall_of_anyM_false new m member⟩

theorem enlist_none (run : enlist members alternatives = .ok none) : any ∈ alternatives := by
  fun_induction enlist members alternatives with
  | case1 => cases run
  | case2 members c rest free =>
    cases c <;> first | exact mem_cons_self | cases free
  | case3 => cases run
  | case4 _ _ _ _ _ ih | case5 _ _ _ _ _ ih => exact mem_cons_of_mem _ (ih run)

end Shape

end JsonShape
