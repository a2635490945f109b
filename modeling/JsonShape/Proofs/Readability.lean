import JsonShape.Proofs.Landing

/-! When encoding succeeds: exactly if each text that comes to stand in the place of a moment can be
read as one. -/
namespace JsonShape

open Conformance Shape List

structure Shape.Tree (s : Shape) : Prop where
  bare : ∀ id, .handle id ∉ s.subshapes
  single : ∀ n members, .intersection n members ∉ s.subshapes
  documents : ∀ n w, .literal n w ∈ s.subshapes → w.Document

namespace Shape.Tree

variable {g : Graph} {s p : Shape} {v : Value}

theorem piece (tree : s.Tree) (member : p ∈ s.pieces) : p.Tree where
  bare id inside := tree.bare id (mem_subshapes_iff.mpr (.inr ⟨p, member, inside⟩))
  single n members inside := tree.single n members (mem_subshapes_iff.mpr (.inr ⟨p, member, inside⟩))
  documents n w inside := tree.documents n w (mem_subshapes_iff.mpr (.inr ⟨p, member, inside⟩))

theorem grounded (tree : s.Tree) : g.Grounded s where
  documents n w reached := tree.documents n w (reached.mem_subshapes tree.bare)
  handles id reached := absurd (reached.mem_subshapes tree.bare) (tree.bare id)

theorem told (tree : s.Tree) : Told s v := .inr tree.bare

theorem leaves (tree : s.Tree) : s.Leaves True fun _ => False :=
  ⟨fun n w inside _ => tree.documents n w inside, tree.bare⟩

theorem takes (tree : s.Tree) (inhabits : Inhabits g s v) : g.Takes looseLeaf s v := by
  induction s using pieces_induction generalizing v with
  | step s ih =>
    have inner : ∀ p ∈ s.pieces, ∀ {x : Value}, Inhabits g p x → g.Takes looseLeaf p x :=
      fun p member _ => ih p member (tree.piece member)
    cases s with
    | array n items =>
      obtain ⟨vs, listed, each⟩ := Inhabits.array_iff.mp inhabits
      exact Graph.Takes.array_iff.mpr ⟨vs, listed, fun x member =>
        inner items mem_cons_self (each x member)⟩
    | object n props extra? =>
      obtain ⟨es, keyed, present, declared, undeclared⟩ := Inhabits.object_iff.mp inhabits
      refine Graph.Takes.object_iff.mpr ⟨es, keyed, present, fun q member x found => ?_,
        fun extra known e member free => ?_⟩
      · exact inner q.shape (mem_pieces_of_mem_props member) (declared q member x found)
      · subst known
        exact inner extra mem_pieces_of_extra (undeclared extra rfl e member free)
    | union n inclusive members =>
      obtain ⟨m, member, inside⟩ := Inhabits.union_iff.mp inhabits
      exact .union looseLeaf_loosens tree.leaves (fun n ms inside =>
        absurd inside (tree.single n ms)) member (inner m member inside)
    | intersection n members => exact absurd (mem_subshapes_self _) (tree.single n members)
    | handle id => exact absurd (mem_subshapes_self _) (tree.bare id)
    | dateTime n format =>
      have fits := (Inhabits.flat_iff rfl (by simp)).mp inhabits
      exact Inhabits.union mem_cons_self (.flat fits)
    | binary => exact Inhabits.union mem_cons_self (inhabits.of_flat rfl)
    | literal n w => exact Inhabits.literal_iff.mpr (Inhabits.literal_iff.mp inhabits)
    | _ => exact inhabits.of_flat rfl

end Shape.Tree

namespace Wire

variable {g : Graph} {s : Shape} {v : Value}

def Fits (g : Graph) (s : Shape) (v : Value) : Prop :=
  ∃ weak g', (Graph.weak s).run g = .ok (weak, g') ∧ conforms g' weak v = .ok true

theorem fits_iff (tree : s.Tree) : Fits g s v ↔ g.Takes looseLeaf s v := by
  obtain ⟨t, g', run, decides⟩ :=
    Graph.mapLeaves_decides Graph.weakLeaf_draws looseLeaf_loosens (g := g) tree.grounded
    (tree.told (v := v))
  constructor
  · rintro ⟨weak, g₁, projected, fits⟩
    obtain ⟨rfl, rfl⟩ := Prod.mk.inj (Except.ok.inj (run.symm.trans projected))
    exact decides.of_eq_ok_true fits
  · exact fun takes => ⟨t, g', run, decides.eq_ok_true takes⟩

/-- Each text in the place of a moment can be read. A union stands for the first of its members
whose weak projection accepts the value. -/
inductive Readable (g : Graph) : Shape → Value → Prop
  | inert {s : Shape} {v : Value} (inert : isInert s = true) : Readable g s v
  | moment {n : Nat} {format : String} {t : Time.Moment} : Readable g (.dateTime n format) (.time t)
  | text {n : Nat} {format text : String} {w : Value}
      (read : (if format == "date" then Leaf.day else .moment).decode text = .ok w) :
    Readable g (.dateTime n format) (.string text)
  | binary {v : Value} : Readable g .binary v
  | array {n : Nat} {items : Shape} {vs : List Value} (each : ∀ x ∈ vs, Readable g items x) :
      Readable g (.array n items) (.seq .values vs)
  | object {n : Nat} {props : List (Property Shape)} {extra? : Option Shape} {es : List (String × Value)}
    (each : ∀ e ∈ es, ∀ s, entryShape? props extra? e.1 = some s → Readable g s e.2) :
    Readable g (.object n props extra?) (.map .values es)
  | union {n : Nat} {inclusive : Bool} {before after : List Shape} {m : Shape} {v : Value}
      (passed : ∀ b ∈ before, ¬ Fits g b v)
    (fits : Fits g m v) (inside : Readable g m v) :
    Readable g (.union n inclusive (before ++ m :: after)) v

theorem settleLeaf_yields_iff {p : Path} {result : Except Issue Value} {w : Value} :
    Yields (settleLeaf p result) w ↔ result = .ok w := by
  cases result with
  | error issue => exact iff_of_false (fun yields => nomatch yields []) nofun
  | ok v => exact ⟨fun yields => congrArg _ yields.eq_of_pure, fun equal => Except.ok.inj equal ▸ .pure _⟩

theorem convertTime_readable {n : Nat} {format : String} {p : Path} (rich : v.Rich)
    (takes : g.Takes looseLeaf (.dateTime n format) v) :
    (∃ w, Yields (convertTime .encode format v p) w) ↔ Readable g (.dateTime n format) v := by
  rcases takes_rich rfl rich takes with fits | ⟨text, rfl⟩
  · cases rich with
    | time fine => exact iff_of_true ⟨_, .pure _⟩ .moment
    | _ => exact absurd fits Bool.false_ne_true
  · have shown : convertTime .encode format (.string text) p =
        settleLeaf p ((if format == "date" then Leaf.day else .moment).decode text) >>= fun _ =>
        return .string text := rfl
    rw [shown, exists_yields_map (settleLeaf_appends _ _) fun _ => Value.string text]
    simp only [settleLeaf_yields_iff]
    constructor
    · rintro ⟨w, read⟩
      exact .text read
    · intro readable
      cases readable with
      | inert inert => cases inert
      | text read => exact ⟨_, read⟩

theorem convertBytes_yields {p : Path} (rich : v.Rich) (takes : g.Takes looseLeaf .binary v) :
    ∃ w, Yields (convertBytes .encode v p) w := by
  rcases takes_rich rfl rich takes with fits | ⟨text, rfl⟩
  · cases rich with
    | bytes bs => exact ⟨_, .pure _⟩
    | _ => exact absurd fits Bool.false_ne_true
  · exact ⟨_, .pure _⟩

theorem find?_takes {members : List Shape} {m : Shape}
    [DecidablePred fun m => g.Takes looseLeaf m v] (each : ∀ m ∈ members, m.Tree)
    (chosen : members.find? (fun m => decide (g.Takes looseLeaf m v)) = some m) :
    ∃ before after, members = before ++ m :: after ∧ (∀ b ∈ before, ¬ Fits g b v) ∧ Fits g m v := by
  obtain ⟨takes, before, after, rfl, passed⟩ := find?_eq_some_iff_append.mp chosen
  refine ⟨before, after, rfl, fun b member => ?_, (fits_iff (each m (by simp))).mpr (by simpa using takes)⟩
  rw [fits_iff (each b (by simp [member]))]
  simpa using passed b member

theorem convert_readable {budget : Nat} {opened : Opened} {p : Path} (tree : s.Tree) (rich : v.Rich)
    (takes : g.Takes looseLeaf s v) (enough : s.size ≤ budget) :
    (∃ w, Yields (convert g .encode budget opened s v p) w) ↔ Readable g s v := by
  induction s using pieces_induction generalizing budget v p with
  | step s ih =>
    obtain ⟨budget, rfl⟩ : ∃ k, budget = k + 1 :=
      Nat.exists_eq_succ_of_ne_zero (by have := s.size_pos; omega)
    have inner : ∀ q ∈ s.pieces, ∀ {x : Value} {p : Path}, x.Rich → g.Takes looseLeaf q x →
        ((∃ w, Yields (convert g .encode budget opened q x p) w) ↔ Readable g q x) := by
      intro q member x p rich takes
      have smaller := size_lt_of_mem_pieces member
      exact ih q member (tree.piece member) rich takes (by omega)
    cases s with
    | array n items =>
      obtain ⟨vs, listed, each⟩ := Graph.Takes.array_iff.mp takes
      rw [rich.settle_eq] at listed
      obtain ⟨rfl, inside⟩ := rich.of_items listed
      have items' : ∀ x ∈ vs, ∀ p, (∃ w, Yields (convert g .encode budget opened items x p) w) ↔
          Readable g items x :=
        fun x member p => inner items mem_cons_self (inside x member) (each x member)
      rw [convert_array rfl, exists_yields_map (.mapM fun _ _ => convert_appends),
        exists_yields_mapM fun _ _ => convert_appends]
      constructor
      · intro converted
        refine .array fun x member => ?_
        obtain ⟨i, here⟩ := getElem?_of_mem member
        have listed : (x, i) ∈ vs.zipIdx :=
          mem_of_getElem? (show vs.zipIdx[i]? = some (x, i) by simp [getElem?_zipIdx, here])
        exact (items' x member _).mp (converted (x, i) listed)
      · intro readable e member
        have member := fst_mem_of_mem_zipIdx member
        cases readable with
        | inert inert => cases inert
        | array each => exact (items' e.1 member _).mpr (each e.1 member)
    | object n props extra? =>
      obtain ⟨es, keyed, -⟩ := Graph.Takes.object_iff.mp takes
      rw [rich.settle_eq] at keyed
      obtain ⟨rfl, ascending, inside⟩ := rich.of_entries keyed
      have entries : ∀ e ∈ es, (∃ f, Yields (convertEntry g .encode budget opened props extra? p e) f) ↔
          ∀ q, entryShape? props extra? e.1 = some q → Readable g q e.2 := by
        intro e member
        rw [convertEntry]
        cases asked : entryShape? props extra? e.1 with
        | none => exact iff_of_true ⟨e, .pure e⟩ (by rintro _ ⟨⟩)
        | some q =>
          have piece : q ∈ (Shape.object n props extra?).pieces := entryShape?_mem_pieces asked
          simp only [exists_yields_map convert_appends, Option.some.injEq, forall_eq']
          exact inner q piece (inside e member) (takes.entry ascending member asked)
      rw [convert_object rfl, exists_yields_map (.mapM fun _ _ => convertEntry_appends convert_appends),
        exists_yields_mapM fun _ _ => convertEntry_appends convert_appends, forall₂_congr entries]
      constructor
      · exact .object
      · intro readable
        cases readable with
        | inert inert => cases inert
        | object each => exact each
    | union n inclusive members =>
      classical
      have fits := firstFit?_eq (g := g) fun m (member : m ∈ members) =>
          ⟨(tree.piece member).grounded, (tree.piece member).told (v := v)⟩
      obtain ⟨m', member', takes'⟩ := takes.of_union
      rw [convert, fits]
      cases chosen : members.find? fun m => decide (g.Takes looseLeaf m v) with
      | none => exact absurd takes' (by simpa using find?_eq_none.mp chosen m' member')
      | some m =>
        have member := mem_of_find?_eq_some chosen
        have readable_iff := inner m member (p := p) rich (by simpa using find?_some chosen)
        refine readable_iff.trans ⟨fun readable => ?_, fun readable => ?_⟩
        · obtain ⟨before, after, rfl, passed, fits⟩ :=
            find?_takes (fun m member => tree.piece member) chosen
          exact .union passed fits readable
        · cases readable with
          | inert inert => cases inert
          | @union _ _ before after own _ passed fits inside =>
            have trees : ∀ m ∈ before ++ own :: after, m.Tree := fun m member => tree.piece member
            have first : (before ++ own :: after).find? (fun m => decide (g.Takes looseLeaf m v))
                = some own := by
              refine find?_eq_some_iff_append.mpr ⟨?_, before, after, rfl, fun b member => ?_⟩
              · simpa using (fits_iff (trees own (by simp))).mp fits
              · have refused := passed b member
                rw [fits_iff (trees b (by simp [member]))] at refused
                simpa using refused
            obtain rfl := Option.some.inj (chosen.symm.trans first)
            exact inside
    | intersection n members => exact absurd (mem_subshapes_self _) (tree.single n members)
    | handle id => exact absurd (mem_subshapes_self _) (tree.bare id)
    | dateTime n format => exact convertTime_readable rich takes
    | binary => exact iff_of_true (convertBytes_yields rich takes) .binary
    | _ => exact iff_of_true ⟨v, .pure v⟩ (.inert rfl)

/-- A value that conforms to a tree is encoded without issues exactly if it is readable. -/
theorem encode_eq_ok_iff (g : Graph) (s : Shape) (v : Value) (tree : s.Tree) (rich : v.Rich)
    (conforms : conforms g s v = .ok true) :
    (∃ w, encode g s v = .ok (.ok w)) ↔ Readable g s v := by
  have inhabits : Inhabits g s v :=
    (conforms_decides_told g tree.grounded.documents tree.told).of_eq_ok_true conforms
  have enough : s.size ≤ checkBudget g s v :=
    (Nat.le_add_left _ _).trans (affords_checkBudget g s v : toGo _ _ _ _ _ ≤ _)
  simp only [encode, run_eq_ok_iff]
  exact convert_readable tree rich (tree.takes inhabits) enough

def mail : Shape :=
  .array 0 (.union 1 true [.object 2 [⟨"at", .dateTime 3 "date-time", false, none⟩] none,
    .dateTime 4 "date", .string])

def letters : Value :=
  .seq .values [.map .values [("at", .time mayNoon)], .time mayNoon, .string "2024-05-01"]

theorem letters_encoded :
    conforms {} mail letters = .ok true ∧
      encode {} mail letters =
      .ok (.ok (.seq .values [.map .values [("at", .string "2024-05-01T12:00:00Z")],
      .string "2024-05-01", .string "2024-05-01"])) ∧ Readable {} mail letters := by
  have tree : mail.Tree := by
    constructor <;> simp [mail, subshapes_eq, pieces]
  have fine : mayNoon.nano < 10 ^ 9 := by decide
  have rich : letters.Rich := by
    refine .seq ?_
    simp only [forall_mem_cons]
    refine ⟨.map (by unfold Entries.Ascending; decide) ?_, .time fine, .string _, (by rintro _ ⟨⟩)⟩
    simp only [forall_mem_cons]
    exact ⟨.time fine, (by rintro _ ⟨⟩)⟩
  have passes : conforms {} mail letters = .ok true := by cbv
  have encoded : encode {} mail letters =
      .ok (.ok (.seq .values [.map .values [("at", .string "2024-05-01T12:00:00Z")],
      .string "2024-05-01", .string "2024-05-01"])) := by cbv
  exact ⟨passes, encoded, (encode_eq_ok_iff {} mail letters tree rich passes).mp ⟨_, encoded⟩⟩

/-- A text that is no moment is taken for one, although the union has a member for it. -/
theorem greeting_not_encoded :
    conforms {} (.union 0 true [.dateTime 1 "date-time", .string]) (.string "hello") = .ok true ∧
      encode {} (.union 0 true [.dateTime 1 "date-time", .string]) (.string "hello") =
      .ok (.error [{ invalid "invalid RFC3339 time" "date-time" with path := "/" }]) := by
  constructor <;> cbv

end Wire

end JsonShape
