import JsonShape.Proofs.Renaming
import JsonShape.Proofs.Union

/-! Structural equality of shapes does not depend on serial numbers, nor on how handles are
numbered; and where no two members of a union or an intersection are equal, it is an equivalence. -/
namespace JsonShape.Shape
open List

variable {R : Shape → Shape → Prop} {live live' live'' : Nat → Prop} {a b c : Shape}

theorem not_matches_of_kind_ne (differ : a.kind ≠ b.kind) : ¬ Matches a b :=
  fun same => nomatch (equal_of_kind_ne differ).symm.trans same

theorem Matches.trans (left : a.Leaves True live) (middle : b.Leaves True live')
    (right : c.Leaves True live'') (first : Matches a b) (second : Matches b c) : Matches a c := by
  induction a using pieces_induction generalizing b c with
  | step a ih =>
    refine (matches_iff left right).mpr
      (((matches_iff left middle).mp first).trans ((matches_iff middle right).mp second) ?_)
    exact fun s member t member' u member'' =>
      ih s member (left.piece member) (middle.piece member') (right.piece member'')

variable {onSerial onHandle : Nat → Nat}

theorem lifts_rename {R : Shape → Shape → Prop}
    (apart : ∀ i j, live i → live j → onHandle i = onHandle j → i = j) (left : a.Leaves True live)
    (right : b.Leaves True live) :
    Lifts R (a.rename onSerial onHandle) (b.rename onSerial onHandle) ↔
      Lifts (fun s t => R (s.rename onSerial onHandle) (t.rename onSerial onHandle)) a b := by
  by_cases kinds : a.kind = b.kind
  swap
  · refine iff_of_false (fun lifts => kinds ?_) fun lifts => kinds lifts.kind_eq
    simpa only [kind_rename] using lifts.kind_eq
  have members : ∀ {ss ts : List Shape},
      ((ss.map (rename onSerial onHandle)).length = (ts.map (rename onSerial onHandle)).length ∧
      ∀ s ∈ ss.map (rename onSerial onHandle), ∃ t ∈ ts.map (rename onSerial onHandle), R s t) ↔
      ss.length = ts.length ∧ ∀ s ∈ ss, ∃ t ∈ ts, R (s.rename onSerial onHandle)
      (t.rename onSerial onHandle) := by
    intro ss ts
    simp
  cases a with
  | object m ps e =>
    cases b <;> cases kinds
    rename_i n qs f
    rw [rename_object, rename_object]
    refine and_congr (by simp) (and_congr ?_ ?_)
    · simp only [Option.map_eq_some_iff]
      exact ⟨fun each s t here there => each _ _ ⟨s, here, rfl⟩ ⟨t, there, rfl⟩,
        fun each s t ⟨s', here, hs⟩ ⟨t', there, ht⟩ => hs ▸ ht ▸ each s' t' here there⟩
    · simp only [getElem?_map, Option.map_eq_some_iff]
      exact ⟨fun each i p q here there => each i _ _ ⟨p, here, rfl⟩ ⟨q, there, rfl⟩,
        fun each i p q ⟨p', here, hp⟩ ⟨q', there, hq⟩ => hp ▸ hq ▸ each i p' q' here there⟩
  | union m i ss =>
    cases b <;> cases kinds
    rw [rename_union, rename_union]
    exact members
  | intersection m ss =>
    cases b <;> cases kinds
    rw [rename_intersection, rename_intersection]
    exact members
  | handle i =>
    cases b <;> cases kinds
    exact ⟨apart _ _ left.of_handle right.of_handle, fun equal => congrArg onHandle equal⟩
  | _ =>
    cases b <;> cases kinds
    exact Iff.rfl

theorem matches_rename (apart : ∀ i j, live i → live j → onHandle i = onHandle j → i = j)
    (left : a.Leaves True live) (right : b.Leaves True live) :
    Matches (a.rename onSerial onHandle) (b.rename onSerial onHandle) ↔ Matches a b := by
  have moved : ∀ {s : Shape}, s.Leaves True live → (s.rename onSerial onHandle).Leaves True fun _ =>
      True :=
    fun leaves => leaves_rename leaves fun _ _ => trivial
  induction a using pieces_induction generalizing b with
  | step a ih =>
    rw [matches_iff (moved left) (moved right), lifts_rename apart left right, matches_iff left right]
    have parts : ∀ s ∈ a.pieces, ∀ t ∈ b.pieces,
        (Matches (s.rename onSerial onHandle) (t.rename onSerial onHandle) ↔ Matches s t) :=
      fun s member t member' => ih s member (left.piece member) (right.piece member')
    exact ⟨fun lifts => lifts.imp fun s member t member' => (parts s member t member').mp,
      fun lifts => lifts.imp fun s member t member' => (parts s member t member').mpr⟩

theorem invariant_rename (apart : ∀ i j, live i → live j → onHandle i = onHandle j → i = j) :
    Invariant onSerial onHandle fun s => s.Leaves True live where
  members leaves m member := leaves.piece member
  equal {a b} left right := by
    have moved : ∀ {s : Shape}, s.Leaves True live →
        (s.rename onSerial onHandle).Leaves True fun _ => True :=
      fun leaves => leaves_rename leaves fun _ _ => trivial
    by_cases same : Matches a b
    · rw [same]
      exact (matches_rename apart left right).mpr same
    · rw [(equal_decides_matches left right).eq_ok_false same]
      exact (equal_decides_matches (moved left) (moved right)).eq_ok_false fun renamed =>
        same ((matches_rename apart left right).mp renamed)

variable {ss ts : List Shape}

def memberships : Shape → List Shape
  | union _ _ members | intersection _ members => members
  | _ => []

/-- No two members of a union or an intersection in the shape are equal. -/
def Neat (s : Shape) : Prop := ∀ t ∈ s.subshapes, t.memberships.Pairwise fun m n => ¬ Matches m n

theorem Neat.piece (neat : a.Neat) (member : b ∈ a.pieces) : b.Neat :=
  fun t inside => neat t (mem_subshapes_iff.mpr (.inr ⟨b, member, inside⟩))

theorem neat_of_pieces (own : a.memberships.Pairwise fun m n => ¬ Matches m n)
    (each : ∀ p ∈ a.pieces, p.Neat) : a.Neat := by
  intro t inside
  rcases mem_subshapes_iff.mp inside with rfl | ⟨p, member, deeper⟩
  · exact own
  · exact each p member t deeper

theorem Lifts.flip {S : Shape → Shape → Prop} (lifts : Lifts R a b)
    (back : ∀ s ∈ a.pieces, ∀ t ∈ b.pieces, R s t → S t s)
    (onto : ∀ t ∈ b.memberships, ∃ s ∈ a.memberships, R s t) : Lifts S b a := by
  have kinds := lifts.kind_eq
  have members : ∀ {ss ts : List Shape}, (∀ s ∈ ss, ∀ t ∈ ts, R s t → S t s) →
      (∀ t ∈ ts, ∃ s ∈ ss, R s t) →
      ss.length = ts.length → ts.length = ss.length ∧ ∀ t ∈ ts, ∃ s ∈ ss, S t s := by
    intro ss ts back onto length
    refine ⟨length.symm, fun t member => ?_⟩
    obtain ⟨s, inside, related⟩ := onto t member
    exact ⟨s, inside, back s inside t member related⟩
  cases a with
  | array m s =>
    cases b <;> cases kinds
    exact back s mem_cons_self _ mem_cons_self lifts
  | object m ps e =>
    cases b <;> cases kinds
    obtain ⟨sizes, extra, props⟩ := lifts
    refine ⟨⟨sizes.1.symm, sizes.2.symm⟩, ?_, fun i q p there here => ?_⟩
    · rintro t s rfl rfl
      exact back s mem_pieces_of_extra t mem_pieces_of_extra (extra s t rfl rfl)
    · obtain ⟨⟨name, optional⟩, related⟩ := props i p q here there
      exact ⟨⟨name.symm, optional.symm⟩, back _ (mem_pieces_of_mem_props (mem_of_getElem? here)) _
        (mem_pieces_of_mem_props (mem_of_getElem? there)) related⟩
  | union m i ss =>
    cases b <;> cases kinds
    exact members back onto lifts.1
  | intersection m ss =>
    cases b <;> cases kinds
    exact members back onto lifts.1
  | number | dateTime | literal | handle =>
    cases b <;> cases kinds
    exact Eq.symm lifts
  | _ =>
    cases b <;> cases kinds
    trivial

theorem memberships_subset (s : Shape) : s.memberships ⊆ s.pieces := by
  cases s <;> simp [memberships, pieces]

theorem Lifts.onto (left : a.Leaves True live) (right : b.Leaves True live') (neat : a.Neat)
    (lifts : Lifts Matches a b) (symm : ∀ s ∈ a.pieces, ∀ t ∈ b.pieces, Matches s t → Matches t s) :
    ∀ t ∈ b.memberships, ∃ s ∈ a.memberships, Matches s t := by
  have contained : a.memberships.length = b.memberships.length ∧ ∀ s ∈ a.memberships,
      ∃ t ∈ b.memberships, Matches s t := by
    have kinds := lifts.kind_eq
    cases a with
    | union | intersection =>
      cases b <;> cases kinds
      exact lifts
    | _ =>
      cases b <;> cases kinds
      exact ⟨rfl, nofun⟩
  refine exists_related contained.1 contained.2 ((neat a a.mem_subshapes_self).imp_of_mem ?_)
  intro s s' member member' differ t inside one two
  have here := a.memberships_subset member
  have here' := a.memberships_subset member'
  have there := b.memberships_subset inside
  exact differ (one.trans (left.piece here) (right.piece there) (left.piece here')
    (symm s' here' t there two))

theorem Matches.symm (left : a.Leaves True live) (right : b.Leaves True live') (neat : a.Neat)
    (same : Matches a b) : Matches b a := by
  induction a using pieces_induction generalizing b with
  | step a ih =>
    have lifts := (matches_iff left right).mp same
    have back : ∀ s ∈ a.pieces, ∀ t ∈ b.pieces, Matches s t → Matches t s :=
      fun s member t member' => ih s member (left.piece member) (right.piece member') (neat.piece member)
    exact (matches_iff right left).mpr (lifts.flip back (lifts.onto left right neat back))

theorem Matches.inhabits (left : a.Leaves True live) (right : b.Leaves True live') (neat : a.Neat)
    (same : Matches a b) {g : Graph} {v : Value} (inhabits : Inhabits g a v) : Inhabits g b v := by
  induction a using pieces_induction generalizing b v with
  | step a ih =>
    have lifts := (matches_iff left right).mp same
    have kinds := lifts.kind_eq
    have inner : ∀ s ∈ a.pieces, ∀ t ∈ b.pieces, Matches s t → ∀ {v}, Inhabits g s v → Inhabits g t v :=
      fun s member t member' same => ih s member (left.piece member) (right.piece member')
        (neat.piece member) same
    have onto := lifts.onto left right neat fun s member t member' =>
      Matches.symm (left.piece member) (right.piece member') (neat.piece member)
    cases a with
    | array m s =>
      cases b <;> cases kinds
      obtain ⟨vs, listed, each⟩ := Inhabits.array_iff.mp inhabits
      exact .array listed fun x member => inner s mem_cons_self _ mem_cons_self lifts (each x member)
    | object m ps e =>
      cases b <;> cases kinds
      obtain ⟨sizes, extra, props⟩ := lifts
      refine inhabits.object_of_parts sizes.1 (fun i p q here there => (props i p q here there).1)
        sizes.2 ?_ ?_
      · intro i p q here there x
        exact inner _ (mem_pieces_of_mem_props (mem_of_getElem? here)) _
          (mem_pieces_of_mem_props (mem_of_getElem? there))
          (props i p q here there).2
      · rintro s t rfl rfl x
        exact inner s mem_pieces_of_extra t mem_pieces_of_extra (extra s t rfl rfl)
    | union m i ss =>
      cases b <;> cases kinds
      obtain ⟨s, member, inside⟩ := Inhabits.union_iff.mp inhabits
      obtain ⟨t, member', same⟩ := lifts.2 s member
      exact .union member' (inner s member t member' same inside)
    | intersection m ss =>
      cases b <;> cases kinds
      refine .intersection fun t member' => ?_
      obtain ⟨s, member, same⟩ := onto t member'
      exact inner s member t member' same (Inhabits.intersection_iff.mp inhabits s member)
    | literal m w =>
      cases b <;> cases kinds
      exact (Alike.literal (left.of_literal trivial) (right.of_literal trivial) lifts).inhabits inhabits
    | dateTime m f =>
      cases b <;> cases kinds
      rw [Inhabits.flat_iff rfl (by simp)] at inhabits ⊢
      exact inhabits
    | number | handle =>
      cases b <;> cases kinds
      obtain rfl := lifts
      exact inhabits
    | _ =>
      cases b <;> cases kinds
      exact inhabits

theorem neat_unites (live : Nat → Prop) : Unites (fun s => s.Leaves True live ∧ s.Neat) Matches where
  any := ⟨leaves_flat rfl nofun nofun, neat_of_pieces .nil nofun⟩
  never := ⟨leaves_flat rfl nofun nofun, neat_of_pieces .nil nofun⟩
  members own _ member := ⟨own.1.piece member, own.2.piece member⟩
  union inside distinct _ :=
    ⟨leaves_of_pieces nofun nofun fun m member =>
      (inside m member).1, neat_of_pieces distinct fun m member => (inside m member).2⟩
  decides left right := equal_decides_matches left.1 right.1
  accepts left right same _ _ inhabits :=
    (same.symm left.1 right.1 left.2).inhabits right.1 left.1 right.2 inhabits

end JsonShape.Shape
