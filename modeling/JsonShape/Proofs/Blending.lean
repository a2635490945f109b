import JsonShape.Proofs.Agreement

/-! Meets and joint acceptance. The meet of two shapes in normal form stands for both of them beside
any other shapes. -/
namespace JsonShape.Shape
open List Entries

variable {g : Graph} {lo : Nat}

def Stems (lo : Nat) (a b s : Shape) : Prop := ∀ (n : Nat) (inclusive : Bool) (members : List Shape),
  union n inclusive members ∈ s.subshapes → union n inclusive members ∈ a.subshapes ∨
  union n inclusive members ∈ b.subshapes ∨ lo ≤ n

/-- A shape in normal form that stands for two others. -/
structure Blend (g : Graph) (lo : Nat) (a b s : Shape) : Prop where
  normal : s.Normal
  top : s = any → a = any ∧ b = any
  stems : Stems lo a b s
  sound : ∀ us v, Joint g False (s :: us) v → Joint g False (a :: b :: us) v
  complete : ∀ us v, v.Coarse ∨ Unshared a b → Joint g True (a :: b :: us) v → Joint g True (s :: us) v

def Blends (g : Graph) (lo : Nat) (a b s : Shape) : Prop := a.Normal → b.Normal → Blend g lo a b s

variable {agree : Prop} {a b s t : Shape} {us : List Shape} {v : Value}

theorem Stems.mono {a' b' : Shape} (stems : Stems lo a b s) (left : a ∈ a'.subshapes)
    (right : b ∈ b'.subshapes) : Stems lo a' b' s := by
  intro n inclusive members inside
  rcases stems n inclusive members inside with here | there | new
  · exact .inl (mem_subshapes_trans left here)
  · exact .inr (.inl (mem_subshapes_trans right there))
  · exact .inr (.inr new)

theorem Stems.symm (stems : Stems lo a b s) : Stems lo b a s := fun n inclusive members inside => by
  rcases stems n inclusive members inside with here | there | new
  · exact .inr (.inl here)
  · exact .inl there
  · exact .inr (.inr new)

theorem stems_of_pieces (single : s.kind ≠ .union) (each : ∀ p ∈ s.pieces, Stems lo a b p) :
    Stems lo a b s := by
  intro n inclusive members inside
  rcases mem_subshapes_iff.mp inside with rfl | ⟨p, member, deeper⟩
  · exact absurd rfl single
  · exact each p member n inclusive members deeper

theorem Joint.swap (joint : Joint g agree (a :: b :: us) v) : Joint g agree (b :: a :: us) v :=
  joint.carry (carries_perm g) (.swap b a us)

theorem Blend.symm (blend : Blend g lo a b s) : Blend g lo b a s where
  normal := blend.normal
  top free := (blend.top free).symm
  stems := blend.stems.symm
  sound us v joint := (blend.sound us v joint).swap
  complete us v way joint := blend.complete us v (way.imp_right Unshared.symm) joint.swap

theorem Blends.symm (blends : Blends g lo a b s) : Blends g lo b a s :=
  fun left right => (blends right left).symm

theorem Joint.alternatives {ts : List Shape} (joint : Joint g agree ts v) :
    ∃ cs, Forall₂ Choice ts cs ∧ ((∀ c ∈ cs, c.isFlat = true ∨ c.kind = .literal) ∨
      (∀ c ∈ cs, c = any ∨ c.kind = .array) ∨ ∀ c ∈ cs, c = any ∨ c.kind = .object) := by
  cases joint with
  | leaves chosen fit => exact ⟨_, chosen, .inl fit.single⟩
  | lists chosen single => exact ⟨_, chosen, .inr (.inl single)⟩
  | objects chosen single => exact ⟨_, chosen, .inr (.inr single)⟩

theorem Joint.pair (joint : Joint g agree (a :: b :: us) v) (left : a.kind ≠ .union ∧ a.kind ≠ .any)
    (right : b.kind ≠ .union ∧ b.kind ≠ .any) :
    (a.isFlat = true ∨ a.kind = .literal) ∧ (b.isFlat = true ∨ b.kind = .literal) ∨
      a.kind = .array ∧ b.kind = .array ∨ a.kind = .object ∧ b.kind = .object := by
  obtain ⟨cs, chosen, kinds⟩ := joint.alternatives
  obtain ⟨_, rfl, chosen'⟩ := exists_of_chosen left.1 chosen
  obtain ⟨_, rfl, -⟩ := exists_of_chosen right.1 chosen'
  have some : ∀ {s : Shape}, s.kind ≠ .any → s ≠ any := fun proper equal => proper (equal ▸ rfl)
  refine kinds.imp (fun each => ⟨each a (by simp), each b (by simp)⟩) (Or.imp ?_ ?_)
  all_goals exact fun each =>
    ⟨(each a (by simp)).resolve_left (some left.2), (each b (by simp)).resolve_left (some right.2)⟩

theorem Joint.of_leaf (leaf : a.isFlat = true ∨ a.kind = .literal) (proper : a.kind ≠ .any)
    (joint : Joint g agree (a :: us) v) : ∃ cs, Forall₂ Choice us cs ∧ Fit g agree (a :: cs) v := by
  have single : a.kind ≠ .union := fun union => by
    cases a <;> cases union
    rcases leaf with flat | kind
    · cases flat
    · cases kind
  have other : ∀ kind, (kind = .array ∨ kind = .object) → ¬ (a = any ∨ a.kind = kind) := by
    rintro kind container (rfl | rfl)
    · exact proper rfl
    · cases a <;> simp [Shape.kind, isFlat] at container leaf
  cases joint with
  | leaves chosen fit =>
    obtain ⟨rest, rfl, chosen'⟩ := exists_of_chosen single chosen
    exact ⟨rest, chosen', fit⟩
  | lists chosen each =>
    obtain ⟨rest, rfl, -⟩ := exists_of_chosen single chosen
    exact absurd (each a mem_cons_self) (other _ (.inl rfl))
  | objects chosen each =>
    obtain ⟨rest, rfl, -⟩ := exists_of_chosen single chosen
    exact absurd (each a mem_cons_self) (other _ (.inr rfl))

theorem not_joint_never : ¬ Joint g agree (never :: us) v := by
  intro joint
  obtain ⟨cs, -, fit⟩ := joint.of_leaf (a := never) (.inl rfl) nofun
  rcases fit.fits never mem_cons_self with inhabits | ⟨text, -⟩
  · exact Inhabits.not_never inhabits
  · cases text

theorem Blend.never (disjoint : ∀ us v, v.Coarse ∨ Unshared a b → ¬ Joint g True (a :: b :: us) v) :
    Blend g lo a b never where
  normal := .flat rfl
  top := nofun
  stems := stems_of_pieces (s := Shape.never) nofun fun _ member => nomatch member
  sound _ _ joint := absurd joint not_joint_never
  complete us v way joint := absurd joint (disjoint us v way)

theorem blend_self (normal : a.Normal) : Blend g lo a a a where
  normal := normal
  top free := ⟨free, free⟩
  stems _ _ _ := .inl
  sound us v joint := joint.carry (carries_repeats g)
      ⟨[a], rfl, forall_mem_singleton.mpr (.inr mem_cons_self)⟩
  complete us v way joint := by
    refine joint.carry (carries_drops g) ⟨[a], rfl, way.imp_right fun unshared => ?_⟩
    exact forall_mem_singleton.mpr (.inr ⟨unshared, mem_cons_self⟩)

theorem blend_any (normal : b.Normal) : Blend g lo any b b where
  normal := normal
  top free := ⟨rfl, free⟩
  stems _ _ _ inside := .inr (.inl inside)
  sound _ _ joint := joint.carry (carries_repeats g) ⟨[any], rfl, forall_mem_singleton.mpr (.inl rfl)⟩
  complete _ _ _ joint :=
    joint.carry (carries_drops g) ⟨[any], rfl, .inr (forall_mem_singleton.mpr (.inl coarse_any))⟩

variable {x : Shape} {cs : List Shape} {n : Nat} {w : Value}

theorem single_of_leaf (leaf : s.isFlat = true ∨ s.kind = .literal) : s.kind ≠ .union := by
  cases s <;> simp [kind, isFlat] at leaf ⊢

theorem isRich_eq_of_kind (kinds : a.kind = b.kind) : a.isRich = b.isRich := by
  have rank : ∀ s : Shape, s.isRich = (s.kind == .dateTime || s.kind == .binary) :=
    fun s => by cases s <;> rfl
  rw [rank, rank, kinds]

theorem isText_eq_of_flat (flat : s.isFlat = true) : s.isText = (s.kind == .string) := by
  cases s <;> first | rfl | cases flat

/-- A leaf that stands for itself and another one: it is the more special one, or a text gives way
to it. -/
structure Absorbs (g : Graph) (s x : Shape) : Prop where
  leaf : x.isFlat = true ∨ x.kind = .literal
  takes : ((∀ v, Inhabits g s v → Inhabits g x v) ∧ (s.isText = true → x.isText = true)) ∨
      s.isRich = true ∧ x.isText = true
  gives : x.isRich = true → s.isRich = true ∧ ∀ v, Inhabits g x v → Inhabits g s v

theorem Absorbs.takes_in (absorbs : Absorbs g s x) (fit : Fit g False (s :: cs) v) :
    Fit g False (s :: x :: cs) v := by
  have wider : ∀ r ∈ s :: cs, r ∈ s :: x :: cs := by simp +contextual
  refine ⟨?_, ?_, False.elim⟩
  · simp only [forall_mem_cons]
    exact ⟨fit.single s mem_cons_self, absorbs.leaf, fun c inside =>
      fit.single c (mem_cons_of_mem _ inside)⟩
  · have old : ∀ c ∈ s :: cs, Inhabits g c v ∨ c.isText = true ∧ ∃ r ∈ s :: x :: cs,
        r.isRich = true ∧ Inhabits g r v :=
      fun c inside => (fit.fits c inside).imp_right fun ⟨text, r, member, found⟩ =>
        ⟨text, r, wider r member, found⟩
    simp only [forall_mem_cons] at old ⊢
    refine ⟨old.1, ?_, old.2⟩
    rcases absorbs.takes with ⟨implies, text⟩ | ⟨rich, text⟩
    · exact old.1.imp (implies v) (And.imp_left text)
    · rcases old.1 with inhabits | ⟨text', -⟩
      · exact .inr ⟨text, s, mem_cons_self, rich, inhabits⟩
      · cases s <;> cases rich <;> cases text'

theorem Absorbs.gives_up (absorbs : Absorbs g s x) (fit : Fit g agree (s :: x :: cs) v) :
    Fit g agree (s :: cs) v := by
  have wider : ∀ r ∈ s :: cs, r ∈ s :: x :: cs := by simp +contextual
  refine ⟨fun c inside => fit.single c (wider c inside), fun c inside =>
    (fit.fits c (wider c inside)).imp_right ?_,
    fun must _ _ _ _ here there => fit.agreed must (wider _ here) (wider _ there)⟩
  rintro ⟨text, r, member, rich, inhabits⟩
  refine ⟨text, ?_⟩
  simp only [mem_cons] at member
  rcases member with rfl | rfl | member
  · exact ⟨r, mem_cons_self, rich, inhabits⟩
  · obtain ⟨rich', implies⟩ := absorbs.gives rich
    exact ⟨s, mem_cons_self, rich', implies v inhabits⟩
  · exact ⟨r, mem_cons_of_mem _ member, rich, inhabits⟩

theorem Absorbs.blend (absorbs : Absorbs g s x) (normal : s.Normal)
    (leaf : s.isFlat = true ∨ s.kind = .literal) (proper : s.kind ≠ .any) : Blend g lo s x s where
  normal := normal
  top free := absurd (free ▸ rfl) proper
  stems _ _ _ := .inl
  sound us v joint := by
    obtain ⟨cs, chosen, fit⟩ := joint.of_leaf leaf proper
    exact .leaves (.cons (.self (single_of_leaf leaf))
      (.cons (.self (single_of_leaf absorbs.leaf)) chosen)) (absorbs.takes_in fit)
  complete us v _ joint := by
    obtain ⟨cs, chosen, fit⟩ := joint.of_leaf leaf proper
    obtain ⟨rest, rfl, chosen'⟩ := exists_of_chosen (single_of_leaf absorbs.leaf) chosen
    exact .leaves (.cons (.self (single_of_leaf leaf)) chosen') (absorbs.gives_up fit)

theorem absorbs_of_kind (flat : s.isFlat = true) (flat' : x.isFlat = true) (kinds : s.kind = x.kind)
    (proper : s.kind ≠ .any) : Absorbs g s x := by
  have some : s ≠ any := fun equal => proper (equal ▸ rfl)
  have some' : x ≠ any := fun equal => proper (kinds.trans (equal ▸ rfl))
  have same : ∀ v, Inhabits g s v ↔ Inhabits g x v := fun v => by
    rw [Inhabits.flat_iff flat some, Inhabits.flat_iff flat' some', kinds]
  refine ⟨.inl flat', .inl ⟨fun v => (same v).mp, ?_⟩, fun rich =>
    ⟨isRich_eq_of_kind kinds ▸ rich, fun v => (same v).mpr⟩⟩
  rw [isText_eq_of_flat flat, isText_eq_of_flat flat', kinds]
  exact id

theorem absorbs_text (rich : s.isRich = true) (leaf : x.isFlat = true ∨ x.kind = .literal)
    (text : x.isText = true) : Absorbs g s x := by
  refine ⟨leaf, .inr ⟨rich, text⟩, fun rich' => ?_⟩
  cases x <;> cases rich' <;> cases text

theorem disjoint_leaves (leaf : a.isFlat = true ∨ a.kind = .literal)
    (leaf' : b.isFlat = true ∨ b.kind = .literal) (proper : a.kind ≠ .any)
    (apart : ∀ cs v, ¬ Fit g True (a :: b :: cs) v) : Blend g lo a b never := by
  refine .never fun us v _ joint => ?_
  obtain ⟨cs, chosen, fit⟩ := joint.of_leaf leaf proper
  obtain ⟨rest, rfl, -⟩ := exists_of_chosen (single_of_leaf leaf') chosen
  exact apart rest v fit

theorem blend_meetPlain (flat : a.isFlat = true) (flat' : b.isFlat = true) (proper : a.Proper)
    (proper' : b.Proper) : Blend g lo a b (meetPlain a b) := by
  have some : ∀ {s : Shape}, s.Proper → s ≠ .any := fun proper equal => proper.1 (equal ▸ rfl)
  unfold meetPlain
  split_ifs with giving giving' differ
  · obtain ⟨text, rich⟩ : a.kind = .string ∧ b.isRich = true := by simpa using giving
    have text' : a.isText = true := by simp [isText_eq_of_flat flat, text]
    exact ((absorbs_text rich (.inl flat) text').blend (.flat flat') (.inl flat') proper'.1).symm
  · obtain ⟨text, rich⟩ : b.kind = .string ∧ a.isRich = true := by simpa using giving'
    have text' : b.isText = true := by simp [isText_eq_of_flat flat', text]
    exact (absorbs_text rich (.inl flat') text').blend (.flat flat) (.inl flat) proper.1
  · refine disjoint_leaves (.inl flat) (.inl flat') proper.1 fun cs v fit => ?_
    have kinds : a.kind ≠ b.kind := by simpa using differ
    rw [Bool.and_eq_true, not_and, beq_iff_eq] at giving giving'
    have rank : ∀ {s r : Shape}, s.isFlat = true → s.Proper → r.isRich = true → Inhabits g r v →
        Inhabits g s v → s.isRich = true := by
      intro s r flat proper rich here there
      obtain ⟨flat', proper'⟩ := rich_proper rich
      rw [isRich_eq_of_kind (kind_eq_of_inhabits flat flat' (some proper) proper' there here), rich]
    have text : ∀ {s : Shape}, s.isFlat = true → s.isText = true → s.kind = .string := fun flat text => by
      rwa [isText_eq_of_flat flat, beq_iff_eq] at text
    rcases fit.fits a (by simp), fit.fits b (by simp) with ⟨here | ⟨text₁, r, -, rich, inhabits⟩,
      there | ⟨text₂, r', -, rich', inhabits'⟩⟩
    · exact kinds (kind_eq_of_inhabits flat flat' (some proper) (some proper') here there)
    · exact giving' (text flat' text₂) (rank flat proper rich' inhabits' here)
    · exact giving (text flat text₁) (rank flat' proper' rich inhabits there)
    · exact kinds ((text flat text₁).trans (text flat' text₂).symm)
  · have kinds : a.kind = b.kind := by simpa using differ
    split
    · exact ((absorbs_of_kind flat' flat kinds.symm proper'.1).blend (.flat flat')
        (.inl flat') proper'.1).symm
    · exact (absorbs_of_kind flat flat' kinds proper.1).blend (.flat flat) (.inl flat) proper.1

theorem blend_literals {m : Nat} {y : Value} (left : w.Document) (right : y.Document)
    (met : meetLiteral (literal n w) w (literal m y) = .ok s) :
    Blend g lo (literal n w) (literal m y) s := by
  have decides := Value.literalEqual_decides left right
  by_cases same : w.meaning = y.meaning
  · have equal := decides.eq_ok_true same
    rw [meetLiteral, equal] at met
    obtain rfl : literal n w = s := Except.ok.inj met
    refine Absorbs.blend ⟨.inr rfl, .inl ⟨fun v inhabits => ?_, ?_⟩, (by rintro ⟨⟩)⟩ (.literal left)
      (.inr rfl) (by rintro ⟨⟩)
    · rw [Inhabits.literal_iff, Value.matchesLiteral_iff] at inhabits ⊢
      exact Value.literalEqual_trans inhabits equal
    · simp only [isText, Value.literalKind_eq_of_meaning_eq left right same, imp_self]
  · rw [meetLiteral, decides.eq_ok_false same] at met
    obtain rfl : never = s := Except.ok.inj met
    exact disjoint_leaves (.inr rfl) (.inr rfl) (by rintro ⟨⟩) fun cs v fit =>
      same (fit.agreed trivial mem_cons_self (mem_cons_of_mem _ mem_cons_self))

theorem blend_meetLiteral
    (single : b.kind = .literal ∨ b.isFlat = true ∨ b.kind = .array ∨ b.kind = .object)
    (proper : b.Proper) (met : meetLiteral (literal n w) w b = .ok s) :
    Blends g lo (literal n w) b s := by
  intro left right
  have document := left.of_literal
  by_cases other : b.kind = .literal
  · obtain ⟨m, y, rfl⟩ := exists_of_kind_literal other
    exact blend_literals document right.of_literal met
  have some : b ≠ any := fun equal => proper.1 (equal ▸ rfl)
  rw [meetLiteral_of_ne other] at met
  split_ifs at met with kinds giving
  · obtain rfl := Except.ok.inj met
    obtain ⟨⟨kind, notArray⟩, notObject⟩ :
        (w.literalKind = b.kind ∧ b.kind ≠ .array) ∧ b.kind ≠ .object := by simpa using kinds
    have flat : b.isFlat = true :=
      (single.resolve_left other).resolve_right (not_or.mpr ⟨notArray, notObject⟩)
    have scalar : b.kind = .null ∨ b.kind = .boolean ∨ b.kind = .number ∨ b.kind = .string := by
      rw [← kind] at notArray notObject ⊢
      cases document <;> simp [Value.literalKind] at notArray notObject ⊢
    have poor : b.isRich = false := by
      cases b <;> simp [Shape.kind, isRich] at scalar ⊢
    refine Absorbs.blend ⟨.inl flat, .inl ⟨fun v inhabits => ?_, fun text => ?_⟩, fun rich => ?_⟩
      left (.inr rfl) (by rintro ⟨⟩)
    · have matched := Inhabits.literal_iff.mp inhabits
      rw [Value.matchesLiteral_iff] at matched
      exact .flat (fitsKind_of_literalKind
        ((Value.literalKind_eq_of_literalEqual matched).trans kind) scalar)
    · rwa [isText_eq_of_flat flat, ← kind]
    · cases poor.symm.trans rich
  · obtain rfl := Except.ok.inj met
    obtain ⟨text, rich⟩ := Bool.and_eq_true_iff.mp giving
    exact ((absorbs_text (x := literal n w) rich (.inr rfl) text).blend right
      (.inl (rich_proper rich).1) proper.1).symm
  · obtain rfl := Except.ok.inj met
    rcases single.resolve_left other with flat | container
    · refine disjoint_leaves (.inr rfl) (.inl flat) (by rintro ⟨⟩) fun cs v fit => ?_
      have notArray : b.kind ≠ .array ∧ b.kind ≠ .object := by
        cases b <;> simp [Shape.kind, isFlat] at flat ⊢
      have differ : w.literalKind ≠ b.kind := by simpa [notArray] using kinds
      have firm : w.literalKind = .string → b.isRich = false := by simpa using giving
      have apart : ∀ {r}, r.isRich = true → Inhabits g r v → ¬ Inhabits g (literal n w) v := by
        intro r rich inhabits means
        rcases kind_eq_of_rich rich inhabits left (.inr rfl) means with free | kind
        · cases free
        · cases r <;> cases rich <;> cases kind
      rcases fit.fits _ mem_cons_self, fit.fits b (by simp) with
        ⟨here | ⟨text, r, -, rich, inhabits⟩, there | ⟨text', r', -, rich', inhabits'⟩⟩
      · exact differ (literalKind_eq_of_leaf document flat some here there)
      · exact apart rich' inhabits' here
      · obtain ⟨flat', proper'⟩ := rich_proper rich
        have kind := kind_eq_of_inhabits flat flat' some proper' there inhabits
        rw [isText, beq_iff_eq] at text
        exact Bool.false_ne_true ((firm text).symm.trans ((isRich_eq_of_kind kind).trans rich))
      · rw [isText, beq_iff_eq] at text
        rw [isText_eq_of_flat flat, beq_iff_eq] at text'
        exact differ (text.trans text'.symm)
    · refine .never fun us v _ joint => ?_
      have pair := joint.pair ⟨(by rintro ⟨⟩), (by rintro ⟨⟩)⟩
          ⟨by rcases container with kind | kind <;> simp [kind], proper.1⟩
      cases b <;> simp [Shape.kind, isFlat] at container pair

theorem blend_apart (left : a.isFlat = true ∨ a.kind = .array ∨ a.kind = .object)
    (right : b.isFlat = true ∨ b.kind = .array ∨ b.kind = .object) (proper : a.Proper)
    (proper' : b.Proper) (kinds : a.kind ≠ b.kind) (parted : a.isFlat = false ∨ b.isFlat = false) :
    Blend g lo a b never := by
  have single : ∀ {s : Shape}, (s.isFlat = true ∨ s.kind = .array ∨ s.kind = .object) →
      s.kind ≠ .union ∧ s.kind ≠ .literal := by
    intro s
    cases s <;> simp [kind, isFlat]
  refine .never fun us v _ joint => ?_
  rcases joint.pair ⟨(single left).1, proper.1⟩ ⟨(single right).1, proper'.1⟩ with ⟨leaf, leaf'⟩ |
    ⟨list, list'⟩ | ⟨entries, entries'⟩
  · rcases parted with parted | parted
    · exact Bool.false_ne_true (parted.symm.trans (leaf.resolve_right (single left).2))
    · exact Bool.false_ne_true (parted.symm.trans (leaf'.resolve_right (single right).2))
  · exact kinds (list.trans list'.symm)
  · exact kinds (entries.trans entries'.symm)

variable {l m : Nat} {items : Shape}

theorem Joint.of_array (joint : Joint g agree (array n t :: us) v) :
    ∃ cs vs, Forall₂ Choice us cs ∧ (∀ c ∈ cs, c = any ∨ c.kind = .array) ∧
      v.settle.items? = some vs ∧ ∀ x ∈ vs, Joint g agree (t :: cs.filterMap items?) x := by
  cases joint with
  | leaves chosen fit =>
    obtain ⟨cs, rfl, -⟩ := exists_of_chosen (s := array n t) (by rintro ⟨⟩) chosen
    rcases fit.single _ mem_cons_self with flat | kind
    · cases flat
    · cases kind
  | lists chosen single listed each =>
    obtain ⟨cs, rfl, chosen'⟩ := exists_of_chosen (s := array n t) (by rintro ⟨⟩) chosen
    exact ⟨cs, _, chosen', (forall_mem_cons.mp single).2, listed, each⟩
  | objects chosen single =>
    obtain ⟨cs, rfl, -⟩ := exists_of_chosen (s := array n t) (by rintro ⟨⟩) chosen
    rcases single _ mem_cons_self with free | kind
    · cases free
    · cases kind

theorem blends_arrays (met : Blends g lo s t items) :
    Blends g lo (array l s) (array m t) (array n items) := by
  intro left right
  have blend := met (left.piece mem_cons_self) (right.piece mem_cons_self)
  have inside : ∀ {n : Nat} {s : Shape}, s ∈ (array n s).subshapes := mem_subshapes_of_piece mem_cons_self
  refine ⟨.array blend.normal, (by rintro ⟨⟩), stems_of_pieces (by rintro ⟨⟩) ?_,
    fun us v joint => ?_, fun us v way joint => ?_⟩
  · exact forall_mem_singleton.mpr (blend.stems.mono inside inside)
  · obtain ⟨cs, vs, chosen, single, listed, each⟩ := joint.of_array
    refine .lists (.cons (.self (by rintro ⟨⟩)) (.cons (.self (by rintro ⟨⟩)) chosen)) ?_
      listed fun x member => blend.sound _ x (each x member)
    exact forall_mem_cons.mpr ⟨.inr rfl, forall_mem_cons.mpr ⟨.inr rfl, single⟩⟩
  · obtain ⟨cs, vs, chosen, single, listed, each⟩ := joint.of_array
    obtain ⟨rest, rfl, chosen'⟩ := exists_of_chosen (s := array m t) (by rintro ⟨⟩) chosen
    refine .lists (.cons (.self (by rintro ⟨⟩)) chosen')
      (forall_mem_cons.mpr ⟨.inr rfl, (forall_mem_cons.mp single).2⟩) listed ?_
    exact fun x member => blend.complete _ x
      (way.imp (fun coarse => coarse.item listed member) fun unshared =>
      unshared.mono inside inside)
      (each x member)

variable {inclusive : Bool} {members parts : List Shape}

theorem blends_union (each : Forall₂ (fun m part => Blends g lo m b part) members parts)
    (united : ∃ k k', lo ≤ k ∧ unionOf inclusive parts k = .ok (s, k')) :
    Blends g lo (union n inclusive members) b s := by
  intro left right
  have proper : ∀ m ∈ members, m ≠ any := by
    intro m member equal
    cases left.eq_any (.member member (.self (equal ▸ (by rintro ⟨⟩)))) equal
  have blend : ∀ part ∈ parts, ∃ m ∈ members, Blend g lo m b part := by
    intro part member
    obtain ⟨m, member', blends⟩ := exists_left_of_mem each member
    exact ⟨m, member', blends (left.piece member') right⟩
  have normal : ∀ part ∈ parts, part.Normal :=
    fun part member => (blend part member).elim fun m both => both.2.normal
  obtain ⟨k, k', low, run⟩ := united
  obtain ⟨grown?, taken, rfl, -⟩ := unionOf_eq_gathered run
  obtain ⟨grown?', taken', covered⟩ := gathered_covers normal_unites inclusive normal
  obtain rfl := Except.ok.inj (taken.symm.trans taken')
  obtain ⟨normal', covers⟩ := covered k
  have top : gathered k inclusive grown? ≠ any := by
    intro free
    have choice : Choice (gathered k inclusive grown?) any := by
      rw [free]
      exact .self (by rintro ⟨⟩)
    obtain free' | ⟨part, member, choice⟩ := exists_choice_of_gathered taken choice
    · cases free'
    · obtain ⟨m, member', blend⟩ := blend part member
      exact proper m member' (blend.top ((normal part member).eq_any choice rfl)).1
  refine ⟨normal', fun free => absurd free top, ?_, fun us v joint => ?_, fun us v way joint => ?_⟩
  · intro m i inner inside
    obtain rfl | ⟨part, member, deeper⟩ := mem_subshapes_of_gathered taken inside
    · exact .inr (.inr low)
    obtain ⟨t, member', blend⟩ := blend part member
    have outer : t ∈ (union n inclusive members).subshapes := mem_subshapes_of_piece member'
    exact blend.stems.mono outer b.mem_subshapes_self m i inner deeper
  · obtain ⟨c, choice, joint⟩ := joint.exists_choice
    obtain rfl | ⟨part, member, choice⟩ := exists_choice_of_gathered taken choice
    · exact absurd joint not_joint_never
    obtain ⟨m, member', blend⟩ := blend part member
    obtain ⟨d, choice', joint⟩ := (blend.sound us v (joint.of_choice choice)).exists_choice
    exact joint.of_choice (.member member' choice')
  · obtain ⟨c, choice, joint⟩ := joint.exists_choice
    cases choice with
    | self single => exact absurd rfl single
    | @member _ _ _ m _ member choice =>
      obtain ⟨part, member', blends⟩ := exists_right_of_mem each member
      have blend := blends (left.piece member) right
      have way' := way.imp_right fun unshared =>
          unshared.mono (mem_subshapes_of_piece member) b.mem_subshapes_self
      obtain ⟨c', choice', joint⟩ := (blend.complete us v way' (joint.of_choice choice)).exists_choice
      obtain rfl | free | ⟨d, choice'', -, same⟩ := covers part member' c' choice'
      · exact absurd joint not_joint_never
      · exact absurd free top
      · refine Joint.of_choice choice''
          (joint.carry (carries_alike g) (.cons ?_ (forall₂_same.mpr fun u _ => .refl u)))
        rcases same with rfl | alike
        · exact .refl d
        · exact alike.symm

section Merging

variable {R : Shape → Shape → Shape → Prop} {k : Nat} {ps qs left right : List (Property Shape)}
  {e f extra? : Option Shape} {p r : Property Shape} {name : String}

theorem MetExtra.symm (symm : ∀ {a b s}, R a b s → R b a s) (met : MetExtra R e f extra?) :
    MetExtra R f e extra? := by
  cases met with
  | both met => exact .both (symm met)
  | left s => exact .right (some s)
  | right =>
    cases f with
    | none => exact .right none
    | some s => exact .left s

theorem MetProperty.entry (met : MetProperty R qs f p r) :
    MetExtra R (some p.shape) (entryAt? p.name (object n qs f)) (some r.shape) := by
  cases met with
  | declared found met =>
    rw [entryAt?, found]
    exact .both met
  | extra unknown equal met =>
    rw [entryAt?_of_none unknown, equal]
    exact .both met
  | free unknown equal =>
    rw [entryAt?_of_none unknown, equal]
    exact .left p.shape

theorem MetProperty.required (met : MetProperty R qs f p r) (strict : r.optional = false) :
    p.optional = false ∨ ∃ q ∈ qs, q.name = p.name ∧ q.optional = false := by
  cases met with
  | declared found =>
    rcases Bool.and_eq_false_iff.mp strict with strict | strict
    · exact .inl strict
    · exact .inr ⟨_, (mem_of_property? found).1, (mem_of_property? found).2, strict⟩
  | _ => exact .inl strict

theorem MetProperty.strict (met : MetProperty R qs f p r)
    (strict : p.optional = false ∨ ∃ q, property? qs p.name = some q ∧ q.optional = false) :
    r.optional = false := by
  cases met with
  | declared found =>
    refine Bool.and_eq_false_iff.mpr (strict.imp_right ?_)
    rintro ⟨q, found', strict⟩
    exact Option.some.inj (found'.symm.trans found) ▸ strict
  | extra unknown | free unknown =>
    refine strict.resolve_right ?_
    rintro ⟨q, found, -⟩
    cases unknown.symm.trans found

variable (first : Forall₂ (MetProperty R qs f) ps left)
  (second : Forall₂ (MetProperty R [] e) (undeclared ps qs) right)
  (sorted : qs.Pairwise fun p q => p.name < q.name)

include first second sorted

theorem entryAt?_merged (sorted' : ps.Pairwise fun p q => p.name < q.name)
    (symm : ∀ {a b s}, R a b s → R b a s) (others : MetExtra R e f extra?) (name : String) :
    MetExtra R (entryAt? name (object m ps e)) (entryAt? name (object n qs f))
      (entryAt? name (object k (sortProperties (left ++ right)) extra?)) := by
  have ascending := merged_ascending sorted' sorted (map_name_of_met first) (map_name_of_met second)
  cases known : property? ps name with
  | some p =>
    obtain ⟨member, rfl⟩ := mem_of_property? known
    obtain ⟨r, member', met⟩ := exists_right_of_mem first member
    rw [entryAt?_of_mem sorted' member, ← met.name_eq,
      entryAt?_of_mem ascending (mem_sortProperties.mpr (mem_append_left _ member')), met.name_eq]
    exact met.entry
  | none =>
    rw [entryAt?_of_none known]
    cases known' : property? qs name with
    | some q =>
      obtain ⟨member, rfl⟩ := mem_of_property? known'
      obtain ⟨r, member', met⟩ := exists_right_of_mem second (mem_undeclared.mpr ⟨member, known⟩)
      rw [entryAt?_of_mem sorted member, ← met.name_eq,
        entryAt?_of_mem ascending (mem_sortProperties.mpr (mem_append_right _ member'))]
      exact (met.entry (n := n)).symm symm
    | none =>
      rw [entryAt?_of_none known', entryAt?_of_none]
      · exact others
      · refine property?_eq_none_iff.mpr fun r member named => ?_
        rcases mem_append.mp (mem_sortProperties.mp member) with listed | listed
        · obtain ⟨p, member', met⟩ := exists_left_of_mem first listed
          exact property?_eq_none_iff.mp known p member' (met.name_eq.symm.trans named)
        · obtain ⟨q, member', met⟩ := exists_left_of_mem second listed
          exact property?_eq_none_iff.mp known' q (mem_undeclared.mp member').1
            (met.name_eq.symm.trans named)

theorem requires_merged_iff : Requires name (object k (sortProperties (left ++ right)) extra?) ↔
    Requires name (object m ps e) ∨ Requires name (object n qs f) := by
  constructor
  · rintro ⟨r, member, rfl, strict⟩
    rcases mem_append.mp (mem_sortProperties.mp member) with listed | listed
    · obtain ⟨p, member', met⟩ := exists_left_of_mem first listed
      rw [met.name_eq]
      refine (met.required strict).imp (fun strict => ⟨p, member', rfl, strict⟩) id
    · obtain ⟨q, member', met⟩ := exists_left_of_mem second listed
      rw [met.name_eq]
      refine .inr ⟨q, (mem_undeclared.mp member').1, rfl, (met.required strict).resolve_right ?_⟩
      exact fun ⟨_, listed, _⟩ => nomatch listed
  · rintro (⟨p, member, rfl, strict⟩ | ⟨q, member, rfl, strict⟩)
    · obtain ⟨r, member', met⟩ := exists_right_of_mem first member
      exact ⟨r, mem_sortProperties.mpr (mem_append_left _ member'), met.name_eq, met.strict (.inl strict)⟩
    · cases known : property? ps q.name with
      | some p =>
        obtain ⟨member', named⟩ := mem_of_property? known
        obtain ⟨r, member'', met⟩ := exists_right_of_mem first member'
        refine ⟨r, mem_sortProperties.mpr (mem_append_left _ member''), met.name_eq.trans named,
          met.strict (.inr ⟨q, ?_, strict⟩)⟩
        rw [named, property?_of_mem_ascending sorted member]
      | none =>
        obtain ⟨r, member', met⟩ := exists_right_of_mem second (mem_undeclared.mpr ⟨member, known⟩)
        exact ⟨r, mem_sortProperties.mpr (mem_append_right _ member'), met.name_eq,
          met.strict (.inl strict)⟩

end Merging

variable {k : Nat} {ps qs left right : List (Property Shape)} {e f extra? x? y? z? : Option Shape}
  {p r : Property Shape} {name : String}

theorem filterMap_cons_eq (h : Shape → Option Shape) (s : Shape) (us : List Shape) :
    (s :: us).filterMap h = (h s).toList ++ us.filterMap h := by
  rw [filterMap_cons]
  cases h s <;> rfl

structure BlendEntry (g : Graph) (lo : Nat) (a b : Shape) (x? y? z? : Option Shape) : Prop where
  normal : ∀ z, z? = some z → z.Normal ∧ Stems lo a b z
  sound : ∀ us v, Joint g False (z?.toList ++ us) v → Joint g False (x?.toList ++ (y?.toList ++ us)) v
  complete : ∀ us v, v.Coarse ∨ Unshared a b → Joint g True (x?.toList ++ (y?.toList ++ us)) v →
      Joint g True (z?.toList ++ us) v

theorem MetExtra.blend (met : MetExtra (Blends g lo) x? y? z?) (normal : a.Normal)
    (normal' : b.Normal) (inside : ∀ x, x? = some x → x ∈ a.pieces)
    (inside' : ∀ y, y? = some y → y ∈ b.pieces) : BlendEntry g lo a b x? y? z? := by
  cases met with
  | @both s t r met =>
    have here := inside s rfl
    have there := inside' t rfl
    have blend := met (normal.piece here) (normal'.piece there)
    have outer := mem_subshapes_of_piece here
    have outer' := mem_subshapes_of_piece there
    refine ⟨?_, blend.sound, fun us v way =>
      blend.complete us v (way.imp_right fun unshared => unshared.mono outer outer')⟩
    rintro z ⟨⟩
    exact ⟨blend.normal, blend.stems.mono outer outer'⟩
  | left s =>
    refine ⟨?_, fun _ _ => id, fun _ _ _ => id⟩
    rintro z ⟨⟩
    exact ⟨normal.piece (inside s rfl), fun _ _ _ deeper =>
      .inl (mem_subshapes_trans (mem_subshapes_of_piece (inside s rfl)) deeper)⟩
  | right =>
    refine ⟨fun z equal => ⟨normal'.piece (inside' z equal), fun _ _ _ deeper => ?_⟩, fun _ _ =>
      id, fun _ _ _ => id⟩
    exact .inr (.inl (mem_subshapes_trans (mem_subshapes_of_piece (inside' z equal)) deeper))

theorem Joint.of_object (joint : Joint g agree (object n ps e :: us) v) :
    ∃ cs entries, Forall₂ Choice us cs ∧ (∀ c ∈ cs, c = any ∨ c.kind = .object) ∧
      v.settle.entries? = some entries ∧
      (∀ c ∈ object n ps e :: cs, ∀ name, c.Requires name → get? entries name ≠ none) ∧
      ∀ x ∈ entries, Joint g agree
      ((entryAt? x.1 (object n ps e)).toList ++ cs.filterMap (entryAt? x.1)) x.2 := by
  cases joint with
  | leaves chosen fit =>
    obtain ⟨cs, rfl, -⟩ := exists_of_chosen (s := object n ps e) (by rintro ⟨⟩) chosen
    rcases fit.single _ mem_cons_self with flat | kind
    · cases flat
    · cases kind
  | lists chosen single =>
    obtain ⟨cs, rfl, -⟩ := exists_of_chosen (s := object n ps e) (by rintro ⟨⟩) chosen
    rcases single _ mem_cons_self with free | kind
    · cases free
    · cases kind
  | objects chosen single keyed present each =>
    obtain ⟨cs, rfl, chosen'⟩ := exists_of_chosen (s := object n ps e) (by rintro ⟨⟩) chosen
    refine ⟨cs, _, chosen', (forall_mem_cons.mp single).2, keyed, present, fun x member => ?_⟩
    rw [← filterMap_cons_eq]
    exact each x member

theorem blend_void (normal : (object m ps e).Normal) (normal' : (object n qs f).Normal)
    (met : MetExtra (Blends g lo) (entryAt? name (object m ps e)) (entryAt? name (object n qs f))
      (some never)) (required : Requires name (object m ps e) ∨ Requires name (object n qs f)) :
    Blend g lo (object m ps e) (object n qs f) never := by
  have blend := met.blend normal normal' (fun _ => mem_pieces_of_entryAt?) fun _ => mem_pieces_of_entryAt?
  refine .never fun us v way joint => ?_
  obtain ⟨cs, entries, chosen, -, keyed, present, each⟩ := joint.of_object
  obtain ⟨rest, rfl, -⟩ := exists_of_chosen (s := object n qs f) (by rintro ⟨⟩) chosen
  have there : get? entries name ≠ none :=
    required.elim (present _ (by simp) name) (present _ (by simp) name)
  obtain ⟨x, found⟩ := Option.ne_none_iff_exists'.mp there
  have member := mem_of_get?_eq_some found
  have joint := each _ member
  rw [filterMap_cons_eq] at joint
  exact not_joint_never (blend.complete _ x (way.imp_left fun coarse => coarse.entry keyed member) joint)

theorem blends_void_left (member : p ∈ ps) (met : MetProperty (Blends g lo) qs f p r)
    (void : r.shape = never) (required : r.optional = false) :
    Blends g lo (object m ps e) (object n qs f) never := by
  intro normal normal'
  have entry : MetExtra (Blends g lo) (entryAt? p.name (object m ps e))
      (entryAt? p.name (object n qs f)) (some r.shape) := by
    rw [entryAt?_of_mem normal.ascending member]
    exact met.entry
  exact blend_void normal normal' (void ▸ entry) ((met.required required).imp_left fun strict =>
    ⟨p, member, rfl, strict⟩)

theorem blends_void_right (member : p ∈ undeclared ps qs) (met : MetProperty (Blends g lo) [] e p r)
    (void : r.shape = never) (required : r.optional = false) :
    Blends g lo (object m ps e) (object n qs f) never := by
  intro normal normal'
  obtain ⟨listed, unknown⟩ := mem_undeclared.mp member
  have entry : MetExtra (Blends g lo) (entryAt? p.name (object m ps e))
      (entryAt? p.name (object n qs f)) (some r.shape) := by
    rw [entryAt?_of_mem normal'.ascending listed, entryAt?_of_none unknown]
    exact (met.entry (n := n)).symm Blends.symm
  refine blend_void normal normal' (void ▸ entry)
    (.inr ⟨p, listed, rfl, (met.required required).resolve_right ?_⟩)
  exact fun ⟨_, inside, _⟩ => nomatch inside

theorem blends_objects (first : Forall₂ (MetProperty (Blends g lo) qs f) ps left)
    (second : Forall₂ (MetProperty (Blends g lo) [] e) (undeclared ps qs) right)
    (others : MetExtra (Blends g lo) e f extra?) :
    Blends g lo (object m ps e) (object n qs f)
      (object k (sortProperties (left ++ right)) extra?) := by
  intro normal normal'
  have ascending := merged_ascending normal.ascending normal'.ascending (map_name_of_met first)
      (map_name_of_met second)
  have requires : ∀ name, Requires name (object k (sortProperties (left ++ right)) extra?) ↔ _ :=
    fun name =>
    requires_merged_iff (m := m) (n := n) first second normal'.ascending
  have entry : ∀ name, BlendEntry g lo (object m ps e)
      (object n qs f) _ _ (entryAt? name (object k (sortProperties (left ++ right)) extra?)) :=
    fun name => (entryAt?_merged first second normal'.ascending normal.ascending Blends.symm others
      name).blend normal normal'
      (fun _ => mem_pieces_of_entryAt?) fun _ => mem_pieces_of_entryAt?
  have rest : BlendEntry g lo (object m ps e) (object n qs f) e f extra? :=
    others.blend normal normal' (fun _ equal => equal ▸ mem_pieces_of_extra) fun _ equal =>
      equal ▸ mem_pieces_of_extra
  have own : ∀ r ∈ sortProperties (left ++ right), r.shape.Normal ∧
      Stems lo (object m ps e) (object n qs f) r.shape :=
    fun r member => (entry r.name).normal r.shape (entryAt?_of_mem ascending member)
  refine ⟨.object ascending (fun r member => (own r member).1) fun s equal =>
    (rest.normal s equal).1, (by rintro ⟨⟩), stems_of_pieces (by rintro ⟨⟩) ?_,
    fun us v joint => ?_, fun us v way joint => ?_⟩
  · exact forall_mem_pieces_object (fun r member => (own r member).2) fun t equal =>
      (rest.normal t equal).2
  · obtain ⟨cs, entries, chosen, single, keyed, present, each⟩ := joint.of_object
    rw [forall_mem_cons] at present
    refine .objects (.cons (.self (by rintro ⟨⟩)) (.cons (.self (by rintro ⟨⟩)) chosen))
      (forall_mem_cons.mpr ⟨.inr rfl, forall_mem_cons.mpr
      ⟨.inr rfl, single⟩⟩) keyed
      (forall_mem_cons.mpr ⟨fun name required => ?_, forall_mem_cons.mpr ⟨fun name required => ?_,
      present.2⟩⟩) fun x member => ?_
    · exact present.1 name ((requires name).mpr (.inl required))
    · exact present.1 name ((requires name).mpr (.inr required))
    · rw [filterMap_cons_eq, filterMap_cons_eq]
      exact (entry x.1).sound _ x.2 (each x member)
  · obtain ⟨cs, entries, chosen, single, keyed, present, each⟩ := joint.of_object
    obtain ⟨cs, rfl, chosen'⟩ := exists_of_chosen (s := object n qs f) (by rintro ⟨⟩) chosen
    rw [forall_mem_cons, forall_mem_cons] at present
    refine .objects (.cons (.self (by rintro ⟨⟩)) chosen')
      (forall_mem_cons.mpr ⟨.inr rfl, (forall_mem_cons.mp single).2⟩) keyed
      (forall_mem_cons.mpr ⟨fun name required => ?_, present.2.2⟩) fun x member => ?_
    · exact ((requires name).mp required).elim (present.1 name) (present.2.1 name)
    · have joint := each x member
      rw [filterMap_cons_eq] at joint ⊢
      exact (entry x.1).complete _ x.2 (way.imp_left fun coarse => coarse.entry keyed member) joint

theorem blends_rules (g : Graph) (lo : Nat) : MeetRules lo g.target? (Blends g lo) where
  same _ normal _ := blend_self normal
  any_left _ _ normal := blend_any normal
  any_right _ normal _ := (blend_any normal).symm
  never_left _ _ _ := .never fun _ _ _ => not_joint_never
  never_right _ _ _ := .never fun _ _ _ joint => not_joint_never joint.swap
  unmerged _ late left right := by
    rcases late with (named | named) | whole | whole
    · exact absurd named left.kind_ne.1
    · exact absurd named right.kind_ne.1
    · exact absurd whole left.kind_ne.2
    · exact absurd whole right.kind_ne.2
  through named _ _ _ left right :=
    named.elim (fun named => absurd named left.kind_ne.1) fun named => absurd named right.kind_ne.1
  kept_left named _ _ _ left _ := absurd named left.kind_ne.1
  kept_right named _ _ _ _ right := absurd named right.kind_ne.1
  union_left each united := blends_union each united
  union_right each united := (blends_union each united).symm
  arrays _ met := blends_arrays met
  objects _ first second others := blends_objects first second others
  void_left member met void required := blends_void_left member met void required
  void_right member met void required := blends_void_right member met void required
  literal_left single proper met := blend_meetLiteral single proper met
  literal_right single proper met := (blend_meetLiteral (.inr single) proper met).symm
  flat left right proper proper' _ _ := blend_meetPlain left right proper proper'
  apart left right proper proper' kinds parted _ _ := blend_apart left right proper proper' kinds parted

end JsonShape.Shape
