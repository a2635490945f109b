import JsonShape.Proofs.Fingerprint

/-! The text of a fingerprint can be read back: a name in it ends one character before the next
joining character. So tables whose fingerprints are written alike resolve each reference to one
schema. -/
namespace JsonShape.FingerprintText
open List Entries

variable {list list' rest : List Line} {corpus : Corpus} {key : String} {text : List Char} {m n : Nat}

theorem digitChar_inj (small : m < 16) (small' : n < 16) (equal : m.digitChar = n.digitChar) : m = n := by
  have all : ∀ i j : Fin 16, i.val.digitChar = j.val.digitChar → i = j := by decide
  exact congrArg Fin.val (all ⟨m, small⟩ ⟨n, small'⟩ equal)

theorem toDigits_injective (equal : Nat.toDigits 16 m = Nat.toDigits 16 n) : m = n := by
  induction m using Nat.strong_induction_on generalizing n with
  | _ m ih =>
    rw [Nat.toDigits_eq_if (by decide), Nat.toDigits_eq_if (n := n) (by decide)] at equal
    split_ifs at equal with small small' small'
    · exact digitChar_inj small small' (cons.inj equal).1
    · have sizes := congrArg length equal
      simp at sizes
    · have sizes := congrArg length equal
      simp at sizes
    · obtain ⟨fronts, lasts⟩ := append_inj' equal rfl
      have quotients := ih (m / 16) (by omega) fronts
      have remainders := digitChar_inj (Nat.mod_lt m (by decide)) (Nat.mod_lt n (by decide))
          (cons.inj lasts).1
      omega

theorem digitChar_plain (n : Nat) : n.digitChar ∉ ['=', ';', '\x00'] := by
  by_cases small : n < 16
  · have all : ∀ i : Fin 16, i.val.digitChar ∉ ['=', ';', '\x00'] := by decide
    exact all ⟨n, small⟩
  · have star : n.digitChar = '*' := Nat.digitChar_eq_star.mpr (by omega)
    rw [star]
    decide

theorem toDigits_plain (n : Nat) : ∀ c ∈ Nat.toDigits 16 n, c ∉ ['=', ';', '\x00'] := by
  induction n using Nat.strong_induction_on with
  | _ n ih =>
    intro c member
    rw [Nat.toDigits_eq_if (by decide)] at member
    split_ifs at member with small
    · rw [mem_singleton.mp member]
      exact digitChar_plain n
    · rcases mem_append.mp member with front | last
      · exact ih (n / 16) (by omega) c front
      · rw [mem_singleton.mp last]
        exact digitChar_plain _

theorem addressText_injective (equal : addressText m = addressText n) : m = n := by
  have chars := congrArg String.toList equal
  simp only [addressText, String.toList_append, String.toList_ofList] at chars
  exact toDigits_injective (append_cancel_left chars)

theorem addressText_plain (n : Nat) : ∀ c ∈ (addressText n).toList, c ∉ ['=', ';', '\x00'] := by
  intro c member
  simp only [addressText, String.toList_append, String.toList_ofList, mem_append] at member
  rcases member with front | digits
  · have all : ∀ c ∈ "0x".toList, c ∉ ['=', ';', '\x00'] := by simp
    exact all c front
  · exact toDigits_plain n c digits

abbrev Line := List Char × List Char

def line (l : Line) : List Char := l.1 ++ '=' :: (l.2 ++ [';'])

def lines (list : List Line) : List Char := list.flatMap line

/-- The key of a line other than the first: a letter, the joining character, and names. -/
inductive Tagged : List Char → Prop
  | named {tag : Char} {name : List Char} (letter : tag = 'n' ∨ tag = 'r') (free : '\x00' ∉ name) :
      Tagged (tag :: '\x00' :: name)
  | owned {id name : List Char} (free : '\x00' ∉ id) (free' : '\x00' ∉ name) :
      Tagged ('d' :: '\x00' :: (id ++ '\x00' :: name))

def Plain (text : List Char) : Prop := ∀ c ∈ text, c ∉ ['=', ';', '\x00']

def Readable (list : List Line) : Prop := ∀ l ∈ list, Tagged l.1 ∧ Plain l.2

theorem lines_cons (l : Line) (rest : List Line) :
    lines (l :: rest) = l.1 ++ '=' :: (l.2 ++ ';' :: lines rest) := by
  simp [lines, line]

theorem lines_start (readable : Readable list) :
    lines list = [] ∨ ∃ tag rest, tag ≠ ';' ∧ lines list = tag :: '\x00' :: rest := by
  cases list with
  | nil => exact .inl rfl
  | cons l rest =>
    right
    obtain ⟨key, text⟩ := l
    rw [lines_cons]
    cases (readable _ mem_cons_self).1 with
    | named letter free =>
      refine ⟨_, _, ?_, rfl⟩
      rcases letter with rfl | rfl <;> decide
    | owned free free' => exact ⟨'d', _, by decide, rfl⟩

theorem no_overlap {front whole more tail : List Char} (readable : Readable list)
    (free : '\x00' ∉ front) (equal : front ++ [';'] = whole ++ more)
    (parted : lines list = more ++ tail) : more = [] := by
  rcases lines_start readable with empty | ⟨tag, rest, letter, start⟩
  · exact (append_eq_nil_iff.mp (empty ▸ parted).symm).1
  · match more, parted, equal with
    | [], _, _ => rfl
    | [c], parted, equal =>
      have last := congrArg getLast? equal
      simp only [getLast?_append, getLast?_singleton, Option.some_or, Option.some.injEq] at last
      have first := (cons.inj (start.symm.trans parted)).1
      exact absurd (first.trans last.symm) letter
    | c :: d :: others, parted, equal =>
      have second := (cons.inj (cons.inj (start.symm.trans parted)).2).1
      have inside : d ∈ front ++ [';'] := equal ▸ by simp
      rw [← second] at inside
      simp [free] at inside

theorem line_inj {name name' text' : List Char} {rest' : List Line} (free : '\x00' ∉ name)
    (free' : '\x00' ∉ name') (plain : Plain text) (plain' : Plain text') (readable : Readable rest)
    (readable' : Readable rest')
    (equal : name ++ '=' :: (text ++ ';' :: lines rest) = name' ++ '=' ::
      (text' ++ ';' :: lines rest')) : name = name' ∧ text = text' ∧ lines rest = lines rest' := by
  have clean : '\x00' ∉ name ++ '=' :: text := by
    simp only [mem_append, mem_cons, not_or]
    exact ⟨free, by decide, fun inside => plain _ inside (by decide)⟩
  have clean' : '\x00' ∉ name' ++ '=' :: text' := by
    simp only [mem_append, mem_cons, not_or]
    exact ⟨free', by decide, fun inside => plain' _ inside (by decide)⟩
  have regrouped : ((name ++ '=' :: text) ++ [';']) ++ lines rest =
      ((name' ++ '=' :: text') ++ [';']) ++ lines rest' := by
    simpa using equal
  have fronts : (name ++ '=' :: text) ++ [';'] = (name' ++ '=' :: text') ++ [';'] := by
    rcases append_eq_append_iff.mp regrouped with ⟨more, longer, parted⟩ | ⟨more, longer, parted⟩
    · rw [no_overlap readable clean' longer parted, append_nil] at longer
      exact longer.symm
    · rw [no_overlap readable' clean longer parted, append_nil] at longer
      exact longer
  have tails : lines rest = lines rest' := by
    rw [fronts] at regrouped
    exact append_cancel_left regrouped
  have same : (text.reverse ++ '=' :: name.reverse) = text'.reverse ++ '=' :: name'.reverse := by
    have reversed := congrArg reverse (append_cancel_right fronts)
    simpa using reversed
  obtain ⟨texts, names⟩ := append_mark_inj (fun inside => plain _ (mem_reverse.mp inside) (by decide))
    (fun inside => plain' _ (mem_reverse.mp inside) (by decide)) same
  exact ⟨reverse_injective names, reverse_injective texts, tails⟩

theorem lines_injective (readable : Readable list) (readable' : Readable list')
    (equal : lines list = lines list') : list = list' := by
  induction list generalizing list' with
  | nil =>
    cases list' with
    | nil => rfl
    | cons l rest => rw [lines_cons] at equal; simp [lines] at equal
  | cons l rest ih =>
    cases list' with
    | nil => rw [lines_cons] at equal; simp [lines] at equal
    | cons l' rest' =>
      obtain ⟨key, text⟩ := l
      obtain ⟨key', text'⟩ := l'
      obtain ⟨tagged, plain⟩ := readable _ mem_cons_self
      obtain ⟨tagged', plain'⟩ := readable' _ mem_cons_self
      have below : Readable rest := (forall_mem_cons.mp readable).2
      have below' : Readable rest' := fun l member => readable' l (mem_cons_of_mem _ member)
      rw [lines_cons, lines_cons] at equal
      suffices heads : key = key' ∧ text = text' ∧ lines rest = lines rest' by
        obtain ⟨rfl, rfl, tails⟩ := heads
        rw [ih below below' tails]
      cases tagged with
      | named letter free =>
        cases tagged' with
        | named letter' free' =>
          obtain ⟨rfl, equal⟩ := cons.inj equal
          obtain ⟨rfl, rfl, tails⟩ := line_inj free free' plain plain' below below' (cons.inj equal).2
          exact ⟨rfl, rfl, tails⟩
        | owned => rcases letter with rfl | rfl <;> cases equal
      | owned owner free =>
        cases tagged' with
        | named letter' => rcases letter' with rfl | rfl <;> cases equal
        | owned owner' free' =>
          simp only [cons_append, append_assoc, cons.injEq, true_and] at equal
          obtain ⟨rfl, bodies⟩ := append_mark_inj owner owner' equal
          obtain ⟨rfl, rfl, tails⟩ := line_inj free free' plain plain' below below' bodies
          exact ⟨rfl, rfl, tails⟩

/-- Lines with letters, perhaps after the one for the innermost resource, can be read back. -/
def Sheet (list : List Line) : Prop :=
  Readable list ∨ ∃ text rest, list = (['#'], text) :: rest ∧ Plain text ∧ Readable rest

theorem not_hash (readable : Readable list) : lines list ≠ lines ((['#'], text) :: rest) := by
  intro equal
  rw [lines_cons] at equal
  rcases lines_start readable with empty | ⟨tag, tail, -, start⟩
  · rw [empty] at equal
    cases equal
  · rw [start] at equal
    cases equal

theorem sheet_injective (sheet : Sheet list) (sheet' : Sheet list')
    (equal : lines list = lines list') : list = list' := by
  rcases sheet with readable | ⟨text, rest, rfl, plain, readable⟩
  · rcases sheet' with readable' | ⟨text', rest', rfl, -, -⟩
    · exact lines_injective readable readable' equal
    · exact absurd equal (not_hash readable)
  · rcases sheet' with readable' | ⟨text', rest', rfl, plain', readable'⟩
    · exact absurd equal.symm (not_hash readable')
    · rw [lines_cons, lines_cons] at equal
      have bodies := (cons.inj (cons.inj equal).2).2
      obtain ⟨rfl, tails⟩ := append_mark_inj (fun inside => plain _ inside (by decide))
        (fun inside => plain' _ inside (by decide)) bodies
      rw [lines_injective readable readable' tails]

def linesOf (spelling : Option Location → String) (f : Fingerprint) : List Line :=
  f.map fun (key, node?) => (key.toList, (spelling node?).toList)

theorem spell_toList (spelling : Option Location → String) (f : Fingerprint) :
    (f.spell spelling).toList = lines (linesOf spelling f) := by
  induction f with
  | nil => simp [Fingerprint.spell, linesOf, lines]
  | cons entry rest ih =>
    rw [linesOf, map_cons, lines_cons, ← linesOf, ← ih]
    simp [Fingerprint.spell]

theorem tagged_of_mem_keys (free : corpus.NulFree) {e : Entry} (declared : e.Declared corpus)
    (member : key ∈ e.keys) : key = "#" ∨ Tagged key.toList := by
  cases declared with
  | resource present =>
    rcases mem_cons.mp member with rfl | named
    · exact .inl rfl
    · right
      rw [mem_singleton.mp named, resourceKey_toList]
      exact .named (.inr rfl) (free _ _ present).1
  | definition present defined owned =>
    right
    have plain := (free _ _ present).2 _ defined
    rcases mem_cons.mp member with rfl | named
    · rw [definitionKey_toList]
      exact .owned (free.isId owned) plain
    · rw [mem_singleton.mp named, nameKey_toList]
      exact .named (.inl rfl) plain

theorem hash_lt_tagged (tagged : Tagged key.toList) : "#" < key := by
  rw [String.lt_iff_toList_lt]
  cases chars : key.toList with
  | nil => rw [chars] at tagged; cases tagged
  | cons tag rest =>
    rw [chars] at tagged
    have above : '#' < tag := by
      cases tagged with
      | named letter => rcases letter with rfl | rfl <;> decide
      | owned => decide
    exact Lex.rel above

theorem sheet_linesOf (free : corpus.NulFree) {t : Table} (covered : t.Over corpus)
    (address : Option Location → Nat) :
    Sheet (linesOf (fun node? => addressText (address node?)) t.fingerprint) := by
  have ascending : Ascending t.fingerprint := ascending_ofList _
  have forms : ∀ entry ∈ t.fingerprint, entry.1 = "#" ∨ Tagged entry.1.toList := by
    intro entry member
    obtain ⟨e, inside, claimed⟩ := mem_flatMap.mp (mem_of_mem_ofList member)
    obtain ⟨key, keyed, rfl⟩ := mem_map.mp claimed
    exact tagged_of_mem_keys free (covered e inside) keyed
  revert ascending forms
  cases t.fingerprint with
  | nil => exact fun _ _ => .inl fun l member => by cases member
  | cons first rest =>
    intro ascending forms
    obtain ⟨lower, -⟩ := pairwise_cons.mp ascending
    have tail : Readable (linesOf (fun node? => addressText (address node?)) rest) := by
      intro l member
      obtain ⟨entry, inside, rfl⟩ := mem_map.mp member
      refine ⟨?_, addressText_plain _⟩
      rcases forms entry (mem_cons_of_mem _ inside) with hash | tagged
      · have below := lower entry inside
        rw [hash] at below
        rcases forms first mem_cons_self with hash' | tagged'
        · exact absurd below (hash' ▸ lt_irrefl _)
        · exact absurd below (lt_asymm (hash_lt_tagged tagged'))
      · exact tagged
    rcases forms first mem_cons_self with hash | tagged
    · obtain ⟨key, node?⟩ := first
      obtain rfl : key = "#" := hash
      exact .inr ⟨_, _, rfl, addressText_plain _, tail⟩
    · left
      intro l member
      rcases mem_cons.mp member with rfl | inside
      · exact ⟨tagged, addressText_plain _⟩
      · exact tail l inside

theorem fingerprint_eq_of_spell_eq (free : corpus.NulFree) {t u : Table} (covered : t.Over corpus)
    (covered' : u.Over corpus) (address : Option Location → Nat)
    (distinct : ∀ e ∈ t.entries, ∀ x ∈ u.entries, address e.node? = address x.node? →
      e.node? = x.node?)
    (equal : t.fingerprint.spell (fun node? => addressText (address node?)) = u.fingerprint.spell
      fun node? => addressText (address node?)) : t.fingerprint = u.fingerprint := by
  have same := congrArg String.toList equal
  rw [spell_toList, spell_toList] at same
  have listed := sheet_injective (sheet_linesOf free covered address)
      (sheet_linesOf free covered' address) same
  have origin : ∀ v : Table, ∀ entry ∈ v.fingerprint, ∃ e ∈ v.entries, e.node? = entry.2 := by
    intro v entry member
    obtain ⟨e, inside, claimed⟩ := mem_flatMap.mp (mem_of_mem_ofList member)
    obtain ⟨key, -, rfl⟩ := mem_map.mp claimed
    exact ⟨e, inside, rfl⟩
  have entries : ∀ f g : Fingerprint, (∀ a ∈ f, ∀ b ∈ g, address a.2 = address b.2 → a.2 = b.2) →
      linesOf (fun node? => addressText (address node?)) f = linesOf (fun node? =>
      addressText (address node?)) g →
      f = g := by
    intro f
    induction f with
    | nil =>
      intro g _ listed
      exact (map_eq_nil_iff.mp listed.symm).symm
    | cons a rest ih =>
      intro g apart listed
      cases g with
      | nil => cases listed
      | cons b rest' =>
        obtain ⟨heads, tails⟩ := cons.inj listed
        obtain ⟨keys, texts⟩ := Prod.mk.inj heads
        have nodes := apart a mem_cons_self b mem_cons_self
          (addressText_injective (String.toList_inj.mp texts))
        rw [Prod.ext (String.toList_inj.mp keys) nodes, ih rest' (fun x inside y inside' =>
          apart x (mem_cons_of_mem _ inside) y (mem_cons_of_mem _ inside')) tails]
  refine entries _ _ ?_ listed
  intro a member b member' addresses
  obtain ⟨e, inside, nodes⟩ := origin t a member
  obtain ⟨x, inside', nodes'⟩ := origin u b member'
  rw [← nodes, ← nodes'] at addresses ⊢
  exact distinct e inside x inside' addresses

/-- Tables over the same schemas whose fingerprints are written alike resolve each reference alike:
both to one schema, or neither to any. -/
theorem resolve_eq_of_spell_eq {corpus : Corpus} (ordered : corpus.Ordered) (free : corpus.NulFree)
    {t u : Table} (built : t.Built corpus) (built' : u.Built corpus)
    (address : Option Location → Nat)
    (distinct : ∀ e ∈ t.entries, ∀ x ∈ u.entries, address e.node? = address x.node? →
      e.node? = x.node?)
    (equal : t.fingerprint.spell (fun node? => addressText (address node?)) = u.fingerprint.spell
      fun node? => addressText (address node?)) (key : String) :
    (t.resolve corpus key).map (·.1) = (u.resolve corpus key).map (·.1) := by
  have covered := built.over ordered
  have covered' := built'.over ordered
  have fingerprints := fingerprint_eq_of_spell_eq free covered covered' address distinct equal
  exact ((covered.legible free).agree (covered'.legible free) fingerprints).resolve key

def shelf : Corpus := #[.node { id := "a", defs? := some [("x", some (.node { ref := "#" }))] }]

theorem shelf_ordered : shelf.Ordered := .of_places (by decide +kernel)

theorem shelf_nulFree : shelf.NulFree := .of_places (by decide +kernel)

def entered : Table := (Table.ofDocuments shelf []).enter shelf ⟨0, []⟩

def moved : Table := entered.push (.resource "a" ⟨0, []⟩)

def shelfAddress : Option Location → Nat
  | none => 0
  | some location => location.steps.length + 1

/-- Two tables that differ and whose fingerprints are written alike. -/
theorem entered_moved_resolve :
    entered ≠ moved ∧ entered.fingerprint.spell (fun node? => addressText (shelfAddress node?)) =
      moved.fingerprint.spell (fun node? => addressText (shelfAddress node?)) ∧
      (entered.resolve shelf "x").map (·.1) = (moved.resolve shelf "x").map (·.1) := by
  have start : entered.Built shelf := .enter (.ofDocuments []) ⟨0, []⟩
  have found : entered.resolve shelf "a" = some (some ⟨0, []⟩, moved) := by decide
  refine ⟨by decide, by decide, ?_⟩
  exact resolve_eq_of_spell_eq shelf_ordered shelf_nulFree start (.resolve start found)
    shelfAddress (by decide)
    (by decide) "x"

end JsonShape.FingerprintText
