import JsonShape.Proofs.NormalForm

/-! Agreement of literals. Where a value has no moments and bytes, the literals that accept it
jointly mean the same; elsewhere they do if the shapes hold no two texts that differ. -/
namespace JsonShape
open List Entries

namespace Value

variable {test : List String → Bool}

theorem map_fst_plainEntries (entries : List (String × Value)) :
    (plainEntries entries).map (·.1) = entries.map (·.1) := by
  rw [plainEntries_eq, map_map]
  rfl

mutual
theorem everyMap_plain {v : Value} (every : v.everyMap test = true) : v.plain.everyMap test = true := by
  cases v with
  | ref target =>
    cases target with
    | none => rfl
    | some u => exact everyMap_plain (v := u) every
  | timeRef t => cases t <;> rfl
  | seq kind items =>
    have inside : everyMapItems test items = true := every
    exact everyMap_plainItems inside
  | map kind entries =>
    rw [plain]
    split_ifs with keyed
    · rw [everyMap, Bool.and_eq_true] at every ⊢
      exact ⟨(map_fst_plainEntries entries).symm ▸ every.1, everyMap_plainEntries every.2⟩
    · exact every
  | _ => rfl
termination_by structural v

theorem everyMap_plainItems {items : List Value} (every : everyMapItems test items = true) :
    everyMapItems test (plainItems items) = true := by
  cases items with
  | nil => rfl
  | cons v rest =>
    rw [everyMapItems, Bool.and_eq_true] at every
    rw [plainItems, everyMapItems, everyMap_plain (v := v) every.1, everyMap_plainItems every.2]
    rfl
termination_by structural items

theorem everyMap_plainEntries {entries : List (String × Value)}
    (every : everyMapEntries test entries = true) :
    everyMapEntries test (plainEntries entries) = true := by
  cases entries with
  | nil => rfl
  | cons e rest =>
    obtain ⟨key, v⟩ := e
    rw [everyMapEntries, Bool.and_eq_true] at every
    rw [plainEntries, everyMapEntries, everyMap_plain (v := v) every.1, everyMap_plainEntries every.2]
    rfl
termination_by structural entries
end

theorem Document.of_map {kind : MapKind} {entries : List (String × Value)}
    (document : (Value.map kind entries).Document) :
    Ascending entries ∧ ∀ e ∈ entries, e.2.Document := by
  cases document with
  | map ascending inside => exact ⟨ascending, inside⟩

theorem Document.of_seq {kind : SeqKind} {items : List Value}
    (document : (Value.seq kind items).Document) : ∀ x ∈ items, x.Document := by
  cases document with
  | seq inside => exact inside

theorem exists_entry_of_entriesEqual {entries others : List (String × Value)}
    (ascending : Ascending entries) (length : entries.length = others.length)
    (equal : entriesEqual entries others = .ok true) {e : String × Value} (member : e ∈ others) :
    ∃ a, (e.1, a) ∈ entries := by
  have distinct : (entries.map (·.1)).Nodup := pairwise_map.mpr (ascending.imp fun less => ne_of_lt less)
  have part : entries.map (·.1) ⊆ others.map (·.1) := by
    intro name inside
    obtain ⟨entry, listed, rfl⟩ := mem_map.mp inside
    obtain ⟨b, found, -⟩ := entriesEqual_iff.mp equal entry listed
    exact mem_map_of_mem (f := (·.1)) (mem_of_get?_eq_some found)
  have permuted := (distinct.subperm part).perm_of_length_le (by simp [length])
  obtain ⟨entry, listed, same⟩ := mem_map.mp (permuted.mem_iff.mpr (mem_map_of_mem (f := (·.1)) member))
  exact ⟨entry.2, same ▸ listed⟩

theorem Document.literalKind_ne {x : Value} (document : x.Document) : x.literalKind ≠ .any := by
  cases document <;> nofun

theorem literalEqual_cases {v x : Value} (document : x.Document)
    (equal : v.literalEqual x = .ok true) :
    v = x ∨ (∃ r, v.rational? = some r ∧ x.rational? = some r) ∨
      (∃ items others, v = seq .values items ∧ x = seq .values others ∧
      items.length = others.length ∧ itemsEqual items others = .ok true) ∨ ∃ entries others,
      v = map .values entries ∧ x = map .values others ∧ entries.length = others.length ∧
      entriesEqual entries others = .ok true := by
  cases read : v.rational? with
  | some r => exact .inr (.inl ⟨r, rfl, by simpa [literalEqual.eq_def v, read] using equal⟩)
  | none =>
    by_cases keyed : ∃ entries, v = map .values entries
    · obtain ⟨entries, rfl⟩ := keyed
      obtain ⟨others, rfl, both⟩ := literalEqual_map_iff.mp equal
      exact .inr (.inr (.inr ⟨entries, others, rfl, rfl, both⟩))
    by_cases listed : ∃ items, v = seq .values items
    · obtain ⟨items, rfl⟩ := listed
      obtain ⟨others, rfl, both⟩ := literalEqual_seq_iff.mp equal
      exact .inr (.inr (.inl ⟨items, others, rfl, rfl, both⟩))
    rw [literalEqual_eq_identical read (not_exists.mp keyed) (not_exists.mp listed)] at equal
    rcases (identical_cases equal).of_unread read with same | ⟨type, as, bs, rfl, rfl⟩
    · exact .inl same
    · cases document

theorem meaning_eq_of_literalEqual {v x y : Value} (ordered : v.ordered = true) (left : x.Document)
    (right : y.Document) (here : v.literalEqual x = .ok true)
    (there : v.literalEqual y = .ok true) : x.meaning = y.meaning := by
  induction size : v.size using Nat.strong_induction_on generalizing v x y with
  | _ n ih =>
    subst size
    rcases literalEqual_cases left here with rfl | ⟨r, read, read'⟩ |
      ⟨items, others, rfl, rfl, length, equal⟩ |
      ⟨entries, others, rfl, rfl, length, equal⟩
    · exact (literalEqual_decides left right).of_eq_ok_true there
    · have read'' : y.rational? = some r := by simpa [literalEqual.eq_def v, read] using there
      rw [(meaning_eq_number_iff left).mpr read', (meaning_eq_number_iff right).mpr read'']
    · obtain ⟨others', rfl, length', equal'⟩ := literalEqual_seq_iff.mp there
      have same : others.map meaning = others'.map meaning := by
        refine ext_getElem (by simp [← length, length']) fun i first second => ?_
        rw [length_map] at first second
        have third : i < items.length := length.symm ▸ first
        have member : items[i] ∈ items := getElem_mem third
        rw [getElem_map, getElem_map]
        exact ih items[i].size (size_lt_of_mem_items rfl member) (everyMap_of_mem_items ordered rfl member)
          (left.of_seq _ (getElem_mem first)) (right.of_seq _ (getElem_mem second))
          (literalEqual_of_itemsEqual equal (getElem?_eq_getElem third) (getElem?_eq_getElem first))
          (literalEqual_of_itemsEqual equal' (getElem?_eq_getElem third) (getElem?_eq_getElem second)) rfl
      simp only [meaning, itemMeanings_eq, same]
    · obtain ⟨others', rfl, length', equal'⟩ := literalEqual_map_iff.mp there
      obtain ⟨ascending, inside⟩ := left.of_map
      obtain ⟨ascending', inside'⟩ := right.of_map
      have sorted : Ascending entries := ascending_of_ordered ordered rfl
      have same : entryMeanings others = entryMeanings others' := by
        refine (entryMeanings_eq_iff ascending ascending').mpr
          ⟨length.symm.trans length', fun e member => ?_⟩
        obtain ⟨a, listed⟩ := exists_entry_of_entriesEqual sorted length equal member
        obtain ⟨b, found, first⟩ := entriesEqual_iff.mp equal _ listed
        obtain ⟨c, found', second⟩ := entriesEqual_iff.mp equal' _ listed
        obtain rfl : e.2 = b := Option.some.inj ((get?_eq_some_of_mem ascending member).symm.trans found)
        exact ⟨c, found', ih a.size (size_lt_of_mem_entries rfl listed)
          (everyMap_of_mem_entries ordered rfl listed) (inside e member)
          (inside' _ (mem_of_get?_eq_some found')) first second rfl⟩
      simp only [meaning, same]

end Value

namespace Shape

open Conformance

variable {g : Graph} {n : Nat} {v x : Value} {a b : Shape}

theorem kind_eq_of_fitsKind {k k' : Kind} (here : fitsKind v k = true)
    (there : fitsKind v k' = true) : k = k' := by
  cases v <;> cases k <;> first | (cases here; done) | (cases k' <;> first | rfl | cases there)

theorem kind_eq_of_inhabits (flat : a.isFlat = true) (flat' : b.isFlat = true) (proper : a ≠ any)
    (proper' : b ≠ any) (here : Inhabits g a v) (there : Inhabits g b v) : a.kind = b.kind :=
  kind_eq_of_fitsKind ((Inhabits.flat_iff flat proper).mp here)
    ((Inhabits.flat_iff flat' proper').mp there)

theorem literalKind_eq_of_leaf (document : x.Document) (flat : b.isFlat = true) (proper : b ≠ any)
    (here : Inhabits g (literal n x) v) (there : Inhabits g b v) : x.literalKind = b.kind := by
  have matched := Inhabits.literal_iff.mp here
  rw [Value.matchesLiteral_iff] at matched
  have same := Value.literalKind_eq_of_literalEqual matched
  have fits := (Inhabits.flat_iff flat proper).mp there
  have some := document.literalKind_ne
  rw [← same] at some ⊢
  generalize v.settle = w at fits some
  cases w with
  | time | bytes | namedBytes => exact absurd rfl some
  | timeRef | record | seq | map | ref =>
    generalize b.kind = k at fits
    cases k <;> cases fits
  | _ => exact kind_eq_of_fitsKind (by rfl) fits

theorem rich_proper {r : Shape} (rich : r.isRich = true) : r.isFlat = true ∧ r ≠ any := by
  cases r <;> cases rich <;> exact ⟨rfl, nofun⟩

theorem kind_eq_of_rich {r c : Shape} (rich : r.isRich = true) (here : Inhabits g r v)
    (normal : c.Normal) (single : c.isFlat = true ∨ c.kind = .literal) (there : Inhabits g c v) :
    c = any ∨ c.kind = r.kind := by
  obtain ⟨flat, proper⟩ := rich_proper rich
  by_cases free : c = any
  · exact .inl free
  rcases single with flat' | kind
  · exact .inr (kind_eq_of_inhabits flat' flat free proper there here)
  · obtain ⟨n, x, rfl⟩ := exists_of_kind_literal kind
    have same := literalKind_eq_of_leaf normal.of_literal flat proper there here
    cases r <;> cases rich <;> cases normal.of_literal <;> cases same

variable {s : Shape} {ts us cs : List Shape}

theorem Normal.of_mem_subshapes {t : Shape} (normal : s.Normal) (inside : t ∈ s.subshapes) : t.Normal := by
  induction s using pieces_induction with
  | step s ih =>
    rcases mem_subshapes_iff.mp inside with rfl | ⟨p, member, deeper⟩
    · exact normal
    · exact ih p member (normal.piece member) deeper

def Within (us ts : List Shape) : Prop := ∀ u ∈ us, ∃ t ∈ ts, u ∈ t.subshapes

theorem within_chosen (chosen : Forall₂ Choice ts cs) : Within cs ts := by
  intro c inside
  obtain ⟨t, member, choice⟩ := exists_left_of_mem chosen inside
  exact ⟨t, member, choice.mem_subshapes⟩

theorem within_filterMap {f : Shape → Option Shape} (inside : ∀ s t, f s = some t → t ∈ s.pieces)
    (ts : List Shape) : Within (ts.filterMap f) ts := by
  intro u member
  obtain ⟨t, member', found⟩ := mem_filterMap.mp member
  exact ⟨t, member', mem_subshapes_of_piece (inside t u found)⟩

/-- The texts among the literals in shapes mean the same. -/
def TextsAgree (ts : List Shape) : Prop :=
  ∀ s ∈ ts, ∀ t ∈ ts, ∀ {m n : Nat} {x y : Value}, literal m x ∈ s.subshapes →
  literal n y ∈ t.subshapes → x.literalKind = .string → y.literalKind = .string → x.meaning = y.meaning

theorem TextsAgree.mono (agree : TextsAgree ts) (within : Within us ts) : TextsAgree us := by
  intro s inside t inside' m n x y here there
  obtain ⟨s', member, outer⟩ := within s inside
  obtain ⟨t', member', outer'⟩ := within t inside'
  exact agree s' member t' member' (mem_subshapes_trans outer here) (mem_subshapes_trans outer' there)

theorem forall_normal_of_within (normal : ∀ t ∈ ts, t.Normal) (within : Within us ts) :
    ∀ u ∈ us, u.Normal := by
  intro u inside
  obtain ⟨t, member, outer⟩ := within u inside
  exact (normal t member).of_mem_subshapes outer

theorem Fit.agree (normal : ∀ c ∈ cs, c.Normal) (ordered : v.ordered = true)
    (settled : v.Coarse ∨ TextsAgree cs) (fit : Fit g False cs v) : Fit g True cs v := by
  refine ⟨fit.single, fit.fits, fun _ m n x y here there => ?_⟩
  have left := (normal _ here).of_literal
  have right := (normal _ there).of_literal
  -- beside a moment or bytes a literal stands only as a text that gives way
  have apart : ∀ {k : Nat} {z : Value}, literal k z ∈ cs →
      (∃ r ∈ cs, r.isRich = true ∧ Inhabits g r v) → ¬ Inhabits g (literal k z) v := by
    rintro k z inside ⟨r, -, rich, inhabits⟩ means
    rcases kind_eq_of_rich rich inhabits (normal _ inside) (.inr rfl) means with free | kind
    · cases free
    · cases r <;> cases rich <;> cases kind
  rcases fit.fits _ here, fit.fits _ there with ⟨means | ⟨text, found⟩, means' | ⟨text', found'⟩⟩
  · rw [Inhabits.literal_iff, Value.matchesLiteral_iff] at means means'
    exact Value.meaning_eq_of_literalEqual (Value.everyMap_plain (Value.everyMap_settle ordered))
      left right means means'
  · exact absurd means (apart here found')
  · exact absurd means' (apart there found)
  · rcases settled with coarse | agree
    · obtain ⟨r, -, rich, inhabits⟩ := found
      exact absurd inhabits (coarse.not_inhabits rich)
    · exact agree _ here _ there (mem_subshapes_self _) (mem_subshapes_self _)
        (by simpa [isText] using text) (by simpa [isText] using text')

theorem Joint.agree (normal : ∀ t ∈ ts, t.Normal) (ordered : v.ordered = true)
    (settled : v.Coarse ∨ TextsAgree ts) (joint : Joint g False ts v) : Joint g True ts v := by
  induction joint with
  | leaves chosen fit =>
    have within := within_chosen chosen
    exact .leaves chosen (fit.agree (forall_normal_of_within normal within) ordered
      (settled.imp_right fun agree => agree.mono within))
  | @lists ts cs v vs chosen single listed _ ih =>
    have within := within_chosen chosen
    have deeper : Within (cs.filterMap items?) cs := within_filterMap (fun _ _ => mem_pieces_of_items?) cs
    refine .lists chosen single listed fun x member => ?_
    refine ih x member (forall_normal_of_within (forall_normal_of_within normal within) deeper)
      (Value.everyMap_of_mem_items (Value.everyMap_settle ordered) listed member) ?_
    exact settled.imp (fun coarse => coarse.item listed member) fun agree =>
      (agree.mono within).mono deeper
  | @objects ts cs v entries chosen single keyed present _ ih =>
    have within := within_chosen chosen
    refine .objects chosen single keyed present fun e member => ?_
    have deeper : Within (cs.filterMap (entryAt? e.1)) cs :=
      within_filterMap (fun _ _ => mem_pieces_of_entryAt?) cs
    refine ih e member (forall_normal_of_within (forall_normal_of_within normal within) deeper)
      (Value.everyMap_of_mem_entries (Value.everyMap_settle ordered) keyed member) ?_
    exact settled.imp (fun coarse => coarse.entry keyed member) fun agree =>
      (agree.mono within).mono deeper

end Shape

end JsonShape
