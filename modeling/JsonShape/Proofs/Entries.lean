import JsonShape.Entries
import Mathlib.Data.String.Basic

/-! Laws of keyed entries: what look-up finds after an insertion, and that insertion keeps the
keys in ascending order. -/
namespace JsonShape.Entries
open List

variable {α : Type} {key : String} {a : α} {entries others start : List (String × α)} {entry : String × α}

def Ascending (entries : List (String × α)) : Prop := entries.Pairwise fun a b => a.1 < b.1

theorem get?_nil (key : String) : get? ([] : List (String × α)) key = none := rfl

theorem get?_cons (key k : String) (a : α) (rest : List (String × α)) :
    get? ((k, a) :: rest) key = if k = key then some a else get? rest key := by
  by_cases same : k = key
  · simp [get?, same]
  · simp [get?, same]

theorem get?_map {β : Type} (f : α → β) (entries : List (String × α)) (key : String) :
    get? (entries.map fun entry => (entry.1, f entry.2)) key = (get? entries key).map f := by
  induction entries with
  | nil => rfl
  | cons entry rest ih =>
    rw [map_cons, get?_cons, ih, get?_cons]
    split_ifs <;> rfl

theorem get?_insert (key k : String) (a : α) (entries : List (String × α)) :
    get? (insert key a entries) k = if key = k then some a else get? entries k := by
  induction entries with
  | nil => rw [insert, get?_cons]
  | cons entry rest ih =>
    obtain ⟨first, b⟩ := entry
    rw [insert]
    by_cases below : key < first
    · rw [if_pos below, get?_cons]
    · rw [if_neg below]
      by_cases same : key = first
      · subst first
        rw [if_pos (beq_self_eq_true key), get?_cons, get?_cons]
        split_ifs <;> rfl
      · rw [if_neg (by simpa using same), get?_cons, get?_cons, ih]
        split_ifs with here there
        · exact absurd (there.trans here.symm) same
        all_goals rfl

theorem get?_foldl_insert (key : String) (entries start : List (String × α)) :
    get? (entries.foldl (fun sorted (k, a) => insert k a sorted) start) key =
      ((entries.reverse.find? (·.1 == key)).map (·.2)).or (get? start key) := by
  induction entries generalizing start with
  | nil => simp
  | cons entry rest ih =>
    obtain ⟨k, a⟩ := entry
    rw [foldl_cons, ih, get?_insert, reverse_cons, find?_append]
    cases found : rest.reverse.find? (·.1 == key) with
    | some later => simp
    | none =>
      by_cases same : k = key
      · simp [same]
      · simp [same]

theorem get?_ofList (key : String) (entries : List (String × α)) :
    get? (ofList entries) key = (entries.reverse.find? (·.1 == key)).map (·.2) := by
  rw [ofList, get?_foldl_insert, get?_nil, Option.or_none]

theorem mem_insert (member : entry ∈ insert key a entries) : entry = (key, a) ∨ entry ∈ entries := by
  induction entries with
  | nil => simpa [insert] using member
  | cons first rest ih =>
    obtain ⟨k, b⟩ := first
    rw [insert] at member
    split_ifs at member with below same
    · simpa using member
    · rcases mem_cons.mp member with here | inside
      · exact .inl here
      · exact .inr (mem_cons_of_mem _ inside)
    · rcases mem_cons.mp member with here | inside
      · exact .inr (here ▸ mem_cons_self)
      · exact (ih inside).imp_right (mem_cons_of_mem _)

theorem Ascending.insert (ascending : Ascending entries) (key : String) (a : α) :
    Ascending (Entries.insert key a entries) := by
  induction entries with
  | nil => simp [Entries.insert, Ascending]
  | cons first rest ih =>
    obtain ⟨k, b⟩ := first
    obtain ⟨lower, tail⟩ := pairwise_cons.mp ascending
    rw [Entries.insert]
    split_ifs with below same
    · refine pairwise_cons.mpr ⟨?_, ascending⟩
      intro entry member
      rcases mem_cons.mp member with here | inside
      · exact here ▸ below
      · exact lt_trans below (lower entry inside)
    · have equal : key = k := beq_iff_eq.mp same
      exact pairwise_cons.mpr ⟨fun entry member => equal ▸ lower entry member, tail⟩
    · have above : k < key := lt_of_le_of_ne (not_lt.mp below) fun equal => same (by simp [equal])
      refine pairwise_cons.mpr ⟨?_, ih tail⟩
      intro entry member
      rcases mem_insert member with here | inside
      · exact here ▸ above
      · exact lower entry inside

theorem Ascending.foldl_insert (ascending : Ascending start) (entries : List (String × α)) :
    Ascending (entries.foldl (fun sorted (k, a) => Entries.insert k a sorted) start) := by
  induction entries generalizing start with
  | nil => exact ascending
  | cons entry rest ih => exact ih (ascending.insert entry.1 entry.2)

theorem ascending_ofList (entries : List (String × α)) : Ascending (ofList entries) :=
  Ascending.foldl_insert Pairwise.nil entries

theorem mem_foldl_insert
    (member : entry ∈ entries.foldl (fun sorted (k, a) => insert k a sorted) start) :
    entry ∈ entries ∨ entry ∈ start := by
  induction entries generalizing start with
  | nil => exact .inr member
  | cons first rest ih =>
    rcases ih member with later | earlier
    · exact .inl (mem_cons_of_mem _ later)
    · rcases mem_insert earlier with here | inside
      · exact .inl (here ▸ mem_cons_self)
      · exact .inr inside

theorem mem_of_mem_ofList (member : entry ∈ ofList entries) : entry ∈ entries := by
  rcases mem_foldl_insert member with inside | absurd
  · exact inside
  · cases absurd

theorem insert_last (a : α) (last : ∀ entry ∈ entries, entry.1 < key) :
    insert key a entries = entries ++ [(key, a)] := by
  induction entries with
  | nil => rfl
  | cons first rest ih =>
    obtain ⟨lower, later⟩ := forall_mem_cons.mp last
    rw [insert, if_neg (not_lt_of_gt lower), if_neg (by simpa using ne_of_gt lower), ih later, cons_append]

theorem foldl_insert_eq_append (ascending : Ascending (start ++ entries)) :
    entries.foldl (fun sorted (k, a) => insert k a sorted) start = start ++ entries := by
  induction entries generalizing start with
  | nil => simp
  | cons first rest ih =>
    obtain ⟨key, a⟩ := first
    have apart := (pairwise_append.mp ascending).2.2
    have last : insert key a start = start ++ [(key, a)] :=
      insert_last a fun entry member => apart entry member (key, a) mem_cons_self
    rw [append_cons] at ascending ⊢
    rw [← last] at ascending ⊢
    exact ih ascending

theorem get?_eq_some_of_mem (ascending : Ascending entries) (member : (key, a) ∈ entries) :
    get? entries key = some a := by
  induction entries with
  | nil => cases member
  | cons first rest ih =>
    obtain ⟨k, b⟩ := first
    obtain ⟨lower, tail⟩ := pairwise_cons.mp ascending
    rw [get?_cons]
    rcases mem_cons.mp member with here | inside
    · obtain ⟨rfl, rfl⟩ := Prod.mk.inj here
      exact if_pos rfl
    · rw [if_neg (ne_of_lt (lower _ inside)), ih tail inside]

theorem mem_of_get?_eq_some (found : get? entries key = some a) : (key, a) ∈ entries := by
  induction entries with
  | nil => cases found
  | cons first rest ih =>
    obtain ⟨k, b⟩ := first
    rw [get?_cons] at found
    split_ifs at found with same
    · subst k
      rw [Option.some.inj found]
      exact mem_cons_self
    · exact mem_cons_of_mem _ (ih found)

theorem Ascending.ext (ascending : Ascending entries) (ascending' : Ascending others)
    (same : ∀ key, get? entries key = get? others key) : entries = others := by
  have within : ∀ {first second : List (String × α)}, Ascending first →
      (∀ key, get? first key = get? second key) →
      first ⊆ second := by
    rintro first second sorted same ⟨key, a⟩ member
    exact mem_of_get?_eq_some ((same key).symm.trans (get?_eq_some_of_mem sorted member))
  have distinct : ∀ {first : List (String × α)}, Ascending first → first.Nodup :=
    fun sorted => sorted.imp fun below => ne_of_apply_ne Prod.fst (ne_of_lt below)
  have permuted : entries.Perm others :=
    (perm_ext_iff_of_nodup (distinct ascending) (distinct ascending')).mpr fun entry =>
      ⟨fun member => within ascending same member, fun member =>
        within ascending' (fun key => (same key).symm) member⟩
  exact permuted.eq_of_pairwise (fun a b _ _ below above => absurd below (lt_asymm above))
    ascending ascending'

end JsonShape.Entries
