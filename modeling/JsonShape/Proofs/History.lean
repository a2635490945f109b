import JsonShape.Proofs.Scoping
import Mathlib.Data.List.Dedup

/-! Tables and their histories. A history has every entry that was ever put into a table, and the
table is what is left of it when each entry stays only where it was put last. No look-up tells the
two apart. -/
namespace JsonShape
open List Entries

variable {α : Type}

theorem dedup_append_singleton [DecidableEq α] (l : List α) (a : α) :
    (l ++ [a]).dedup = l.dedup.filter (· != a) ++ [a] := by
  induction l with
  | nil => simp
  | cons b rest ih =>
    rw [cons_append]
    by_cases later : b ∈ rest
    · rw [dedup_cons_of_mem (mem_append_left _ later), dedup_cons_of_mem later, ih]
    · by_cases same : b = a
      · have again : b ∈ rest ++ [a] := mem_append_right _ (mem_singleton.mpr same)
        rw [dedup_cons_of_mem again, dedup_cons_of_notMem later, ih]
        simp [same]
      · have fresh : b ∉ rest ++ [a] := by simp [later, same]
        rw [dedup_cons_of_notMem fresh, dedup_cons_of_notMem later, ih]
        simp [same]

theorem dedup_append_dedup [DecidableEq α] (l m : List α) : (l ++ m.dedup).dedup = (l ++ m).dedup := by
  rw [dedup_append, dedup_idem, dedup_append]

theorem dedup_dedup_append [DecidableEq α] (l m : List α) : (l.dedup ++ m).dedup = (l ++ m).dedup := by
  induction m using reverseRecOn with
  | nil => rw [append_nil, append_nil, dedup_idem]
  | append_singleton rest a ih =>
    rw [← append_assoc, ← append_assoc, dedup_append_singleton, ih, dedup_append_singleton]

namespace Table

variable {corpus : Corpus} {t u l : Table}

def note (t : Table) (e : Entry) : Table := ⟨t.entries ++ [e]⟩

def target? (corpus : Corpus) (t : Table) (key : String) : Option (Option Location × Option Entry) :=
  let (base, fragment?) := Text.cut '#' key.toList
  let base := String.ofList base
  match fragment? with
  | none =>
    if base == "" then t.resource?.map fun r => (r.node?, none)
    else
      match t.resourceById? base with
      | some r => some (r.node?, some r)
      | none => (t.anyDefinition? base).map fun d => (d.node?, t.resourceById? d.id)
  | some fragment => do
    let r ← if base == "" then t.resource? else t.resourceById? base
    let node? ← t.fragment? corpus r fragment
    some (node?, some r)

def resolveBy (put : Table → Entry → Table) (corpus : Corpus) (t : Table) (key : String) :
    Option (Option Location × Table) :=
  (t.target? corpus key).map fun (node?, r?) => (node?, r?.elim t (put t))

def enterBy (put : Table → Entry → Table) (corpus : Corpus) (t : Table) (location : Location) : Table :=
  match corpus.get? location with
  | some s => (additions s.keywords location t.scope).foldl put t
  | none => t

theorem resolve_eq_resolveBy (corpus : Corpus) (t : Table) (key : String) :
    t.resolve corpus key = t.resolveBy push corpus key := by
  have promoted (id : String) : t.promote id = (t.resourceById? id).elim t t.push := by
    unfold promote
    cases t.resourceById? id with
    | none => rfl
    | some r => rfl
  unfold resolveBy target? resolve
  dsimp only
  cases (Text.cut '#' key.toList).2 with
  | none =>
    dsimp only
    split_ifs
    · rw [Option.map_map]
      rfl
    · cases t.resourceById? _ with
      | some r => rfl
      | none =>
        rw [Option.map_map]
        simp only [promoted]
        rfl
  | some fragment =>
    have within (r : Entry) : ((t.fragment? corpus r fragment).bind fun node? => some (node?, t.push r)) =
        ((t.fragment? corpus r fragment).bind fun node? => some (node?, some r)).map
          fun (node?, r?) => (node?, r?.elim t t.push) := by
      cases t.fragment? corpus r fragment with
      | none => rfl
      | some node? => rfl
    dsimp only
    split_ifs
    · cases t.resource? with
      | none => rfl
      | some r => exact within r
    · cases t.resourceById? _ with
      | none => rfl
      | some r => exact within r

theorem enter_eq_enterBy (corpus : Corpus) (t : Table) (location : Location) :
    t.enter corpus location = t.enterBy push corpus location := by
  unfold enter enterBy
  cases corpus.get? location with
  | none => rfl
  | some s => exact enterSchema_eq t s.keywords location t.scope

/-- A table that has each entry of a history once, where it was put last. -/
def Condenses (t l : Table) : Prop := t.entries = l.entries.dedup

theorem condenses_self (distinct : t.entries.Nodup) : t.Condenses t := distinct.dedup.symm

theorem eq_of_entries (same : t.entries = u.entries) : t = u := by
  obtain ⟨entries⟩ := t
  exact congrArg mk same

/-- A way to put entries innermost that a table cannot tell from appending. -/
def Records (put : Table → Entry → Table) : Prop :=
  ∀ (t l : Table) (e : Entry), t.Condenses l → (t.push e).Condenses (put l e)

theorem records_note : Records note := by
  intro t l e condenses
  unfold Condenses note
  rw [dedup_append_singleton, ← condenses]
  rfl

theorem records_push : Records push := by
  intro t l e condenses
  have kept : (l.entries.filter (· != e)).dedup = l.entries.dedup.filter (· != e) := by
    generalize l.entries = entries
    induction entries with
    | nil => rfl
    | cons x rest ih =>
      by_cases same : x = e
      · by_cases later : x ∈ rest
        · simp [same ▸ later, same, ih]
        · simp [same ▸ later, same, ih]
      · by_cases later : x ∈ rest
        · simp [later, same, ih]
        · simp [later, same, ih]
  unfold Condenses push
  rw [dedup_append_singleton, kept, ← condenses, filter_filter]
  simp

namespace Condenses

variable {put : Table → Entry → Table}

theorem foldl (records : Records put) (condenses : t.Condenses l) (added : List Entry) :
    (added.foldl push t).Condenses (added.foldl put l) := by
  induction added generalizing t l with
  | nil => exact condenses
  | cons e rest ih => exact ih (records t l e condenses)

theorem innermost? (condenses : t.Condenses l) (test : Entry → Bool) :
    t.innermost? test = l.innermost? test := by
  obtain ⟨entries⟩ := l
  induction entries using reverseRecOn generalizing t with
  | nil =>
    obtain rfl : t = ⟨[]⟩ := eq_of_entries condenses
    rfl
  | append_singleton rest e ih =>
    have last : t = push ⟨rest.dedup⟩ e :=
      eq_of_entries (condenses.trans (records_note _ ⟨rest⟩ e rfl).symm)
    have before : innermost? ⟨rest.dedup⟩ test = innermost? ⟨rest⟩ test := ih rfl
    rw [last, innermost?_push, before]
    simp only [Table.innermost?, reverse_append, reverse_cons, reverse_nil, nil_append, singleton_append,
      find?_cons]
    cases test e with
    | true => rfl
    | false => rfl

theorem fingerprint (condenses : t.Condenses l) : t.fingerprint = l.fingerprint := by
  apply (ascending_ofList _).ext (ascending_ofList _)
  intro key
  change get? t.fingerprint key = get? l.fingerprint key
  have read : ∀ v : Table,
      get? v.fingerprint key = (v.innermost? fun x => decide (key ∈ x.keys)).map (·.node?) :=
    fun v => get?_fingerprint fun x _ => by simp
  rw [read, read, condenses.innermost?]

theorem target? (condenses : t.Condenses l) (key : String) :
    t.target? corpus key = l.target? corpus key := by
  simp only [Table.target?, fragment?, pointedDefinition?, resource?, resourceById?,
    definition?, anyDefinition?,
    condenses.innermost?]

theorem resolveBy (records : Records put) (condenses : t.Condenses l) (key : String) :
    Option.Rel (fun a b => a.1 = b.1 ∧ a.2.Condenses b.2) (t.resolve corpus key)
      (l.resolveBy put corpus key) := by
  rw [resolve_eq_resolveBy, Table.resolveBy, Table.resolveBy, condenses.target?]
  cases l.target? corpus key with
  | none => exact .none
  | some found =>
    obtain ⟨node?, r?⟩ := found
    refine .some ⟨rfl, ?_⟩
    cases r? with
    | none => exact condenses
    | some r => exact records t l r condenses

theorem enterBy (records : Records put) (condenses : t.Condenses l) (location : Location) :
    (t.enter corpus location).Condenses (l.enterBy put corpus location) := by
  have scopes : t.scope = l.scope := by simp only [scope, resource?, condenses.innermost?]
  rw [enter_eq_enterBy, Table.enterBy, Table.enterBy, scopes]
  cases corpus.get? location with
  | none => exact condenses
  | some s => exact condenses.foldl records _

end Condenses

/-- What is done with a table: an entry is put into it, a schema is entered, or a reference is
followed. -/
inductive Move
  | put (e : Entry)
  | enter (location : Location)
  | follow (key : String)

def move (corpus : Corpus) (t : Table) : Move → Table
  | .put e => t.push e
  | .enter location => t.enter corpus location
  | .follow key => (t.resolve corpus key).elim t (·.2)

def extend (corpus : Corpus) (l : Table) : Move → Table
  | .put e => l.note e
  | .enter location => l.enterBy note corpus location
  | .follow key => (l.resolveBy note corpus key).elim l (·.2)

theorem Condenses.move (condenses : t.Condenses l) (m : Move) :
    (t.move corpus m).Condenses (l.extend corpus m) := by
  cases m with
  | put e => exact records_note t l e condenses
  | enter location => exact condenses.enterBy records_note location
  | follow key =>
    have ends : Option.Rel _ (t.resolve corpus key) (l.resolveBy note corpus key) :=
      condenses.resolveBy records_note key
    simp only [Table.move, extend]
    generalize t.resolve corpus key = found, l.resolveBy note corpus key = noted at ends
    cases ends with
    | none => exact condenses
    | some related => exact related.2

theorem Condenses.moves (condenses : t.Condenses l) (moves : List Move) :
    (moves.foldl (Table.move corpus) t).Condenses (moves.foldl (extend corpus) l) := by
  induction moves generalizing t l with
  | nil => exact condenses
  | cons m rest ih => exact ih (condenses.move m)

/-- A table and its history cannot be told apart: after any moves they have one fingerprint, and a
reference leads to the same schema from both, whether the history goes on as a history or as a
table. -/
theorem move_refines_extend (corpus : Corpus) (moves : List Move) :
    let t := moves.foldl (move corpus) empty
    let l := moves.foldl (extend corpus) empty
    t.Condenses l ∧ t.fingerprint = l.fingerprint ∧ ∀ key,
      Option.Rel (fun a b => a.1 = b.1 ∧ a.2.Condenses b.2) (t.resolve corpus key)
      (l.resolveBy note corpus key) ∧
      Option.Rel (fun a b => a.1 = b.1 ∧ a.2.Condenses b.2) (t.resolve corpus key)
      (l.resolve corpus key) := by
  intro t l
  have condenses : t.Condenses l := Condenses.moves (condenses_self nodup_nil) moves
  refine ⟨condenses, condenses.fingerprint, fun key => ⟨condenses.resolveBy records_note key, ?_⟩⟩
  rw [resolve_eq_resolveBy corpus l]
  exact condenses.resolveBy records_push key

theorem nodup_push (distinct : t.entries.Nodup) (e : Entry) : (t.push e).entries.Nodup := by
  refine nodup_append.mpr ⟨distinct.filter _, nodup_cons.mpr ⟨not_mem_nil, nodup_nil⟩, ?_⟩
  intro x member y last
  rw [mem_singleton.mp last]
  simpa using (mem_filter.mp member).2

theorem nodup_foldl_push {added : List Entry} (distinct : t.entries.Nodup) :
    (added.foldl push t).entries.Nodup := by
  induction added generalizing t with
  | nil => exact distinct
  | cons e rest ih => exact ih (nodup_push distinct e)

theorem Built.nodup (built : Built corpus t) : t.entries.Nodup := by
  induction built with
  | ofDocuments documents =>
    apply ofDocuments_induction (P := fun t => t.entries.Nodup)
    · exact nodup_nil
    · intro t location s _ distinct
      rw [enterSchema_eq]
      exact nodup_foldl_push (nodup_push distinct _)
  | append _ _ first _ => exact nodup_foldl_push first
  | @enter t _ location distinct =>
    unfold Table.enter
    cases corpus.get? location with
    | none => exact distinct
    | some s =>
      dsimp only
      rw [enterSchema_eq]
      exact nodup_foldl_push distinct
  | resolve _ found distinct =>
    rcases resolve_table found with rfl | ⟨r, -, -, rfl⟩
    · exact distinct
    · exact nodup_push distinct r

theorem foldl_push_entries (distinct : t.entries.Nodup) (added : List Entry) :
    (added.foldl push t).entries = (t.entries ++ added).dedup := by
  have noted : ∀ l : Table, (added.foldl note l).entries = l.entries ++ added := by
    induction added with
    | nil => exact fun l => (append_nil _).symm
    | cons e rest ih => exact fun l => (ih (l.note e)).trans (append_assoc _ _ _)
  exact ((condenses_self distinct).foldl records_note added).trans (congrArg dedup (noted t))

theorem foldl_push_twice (distinct : t.entries.Nodup) (added : List Entry) :
    added.foldl push (added.foldl push t) = added.foldl push t := by
  have twice : (t.entries ++ (added ++ added)).dedup = (t.entries ++ added).dedup := by
    rw [← dedup_append_dedup, Subset.dedup_append_right (Subset.refl added), dedup_append_dedup]
  apply eq_of_entries
  rw [foldl_push_entries (nodup_foldl_push distinct), foldl_push_entries distinct,
    dedup_dedup_append, append_assoc, twice]

theorem append_assoc (first : t.entries.Nodup) (second : u.entries.Nodup) (w : Table) :
    (t.append u).append w = t.append (u.append w) := by
  apply eq_of_entries
  unfold append
  rw [← foldl_append, foldl_push_entries first, foldl_push_entries first, foldl_push_entries second,
    dedup_append_dedup]

theorem append_self (distinct : t.entries.Nodup) : t.append t = t := by
  apply eq_of_entries
  unfold append
  rw [foldl_push_entries distinct, Subset.dedup_append_right (Subset.refl _), distinct.dedup]

theorem empty_append (distinct : t.entries.Nodup) : empty.append t = t := by
  apply eq_of_entries
  have collected : (empty.append t).entries = ([] ++ t.entries).dedup :=
    foldl_push_entries nodup_nil t.entries
  rw [collected, nil_append, distinct.dedup]

theorem additions_enter {location : Location} {s : Schema}
    (present : corpus.get? location = some s) :
    additions s.keywords location (t.enter corpus location).scope = additions s.keywords
      location t.scope := by
  unfold additions
  split_ifs with unnamed
  · have unmoved : (t.enter corpus location).scope = t.scope := by
      simp only [enter, present, scope, resource?_enterSchema, if_pos unnamed]
    rw [unmoved]
  · rfl

theorem enter_enter (distinct : t.entries.Nodup) (location : Location) :
    (t.enter corpus location).enter corpus location = t.enter corpus location := by
  cases present : corpus.get? location with
  | none => simp only [enter, present]
  | some s =>
    have again := additions_enter (t := t) present
    simp only [enter_eq_enterBy, enterBy, present] at again ⊢
    rw [again, foldl_push_twice distinct]

/-- Tables are an idempotent monoid, and to enter a schema twice is to enter it once. -/
theorem append_idempotent_monoid {corpus : Corpus} {t u w : Table} (first : t.Built corpus)
    (second : u.Built corpus) (location : Location) :
    (t.append u).append w = t.append (u.append w) ∧ t.append t = t ∧ empty.append t = t ∧
      t.append empty = t ∧ t.entries.Nodup ∧ (t.enter corpus location).enter corpus location =
      t.enter corpus location :=
  ⟨append_assoc first.nodup second.nodup w, append_self first.nodup, empty_append first.nodup,
    rfl, first.nodup,
    enter_enter first.nodup location⟩

theorem append_idempotent_monoid_lender :
    let corpus : Corpus := #[Derivation.borrower, Derivation.lender]
    let t := ofDocuments corpus [1]
    let u := t.enter corpus ⟨0, []⟩
    t.entries ≠ [] ∧ (t.append u).append t = t.append (u.append t) ∧ t.append t = t := by
  intro corpus t u
  have built : t.Built corpus := .ofDocuments [1]
  have monoid := append_idempotent_monoid (w := t) built (built.enter ⟨0, []⟩) ⟨1, []⟩
  exact ⟨by decide +kernel, monoid.1, monoid.2.1⟩

end Table

end JsonShape
