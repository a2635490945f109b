import JsonShape.Proofs.Conversion
import JsonShape.Proofs.LeafText
import JsonShape.Proofs.Union
import Mathlib

/-! Decoding undoes encoding. Where no shape on the way is a union or an intersection, a value that
conforms has one wire form, which is read back as a value of the same shape. One induction on the
budget follows the check and both conversions. -/
namespace JsonShape.Wire
open Conformance Time Bytes List Entries Shape Value

variable {g : Graph} {n : Nat} {s items : Shape} {v : Value}

/-- What becomes of the leaves of a value: of moments, of calendar days and of bytes. -/
structure LeafMap where
  moment : Moment → Value
  day : Moment → Value
  bytes : List UInt8 → Value

def LeafMap.written : LeafMap :=
  ⟨fun t => .string t.toUtc.rfc3339, fun t => .string t.dateText, fun bs => .string (Base64.encode bs)⟩

/-- What is read back: the instant in universal time, the midnight of the day, the bytes. -/
def LeafMap.restored : LeafMap := ⟨fun t => .time t.toUtc, fun t => .time t.midnight, .bytes⟩

/-- A value becomes another one as its leaves do; what the shape does not speak of stays as it
is. -/
inductive Maps (leaf : LeafMap) (g : Graph) : Shape → Value → Value → Prop
  | moment {n : Nat} {format : String} {t : Moment} (timed : format ≠ "date") :
    Maps leaf g (.dateTime n format) (.time t) (leaf.moment t)
  | day {n : Nat} {t : Moment} : Maps leaf g (.dateTime n "date") (.time t) (leaf.day t)
  | binary {bs : List UInt8} : Maps leaf g .binary (.bytes bs) (leaf.bytes bs)
  | inert {s : Shape} {v : Value} (inert : isInert s = true) : Maps leaf g s v v
  | array {n : Nat} {items : Shape} {vs ws : List Value} (long : ws.length = vs.length)
    (each : ∀ e ∈ vs.zip ws, Maps leaf g items e.1 e.2) :
    Maps leaf g (.array n items) (.seq .values vs) (.seq .values ws)
  | object {n : Nat} {props : List (Property Shape)} {extra? : Option Shape}
      {entries entries' : List (String × Value)}
    (keys : entries'.map (·.1) = entries.map (·.1))
    (asked : ∀ e ∈ entries.zip entries', ∀ s, entryShape? props extra? e.1.1 = some s →
    Maps leaf g s e.1.2 e.2.2)
    (unasked : ∀ e ∈ entries.zip entries', entryShape? props extra? e.1.1 = none → e.2.2 = e.1.2) :
    Maps leaf g (.object n props extra?) (.map .values entries) (.map .values entries')
  | unbound {id : Nat} {v : Value} (free : g.target? id = none) : Maps leaf g (.handle id) v v
  | bound {id : Nat} {target : Shape} {v w : Value} (found : g.target? id = some target)
      (inner : Maps leaf g target v w) :
    Maps leaf g (.handle id) v w

inductive Covers (g : Graph) : Shape → Value → Shape → Value → Prop
  | here {s : Shape} {v : Value} : Covers g s v s v
  | item {n : Nat} {items t : Shape} {v x y : Value} {vs : List Value} (listed : v.items? = some vs)
      (member : x ∈ vs)
    (inner : Covers g items x t y) : Covers g (.array n items) v t y
  | entry {n : Nat} {props : List (Property Shape)} {extra? : Option Shape} {s t : Shape} {v x y : Value}
    {entries : List (String × Value)} {key : String} (keyed : v.entries? = some entries)
    (member : (key, x) ∈ entries)
    (asked : entryShape? props extra? key = some s) (inner : Covers g s x t y) :
    Covers g (.object n props extra?) v t y
  | bound {id : Nat} {target t : Shape} {v y : Value} (found : g.target? id = some target)
      (inner : Covers g target v t y) :
    Covers g (.handle id) v t y

/-- Whether the year of a moment has four digits where a format shows it: in its own zone for a day,
in universal time for an instant. -/
def writable (format : String) (t : Moment) : Bool :=
  let year := if format == "date" then t.clock.date.year else t.toUtc.clock.date.year
  0 ≤ year && year ≤ 9999

/-- Whether a shape is no union and no intersection, and names no property twice. -/
def isStraight : Shape → Bool
  | .union _ _ _ | .intersection _ _ => false
  | .object _ props _ => decide (props.map (·.name)).Nodup
  | _ => true

structure Trip (g : Graph) (budget : Nat) (opened : Opened) (s : Shape) (p : Path) (v w x : Value) :
    Prop where
  encodes : Yields (convert g .encode budget opened s v p) w
  decodes : Yields (convert g .decode budget opened s w p) x
  passes : check g budget opened s x p = .ok []
  encodesAgain : Yields (convert g .encode budget opened s x p) w
  written : Maps .written g s v w
  restored : Maps .restored g s v x
  size_written : w.size = v.size
  size_restored : x.size = v.size

variable {budget : Nat} {opened : Opened} {p : Path}

theorem trip_inert (inert : isInert s = true)
    (passes : check g (budget + 1) opened s v p = .ok []) :
    Trip g (budget + 1) opened s p v v v := by
  have still : ∀ direction, Yields (convert g direction (budget + 1) opened s v p) v := fun direction => by
    rw [convert_inert inert]
    exact .pure v
  exact ⟨still _, still _, passes, still _, .inert inert, .inert inert, rfl, rfl⟩

theorem trip_dateTime {format : String} {t : Moment} (fine : t.nano < 10 ^ 9)
    (written : writable format t = true) :
    ∃ w x, Trip g (budget + 1) opened (.dateTime n format) p (.time t) w x := by
  by_cases dated : format = "date"
  · subst dated
    obtain ⟨low, high⟩ : 0 ≤ t.clock.date.year ∧ t.clock.date.year ≤ 9999 := by
      simpa [writable] using written
    have read : Leaf.day.decode t.dateText = .ok (.time t.midnight) := by
      rw [Leaf.decode, ofDateText?_dateText low high]
    have again : t.midnight.dateText = t.dateText := by
      rw [Moment.dateText, date_midnight, Moment.dateText]
    refine ⟨.string t.dateText, .time t.midnight, fun _ => rfl, fun _ => ?_, rfl, fun _ => ?_,
      .day, .day, rfl, rfl⟩
    · rw [convert, convertTime]
      simp only [beq_self_eq_true, if_true, read]
      rfl
    · rw [← again]
      rfl
  · obtain ⟨low, high⟩ : 0 ≤ t.toUtc.clock.date.year ∧ t.toUtc.clock.date.year ≤ 9999 := by
      simpa [writable, dated] using written
    have timed : (format == "date") = false := by simpa using dated
    have read : Leaf.moment.decode t.toUtc.rfc3339 = .ok (.time t.toUtc) := by
      rw [Leaf.decode, ofRfc3339?_rfc3339 low high fine]
    refine ⟨.string t.toUtc.rfc3339, .time t.toUtc, fun _ => ?_, fun _ => ?_, rfl, fun _ => ?_,
      .moment dated, .moment dated, rfl, rfl⟩
    · rw [convert, convertTime]
      simp only [timed]
      rfl
    · rw [convert, convertTime]
      simp only [timed, Bool.false_eq_true, if_false, read]
      rfl
    · rw [convert, convertTime]
      simp only [timed]
      rfl

theorem trip_binary (bs : List UInt8) :
    Trip g (budget + 1) opened .binary p (.bytes bs) (.string (Base64.encode bs)) (.bytes bs) := by
  refine ⟨fun _ => rfl, fun _ => ?_, rfl, fun _ => rfl, .binary, .binary, rfl, rfl⟩
  have read : Leaf.base64.decode (Base64.encode bs) = .ok (.bytes bs) := by
    rw [Leaf.decode, Base64.decode?_encode]
  rw [convert, convertBytes]
  simp only [read]
  rfl

variable {props : List (Property Shape)} {extra? : Option Shape}
  {entries es ws : List (String × Value)} {vs : List Value}

theorem map_fst_eq (keys : Forall₂ (fun e w => w.1 = e.1) es ws) : ws.map (·.1) = es.map (·.1) := by
  induction keys with
  | nil => rfl
  | cons first _ ih => rw [map_cons, map_cons, first, ih]

theorem entriesSize_eq (sizes : Forall₂ (fun e w => w.2.size = e.2.size) es ws) :
    entriesSize ws = entriesSize es := by
  induction sizes with
  | nil => rfl
  | cons first _ ih => rw [entriesSize, entriesSize, first, ih]

theorem trip_items {k : Nat}
    (each : ∀ e ∈ vs.zipIdx k, ∃ w x, Trip g budget opened items (p.index e.2) e.1 w x) :
    ∃ ws xs, (ws.length = vs.length ∧ ∀ e ∈ vs.zip ws, Maps .written g items e.1 e.2) ∧
      (xs.length = vs.length ∧ ∀ e ∈ vs.zip xs, Maps .restored g items e.1 e.2) ∧
      Yields ((vs.zipIdx k).mapM fun e => convert g .encode budget opened items e.1 (p.index e.2))
      ws ∧ Yields ((ws.zipIdx k).mapM fun e =>
      convert g .decode budget opened items e.1 (p.index e.2)) xs ∧
      (∀ e ∈ xs.zipIdx k, check g budget opened items e.1 (p.index e.2) = .ok []) ∧
      Yields ((xs.zipIdx k).mapM fun e => convert g .encode budget opened items e.1 (p.index e.2))
      ws ∧ itemsSize ws = itemsSize vs ∧ itemsSize xs = itemsSize vs := by
  induction vs generalizing k with
  | nil =>
    exact ⟨[], [], ⟨rfl, nofun⟩, ⟨rfl, nofun⟩, .mapM_nil _, .mapM_nil _, nofun,
      .mapM_nil _, rfl, rfl⟩
  | cons v rest ih =>
    rw [zipIdx_cons] at each
    obtain ⟨w, x, trip⟩ := each (v, k) mem_cons_self
    obtain ⟨ws, xs, ⟨long, written⟩, ⟨long', restored⟩, encode, decode, passes, again, size, size'⟩ :=
      ih (forall_mem_cons.mp each).2
    refine ⟨w :: ws, x :: xs, ⟨by simp [long], ?_⟩, ⟨by simp [long'], ?_⟩, ?_, ?_, ?_, ?_, ?_, ?_⟩
    · exact forall_mem_cons.mpr ⟨trip.written, written⟩
    · exact forall_mem_cons.mpr ⟨trip.restored, restored⟩
    · exact .mapM_cons (by exact trip.encodes) encode
    · exact .mapM_cons (by exact trip.decodes) decode
    · exact forall_mem_cons.mpr ⟨trip.passes, passes⟩
    · exact .mapM_cons (by exact trip.encodesAgain) again
    · rw [itemsSize, itemsSize, trip.size_written, size]
    · rw [itemsSize, itemsSize, trip.size_restored, size']

theorem trip_array (each : ∀ e ∈ vs.zipIdx, ∃ w x, Trip g budget opened items (p.index e.2) e.1 w x) :
    ∃ w x, Trip g (budget + 1) opened (.array n items) p (.seq .values vs) w x := by
  obtain ⟨ws, xs, ⟨long, written⟩, ⟨long', restored⟩, encode, decode, passes, again, size, size'⟩ :=
    trip_items each
  have converts : ∀ {direction : Direction} {vs ws : List Value},
      Yields (vs.zipIdx.mapM fun e => convert g direction budget opened items e.1 (p.index e.2)) ws →
      Yields (convert g direction (budget + 1) opened (.array n items) (.seq .values vs) p)
      (.seq .values ws) := by
    intro direction vs ws each
    rw [convert_array rfl]
    exact each.bind (.pure _)
  exact ⟨.seq .values ws, .seq .values xs, converts encode, converts decode,
    (check_array_eq_nil_iff rfl).mpr ⟨xs, rfl, passes⟩,
    converts again, .array long written, .array long' restored, congrArg (· + 1) size,
    congrArg (· + 1) size'⟩

structure EntryTrip (g : Graph) (budget : Nat) (opened : Opened) (props : List (Property Shape))
    (extra? : Option Shape) (p : Path) (e w x : String × Value) : Prop where
  key_written : w.1 = e.1
  key_restored : x.1 = e.1
  encodes : Yields (convertEntry g .encode budget opened props extra? p e) w
  decodes : Yields (convertEntry g .decode budget opened props extra? p w) x
  passes : ∀ s, entryShape? props extra? x.1 = some s → check g budget opened s x.2 (p.field x.1) = .ok []
  encodesAgain : Yields (convertEntry g .encode budget opened props extra? p x) w
  written : ∀ s, entryShape? props extra? e.1 = some s → Maps .written g s e.2 w.2
  restored : ∀ s, entryShape? props extra? e.1 = some s → Maps .restored g s e.2 x.2
  kept : entryShape? props extra? e.1 = none → w.2 = e.2 ∧ x.2 = e.2
  size_written : w.2.size = e.2.size
  size_restored : x.2.size = e.2.size

theorem entryTrip {e : String × Value}
    (trip : ∀ s, entryShape? props extra? e.1 = some s →
      ∃ w x, Trip g budget opened s (p.field e.1) e.2 w x) :
    ∃ w x, EntryTrip g budget opened props extra? p e w x := by
  obtain ⟨key, v⟩ := e
  cases asked : entryShape? props extra? key with
  | none =>
    have still : ∀ direction,
        Yields (convertEntry g direction budget opened props extra? p (key, v)) (key, v) :=
        fun direction => by
      rw [convertEntry, asked]
      exact .pure _
    have unasked : ∀ {P : Shape → Prop} s, entryShape? props extra? key = some s → P s := fun s equal => by
      rw [asked] at equal
      cases equal
    exact ⟨(key, v), (key, v), rfl, rfl, still _, still _, unasked, still _, unasked,
      unasked, fun _ => ⟨rfl, rfl⟩, rfl, rfl⟩
  | some s =>
    obtain ⟨w, x, trip⟩ := trip s asked
    have only : ∀ {t}, entryShape? props extra? key = some t → s = t :=
      fun equal => Option.some.inj (asked.symm.trans equal)
    have converts : ∀ {direction : Direction} {v w : Value},
        Yields (convert g direction budget opened s v (p.field key)) w →
        Yields (convertEntry g direction budget opened props extra? p (key, v)) (key, w) := by
      intro direction v w converted
      rw [convertEntry, asked]
      exact converted.bind (.pure _)
    exact ⟨(key, w), (key, x), rfl, rfl, converts trip.encodes, converts trip.decodes,
      fun t equal => only equal ▸ trip.passes,
      converts trip.encodesAgain, fun t equal => only equal ▸ trip.written, fun t equal =>
      only equal ▸ trip.restored,
      fun equal => (nomatch asked.symm.trans equal), trip.size_written, trip.size_restored⟩

theorem trip_entries (each : ∀ e ∈ entries, ∃ w x, EntryTrip g budget opened props extra? p e w x) :
    ∃ ws xs : List (String × Value),
      Forall₂ (fun e w => ∃ x, EntryTrip g budget opened props extra? p e w x) entries ws ∧
      Forall₂ (fun e x => ∃ w, EntryTrip g budget opened props extra? p e w x) entries xs ∧
      Yields (entries.mapM (convertEntry g .encode budget opened props extra? p)) ws ∧
      Yields (ws.mapM (convertEntry g .decode budget opened props extra? p)) xs ∧
      Yields (xs.mapM (convertEntry g .encode budget opened props extra? p)) ws := by
  induction entries with
  | nil => exact ⟨[], [], .nil, .nil, .mapM_nil _, .mapM_nil _, .mapM_nil _⟩
  | cons e rest ih =>
    obtain ⟨w, x, trip⟩ := each e mem_cons_self
    obtain ⟨ws, xs, written, restored, encode, decode, again⟩ := ih (forall_mem_cons.mp each).2
    exact ⟨w :: ws, x :: xs, .cons ⟨x, trip⟩ written, .cons ⟨w, trip⟩ restored,
      trip.encodes.mapM_cons encode,
      trip.decodes.mapM_cons decode, trip.encodesAgain.mapM_cons again⟩

theorem trip_object (distinct : (props.map (·.name)).Nodup) (ascending : Ascending entries)
    (present : ∀ prop ∈ props, prop.optional = false → ∃ e ∈ entries, e.1 = prop.name)
    (each : ∀ e ∈ entries, ∀ s, entryShape? props extra? e.1 = some s →
      ∃ w x, Trip g budget opened s (p.field e.1) e.2 w x) :
    ∃ w x, Trip g (budget + 1) opened (.object n props extra?) p (.map .values entries) w x := by
  obtain ⟨ws, xs, written, restored, encode, decode, again⟩ :=
    trip_entries fun e member => entryTrip (each e member)
  have converts : ∀ {direction : Direction} {vs ws : List (String × Value)},
      Yields (vs.mapM (convertEntry g direction budget opened props extra? p)) ws →
      Yields (convert g direction (budget + 1) opened (.object n props extra?) (.map .values vs) p)
      (.map .values ws) := by
    intro direction vs ws each
    rw [convert_object rfl]
    exact each.bind (.pure _)
  have keys : ws.map (·.1) = entries.map (·.1) :=
    map_fst_eq (written.imp fun e w ⟨_, trip⟩ => trip.key_written)
  have keys' : xs.map (·.1) = entries.map (·.1) :=
    map_fst_eq (restored.imp fun e x ⟨_, trip⟩ => trip.key_restored)
  have size : entriesSize ws = entriesSize entries :=
    entriesSize_eq (written.imp fun e w ⟨_, trip⟩ => trip.size_written)
  have size' : entriesSize xs = entriesSize entries :=
    entriesSize_eq (restored.imp fun e x ⟨_, trip⟩ => trip.size_restored)
  have ascending' : Ascending xs := by
    have sorted := pairwise_map.mpr ascending
    rw [← keys'] at sorted
    exact pairwise_map.mp sorted
  have passes : check g (budget + 1) opened (.object n props extra?) (.map .values xs) p = .ok [] := by
    refine (check_object_eq_nil_iff distinct rfl ascending').mpr
      ⟨fun prop member required => ?_, fun x member => ?_⟩
    · obtain ⟨e, inside, named⟩ := present prop member required
      have listed : prop.name ∈ xs.map (·.1) := keys' ▸ mem_map.mpr ⟨e, inside, named⟩
      exact mem_map.mp listed
    · obtain ⟨e, -, w, trip⟩ := exists_left_of_mem restored member
      exact trip.passes
  refine ⟨.map .values ws, .map .values xs, converts encode, converts decode, passes,
    converts again, .object keys ?_ ?_,
    .object keys' ?_ ?_, congrArg (· + 1) size, congrArg (· + 1) size'⟩
  · exact fun e member => (forall₂_iff_zip.mp written).2 member |>.elim fun _ trip => trip.written
  · exact fun e member unasked => (forall₂_iff_zip.mp written).2 member |>.elim fun _ trip =>
      (trip.kept unasked).1
  · exact fun e member => (forall₂_iff_zip.mp restored).2 member |>.elim fun _ trip => trip.restored
  · exact fun e member unasked => (forall₂_iff_zip.mp restored).2 member |>.elim fun _ trip =>
      (trip.kept unasked).2

theorem trip_handle {id : Nat} (passes : check g (budget + 1) opened (.handle id) v p = .ok [])
    (inner : ∀ target, g.target? id = some target → check g budget ((id, p.pointer) :: opened)
      target v p = .ok [] → ∃ w x, Trip g budget ((id, p.pointer) :: opened) target p v w x) :
    ∃ w x, Trip g (budget + 1) opened (.handle id) p v w x := by
  have fresh := not_contains_of_check passes
  cases found : g.target? id with
  | none =>
    have still : ∀ direction, Yields (convert g direction (budget + 1) opened (.handle id) v p) v :=
      fun direction => by
      rw [convert_unbound found]
      exact .pure v
    exact ⟨v, v, still _, still _, passes, still _, .unbound found, .unbound found, rfl, rfl⟩
  | some target =>
    rw [check_bound fresh found] at passes
    obtain ⟨w, x, trip⟩ := inner target found passes
    have converts : ∀ {direction : Direction} {v w : Value},
        Yields (convert g direction budget ((id, p.pointer) :: opened) target v p) w →
        Yields (convert g direction (budget + 1) opened (.handle id) v p) w := by
      intro direction v w converted
      rwa [convert_bound fresh found]
    exact ⟨w, x, converts trip.encodes, converts trip.decodes, (check_bound fresh found).trans trip.passes,
      converts trip.encodesAgain, .bound found trip.written, .bound found trip.restored,
      trip.size_written, trip.size_restored⟩

theorem exists_trip (straight : ∀ t, g.Reaches s t → isStraight t = true) (rich : v.Rich)
    (dated : ∀ n format t, Covers g s v (.dateTime n format) (.time t) → writable format t = true)
    (passes : check g budget opened s v p = .ok []) : ∃ w x, Trip g budget opened s p v w x := by
  induction budget generalizing opened s v p with
  | zero => cases passes
  | succ budget ih =>
    cases s with
    | any | never | null | boolean | number | string | literal => exact ⟨v, v, trip_inert rfl passes⟩
    | dateTime n format =>
      cases rich with
      | time fine => exact trip_dateTime fine (dated n format _ .here)
      | _ => cases passes
    | binary =>
      cases rich with
      | bytes bs => exact ⟨_, _, trip_binary bs⟩
      | _ => cases passes
    | array n items =>
      obtain ⟨vs, listed, each⟩ := (check_array_eq_nil_iff rich.settle_eq).mp passes
      obtain ⟨rfl, parts⟩ := rich.of_items listed
      apply trip_array
      intro e member
      have inside := fst_mem_of_mem_zipIdx member
      exact ih (fun t reached => straight t (reached.of_piece (mem_singleton.mpr rfl))) (parts e.1 inside)
        (fun n format t covers => dated n format t (.item rfl inside covers)) (each e member)
    | object n props extra? =>
      have distinct : (props.map (·.name)).Nodup := of_decide_eq_true (straight _ .self)
      cases rich with
      | map ascending parts =>
        obtain ⟨present, each⟩ := (check_object_eq_nil_iff distinct rfl ascending).mp passes
        apply trip_object distinct ascending present
        intro e member s asked
        exact ih (fun t reached => straight t (reached.of_piece (entryShape?_mem_pieces asked)))
          (parts e member)
          (fun n format t covers => dated n format t (.entry rfl member asked covers))
          (each e member s asked)
      | _ => cases passes
    | union n inclusive members => cases straight _ .self
    | intersection n members => cases straight _ .self
    | handle id =>
      exact trip_handle passes fun target found passes =>
        ih (fun t reached => straight t (reached.of_target found)) rich
        (fun n format t covers => dated n format t (.bound found covers)) passes

theorem Covers.closed {inside : List Value} {t : Shape} {y : Value}
    (items : ∀ v ∈ inside, ∀ vs, v.items? = some vs → vs ⊆ inside)
    (entries : ∀ v ∈ inside, ∀ es, v.entries? = some es → es.map (·.2) ⊆ inside)
    (covers : Covers g s v t y) (own : v ∈ inside) : y ∈ inside := by
  induction covers with
  | here => exact own
  | item listed member _ ih => exact ih (items _ own _ listed member)
  | entry keyed member _ _ ih => exact ih (entries _ own _ keyed (mem_map.mpr ⟨_, member, rfl⟩))
  | bound _ _ ih => exact ih own

/-- Every value that conforms to a shape without unions and intersections is encoded, and its wire
form is decoded to a value that conforms and has the same wire form. -/
theorem decode_encode (g : Graph) (s : Shape) (v : Value)
    (straight : ∀ t, g.Reaches s t → isStraight t = true) (rich : v.Rich)
    (dated : ∀ n format t, Covers g s v (.dateTime n format) (.time t) → writable format t = true)
    (conforms : conforms g s v = .ok true) :
    ∃ w x, encode g s v = .ok (.ok w) ∧ Maps .written g s v w ∧ decode g s w = .ok (.ok x) ∧
      Maps .restored g s v x ∧ Conformance.conforms g s x = .ok true ∧
      encode g s x = .ok (.ok w) := by
  obtain ⟨w, x, trip⟩ := exists_trip straight rich dated (issues_of_conforms conforms)
  have written : checkBudget g s w = checkBudget g s v := by
    rw [checkBudget, trip.size_written, checkBudget]
  have restored : checkBudget g s x = checkBudget g s v := by
    rw [checkBudget, trip.size_restored, checkBudget]
  have passes : issues g s x = .ok [] := by rw [issues, restored, trip.passes]
  refine ⟨w, x, run_eq_ok_iff.mpr trip.encodes, trip.written, run_eq_ok_iff.mpr ?_,
    trip.restored, ?_, run_eq_ok_iff.mpr ?_⟩
  · rw [written]
    exact trip.decodes
  · rw [Conformance.conforms, passes]
    rfl
  · rw [restored]
    exact trip.encodesAgain

def page : Shape :=
  .object 0 [⟨"at", .dateTime 1 "date-time", false, none⟩, ⟨"day", .dateTime 2 "date", true, none⟩,
    ⟨"next", .handle 0, true, none⟩,
    ⟨"seal", .binary, true, none⟩] none

def pages : Graph := ⟨#[⟨"Page", "", some page⟩], 3⟩

def newYear : Moment := ⟨63866100600, 120000000, .fixed 3600⟩

def twoPages : Value :=
  .map .values [("at", .time newYear), ("day", .time newYear),
    ("next", .map .values [("at", .time newYear), ("note", .time newYear), ("seal", .bytes [255, 0])])]

theorem twoPages_restored : conforms pages (.handle 0) twoPages = .ok true ∧
    ∃ w x, encode pages (.handle 0) twoPages = .ok (.ok w) ∧ Maps .written pages (.handle 0) twoPages w ∧
      decode pages (.handle 0) w = .ok (.ok x) ∧ Maps .restored pages (.handle 0) twoPages x ∧
      conforms pages (.handle 0) x = .ok true ∧ encode pages (.handle 0) x = .ok (.ok w) := by
  have straight : ∀ t ∈ (handle 0).subshapes ++ graphShapes pages, isStraight t = true := by decide +kernel
  have fine : newYear.nano < 10 ^ 9 := by decide
  have rich : twoPages.Rich := by
    refine .map (by unfold Ascending; decide) ?_
    simp only [forall_mem_cons]
    refine ⟨.time fine, .time fine, .map (by unfold Ascending; decide) ?_, (by rintro _ ⟨⟩)⟩
    simp only [forall_mem_cons]
    exact ⟨.time fine, .time fine, .bytes _, (by rintro _ ⟨⟩)⟩
  have dated : ∀ n format t, Covers pages (.handle 0) twoPages (.dateTime n format) (.time t) →
      writable format t = true := by
    intro n format t covers
    have listed : .time t ∈
        [twoPages, .time newYear, .map .values [("at", .time newYear), ("note", .time newYear),
        ("seal", .bytes [255, 0])], .bytes [255, 0]] :=
      covers.closed (by simp [twoPages, Value.items?])
        (by simp [twoPages, Value.entries?, MapKind.isKeyedByText]) (by simp)
    obtain rfl : t = newYear := by simpa [twoPages] using listed
    by_cases day : format = "date"
    · subst day
      decide
    · have own : (0 ≤ newYear.toUtc.clock.date.year && newYear.toUtc.clock.date.year ≤ 9999) =
          true := by decide
      simpa [writable, day] using own
  have passes : conforms pages (.handle 0) twoPages = .ok true := by cbv
  exact ⟨passes, decode_encode pages _ _ (fun t reached => straight t reached.mem_shapes)
    rich dated passes⟩

end JsonShape.Wire
