import JsonShape.Proofs.Recollection

/-! Strictness. A strict derivation and a lax one go side by side and differ only in what they tell:
where the lax one warns, the strict one has an issue at the same path. -/
namespace JsonShape
open List

namespace Text.Quoted

theorem quote_not_mem_hex (width n : Nat) : '\"' ∉ hex width n := by
  have digit : ∀ m < 16, hexDigit m ≠ '\"' := by decide
  induction width generalizing n with
  | zero => exact not_mem_nil
  | succ width ih =>
    rw [hex, mem_append, mem_singleton]
    rintro (before | last)
    · exact ih _ before
    · exact digit _ (Nat.mod_lt n (by decide)) last.symm

theorem shortName?_ne_quote {n : Nat} {c : Char} (found : shortName? n = some c) : c ≠ '\"' := by
  unfold shortName? at found
  split_ifs at found <;> cases found <;> decide

theorem escapeChar_eq_cons (c : Char) :
    ∃ d more, escapeChar c = d :: more ∧ d ≠ '\"' ∧ (d = '\\' ∧ more = ['\"'] ∨ '\"' ∉ more) := by
  unfold escapeChar
  by_cases mark : c = '\"'
  · exact ⟨'\\', ['\"'], by rw [mark]; rfl, by decide, .inl ⟨rfl, rfl⟩⟩
  by_cases slash : c = '\\'
  · exact ⟨'\\', ['\\'], by rw [slash]; rfl, by decide, .inr (by decide)⟩
  dsimp only
  rw [if_neg (by simp [mark, slash])]
  split_ifs with graphic
  · exact ⟨c, [], rfl, mark, .inr not_mem_nil⟩
  all_goals
    cases short : shortName? c.toNat with
    | some name =>
      exact ⟨'\\', [name],
        rfl, by decide, .inr fun listed => shortName?_ne_quote short (mem_singleton.mp listed).symm⟩
    | none => exact ⟨'\\', _, rfl, by decide, .inr (by simp [quote_not_mem_hex])⟩

theorem written_head {cs rest : List Char}
    (starts : cs.flatMap escapeChar ++ ['\"'] = '\"' :: rest) : rest = [] := by
  cases cs with
  | nil => exact (cons.inj starts).2.symm
  | cons c cs =>
    obtain ⟨d, more, written, other, -⟩ := escapeChar_eq_cons c
    rw [flatMap_cons, written] at starts
    exact absurd (cons.inj starts).1 other

theorem written_inside (cs before : List Char) (c : Char) (rest : List Char) :
    cs.flatMap escapeChar ++ ['\"'] ≠ before ++ ' ' :: '\"' :: c :: rest := by
  intro equal
  induction cs generalizing before with
  | nil =>
    have lengths := congrArg length equal
    simp at lengths
    omega
  | cons x cs ih =>
    rw [flatMap_cons, append_assoc] at equal
    rcases append_eq_append_iff.mp equal with ⟨more, rfl, later⟩ | ⟨more, written, later⟩
    · exact ih more later
    · -- the space stands in the written form of the first character, or right behind it
      rcases more with _ | ⟨d, _ | ⟨e, more⟩⟩
      · exact ih [] later.symm
      · exact absurd (written_head (cons.inj later).2.symm) (cons_ne_nil _ _)
      · obtain ⟨space, later⟩ := cons.inj later
        obtain ⟨mark, -⟩ := cons.inj later
        obtain ⟨first, others, shown, -, marked⟩ := escapeChar_eq_cons x
        rw [shown, ← space, ← mark] at written
        cases before with
        | nil =>
          obtain ⟨rfl, rfl⟩ := cons.inj written
          rcases marked with ⟨odd, -⟩ | free
          · cases odd
          · exact free mem_cons_self
        | cons b before =>
          have inner := (cons.inj written).2
          rcases marked with ⟨-, single⟩ | free
          · rw [single] at inner
            have lengths := congrArg length inner
            simp at lengths
            omega
          · exact free (inner ▸ mem_append_right _ (mem_cons_of_mem _ mem_cons_self))

end Text.Quoted

namespace Derivation

def Concerns (warning path : String) : Prop :=
  ∃ message, Complaint message ∧ warning = path ++ ": " ++ message

def branchText : List Char := " anyOf branch requires undeclared property".toList

theorem undeclared_text (path name : String) :
    (path ++ ": " ++ ("anyOf branch requires undeclared property " ++ Text.Quoted.quote
      name)).toList = path.toList ++ ':' ::
      (branchText ++ ' ' :: '\"' :: (name.toList.flatMap Text.Quoted.escapeChar ++ ['\"'])) := by
  have spelled : ": ".toList ++ "anyOf branch requires undeclared property ".toList = ':' ::
      (branchText ++ [' ']) := by decide
  have quoted : (Text.Quoted.quote name).toList = '\"' ::
      (name.toList.flatMap Text.Quoted.escapeChar ++ ['\"']) := by
    rw [Text.Quoted.quote, String.toList_ofList, cons_append]
  rw [String.toList_append, String.toList_append, String.toList_append, append_assoc,
    ← append_assoc ": ".toList, spelled, quoted,
    cons_append, append_assoc, singleton_append]

theorem unlisted_text (path : String) :
    (path ++ ": " ++ "anyOf on an object without properties").toList = path.toList ++
      ": anyOf on an object without properties".toList := by
  have spelled : ": ".toList ++ "anyOf on an object without properties".toList =
      ": anyOf on an object without properties".toList := by decide
  rw [String.toList_append, String.toList_append, append_assoc, spelled]

theorem branchText_once (cs cs' more : List Char)
    (equal : ':' :: (branchText ++ ' ' :: '\"' :: (cs.flatMap Text.Quoted.escapeChar ++ ['\"'])) =
      more ++ ':' :: (branchText ++ ' ' :: '\"' :: (cs'.flatMap Text.Quoted.escapeChar ++ ['\"']))) :
    more = [] := by
  cases more with
  | nil => rfl
  | cons d more =>
    exfalso
    have once : ':' ∉ branchText ++ [' ', '\"'] := by decide
    have equal := (cons.inj equal).2
    have split : (branchText ++ [' ', '\"']) ++ (cs.flatMap Text.Quoted.escapeChar ++ ['\"']) =
        more ++ ':' :: (branchText ++ ' ' :: '\"' :: (cs'.flatMap Text.Quoted.escapeChar ++ ['\"'])) := by
      rw [append_assoc]
      exact equal
    rcases append_eq_append_iff.mp split with ⟨inner, -, later⟩ | ⟨inner, spelled, later⟩
    · obtain ⟨c, rest, last⟩ : ∃ c rest, cs'.flatMap Text.Quoted.escapeChar ++ ['\"'] = c :: rest :=
        exists_cons_of_ne_nil (by simp)
      refine Text.Quoted.written_inside cs (inner ++ ':' :: branchText) c rest ?_
      rw [later, last]
      simp
    · cases inner with
      | nil =>
        -- a written text does not start with a colon and go on with a space and a quotation mark
        obtain ⟨c, rest, last⟩ : ∃ c rest, cs'.flatMap Text.Quoted.escapeChar ++ ['\"'] = c :: rest :=
          exists_cons_of_ne_nil (by simp)
        refine Text.Quoted.written_inside cs (':' :: branchText) c rest ?_
        rw [← last]
        exact later.symm
      | cons e inner =>
        obtain ⟨rfl, -⟩ := cons.inj later
        exact once (spelled ▸ mem_append_right _ mem_cons_self)

theorem getLast?_quoted (before cs : List Char) :
    (before ++ ':' :: (branchText ++ ' ' :: '\"' :: (cs ++ ['\"']))).getLast? = some '\"' := by
  have last : before ++ ':' :: (branchText ++ ' ' :: '\"' :: (cs ++ ['\"'])) =
      (before ++ ':' :: (branchText ++ ' ' :: '\"' :: cs)) ++ ['\"'] := by
    simp
  rw [last, getLast?_concat]

theorem getLast?_unlisted (before : List Char) :
    (before ++ ": anyOf on an object without properties".toList).getLast? = some 's' := by
  rw [getLast?_append]
  rfl

theorem Concerns.unique {warning path path' : String} (concerns : Concerns warning path)
    (concerns' : Concerns warning path') : path = path' := by
  obtain ⟨_, first, rfl⟩ := concerns
  obtain ⟨_, second, equal⟩ := concerns'
  have texts := congrArg String.toList equal
  apply String.toList_inj.mp
  cases first with
  | unlisted =>
    cases second with
    | unlisted =>
      rw [unlisted_text, unlisted_text] at texts
      exact append_cancel_right texts
    | undeclared name =>
      rw [unlisted_text, undeclared_text] at texts
      have last := congrArg getLast? texts
      rw [getLast?_unlisted, getLast?_quoted] at last
      cases last
  | undeclared name =>
    cases second with
    | unlisted =>
      rw [undeclared_text, unlisted_text] at texts
      have last := congrArg getLast? texts
      rw [getLast?_unlisted, getLast?_quoted] at last
      cases last
    | undeclared name' =>
      rw [undeclared_text, undeclared_text] at texts
      rcases append_eq_append_iff.mp texts with ⟨more, longer, later⟩ | ⟨more, longer, later⟩
      · rw [longer, branchText_once _ _ more later, append_nil]
      · rw [longer, branchText_once _ _ more later, append_nil]

def mark (code : Code) (path hint : String) : String := "\x00".intercalate [code.name, path, hint]

theorem mark_toList (code : Code) (path hint : String) :
    (mark code path hint).toList = code.name.toList ++ '\x00' ::
      (path.toList ++ '\x00' :: hint.toList) := by
  rw [mark, String.toList_intercalate]
  simp [intercalate_cons_cons]

theorem mark_codes_ne (path hint path' hint' : String) :
    mark .unresolvedRef path hint ≠ mark .unsupportedCombinator path' hint' := by
  intro equal
  have third := congrArg (fun text : String => text.toList[2]?) equal
  simp only [mark_toList] at third
  exact absurd third (by simp [Code.name])

theorem mark_path {code : Code} {path path' : String}
    (equal : mark code path "" = mark code path' "") : path = path' := by
  have texts := congrArg String.toList equal
  rw [mark_toList, mark_toList] at texts
  exact String.toList_inj.mp (append_cancel_right (cons.inj (append_cancel_left texts)).2)

def State.telling (st : State) (issues : List Issue) (warnings reported : List String) : State :=
  { st with issues := issues, warnings := warnings, reported := reported }

/-- What a lax derivation has told, and what a strict one has told beside it. -/
structure Tells (st st' : State) : Prop where
  warnings : st'.warnings = []
  unresolved : st'.issues.filter (·.code == .unresolvedRef) = st.issues
  codes : ∀ issue ∈ st'.issues, issue.code = .unresolvedRef ∨ issue.code = .unsupportedCombinator
  marks : ∀ path hint, mark .unresolvedRef path hint ∈ st'.reported ↔
      mark .unresolvedRef path hint ∈ st.reported
  oddities : ∀ path, mark .unsupportedCombinator path "" ∈ st'.reported ↔ ∃ warning ∈ st.warnings,
      Concerns warning path
  paths : ∀ path, (∃ issue ∈ st'.issues, issue.code = .unsupportedCombinator ∧ issue.path = path) ↔
      ∃ warning ∈ st.warnings, Concerns warning path
  warned : ∀ warning ∈ st.warnings, ∃ path, Concerns warning path

/-- States of a lax and a strict derivation: frames are open for some keys, and only what has been
told differs. -/
structure Promotes (keys : List Key) (st st' : State) : Prop where
  same : st' = st.telling st'.issues st'.warnings st'.reported
  frames : st.stack.map (·.key) = keys
  tells : Tells st st'

/-- A lax and a strict derivation of the same schemas. -/
def promotion (corpus : Corpus) (mode : Mode) (recursion : Recursion) : Pairing where
  corpus := corpus
  options := ⟨mode, recursion, false, false⟩
  options' := ⟨mode, recursion, true, false⟩
  table t t' := t' = t
  budget _ n n' := n' = n
  state := Promotes
  fault _ := True
  shape _ s s' := s' = s
  flag b b' := b' = b
  names _ := True
  constant _ := True
  meets := True

variable {α : Type} {corpus : Corpus} {mode : Mode} {recursion : Recursion} {keys : List Key}
  {live : Nat → Prop} {st st' : State}

theorem Promotes.exists_eq (promotes : Promotes keys st st') :
    ∃ issues warnings reported, st' = st.telling issues warnings reported :=
  ⟨_, _, _, promotes.same⟩

def Mute (f : Derive α) : Prop := ∀ st issues warnings reported,
  f (st.telling issues warnings reported) = (f st).map fun (a, s) =>
  (a, s.telling issues warnings reported)

theorem Mute.draw (f : Fresh α) : Mute (Derivation.draw f) := by
  intro st issues warnings reported
  rw [draw_eq, draw_eq]
  change (f st.graph.next).map _ = _
  cases f st.graph.next <;> rfl

theorem Mute.tells {f : Derive α} (mute : Mute f) {a : α} {st₁ : State} (ran : f st = .ok (a, st₁))
    {issues : List Issue} {warnings reported : List String}
    (tells : Tells st (st.telling issues warnings reported)) :
    Tells st₁ (st₁.telling issues warnings reported) := by
  have own := mute st st.issues st.warnings st.reported
  change f st = _ at own
  rw [ran] at own
  have kept : st₁ = st₁.telling st.issues st.warnings st.reported := (Prod.mk.inj (Except.ok.inj own)).2
  rw [kept]
  exact ⟨tells.warnings, tells.unresolved, tells.codes, tells.marks, tells.oddities,
    tells.paths, tells.warned⟩

theorem Mute.ends {f : Derive α} (mute : Mute f) {keys' : List Key} (promotes : Promotes keys st st')
    (frames : ∀ a st₁, f st = .ok (a, st₁) → st₁.stack.map (·.key) = keys') :
    (promotion corpus mode recursion).Ends keys' live (fun _ a b => b = a) (f st) (f st') := by
  obtain ⟨issues, warnings, reported, rfl⟩ := promotes.exists_eq
  rw [mute st]
  cases ran : f st with
  | error e => exact .fault trivial
  | ok result =>
    obtain ⟨a, st₁⟩ := result
    exact .ok ⟨rfl, frames a st₁ ran, mute.tells ran promotes.tells⟩ (fun _ _ => trivial) rfl

theorem promotion_draw (f : Fresh Shape) :
    (promotion corpus mode recursion).Parallel keys live (promotion corpus mode recursion).shape
      (draw f) (draw f) := by
  intro st st' promotes _
  refine (Mute.draw f).ends promotes fun a st₁ ran => ?_
  rw [draw_eq] at ran
  cases drawn : f st.graph.next with
  | error e =>
    rw [drawn] at ran
    cases ran
  | ok result =>
    rw [drawn] at ran
    cases ran
    exact promotes.frames

theorem handleOf_mute (f : Frame) : Mute (handleOf f) := by
  intro st issues warnings reported
  cases handle : f.handle? with
  | some id =>
    rw [handleOf_known handle, handleOf_known handle]
    rfl
  | none =>
    unfold handleOf
    rw [handle]
    rfl

theorem closeFrame_promotes {f : Frame} (promotes : Promotes (f.key :: keys) st st') (r : Result) :
    (promotion corpus mode recursion).Ends keys live (promotion corpus mode recursion).Result
      (closeFrame f r st) (closeFrame f r st') := by
  obtain ⟨issues, warnings, reported, rfl⟩ := promotes.exists_eq
  obtain ⟨shape, low?⟩ := r
  obtain ⟨top, rest, innermost, -, frames⟩ := map_eq_cons_iff.mp promotes.frames
  have innermost' : (st.telling issues warnings reported).stack = top :: rest := innermost
  have tells := promotes.tells
  by_cases free : ∀ id, top.handle? = some id → st.graph.target? id = none
  · rw [closeFrame_free innermost free, closeFrame_free innermost' free]
    split_ifs
    · exact .fault trivial
    · exact .ok ⟨rfl, frames, tells.warnings, tells.unresolved, tells.codes, tells.marks,
        tells.oddities, tells.paths, tells.warned⟩
        (fun _ _ => trivial) ⟨rfl, rfl⟩
  · push Not at free
    obtain ⟨id, handle, bound⟩ := free
    obtain ⟨target, found⟩ := Option.ne_none_iff_exists'.mp bound
    rw [closeFrame_bound innermost handle found, closeFrame_bound innermost' handle found]
    exact .fault trivial

theorem handleOf_promotes (promotes : Promotes keys st st') (f : Frame) :
    (promotion corpus mode recursion).Ends keys live (fun _ id id' => id' = id) (handleOf f st)
      (handleOf f st') := by
  refine (handleOf_mute f).ends promotes fun id st₁ ran => ?_
  cases handle : f.handle? with
  | some known =>
    rw [handleOf_known handle] at ran
    cases ran
    exact promotes.frames
  | none =>
    obtain ⟨_, _, _, equal⟩ := handleOf_new st handle
    rw [equal] at ran
    cases ran
    rw [← promotes.frames, map_map]
    exact map_congr_left fun x _ => f.refer_key _ x

theorem report_eq {options : Options} (lenient : options.failFast = false) (issue : Issue)
    (st : State) :
    report options issue st = .ok ((), if mark issue.code issue.path issue.hint ∈ st.reported then
      st else st.telling (st.issues ++ [issue]) st.warnings
      (mark issue.code issue.path issue.hint :: st.reported)) := by
  change Except.ok _ = Except.ok _
  unfold mark State.telling
  simp only [lenient, Bool.or_false, contains_iff_mem]

theorem promotion_unresolved (p : Path) (key : String) (t : Table) :
    (promotion corpus mode recursion).Parallel keys live (fun _ _ _ => True)
      (unresolved ⟨mode, recursion, false, false⟩ p key t)
      (unresolved ⟨mode, recursion, true, false⟩ p key t) := by
  intro st st' promotes _
  obtain ⟨issues, warnings, reported, rfl⟩ := promotes.exists_eq
  have tells := promotes.tells
  unfold unresolved
  generalize issued : ({ Issue.atPath _ _ _ _ with hint := key } : Issue) = issue
  have code : issue.code = .unresolvedRef := issued ▸ rfl
  rw [report_eq rfl, report_eq rfl, code]
  have known := tells.marks issue.path issue.hint
  by_cases told : mark .unresolvedRef issue.path issue.hint ∈ st.reported
  · rw [if_pos told, if_pos (known.mpr told)]
    exact .ok promotes (fun _ _ => trivial) trivial
  · rw [if_neg told, if_neg (told ∘ known.mp)]
    refine .ok ⟨rfl, promotes.frames, tells.warnings, ?_, ?_, fun path hint => ?_, fun path => ?_,
      fun path => ?_, tells.warned⟩
      (fun _ _ => trivial) trivial
    · change (issues ++ [issue]).filter _ = st.issues ++ [issue]
      rw [filter_append, show issues.filter (·.code == .unresolvedRef) = st.issues from tells.unresolved]
      simp [code]
    · exact forall_mem_append.mpr ⟨tells.codes, forall_mem_singleton.mpr (.inl code)⟩
    · exact (mem_cons.trans (or_congr_right (tells.marks path hint))).trans mem_cons.symm
    · exact (mem_cons.trans (or_iff_right (mark_codes_ne _ _ _ _).symm)).trans (tells.oddities path)
    · refine Iff.trans ?_ (tells.paths path)
      change (∃ x ∈ issues ++ [issue], _) ↔ ∃ x ∈ issues, _
      simp [or_and_right, exists_or, code]

theorem promotion_malformed (p : Path) {message : String} (complaint : Complaint message) :
    (promotion corpus mode recursion).Parallel keys live (promotion corpus mode recursion).Result
      (malformed ⟨mode, recursion, false, false⟩ p message)
      (malformed ⟨mode, recursion, true, false⟩ p message) := by
  intro st st' promotes _
  obtain ⟨issues, warnings, reported, rfl⟩ := promotes.exists_eq
  have tells := promotes.tells
  have about : Concerns (p.pointer ++ ": " ++ message) p.pointer := ⟨message, complaint, rfl⟩
  have warned : ∀ path, (∃ warning ∈ st.warnings ++ [p.pointer ++ ": " ++ message],
      Concerns warning path) ↔
      path = p.pointer ∨ ∃ warning ∈ st.warnings, Concerns warning path := by
    intro path
    constructor
    · rintro ⟨warning, listed, concerns⟩
      rcases mem_append.mp listed with old | new
      · exact .inr ⟨warning, old, concerns⟩
      · exact .inl (concerns.unique (mem_singleton.mp new ▸ about))
    · rintro (rfl | ⟨warning, old, concerns⟩)
      · exact ⟨_, mem_append_right _ (mem_singleton_self _), about⟩
      · exact ⟨warning, mem_append_left _ old, concerns⟩
  have every : ∀ warning ∈ st.warnings ++ [p.pointer ++ ": " ++ message], ∃ path, Concerns warning path :=
    forall_mem_append.mpr ⟨tells.warned, forall_mem_singleton.mpr ⟨_, about⟩⟩
  have lax : malformed ⟨mode, recursion, false, false⟩ p message st =
      .ok ((.never, none), st.telling st.issues (st.warnings ++ [p.pointer ++ ": " ++ message])
      st.reported) := rfl
  have strict : malformed ⟨mode, recursion, true, false⟩ p message (st.telling issues warnings reported) =
      (report ⟨mode, recursion, true, false⟩ (.atPath p .unsupportedCombinator message [])
      (st.telling issues warnings reported)).map
        fun (_, s) => ((.never, none), s) := rfl
  rw [lax, strict, report_eq rfl]
  split_ifs with told
  · have old : ∀ path, (path = p.pointer ∨ ∃ warning ∈ st.warnings, Concerns warning path) ↔
        ∃ warning ∈ st.warnings, Concerns warning path :=
      fun path => or_iff_right_of_imp fun same => same ▸ (tells.oddities p.pointer).mp told
    refine .ok ⟨rfl, promotes.frames, tells.warnings, tells.unresolved, tells.codes, tells.marks,
      fun path => ?_, fun path => ?_, every⟩
      (fun _ _ => trivial) ⟨rfl, rfl⟩
    · exact (tells.oddities path).trans ((warned path).trans (old path)).symm
    · exact (tells.paths path).trans ((warned path).trans (old path)).symm
  · refine .ok ⟨rfl, promotes.frames, tells.warnings, ?_, ?_, fun path hint => ?_, fun path => ?_,
      fun path => ?_, every⟩
      (fun _ _ => trivial) ⟨rfl, rfl⟩
    · change (issues ++ [_]).filter _ = st.issues
      rw [filter_append, show issues.filter (·.code == .unresolvedRef) = st.issues from tells.unresolved]
      exact append_nil _
    · exact forall_mem_append.mpr ⟨tells.codes, forall_mem_singleton.mpr (.inr rfl)⟩
    · exact (mem_cons.trans (or_iff_right (mark_codes_ne _ _ _ _))).trans (tells.marks path hint)
    · refine Iff.trans (mem_cons.trans
        (or_congr ⟨mark_path, fun same => same ▸ rfl⟩ (tells.oddities path))) (warned path).symm
    · refine Iff.trans ?_ (warned path).symm
      rw [← tells.paths path]
      change (∃ x ∈ issues ++ [_], _) ↔ _ ∨ ∃ x ∈ issues, _
      simp [or_and_right, exists_or, Issue.atPath, or_comm, eq_comm]

theorem promotion_drawFrom (f : Graph → Fresh Shape) :
    (promotion corpus mode recursion).Parallel keys live (promotion corpus mode recursion).shape
      (fun st => draw (f st.graph) st) fun st => draw (f st.graph) st := by
  intro st st' promotes already
  have graph : st'.graph = st.graph := by
    rw [promotes.same]
    rfl
  dsimp only
  rw [graph]
  exact promotion_draw _ st st' promotes already

theorem promotion_properties {ps ps' : List (Property Shape)} {e e' : Option Shape}
    (each : Forall₂ ((promotion corpus mode recursion).Property live) ps ps')
    (extra : Option.Rel ((promotion corpus mode recursion).shape live) e e') :
    (promotion corpus mode recursion).Parallel keys live (promotion corpus mode recursion).shape
      (draw (Shape.ofProperties ps e)) (draw (Shape.ofProperties ps' e')) := by
  obtain rfl : ps = ps' := forall₂_eq_eq_eq ▸ each.imp fun _ _ related =>
      (related.eq related.shape related.optional).symm
  cases extra with
  | none => exact promotion_draw _
  | some related =>
    cases related
    exact promotion_draw _

theorem Promotes.enter (promotes : Promotes keys st st') (key : Key) (t : Table) (title : String) :
    Promotes (key :: keys) (st.enter (st.nextFrame key t title)) (st'.enter (st'.nextFrame key t title)) ∧
      st.nextFrame key t title = st'.nextFrame key t title := by
  obtain ⟨issues, warnings, reported, rfl⟩ := promotes.exists_eq
  have tells := promotes.tells
  refine ⟨⟨rfl, congrArg (key :: ·) promotes.frames, ?_⟩, rfl⟩
  exact ⟨tells.warnings, tells.unresolved, tells.codes, tells.marks, tells.oddities,
    tells.paths, tells.warned⟩

theorem promotion_lawful : (promotion corpus mode recursion).Lawful where
  toTables := .of_same (fun _ _ => (and_iff_left trivial).symm) (fun _ _ => trivial) fun _ _ => trivial
  mono _ _ _ _ _ := id
  admits _ := .of_all (fun _ => trivial) (fun _ => trivial) trivial _
  flat _ := rfl
  format _ _ _ := promotion_draw _
  literal _ _ _ _ := promotion_draw _
  items := by
    rintro keys live s _ rfl
    exact promotion_draw _
  properties _ _ _ _ _ _ each extra _ := promotion_properties each extra
  union keys live inclusive ss ss' each := by
    obtain rfl : ss = ss' := forall₂_eq_eq_eq ▸ each.imp fun _ _ => Eq.symm
    exact promotion_draw _
  meet := by
    rintro keys live - _ a _ b rfl rfl
    exact promotion_drawFrom (a.intersect · b)
  meetAll := by
    intro keys live _ ss ss' each
    obtain rfl : ss = ss' := forall₂_eq_eq_eq ▸ each.imp fun _ _ => Eq.symm
    exact promotion_drawFrom (Shape.intersectAll · ss)
  malformed _ _ p _ complaint := promotion_malformed p complaint
  unresolved _ _ p key t t' seen := by
    obtain rfl : t' = t := seen
    exact promotion_unresolved p key _
  lack _ _ _ _ := rfl
  demand more flags := congrArg (· && more) flags
  unnamed := trivial
  stopped promotes := by rw [promotes.same]; rfl
  same frames := frames ▸ ⟨rfl, rfl, rfl⟩
  stack promotes := by rw [promotes.same]; exact forall₂_same.mpr fun _ _ => rfl
  frames promotes := promotes.frames
  memo promotes := by
    rw [promotes.same]
    exact forall₂_same.mpr fun _ _ => ⟨rfl, rfl, rfl⟩
  handle {keys st st'} promotes f f' _ frames := by
    obtain rfl : f = f' := frames
    exact (handleOf_promotes promotes f).imp fun _ _ _ same => congrArg Shape.handle same
  enter {keys st st'} promotes key t t' title seen _ := by
    obtain rfl : t' = t := seen
    obtain ⟨entered, same⟩ := promotes.enter key t' title
    exact ⟨entered, same, le_rfl⟩
  close {keys st st' f f'} promotes _ frames r r' results := by
    obtain rfl : f = f' := frames
    obtain rfl : r' = r := Prod.ext results.shape results.low
    exact closeFrame_promotes promotes _
  spent budgets := ⟨budgets, trivial⟩
  spent' budgets := budgets.symm
  open_key budgets _ _ _ _ _ _ _ := Nat.succ.inj budgets

def Outcome.issues (o : Outcome) : List Issue :=
  match o.result with
  | .ok _ => []
  | .error issues => issues

/-- What strictness makes of an outcome: issues stand for the warnings, at the same paths, and all
else stays as it is. -/
structure Outcome.Promoted (lax strict : Outcome) : Prop where
  path : ∀ warning ∈ lax.warnings, ∃! path, Concerns warning path
  paths : ∀ path, (∃ issue ∈ strict.issues, issue.code = .unsupportedCombinator ∧ issue.path = path) ↔
    ∃ warning ∈ lax.warnings, Concerns warning path
  unresolved : strict.issues.filter (·.code == .unresolvedRef) = lax.issues.filter
      (·.code == .unresolvedRef)
  others : ∀ issue ∈ strict.issues, issue.code = .unresolvedRef ∨ issue.code = .unsupportedCombinator
  unwarned : lax.warnings = [] → strict = lax

theorem promotes_start (g : Graph) : Promotes [] { graph := g } { graph := g } where
  same := rfl
  frames := rfl
  tells := ⟨rfl, rfl, nofun, fun _ _ => Iff.rfl, fun _ => ⟨nofun, nofun⟩, fun _ => ⟨nofun, nofun⟩, nofun⟩

theorem issues_ofEnd (r : Result) (st : State) : (Outcome.ofEnd r st).issues = st.issues := by
  unfold Outcome.ofEnd Outcome.issues
  cases st.issues <;> rfl

theorem Tells.eq_of_unwarned (tells : Tells st st') (unwarned : st.warnings = []) :
    st'.issues = st.issues := by
  have only : ∀ issue ∈ st'.issues, (issue.code == .unresolvedRef) = true := by
    intro issue listed
    rcases tells.codes issue listed with code | code
    · exact beq_iff_eq.mpr code
    · obtain ⟨warning, member, -⟩ := (tells.paths issue.path).mp ⟨issue, listed, code, rfl⟩
      rw [unwarned] at member
      cases member
  rw [← tells.unresolved]
  exact (filter_eq_self.mpr only).symm

theorem Tells.promoted (tells : Tells st st') (r : Result) :
    (Outcome.ofEnd r st).Promoted (Outcome.ofEnd r st') where
  path warning listed := by
    obtain ⟨path, concerns⟩ := tells.warned warning listed
    exact ⟨path, concerns, fun _ other => other.unique concerns⟩
  paths path := by
    rw [issues_ofEnd]
    exact tells.paths path
  unresolved := by
    rw [issues_ofEnd, issues_ofEnd, tells.unresolved, ← tells.unresolved, filter_filter]
    simp
  others := by
    rw [issues_ofEnd]
    exact tells.codes
  unwarned none := by
    have none : st.warnings = [] := none
    unfold Outcome.ofEnd
    rw [tells.eq_of_unwarned none, tells.warnings, none]

/-- Strictness only turns warnings into issues: both derivations break off for the same reason, or
end with the same graph and the warnings promoted. -/
theorem run_promoted (corpus : Corpus) (node : Location) (t : Table) (mode : Mode)
    (recursion : Recursion) (g : Graph) :
    (∃ e, run corpus node t ⟨mode, recursion, false, false⟩ g = .error e ∧
      run corpus node t ⟨mode, recursion, true, false⟩ g = .error e) ∨
      ∃ lax strict h, run corpus node t ⟨mode, recursion, false, false⟩ g = .ok (lax, h) ∧
      run corpus node t ⟨mode, recursion, true, false⟩ g = .ok (strict, h) ∧
      lax.Promoted strict := by
  have recurs : (promotion corpus mode recursion).Recurs []
      (derive corpus ⟨mode, recursion, false, false⟩ (deriveBudget corpus (startTable corpus node t)))
      (derive corpus ⟨mode, recursion, true, false⟩ (deriveBudget corpus (startTable corpus node t))) := by
    rw [← deriveBy_true, ← deriveBy_true]
    exact Pairing.derive_recurs promotion_lawful rfl
  have ends := recurs (fun _ => True) (some node) (startTable corpus node t) _ .root (fun _ => rfl)
      _ _ (promotes_start g) le_rfl
  rw [run_eq, run_eq]
  revert ends
  generalize derive corpus _ _ _ _ _ _ = result, derive corpus _ _ _ _ _ _ = result'
  rintro (@⟨r, r', st, st', promotes, -, results⟩ | @⟨e, reason⟩)
  · obtain rfl : r' = r := Prod.ext results.shape results.low
    have graph : st'.graph = st.graph := by rw [promotes.same]; rfl
    exact .inr ⟨_, _, st.graph, rfl, by rw [← graph]; rfl, promotes.tells.promoted _⟩
  · exact .inl ⟨e, rfl, rfl⟩

end Derivation

end JsonShape
