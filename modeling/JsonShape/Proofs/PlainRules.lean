import JsonShape.Proofs.Calm
import JsonShape.Proofs.Pointer
import JsonShape.Proofs.Validity

/-! The rules of derivation on plain schemas: what they make of exact shapes of the parts is
exact. -/
namespace JsonShape.Derivation

open Schema Number.Spelling List Option Entries Shape Value

variable {root : Schema} {valid valid' : Value → Prop} {known : Memo → Prop} {v : Value}
  {stack : List Frame} {shape base : Shape}

structure Accepts (valid : Value → Prop) (shape : Shape) : Prop where
  plain : shape.Tidy PlainLeaf
  exact : ∀ g v, v.Instance → (Inhabits g shape v ↔ valid v)

theorem Accepts.congr (accepts : Accepts valid shape)
    (same : ∀ v, v.Instance → (valid v ↔ valid' v)) : Accepts valid' shape :=
  ⟨accepts.plain, fun g v inst => (accepts.exact g v inst).trans (same v inst)⟩

abbrev Exact (root s : Schema) : Shape → Prop := Accepts (Valid Told root s)

structure Derived (root s : Schema) (result : Result) : Prop where
  exact : Exact root s result.1
  ends : result.2 = none

theorem accepts_any : Accepts (fun _ => True) .any :=
  ⟨.flat rfl trivial, fun _ v _ => iff_true_intro (.any v)⟩

theorem accepts_never : Accepts (fun _ => False) .never :=
  ⟨.flat rfl trivial, fun _ _ _ => iff_false_intro Inhabits.not_never⟩

theorem accepts_flat (shape : Shape) (flat : shape.isFlat = true) (plain : shape.PlainLeaf)
    (proper : shape ≠ .any) : Accepts (fun v => v.literalKind = shape.kind) shape :=
  ⟨.flat flat plain, fun _ _ inst =>
    inhabits_flat_iff inst.document flat (simple_plainLeaf.poor shape plain) proper⟩

section Members

variable {α : Type} {valid : α → Value → Prop} {items : List α} {shapes : List Shape}

theorem plain_of_mem (exact : Forall₂ (fun a => Accepts (valid a)) items shapes) :
    ∀ s ∈ shapes, s.Tidy PlainLeaf := by
  intro s member
  obtain ⟨_, _, accepts⟩ := exists_left_of_mem exact member
  exact accepts.plain

theorem someInhabits_iff (exact : Forall₂ (fun a => Accepts (valid a)) items shapes) (g : Graph)
    (inst : v.Instance) : SomeInhabits g shapes v ↔ ∃ a ∈ items, valid a v := by
  induction exact with
  | nil => simp [SomeInhabits]
  | cons here _ ih =>
    simp only [SomeInhabits, exists_mem_cons_iff] at ih ⊢
    rw [ih, here.exact g v inst]

theorem allInhabit_iff (exact : Forall₂ (fun a => Accepts (valid a)) items shapes) (g : Graph)
    (inst : v.Instance) : (∀ s ∈ shapes, Inhabits g s v) ↔ ∀ a ∈ items, valid a v := by
  induction exact with
  | nil => simp
  | cons here _ ih => rw [forall_mem_cons, forall_mem_cons, ih, here.exact g v inst]

theorem unionOf_accepts (inclusive : Bool) (exact : Forall₂ (fun a => Accepts (valid a)) items shapes) :
    (unionOf inclusive shapes).Yields (Accepts fun v => ∃ a ∈ items, valid a v) :=
  (unionOf_yields inclusive (plain_of_mem exact) trivial trivial).imp fun _ both =>
    ⟨both.1, fun g v inst => (both.2 g v).trans (someInhabits_iff exact g inst)⟩

theorem intersectAll_accepts (exact : Forall₂ (fun a => Accepts (valid a)) items shapes) :
    Keeps stack known (intersectAll shapes) (Accepts fun v => ∀ a ∈ items, valid a v) :=
  (intersectAll_keeps (plain_of_mem exact)).imp fun _ both =>
    ⟨both.1, fun g v inst => (both.2 g v inst.document).trans (allInhabit_iff exact g inst)⟩

end Members

theorem intersect_accepts {a b : Shape} (left : Accepts valid a) (right : Accepts valid' b) :
    Keeps stack known (intersect a b) (Accepts fun v => valid v ∧ valid' v) :=
  (intersect_keeps left.plain right.plain).imp fun _ meets => ⟨meets.plain, fun g v inst => by
    rw [meets.accepts g v inst.document, left.exact g v inst, right.exact g v inst]⟩

theorem foldl_lower_eq_none {α : Type} {results : List (α × Option Nat)}
    (ends : ∀ r ∈ results, r.2 = none) :
    results.foldl (fun low (_, l) => lower low l) none = none := by
  induction results with
  | nil => rfl
  | cons r rest ih =>
    obtain ⟨a, low?⟩ := r
    obtain rfl : low? = none := ends (a, low?) mem_cons_self
    exact ih fun r' member => ends r' (mem_cons_of_mem _ member)

theorem exact_of_derived {α : Type} {valid : α → Value → Prop} {items : List α}
    {results : List Result}
    (derived : Forall₂ (fun a r => Accepts (valid a) r.1 ∧ r.2 = none) items results) :
    Forall₂ (fun a => Accepts (valid a)) items (results.map (·.1)) ∧
      results.foldl (fun low (_, l) => lower low l) none = none := by
  constructor
  · exact forall₂_map_right_iff.mpr (derived.imp fun _ _ both => both.1)
  · refine foldl_lower_eq_none fun r member => ?_
    obtain ⟨_, _, _, ends⟩ := exists_left_of_mem derived member
    exact ends

theorem literalKind_eq_iff (inst : v.Instance) :
    (v.literalKind = .null ↔ v.documentType = "null") ∧
      (v.literalKind = .boolean ↔ v.documentType = "boolean") ∧
      (v.literalKind = .number ↔ v.documentType = "number") ∧
      (v.literalKind = .string ↔ v.documentType = "string") := by
  cases inst <;> simp [literalKind, documentType]

variable {derive : Recur} {site : Site} {k : Keywords Schema} {name : String}
  {props : List (String × Schema)} {required names : List String}
  {branches? parts? : Option (List Schema)} {s : Schema} {items? additional? : Option Schema}
  {ps : List (Property Shape)} {extra? : Option Shape} {entries : List (String × Value)}
  {props? : Option (List (String × Schema))}

theorem typed_scalar (scalar : name ∈ scalarTypes) (formatless : k.format = "") :
    Keeps stack known (typed derive site k name) fun r =>
      Accepts (fun v => v.documentType = name) r.1 ∧ r.2 = none := by
  simp only [scalarTypes, mem_cons, not_mem_nil, or_false] at scalar
  rcases scalar with rfl | rfl | rfl | rfl
  · exact .pure ⟨(accepts_flat .null rfl trivial (by simp)).congr fun v inst =>
      (literalKind_eq_iff inst).1, rfl⟩
  · exact .pure ⟨(accepts_flat .boolean rfl trivial (by simp)).congr fun v inst =>
      (literalKind_eq_iff inst).2.1, rfl⟩
  · exact .pure ⟨(accepts_flat (.number false) rfl trivial (by simp)).congr fun v inst =>
      (literalKind_eq_iff inst).2.2.1, rfl⟩
  · rw [typed, formatless]
    exact .pure ⟨(accepts_flat .string rfl trivial (by simp)).congr fun v inst =>
      (literalKind_eq_iff inst).2.2.2, rfl⟩

theorem constant_accepts {c : Value} (scalar : c.Scalar) :
    Keeps stack known (constant c) (Accepts fun v => v.Equals Told c) := by
  have document : c.Document := by cases scalar <;> constructor
  have literal : Keeps stack known (draw (ofLiteral c)) (Accepts fun v => v.Equals Told c) := by
    refine .draw (.serial fun n =>
      .pure ⟨.literal document (by cases scalar <;> simp [PlainLeaf, literalKind]), ?_⟩)
    exact fun g v inst => (inhabits_literal_iff inst.document document).trans
      (meaning_eq_iff_equals inst scalar)
  cases scalar with
  | null =>
    refine .pure ((accepts_flat .null rfl trivial (by simp)).congr fun v inst =>
      ⟨fun kind => ?_, fun equals => ?_⟩)
    · cases inst with
      | null => exact .null
      | _ => cases kind
    · cases equals
      rfl
  | _ => exact literal

theorem each_exact {step : Nat → Step} {path : Path} {list : List Schema}
    (below : ∀ i s, list[i]? = some s → ∀ path, Keeps stack known
      (derive (some (site.location.child (step i))) site.table path) (Derived root s)) :
    Keeps stack known (each derive site step path (list.map some)) fun r =>
      Forall₂ (Exact root) list r.1 ∧ r.2 = none := by
  have inTurn : Keeps stack known ((list.map some).zipIdx.mapM fun e =>
      derive (site.child? (step e.2) e.1) site.table (path.index e.2))
      (Forall₂ (fun p r => ∀ s, p.1 = some s → Derived root s r) (list.map some).zipIdx) := by
    refine .mapM ?_
    rintro ⟨s?, i⟩ member
    have found : (list.map some)[i]? = some s? := mem_zipIdx_iff_getElem?.mp member
    rw [getElem?_map] at found
    obtain ⟨s, here, rfl⟩ := map_eq_some_iff.mp found
    refine (below i s here (path.index i)).imp fun r derived s' equal => ?_
    rwa [← some.inj equal]
  refine inTurn.bind fun results derived => .pure (exact_of_derived ?_)
  have derived' : Forall₂ (fun s? r => ∀ s, s? = some s → Derived root s r) (list.map some) results := by
    rw [← zipIdx_map_fst 0 (list.map some), forall₂_map_left_iff]
    exact derived
  exact (forall₂_map_left_iff.mp derived').imp fun s r derived =>
    ⟨(derived s rfl).exact, (derived s rfl).ends⟩

theorem array_exact (notBare : ∀ s, items? = some s → isBareOneOf s.keywords = false)
    (set : k.items? = items?)
    (below : ∀ s, items? = some s → ∀ path, Keeps stack known
      (derive (some (site.location.child .items)) site.table path) (Derived root s)) :
    Keeps stack known (array derive site k) fun r =>
      Accepts (fun v => ∃ vs, v = .seq .values vs ∧ ∀ s, items? = some s →
      ∀ x ∈ vs, Valid Told root s x) r.1 ∧ r.2 = none := by
  have list {shape : Shape} {valid : Value → Prop} (accepts : Accepts valid shape) :
      (ofItems shape).Yields (Accepts fun v => ∃ vs, v = .seq .values vs ∧ ∀ x ∈ vs, valid x) := by
    refine .serial fun n => .pure ⟨.array accepts.plain, fun g v inst => ?_⟩
    rw [Inhabits.array_iff, inst.document.settle_eq]
    cases inst with
    | @seq vs inside =>
      simp only [Value.items?, some.injEq, exists_eq_left', Value.seq.injEq, true_and]
      exact forall₂_congr fun x member => accepts.exact g x (inside x member)
    | _ => simp [Value.items?]
  unfold array
  rw [set]
  cases items? with
  | none =>
    exact (Keeps.draw (list accepts_any)).bind fun shape accepts =>
      .pure ⟨accepts.congr (by simp), rfl⟩
  | some s =>
    dsimp only
    rw [if_neg (by rw [notBare s rfl]; decide)]
    refine (below s rfl _).bind fun r derived => ?_
    refine (Keeps.draw (list derived.exact)).bind fun shape accepts =>
      .pure ⟨accepts.congr (by simp), derived.ends⟩

@[mk_iff]
structure Fits (root : Schema) (props : List (String × Schema)) (required : List String)
    (additional? : Option Schema) (entries : List (String × Value)) : Prop where
  required : ∀ name ∈ required, get? entries name ≠ none
  declared : ∀ prop ∈ props, ∀ x, get? entries prop.1 = some x → Valid Told root prop.2 x
  undeclared : ∀ s, additional? = some s → ∀ name x, get? entries name = some x →
      name ∉ props.map Prod.fst → Valid Told root s x

def FitsObject (root : Schema) (props : List (String × Schema)) (required : List String)
    (additional? : Option Schema) (v : Value) : Prop :=
  ∃ entries, v = .map .values entries ∧ Fits root props required additional? entries

theorem Fits.append_iff : Fits root props (required ++ names) additional? entries ↔
      Fits root props required additional? entries ∧ ∀ name ∈ names, get? entries name ≠ none := by
  constructor
  · rintro ⟨present, declared, undeclared⟩
    exact ⟨⟨fun name member => present name (mem_append_left _ member), declared, undeclared⟩,
      fun name member => present name (mem_append_right _ member)⟩
  · rintro ⟨⟨present, declared, undeclared⟩, more⟩
    exact ⟨fun name member => (mem_append.mp member).elim (present name) (more name), declared, undeclared⟩

structure Declares (root : Schema) (required : List String) (prop : String × Schema)
    (p : Property Shape) : Prop where
  name : p.name = prop.1
  exact : Exact root prop.2 p.shape
  optional : p.optional = !required.contains prop.1

inductive Extra (root : Schema) : Option Schema → Option Shape → Prop
  | none : Extra root none none
  | some {s : Schema} {shape : Shape} (exact : Exact root s shape) : Extra root (some s) (some shape)

theorem names_eq (declares : Forall₂ (Declares root required) props ps) :
    ps.map (·.name) = props.map Prod.fst := by
  induction declares with
  | nil => rfl
  | cons here _ ih => rw [map_cons, map_cons, here.name, ih]

theorem inhabits_object_iff_fits {g : Graph} {n : Nat} {sorted : List (Property Shape)}
    (named : ∀ name ∈ required, name ∈ props.map Prod.fst)
    (declares : Forall₂ (Declares root required) props ps) (extra : Extra root additional? extra?)
    (perm : sorted.Perm ps) (inst : (map .values entries).Instance) :
    Inhabits g (.object n sorted extra?) (.map .values entries) ↔
      Fits root props required additional? entries := by
  have undeclared_iff (name : String) : property? sorted name = none ↔ name ∉ props.map Prod.fst := by
    rw [property?_eq_none_iff, ← names_eq declares]
    simp [perm.mem_iff]
  cases inst with
  | map ascending inside =>
    have exact_of {name : String} {x : Value} (here : get? entries name = some x)
        {s : Schema} {shape : Shape}
        (exact : Exact root s shape) : Inhabits g shape x ↔ Valid Told root s x :=
      exact.exact g x (inside _ (mem_of_get?_eq_some here))
    rw [Inhabits.object_iff]
    constructor
    · rintro ⟨entries', keyed, present, declared, undeclared⟩
      obtain rfl := some.inj keyed
      refine ⟨fun name member absent => ?_, fun prop member x here => ?_, ?_⟩
      · obtain ⟨prop, member', rfl⟩ := mem_map.mp (named name member)
        obtain ⟨p, inside, declares⟩ := exists_right_of_mem declares member'
        have optional := present p (perm.mem_iff.mpr inside) (declares.name ▸ absent)
        rw [declares.optional] at optional
        simp [member] at optional
      · obtain ⟨p, inside, declares⟩ := exists_right_of_mem declares member
        exact (exact_of here declares.exact).mp
          (declared p (perm.mem_iff.mpr inside) x (declares.name ▸ here))
      · rintro s rfl name x here unknown
        cases extra with
        | some exact =>
          have free := (undeclared_iff name).mpr unknown
          exact (exact_of here exact).mp (undeclared _ rfl (name, x) (mem_of_get?_eq_some here) free)
    · rintro ⟨present, declared, undeclared⟩
      refine ⟨entries, rfl, fun p member absent => ?_, fun p member x here => ?_, ?_⟩
      · obtain ⟨prop, _, declares⟩ := exists_left_of_mem declares (perm.mem_iff.mp member)
        rw [declares.optional]
        rw [declares.name] at absent
        simpa using fun required => present prop.1 required absent
      · obtain ⟨prop, member', declares⟩ := exists_left_of_mem declares (perm.mem_iff.mp member)
        rw [declares.name] at here
        exact (exact_of here declares.exact).mpr (declared prop member' x here)
      · rintro shape rfl entry member unknown
        have here := get?_eq_some_of_mem ascending member
        cases extra with
        | some exact =>
          exact (exact_of here exact).mpr
            (undeclared _ rfl entry.1 entry.2 here ((undeclared_iff _).mp unknown))

theorem ofProperties_accepts (distinct : (props.map Prod.fst).Nodup)
    (named : ∀ name ∈ required, name ∈ props.map Prod.fst)
    (declares : Forall₂ (Declares root required) props ps) (extra : Extra root additional? extra?) :
    (ofProperties ps extra?).Yields (Accepts (FitsObject root props required additional?)) := by
  have inside : ∀ p ∈ ps, p.shape.Tidy PlainLeaf := by
    intro p member
    obtain ⟨prop, _, declares⟩ := exists_left_of_mem declares member
    exact declares.exact.plain
  have additional : ∀ s, extra? = some s → s.Tidy PlainLeaf := by
    rintro s rfl
    cases extra with
    | some exact => exact exact.plain
  refine (ofProperties_yields (names_eq declares ▸ distinct) inside additional).imp ?_
  rintro _ ⟨n, sorted, rfl, tidy, perm⟩
  refine ⟨tidy, fun g v inst => ?_⟩
  cases inst with
  | @map entries ascending inside =>
    rw [inhabits_object_iff_fits named declares extra perm (.map ascending inside)]
    simp [FitsObject]
  | _ => simp [Inhabits.object_iff, settle, entries?, FitsObject]

theorem withRequired_accepts (distinct : (props.map Prod.fst).Nodup)
    (named : ∀ name ∈ required ++ names, name ∈ props.map Prod.fst)
    (declares : Forall₂ (Declares root required) props ps) (extra : Extra root additional? extra?)
    (accepts : Accepts (FitsObject root props required additional?) base) :
    Keeps stack known (withRequired base ps extra? names)
      (Accepts (FitsObject root props (required ++ names) additional?)) := by
  unfold withRequired
  split
  · next empty =>
    obtain rfl : names = [] := by simpa using empty
    rw [append_nil]
    exact .pure accepts
  · refine .draw (ofProperties_accepts distinct named ?_ extra)
    refine forall₂_map_right_iff.mpr (declares.imp fun prop p declares =>
      ⟨declares.name, declares.exact, ?_⟩)
    rw [declares.optional, declares.name]
    simp [contains_eq_mem]

theorem valid_required_iff (only : s.keywords.bare = { required? := some names }) :
    Valid Told root s v ↔ ∀ entries, v = .map .values entries → ∀ name ∈ names,
      get? entries name ≠ none := by
  obtain ⟨k⟩ := s
  rw [← valid_bare_iff, show k.bare = _ from only, valid_iff, satisfies_iff]
  simp [TypeSet.names]

theorem variants_accept (distinct : (props.map Prod.fst).Nodup)
    (named : ∀ name ∈ required, name ∈ props.map Prod.fst)
    (declares : Forall₂ (Declares root required) props ps) (extra : Extra root additional? extra?)
    (accepts : Accepts (FitsObject root props required additional?) base) {branches : List Schema}
    (only : ∀ s ∈ branches, ∃ names, s.keywords.bare = { required? := some names } ∧ ∀ name ∈ names,
      name ∈ props.map Prod.fst) (first : Nat) :
    Keeps stack known (variants base ps extra? ((branches.map some).zipIdx first)) fun r =>
      ∃ shapes, r = .ok shapes ∧ Forall₂ (fun s => Accepts fun v =>
      FitsObject root props required additional? v ∧ Valid Told root s v) branches shapes := by
  induction branches generalizing first with
  | nil => exact .pure ⟨[], rfl, .nil⟩
  | cons s rest ih =>
    obtain ⟨names, only', named'⟩ := only s mem_cons_self
    have names_eq' : ((some s).bind (·.keywords.required?)).getD [] = names := by
      have set : s.keywords.required? = some names := congrArg Keywords.required? only'
      rw [bind_some, set]
      rfl
    have declared : names.find? (fun name => (property? ps name).isNone) = none := by
      refine find?_eq_none.mpr fun name member undeclared => ?_
      rw [isNone_iff_eq_none, property?_eq_none_iff] at undeclared
      have inside : name ∈ ps.map (·.name) := names_eq declares ▸ named' name member
      obtain ⟨p, member', equal⟩ := mem_map.mp inside
      exact undeclared p member' equal
    have variant : Keeps stack known (withRequired base ps extra? names) _ := withRequired_accepts distinct
      (fun name member => (mem_append.mp member).elim (named name) (named' name)) declares extra accepts
    rw [map_cons, zipIdx_cons, variants, names_eq', declared]
    refine variant.bind fun shape accepts' => ?_
    refine (ih (forall_mem_cons.mp only).2 (first + 1)).bind ?_
    rintro _ ⟨shapes, rfl, later⟩
    refine .pure ⟨shape :: shapes, rfl, .cons (accepts'.congr fun v _ => ?_) later⟩
    rw [valid_required_iff only']
    constructor
    · rintro ⟨entries, rfl, fits⟩
      obtain ⟨fits', present⟩ := Fits.append_iff.mp fits
      exact ⟨⟨entries, rfl, fits'⟩,
        fun entries' equal => by rwa [show entries' = entries by simpa using equal.symm]⟩
    · rintro ⟨⟨entries, rfl, fits⟩, present⟩
      exact ⟨entries, rfl, Fits.append_iff.mpr ⟨fits, present entries rfl⟩⟩

theorem property_declares (request : site.options.mode = .request)
    (below : ∀ path, Keeps stack known
      (derive (some (site.location.child (.property name))) site.table path) (Derived root s)) :
    Keeps stack known (property derive site k name (some s)) fun r =>
      Declares root (k.required?.getD []) (name, s) r.1 ∧ r.2 = none := by
  refine (below _).bind ?_
  rintro ⟨shape, low?⟩ ⟨exact, rfl⟩
  refine .pure ⟨⟨rfl, exact, ?_⟩, rfl⟩
  simp [request, Keywords.isRequired]

theorem extra_exact
    (admits : ∀ s, k.additionalProperties? = some s → s.keywords.boolean? ≠ some false)
    (below : ∀ s, k.additionalProperties? = some s → ∀ path, Keeps stack known
      (derive (some (site.location.child .additionalProperties)) site.table path) (Derived root s)) :
    Keeps stack known (extra derive site k) fun r => Extra root k.additionalProperties? r.1 ∧
      r.2 = none := by
  unfold extra
  cases set : k.additionalProperties? with
  | none => exact .pure ⟨.none, rfl⟩
  | some s =>
    dsimp only
    cases truth : s.keywords.boolean? with
    | none =>
      refine (below s set _).bind ?_
      rintro ⟨shape, low?⟩ ⟨exact, rfl⟩
      exact .pure ⟨.some exact, rfl⟩
    | some b =>
      cases b with
      | false => exact absurd truth (admits s set)
      | true =>
        refine .pure ⟨.some (accepts_any.congr fun v _ => iff_of_true trivial ?_), rfl⟩
        obtain ⟨k'⟩ := s
        exact .all truth

theorem combine_accepts (accepts : Accepts valid shape) (allOf : k.allOf? = parts?.map (·.map some))
    (oneOf : k.oneOf? = none)
    (below : ∀ i s, (parts?.getD [])[i]? = some s → ∀ path, Keeps stack known
      (derive (some (site.location.child (.allOf i))) site.table path) (Derived root s)) :
    Keeps stack known (combine derive site k (shape, none)) fun r =>
      Accepts (fun v => valid v ∧ ∀ s ∈ parts?.getD [], Valid Told root s v) r.1 ∧ r.2 = none := by
  unfold combine
  rw [allOf, oneOf]
  cases parts? with
  | none => exact .pure ⟨accepts.congr (by simp), rfl⟩
  | some parts =>
    refine (each_exact below).bind ?_
    rintro ⟨shapes, low?⟩ ⟨exact, rfl⟩
    refine (intersectAll_accepts exact).bind fun meet accepts' => ?_
    exact (intersect_accepts accepts accepts').bind fun shape accepts'' => .pure ⟨accepts'', rfl⟩

theorem properties_declare (request : site.options.mode = .request)
    (below : ∀ prop ∈ props, ∀ path,
      Keeps stack known (derive (some (site.location.child (.property prop.1))) site.table path)
      (Derived root prop.2)) :
    Keeps stack known ((props.map fun prop => (prop.1, some prop.2)).mapM fun (name, s?) =>
      property derive site k name s?) fun results => Forall₂ (Declares root (k.required?.getD []))
      props (results.map (·.1)) ∧ ∀ r ∈ results, r.2 = none := by
  have inTurn : Keeps stack known ((props.map fun prop => (prop.1, some prop.2)).mapM
      fun (name, s?) => property derive site k name s?)
      (Forall₂ (fun entry r => ∀ s, entry.2 = some s → Declares root (k.required?.getD [])
      (entry.1, s) r.1 ∧ r.2 = none)
        (props.map fun prop => (prop.1, some prop.2))) := by
    refine .mapM fun entry member => ?_
    obtain ⟨prop, member', rfl⟩ := mem_map.mp member
    refine (property_declares request (below prop member')).imp fun r both s equal => ?_
    rwa [← some.inj equal]
  refine inTurn.imp fun results declares => ?_
  have declares' := (forall₂_map_left_iff.mp declares).imp fun prop r both => both prop.2 rfl
  refine ⟨forall₂_map_right_iff.mpr (declares'.imp fun prop r both => both.1), fun r member => ?_⟩
  obtain ⟨_, _, _, ends⟩ := exists_left_of_mem declares' member
  exact ends

theorem object_exact (root : Schema) (request : site.options.mode = .request)
    (properties : k.properties? = props?.map (·.map fun prop => (prop.1, some prop.2)))
    (anyOf : k.anyOf? = branches?.map (·.map some)) (allOf : k.allOf? = parts?.map (·.map some))
    (oneOf : k.oneOf? = none) (distinct : ((props?.getD []).map Prod.fst).Nodup)
    (named : ∀ name ∈ k.required?.getD [], name ∈ (props?.getD []).map Prod.fst)
    (admits : ∀ s, k.additionalProperties? = some s → s.keywords.boolean? ≠ some false)
    (declared : branches?.isSome = true → props?.isSome = true)
    (branches : ∀ s ∈ branches?.getD [], ∃ names, s.keywords.bare = { required? := some names } ∧
      ∀ name ∈ names, name ∈ (props?.getD []).map Prod.fst)
    (belowProperty : ∀ prop ∈ props?.getD [], ∀ path,
      Keeps stack known (derive (some (site.location.child (.property prop.1))) site.table path)
      (Derived root prop.2))
    (belowAdditional : ∀ s, k.additionalProperties? = some s → ∀ path, Keeps stack known
      (derive (some (site.location.child .additionalProperties)) site.table path) (Derived root s))
    (belowPart : ∀ i s, (parts?.getD [])[i]? = some s → ∀ path, Keeps stack known
      (derive (some (site.location.child (.allOf i))) site.table path) (Derived root s)) :
    Keeps stack known (object derive site k) fun r =>
      Accepts (fun v => (FitsObject root (props?.getD [])
      (k.required?.getD []) k.additionalProperties? v ∧ ∀ list, branches? = some list → ∃ s ∈ list,
      Valid Told root s v) ∧ ∀ s ∈ parts?.getD [], Valid Told root s v) r.1 ∧ r.2 = none := by
  unfold object
  refine (extra_exact admits belowAdditional).bind ?_
  rintro ⟨extra?, low?⟩ ⟨extra, rfl⟩
  rw [properties, anyOf]
  cases props? with
  | none =>
    cases branches? with
    | some list => exact absurd (declared rfl) (by simp)
    | none =>
      refine (Keeps.draw (ofProperties_accepts distinct named .nil extra)).bind fun base accepts => ?_
      exact combine_accepts (accepts.congr (by simp)) allOf oneOf belowPart
  | some props =>
    refine (properties_declare request belowProperty).bind fun results both => ?_
    obtain ⟨declares, ends⟩ := both
    dsimp only
    rw [foldl_lower_eq_none ends]
    refine (Keeps.draw (ofProperties_accepts distinct named declares extra)).bind fun base accepts => ?_
    cases branches? with
    | none => exact combine_accepts (accepts.congr (by simp)) allOf oneOf belowPart
    | some list =>
      refine (variants_accept distinct named declares extra accepts branches 0).bind ?_
      rintro _ ⟨shapes, rfl, each⟩
      refine (Keeps.draw (unionOf_accepts true each)).bind fun shape accepts' => ?_
      refine combine_accepts (accepts'.congr fun v _ => ⟨?_, ?_⟩) allOf oneOf belowPart
      · rintro ⟨s, member, fits, valid⟩
        exact ⟨fits, fun list' equal => ⟨s, some.inj equal ▸ member, valid⟩⟩
      · rintro ⟨fits, chosen⟩
        obtain ⟨s, member, valid⟩ := chosen list rfl
        exact ⟨s, member, fits, valid⟩

theorem dispatch_bare (derive : Recur) (site : Site) (k : Keywords Schema) :
    dispatch derive site k.bare = dispatch derive site k := rfl

theorem definitionRef_ne (name : String) : definitionRef name ≠ "" := by
  intro equal
  have lengths := congrArg String.length equal
  simp [definitionRef, String.length_append] at lengths

theorem definitionRef_injective : Function.Injective definitionRef := by
  intro name name' equal
  have escaped : Text.Pointer.escape name = Text.Pointer.escape name' := by
    simpa [definitionRef] using equal
  rw [← Text.Pointer.unescape_escape name, escaped, Text.Pointer.unescape_escape]

theorem valid_of_bare {bare : Keywords Schema} (only : k.bare = bare) :
    Valid Told root (.node k) v ↔ Valid Told root (.node bare) v := by
  rw [← only, valid_bare_iff]

theorem id_eq_empty (plain : Plain root s) : s.keywords.id = "" := by
  cases plain <;> exact congrArg Keywords.id ‹Keywords.bare _ = _›

theorem definitions_eq_none (plain : Plain root s) : s.keywords.definitions? = none := by
  cases plain <;> exact congrArg Keywords.definitions? ‹Keywords.bare _ = _›

theorem oneOf_eq_none (plain : Plain root s) : s.keywords.oneOf? = none := by
  cases plain <;> exact congrArg Keywords.oneOf? ‹Keywords.bare _ = _›

theorem valid_array_iff (inst : v.Instance) :
    Valid Told root (.node { type := .one "array", items? := items? }) v ↔
      ∃ vs, v = .seq .values vs ∧ ∀ s, items? = some s → ∀ x ∈ vs, Valid Told root s x := by
  rw [valid_iff, satisfies_iff]
  cases inst <;> simp [TypeSet.names, documentType]

theorem valid_object_iff {required? : Option (List String)} (inst : v.Instance) : Valid Told root (.node {
        type := .one "object"
        properties? := props?.map (·.map fun prop => (prop.1, some prop.2))
        required? := required?
        additionalProperties? := additional?
        anyOf? := branches?.map (·.map some)
        allOf? := parts?.map (·.map some) }) v ↔
      (FitsObject root (props?.getD []) (required?.getD []) additional? v ∧
        ∀ list, branches? = some list → ∃ s ∈ list, Valid Told root s v) ∧ ∀ s ∈ parts?.getD [],
        Valid Told root s v := by
  have member_iff (name : String) (s : Schema) :
      (name, some s) ∈ (props?.map (·.map fun prop => (prop.1, some prop.2))).getD [] ↔
      (name, s) ∈ props?.getD [] := by
    cases props? <;> simp
  have absent_iff (name : String) :
      (∀ s?, (name, s?) ∉ (props?.map (·.map fun prop => (prop.1, some prop.2))).getD []) ↔
      name ∉ (props?.getD []).map Prod.fst := by
    cases props? <;> simp
  have some_iff : (∀ list, branches?.map (·.map some) = some list → ∃ s, some s ∈ list ∧
      Valid Told root s v) ↔
      ∀ list, branches? = some list → ∃ s ∈ list, Valid Told root s v := by
    cases branches? <;> simp
  have each_iff : (∀ list, parts?.map (·.map some) = some list → ∀ s, some s ∈ list →
      Valid Told root s v) ↔
      ∀ s ∈ parts?.getD [], Valid Told root s v := by
    cases parts? <;> simp
  rw [valid_iff, satisfies_iff]
  simp only [member_iff, absent_iff, some_iff, each_iff]
  cases inst with
  | map =>
    simp only [TypeSet.names, documentType, FitsObject, fits_iff, map.injEq, true_and,
      exists_eq_left', forall_eq',
      Prod.forall, reduceCtorEq]
    simp [and_assoc]
  | _ => simp [TypeSet.names, documentType, FitsObject]

section Ordered

variable (ordered : k.Ordered)
  (properties : k.properties? = props?.map (·.map fun prop => (prop.1, some prop.2)))
include ordered properties

theorem nodup_of_ordered : ((props?.getD []).map Prod.fst).Nodup := by
  have ascending := ordered.properties
  rw [properties] at ascending
  cases props? with
  | none => simp
  | some props => exact pairwise_map.mpr ((pairwise_map.mp ascending).imp fun less => ne_of_lt less)

theorem child?_of_property {prop : String × Schema} (member : prop ∈ props?.getD []) :
    (Schema.node k).child? (.property prop.1) = some prop.2 := by
  have ascending := ordered.properties
  rw [properties] at ascending
  cases props? with
  | none => cases member
  | some props =>
    have found : get? (props.map fun prop => (prop.1, some prop.2)) prop.1 = some (some prop.2) :=
      get?_eq_some_of_mem ascending (mem_map.mpr ⟨prop, member, rfl⟩)
    simp [child?, keywords, properties, found]

end Ordered

theorem dispatch_exact (plain : Plain root (.node k)) (ordered : k.Ordered)
    (request : site.options.mode = .request)
    (below : ∀ step s, (Schema.node k).child? step = some s → Plain root s → ∀ path,
      Keeps stack known (derive (some (site.location.child step)) site.table path) (Derived root s))
    (follow : ∀ name s, k.ref = definitionRef name → root.child? (.defs name) = some s →
      ∃ target? table, site.table.resolve site.corpus k.ref = some (target?, table) ∧
      ∀ path, Keeps stack known (derive target? table path) (Derived root s)) :
    Keeps stack known (dispatch derive site k) (Derived root (.node k)) := by
  cases plain with
  | @boolean _ b only =>
    rw [← dispatch_bare, only]
    cases b with
    | true => exact .pure ⟨accepts_any.congr fun v _ => by simp [valid_of_bare only, valid_iff], rfl⟩
    | false => exact .pure ⟨accepts_never.congr fun v _ => by simp [valid_of_bare only, valid_iff], rfl⟩
  | free only =>
    rw [← dispatch_bare, only]
    exact .pure ⟨accepts_any.congr fun v _ => by simp [valid_of_bare only, valid_iff, satisfies_iff], rfl⟩
  | @type _ name scalar only =>
    rw [← dispatch_bare, only]
    refine (typed_scalar scalar rfl).imp fun r both => ⟨both.1.congr fun v _ => ?_, both.2⟩
    simp [valid_of_bare only, valid_iff, satisfies_iff, TypeSet.names]
  | @types _ names scalar only =>
    rw [← dispatch_bare, only]
    refine (Keeps.mapM fun name member => typed_scalar (scalar name member) rfl).bind
      fun results derived => ?_
    obtain ⟨exact, ends⟩ := exact_of_derived derived
    refine (Keeps.draw (unionOf_accepts false exact)).bind fun shape accepts =>
      .pure ⟨accepts.congr fun v _ => ?_, ends⟩
    simp [valid_of_bare only, valid_iff, satisfies_iff, TypeSet.names]
  | @const _ c scalar only =>
    rw [← dispatch_bare, only]
    refine (constant_accepts scalar).bind fun shape accepts => ?_
    refine .pure ⟨accepts.congr fun v _ => ?_, rfl⟩
    simp [valid_of_bare only, valid_iff, satisfies_iff]
  | @enum _ cs scalar only =>
    rw [← dispatch_bare, only]
    have inTurn : Keeps stack known (cs.mapM constant) _ :=
      .mapM fun c member => constant_accepts (scalar c member)
    refine inTurn.bind fun shapes exact => ?_
    refine (Keeps.draw (unionOf_accepts false exact)).bind fun shape accepts =>
      .pure ⟨accepts.congr fun v _ => ?_, rfl⟩
    simp [valid_of_bare only, valid_iff, satisfies_iff]
  | @array _ items? inside only =>
    have set : k.items? = items? := congrArg Keywords.items? only
    rw [← dispatch_bare, only]
    have inList : Keeps stack known (array derive site { type := .one "array", items? := items? }) _ :=
      array_exact (fun s equal => by simp [isBareOneOf, oneOf_eq_none (inside s equal)]) rfl
        fun s equal => below .items s (set.trans equal) (inside s equal)
    refine inList.imp fun r both => ⟨both.1.congr fun v inst => ?_, both.2⟩
    rw [valid_of_bare only, valid_array_iff inst]
  | @object _ props? required? additional? branches? parts? inside named additional admits declared
      branches parts only =>
    have properties : k.properties? = props?.map (·.map fun prop => (prop.1, some prop.2)) :=
      congrArg Keywords.properties? only
    have undeclared : k.additionalProperties? = additional? := congrArg Keywords.additionalProperties? only
    have allOf : k.allOf? = parts?.map (·.map some) := congrArg Keywords.allOf? only
    rw [← dispatch_bare, only]
    refine (object_exact root request rfl rfl rfl rfl ?_ named admits declared
      branches ?_ ?_ ?_).imp fun r both =>
      ⟨both.1.congr fun v inst => ?_, both.2⟩
    · exact nodup_of_ordered ordered properties
    · exact fun prop member => below (.property prop.1) prop.2
        (child?_of_property ordered properties member) (inside prop member)
    · exact fun s equal => below .additionalProperties s (undeclared.trans equal) (additional s equal)
    · intro i s here
      refine below (.allOf i) s ?_ (parts s (mem_of_getElem? here))
      cases parts? with
      | none => cases here
      | some list => simp [child?, keywords, allOf, show list[i]? = some s from here]
    · rw [valid_of_bare only, valid_object_iff inst]
  | @anyOf _ list inside only =>
    have set : k.anyOf? = some (list.map some) := congrArg Keywords.anyOf? only
    rw [← dispatch_bare, only]
    have inTurn : Keeps stack known (each derive site .anyOf (site.path.field "anyOf")
        (list.map some)) _ :=
      each_exact fun i s here => below (.anyOf i) s (by simp [child?, keywords, set, here])
        (inside s (mem_of_getElem? here))
    refine inTurn.bind ?_
    rintro ⟨shapes, low?⟩ ⟨exact, rfl⟩
    refine (Keeps.draw (unionOf_accepts true exact)).bind fun shape accepts =>
      .pure ⟨accepts.congr fun v _ => ?_, rfl⟩
    simp [valid_of_bare only, valid_iff, satisfies_iff]
  | @allOf _ list inside only =>
    have set : k.allOf? = some (list.map some) := congrArg Keywords.allOf? only
    rw [← dispatch_bare, only]
    have inTurn : Keeps stack known (each derive site .allOf (site.path.field "allOf")
        (list.map some)) _ :=
      each_exact fun i s here => below (.allOf i) s (by simp [child?, keywords, set, here])
        (inside s (mem_of_getElem? here))
    refine inTurn.bind ?_
    rintro ⟨shapes, low?⟩ ⟨exact, rfl⟩
    refine (intersectAll_accepts exact).bind fun shape accepts => .pure ⟨accepts.congr fun v _ => ?_, rfl⟩
    simp [valid_of_bare only, valid_iff, satisfies_iff]
  | @ref _ name s declared only =>
    have set : k.ref = definitionRef name := congrArg Keywords.ref only
    obtain ⟨target?, table, resolved, derives⟩ := follow name s set declared
    have plainNode : k.boolean? = none := congrArg Keywords.boolean? only
    have followed : dispatch derive site k = derive target? table (refPath k.ref) := by
      unfold dispatch
      rw [plainNode, resolved, if_pos (by simp [set, definitionRef_ne])]
    rw [followed]
    refine (derives _).imp fun r derived => ⟨derived.exact.congr fun v _ => ?_, derived.ends⟩
    have same (name' : String) : definitionRef name = definitionRef name' ↔ name' = name :=
      ⟨fun equal => (definitionRef_injective equal).symm, fun equal => by rw [equal]⟩
    simp [valid_of_bare only, valid_iff, satisfies_iff, definitionRef_ne, same, declared]

end JsonShape.Derivation
