import JsonShape.Proofs.Ledger
import JsonShape.Proofs.Meet

/-! The rules of derivation give the shapes that the alternatives of a schema ask for. -/
namespace JsonShape
open List Shape

theorem Fresh.Yields.ensures {α : Type} {f : Fresh α} {good : α → Prop} (yields : f.Yields good) :
    f.Ensures good := by
  intro n a n' ran
  obtain ⟨b, m, equal, holds⟩ := yields n
  obtain ⟨rfl, -⟩ := Prod.mk.inj (Except.ok.inj (equal.symm.trans ran))
  exact holds

theorem mapM_eq_some_iff {α β : Type} {f : α → Option β} {items : List α} {results : List β} :
    items.mapM f = some results ↔ Forall₂ (fun a b => f a = some b) items results := by
  induction items generalizing results with
  | nil => simp [eq_comm]
  | cons a rest ih =>
    rw [mapM_cons, forall₂_cons_left_iff]
    simp only [Option.bind_eq_bind, Option.bind_eq_some_iff, Option.pure_def, Option.some.injEq, ih]
    constructor
    · rintro ⟨b, here, more, later, rfl⟩
      exact ⟨b, more, here, later, rfl⟩
    · rintro ⟨b, more, here, later, rfl⟩
      exact ⟨b, here, more, later, rfl⟩

theorem unionOf_of_tidy (inclusive : Bool) (shapes : List Shape) :
    (unionOf inclusive shapes).Ensures fun s => (∀ m ∈ shapes, m.Tidy fun _ => True) →
      s.Tidy (fun _ => True) ∧ ∀ g v, Inhabits g s v ↔ SomeInhabits g shapes v :=
  fun n s n' ran tidy => (unionOf_yields inclusive tidy trivial trivial).ensures n s n' ran

namespace Derivation

variable {views : List (Property View)} {view? : Option View}

namespace Forms

variable {kids : View → Shape → Prop} {w : View} {c s : Shape} {shapes : List Shape}

theorem leaf {s₀ : Shape} (tidy : s.Tidy fun _ => True)
    (accepts : ∀ g v, Inhabits g s v ↔ Inhabits {} s₀ v) : Forms kids [.leaf s₀] s :=
  ⟨tidy, [.leaf s₀], .cons (.leaf s₀) .nil, fun g v => by simp [Alternative.Admits, accepts]⟩

theorem flat {s₀ : Shape} (flat : s.isFlat = true) (flat' : s₀.isFlat = true)
    (same : s.kind = s₀.kind) : Forms kids [.leaf s₀] s := by
  refine leaf (.flat flat trivial) fun g v => ?_
  by_cases free : s = .any
  · subst free
    obtain rfl : s₀ = .any := eq_any_of_kind same.symm
    exact ⟨fun _ => .any v, fun _ => .any v⟩
  · have free' : s₀ ≠ .any := by
      rintro rfl
      exact free (eq_any_of_kind same)
    rw [Inhabits.flat_iff flat free, Inhabits.flat_iff flat' free', same]

theorem same (kid : kids w c) (tidy : c.Tidy fun _ => True) : Forms kids [.same w] c :=
  ⟨tidy, [.same c], .cons (.same kid) .nil, fun g v => by simp [Alternative.Admits]⟩

theorem list (kid : kids w c) (tidy : c.Tidy fun _ => True) (n : Nat) :
    Forms kids [.list w] (.array n c) :=
  ⟨.array tidy, [.list c], .cons (.list kid) .nil,
    fun g v => by simp [Alternative.Admits, Inhabits.array_iff]⟩

theorem record {props sorted : List (Property Shape)} {extra? : Option Shape}
    (each : Forall₂ (PropertyLift kids) views props) (extra : Option.Rel kids view? extra?)
    (permuted : sorted.Perm props) (inside : ∀ w c, kids w c → c.Tidy fun _ => True) (n : Nat) :
    Forms kids [.record views view?] (.object n sorted extra?) := by
  refine ⟨.object trivial (fun p member => ?_) (fun s equal => ?_), [.record props extra?],
    .cons (.record each extra) .nil, fun g v => ?_⟩
  · obtain ⟨q, -, same⟩ := exists_left_of_mem each (permuted.mem_iff.mp member)
    exact inside _ _ same.shape
  · subst equal
    cases extra with
    | some kid => exact inside _ _ kid
  · simp only [Inhabits.object_iff, mem_singleton, exists_eq_left, Alternative.Admits,
      property?_eq_none_iff, permuted.mem_iff]

theorem never : Forms kids [] .never :=
  ⟨.flat rfl trivial, [], .nil, fun g v => by simp [Inhabits.not_never]⟩

theorem cons_void {alts : List (Alternative View)} {views : List View} (forms : Forms kids alts s)
    (each : Forall₂ kids views shapes) : Forms kids (.void views :: alts) s := by
  obtain ⟨parts, lifts, accepts⟩ := forms.members
  exact ⟨forms.tidy, .void shapes :: parts, .cons (.void each) lifts,
    fun g v => by simp [accepts, Alternative.Admits]⟩

theorem union {altss : List (List (Alternative View))} (each : Forall₂ (Forms kids) altss shapes)
    (tidy : s.Tidy fun _ => True) (accepts : ∀ g v, Inhabits g s v ↔ SomeInhabits g shapes v) :
    Forms kids altss.flatten s := by
  refine ⟨tidy, ?_⟩
  have members : ∃ parts : List (Alternative Shape), Forall₂ (Alternative.Lift kids) altss.flatten parts ∧
      ∀ g v, SomeInhabits g shapes v ↔ ∃ a ∈ parts, a.Admits (Inhabits g) v := by
    clear accepts tidy
    induction each with
    | nil => exact ⟨[], .nil, by simp [SomeInhabits]⟩
    | cons here _ ih =>
      obtain ⟨parts, lifts, accepts⟩ := here.members
      obtain ⟨rest, lifts', accepts'⟩ := ih
      refine ⟨parts ++ rest, rel_append lifts lifts', fun g v => ?_⟩
      have later := accepts' g v
      simp only [SomeInhabits] at later ⊢
      simp only [mem_cons, or_and_right, exists_or, exists_eq_left, accepts, later, mem_append]
  obtain ⟨parts, lifts, all⟩ := members
  exact ⟨parts, lifts, fun g v => (accepts g v).trans (all g v)⟩

end Forms

def Unites (kids : View → Shape → Prop) (shapes : List Shape) (s : Shape) : Prop :=
  ∀ altss, Forall₂ (Forms kids) altss shapes → Forms kids altss.flatten s

theorem Unites.each {kids : View → Shape → Prop} {shapes : List Shape} {s : Shape}
    (unites : Unites kids shapes s) {alts : List (Alternative View)}
    (each : Forall₂ (fun a c => Forms kids [a] c) alts shapes) : Forms kids alts s := by
  have single : (alts.map fun a => [a]).flatten = alts := by rw [← flatMap_def, flatMap_singleton']
  exact single ▸ unites (alts.map fun a => [a]) (forall₂_map_left_iff.mpr each)

def Recurs (R : Realm) (keys : List Key) (W : View → Prop) (recur : Recur) : Prop :=
  ∀ location? t path, (location?.isSome = true → R.seen t) →
    Ends R keys (W ⟨location?, t⟩) (recur location? t path) fun ω r => Gives R ω ⟨location?, t⟩ r.1

/-- A shape that the alternatives of a schema ask for, if there is nothing to report. -/
def FormedBy (R : Realm) (ω : World) (t : Table) (rule : Option (List (Alternative Hop)))
    (s : Shape) : Prop :=
  ∃ alts, rule = some alts ∧ Forms (Gives R ω) (alts.map (.map (Hop.view R.corpus t))) s

variable {R : Realm} {keys : List Key} {W : View → Prop} {recur : Recur} {location : Location}
  {t : Table} {path : Path} {depth : Nat} {k : Keywords Schema}
  {entries : List (String × Option Schema)} {names : List String}
variable {clean : Prop} {name : String} {props : List (Property Shape)} {extra? : Option Shape} {ω : World}

abbrev Uses (R : Realm) (W : View → Prop) (t : Table) : Option (List (Alternative Hop)) → Prop :=
  Clean fun h => W (h.view R.corpus t)

theorem constant_ends {v : Value} (document : v.Document) :
    Ends R keys clean (constant v) fun _ s => ∀ kids, Forms kids [.leaf (constantShape v)] s := by
  have literal : Ends R keys clean (draw (ofLiteral v)) fun _ s =>
      ∀ kids, Forms kids [.leaf (.literal 0 v)] s := by
    refine .draw (.serial fun n => .pure fun kids => .leaf (.literal document trivial) fun g w => ?_)
    rw [Inhabits.literal_iff, Inhabits.literal_iff]
  cases v with
  | null => exact .pure fun _ _ => .flat rfl rfl rfl
  | _ => exact literal

theorem union_ends (inclusive : Bool) (shapes : List Shape) :
    Ends R keys clean (draw (unionOf inclusive shapes)) fun _ s => ∀ kids, Unites kids shapes s := by
  refine (Ends.draw (unionOf_of_tidy inclusive shapes)).imp id fun ω s united kids altss each => ?_
  have tidy : ∀ m ∈ shapes, m.Tidy fun _ => True := by
    intro m member
    obtain ⟨i, -, forms⟩ := exists_left_of_mem each member
    exact forms.tidy
  obtain ⟨tidy, accepts⟩ := united tidy
  exact .union each tidy accepts

theorem each_ends (recurs : Recurs R keys W recur) (seen : R.seen t) (step : Nat → Step)
    (path' : Path) (list : List (Option Schema)) :
    Ends R keys (Uses R W t (some (branchAlternatives location step list)))
      (each recur ⟨R.corpus, R.options, location, t, path, depth⟩ step path' list) fun ω r =>
      Forall₂ (fun a c => Forms (Gives R ω) [a] c)
      ((branchAlternatives location step list).map (.map (Hop.view R.corpus t))) r.1 := by
  unfold each
  refine .bind (.mapM fun i member => (recurs _ t _ fun _ => seen).imp ?_ fun ω r given => given)
    fun results => .pure fun ω given => ?_
  · exact fun clean => clean.uses (mem_map.mpr ⟨i, member, rfl⟩) (mem_singleton_self _)
  · rw [branchAlternatives, map_map, forall₂_map_left_iff, forall₂_map_right_iff]
    exact given.imp fun i r given => .same given given.tidy

theorem array_ends (recurs : Recurs R keys W recur) (seen : R.seen t) :
    Ends R keys (Uses R W t (some (listAlternatives location k)))
      (array recur ⟨R.corpus, R.options, location, t, path, depth⟩ k) fun ω r =>
      FormedBy R ω t (some (listAlternatives location k)) r.1 := by
  have listed {clean : Prop} (s : Shape) : Ends R keys clean (draw (ofItems s)) fun _ c =>
      ∃ n, c = .array n s :=
    .draw (.serial fun n => .pure ⟨n, rfl⟩)
  unfold array listAlternatives
  cases k.items? with
  | none =>
    refine .bind (listed .any) fun c => .pure ?_
    rintro ω ⟨n, rfl⟩
    exact ⟨_, rfl, .list (.nowhere rfl) (.flat rfl trivial) n⟩
  | some items =>
    dsimp only
    cases (if isBareOneOf items.keywords then items.keywords.oneOf? else none) with
    | none =>
      refine .bind ((recurs (some (location.child .items)) t _ fun _ => seen).imp ?_
        fun ω r given => given) fun r => ?_
      · exact fun clean => clean.uses (mem_singleton_self _) (mem_singleton_self _)
      · refine .bind (listed r.1) fun c => .pure ?_
        rintro ω ⟨n, rfl⟩ given
        exact ⟨_, rfl, .list given given.tidy n⟩
    | some list =>
      have inside : R.seen (t.enter R.corpus (location.child .items)) := R.enter t _ seen
      have one (i : Option Schema × Nat) (path : Path) : Ends R keys
          (W (Hop.view R.corpus t ⟨i.1.map fun _ => (location.child .items).child (.oneOf i.2),
          some (location.child .items)⟩)) (do
            let r ← recur (i.1.map fun _ => (location.child .items).child (.oneOf i.2))
                (t.enter R.corpus (location.child .items)) path
            return (← draw (ofItems r.1), r.2)) fun ω r => Forms (Gives R ω)
          [.list (Hop.view R.corpus t ⟨i.1.map fun _ => (location.child .items).child (.oneOf i.2),
          some (location.child .items)⟩)] r.1 := by
        refine .bind (recurs _ _ path fun _ => inside) fun r => .bind (listed r.1) fun c => .pure ?_
        rintro ω ⟨n, rfl⟩ given
        exact .list given given.tidy n
      refine .bind (.mapM fun i member => (one i _).imp ?_ fun _ _ => id) fun results =>
        .bind (union_ends false (results.map (·.1))) fun c =>
        .pure fun ω unites each => ⟨_, rfl, (unites _).each ?_⟩
      · exact fun clean => clean.uses (mem_map.mpr ⟨i, member, rfl⟩) (mem_singleton_self _)
      · rw [map_map, forall₂_map_left_iff, forall₂_map_right_iff]
        exact each

theorem extra_ends (recurs : Recurs R keys W recur) (seen : R.seen t) :
    Ends R keys (∀ h ∈ extraHop? location k, W (h.view R.corpus t))
      (extra recur ⟨R.corpus, R.options, location, t, path, depth⟩ k) fun ω r =>
      Option.Rel (Gives R ω) ((extraHop? location k).map (Hop.view R.corpus t)) r.1 := by
  unfold extra extraHop?
  cases k.additionalProperties? with
  | none => exact .pure fun _ => .none
  | some s =>
    dsimp only
    rcases s.keywords.boolean? with _ | _ | _
    · refine .bind ((recurs (some (location.child .additionalProperties)) t _ fun _ => seen).imp
        (fun uses => uses _ rfl) fun _ _ => id) fun r => ?_
      exact .pure fun ω given => .some given
    · exact .pure fun _ => .none
    · exact .pure fun _ => .some (.nowhere rfl)

theorem property_returns (name : String) (s? : Option Schema) (site : Site) :
    Returns (property recur site k name s?) fun r => r.1.name = name :=
  .bind (.trivial _) fun _ _ => .pure rfl

theorem property_ends (recurs : Recurs R keys W recur) (seen : R.seen t) (tame : Tame R.options k)
    (declares : k.properties? = some entries) {s? : Option Schema} (member : (name, s?) ∈ entries) :
    Ends R keys (W ((propertyHop R.options location k name s?).shape.view R.corpus t))
      (property recur ⟨R.corpus, R.options, location, t, path, depth⟩ k name s?) fun ω r =>
      PropertyLift (Gives R ω)
      ((propertyHop R.options location k name s?).map (Hop.view R.corpus t)) r.1 := by
  unfold property
  refine .bind (recurs _ t _ fun _ => seen) fun r => .pure fun ω given => ⟨rfl, ?_, given⟩
  cases required : k.isRequired name with
  | false => simp [propertyHop, Property.map, required]
  | true =>
    rcases tame.steady with strict | free
    · simp [propertyHop, Property.map, required, strict]
    · cases s? with
      | none => simp [propertyHop, Property.map, required]
      | some s =>
        have plain : s.keywords.ref = "" := free entries declares name s member required
        simp [propertyHop, Property.map, required, Site.child?, leadsToContainer, plain]

theorem variants_returns {base : Shape} (branches : List (Option Schema × Nat)) :
    Returns (variants base props extra? branches) fun out => out.isOk = true ↔
      RequiresDeclared (props.map (·.name)) (branches.map (·.1)) := by
  induction branches with
  | nil => exact .pure (by simp [RequiresDeclared, Except.isOk, Except.toBool])
  | cons branch rest ih =>
    obtain ⟨s?, i⟩ := branch
    have undeclared : ((branchRequires s?).find? fun name => (property? props name).isNone) = none ↔
        ∀ name ∈ branchRequires s?, name ∈ props.map (·.name) := by
      simp [find?_eq_none, property?]
    have split : RequiresDeclared (props.map (·.name)) (((s?, i) :: rest).map (·.1)) ↔
        (∀ name ∈ branchRequires s?, name ∈ props.map (·.name)) ∧
        RequiresDeclared (props.map (·.name)) (rest.map (·.1)) := by
      simp [RequiresDeclared]
    unfold variants
    rw [split, ← undeclared, ← branchRequires]
    dsimp only
    cases (branchRequires s?).find? fun name => (property? props name).isNone with
    | some name => exact .pure (by simp [Except.isOk, Except.toBool])
    | none =>
      refine .bind (.trivial _) fun variant _ => .bind ih fun out declares => ?_
      cases out with
      | ok more => exact .pure (by simpa [Except.isOk, Except.toBool] using declares)
      | error undeclared => exact .pure (by simpa using declares)

structure Fills (R : Realm) (ω : World) (views : List (Property View)) (view? : Option View)
    (props : List (Property Shape)) (extra? : Option Shape) : Prop where
  each : Forall₂ (PropertyLift (Gives R ω)) views props
  extra : Option.Rel (Gives R ω) view? extra?

theorem Fills.requiring (fills : Fills R ω views view? props extra?) (names : List String) :
    Fills R ω (views.map (Derivation.requiring names)) view?
      (props.map (Derivation.requiring names)) extra? := by
  refine ⟨?_, fills.extra⟩
  rw [forall₂_map_left_iff, forall₂_map_right_iff]
  refine fills.each.imp fun p q same => ⟨same.name, ?_, same.shape⟩
  unfold Derivation.requiring
  rw [same.optional, same.name]

theorem ofProperties_ends (props : List (Property Shape)) (extra? : Option Shape) :
    Ends R keys clean (draw (ofProperties props extra?)) fun ω s => ∀ views view?,
      Fills R ω views view? props extra? → Forms (Gives R ω) [.record views view?] s := by
  have drawn : Ends R keys clean (draw (ofProperties props extra?)) fun _ s =>
      ∃ n, s = .object n (sortProperties props) extra? :=
    .draw (.serial fun n => .pure ⟨n, rfl⟩)
  refine drawn.imp id ?_
  rintro ω _ ⟨n, rfl⟩ views view? fills
  exact .record fills.each fills.extra (sortProperties_perm props) (fun _ _ given => given.tidy) n

theorem withRequired_ends (base : Shape) (props : List (Property Shape)) (extra? : Option Shape)
    (names : List String) :
    Ends R keys clean (withRequired base props extra? names) fun ω s =>
      ∀ views view?, Fills R ω views view? props extra? → Forms (Gives R ω) [.record views view?]
      base → Forms (Gives R ω) [.record (views.map (requiring names)) view?] s := by
  unfold withRequired
  split_ifs with none
  · have unchanged : ∀ views : List (Property View), views.map (requiring names) = views := by
      intro views
      rw [isEmpty_iff.mp none]
      exact map_id'' (fun p => by simp [requiring]) views
    exact .pure fun ω views view? _ forms => (unchanged views).symm ▸ forms
  · exact (ofProperties_ends _ extra?).imp id fun ω s forms views view? fills _ =>
      forms _ view? (fills.requiring names)

theorem variants_ends (base : Shape) (props : List (Property Shape)) (extra? : Option Shape)
    (branches : List (Option Schema × Nat)) :
    Ends R keys clean (variants base props extra? branches) fun ω out =>
      ∀ shapes, out = .ok shapes → ∀ views view?, Fills R ω views view? props extra? →
      Forms (Gives R ω) [.record views view?] base → Forall₂ (fun a c => Forms (Gives R ω) [a] c)
      (branches.map fun b => .record (views.map (requiring (branchRequires b.1))) view?)
      shapes := by
  induction branches with
  | nil => exact .pure fun ω shapes equal views view? _ _ => Except.ok.inj equal ▸ .nil
  | cons branch rest ih =>
    obtain ⟨s?, i⟩ := branch
    unfold variants
    rw [← branchRequires]
    dsimp only
    cases (branchRequires s?).find? fun name => (property? props name).isNone with
    | some name => exact .pure fun ω shapes equal => (by cases equal)
    | none =>
      refine .bind (withRequired_ends base props extra? (branchRequires s?)) fun variant =>
        .bind ih fun out => ?_
      cases out with
      | error undeclared => exact .pure fun ω _ _ shapes equal => (by cases equal)
      | ok more =>
        refine .pure fun ω later here shapes equal views view? fills forms => ?_
        rw [← Except.ok.inj equal]
        exact .cons (here views view? fills forms) (later more rfl views view? fills forms)

theorem combine_eq (tame : Tame R.options k) (record : k.type.has "object" = true) (site : Site)
    (result : Result) : combine recur site k result = pure result := by
  unfold combine
  rw [tame.allOf, tame.oneOf record]
  rfl

abbrev FillsRecord (R : Realm) (ω : World) (location : Location) (t : Table) (k : Keywords Schema) :
    List (Property Shape) → Option Shape → Prop :=
  Fills R ω ((propertyHops R.options location k).map (.map (Hop.view R.corpus t)))
    ((extraHop? location k).map (Hop.view R.corpus t))

theorem Fills.parts (fills : FillsRecord R ω location t k props extra?) :
    Forall₂ (Gives R ω) ((recordParts R.options location k).map (Hop.view R.corpus t))
      (props.map (·.shape) ++ extra?.toList) := by
  rw [recordParts, map_append]
  refine rel_append ?_ ?_
  · have each := fills.each
    rw [forall₂_map_left_iff] at each
    rw [map_map, forall₂_map_left_iff, forall₂_map_right_iff]
    exact each.imp fun p q same => same.shape
  · have extra := fills.extra
    generalize extraHop? location k = hop? at extra
    cases hop? with
    | none =>
      cases extra
      exact .nil
    | some h =>
      cases extra with
      | some given => exact .cons given .nil

theorem inexpressible_ends
    (rule : recordAlternatives R.options location k = if R.options.strict then
      none else some [.void (recordParts R.options location k)]) (props : List (Property Shape))
    (extra? : Option Shape) (path : Path) (message : String) :
    Ends R keys (Uses R W t (recordAlternatives R.options location k))
      (malformed R.options path message) fun ω r => FillsRecord R ω location t k props extra? →
      FormedBy R ω t (recordAlternatives R.options location k) r.1 := by
  rw [rule]
  refine (Ends.malformed path message fun lenient ω fills => ?_).imp ?_ fun _ _ => id
  · rw [lenient]
    exact ⟨_, rfl, Forms.never.cons_void fills.parts⟩
  · rintro ⟨alts, equal, -⟩
    split_ifs at equal with strict
    exact Bool.eq_false_iff.mpr strict

theorem branches_ends (tame : Tame R.options k) (record : k.type.has "object" = true)
    (declares : k.properties? = some entries) {branches : List (Option Schema)}
    (several : k.anyOf? = some branches) (names : props.map (·.name) = entries.map (·.1))
    (extra? : Option Shape) (base : Shape) (site : Site) (low : Option Nat) :
    Ends R keys (Uses R W t (recordAlternatives R.options location k))
      (do match ← variants base props extra? branches.zipIdx with
      | .error (i, name) =>
        malformed R.options ((site.path.field "anyOf").index i)
          ("anyOf branch requires undeclared property " ++ Text.Quoted.quote name)
      | .ok shapes => combine recur site k (← draw (unionOf true shapes), low)) fun ω r =>
      FillsRecord R ω location t k props extra? → Forms (Gives R ω)
        [.record ((propertyHops R.options location k).map (.map (Hop.view R.corpus t)))
        ((extraHop? location k).map (Hop.view R.corpus t))] base →
        FormedBy R ω t (recordAlternatives R.options location k) r.1 := by
  refine .bind_returns (variants_returns branches.zipIdx)
    (variants_ends base props extra? branches.zipIdx) fun out decided => ?_
  rw [names, zipIdx_map_fst] at decided
  cases out with
  | error undeclared =>
    refine (inexpressible_ends ?_ props extra? _ _).imp id fun ω r formed _ fills _ => formed fills
    have missing : ¬ RequiresDeclared (entries.map (·.1)) branches := fun all => nomatch decided.mpr all
    unfold recordAlternatives
    simp [several, declares, missing]
  | ok shapes =>
    have rule : recordAlternatives R.options location k =
        some (.void (recordParts R.options location k) :: branches.map fun s? =>
        .record ((propertyHops R.options location k).map (requiring (branchRequires s?)))
          (extraHop? location k)) := by
      unfold recordAlternatives
      simp only [several, declares]
      exact if_pos ⟨rfl, decided.mp rfl⟩
    refine .bind (union_ends true shapes) fun s => ?_
    rw [combine_eq tame record]
    refine .pure fun ω unites variants fills forms => ⟨_, rule, ((unites _).each ?_).cons_void fills.parts⟩
    have same : (branches.zipIdx.map fun b =>
        Alternative.record (((propertyHops R.options location k).map
        (.map (Hop.view R.corpus t))).map
        (requiring (branchRequires b.1))) ((extraHop? location k).map (Hop.view R.corpus t))) =
        (branches.map fun s? =>
        .record ((propertyHops R.options location k).map (requiring (branchRequires s?)))
          (extraHop? location k)).map (.map (Hop.view R.corpus t)) := by
      conv_rhs => rw [← zipIdx_map_fst 0 branches]
      simp only [map_map, Function.comp_def, Alternative.map]
      rfl
    exact same ▸ variants shapes rfl _ _ fills forms

theorem object_ends (recurs : Recurs R keys W recur) (seen : R.seen t) (tame : Tame R.options k)
    (record : k.type.has "object" = true) :
    Ends R keys (Uses R W t (recordAlternatives R.options location k))
      (object recur ⟨R.corpus, R.options, location, t, path, depth⟩ k) fun ω r =>
      FormedBy R ω t (recordAlternatives R.options location k) r.1 := by
  have uses : Uses R W t (recordAlternatives R.options location k) →
      ∀ h ∈ recordParts R.options location k, W (h.view R.corpus t) := by
    rintro ⟨alts, rule, each⟩ h member
    obtain ⟨a, member', used⟩ := exists_uses_of_mem_recordParts _ _ _ rule member
    exact each a member' h used
  have plain (single : k.anyOf? = none) : recordAlternatives R.options location k =
      some [.record (propertyHops R.options location k) (extraHop? location k)] := by
    unfold recordAlternatives
    rw [single]
  unfold object
  refine .bind ((extra_ends recurs seen).imp ?_ fun _ _ => id) fun extra => ?_
  · exact fun clean h member => uses clean h (mem_append_right _ (Option.mem_toList.mpr member))
  cases declares : k.properties? with
  | none =>
    have fills : ∀ ω, Option.Rel (Gives R ω) ((extraHop? location k).map (Hop.view R.corpus t)) extra.1 →
        FillsRecord R ω location t k [] extra.1 := by
      refine fun ω given => ⟨?_, given⟩
      rw [propertyHops, declares]
      exact .nil
    dsimp only
    cases branches : k.anyOf? with
    | none =>
      rw [if_neg (by simp)]
      refine .bind (ofProperties_ends [] extra.1) fun s => ?_
      rw [combine_eq tame record]
      refine .pure fun ω forms given => ⟨_, plain branches, forms _ _ (fills ω given)⟩
    | some branches =>
      rw [if_pos (by simp)]
      refine (inexpressible_ends ?_ [] extra.1 _ _).imp id fun ω r formed given => formed (fills ω given)
      unfold recordAlternatives
      simp [branches, declares]
  | some entries =>
    have hops : propertyHops R.options location k = entries.map fun e =>
        propertyHop R.options location k e.1 e.2 := by
      rw [propertyHops, declares]
      rfl
    refine .bind_returns (.mapM fun entry _ => property_returns entry.1 entry.2 _)
      (.mapM fun entry member => (property_ends recurs seen tame declares member).imp ?_ fun _ _ =>
      id) fun results named => ?_
    · refine fun clean => uses clean _ (mem_append_left _ ?_)
      rw [hops]
      exact mem_map_of_mem (mem_map_of_mem member)
    have names : (results.map (·.1)).map (·.name) = entries.map (·.1) := by
      have equal : Forall₂ Eq (results.map (·.1.name)) (entries.map (·.1)) := by
        rw [forall₂_map_left_iff, forall₂_map_right_iff]
        exact named.flip
      rw [forall₂_eq_eq_eq] at equal
      rw [map_map]
      exact equal
    have fills : ∀ ω, Forall₂
        (fun (entry : String × Option Schema) (r : Property Shape × Option Nat) =>
        PropertyLift (Gives R ω)
        ((propertyHop R.options location k entry.1 entry.2).map (Hop.view R.corpus t)) r.1)
        entries results →
        Option.Rel (Gives R ω) ((extraHop? location k).map (Hop.view R.corpus t)) extra.1 →
        FillsRecord R ω location t k (results.map (·.1)) extra.1 := by
      refine fun ω each given => ⟨?_, given⟩
      rw [hops, map_map, forall₂_map_left_iff, forall₂_map_right_iff]
      exact each
    refine .bind (ofProperties_ends (results.map (·.1)) extra.1) fun base => ?_
    cases branches : k.anyOf? with
    | none =>
      dsimp only
      rw [combine_eq tame record]
      exact .pure fun ω forms each given => ⟨_, plain branches, forms _ _ (fills ω each given)⟩
    | some branches =>
      refine (branches_ends tame record declares branches names extra.1 base _ _).imp
        id fun ω r formed forms each given => ?_
      exact formed (fills ω each given) (forms _ _ (fills ω each given))

theorem typed_ends (recurs : Recurs R keys W recur) (seen : R.seen t) (tame : Tame R.options k)
    (declared : k.type.has name = true) :
    Ends R keys (Uses R W t (typedAlternatives R.options location k name))
      (typed recur ⟨R.corpus, R.options, location, t, path, depth⟩ k name) fun ω r =>
      FormedBy R ω t (typedAlternatives R.options location k name) r.1 := by
  have flat {clean : Prop} {s : Shape} (isFlat : s.isFlat = true)
      (rule : typedAlternatives R.options location k name = some [.leaf s]) :
      Ends R keys clean (pure (s, none) : Derive Result) fun ω r =>
      FormedBy R ω t (typedAlternatives R.options location k name) r.1 :=
    .pure fun ω => ⟨_, rule, .flat isFlat isFlat rfl⟩
  unfold typed
  split
  · have rule : typedAlternatives R.options location k "string" = some [.leaf (scalar k "string")] := rfl
    unfold scalar at rule
    split_ifs at rule ⊢
    · have drawn : Ends R keys (Uses R W t (typedAlternatives R.options location k "string"))
          (draw (ofFormat k.format))
          fun _ s => s.isFlat = true ∧ s.kind = .dateTime := .draw (.serial fun n => .pure ⟨rfl, rfl⟩)
      exact .bind drawn fun s => .pure fun ω kind => ⟨_, rule, .flat kind.1 rfl kind.2⟩
    · exact flat rfl rule
    · exact flat rfl rule
  · exact flat rfl rfl
  · exact flat rfl rfl
  · exact flat rfl rfl
  · exact flat rfl rfl
  · exact object_ends recurs seen tame declared
  · exact array_ends recurs seen
  · refine flat rfl ?_
    unfold typedAlternatives scalar
    split
    · contradiction
    · contradiction
    · split <;> first | contradiction | rfl

theorem clean_of_mapM {α : Type} {P : α → Prop} {rule : String → Option (List (Alternative α))}
    (member : name ∈ names) (clean : Clean P ((names.mapM rule).map flatten)) : Clean P (rule name) := by
  obtain ⟨alts, equal, each⟩ := clean
  obtain ⟨altss, rules, rfl⟩ := Option.map_eq_some_iff.mp equal
  obtain ⟨own, inside, found⟩ := exists_right_of_mem (mapM_eq_some_iff.mp rules) member
  exact ⟨own, found, fun a listed => each a (mem_flatten.mpr ⟨own, inside, listed⟩)⟩

theorem FormedBy.mapM {rule : String → Option (List (Alternative Hop))} {results : List Result}
    (each : Forall₂ (fun name r => FormedBy R ω t (rule name) r.1) names results) :
    ∃ altss, names.mapM rule = some altss ∧ Forall₂ (Forms (Gives R ω))
      (altss.map (map (.map (Hop.view R.corpus t)))) (results.map (·.1)) := by
  induction each with
  | nil => exact ⟨[], rfl, .nil⟩
  | cons here _ ih =>
    obtain ⟨alts, equal, forms⟩ := here
    obtain ⟨altss, rules, later⟩ := ih
    refine ⟨alts :: altss, ?_, .cons forms later⟩
    rw [mapM_cons, equal, rules]
    rfl

theorem own_ends (recurs : Recurs R keys W recur) (seen : R.seen t) (tame : Tame R.options k)
    (own : k.boolean?.isSome = true ∨ k.ref = "") :
    Ends R keys (Uses R W t (ownAlternatives R.options location k))
      (dispatch recur ⟨R.corpus, R.options, location, t, path, depth⟩ k) fun ω r =>
      FormedBy R ω t (ownAlternatives R.options location k) r.1 := by
  unfold dispatch ownAlternatives
  cases fixed : k.boolean? with
  | some b =>
    cases b with
    | false => exact .pure fun ω => ⟨_, rfl, .never⟩
    | true => exact .pure fun ω => ⟨_, rfl, .flat rfl rfl rfl⟩
  | none =>
    have plain : k.ref = "" := own.resolve_left (by simp [fixed])
    dsimp only
    rw [if_neg (by simp [plain])]
    cases constant : k.const? with
    | some v =>
      exact .bind (constant_ends (tame.const v constant)) fun s => .pure fun ω forms => ⟨_, rfl, forms _⟩
    | none =>
      cases listed : k.enum? with
      | some values =>
        refine .bind (.mapM fun v member => constant_ends (tame.enum values listed v member))
          fun shapes => ?_
        refine .bind (union_ends false shapes) fun s => .pure fun ω unites each =>
          ⟨_, rfl, (unites _).each ?_⟩
        rw [map_map, forall₂_map_left_iff]
        exact each.imp fun v c forms => forms _
      | none =>
        cases types : k.type with
        | one name => exact typed_ends recurs seen tame (by simp [types, TypeSet.has, TypeSet.names])
        | list names =>
          refine .bind (.mapM fun name member => (typed_ends recurs seen tame ?_).imp
            (clean_of_mapM member) fun _ _ => id) fun results => ?_
          · simpa [types, TypeSet.has, TypeSet.names] using member
          refine .bind (union_ends false (results.map (·.1))) fun s => .pure fun ω unites each => ?_
          obtain ⟨altss, rule, forms⟩ := FormedBy.mapM each
          refine ⟨altss.flatten, congrArg (Option.map flatten) rule, ?_⟩
          rw [map_flatten]
          exact unites _ _ forms
        | absent =>
          cases k.anyOf? with
          | some list =>
            refine .bind (each_ends recurs seen .anyOf _ list) fun r =>
              .bind (union_ends true r.1) fun s => ?_
            exact .pure fun ω unites each => ⟨_, rfl, (unites _).each each⟩
          | none =>
            rw [tame.allOf]
            cases k.oneOf? with
            | some list =>
              refine .bind (each_ends recurs seen .oneOf _ list) fun r =>
                .bind (union_ends false r.1) fun s => ?_
              exact .pure fun ω unites each => ⟨_, rfl, (unites _).each each⟩
            | none => exact .pure fun ω => ⟨_, rfl, .flat rfl rfl rfl⟩

theorem dispatch_ends (recurs : Recurs R keys W recur) (seen : R.seen t) (tame : Tame R.options k) :
    Ends R keys (Clean W (R.alternatives location t k))
      (dispatch recur ⟨R.corpus, R.options, location, t, path, depth⟩ k) fun ω r =>
      ∃ alts, R.alternatives location t k = some alts ∧ Forms (Gives R ω) alts r.1 := by
  unfold Realm.alternatives alternatives
  split_ifs with reference
  · obtain ⟨free, named⟩ := Bool.and_eq_true_iff.mp reference
    unfold dispatch
    rw [Option.isNone_iff_eq_none.mp free]
    dsimp only
    rw [if_pos named]
    cases found : t.resolve R.corpus k.ref with
    | some target =>
      refine (recurs target.1 target.2 (refPath k.ref) fun _ =>
        R.resolve t target.2 k.ref target.1 seen found).imp ?_ fun ω r given => ?_
      · exact fun clean => clean.uses (mem_singleton_self _) (mem_singleton_self _)
      · exact ⟨_, rfl, .same given given.tidy⟩
    | none =>
      refine (Ends.report R.options _ (.pure fun _ => trivial)).imp ?_ fun _ _ => id
      rintro ⟨_, equal, -⟩
      cases equal
  · have own : k.boolean?.isSome = true ∨ k.ref = "" := by simpa [or_iff_not_imp_left] using reference
    refine (own_ends recurs seen tame own).imp ?_ ?_
    · rintro ⟨_, equal, each⟩
      obtain ⟨alts, rule, rfl⟩ := Option.map_eq_some_iff.mp equal
      refine ⟨alts, rule, fun a member h used => each _ (mem_map_of_mem member) _ ?_⟩
      rw [Alternative.uses_map]
      exact mem_map_of_mem used
    · rintro ω r ⟨alts, rule, forms⟩
      exact ⟨_, congrArg (Option.map _) rule, forms⟩

end Derivation

end JsonShape
