import ResourceQuery.Proofs.Filter.Anchored
import ResourceQuery.Proofs.Filter.Truth
import ResourceQuery.Proofs.Specification.Locking
/-!
# Filters that the identifier decides

Only the outermost group is asked whether a filter may lock a record: it knows the paths of all
conditions inside it. Without a base path every call keeps that, and with it that conditions start
at the resource (`Direct.after`). So exactly the filters that test the identifier, and nothing else,
are let through (`checkLock_iff_isById`), and records with one identifier pass them alike.
-/

namespace ResourceQuery

/-- A tree has one truth for valuations that agree on its conditions. -/
theorem FilterTree.holds_congr {v w : Condition → Bool} {t : FilterTree}
    (h : ∀ c ∈ t.conditions, v c = w c) : t.holds v = t.holds w := by
  induction t using FilterTree.induct with
  | condition c => exact h c (by simp [conditions])
  | group junction items ih =>
      rw [holds_group, holds_group]
      congr 1
      refine List.map_congr_left fun item hitem => ih item hitem fun c hc => h c ?_
      rw [conditions, mem_conditionsOf]
      exact ⟨item, hitem, hc⟩

/-- A truth value of a condition depends on atomic tests of its path only. -/
theorem Condition.truth_congr_path {v w : AtomicTest → Bool} {c : Condition}
    (h : ∀ test, test.path = c.path.text → v test = w test) : c.truth v = c.truth w := by
  have hatom : ∀ operand, v (c.atom operand) = w (c.atom operand) := fun _ => h _ rfl
  simp only [truth, passes, hatom]

namespace Filter

/-- A record passes the filter, where records have values at paths and an atomic test asks about the
value at its path. -/
def selects {Record Content : Type} (value : Record → String → Content)
    (judge : AtomicTest → Content → Bool) (f : Filter) (record : Record) : Bool :=
  f.holds (Condition.truth fun test => judge test (value record test.path))

/-- The filter is about records of the type itself. It tests their identifier and nothing else. -/
structure IsById (s : Schema) (f : Filter) (resourceType : String) (id : Property) : Prop where
  ofType : f.resourceType = resourceType
  unbased : f.basePath = none
  identifier : (s.container? resourceType).bind Container.identifier? = some id
  tested : f.conditions ≠ []
  only : ∀ c ∈ f.conditions, c.path.steps = [.property resourceType id]

/-- A filter whose conditions all ask about one path has one truth for one value there. -/
theorem selects_congr {f : Filter} {path : String}
    (hpath : ∀ c ∈ f.conditions, c.path.text = path) {Record Content : Type}
    (value : Record → String → Content) (judge : AtomicTest → Content → Bool) {r r' : Record}
    (halike : value r path = value r' path) :
    f.selects value judge r = f.selects value judge r' := by
  refine FilterTree.holds_congr fun c hc => Condition.truth_congr_path fun test htest => ?_
  rw [htest, hpath c hc, halike]

/-! ## Filters without a base path -/

variable {s : Schema} {f f' : Filter} {resourceType : String}

/-- What a call that leaves the filter without a base path does not change. -/
theorem unbased_of_apply {call : FilterCall} (hcall : call.apply s f = .ok f')
    (hbase : f'.basePath = none) :
    f.basePath = none ∧ f'.resourceType = f.resourceType ∧ f'.scope = f.scope := by
  cases hset : call.setsBasePath with
  | true =>
      obtain ⟨path, rfl⟩ := FilterCall.eq_basePath_of_sets hset
      have hsome := withBasePath_basePath hcall
      rw [hbase] at hsome
      cases hsome
  | false =>
      obtain ⟨hkept, htype, hscope⟩ := kept_of_apply hcall hset
      exact ⟨hkept ▸ hbase, htype, hscope⟩

/-- The filter has no base path, and its conditions start at the resource. -/
structure Direct (s : Schema) (f : Filter) : Prop where
  arranged : f.Arranged
  unbased : f.basePath = none
  scope : f.scope = f.resourceType
  resolved : ∀ c ∈ f.conditions, Path.resolve s f.scope c.path.text = .ok c.path

namespace Direct

theorem all (hall : Filter.all s resourceType = .ok f) : f.Direct s := by
  have harranged := Arranged.all hall
  have hanchored := Anchored.all hall
  obtain ⟨c, -, hall⟩ := bind_eq_ok_iff.1 hall
  cases hall
  exact ⟨harranged, rfl, rfl, fun c => hanchored.resolve_of_mem⟩

theorem anchored (h : f.Direct s) : f.Anchored s where
  nested := h.arranged.nested
  based := by
    unfold Scoped
    rw [h.unbased]
    exact h.scope
  resolved c hc := h.resolved c
    ((h.arranged.nested.mem_conditions_treeAt (by omega) h.arranged.nested.root_lt).2 hc)

theorem apply {call : FilterCall} (h : f.Direct s) (hcall : call.apply s f = .ok f')
    (hbase : f'.basePath = none) : f'.Direct s := by
  obtain ⟨-, htype, hscope⟩ := unbased_of_apply hcall hbase
  have harranged : f'.Arranged := by
    have hafter : f.after s call = f' := by rw [after, hcall]
    exact hafter ▸ h.arranged.after fun _ => h.unbased
  have hanchored := h.anchored.apply hcall
  exact ⟨harranged, hbase, by rw [hscope, htype, h.scope], fun c => hanchored.resolve_of_mem⟩

/-- Filters get a base path and keep it, so one without a base path never had one. -/
theorem foldl_after {calls : List FilterCall} (h : f.basePath = none → f.Direct s)
    (hbase : (calls.foldl (Filter.after s) f).basePath = none) :
    (calls.foldl (Filter.after s) f).Direct s := by
  refine foldl_after_keeps (P := fun g => g.basePath = none → g.Direct s) h ?_ hbase
  intro g call g' hg hcall hnone
  exact (hg (unbased_of_apply hcall hnone).1).apply hcall hnone

/-- The outermost group knows one path alone if that is the path of every condition. -/
theorem used_eq_iff (h : f.Direct s) {text : String} :
    f.used = [text] ↔ f.conditions ≠ [] ∧ ∀ c ∈ f.conditions, c.path.text = text := by
  obtain ⟨g, hg, -⟩ := h.arranged.nested.outermost
  have hused : f.used = NameSet.ofList (f.conditions.map fun c => c.path.text) := by
    rw [Filter.used, group?, hg]
    exact h.arranged.consistent.used root g hg
  have hmem : ∀ path, path ∈ f.used ↔ ∃ c ∈ f.conditions, c.path.text = path := by
    intro path
    rw [hused, NameSet.mem_ofList, List.mem_map]
  constructor
  · intro hone
    simp only [hone, List.mem_singleton] at hmem
    refine ⟨fun hnone => ?_, fun c hc => (hmem _).2 ⟨c, hc, rfl⟩⟩
    obtain ⟨c, hc, -⟩ := (hmem text).1 rfl
    rw [hnone] at hc
    cases hc
  · rintro ⟨hne, hall⟩
    refine NameSet.Sorted.ext (hused ▸ NameSet.sorted_ofList _) (List.pairwise_singleton _ _) ?_
    intro path
    rw [hmem, List.mem_singleton]
    constructor
    · rintro ⟨c, hc, rfl⟩
      exact hall c hc
    · rintro rfl
      obtain ⟨c, hc⟩ := List.exists_mem_of_ne_nil _ hne
      exact ⟨c, hc, hall c hc⟩

/-- A path is named as the identifier if it leads there at once. -/
theorem steps_eq_iff {d : SchemaDocument} (hbuild : d.build = .ok s) (h : f.Direct s)
    {id : Property} (hid : (s.container? f.resourceType).bind Container.identifier? = some id)
    {c : Condition} (hc : c ∈ f.conditions) :
    c.path.steps = [.property f.resourceType id] ↔ c.path.text = id.name := by
  obtain ⟨container, hfound, hid⟩ := Option.bind_eq_some_iff.1 hid
  obtain ⟨hmem, hname⟩ := Schema.container?_some hfound
  have hresolved := h.resolved c hc
  constructor
  · intro hsteps
    rw [← Path.join_names hresolved, hsteps]
    simp [Text.join, PathStep.name]
  · intro htext
    have hown := Path.resolve_property hbuild hmem (List.mem_of_find?_eq_some hid)
    rw [hname, ← h.scope, ← htext] at hown
    rw [Except.ok.inj (hresolved.symm.trans hown), h.scope]

end Direct

/-! ## The filters that are let through -/

theorem checkLock_eq_ok_iff : f.checkLock s resourceType = .ok () ↔
    f.resourceType = resourceType ∧ f.basePath = none ∧
      ∃ id, (s.container? f.scope).bind Container.identifier? = some id ∧ f.used = [id.name] := by
  have hbyId : f.isByIdOnly s = true ↔
      ∃ id, (s.container? f.scope).bind Container.identifier? = some id ∧ f.used = [id.name] := by
    unfold isByIdOnly
    cases (s.container? f.scope).bind Container.identifier? with
    | none => simp
    | some id => simp
  rw [← hbyId]
  simp only [checkLock, throw_bind, ite_error_eq_ok_iff]
  rw [throw_eq_error, ite_error_eq_ok_iff]
  simp [and_assoc, pure, Except.pure]

/-- After any calls on any filter of a built schema, those filters may lock a record of a type that
are about the type, have no base path, and test its identifier with every condition that they have,
at least one. Records with the same identifier pass such a filter alike, whatever values and tests
mean. -/
theorem checkLock_iff_isById {d : SchemaDocument} (hbuild : d.build = .ok s) {start : String}
    (hall : Filter.all s start = .ok f) (calls : List FilterCall) (resourceType : String) :
    ((calls.foldl (after s) f).checkLock s resourceType = .ok () ↔
      ∃ id, (calls.foldl (after s) f).IsById s resourceType id) ∧
    ((calls.foldl (after s) f).checkLock s resourceType = .ok () →
      ∀ id, (s.container? resourceType).bind Container.identifier? = some id →
        ∀ (Record Content : Type) (value : Record → String → Content)
          (judge : AtomicTest → Content → Bool) (r r' : Record),
          value r id.name = value r' id.name →
            (calls.foldl (after s) f).selects value judge r =
              (calls.foldl (after s) f).selects value judge r') := by
  have hdirect : (calls.foldl (after s) f).basePath = none → (calls.foldl (after s) f).Direct s :=
    Direct.foldl_after fun _ => .all hall
  generalize calls.foldl (after s) f = g at hdirect
  refine ⟨⟨fun hlock => ?_, ?_⟩, ?_⟩
  · obtain ⟨rfl, hbase, id, hid, hused⟩ := checkLock_eq_ok_iff.1 hlock
    have h := hdirect hbase
    rw [h.scope] at hid
    obtain ⟨htested, hnamed⟩ := h.used_eq_iff.1 hused
    exact ⟨id, rfl, hbase, hid, htested, fun c hc => (h.steps_eq_iff hbuild hid hc).2 (hnamed c hc)⟩
  · rintro ⟨id, rfl, hbase, hid, htested, honly⟩
    have h := hdirect hbase
    refine checkLock_eq_ok_iff.2 ⟨rfl, hbase, id, by rwa [h.scope], h.used_eq_iff.2 ⟨htested, ?_⟩⟩
    exact fun c hc => (h.steps_eq_iff hbuild hid hc).1 (honly c hc)
  · intro hlock id hid Record Content value judge r r' halike
    obtain ⟨rfl, hbase, id', hid', hused⟩ := checkLock_eq_ok_iff.1 hlock
    have h := hdirect hbase
    obtain rfl : id = id' := by
      rw [h.scope] at hid'
      exact Option.some.inj (hid.symm.trans hid')
    exact selects_congr (h.used_eq_iff.1 hused).2 value judge halike

/-- Users whose numbers are not seven, or are seven and not missing. -/
def lockCalls : List FilterCall :=
  [.group 0 .disjunction, .condition 1 "id" {} (.equality false) ["7"], .group 1 .conjunction,
    .condition 2 "id" {} (.equality true) ["7"], .condition 2 "id" {} (.presence true) [],
    .condition 2 "nothing" {} (.equality true) ["7"]]

/-- A filter with groups in groups locks users, and users with one number pass it alike. -/
theorem lockCalls_isById : orderDocument.build = .ok orderSchema ∧
    ∃ f, Filter.all orderSchema "User" = .ok f ∧
      (lockCalls.foldl (after orderSchema) f).checkLock orderSchema "User" = .ok () ∧
      (lockCalls.foldl (after orderSchema) f).groups.map (fun g => g.items.length) = [1, 2, 2] ∧
      (∃ id, (lockCalls.foldl (after orderSchema) f).IsById orderSchema "User" id) ∧
      ∀ judge : AtomicTest → Nat → Bool,
        (lockCalls.foldl (after orderSchema) f).selects (fun r _ => r % 10) judge 17 =
          (lockCalls.foldl (after orderSchema) f).selects (fun r _ => r % 10) judge 27 := by
  have hbuild : orderDocument.build = .ok orderSchema := rfl
  have hall : Filter.all orderSchema "User" =
      .ok ⟨"User", none, "User", [⟨.conjunction, none, [], []⟩], []⟩ := rfl
  obtain ⟨hlock, halike⟩ := checkLock_iff_isById hbuild hall lockCalls "User"
  have hlocked : (lockCalls.foldl (after orderSchema)
      ⟨"User", none, "User", [⟨.conjunction, none, [], []⟩], []⟩).checkLock orderSchema "User" =
        .ok () := by decide +kernel
  refine ⟨hbuild, _, hall, hlocked, by decide +kernel, hlock.1 hlocked, fun judge => ?_⟩
  exact halike hlocked identifierProperty rfl Nat Nat _ judge 17 27 rfl

end Filter

end ResourceQuery
