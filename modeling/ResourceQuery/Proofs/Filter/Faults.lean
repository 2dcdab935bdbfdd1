import ResourceQuery.Proofs.Faults
import ResourceQuery.Proofs.Filter.Meaning
import ResourceQuery.Proofs.Filter.Nesting
import ResourceQuery.Proofs.Schema.Everywhere
/-!
# Faults of filters

Building a filter fails through the request only. Two things could go wrong otherwise: a group
number that is none, and a type name that is none. The numbers are those of groups opened before,
and a filter keeps its groups (`Filter.Grows`); types of references are registered where a schema
was built, and the scope of a filter is the container of a resource or of a base path.
-/

namespace ResourceQuery

variable {s : Schema}

/-- A typed reference leads to a resource. -/
theorem ValueType.Registered.resource_ok {type : ValueType} (h : type.Registered s)
    {target : String} (htarget : type.target? = some (.resource target)) :
    ∃ c, s.resource target = .ok c := by
  have hleaf : ∀ t : ValueType, t.Registered s → t.leaf.Registered s := by
    intro t ht
    induction t with
    | list inner ih | set inner ih => exact ih ht
    | map key inner _ ih => exact ih ht.2
    | _ => exact ht
  have hregistered := hleaf type h
  unfold target? at htarget
  split at htarget
  · rename_i found hfound
    cases htarget
    rw [hfound] at hregistered
    obtain ⟨c, hc, hresource⟩ := hregistered
    exact ⟨c, Schema.resource_of_container? hc hresource⟩
  · cases htarget

theorem FilterParameters.answered_singleValue (name : String) (values : List String) :
    Answered (singleValue name values) := by
  unfold singleValue
  split
  · exact .ok trivial
  · exact .refused rfl

namespace Filter

theorem answered_referencedId {type : ValueType} (h : type.Registered s) (path : String) :
    Answered (referencedId s path type) := by
  unfold referencedId
  split
  · rename_i target htarget
    obtain ⟨c, hc⟩ := h.resource_ok htarget
    rw [hc, ok_bind]
    split
    · exact .ok trivial
    · exact .refused rfl
  · exact .refused rfl

theorem answered_testedType {type : ValueType} (h : type.Registered s) (path : String)
    (options : ConditionOptions) : Answered (testedType s path type options) := by
  obtain ⟨transform, kind, negated⟩ := options
  cases transform with
  | none =>
      cases kind with
      | value => exact .ok trivial
      | key =>
          simp only [testedType]
          split
          · exact .ok trivial
          · exact .refused rfl
      | id => exact (answered_referencedId h path).bind fun tested _ => .ok trivial
  | some t =>
      have hresult : ∀ tested : ValueType, Answered (if t.appliesTo tested then pure t.resultType
          else throw (Fault.of (.use path (.transformOfNonString t.function.name)))) := by
        intro tested
        split
        · exact .ok trivial
        · exact .refused rfl
      cases kind with
      | value => exact hresult type.leaf
      | key =>
          simp only [testedType]
          split
          · exact hresult _
          · exact .refused rfl
      | id => exact (answered_referencedId h path).bind fun tested _ => hresult tested

theorem answered_checkOperandCount (path : String) (test : Test) (operands : List String) :
    Answered (checkOperandCount path test operands) :=
  Answers.check rfl fun _ => Answers.check rfl fun _ => .ok trivial

theorem answered_testAndOperands (name : String) (test : Option Test) (values : List String) :
    Answered (testAndOperands name test values) := by
  unfold testAndOperands
  split
  · exact .ok trivial
  · split
    · exact .ok trivial
    · dsimp only
      split
      · exact .ok trivial
      · exact .refused rfl

theorem answered_junctionOf (group : GroupKey) (value : String) :
    Answered (junctionOf group value) := by
  unfold junctionOf
  split
  · exact .ok trivial
  · split
    · exact .ok trivial
    · exact .refused rfl

/-! ## Groups -/

/-- A filter is built on: it keeps its scope and all its groups. -/
structure Grows (f g : Filter) : Prop where
  scope : g.scope = f.scope
  groups : f.groups.length ≤ g.groups.length

theorem Grows.refl (f : Filter) : f.Grows f := ⟨rfl, Nat.le_refl _⟩

theorem Grows.trans {f g h : Filter} (hfg : f.Grows g) (hgh : g.Grows h) : f.Grows h :=
  ⟨hgh.scope.trans hfg.scope, Nat.le_trans hfg.groups hgh.groups⟩

theorem openGroup_grows {f : Filter} {parent : Nat} (h : parent < f.groups.length) (j : Junction) :
    ∃ number g, f.openGroup parent j = .ok (number, g) ∧ f.Grows g ∧ number < g.groups.length :=
  ⟨_, _, openGroup_eq h j, ⟨rfl, by simp [addItem]⟩, by simp [addItem]⟩

theorem answers_setJunction {f : Filter} {number : Nat} (h : number < f.groups.length)
    (j : Junction) : Answers f.Grows (f.setJunction number j) := by
  rw [setJunction, checkGroup, if_pos h]
  exact .ok ⟨rfl, by simp⟩

/-- The groups of a draft are those of its filter, which starts at a container. -/
structure Draft.Founded (s : Schema) (d : Draft) : Prop where
  scope : ∃ c, s.container d.filter.scope = .ok c
  root : Filter.root < d.filter.groups.length
  opened : ∀ key number, d.opened.lookup key = some number → number < d.filter.groups.length

theorem Draft.Founded.note {d : Draft} (hd : d.Founded s) {f : Filter} (hgrows : d.filter.Grows f)
    {number : Nat} (hnumber : number < f.groups.length) (key : List String) :
    Draft.Founded s ⟨f, (key, number) :: d.opened⟩ where
  scope := hgrows.scope ▸ hd.scope
  root := Nat.lt_of_lt_of_le hd.root hgrows.groups
  opened := by
    intro other n hn
    rw [List.lookup_cons] at hn
    split at hn
    · cases hn
      exact hnumber
    · apply Nat.lt_of_lt_of_le (hd.opened other n hn)
      exact hgrows.groups

/-- A key is reached: groups around it are found, or opened in groups that are found. -/
theorem Draft.Founded.reach {d : Draft} (hd : d.Founded s) (segments front : List String)
    {around : Option Nat} (haround : ∀ number ∈ around, number < d.filter.groups.length) :
    ∃ number d', d.reach around front segments = .ok (number, d') ∧ d'.Founded s ∧
      number < d'.filter.groups.length := by
  induction segments generalizing d around front with
  | nil =>
      refine ⟨_, d, rfl, hd, ?_⟩
      cases around with
      | none => exact hd.root
      | some number => exact haround number rfl
  | cons segment rest ih =>
      unfold Draft.reach
      dsimp only
      split
      · rename_i number hnumber
        exact ih hd _ (by simpa using hd.opened _ _ hnumber)
      · split
        · exact ih (hd.note (Grows.refl _) hd.root _) _ (by simpa using hd.root)
        · rename_i parent
          obtain ⟨number, g, hopen, hgrows, hnumber⟩ :=
            openGroup_grows (haround parent rfl) .conjunction
          rw [hopen, ok_bind]
          exact ih (hd.note hgrows hnumber _) _ (by simpa using hnumber)

/-- A filter starts at its resource, or at the container that its base path opens. -/
theorem answers_start {resourceType : String} {c : Container}
    (hc : s.resource resourceType = .ok c) (base : Option String) :
    Answers (fun f => Draft.Founded s ⟨f, []⟩) (start s resourceType base) := by
  obtain ⟨hfound, -⟩ := Schema.resource_ok hc
  obtain ⟨-, hname⟩ := Schema.container?_some hfound
  have hcontainer : s.container c.name = .ok c := by
    rw [hname]
    exact Schema.container_eq_ok_iff.2 hfound
  have hall : Filter.all s resourceType =
      .ok ⟨c.name, none, c.name, [⟨.conjunction, none, [], []⟩], []⟩ := by
    rw [Filter.all, hc]
    rfl
  rw [start, hall, ok_bind]
  cases base with
  | none => exact .ok ⟨⟨c, hcontainer⟩, Nat.zero_lt_one, by simp⟩
  | some path =>
      unfold withBasePath
      refine Answers.check rfl fun _ => ?_
      refine (Path.answered_resolve hcontainer path).bind fun resolved _ => ?_
      refine (Path.answered_checkEvaluable s resolved).bind fun _ _ => ?_
      refine (Path.answered_terminal resolved).bind fun p _ => ?_
      split
      · rename_i next hnext
        have hopened := (Path.opened_eq_some hnext).2.2
        exact .ok ⟨⟨next, Schema.container_eq_ok_iff.2 hopened⟩, Nat.zero_lt_one, by simp⟩
      · exact .refused rfl

/-! ## Conditions and groups together -/

section Registered

variable {config : Configuration} {scope : Container}
  (hregistered : s.Everywhere fun s _ p => p.type.Registered s)

include hregistered

theorem registered_of_resolve {start text : String} {path : Path}
    (hpath : Path.resolve s start text = .ok path) {p : Property} (hp : path.terminal = .ok p) :
    p.type.Registered s := by
  obtain ⟨container, hlast⟩ := Path.getLast?_of_terminal hp
  obtain ⟨holder, hholder, hproperty⟩ :=
    Path.holder_of_resolve hpath (List.mem_of_mem_getLast? hlast)
  have hmem := List.mem_of_find?_eq_some hproperty
  exact hregistered holder (Schema.container?_some hholder).1 p hmem

theorem answered_makeCondition {start : String} (hscope : s.container start = .ok scope)
    (path : String) (options : ConditionOptions) (test : Test) (operands : List String) :
    Answered (makeCondition s start path options test operands) := by
  unfold makeCondition
  refine (answered_checkOperandCount path test operands).bind fun _ _ => ?_
  refine (Path.answered_resolve hscope path).eq_ok.bind fun resolved hresolved => ?_
  refine (Path.answered_checkEvaluable s resolved).bind fun _ _ => ?_
  refine (Path.answered_terminal resolved).eq_ok.bind fun p hp => ?_
  refine (answered_testedType (registered_of_resolve hregistered hresolved hp) path options).bind
    fun tested _ => ?_
  split
  · exact .refused rfl
  · refine (Answers.mapM (Q := fun _ => True) fun text _ => ?_).bind fun values _ => .ok trivial
    split
    · exact .ok trivial
    · rename_i hfault
      exact .refused (by simpa using (tested.answered_parseText s text).fault hfault)

theorem answers_addCondition {f : Filter} {number : Nat} (hscope : s.container f.scope = .ok scope)
    (h : number < f.groups.length) (path : String) (options : ConditionOptions) (test : Test)
    (operands : List String) :
    Answers f.Grows (f.addCondition s number path options test operands) := by
  rw [addCondition_eq h]
  refine (answered_makeCondition hregistered hscope path options test operands).map
    fun c _ => ⟨rfl, ?_⟩
  -- notes and items leave the list of groups as long as it is
  have hnoted := congrArg List.length (map_noteUsed (f := fun _ => ()) (fun _ _ => rfl)
    c.path.text (number + 1) number f.groups)
  rw [List.length_map, List.length_map] at hnoted
  simp [addItem, hnoted]

theorem answers_addTests {f : Filter} {number : Nat} (hscope : s.container f.scope = .ok scope)
    (h : number < f.groups.length) (options : ConditionOptions) (test : Test)
    (operands : List String) (paths : List PathText) :
    Answers f.Grows (addTests s number options test operands f paths) := by
  refine Answers.foldlM (fun g path _ hg => ?_) (Grows.refl f)
  have hadd := answers_addCondition hregistered (hg.scope ▸ hscope)
    (Nat.lt_of_lt_of_le h hg.groups) path.path options test operands
  split
  · rename_i next hnext
    rw [hnext] at hadd
    cases hadd with
    | ok hgrows => exact .ok (hg.trans hgrows)
  · rename_i hfault
    exact .refused (by simpa using hadd.fault hfault)

theorem answers_addConditionText {f : Filter} {number : Nat}
    (hscope : s.container f.scope = .ok scope) (h : number < f.groups.length) (name : String)
    (text : ConditionText) (values : List String) :
    Answers f.Grows (f.addConditionText s config number name text values) := by
  unfold addConditionText
  refine (Qualifier.answered_ofCondition text.qualifiers).bind fun reading _ => ?_
  refine (answered_testAndOperands name reading.test values).bind fun tested _ => ?_
  refine Answers.check rfl fun _ => ?_
  split
  · obtain ⟨inner, g, hopen, hgrows, hinner⟩ := openGroup_grows h .disjunction
    rw [hopen, ok_bind]
    refine (answers_addTests hregistered (hgrows.scope ▸ hscope) hinner _ _ _ _).imp_ok ?_
    exact fun _ _ hadded => hgrows.trans hadded
  · exact answers_addTests hregistered hscope h _ _ _ _

theorem answers_addContent {f : Filter} {number : Nat} (hscope : s.container f.scope = .ok scope)
    (h : number < f.groups.length) (e : FilterEntry) :
    Answers f.Grows (addContent s config f number e) := by
  unfold addContent
  split
  · refine (FilterParameters.answered_singleValue e.name e.values).bind fun value _ => ?_
    refine (answered_junctionOf e.group value).bind fun j _ => ?_
    exact answers_setJunction h j
  · exact answers_addConditionText hregistered hscope h e.name _ e.values

theorem answers_addEntry {d : Draft} (hd : d.Founded s) (e : FilterEntry) :
    Answers (Draft.Founded s) (d.addEntry s config e) := by
  by_cases hdepth : config.maxGroupDepth < e.group.depth
  · rw [Draft.addEntry, if_pos hdepth]
    exact .refused rfl
  · have hnone : ∀ number ∈ (none : Option Nat), number < d.filter.groups.length := by simp
    obtain ⟨number, d', hreach, hd', hnumber⟩ := hd.reach e.group.segments [] hnone
    obtain ⟨c, hc⟩ := hd'.scope
    rw [addEntry_eq (Nat.not_lt.1 hdepth) hreach]
    refine (answers_addContent hregistered hc hnumber e).map fun f hgrows => ?_
    refine ⟨hgrows.scope ▸ hd'.scope, Nat.lt_of_lt_of_le hd'.root hgrows.groups, ?_⟩
    exact fun key n hn => Nat.lt_of_lt_of_le (hd'.opened key n hn) hgrows.groups

/-- Every filter is built, or the request is refused. -/
theorem answered_build {resourceType : String} {c : Container}
    (hc : s.resource resourceType = .ok c) (p : FilterParameters) :
    Answered (build s config resourceType p) := by
  obtain ⟨base, entries⟩ := p
  rw [build_eq]
  refine (answers_start hc base).bind fun f hf => ?_
  refine (Answers.foldlM (fun d e _ hd => answers_addEntry hregistered hd e) hf).bind fun d _ => ?_
  exact .ok trivial

end Registered

end Filter

end ResourceQuery
