import ResourceQuery.Proofs.Compile.Values
import ResourceQuery.Proofs.Filter.Meaning
/-!
# Filters built and built again

The conditions of a filter that was built of readable entries were made at its scope. A filter that
is built of the entries that the tree of another one is written as has the truth of what is read of
that tree.
-/

namespace ResourceQuery

/-! ## Conditions of a built filter -/

theorem Declared.mem_conditions_tree {clauses : List FilterClause} {depth : Nat}
    {key : List String} {c : Condition} (h : c ∈ (Declared.tree clauses depth key).conditions) :
    ∃ clause ∈ clauses, c ∈ clause.conditions := by
  induction depth generalizing key with
  | zero => simp [Declared.tree, FilterTree.conditions, FilterTree.conditionsOf] at h
  | succ depth ih =>
      rw [Declared.tree, FilterTree.conditions, FilterTree.mem_conditionsOf] at h
      obtain ⟨_, htree, hc⟩ := h
      obtain ⟨item, hplaced, rfl⟩ := List.mem_map.1 htree
      cases item with
      | condition d =>
          obtain rfl : c = d := by
            simpa [Declared.itemTree, FilterTree.conditions] using hc
          obtain ⟨conditions, hclause, hmem⟩ := Declared.condition_mem_itemsFrom.1 hplaced
          exact ⟨_, hclause, hmem⟩
      | group place =>
          cases place with
          | key inner => exact ih hc
          | alternatives number =>
              obtain ⟨i, conditions, hnumber, hi⟩ := Declared.alternatives_mem_itemsFrom.1 hplaced
              obtain rfl : number = i := by simpa using hnumber
              refine ⟨_, List.mem_of_getElem? hi, ?_⟩
              simp only [Declared.itemTree, hi, FilterTree.conditions, FilterTree.mem_conditionsOf,
                Option.map_some, Option.getD_some, FilterClause.alternatives, List.mem_map] at hc
              obtain ⟨_, ⟨d, hd, rfl⟩, hc⟩ := hc
              obtain rfl : c = d := by simpa [FilterTree.conditions] using hc
              exact hd

namespace FilterEntry

/-- The paths of the entry are dotted identifiers. -/
def Readable (e : FilterEntry) : Prop :=
  ∀ text, e.content = .condition text → ∀ path ∈ text.paths, Text.IsDotted path.path

section

variable {s : Schema} {config : Configuration} {scope : String} {e : FilterEntry}

theorem conditions?_eq_some_iff {text : ConditionText} {conditions : List Condition} :
    e.conditions? s config scope text = some conditions ↔
      ∃ reading test operands, Qualifier.ofCondition text.qualifiers = .ok reading ∧
        Filter.testAndOperands e.name reading.test e.values = .ok (test, operands) ∧
        operands.length ≤ config.maxOperands ∧
        text.paths.mapM (fun path => (Filter.makeCondition s scope path.path
          { reading.options with negated := text.negated } test operands).toOption) =
            some conditions := by
  simp only [conditions?, Option.bind_eq_bind, Option.bind_eq_some_iff, toOption_eq_some_iff,
    ↓guard_eq_some_iff, Prod.exists, exists_and_left, exists_const]

/-- The entry of a group that is a disjunction has one value, the junction. -/
theorem content?_of_junction (hkind : e.content = .junction) {content : ClauseContent} :
    e.content? s config scope = some content ↔ ∃ value junction, e.values = [value] ∧
      Filter.junctionOf e.group value = .ok junction ∧ content = .junction junction := by
  simp only [content?, hkind, Option.bind_eq_bind, Option.bind_eq_some_iff, toOption_eq_some_iff,
    FilterParameters.singleValue_eq_ok_iff]
  constructor
  · rintro ⟨value, hvalue, junction, hjunction, heq⟩
    exact ⟨value, junction, hvalue, hjunction, (Option.some.inj heq).symm⟩
  · rintro ⟨value, junction, hvalue, hjunction, rfl⟩
    exact ⟨value, hvalue, junction, hjunction, rfl⟩

/-- The entry of a condition is made with the test and the operands that its values say. -/
theorem content?_of_saidBy {text : ConditionText} (hkind : e.content = .condition text)
    {c : Condition} (hsaid : c.SaidBy text) {content : ClauseContent} :
    e.content? s config scope = some content ↔ ∃ test operands made,
      Filter.testAndOperands e.name c.namedTest? e.values = .ok (test, operands) ∧
        operands.length ≤ config.maxOperands ∧
        Filter.makeCondition s scope c.path.text c.options test operands = .ok made ∧
        content = .conditions [made] := by
  -- there is one path, so there is one condition
  obtain ⟨path, rest, hpaths, hpath, hrest⟩ := List.map_eq_cons_iff.1 hsaid.paths
  obtain rfl : rest = [] := List.map_eq_nil_iff.1 hrest
  have hconditions : ∀ conditions, e.conditions? s config scope text = some conditions ↔
      ∃ test operands made,
        Filter.testAndOperands e.name c.namedTest? e.values = .ok (test, operands) ∧
          operands.length ≤ config.maxOperands ∧
          Filter.makeCondition s scope c.path.text c.options test operands = .ok made ∧
          conditions = [made] := by
    intro conditions
    rw [conditions?_eq_some_iff]
    constructor
    · rintro ⟨reading, test, operands, hreading, htest, hfew, hmake⟩
      rw [hsaid.qualifiers] at hreading
      cases hreading
      rw [hpaths, mapM_eq_some_iff] at hmake
      obtain ⟨made, others, rfl, hmade, hothers⟩ := List.map_eq_cons_iff.1 hmake.symm
      obtain rfl : others = [] := List.map_eq_nil_iff.1 hothers
      refine ⟨test, operands, made, htest, hfew, ?_, rfl⟩
      rw [← toOption_eq_some_iff, hmade, ← hpath, hsaid.negated]
    · rintro ⟨test, operands, made, htest, hfew, hmade, rfl⟩
      refine ⟨_, test, operands, hsaid.qualifiers, htest, hfew, ?_⟩
      rw [hpaths, mapM_eq_some_iff, List.map_cons, List.map_cons, List.map_nil, List.map_nil, hpath,
        hsaid.negated, hmade]
      rfl
  simp only [content?, hkind, Option.bind_eq_bind, Option.bind_eq_some_iff, hconditions, hpaths]
  constructor
  · rintro ⟨_, ⟨test, operands, made, htest, hfew, hmade, rfl⟩, heq⟩
    exact ⟨test, operands, made, htest, hfew, hmade, (Option.some.inj heq).symm⟩
  · rintro ⟨test, operands, made, htest, hfew, hmade, rfl⟩
    exact ⟨_, ⟨test, operands, made, htest, hfew, hmade, rfl⟩, rfl⟩

end

/-- A condition of a clause is that of a path in the text of the clause. -/
theorem exists_made_of_clause? {s : Schema} {config : Configuration} {scope : String}
    {e : FilterEntry} {clause : FilterClause} (h : e.clause? s config scope = some clause)
    {c : Condition} (hc : c ∈ clause.conditions) :
    ∃ text path reading test operands, e.content = .condition text ∧ path ∈ text.paths ∧
      Qualifier.ofCondition text.qualifiers = .ok reading ∧
      operands.length ≤ config.maxOperands ∧ Filter.makeCondition s scope path.path
        { reading.options with negated := text.negated } test operands = .ok c := by
  obtain ⟨-, hcontent, -⟩ := Filter.clause?_eq_some_iff.1 h
  cases hentry : e.content with
  | junction =>
      obtain ⟨_, _, -, -, heq⟩ := (content?_of_junction hentry).1 hcontent
      rw [FilterClause.conditions, heq] at hc
      cases hc
  | condition text =>
      simp only [content?, hentry, Option.bind_eq_bind, Option.bind_eq_some_iff] at hcontent
      obtain ⟨conditions, hconditions, heq⟩ := hcontent
      have hmem : c ∈ conditions := by
        rw [FilterClause.conditions, ← Option.some.inj heq] at hc
        by_cases hmany : 1 < text.paths.length
        · simpa [hmany] using hc
        · simpa [hmany] using hc
      obtain ⟨reading, test, operands, hreading, -, hlength, hmade⟩ :=
        conditions?_eq_some_iff.1 hconditions
      obtain ⟨path, hpath, hc⟩ := (mem_of_mapM_eq_some hmade c).1 hmem
      exact ⟨text, path, reading, test, operands, rfl, hpath, hreading, hlength,
        toOption_eq_some_iff.1 hc⟩

theorem made_of_clause? {s : Schema} {config : Configuration} {scope : String} {e : FilterEntry}
    {clause : FilterClause} (he : e.Readable) (h : e.clause? s config scope = some clause) :
    ∀ c ∈ clause.conditions, c.Made s scope := by
  intro c hc
  obtain ⟨text, path, reading, test, operands, hentry, hpath, hreading, -, hmade⟩ :=
    exists_made_of_clause? h hc
  have hsound : ∀ t ∈ ({ reading.options with negated := text.negated } :
      ConditionOptions).transform, t.Sound := Qualifier.sound_of_ofCondition hreading
  exact Condition.made_of_makeCondition (he text hentry path hpath) hsound hmade

end FilterEntry

namespace Filter

/-- What a filter that was built is. -/
theorem build_ok {s : Schema} {config : Configuration} {resourceType root : String}
    {base : Option String} {entries : List FilterEntry} {f : Filter}
    (hroot : ∀ e ∈ entries, e.group.segments.head? = some root)
    (h : build s config resourceType ⟨base, entries⟩ = .ok f) :
    ∃ f₀ clauses depth, start s resourceType base = .ok f₀ ∧ f.subject = f₀.subject ∧
      entries.mapM (FilterEntry.clause? s config f.scope) = some clauses ∧ 0 < depth ∧
      (∀ c ∈ clauses, c.key.length ≤ depth) ∧ f.tree = Declared.tree clauses depth [root] := by
  obtain ⟨f₀, clauses, opened, hstart, hsubject, hclauses, places, hlays, -⟩ :=
    build_declares hroot h
  have hdeep : ∀ c ∈ clauses, c.key.length ≤ config.maxGroupDepth + 1 := by
    intro c hc
    obtain ⟨e, -, hclause⟩ := (mem_of_mapM_eq_some hclauses c).1 hc
    obtain ⟨hkey, -, hdepth⟩ := clause?_eq_some_iff.1 hclause
    rw [GroupKey.depth, ← hkey] at hdepth
    omega
  exact ⟨f₀, clauses, config.maxGroupDepth + 1, hstart, hsubject, hclauses, by omega, hdeep,
    hlays.laid.tree_eq hlays.rooted (by omega) hdeep⟩

/-- A condition of a filter is one of the clause of an entry. -/
theorem exists_clause_of_build {s : Schema} {config : Configuration} {resourceType root : String}
    {base : Option String} {entries : List FilterEntry} {f : Filter}
    (hroot : ∀ e ∈ entries, e.group.segments.head? = some root)
    (h : build s config resourceType ⟨base, entries⟩ = .ok f) {c : Condition}
    (hc : c ∈ f.tree.conditions) :
    ∃ e ∈ entries, ∃ clause, e.clause? s config f.scope = some clause ∧ c ∈ clause.conditions := by
  obtain ⟨-, clauses, depth, -, -, hclauses, -, -, htree⟩ := build_ok hroot h
  rw [htree] at hc
  obtain ⟨clause, hclause, hmem⟩ := Declared.mem_conditions_tree hc
  obtain ⟨e, he, hclause⟩ := (mem_of_mapM_eq_some hclauses clause).1 hclause
  exact ⟨e, he, clause, hclause, hmem⟩

/-- The conditions of a filter were made at its scope. -/
theorem made_of_build {s : Schema} {config : Configuration} {resourceType root : String}
    {base : Option String} {entries : List FilterEntry} {f : Filter}
    (hroot : ∀ e ∈ entries, e.group.segments.head? = some root)
    (hreadable : ∀ e ∈ entries, e.Readable)
    (h : build s config resourceType ⟨base, entries⟩ = .ok f) :
    f.tree.condition? = none ∧ ∀ c ∈ f.tree.conditions, c.Made s f.scope := by
  constructor
  · obtain ⟨-, clauses, depth, -, -, -, hpositive, -, htree⟩ := build_ok hroot h
    obtain ⟨depth, rfl⟩ : ∃ d, depth = d + 1 := ⟨depth - 1, by omega⟩
    rw [htree]
    rfl
  · intro c hc
    obtain ⟨e, he, clause, hclause, hmem⟩ := exists_clause_of_build hroot h hc
    exact FilterEntry.made_of_clause? (hreadable e he) hclause c hmem

theorem start_basePath {s : Schema} {resourceType : String} {base : Option String} {f : Filter}
    (h : start s resourceType base = .ok f) : f.basePath.map Path.text = base := by
  obtain ⟨all, hall, h⟩ := bind_eq_ok_iff.1 h
  cases base with
  | none =>
      obtain ⟨c, -, hall⟩ := bind_eq_ok_iff.1 hall
      cases h
      cases hall
      rfl
  | some path => exact withBasePath_basePath h

/-- A filter is built of the parameters that are sorted under its key. -/
structure BuiltFrom (s : Schema) (config : Configuration) (resourceType key : String)
    (p : FilterParameters) (f : Filter) : Prop where
  identifier : Text.isIdentifier key.toList = true
  within : ∀ e ∈ p.entries, e.group.segments.head? = some key
  readable : ∀ e ∈ p.entries, e.Readable
  built : build s config resourceType p = .ok f

namespace BuiltFrom

variable {s : Schema} {config : Configuration} {resourceType key : String} {p : FilterParameters}
  {f : Filter} (h : BuiltFrom s config resourceType key p f)

include h

theorem group : f.tree.condition? = none := (made_of_build h.within h.readable h.built).1

theorem made : ∀ c ∈ f.tree.conditions, c.Made s f.scope :=
  (made_of_build h.within h.readable h.built).2

theorem basePath : f.basePath.map Path.text = p.basePath := by
  obtain ⟨f₀, -, -, hstart, hsubject, -⟩ := build_ok h.within h.built
  rw [← start_basePath hstart, show f.basePath = f₀.basePath from congrArg Prod.snd hsubject]

end BuiltFrom

/-! ## Filters built of what is written -/

/-- The entries are those of the names that pairs give values to. -/
structure ReadFrom (pairs : List (String × String)) (entries : List FilterEntry) : Prop where
  values : ∀ e ∈ entries, e.values ≠ [] ∧ ∀ value, value ∈ e.values ↔ (e.name, value) ∈ pairs
  parsed : ∀ e ∈ entries, ∃ p, FilterParameter.parse e.name = .ok p ∧
    FilterParameters.entryFor? e.name e.values p = some e
  complete : ∀ name value, (name, value) ∈ pairs → ∃ e ∈ entries, e.name = name

/-- A clause says what was written: that the group is a disjunction, or what a condition is read as
among those of its group. -/
def Says (v : AtomicTest → Bool) (siblings : List String → List Condition)
    (x clause : FilterClause) : Prop :=
  (x = ⟨x.key, .junction .disjunction⟩ ∧ clause = x) ∨
    ∃ c c', x = ⟨x.key, .conditions [c]⟩ ∧ clause = ⟨x.key, .conditions [c']⟩ ∧
      c'.truth v = (c.reread (siblings x.key)).truth v

/-- Clauses that say all that was written, and nothing else, restate it. -/
theorem restates_of_says {v : AtomicTest → Bool} {siblings : List String → List Condition}
    {written clauses : List FilterClause}
    (hsiblings : ∀ key c, c ∈ siblings key ↔ ⟨key, .conditions [c]⟩ ∈ written)
    (hback : ∀ clause ∈ clauses, ∃ x ∈ written, Says v siblings x clause)
    (hforth : ∀ x ∈ written, ∃ clause ∈ clauses, Says v siblings x clause) :
    Restates v siblings written clauses := by
  have hkey : ∀ x clause, Says v siblings x clause → clause.key = x.key := by
    rintro x clause (⟨-, rfl⟩ | ⟨c, c', -, rfl, -⟩)
    · rfl
    · rfl
  refine ⟨hsiblings, ?_, ?_, ?_, ?_⟩
  · intro key
    constructor
    · rintro ⟨clause, hclause, rfl⟩
      obtain ⟨x, hx, hsays⟩ := hback clause hclause
      exact ⟨x, hx, (hkey x clause hsays).symm⟩
    · rintro ⟨x, hx, rfl⟩
      obtain ⟨clause, hclause, hsays⟩ := hforth x hx
      exact ⟨clause, hclause, hkey x clause hsays⟩
  · intro key j
    constructor
    · intro hclause
      obtain ⟨x, hx, ⟨-, heq⟩ | ⟨c, c', -, heq, -⟩⟩ := hback _ hclause
      · rwa [heq]
      · cases heq
    · intro hx
      obtain ⟨clause, hclause, ⟨-, heq⟩ | ⟨c, c', heq, -, -⟩⟩ := hforth _ hx
      · rwa [← heq]
      · cases heq
  · intro key b
    constructor
    · rintro ⟨conditions, hclause, c, hc, rfl⟩
      obtain ⟨x, hx, ⟨hjunction, heq⟩ | ⟨d, c', hcondition, heq, htruth⟩⟩ := hback _ hclause
      · rw [← heq] at hjunction
        cases hjunction
      · simp only [FilterClause.mk.injEq, ClauseContent.conditions.injEq] at heq
        obtain ⟨rfl, rfl⟩ := heq
        obtain rfl : c = c' := by simpa using hc
        exact ⟨d, hcondition ▸ hx, htruth.symm⟩
    · rintro ⟨c, hx, rfl⟩
      obtain ⟨clause, hclause, ⟨heq, -⟩ | ⟨d, c', heq, rfl, htruth⟩⟩ := hforth _ hx
      · cases heq
      · cases heq
        exact ⟨[c'], hclause, c', by simp, htruth⟩
  · intro key conditions hclause
    obtain ⟨x, -, ⟨hx, heq⟩ | ⟨c, c', -, heq, -⟩⟩ := hback _ hclause
    · rw [← heq] at hx
      cases hx
    · cases heq

section

variable {s : Schema} {config : Configuration} {scope root : String} {t : FilterTree}

namespace ReadFrom

variable (hroot : Text.isIdentifier root.toList = true) (hmade : ∀ c ∈ t.conditions, c.Made s scope)
  {entries : List FilterEntry}
  (hread : ReadFrom ((t.clauses [root]).flatMap FilterClause.pairs) entries)

include hread

/-- Every entry has the name of a clause. -/
theorem exists_clause {e : FilterEntry} (he : e ∈ entries) :
    ∃ x ∈ t.clauses [root], e.name = x.name := by
  obtain ⟨hne, hvalues⟩ := hread.values e he
  obtain ⟨value, hvalue⟩ := List.exists_mem_of_ne_nil _ hne
  obtain ⟨x, hx, hpair⟩ := List.mem_flatMap.1 ((hvalues value).1 hvalue)
  exact ⟨x, hx, name_of_mem_pairs hx hpair⟩

/-- Every clause has an entry with its name. -/
theorem exists_entry {x : FilterClause} (hx : x ∈ t.clauses [root]) :
    ∃ e ∈ entries, e.name = x.name := by
  obtain ⟨⟨name, value⟩, hpair⟩ := FilterTree.exists_mem_pairs hx
  obtain ⟨e, he, rfl⟩ := hread.complete name value (List.mem_flatMap.2 ⟨x, hx, hpair⟩)
  exact ⟨e, he, name_of_mem_pairs hx hpair⟩

theorem mem_values_iff {e : FilterEntry} (he : e ∈ entries) (value : String) : value ∈ e.values ↔
    value ∈ Parameters.given e.name ((t.clauses [root]).flatMap FilterClause.pairs) := by
  rw [Parameters.mem_given]
  exact (hread.values e he).2 value

include hroot hmade

/-- An entry is about what the clause with its name is about. -/
theorem content {e : FilterEntry} (he : e ∈ entries) {x : FilterClause}
    (hx : x ∈ t.clauses [root]) (hname : e.name = x.name) : e.group = ⟨x.key⟩ ∧
      ((x = ⟨x.key, .junction .disjunction⟩ ∧ e.content = .junction) ∨
        ∃ c text, x = ⟨x.key, .conditions [c]⟩ ∧ e.content = .condition text ∧ c.SaidBy text) := by
  obtain ⟨p, hp, hentry⟩ := hread.parsed e he
  obtain ⟨-, -, hkind⟩ := FilterParameters.entryFor?_eq_some_iff.1 hentry
  rw [hname] at hp
  rcases isSingle_of_mem_clauses x hx with heq | ⟨c, heq⟩
  · rw [parse_junction_name hroot hx heq] at hp
    obtain rfl := Except.ok.inj hp
    obtain ⟨hgroup, hcontent⟩ | ⟨text, hother, -⟩ := hkind
    · exact ⟨(FilterParameter.junction.inj hgroup).symm, .inl ⟨heq, hcontent⟩⟩
    · cases hother
  · obtain ⟨text, hparse, hsaid⟩ := parse_condition_name hroot hmade hx heq
    rw [hparse] at hp
    obtain rfl := Except.ok.inj hp
    obtain ⟨hother, -⟩ | ⟨text, hsame, hcontent⟩ := hkind
    · cases hother
    · obtain ⟨hgroup, rfl⟩ := FilterParameter.condition.inj hsame
      exact ⟨hgroup.symm, .inr ⟨c, _, heq, hcontent, hsaid⟩⟩

/-- The clause of an entry says what was written, read among the conditions of the group. -/
theorem restated (v : AtomicTest → Bool) {e : FilterEntry} (he : e ∈ entries) {x : FilterClause}
    (hx : x ∈ t.clauses [root]) (hname : e.name = x.name) {clause : FilterClause}
    (hclause : e.clause? s config scope = some clause) :
    Says v (conditionsAt (t.clauses [root])) x clause := by
  obtain ⟨hsegments, hcontent, -⟩ := clause?_eq_some_iff.1 hclause
  obtain ⟨hgroup, hkind⟩ := hread.content hroot hmade he hx hname
  have hclause : clause = ⟨x.key, clause.content⟩ := by
    have hkey : clause.key = x.key := by rw [hsegments, hgroup]
    rw [← hkey]
  obtain ⟨heq, hkind⟩ | ⟨c, text, heq, hkind, hsaid⟩ := hkind
  · obtain ⟨value, junction, hvalues, hjunction, hsame⟩ :=
      (FilterEntry.content?_of_junction hkind).1 hcontent
    have hor : value ∈ Parameters.given e.name ((t.clauses [root]).flatMap FilterClause.pairs) :=
      (hread.mem_values_iff he value).1 (by simp [hvalues])
    rw [hname, given_junction hroot hmade hx heq, List.mem_singleton] at hor
    rw [hor] at hjunction
    obtain rfl := Except.ok.inj hjunction
    exact .inl ⟨heq, by rw [hclause, hsame, ← heq]⟩
  · obtain ⟨test, operands, made, htest, -, hmake, hsame⟩ :=
      (FilterEntry.content?_of_saidBy hkind hsaid).1 hcontent
    have hsiblings : ∀ d ∈ conditionsAt (t.clauses [root]) x.key, d.Made s scope :=
      fun d hd => made_of_mem_conditionsAt hmade hd
    have hown := mem_conditionsAt.2 (heq ▸ hx)
    refine .inr ⟨c, made, heq, by rw [hclause, hsame], Condition.truth_of_makeCondition v hsiblings
      hown (Condition.restored_of_testAndOperands hsiblings hown ?_ htest) hmake⟩
    intro value
    rw [hread.mem_values_iff he, hname, given_condition hroot hmade hx heq, List.mem_flatMap]

/-- Entries of what is written for a tree have clauses that say it again. -/
theorem restates (v : AtomicTest → Bool) {clauses : List FilterClause}
    (hclauses : entries.mapM (FilterEntry.clause? s config scope) = some clauses) :
    Restates v (conditionsAt (t.clauses [root])) (t.clauses [root]) clauses := by
  -- every clause says what was written, and all that was written is said
  have hback : ∀ clause ∈ clauses, ∃ x ∈ t.clauses [root],
      Says v (conditionsAt (t.clauses [root])) x clause := by
    intro clause hclause
    obtain ⟨e, he, hclause⟩ := (mem_of_mapM_eq_some hclauses clause).1 hclause
    obtain ⟨x, hx, hname⟩ := hread.exists_clause he
    exact ⟨x, hx, hread.restated hroot hmade v he hx hname hclause⟩
  have hforth : ∀ x ∈ t.clauses [root], ∃ clause ∈ clauses,
      Says v (conditionsAt (t.clauses [root])) x clause := by
    intro x hx
    obtain ⟨e, he, hname⟩ := hread.exists_entry hx
    have hsome : (e.clause? s config scope) ∈ clauses.map some := by
      rw [← mapM_eq_some_iff.1 hclauses]
      exact List.mem_map_of_mem he
    obtain ⟨clause, hmem, hclause⟩ := List.mem_map.1 hsome
    exact ⟨clause, hmem, hread.restated hroot hmade v he hx hname hclause.symm⟩
  exact restates_of_says (fun key c => mem_conditionsAt) hback hforth

/-- What is written for a tree is about groups inside the outermost one. -/
theorem within : ∀ e ∈ entries, e.group.segments.head? = some root := by
  intro e he
  obtain ⟨x, hx, hname⟩ := hread.exists_clause he
  obtain ⟨groups, hkey, -⟩ := readable_of_mem_clauses hroot hx
  rw [(hread.content hroot hmade he hx hname).1, hkey]
  rfl

end ReadFrom

/-- Built again of what its tree is written as, a filter has the truth of what is read. -/
theorem BuiltFrom.holds_again {resourceType : String} {p p' : FilterParameters} {f g : Filter}
    (hf : f.BuiltFrom s config resourceType root p) (hbase : p'.basePath = p.basePath)
    (hread : ReadFrom ((f.tree.clauses [root]).flatMap FilterClause.pairs) p'.entries)
    (hg : build s config resourceType p' = .ok g) (v : AtomicTest → Bool) :
    g.holds (Condition.truth v) = f.tree.reread.holds (Condition.truth v) := by
  have hroots := hread.within hf.identifier hf.made
  obtain ⟨f₀, -, -, hstart, hsubject, -⟩ := build_ok hf.within hf.built
  obtain ⟨g₀, clauses, depth, hstart', hsubject', hclauses, hpositive, hdeep, htree⟩ :=
    build_ok hroots hg
  rw [hbase, hstart] at hstart'
  cases hstart'
  have hscope : g.scope = f.scope := congrArg Prod.fst (hsubject'.trans hsubject.symm)
  rw [hscope] at hclauses
  have hrestates := hread.restates hf.identifier hf.made v hclauses
  rw [Filter.holds, htree]
  apply hrestates.holds_declared hf.group (fun x _ => Iff.rfl) hpositive
  intro c hc
  have := hdeep c hc
  simp only [List.length_singleton]
  omega

end

end Filter

end ResourceQuery
