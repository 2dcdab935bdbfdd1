import ResourceQuery.Proofs.Compile.Filter
/-!
# Filters recovered from what they are written as

A filter whose tree is recoverable is built again of its parameters, and the filter that is built is
written as the same parameters (`Filter.BuiltFrom.recovers`).
-/

namespace ResourceQuery

namespace FilterTree

/-- What is written for the items of a group is read as it was. -/
structure Lasts (config : Configuration) (items : List FilterTree) : Prop where
  numbers : KeepsNumbers items
  /-- Conditions of one name do not have more operands than one condition may have. -/
  few : ∀ c, condition c ∈ items →
    ((c.namesakes (items.filterMap condition?)).flatMap Condition.operands).length ≤
      config.maxOperands
  /-- A test of presence stands once. -/
  once : ∀ c, condition c ∈ items → c.test.isPresence = true →
    (c.namesakes (items.filterMap condition?)).length ≤ 1
  /-- No value is tested to be an empty text. -/
  blank : ∀ c, condition c ∈ items → c.test = .equality true →
    ∀ operand ∈ c.operands, operand.toText? ≠ some ""
  dated : ∀ c, condition c ∈ items → ∀ operand ∈ c.operands, operand.FourDigitYears

/-- The tree is read as it was written: it is not too deep, and all groups last. -/
def Recoverable (config : Configuration) (t : FilterTree) : Prop :=
  t.depth ≤ config.maxGroupDepth ∧ ∀ g ∈ t.groups, Lasts config g.2

end FilterTree

namespace Condition

/-- The condition that conditions of one name are read as: it has the operands of all of them. -/
def merged (c : Condition) (siblings : List Condition) : Condition :=
  { c with operands := (c.namesakes siblings).flatMap operands }

theorem namesakes_eq_singleton {c : Condition} {siblings : List Condition} (hmem : c ∈ siblings)
    (honce : (c.namesakes siblings).length ≤ 1) : c.namesakes siblings = [c] := by
  have hown : c ∈ c.namesakes siblings := mem_namesakes.2 ⟨hmem, rfl⟩
  have hone := Nat.le_antisymm honce (List.length_pos_of_mem hown)
  obtain ⟨d, hd⟩ := List.length_eq_one_iff.1 hone
  rw [hd] at hown
  rw [hd, List.mem_singleton.1 hown]

variable {s : Schema} {scope : String} {c : Condition} {siblings : List Condition}
  (hmade : ∀ d ∈ siblings, d.Made s scope) (hmem : c ∈ siblings)

include hmade hmem

theorem merged_operands_ne_nil (hpresence : c.test.isPresence = false) :
    (c.merged siblings).operands ≠ [] := by
  obtain ⟨operand, hoperand⟩ :=
    List.exists_mem_of_ne_nil _ ((hmade c hmem).operands hpresence)
  exact List.ne_nil_of_mem (List.mem_flatMap.2 ⟨c, mem_namesakes.2 ⟨hmem, rfl⟩, hoperand⟩)

theorem merged_operands_eq_nil (hpresence : c.test.isPresence = true) :
    (c.merged siblings).operands = [] := by
  rw [merged, List.flatMap_eq_nil_iff]
  intro d hd
  obtain ⟨hd, -, -, htest⟩ := made_of_mem_namesakes hmade hmem hd
  exact hd.noOperands (by rw [htest, hpresence])

/-- The values of namesakes are the texts of the operands of all of them. -/
theorem flatMap_texts (honce : c.test.isPresence = true → (c.namesakes siblings).length ≤ 1) :
    (c.namesakes siblings).flatMap texts = (c.merged siblings).texts := by
  have htexts : ∀ d : Condition, d.operands ≠ [] →
      d.texts = d.operands.map fun operand => operand.toText?.getD "" := by
    intro d hd
    rw [texts, if_neg (by simpa using hd)]
  cases hpresence : c.test.isPresence with
  | true =>
      rw [namesakes_eq_singleton hmem (honce hpresence), texts,
        merged_operands_eq_nil hmade hmem hpresence]
      simp [texts, (hmade c hmem).noOperands hpresence]
  | false =>
      rw [htexts _ (merged_operands_ne_nil hmade hmem hpresence), merged, List.map_flatMap]
      apply List.flatMap_congr
      intro d hd
      obtain ⟨hd, -, -, htest⟩ := made_of_mem_namesakes hmade hmem hd
      exact htexts d (hd.operands (by rw [htest, hpresence]))

/-- The values of namesakes are read as the test and the operands of all of them. -/
theorem testAndOperands_texts (name : String)
    (honce : c.test.isPresence = true → (c.namesakes siblings).length ≤ 1)
    (hblank : ∀ d ∈ siblings, d.test = .equality true →
      ∀ operand ∈ d.operands, operand.toText? ≠ some "") :
    Filter.testAndOperands name c.namedTest? ((c.namesakes siblings).flatMap texts) =
      .ok (c.test, (c.merged siblings).operands.map fun operand => operand.toText?.getD "") := by
  rw [flatMap_texts hmade hmem honce, texts]
  cases hpresence : c.test.isPresence with
  | true =>
      have htakes : c.test.takesOperands = false := by simpa [Test.isPresence] using hpresence
      have hnamed : c.namedTest? = some c.test := by
        rw [namedTest?, if_neg]
        intro htest
        rw [htest] at hpresence
        cases hpresence
      rw [merged_operands_eq_nil hmade hmem hpresence, hnamed]
      simp [Filter.testAndOperands, htakes]
  | false =>
      have hne := merged_operands_ne_nil hmade hmem hpresence
      rw [if_neg (by simpa using hne)]
      by_cases htest : c.test = .equality true
      · -- no text is left out, since none is empty
        have hgiven : ∀ text ∈ (c.merged siblings).operands.map fun operand =>
            operand.toText?.getD "", !text.isEmpty := by
          intro text htext
          obtain ⟨operand, hoperand, rfl⟩ := List.mem_map.1 htext
          obtain ⟨d, hd, hoperand⟩ := List.mem_flatMap.1 hoperand
          obtain ⟨hsound, -, -, hsame⟩ := made_of_mem_namesakes hmade hmem hd
          have hwritten := hblank d (mem_namesakes.1 hd).1 (by rw [hsame, htest]) operand hoperand
          obtain ⟨written, hsome⟩ :=
            Option.isSome_iff_exists.1 (hsound.isSome_toText? operand hoperand)
          rw [hsome] at hwritten ⊢
          simpa using hwritten
        simp only [namedTest?, if_pos htest, Filter.testAndOperands,
          List.filter_eq_self.2 hgiven, List.isEmpty_map]
        rw [if_neg (by simpa using hne), htest]
      · have htakes : c.test.takesOperands = true := by simpa [Test.isPresence] using hpresence
        simp only [namedTest?, if_neg htest, Filter.testAndOperands, if_pos htakes]

/-- Made of the values of its namesakes, a condition is the one with all operands. -/
theorem makeCondition_merged (hdated : ∀ d ∈ siblings, ∀ operand ∈ d.operands,
      operand.FourDigitYears) :
    Filter.makeCondition s scope c.path.text c.options c.test
      ((c.merged siblings).operands.map fun operand => operand.toText?.getD "") =
        .ok (c.merged siblings) := by
  obtain ⟨operands, hown⟩ := (hmade c hmem).made
  obtain ⟨-, -, -, -, tested, htested, -⟩ := Filter.makeCondition_ok hown
  refine Filter.makeCondition_operands hown htested ?_ ?_
  · rw [List.isEmpty_map]
    cases hpresence : c.test.isPresence with
    | true =>
        rw [merged_operands_eq_nil hmade hmem hpresence]
        simpa [Test.isPresence] using hpresence
    | false =>
        have hne := merged_operands_ne_nil hmade hmem hpresence
        have hfilled : (c.merged siblings).operands.isEmpty = false := by simpa using hne
        rw [hfilled]
        simpa [Test.isPresence] using hpresence
  · rw [mapM_eq_ok_iff, List.map_map]
    apply List.map_congr_left
    intro operand hoperand
    obtain ⟨d, hd, hoperand⟩ := List.mem_flatMap.1 hoperand
    obtain ⟨hsound, hpath, hoptions, -⟩ := made_of_mem_namesakes hmade hmem hd
    obtain ⟨tested', htested', hread⟩ := hsound.compared
    rw [hpath, hoptions, htested] at htested'
    cases htested'
    obtain ⟨text, htext⟩ := hread operand hoperand
    obtain ⟨written, hwritten, -, hback⟩ := ValueType.readsBack_of_parseText htext
    rw [Function.comp_apply, hwritten]
    exact hback (hdated d (mem_namesakes.1 hd).1 operand hoperand)

end Condition

namespace Filter

section

variable {s : Schema} {config : Configuration} {scope root : String} {t : FilterTree}

/-! ## Clauses of what was written -/

/-- The clause of an entry has the name of the entry and is written with its values. -/
structure Recovers (e : FilterEntry) (x : FilterClause) : Prop where
  single : x.IsSingle
  name : x.name = e.name
  pairs : x.pairs = e.values.map fun value => (e.name, value)

theorem map_name_of_recovers {entries : List FilterEntry} {clauses : List FilterClause}
    (h : List.Forall₂ Recovers entries clauses) :
    clauses.map FilterClause.name = entries.map FilterEntry.name := by
  rw [← List.forall₂_eq_eq_eq, List.forall₂_map_left_iff, List.forall₂_map_right_iff]
  exact h.flip.imp fun x e hx => hx.name

theorem flatMap_pairs_of_recovers {entries : List FilterEntry} {clauses : List FilterClause}
    (h : List.Forall₂ Recovers entries clauses) :
    clauses.flatMap FilterClause.pairs =
      entries.flatMap fun e => e.values.map fun value => (e.name, value) := by
  induction h with
  | nil => rfl
  | cons hx _ ih => rw [List.flatMap_cons, List.flatMap_cons, hx.pairs, ih]

variable {entries : List FilterEntry}
  (hread : ReadFrom ((t.clauses [root]).flatMap FilterClause.pairs) entries)
  (hroot : Text.isIdentifier root.toList = true) (hgroup : t.condition? = none)
  (hmade : ∀ c ∈ t.conditions, c.Made s scope) (h : t.Recoverable config)
  (hvalues : ∀ e ∈ entries, e.values =
    Parameters.given e.name ((t.clauses [root]).flatMap FilterClause.pairs))

include hroot hgroup hmade h hvalues

/-- The entry of a condition of a recoverable tree is read as the condition with the operands of all
its namesakes. -/
theorem content?_merged {e : FilterEntry} (he : e ∈ entries) {y : FilterClause}
    (hy : y ∈ t.clauses [root]) (hname : e.name = y.name) {c : Condition} {text : ConditionText}
    (heq : y = ⟨y.key, .conditions [c]⟩) (hkind : e.content = .condition text)
    (hsaid : c.SaidBy text) : ∃ merged : Condition,
      e.content? s config scope = some (.conditions [merged]) ∧ merged.suffix = c.suffix ∧
        merged.texts = e.values := by
  -- the conditions of the group, which lasts
  obtain ⟨g, hg, hsiblings⟩ := FilterTree.exists_group_conditionsAt hgroup hy
  have hlasts := h.2 g hg
  have hown := mem_conditionsAt.2 (heq ▸ hy)
  have hmember : ∀ d ∈ conditionsAt (t.clauses [root]) y.key, .condition d ∈ g.2 := by
    intro d hd
    rw [hsiblings] at hd
    exact FilterTree.mem_filterMap_condition?.1 hd
  have hsound : ∀ d ∈ conditionsAt (t.clauses [root]) y.key, d.Made s scope :=
    fun d hd => made_of_mem_conditionsAt hmade hd
  have honce := fun hpresence => hlasts.once c (hmember c hown) hpresence
  have hfew := hlasts.few c (hmember c hown)
  rw [← hsiblings] at honce hfew
  have hgiven : (c.namesakes (conditionsAt (t.clauses [root]) y.key)).flatMap Condition.texts =
      e.values := by
    rw [hvalues e he, hname, given_condition hroot hmade hy heq]
  have htest := Condition.testAndOperands_texts hsound hown e.name honce
    fun d hd hequality => hlasts.blank d (hmember d hd) hequality
  rw [hgiven] at htest
  refine ⟨c.merged (conditionsAt (t.clauses [root]) y.key),
    (FilterEntry.content?_of_saidBy hkind hsaid).2 ⟨_, _, _, htest, ?_,
      Condition.makeCondition_merged hsound hown fun d hd => hlasts.dated d (hmember d hd), rfl⟩,
    rfl, ?_⟩
  · rw [List.length_map]
    exact hfew
  · rw [← Condition.flatMap_texts hsound hown honce, hgiven]

include hread

/-- Every entry of what is written for a recoverable tree is a clause again. -/
theorem ReadFrom.exists_clause? {e : FilterEntry} (he : e ∈ entries) {y : FilterClause}
    (hy : y ∈ t.clauses [root]) (hname : e.name = y.name) :
    ∃ x, e.clause? s config scope = some x ∧ Recovers e x ∧ x.key = y.key := by
  obtain ⟨hsegments, hkind⟩ := hread.content hroot hmade he hy hname
  have hdepth : e.group.depth ≤ config.maxGroupDepth := by
    have hlength := FilterTree.length_key_lt hgroup hy
    have hdeep := h.1
    rw [hsegments]
    simp only [GroupKey.depth, List.length_singleton] at hlength ⊢
    omega
  obtain ⟨heq, hkind⟩ | ⟨c, text, heq, hkind, hsaid⟩ := hkind
  · have hor : e.values = ["or"] := by
      rw [hvalues e he, hname, given_junction hroot hmade hy heq]
    refine ⟨y, clause?_eq_some_iff.2 ⟨by rw [hsegments], ?_, hdepth⟩, ⟨.inl heq, hname.symm, ?_⟩, rfl⟩
    · rw [heq]
      exact (FilterEntry.content?_of_junction hkind).2 ⟨"or", .disjunction, hor, rfl, rfl⟩
    · rw [hor, hname, FilterClause.pairs_eq (.inl heq), heq]
      rfl
  · obtain ⟨merged, hcontent, hsuffix, htexts⟩ :=
      content?_merged hroot hgroup hmade h hvalues he hy hname heq hkind hsaid
    have hsame : FilterClause.name ⟨y.key, .conditions [merged]⟩ = e.name := by
      rw [hname, heq]
      simp [FilterClause.name, FilterClause.suffix, hsuffix]
    refine ⟨⟨y.key, .conditions [merged]⟩,
      clause?_eq_some_iff.2 ⟨by rw [hsegments], hcontent, hdepth⟩, ⟨.inr ⟨_, rfl⟩, hsame, ?_⟩, rfl⟩
    rw [FilterClause.pairs_eq (.inr ⟨_, rfl⟩), hsame, ← htexts]
    simp [FilterClause.texts]

omit hread hroot hgroup hmade h hvalues

/-! ## Built again -/

theorem openGroup_resourceType {f g : Filter} {parent number : Nat} {junction : Junction}
    (h : f.openGroup parent junction = .ok (number, g)) : g.resourceType = f.resourceType := by
  obtain ⟨_, -, h⟩ := bind_eq_ok_iff.1 h
  cases h
  rfl

theorem Draft.reach_resourceType {d d' : Draft} {around : Option Nat} {front segments : List String}
    {number : Nat} (h : d.reach around front segments = .ok (number, d')) :
    d'.filter.resourceType = d.filter.resourceType := by
  induction segments generalizing d around front with
  | nil =>
      cases h
      rfl
  | cons segment rest ih =>
      cases around with
      | none =>
          simp only [Draft.reach] at h
          split at h
          · exact ih h
          · have hopened := ih h
            exact hopened
      | some parent =>
          simp only [Draft.reach] at h
          split at h
          · exact ih h
          · obtain ⟨⟨inner, f⟩, hopen, h⟩ := bind_eq_ok_iff.1 h
            exact (ih h).trans (openGroup_resourceType hopen)

theorem addConditionText_resourceType {f g : Filter} {number : Nat} {name : String}
    {text : ConditionText} {values : List String}
    (h : f.addConditionText s config number name text values = .ok g) :
    g.resourceType = f.resourceType := by
  have htests : ∀ {options : ConditionOptions} {test : Test} {operands : List String} {number : Nat}
      {paths : List PathText} {f g : Filter},
      addTests s number options test operands f paths = .ok g → g.resourceType = f.resourceType := by
    intro options test operands number paths f g h
    refine foldlM_invariant (P := fun g : Filter => g.resourceType = f.resourceType) h rfl ?_
    intro f' path g' _ hf' hstep
    split at hstep
    · rename_i added hadded
      cases hstep
      simp only [addCondition, bind_eq_ok_iff] at hadded
      obtain ⟨_, -, c, -, heq⟩ := hadded
      cases heq
      exact hf'
    · cases hstep
  simp only [addConditionText, bind_eq_ok_iff] at h
  obtain ⟨reading, -, ⟨test, operands⟩, -, h⟩ := h
  split at h
  · cases h
  · split at h
    · obtain ⟨⟨inner, opened⟩, hopen, h⟩ := bind_eq_ok_iff.1 h
      exact (htests h).trans (openGroup_resourceType hopen)
    · exact htests h

/-- Adding entries does not change what a filter is about. -/
theorem build_resourceType {resourceType : String} {p : FilterParameters} {f f₀ : Filter}
    (hstart : start s resourceType p.basePath = .ok f₀)
    (h : build s config resourceType p = .ok f) : f.resourceType = f₀.resourceType := by
  have hbuild := build_eq s config resourceType p.basePath p.entries
  rw [hstart, ok_bind] at hbuild
  rw [show p = ⟨p.basePath, p.entries⟩ from rfl, hbuild] at h
  obtain ⟨d, hfold, heq⟩ := bind_eq_ok_iff.1 h
  cases heq
  refine foldlM_invariant (P := fun d : Draft => d.filter.resourceType = f₀.resourceType) hfold rfl ?_
  intro d e d' _ hd hstep
  by_cases hdeep : config.maxGroupDepth < e.group.depth
  · simp only [Draft.addEntry, if_pos hdeep] at hstep
    cases hstep
  cases hreach : d.reach none [] e.group.segments with
  | error fault =>
      simp only [Draft.addEntry, if_neg hdeep, hreach] at hstep
      cases hstep
  | ok reached =>
      obtain ⟨number, reached⟩ := reached
      rw [addEntry_eq (Nat.not_lt.1 hdeep) hreach] at hstep
      obtain ⟨filter, hfilter, heq⟩ := map_eq_ok_iff.1 hstep
      cases heq
      refine Eq.trans ?_ ((Draft.reach_resourceType hreach).trans hd)
      unfold addContent at hfilter
      split at hfilter
      · simp only [bind_eq_ok_iff] at hfilter
        obtain ⟨value, -, junction, -, hset⟩ := hfilter
        obtain ⟨_, -, heq⟩ := bind_eq_ok_iff.1 hset
        cases heq
        rfl
      · exact addConditionText_resourceType hfilter

include hread hroot hgroup hmade h hvalues in
/-- The entries of what is written for a recoverable tree are clauses with numbered groups. -/
theorem ReadFrom.clauses (hnames : (entries.map FilterEntry.name).Pairwise (· < ·)) :
    ∃ clauses, entries.mapM (FilterEntry.clause? s config scope) = some clauses ∧
      List.Forall₂ Recovers entries clauses ∧ Declared.Numbered clauses := by
  have hclause : ∀ e ∈ entries, ∀ y ∈ t.clauses [root], e.name = y.name →
      ∃ x, e.clause? s config scope = some x ∧ Recovers e x ∧ x.key = y.key :=
    fun e he y hy hname => hread.exists_clause? hroot hgroup hmade h hvalues he hy hname
  have hsome : ∀ e ∈ entries, ∃ x, e.clause? s config scope = some x ∧ Recovers e x := by
    intro e he
    obtain ⟨y, hy, hname⟩ := hread.exists_clause he
    obtain ⟨x, hx, hrecovers, -⟩ := hclause e he y hy hname
    exact ⟨x, hx, hrecovers⟩
  obtain ⟨clauses, hclauses, hrecovers⟩ := exists_mapM hsome
  refine ⟨clauses, hclauses, hrecovers, ?_⟩
  -- the keys of the clauses are those that were written
  have hkeys : ∀ key : List String, (∃ x ∈ clauses, key <+: x.key) ↔
      ∃ y ∈ t.clauses [root], key <+: y.key := by
    intro key
    constructor
    · rintro ⟨x, hx, hunder⟩
      obtain ⟨e, he, hown⟩ := (mem_of_mapM_eq_some hclauses x).1 hx
      obtain ⟨y, hy, hname⟩ := hread.exists_clause he
      obtain ⟨x', hx', -, hkey⟩ := hclause e he y hy hname
      obtain rfl := Option.some.inj (hown.symm.trans hx')
      exact ⟨y, hy, hkey ▸ hunder⟩
    · rintro ⟨y, hy, hunder⟩
      obtain ⟨e, he, hname⟩ := hread.exists_entry hy
      obtain ⟨x, hx, -, hkey⟩ := hclause e he y hy hname
      exact ⟨x, (mem_of_mapM_eq_some hclauses x).2 ⟨e, he, hx⟩, hkey ▸ hunder⟩
  apply Declared.numbered_of_sorted
  · rw [← List.pairwise_map (f := FilterClause.name) (R := (· < ·))]
    rw [map_name_of_recovers hrecovers]
    exact hnames
  · intro key hkey
    by_cases hunder : [root] <+: key
    · obtain ⟨count, hdigit, hcount⟩ :=
        FilterTree.exists_numbers (fun g hg => (h.2 g hg).numbers) hunder
      exact ⟨count, hdigit, fun segment => (hkeys _).trans (hcount segment)⟩
    · -- nothing stands outside the outermost group
      refine ⟨0, by omega, fun segment => iff_of_false ?_ (by simp)⟩
      intro hsome
      obtain ⟨y, hy, hinner⟩ := (hkeys _).1 hsome
      apply hunder
      refine List.prefix_of_prefix_length_le (FilterTree.prefix_of_mem_clauses hy)
        ((List.prefix_append _ _).trans hinner) ?_
      exact List.length_pos_iff.2 hkey

/-- Built of what its recoverable tree is written as, a filter is written as the same. -/
theorem BuiltFrom.recovers {resourceType : String} {p p' : FilterParameters} {f : Filter}
    (hf : f.BuiltFrom s config resourceType root p) (h : f.tree.Recoverable config)
    (hbase : p'.basePath = p.basePath)
    (hread : ReadFrom ((f.tree.clauses [root]).flatMap FilterClause.pairs) p'.entries)
    (hnames : (p'.entries.map FilterEntry.name).Pairwise (· < ·))
    (hvalues : ∀ e ∈ p'.entries, e.values =
      Parameters.given e.name ((f.tree.clauses [root]).flatMap FilterClause.pairs)) :
    ∃ g, build s config resourceType p' = .ok g ∧ g.subject = f.subject ∧
      g.resourceType = f.resourceType ∧ ∀ name,
        Parameters.given name ((g.tree.clauses [root]).flatMap FilterClause.pairs) =
          Parameters.given name ((f.tree.clauses [root]).flatMap FilterClause.pairs) := by
  have hroots' := hread.within hf.identifier hf.made
  obtain ⟨f₀, -, -, hstart, hsubject, -⟩ := build_ok hf.within hf.built
  have hscope : f.scope = f₀.scope := congrArg Prod.fst hsubject
  obtain ⟨clauses, hclauses, hrecovers, hnumbered⟩ :=
    hread.clauses hf.identifier hf.group hf.made h hvalues hnames
  rw [hscope] at hclauses
  rw [← hbase] at hstart
  obtain ⟨g, hg, hsubject'⟩ := build_of_clauses hroots' hstart hclauses
  refine ⟨g, hg, hsubject'.trans hsubject.symm, ?_, fun name => ?_⟩
  · rw [build_resourceType hstart hg, build_resourceType (hbase ▸ hstart) hf.built]
  obtain ⟨g₀, clauses', depth, hstart', hsubject'', hclauses', -, hdeep, htree⟩ := build_ok hroots' hg
  have hgscope : g.scope = f₀.scope := congrArg Prod.fst hsubject'
  rw [hgscope, hclauses] at hclauses'
  obtain rfl := Option.some.inj hclauses'
  have hdistinct : (p'.entries.map FilterEntry.name).Nodup := by
    refine hnames.imp ?_
    rintro a b hlt rfl
    exact String.lt_irrefl _ hlt
  have hdistinct' : (clauses.map FilterClause.name).Nodup := by
    rwa [map_name_of_recovers hrecovers]
  have hkeys : ∀ x ∈ clauses, [root] <+: x.key := by
    intro x hx
    obtain ⟨e, he, hclause⟩ := (mem_of_mapM_eq_some hclauses x).1 hx
    obtain ⟨rest, hrest⟩ := List.head?_eq_some_iff.1 (hroots' e he)
    exact ⟨rest, by rw [(clause?_eq_some_iff.1 hclause).1, hrest]; rfl⟩
  have hperm := Declared.clauses_tree_perm
    (fun x hx => (exists_of_forall₂ hrecovers hx).elim fun e he => he.2.single) hnumbered
    hdistinct'.of_map hkeys hdeep
  have hown : ∀ x ∈ clauses, ∀ pair ∈ x.pairs, pair.1 = x.name := by
    intro x hx pair hpair
    obtain ⟨e, -, hx⟩ := exists_of_forall₂ hrecovers hx
    rw [hx.pairs] at hpair
    obtain ⟨value, -, rfl⟩ := List.mem_map.1 hpair
    exact hx.name.symm
  rw [htree, ← Parameters.given_perm hperm.symm hdistinct' hown, flatMap_pairs_of_recovers hrecovers]
  by_cases hname : ∃ e ∈ p'.entries, e.name = name
  · obtain ⟨e, he, rfl⟩ := hname
    rw [Parameters.given_of_nodup hdistinct he, hvalues e he]
  · rw [Parameters.given_eq_nil, Parameters.given_eq_nil]
    · rintro ⟨other, value⟩ hpair rfl
      exact hname (hread.complete _ _ hpair)
    · rintro ⟨other, value⟩ hpair rfl
      obtain ⟨e, he, hpair⟩ := List.mem_flatMap.1 hpair
      obtain ⟨_, -, heq⟩ := List.mem_map.1 hpair
      exact hname ⟨e, he, congrArg Prod.fst heq⟩

end

end Filter

end ResourceQuery
