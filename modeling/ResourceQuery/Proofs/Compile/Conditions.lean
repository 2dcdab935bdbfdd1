import ResourceQuery.Compile.Filter
import ResourceQuery.Proofs.Filter.Encoding
import ResourceQuery.Proofs.Path.Steps
import ResourceQuery.Proofs.ValueType.Text
/-!
# Conditions made and made again

A condition that was made is written with operands that read as no other values. Made again of what
its group has written under its name, it asks what `Condition.reread` asks.
-/

namespace ResourceQuery

namespace Filter

/-- The type that the operands of a condition are read as. -/
def comparedType (s : Schema) (scope path : String) (options : ConditionOptions) :
    Except Fault ValueType := do
  let resolved ← Path.resolve s scope path
  let property ← resolved.terminal
  testedType s path property.type options

theorem checkOperandCount_eq_ok_iff {path : String} {test : Test} {operands : List String}
    {u : Unit} :
    checkOperandCount path test operands = .ok u ↔ test.takesOperands = !operands.isEmpty := by
  unfold checkOperandCount
  cases test.takesOperands <;> cases operands.isEmpty <;>
    simp [throw_eq_error, error_bind, pure, Except.pure]

/-- A condition is made if and only if all that is checked of it holds. -/
theorem makeCondition_eq_ok_iff {s : Schema} {scope path : String} {options : ConditionOptions}
    {test : Test} {operands : List String} {c : Condition} :
    makeCondition s scope path options test operands = .ok c ↔
      Path.resolve s scope path = .ok c.path ∧ c.path.checkEvaluable s = .ok () ∧
        test.takesOperands = (!operands.isEmpty) ∧ c.options = options ∧ c.test = test ∧
        ∃ p tested, c.path.terminal = .ok p ∧ testedType s path p.type options = .ok tested ∧
          inapplicable? test tested = none ∧
          operands.mapM (tested.parseText s) = .ok c.operands := by
  simp only [makeCondition, bind_eq_ok_iff]
  constructor
  · rintro ⟨_, hcount, resolved, hresolved, _, hevaluable, p, hp, tested, htested, h⟩
    split at h
    · cases h
    · rename_i happlicable
      obtain ⟨values, hvalues, heq⟩ := bind_eq_ok_iff.1 h
      cases heq
      refine ⟨hresolved, hevaluable, checkOperandCount_eq_ok_iff.1 hcount, rfl, rfl, p, tested, hp,
        htested, Option.eq_none_iff_forall_ne_some.2 happlicable, ?_⟩
      -- where a fault is located does not matter, since there is none
      refine (mapM_eq_ok_congr fun text value => ?_).1 hvalues
      cases tested.parseText s text <;> simp
  · rintro ⟨hresolved, hevaluable, hcount, rfl, rfl, p, tested, hp, htested, happlicable, hread⟩
    refine ⟨(), checkOperandCount_eq_ok_iff.2 hcount, c.path, hresolved, (), hevaluable, p, hp,
      tested, htested, ?_⟩
    rw [happlicable]
    refine bind_eq_ok_iff.2 ⟨_, (mapM_eq_ok_congr fun text value => ?_).2 hread, rfl⟩
    cases tested.parseText s text <;> simp

theorem makeCondition_ok {s : Schema} {scope path : String} {options : ConditionOptions}
    {test : Test} {operands : List String} {c : Condition}
    (h : makeCondition s scope path options test operands = .ok c) :
    c.path.text = path ∧ c.options = options ∧ c.test = test ∧
      test.takesOperands = !operands.isEmpty ∧
      ∃ tested, comparedType s scope path options = .ok tested ∧
        operands.mapM (tested.parseText s) = .ok c.operands := by
  obtain ⟨hresolved, -, hcount, hoptions, htest, p, tested, hp, htested, -, hread⟩ :=
    makeCondition_eq_ok_iff.1 h
  refine ⟨(Path.resolve_ok hresolved).1, hoptions, htest, hcount, tested, ?_, hread⟩
  rw [comparedType, hresolved, ok_bind, hp, ok_bind, htested]

/-- Made of other operands that can be read, a condition differs in nothing else. -/
theorem makeCondition_operands {s : Schema} {scope path : String} {options : ConditionOptions}
    {test : Test} {operands texts : List String} {c : Condition} {values : List Value}
    {tested : ValueType} (h : makeCondition s scope path options test operands = .ok c)
    (htested : comparedType s scope path options = .ok tested)
    (hcount : test.takesOperands = !texts.isEmpty)
    (hread : texts.mapM (tested.parseText s) = .ok values) :
    makeCondition s scope path options test texts = .ok { c with operands := values } := by
  obtain ⟨hresolved, hevaluable, -, hoptions, htest, p, tested', hp, htested', happlicable, -⟩ :=
    makeCondition_eq_ok_iff.1 h
  rw [comparedType, hresolved, ok_bind, hp, ok_bind, htested'] at htested
  obtain rfl : tested' = tested := Except.ok.inj htested
  exact makeCondition_eq_ok_iff.2 ⟨hresolved, hevaluable, hcount, hoptions, htest, p, tested', hp,
    htested', happlicable, hread⟩

end Filter

namespace Condition

/-- The condition was made at a container, of a name that can be read. -/
structure Made (s : Schema) (scope : String) (c : Condition) : Prop extends c.Sound where
  made : ∃ operands, Filter.makeCondition s scope c.path.text c.options c.test operands = .ok c

theorem made_of_makeCondition {s : Schema} {scope path : String} {options : ConditionOptions}
    {test : Test} {operands : List String} {c : Condition} (hpath : Text.IsDotted path)
    (htransform : ∀ t ∈ options.transform, t.Sound)
    (h : Filter.makeCondition s scope path options test operands = .ok c) : c.Made s scope := by
  obtain ⟨htext, hoptions, htest, hcount, tested, htested, hoperands⟩ := Filter.makeCondition_ok h
  have hempty : c.operands.isEmpty = operands.isEmpty := by
    have hlength := (mapM_eq_ok_iff_forall₂.1 hoperands).length_eq
    cases operands <;> cases hvalues : c.operands <;> simp_all
  rw [← hempty] at hcount
  refine ⟨⟨⟨by rwa [htext], by rwa [hoptions]⟩, ?_, ?_⟩, operands, by rwa [htext, hoptions, htest]⟩
  · intro hpresence
    rw [Test.isPresence, htest, hcount] at hpresence
    simpa using hpresence
  · intro hpresence
    rw [Test.isPresence, htest, hcount] at hpresence
    simpa using hpresence

/-- The operands were read as values of the type that is compared. -/
theorem Made.compared {s : Schema} {scope : String} {c : Condition} (h : c.Made s scope) :
    ∃ tested, Filter.comparedType s scope c.path.text c.options = .ok tested ∧
      ∀ operand ∈ c.operands, ∃ text, tested.parseText s text = .ok operand := by
  obtain ⟨operands, hmade⟩ := h.made
  obtain ⟨-, -, -, -, tested, htested, hoperands⟩ := Filter.makeCondition_ok hmade
  refine ⟨tested, htested, ?_⟩
  intro operand hoperand
  obtain ⟨text, -, hread⟩ := (mem_of_mapM_eq_ok hoperands operand).1 hoperand
  exact ⟨text, hread⟩

/-- Every operand has a text. -/
theorem Made.isSome_toText? {s : Schema} {scope : String} {c : Condition} (h : c.Made s scope) :
    ∀ operand ∈ c.operands, operand.toText?.isSome := by
  intro operand hoperand
  obtain ⟨tested, -, hread⟩ := h.compared
  obtain ⟨text, htext⟩ := hread operand hoperand
  obtain ⟨written, hwritten, -⟩ := ValueType.readsBack_of_parseText htext
  rw [hwritten]
  rfl

/-- Conditions of one name in one group compare the same thing in the same way. -/
theorem made_of_mem_namesakes {s : Schema} {scope : String} {c d : Condition}
    {siblings : List Condition} (hmade : ∀ d ∈ siblings, d.Made s scope) (hmem : c ∈ siblings)
    (hd : d ∈ c.namesakes siblings) :
    d.Made s scope ∧ d.path.text = c.path.text ∧ d.options = c.options ∧ d.test = c.test := by
  obtain ⟨hd, hsuffix⟩ := mem_namesakes.1 hd
  exact ⟨hmade d hd, (hmade d hd).toReadable.eq_of_suffix_eq (hmade c hmem).toReadable hsuffix⟩

/-! ## Made again -/

theorem mem_texts {c : Condition} {text : String} (h : text ≠ "" ∨ c.operands ≠ []) :
    text ∈ c.texts ↔ ∃ operand ∈ c.operands, operand.toText?.getD "" = text := by
  unfold texts
  split
  · rename_i hempty
    rw [List.isEmpty_iff] at hempty
    simp_all
  · rw [List.mem_map]

/-- The values that conditions are written with are the texts of their operands, if there are
some. -/
theorem exists_mem_texts_iff {conditions : List Condition} {text : String}
    (h : text ≠ "" ∨ ∀ d ∈ conditions, d.operands ≠ []) :
    (∃ d ∈ conditions, text ∈ d.texts) ↔
      ∃ operand ∈ conditions.flatMap Condition.operands, operand.toText?.getD "" = text := by
  constructor
  · rintro ⟨d, hd, htext⟩
    obtain ⟨operand, hoperand, heq⟩ := (mem_texts (h.imp_right fun h => h d hd)).1 htext
    exact ⟨operand, List.mem_flatMap.2 ⟨d, hd, hoperand⟩, heq⟩
  · rintro ⟨operand, hoperand, heq⟩
    obtain ⟨d, hd, hoperand⟩ := List.mem_flatMap.1 hoperand
    exact ⟨d, hd, (mem_texts (.inr (List.ne_nil_of_mem hoperand))).2 ⟨operand, hoperand, heq⟩⟩

/-- The values that are not empty are the texts of the operands that have other texts than the empty
one. -/
theorem mem_filter_texts_iff {conditions : List Condition} {values : List String}
    (hvalues : ∀ value, value ∈ values ↔ ∃ d ∈ conditions, value ∈ d.texts)
    (hsome : ∀ d ∈ conditions, ∀ operand ∈ d.operands, operand.toText?.isSome) (text : String) :
    text ∈ values.filter (fun value => !value.isEmpty) ↔
      ∃ operand ∈ (conditions.flatMap Condition.operands).filter
        (fun operand => operand.toText? ≠ some ""), operand.toText?.getD "" = text := by
  have hblank : ∀ operand ∈ conditions.flatMap Condition.operands,
      (operand.toText? ≠ some "" ↔ operand.toText?.getD "" ≠ "") := by
    intro operand hoperand
    obtain ⟨d, hd, hoperand⟩ := List.mem_flatMap.1 hoperand
    obtain ⟨written, hwritten⟩ := Option.isSome_iff_exists.1 (hsome d hd operand hoperand)
    simp [hwritten]
  simp only [List.mem_filter, Bool.not_eq_true', String.isEmpty_eq_false_iff, decide_eq_true_eq]
  constructor
  · rintro ⟨hvalue, hne⟩
    obtain ⟨operand, hoperand, rfl⟩ :=
      (exists_mem_texts_iff (.inl hne)).1 ((hvalues _).1 hvalue)
    exact ⟨operand, ⟨hoperand, (hblank operand hoperand).2 hne⟩, rfl⟩
  · rintro ⟨operand, ⟨hoperand, hkept⟩, rfl⟩
    have hne := (hblank operand hoperand).1 hkept
    exact ⟨(hvalues _).2 ((exists_mem_texts_iff (.inl hne)).2 ⟨operand, hoperand, rfl⟩), hne⟩

/-- The test and the texts of operands are those of the condition. -/
structure Restored (c : Condition) (test : Test) (operands : List String) : Prop where
  test : test = c.test
  operands : ∀ text, text ∈ operands ↔
    ∃ operand ∈ c.operands, operand.toText?.getD "" = text

/-- Without a named test the values that are not empty are compared, and presence is tested if there
are none. -/
theorem restored_of_unnamed {c : Condition} {siblings : List Condition} {name : String}
    {values operands : List String} {test : Test} (htest : c.test = .equality true)
    (hvalues : ∀ value, value ∈ values ↔ ∃ d ∈ c.namesakes siblings, value ∈ d.texts)
    (hsome : ∀ d ∈ c.namesakes siblings, ∀ operand ∈ d.operands, operand.toText?.isSome)
    (h : Filter.testAndOperands name none values = .ok (test, operands)) :
    (c.reread siblings).Restored test operands := by
  have hgiven := mem_filter_texts_iff hvalues hsome
  have hempty : (values.filter fun value => !value.isEmpty).isEmpty =
      (((c.namesakes siblings).flatMap Condition.operands).filter
        fun operand => operand.toText? ≠ some "").isEmpty := by
    rw [isEmpty_congr fun text => (hgiven text).trans List.mem_map.symm, List.isEmpty_map]
  simp only [Filter.testAndOperands, hempty, Except.ok.injEq] at h
  cases hkept : (((c.namesakes siblings).flatMap Condition.operands).filter
      fun operand => operand.toText? ≠ some "").isEmpty with
  | true =>
      have hreread : c.reread siblings = { c with test := .presence true, operands := [] } := by
        simp only [reread, htest, if_true, hkept]
      rw [if_pos hkept, Prod.mk.injEq] at h
      obtain ⟨rfl, rfl⟩ := h
      rw [hreread]
      exact ⟨rfl, by simp⟩
  | false =>
      have hreread : c.reread siblings = { c with
          operands := ((c.namesakes siblings).flatMap Condition.operands).filter
            fun operand => operand.toText? ≠ some "" } := by
        simp only [reread, htest, if_true, hkept, Bool.false_eq_true, if_false]
      rw [if_neg (by rw [hkept]; exact Bool.false_ne_true), Prod.mk.injEq] at h
      obtain ⟨rfl, rfl⟩ := h
      rw [hreread]
      exact ⟨htest.symm, hgiven⟩

/-- A named test is applied to all values, of which there are some unless it is for presence. -/
theorem restored_of_named {c : Condition} {siblings : List Condition} {name : String}
    {values operands : List String} {test : Test} (htest : c.test ≠ .equality true)
    (hvalues : ∀ value, value ∈ values ↔ ∃ d ∈ c.namesakes siblings, value ∈ d.texts)
    (hsound : ∀ d ∈ c.namesakes siblings, d.Sound ∧ d.test = c.test)
    (h : Filter.testAndOperands name (some c.test) values = .ok (test, operands)) :
    (c.reread siblings).Restored test operands := by
  have hreread : c.reread siblings =
      { c with operands := (c.namesakes siblings).flatMap Condition.operands } := by
    simp only [reread, if_neg htest]
  simp only [Filter.testAndOperands] at h
  rw [hreread]
  cases hpresence : c.test.isPresence with
  | false =>
      have htakes : c.test.takesOperands = true := by simpa [Test.isPresence] using hpresence
      rw [if_pos htakes] at h
      cases h
      refine ⟨rfl, fun text => ?_⟩
      rw [hvalues]
      refine exists_mem_texts_iff (.inr fun d hd => ?_)
      obtain ⟨hd, hsame⟩ := hsound d hd
      exact hd.operands (by rw [hsame, hpresence])
  | true =>
      have htakes : c.test.takesOperands = false := by simpa [Test.isPresence] using hpresence
      have hnone : (c.namesakes siblings).flatMap Condition.operands = [] := by
        rw [List.flatMap_eq_nil_iff]
        intro d hd
        obtain ⟨hd, hsame⟩ := hsound d hd
        exact hd.noOperands (by rw [hsame, hpresence])
      rw [if_neg (by simp [htakes])] at h
      split at h
      · cases h
        exact ⟨rfl, by simp [hnone]⟩
      · cases h

/-- What the values written for conditions of one name are read as: without empty ones where no test
is named. -/
theorem restored_of_testAndOperands {s : Schema} {scope : String} {c : Condition}
    {siblings : List Condition} {name : String} {values operands : List String} {test : Test}
    (hmade : ∀ d ∈ siblings, d.Made s scope) (hmem : c ∈ siblings)
    (hvalues : ∀ value, value ∈ values ↔ ∃ d ∈ c.namesakes siblings, value ∈ d.texts)
    (h : Filter.testAndOperands name c.namedTest? values = .ok (test, operands)) :
    (c.reread siblings).Restored test operands := by
  unfold namedTest? at h
  split at h
  · rename_i htest
    refine restored_of_unnamed htest hvalues (fun d hd => ?_) h
    exact (made_of_mem_namesakes hmade hmem hd).1.isSome_toText?
  · rename_i htest
    refine restored_of_named htest hvalues (fun d hd => ?_) h
    obtain ⟨hd, -, -, hsame⟩ := made_of_mem_namesakes hmade hmem hd
    exact ⟨hd.toSound, hsame⟩

/-- Made again of what its group has written under its name, a condition asks what is read. -/
theorem truth_of_makeCondition {s : Schema} {scope : String} {c c' : Condition}
    {siblings : List Condition} {test : Test} {operands : List String} (v : AtomicTest → Bool)
    (hmade : ∀ d ∈ siblings, d.Made s scope) (hmem : c ∈ siblings)
    (hrestored : (c.reread siblings).Restored test operands)
    (h : Filter.makeCondition s scope c.path.text c.options test operands = .ok c') :
    c'.truth v = (c.reread siblings).truth v := by
  obtain ⟨htext, hoptions, htest, -, tested, htested, hoperands⟩ := Filter.makeCondition_ok h
  -- operands of namesakes are read as themselves
  have hback : ∀ operand ∈ (c.reread siblings).operands, ∀ w,
      tested.parseText s (operand.toText?.getD "") = .ok w → w = operand := by
    intro operand hoperand
    obtain ⟨d, hd, hoperand⟩ := mem_operands_of_reread hoperand
    obtain ⟨hd, hdpath, hdoptions, -⟩ := made_of_mem_namesakes hmade hmem hd
    obtain ⟨tested', htested', hread⟩ := hd.compared
    rw [hdpath, hdoptions, htested] at htested'
    cases htested'
    obtain ⟨text, htext⟩ := hread operand hoperand
    obtain ⟨written, hwritten, hback, -⟩ := ValueType.readsBack_of_parseText htext
    rw [hwritten]
    exact hback
  apply truth_congr
  · rw [htext, reread_path]
  · rw [hoptions, reread_options]
  · rw [htest, hrestored.test]
  · intro operand
    constructor
    · intro hoperand
      obtain ⟨text, htext, hread⟩ := (mem_of_mapM_eq_ok hoperands operand).1 hoperand
      obtain ⟨other, hother, rfl⟩ := (hrestored.operands text).1 htext
      rwa [hback other hother operand hread]
    · intro hoperand
      obtain ⟨w, hw, hread⟩ :=
        exists_of_mapM_eq_ok hoperands ((hrestored.operands _).2 ⟨operand, hoperand, rfl⟩)
      rwa [← hback operand hoperand w hread]

end Condition

end ResourceQuery
