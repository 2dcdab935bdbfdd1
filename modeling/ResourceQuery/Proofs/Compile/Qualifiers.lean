import ResourceQuery.Compile.Qualifiers
import ResourceQuery.Filter.Condition
import ResourceQuery.Proofs.Numeral.Digits
import ResourceQuery.Proofs.Outcome
import ResourceQuery.Proofs.Query.FilterParameter
/-!
# Qualifiers read back

The qualifiers that a condition is written with mean its options and its test. Equality is not
written, so the test of a condition without a test name is left open. Those that a sort property is
written with mean what it is sorted by.
-/

namespace ResourceQuery

/-! ## Transforms -/

namespace Transform

/-- The name and the parameters that a transform is written with. -/
def word (t : Transform) : String × List String := (t.function.name, t.parameters)

/-- The transform is the one that its name and its parameters name. -/
def Sound (t : Transform) : Prop := ofName t.word.1 t.word.2 = .ok t

theorem le_of_number {f : TransformFunction} {index n : Nat} {text : String}
    (h : number f index text = .ok n) : n ≤ parameterBound := by
  unfold number at h
  split at h
  · rename_i m hm
    cases h
    exact Numeral.le_of_readNat? hm
  · cases h

theorem number_ofNat (f : TransformFunction) (index : Nat) {n : Nat} (h : n ≤ parameterBound) :
    number f index (Numeral.ofNat n) = .ok n := by
  simp only [number, Numeral.readNat?_ofNat h]

/-- A transform that was read is the one that its written form names. -/
theorem sound_of_ofName {name : String} {parameters : List String} {t : Transform}
    (h : ofName name parameters = .ok t) : t.Sound := by
  unfold ofName at h
  split at h
  · split at h
    · cases h
      rfl
    · cases h
      rfl
    · simp only [bind_eq_ok_iff] at h
      obtain ⟨start, hstart, count, hcount, heq⟩ := h
      cases heq
      change (do
        let a ← number .substring 1 (Numeral.ofNat start)
        let b ← number .substring 2 (Numeral.ofNat count)
        return Transform.substring a b) = .ok (.substring start count)
      rw [number_ofNat _ _ (le_of_number hstart), number_ofNat _ _ (le_of_number hcount)]
      rfl
    · split at h
      · rename_i c hfill
        split at h
        · rename_i hc
          obtain ⟨width, hwidth, heq⟩ := bind_eq_ok_iff.1 h
          cases heq
          have hfunction : TransformFunction.ofName? (leftPad width c).word.1 = some .leftPad := rfl
          unfold Sound ofName
          simp only [hfunction]
          simp only [word, Transform.parameters, Char.toString, String.toList_singleton, if_pos hc,
            number_ofNat _ _ (le_of_number hwidth)]
          rfl
        · cases h
      · cases h
    · cases h
  · cases h

theorem Sound.readable {t : Transform} (h : t.Sound) : Qualifier.Readable t.word := by
  have hdigits : ∀ n : Nat, (Numeral.ofNat n).toList ≠ [] ∧
      ∀ c ∈ (Numeral.ofNat n).toList, Qualifier.isParameterPart c = true := by
    intro n
    rw [Numeral.ofNat, String.toList_ofList]
    refine ⟨Numeral.digits_ne_nil n, ?_⟩
    intro c hc
    have hdigit := Numeral.isDigit_of_mem_digits hc
    simp [Qualifier.isParameterPart, Char.isAlphanum, hdigit]
  have hname : ∀ f : TransformFunction, Text.isIdentifier f.name.toList = true := by
    intro f
    cases f <;> decide
  refine ⟨hname t.function, ?_⟩
  cases t with
  | length => simp [word, parameters]
  | lowercase => simp [word, parameters]
  | substring start count =>
      intro p hp
      simp only [word, parameters, List.mem_cons, List.not_mem_nil, or_false] at hp
      rcases hp with rfl | rfl
      · exact hdigits start
      · exact hdigits count
  | leftPad width fill =>
      intro p hp
      simp only [word, parameters, List.mem_cons, List.not_mem_nil, or_false] at hp
      rcases hp with rfl | rfl
      · exact hdigits width
      · have hfill : Qualifier.isParameterPart fill = true := by
          unfold Sound ofName at h
          have hfunction : TransformFunction.ofName? (leftPad width fill).word.1 = some .leftPad :=
            rfl
          simp only [hfunction] at h
          simp only [word, Transform.parameters, Char.toString, String.toList_singleton] at h
          split at h
          · assumption
          · cases h
        simp [Char.toString, hfill]

end Transform

/-! ## Words of a condition -/

theorem Test.mem_all (t : Test) : t ∈ Test.all := by
  cases t with
  | equality equal => cases equal <;> decide
  | comparison kind => cases kind <;> decide
  | textual kind positive caseSensitive =>
      cases kind <;> cases positive <;> cases caseSensitive <;> decide
  | presence present => cases present <;> decide

/-- The name of a test is an identifier, is read as that test, and names nothing else. -/
theorem Test.ofName?_name (t : Test) :
    Text.isIdentifier t.name.toList = true ∧ OperandKind.ofQualifier? t.name = none ∧
      Test.ofName? t.name = some t := by
  have hall : ∀ t ∈ Test.all, Text.isIdentifier t.name.toList = true ∧
      OperandKind.ofQualifier? t.name = none ∧ Test.ofName? t.name = some t := by decide
  exact hall t t.mem_all

namespace Condition

/-- The test that is named in a parameter. -/
def namedTest? (c : Condition) : Option Test := if c.test = .equality true then none else some c.test

/-- The qualifiers that a condition is written with. -/
def words (c : Condition) : List (String × List String) :=
  c.options.operandKind.qualifier?.toList.map (fun name => (name, []))
    ++ c.options.transform.toList.map Transform.word
    ++ c.namedTest?.toList.map fun test => (test.name, [])

theorem suffix_eq (c : Condition) :
    c.suffix = ConditionText.written c.path.text c.words c.options.negated := by
  have hwords : c.words.map Qualifier.written = c.options.operandKind.qualifier?.toList
      ++ (c.options.transform.map Transform.encode).toList
      ++ (if c.test = .equality true then [] else [c.test.name]) := by
    have htransform : (c.options.transform.map Transform.encode).toList =
        (c.options.transform.toList.map Transform.word).map Qualifier.written := by
      cases c.options.transform <;> rfl
    have htest : (if c.test = .equality true then [] else [c.test.name]) =
        (c.namedTest?.toList.map fun test => (test.name, [])).map Qualifier.written := by
      unfold namedTest?
      split <;> rfl
    have hkind : c.options.operandKind.qualifier?.toList =
        (c.options.operandKind.qualifier?.toList.map fun name => (name, [])).map
          Qualifier.written := by
      cases c.options.operandKind <;> rfl
    rw [htransform, htest, hkind]
    simp only [words, List.map_append]
  rw [suffix, ConditionText.written, hwords]

theorem readable_of_mem_words {c : Condition} (h : ∀ t ∈ c.options.transform, t.Sound) :
    ∀ word ∈ c.words, Qualifier.Readable word := by
  intro word hword
  simp only [words, List.mem_append, List.mem_map, Option.mem_toList] at hword
  rcases hword with (⟨name, hname, rfl⟩ | ⟨t, ht, rfl⟩) | ⟨test, -, rfl⟩
  · refine ⟨?_, by simp⟩
    cases hkind : c.options.operandKind with
    | value => simp [hkind, OperandKind.qualifier?] at hname
    | key =>
        obtain rfl : "key" = name := by simpa [hkind, OperandKind.qualifier?] using hname
        decide
    | id =>
        obtain rfl : "id" = name := by simpa [hkind, OperandKind.qualifier?] using hname
        decide
  · exact (h t ht).readable
  · exact ⟨test.ofName?_name.1, by simp⟩

end Condition

/-! ## Qualifiers read -/

namespace Qualifier

variable {qualifiers : List Qualifier} {r : ConditionReading}

theorem eq_singleton_of_map {word : String × List String}
    (h : qualifiers.map (fun q => (q.name, q.parameters)) = [word]) :
    ∃ q : Qualifier, qualifiers = [q] ∧ q.name = word.1 ∧ q.parameters = word.2 := by
  obtain ⟨q, rest, rfl, hq, hrest⟩ := List.map_eq_cons_iff.1 h
  obtain rfl : rest = [] := List.map_eq_nil_iff.1 hrest
  exact ⟨q, rfl, congrArg Prod.fst hq, congrArg Prod.snd hq⟩

/-- A qualifier with the words of a sound transform names the transform. -/
theorem transform_of_word {q : Qualifier} {t : Transform} (hsound : t.Sound)
    (hname : q.name = t.word.1) (hparameters : q.parameters = t.word.2) :
    q.transform = .ok t := by
  have ht : Transform.ofName t.word.1 t.word.2 = .ok t := hsound
  simp only [Qualifier.transform, hname, hparameters, ht]

/-- A transform that was named is named again by its words. -/
theorem sound_of_transform {q : Qualifier} {t : Transform} (h : q.transform = .ok t) :
    t.Sound := by
  unfold Qualifier.transform at h
  split at h
  · rename_i hname
    cases h
    exact Transform.sound_of_ofName hname
  · cases h

theorem read_kind {kind : OperandKind} (htest : r.test = none)
    (hvalue : r.options.operandKind = .value)
    (h : qualifiers.map (fun q => (q.name, q.parameters)) =
      kind.qualifier?.toList.map fun name => (name, [])) :
    qualifiers.foldlM readCondition r =
      .ok { r with options := { r.options with operandKind := kind } } := by
  have hone : ∀ name, kind.qualifier? = some name → OperandKind.ofQualifier? name = some kind →
      qualifiers.foldlM readCondition r =
        .ok { r with options := { r.options with operandKind := kind } } := by
    intro name hname hkind
    rw [hname] at h
    obtain ⟨q, rfl, hq, hparameters⟩ := eq_singleton_of_map h
    have hread : q.operandKind? = some kind := by
      rw [operandKind?, isPlain, hparameters, hq]
      exact hkind
    rw [foldlM_singleton]
    simp only [readCondition, htest, hread, hvalue]
    rfl
  cases kind with
  | value =>
      obtain rfl : qualifiers = [] := List.map_eq_nil_iff.1 h
      rw [← hvalue]
      rfl
  | key => exact hone "key" rfl rfl
  | id => exact hone "id" rfl rfl

theorem read_transform {transform : Option Transform} (htest : r.test = none)
    (hnone : r.options.transform = none) (hsound : ∀ t ∈ transform, t.Sound)
    (h : qualifiers.map (fun q => (q.name, q.parameters)) = transform.toList.map Transform.word) :
    qualifiers.foldlM readCondition r =
      .ok { r with options := { r.options with transform := transform } } := by
  cases transform with
  | none =>
      obtain rfl : qualifiers = [] := List.map_eq_nil_iff.1 h
      rw [← hnone]
      rfl
  | some t =>
      obtain ⟨q, rfl, hq, hparameters⟩ := eq_singleton_of_map h
      have hname : ∀ f : TransformFunction, OperandKind.ofQualifier? f.name = none ∧
          Test.ofName? f.name = none := by
        intro f
        cases f <;> decide
      have hkind : q.operandKind? = none := by
        rw [operandKind?, hq]
        split
        · exact (hname t.function).1
        · rfl
      have hnoTest : q.test? = none := by
        rw [test?, hq]
        split
        · exact (hname t.function).2
        · rfl
      have hread := transform_of_word (hsound t rfl) hq hparameters
      rw [foldlM_singleton]
      simp only [readCondition, htest, hkind, hnoTest, hnone, hread]
      rfl

theorem read_test {test : Option Test} (htest : r.test = none)
    (h : qualifiers.map (fun q => (q.name, q.parameters)) =
      test.toList.map fun test => (test.name, [])) :
    qualifiers.foldlM readCondition r = .ok { r with test := test } := by
  cases test with
  | none =>
      obtain rfl : qualifiers = [] := List.map_eq_nil_iff.1 h
      rw [← htest]
      rfl
  | some test =>
      obtain ⟨q, rfl, hq, hparameters⟩ := eq_singleton_of_map h
      obtain ⟨-, hnone, hsome⟩ := test.ofName?_name
      have hkind : q.operandKind? = none := by
        rw [operandKind?, hq, hnone]
        split <;> rfl
      have hread : q.test? = some test := by
        rw [test?, isPlain, hparameters, hq]
        exact hsome
      rw [foldlM_singleton]
      simp only [readCondition, htest, hkind, hread]
      rfl

/-- The qualifiers of a condition mean its options and the test that is named. -/
theorem ofCondition_words {c : Condition} (hsound : ∀ t ∈ c.options.transform, t.Sound)
    (h : qualifiers.map (fun q => (q.name, q.parameters)) = c.words) :
    ofCondition qualifiers =
      .ok ⟨{ c.options with negated := false }, c.namedTest?⟩ := by
  rw [Condition.words, List.map_eq_append_iff] at h
  obtain ⟨front, tests, rfl, hfront, htests⟩ := h
  obtain ⟨kinds, transforms, rfl, hkinds, htransforms⟩ := List.map_eq_append_iff.1 hfront
  rw [ofCondition, List.foldlM_append, List.foldlM_append, read_kind rfl rfl hkinds, ok_bind,
    read_transform rfl rfl hsound htransforms, ok_bind, read_test rfl htests]

/-- A transform that was read with a condition can be read again. -/
theorem sound_of_ofCondition {qualifiers : List Qualifier} {r : ConditionReading}
    (h : ofCondition qualifiers = .ok r) : ∀ t ∈ r.options.transform, t.Sound := by
  have hstep : ∀ (r r' : ConditionReading) (q : Qualifier), readCondition r q = .ok r' →
      (∀ t ∈ r.options.transform, t.Sound) → ∀ t ∈ r'.options.transform, t.Sound := by
    intro r r' q hread hr
    cases htest : r.test with
    | some test =>
        simp only [readCondition, htest, Option.isSome_some, if_true] at hread
        split at hread <;> cases hread
    | none =>
        simp only [readCondition, htest, Option.isSome_none, Bool.false_eq_true, if_false] at hread
        split at hread
        · split at hread
          · cases hread
          · cases hread
            exact hr
        · cases hread
          exact hr
        · split at hread
          · cases hread
          · obtain ⟨t, ht, heq⟩ := bind_eq_ok_iff.1 hread
            cases heq
            intro t' ht'
            obtain rfl : t = t' := by simpa using ht'
            exact sound_of_transform ht
  exact foldlM_invariant (P := fun r => ∀ t ∈ r.options.transform, t.Sound) h (by simp)
    fun r q r' _ hr hread => hstep r r' q hread hr

end Qualifier

/-! ## Qualifiers of sort properties -/

namespace PropertySort

/-- The qualifiers that a sort property is written with. -/
def words (p : PropertySort) : List (String × List String) :=
  (if p.byId then [("id", [])] else []) ++ p.transform.toList.map Transform.word
    ++ (if p.direction = .desc then [("desc", [])] else [])

theorem encode_eq (p : PropertySort) :
    p.encode = Text.join ":" (p.path.text :: p.words.map Qualifier.written) := by
  have hwords : p.words.map Qualifier.written = (if p.byId then ["id"] else [])
      ++ (p.transform.map Transform.encode).toList
      ++ (if p.direction = .desc then ["desc"] else []) := by
    simp only [words, List.map_append]
    congr 1
    · congr 1
      · cases p.byId <;> rfl
      · cases p.transform <;> rfl
    · split <;> rfl
  rw [encode, hwords]

theorem readable_of_mem_words {p : PropertySort} (h : ∀ t ∈ p.transform, t.Sound) :
    ∀ word ∈ p.words, Qualifier.Readable word := by
  have hplain : ∀ name : String, Text.isIdentifier name.toList = true →
      Qualifier.Readable (name, []) := fun name hname => ⟨hname, by simp⟩
  intro word hword
  simp only [words, List.mem_append, List.mem_map, Option.mem_toList] at hword
  rcases hword with (hid | ⟨t, ht, rfl⟩) | hdesc
  · split at hid
    · obtain rfl := List.mem_singleton.1 hid
      exact hplain "id" (by decide)
    · cases hid
  · exact (h t ht).readable
  · split at hdesc
    · obtain rfl := List.mem_singleton.1 hdesc
      exact hplain "desc" (by decide)
    · cases hdesc

end PropertySort

namespace Qualifier

variable {qualifiers : List Qualifier} {r : SortReading}

theorem read_byId {byId : Bool} (hdirection : r.direction = none) (hnone : r.byId = false)
    (h : qualifiers.map (fun q => (q.name, q.parameters)) =
      if byId then [("id", [])] else []) :
    qualifiers.foldlM readSort r = .ok { r with byId := byId } := by
  cases byId with
  | false =>
      obtain rfl : qualifiers = [] := List.map_eq_nil_iff.1 h
      rw [← hnone]
      rfl
  | true =>
      obtain ⟨q, rfl, hq, hparameters⟩ := eq_singleton_of_map h
      have hno : q.direction? = none := by
        rw [direction?, hq]
        split <;> rfl
      have hplain : q.isPlain = true := by
        rw [isPlain, hparameters]
        rfl
      rw [foldlM_singleton]
      simp only [readSort, hdirection, hno, hq, hplain, hnone]
      rfl

theorem read_sortTransform {transform : Option Transform} (hdirection : r.direction = none)
    (hnone : r.transform = none) (hsound : ∀ t ∈ transform, t.Sound)
    (h : qualifiers.map (fun q => (q.name, q.parameters)) = transform.toList.map Transform.word) :
    qualifiers.foldlM readSort r = .ok { r with transform := transform } := by
  cases transform with
  | none =>
      obtain rfl : qualifiers = [] := List.map_eq_nil_iff.1 h
      rw [← hnone]
      rfl
  | some t =>
      obtain ⟨q, rfl, hq, hparameters⟩ := eq_singleton_of_map h
      have hname : ∀ f : TransformFunction, Direction.ofName? f.name = none ∧ f.name ≠ "id" := by
        intro f
        cases f <;> decide
      have hno : q.direction? = none := by
        rw [direction?, hq]
        split
        · exact (hname t.function).1
        · rfl
      have hne : q.name ≠ "id" := by
        rw [hq]
        exact (hname t.function).2
      have hread := transform_of_word (hsound t rfl) hq hparameters
      rw [foldlM_singleton]
      simp only [readSort, hdirection, hno, hne, hnone, hread, false_and, if_false]
      rfl

theorem read_direction {direction : Direction} (hdirection : r.direction = none)
    (h : qualifiers.map (fun q => (q.name, q.parameters)) =
      if direction = .desc then [("desc", [])] else []) :
    qualifiers.foldlM readSort r =
      .ok { r with direction := if direction = .desc then some .desc else none } := by
  cases direction with
  | asc =>
      obtain rfl : qualifiers = [] := List.map_eq_nil_iff.1 h
      rw [if_neg (by decide), ← hdirection]
      rfl
  | desc =>
      obtain ⟨q, rfl, hq, hparameters⟩ := eq_singleton_of_map h
      have hread : q.direction? = some .desc := by
        rw [direction?, isPlain, hparameters, hq]
        rfl
      rw [foldlM_singleton]
      simp only [readSort, hdirection, hread]
      rfl

/-- The qualifiers of a sort property mean what it is sorted by. -/
theorem ofSort_words {p : PropertySort} (hsound : ∀ t ∈ p.transform, t.Sound)
    (h : qualifiers.map (fun q => (q.name, q.parameters)) = p.words) :
    ofSort qualifiers =
      .ok ⟨if p.direction = .desc then some .desc else none, p.transform, p.byId⟩ := by
  rw [PropertySort.words, List.map_eq_append_iff] at h
  obtain ⟨front, directions, rfl, hfront, hdirections⟩ := h
  obtain ⟨ids, transforms, rfl, hids, htransforms⟩ := List.map_eq_append_iff.1 hfront
  rw [ofSort, List.foldlM_append, List.foldlM_append, read_byId rfl rfl hids, ok_bind,
    read_sortTransform rfl rfl hsound htransforms, ok_bind, read_direction rfl hdirections]

/-- A transform that was read with a sort property can be read again. -/
theorem sound_of_ofSort (h : ofSort qualifiers = .ok r) : ∀ t ∈ r.transform, t.Sound := by
  refine foldlM_invariant (P := fun r : SortReading => ∀ t ∈ r.transform, t.Sound) h (by simp) ?_
  intro r q r' _ hr hread
  cases hdirection : r.direction with
  | some direction =>
      simp only [readSort, hdirection, Option.isSome_some, if_true] at hread
      split at hread <;> cases hread
  | none =>
      simp only [readSort, hdirection, Option.isSome_none, Bool.false_eq_true, if_false] at hread
      split at hread
      · cases hread
        exact hr
      · split at hread
        · cases hread
          exact hr
        · split at hread
          · obtain ⟨t, ht, heq⟩ := bind_eq_ok_iff.1 hread
            cases heq
            intro t' ht'
            obtain rfl : t = t' := by simpa using ht'
            exact sound_of_transform ht
          · cases hread

end Qualifier

/-! ## Conditions by their names -/

namespace Condition

/-- The name of the parameter of a condition can be read. -/
structure Readable (c : Condition) : Prop where
  path : Text.IsDotted c.path.text
  transform : ∀ t ∈ c.options.transform, t.Sound

/-- The name of a condition is read as its group, its path, its qualifiers and its negation. -/
theorem Readable.parse {c : Condition} (h : c.Readable) {root : String} {groups : List String}
    (hkey : GroupKey.Readable root groups) :
    ∃ text : ConditionText,
      FilterParameter.parse (FilterParameter.opening root groups '$' ++ c.suffix) =
        .ok (.condition ⟨root :: groups⟩ text) ∧
      text.paths.map PathText.path = [c.path.text] ∧ text.negated = c.options.negated ∧
      Qualifier.ofCondition text.qualifiers =
        .ok ⟨{ c.options with negated := false }, c.namedTest?⟩ := by
  obtain ⟨text, hparse, hpaths, hwords, hnegated⟩ := FilterParameter.parse_condition hkey h.path
    (readable_of_mem_words h.transform) c.options.negated
  rw [← c.suffix_eq] at hparse
  exact ⟨text, hparse, hpaths, hnegated, Qualifier.ofCondition_words h.transform hwords⟩

theorem test_eq_of_namedTest?_eq {c d : Condition} (h : c.namedTest? = d.namedTest?) :
    c.test = d.test := by
  unfold namedTest? at h
  split at h <;> split at h <;> simp_all

/-- Conditions of the same name differ in nothing but their operands. -/
theorem Readable.eq_of_suffix_eq {c d : Condition} (hc : c.Readable) (hd : d.Readable)
    (h : c.suffix = d.suffix) :
    c.path.text = d.path.text ∧ c.options = d.options ∧ c.test = d.test := by
  have hkey : GroupKey.Readable "f" [] := ⟨by decide, by simp⟩
  obtain ⟨text, hparse, hpaths, hnegated, hmeaning⟩ := hc.parse hkey
  obtain ⟨text', hparse', hpaths', hnegated', hmeaning'⟩ := hd.parse hkey
  rw [h, hparse'] at hparse
  cases hparse
  rw [hpaths'] at hpaths
  rw [hmeaning'] at hmeaning
  simp only [Except.ok.injEq, Qualifier.ConditionReading.mk.injEq, ConditionOptions.mk.injEq]
    at hmeaning
  obtain ⟨⟨htransform, hkind, -⟩, htest⟩ := hmeaning
  refine ⟨?_, ?_, test_eq_of_namedTest?_eq htest.symm⟩
  · simpa using hpaths.symm
  · cases hoptions : c.options
    cases hoptions' : d.options
    simp_all

end Condition

end ResourceQuery
