import ResourceQuery.Proofs.Compile.Qualifiers
import ResourceQuery.Proofs.Filter.Clauses
/-!
# Truth of filters by atomic tests

A condition asks whether some operand fits, or whether the property is present. A filter that is
written and read again is the tree `FilterTree.reread`: conditions of one name in one group become
one condition with all operands, an equality without operands that are not empty becomes a test of
presence, and a conjunction without anything in it is gone. `FilterTree.Faithful` excludes what
changes the truth.
-/

namespace ResourceQuery

/-- A question about a record that has nothing in it. The operand is missing in tests of presence. -/
structure AtomicTest where
  path : String
  transform : Option Transform
  operandKind : OperandKind
  test : Test
  operand : Option Value

namespace Condition

def atom (c : Condition) (operand : Option Value) : AtomicTest :=
  ⟨c.path.text, c.options.transform, c.options.operandKind, c.test, operand⟩

/-- The property is present or absent as asked, or some operand fits. -/
def passes (v : AtomicTest → Bool) (c : Condition) : Bool :=
  if c.test.isPresence then v (c.atom none) else c.operands.any fun operand => v (c.atom operand)

/-- The truth of a condition, given that of atomic tests. -/
def truth (v : AtomicTest → Bool) (c : Condition) : Bool := c.options.negated != c.passes v

/-- The conditions that are written with the same name. -/
def namesakes (c : Condition) (siblings : List Condition) : List Condition :=
  siblings.filter fun d => d.suffix = c.suffix

/-- What is read where a condition was written among others of its group. -/
def reread (c : Condition) (siblings : List Condition) : Condition :=
  let operands := (c.namesakes siblings).flatMap Condition.operands
  if c.test = .equality true then
    let given := operands.filter fun operand => operand.toText? ≠ some ""
    if given.isEmpty then { c with test := .presence true, operands := [] }
    else { c with operands := given }
  else { c with operands := operands }

end Condition

namespace FilterTree

def condition? : FilterTree → Option Condition
  | condition c => some c
  | group .. => none

mutual

/-- Nothing is written for the tree: it is a conjunction of nothing but such trees. -/
def isSilent : FilterTree → Bool
  | condition _ => false
  | group junction items => junction == .conjunction && areSilent items

def areSilent : List FilterTree → Bool
  | [] => true
  | item :: rest => item.isSilent && areSilent rest

end

mutual

/-- The tree that is read where a tree was written. -/
def reread : FilterTree → FilterTree
  | condition c => condition (c.reread [c])
  | group junction items => group junction (rereadOf (items.filterMap condition?) items)

/-- What is read of items, some of which are the conditions given. -/
def rereadOf (siblings : List Condition) : List FilterTree → List FilterTree
  | [] => []
  | condition c :: rest => condition (c.reread siblings) :: rereadOf siblings rest
  | group junction items :: rest =>
    if (group junction items).isSilent then rereadOf siblings rest
    else reread (group junction items) :: rereadOf siblings rest

end

mutual

/-- All groups of a tree. -/
def groups : FilterTree → List (Junction × List FilterTree)
  | condition _ => []
  | group junction items => (junction, items) :: groupsOf items

def groupsOf : List FilterTree → List (Junction × List FilterTree)
  | [] => []
  | item :: rest => item.groups ++ groupsOf rest

end

/-- What is read of the items of a group means what they mean. -/
structure Keeps (junction : Junction) (items : List FilterTree) : Prop where
  /-- No value is tested to be an empty text. -/
  blank : ∀ c, condition c ∈ items → c.test = .equality true →
    ∀ operand ∈ c.operands, operand.toText? ≠ some ""
  /-- Conditions of one name have the same operands, or the group says of them what one condition
  with all operands says. -/
  shared : ∀ c d, condition c ∈ items → condition d ∈ items → d.suffix = c.suffix →
    c.options.negated = decide (junction = .conjunction) ∨
      ∀ operand, operand ∈ d.operands ↔ operand ∈ c.operands
  silent : ∀ item ∈ items, item.isSilent → junction = .conjunction

/-- All groups keep their meaning. -/
def Faithful (t : FilterTree) : Prop := ∀ g ∈ t.groups, Keeps g.1 g.2

/-! ## Induction -/

theorem induct {P : FilterTree → Prop} (condition : ∀ c, P (.condition c))
    (group : ∀ junction items, (∀ item ∈ items, P item) → P (.group junction items))
    (t : FilterTree) : P t := by
  refine @FilterTree.rec P (fun items => ∀ item ∈ items, P item) condition group ?_ ?_ t
  · simp
  · intro item rest hitem hrest other hother
    rcases List.mem_cons.1 hother with rfl | hother
    · exact hitem
    · exact hrest other hother

theorem areSilent_iff (items : List FilterTree) :
    areSilent items = true ↔ ∀ item ∈ items, item.isSilent = true := by
  induction items with
  | nil => simp [areSilent]
  | cons item rest ih => simp [areSilent, ih]

theorem isSilent_group {junction : Junction} {items : List FilterTree} :
    (group junction items).isSilent = true ↔
      junction = .conjunction ∧ ∀ item ∈ items, item.isSilent = true := by
  rw [isSilent, Bool.and_eq_true, beq_iff_eq, areSilent_iff]

theorem mem_groupsOf {items : List FilterTree} {g : Junction × List FilterTree} :
    g ∈ groupsOf items ↔ ∃ item ∈ items, g ∈ item.groups := by
  induction items with
  | nil => simp [groupsOf]
  | cons item rest ih => simp [groupsOf, ih]

theorem mem_conditionsOf {items : List FilterTree} {c : Condition} :
    c ∈ conditionsOf items ↔ ∃ item ∈ items, c ∈ item.conditions := by
  induction items with
  | nil => simp [conditionsOf]
  | cons item rest ih => simp [conditionsOf, ih]

theorem mem_filterMap_condition? {items : List FilterTree} {c : Condition} :
    c ∈ items.filterMap condition? ↔ condition c ∈ items := by
  rw [List.mem_filterMap]
  constructor
  · rintro ⟨item, hitem, hc⟩
    cases item with
    | condition d =>
        obtain rfl : d = c := by simpa [condition?] using hc
        exact hitem
    | group junction items => cases hc
  · intro hc
    exact ⟨_, hc, rfl⟩

theorem mem_rereadOf {siblings : List Condition} {items : List FilterTree} {t : FilterTree} :
    t ∈ rereadOf siblings items ↔
      (∃ c, condition c ∈ items ∧ t = condition (c.reread siblings)) ∨
      ∃ junction inner, group junction inner ∈ items ∧
        (group junction inner).isSilent = false ∧ t = (group junction inner).reread := by
  induction items with
  | nil => simp [rereadOf]
  | cons item rest ih =>
      cases item with
      | condition c =>
          rw [rereadOf, List.mem_cons, ih]
          grind
      | group junction inner =>
          rw [rereadOf]
          split
          · rw [ih]
            grind
          · rw [List.mem_cons, ih]
            grind

/-- A tree that nothing is written for is true. -/
theorem holds_of_isSilent (v : Condition → Bool) {t : FilterTree} (h : t.isSilent = true) :
    t.holds v = true := by
  induction t using induct with
  | condition c => cases h
  | group junction items ih =>
      obtain ⟨rfl, hitems⟩ := isSilent_group.1 h
      rw [holds_group]
      simp only [Junction.holds, List.all_map, List.all_eq_true, Function.comp_apply, id]
      exact fun item hitem => ih item hitem (hitems item hitem)

/-- A truth value among the items that are read. -/
theorem mem_map_holds_rereadOf {v : Condition → Bool} {items : List FilterTree} {b : Bool} :
    b ∈ (rereadOf (items.filterMap condition?) items).map (holds v) ↔
      (∃ c, condition c ∈ items ∧ v (c.reread (items.filterMap condition?)) = b) ∨
      ∃ junction inner, group junction inner ∈ items ∧
        (group junction inner).isSilent = false ∧ (group junction inner).reread.holds v = b := by
  simp only [List.mem_map, mem_rereadOf]
  constructor
  · rintro ⟨t, ⟨c, hc, rfl⟩ | ⟨junction, inner, hinner, hsilent, rfl⟩, rfl⟩
    · exact .inl ⟨c, hc, rfl⟩
    · exact .inr ⟨junction, inner, hinner, hsilent, rfl⟩
  · rintro (⟨c, hc, rfl⟩ | ⟨junction, inner, hinner, hsilent, rfl⟩)
    · exact ⟨_, .inl ⟨c, hc, rfl⟩, rfl⟩
    · exact ⟨_, .inr ⟨junction, inner, hinner, hsilent, rfl⟩, rfl⟩

end FilterTree

/-! ## Conditions read among others -/

theorem isEmpty_congr {α : Type} {xs ys : List α} (h : ∀ x, x ∈ xs ↔ x ∈ ys) :
    xs.isEmpty = ys.isEmpty := by
  rw [Bool.eq_iff_iff, List.isEmpty_iff, List.isEmpty_iff, List.eq_nil_iff_forall_not_mem,
    List.eq_nil_iff_forall_not_mem]
  simp only [h]

namespace Condition

variable {v : AtomicTest → Bool} {c d : Condition} {siblings : List Condition}

/-- The condition has operands if its test takes some. -/
structure Sound (c : Condition) : Prop extends c.Readable where
  operands : c.test.isPresence = false → c.operands ≠ []
  noOperands : c.test.isPresence = true → c.operands = []

theorem passes_congr (hpath : c.path.text = d.path.text) (hoptions : c.options = d.options)
    (htest : c.test = d.test) (hoperands : ∀ operand, operand ∈ c.operands ↔ operand ∈ d.operands) :
    c.passes v = d.passes v := by
  have hatom : ∀ operand, c.atom operand = d.atom operand := by
    intro operand
    rw [atom, atom, hpath, hoptions, htest]
  rw [Bool.eq_iff_iff]
  simp only [passes, htest, hatom]
  split
  · rfl
  · simp only [List.any_eq_true, hoperands]

/-- Only what a condition asks matters. -/
theorem truth_congr (hpath : c.path.text = d.path.text) (hoptions : c.options = d.options)
    (htest : c.test = d.test) (hoperands : ∀ operand, operand ∈ c.operands ↔ operand ∈ d.operands) :
    c.truth v = d.truth v := by
  rw [truth, truth, hoptions, passes_congr hpath hoptions htest hoperands]

theorem mem_namesakes : d ∈ c.namesakes siblings ↔ d ∈ siblings ∧ d.suffix = c.suffix := by
  simp [namesakes]

/-- Without empty texts in equalities, all operands of all namesakes are kept. -/
theorem reread_eq (hc : c.Sound) (hmem : c ∈ siblings)
    (hblank : c.test = .equality true → ∀ d ∈ c.namesakes siblings, ∀ operand ∈ d.operands,
      operand.toText? ≠ some "") :
    c.reread siblings =
      { c with operands := (c.namesakes siblings).flatMap Condition.operands } := by
  unfold reread
  by_cases htest : c.test = .equality true
  · have hgiven : ((c.namesakes siblings).flatMap Condition.operands).filter
        (fun operand => operand.toText? ≠ some "") =
        (c.namesakes siblings).flatMap Condition.operands := by
      rw [List.filter_eq_self]
      intro operand hoperand
      obtain ⟨d, hd, hoperand⟩ := List.mem_flatMap.1 hoperand
      simpa using hblank htest d hd operand hoperand
    have hne : ((c.namesakes siblings).flatMap Condition.operands).isEmpty = false := by
      have hown : c.operands ≠ [] := hc.operands (by rw [htest]; rfl)
      obtain ⟨operand, hoperand⟩ := List.exists_mem_of_ne_nil _ hown
      rw [List.isEmpty_eq_false_iff]
      exact List.ne_nil_of_mem
        (List.mem_flatMap.2 ⟨c, mem_namesakes.2 ⟨hmem, rfl⟩, hoperand⟩)
    simp only [htest, if_true, hgiven, hne, Bool.false_eq_true, if_false]
  · simp only [if_neg htest]

/-- One of the namesakes passes. -/
theorem passes_reread (hsound : ∀ d ∈ siblings, d.Sound) (hmem : c ∈ siblings)
    (hblank : c.test = .equality true → ∀ d ∈ c.namesakes siblings, ∀ operand ∈ d.operands,
      operand.toText? ≠ some "") :
    (c.reread siblings).passes v = true ↔ ∃ d ∈ c.namesakes siblings, d.passes v = true := by
  have hatom : ∀ d ∈ c.namesakes siblings,
      d.test = c.test ∧ ∀ operand, d.atom operand = c.atom operand := by
    intro d hd
    obtain ⟨hd, hsuffix⟩ := mem_namesakes.1 hd
    obtain ⟨hpath, hoptions, htest⟩ :=
      (hsound d hd).toReadable.eq_of_suffix_eq (hsound c hmem).toReadable hsuffix
    refine ⟨htest, ?_⟩
    intro operand
    rw [atom, atom, hpath, hoptions, htest]
  rw [reread_eq (hsound c hmem) hmem hblank]
  cases hpresence : c.test.isPresence with
  | true =>
      have hpasses : ∀ d ∈ c.namesakes siblings, d.passes v = v (c.atom none) := by
        intro d hd
        obtain ⟨htest, hatoms⟩ := hatom d hd
        rw [passes, htest, hpresence, hatoms]
        rfl
      have hown : passes v { c with
          operands := (c.namesakes siblings).flatMap Condition.operands } = v (c.atom none) := by
        simp only [passes, hpresence, if_true]
        rfl
      rw [hown]
      constructor
      · intro h
        have hself : c ∈ c.namesakes siblings := mem_namesakes.2 ⟨hmem, rfl⟩
        exact ⟨c, hself, by rw [hpasses c hself, h]⟩
      · rintro ⟨d, hd, h⟩
        rw [← hpasses d hd, h]
  | false =>
      have hpasses : ∀ d ∈ c.namesakes siblings,
          d.passes v = d.operands.any fun operand => v (c.atom operand) := by
        intro d hd
        obtain ⟨htest, hatoms⟩ := hatom d hd
        simp only [passes, htest, hpresence, hatoms]
        rfl
      have hown : passes v { c with
          operands := (c.namesakes siblings).flatMap Condition.operands } =
          ((c.namesakes siblings).flatMap Condition.operands).any fun operand =>
            v (c.atom operand) := by
        simp only [passes, hpresence]
        rfl
      rw [hown, List.any_flatMap, List.any_eq_true]
      constructor
      · rintro ⟨d, hd, h⟩
        exact ⟨d, hd, by rw [hpasses d hd, h]⟩
      · rintro ⟨d, hd, h⟩
        exact ⟨d, hd, by rw [← hpasses d hd, h]⟩

/-- Only which conditions stand in the group matters, not their order. -/
theorem truth_reread_congr {others : List Condition} (h : ∀ d, d ∈ siblings ↔ d ∈ others) :
    (c.reread siblings).truth v = (c.reread others).truth v := by
  have hoperands : ∀ operand,
      operand ∈ (c.namesakes siblings).flatMap Condition.operands ↔
        operand ∈ (c.namesakes others).flatMap Condition.operands := by
    intro operand
    simp only [List.mem_flatMap, mem_namesakes, h]
  unfold reread
  simp only
  split
  · have hgiven : ∀ operand,
        operand ∈ ((c.namesakes siblings).flatMap Condition.operands).filter
            (fun operand => operand.toText? ≠ some "") ↔
          operand ∈ ((c.namesakes others).flatMap Condition.operands).filter
            (fun operand => operand.toText? ≠ some "") := by
      intro operand
      simp only [List.mem_filter, hoperands]
    have hempty : (((c.namesakes siblings).flatMap Condition.operands).filter
            (fun operand => operand.toText? ≠ some "")).isEmpty =
          (((c.namesakes others).flatMap Condition.operands).filter
            (fun operand => operand.toText? ≠ some "")).isEmpty := isEmpty_congr hgiven
    rw [hempty]
    split
    · rfl
    · exact truth_congr rfl rfl rfl hgiven
  · exact truth_congr rfl rfl rfl hoperands

theorem reread_options (c : Condition) (siblings : List Condition) :
    (c.reread siblings).options = c.options := by
  unfold reread
  simp only
  split
  · split <;> rfl
  · rfl

theorem reread_path (c : Condition) (siblings : List Condition) :
    (c.reread siblings).path = c.path := by
  unfold reread
  simp only
  split
  · split <;> rfl
  · rfl

theorem mem_operands_of_reread {operand : Value} (h : operand ∈ (c.reread siblings).operands) :
    ∃ d ∈ c.namesakes siblings, operand ∈ d.operands := by
  have hkept : operand ∈ (c.namesakes siblings).flatMap Condition.operands := by
    unfold reread at h
    simp only at h
    split at h
    · split at h
      · cases h
      · exact List.mem_of_mem_filter h
    · exact h
  exact List.mem_flatMap.1 hkept

/-- In a group that says of namesakes what one condition says of all operands, the one condition
means them all. -/
theorem truth_reread_eq_holds {junction : Junction} (hsound : ∀ d ∈ siblings, d.Sound)
    (hmem : c ∈ siblings)
    (hblank : c.test = .equality true → ∀ d ∈ c.namesakes siblings, ∀ operand ∈ d.operands,
      operand.toText? ≠ some "")
    (hnegated : c.options.negated = decide (junction = .conjunction)) :
    (c.reread siblings).truth v = junction.holds ((c.namesakes siblings).map (truth v)) := by
  have hdecides : ∀ d : Condition, d.options.negated = decide (junction = .conjunction) →
      (d.truth v = junction.decisive ↔ d.passes v = true) := by
    intro d hd
    cases junction <;> simp [truth, hd, Junction.decisive]
  have hown : ∀ d ∈ c.namesakes siblings, d.options.negated = decide (junction = .conjunction) := by
    intro d hd
    obtain ⟨hd, hsuffix⟩ := mem_namesakes.1 hd
    rw [((hsound d hd).toReadable.eq_of_suffix_eq (hsound c hmem).toReadable hsuffix).2.1, hnegated]
  apply bool_eq_of_iff junction.decisive
  rw [Junction.holds_eq_decisive_iff, hdecides _ (by rw [reread_options, hnegated]),
    passes_reread hsound hmem hblank, List.mem_map]
  exact exists_congr fun d => and_congr_right fun hd => (hdecides d (hown d hd)).symm

/-- Namesakes with the same operands are one condition. -/
theorem truth_reread_eq_truth (hsound : ∀ d ∈ siblings, d.Sound) (hmem : c ∈ siblings)
    (hblank : c.test = .equality true → ∀ d ∈ c.namesakes siblings, ∀ operand ∈ d.operands,
      operand.toText? ≠ some "")
    (hsame : ∀ d ∈ c.namesakes siblings, ∀ operand, operand ∈ d.operands ↔ operand ∈ c.operands) :
    (c.reread siblings).truth v = c.truth v := by
  have hpasses := passes_reread (v := v) hsound hmem hblank
  have hself : c ∈ c.namesakes siblings := mem_namesakes.2 ⟨hmem, rfl⟩
  have hown : ∀ d ∈ c.namesakes siblings, d.passes v = c.passes v := by
    intro d hd
    obtain ⟨hmem', hsuffix⟩ := mem_namesakes.1 hd
    obtain ⟨hpath, hoptions, htest⟩ :=
      (hsound d hmem').toReadable.eq_of_suffix_eq (hsound c hmem).toReadable hsuffix
    exact passes_congr hpath hoptions htest (hsame d hd)
  have heq : (c.reread siblings).passes v = c.passes v := by
    rw [Bool.eq_iff_iff, hpasses]
    constructor
    · rintro ⟨d, hd, hpass⟩
      rw [← hown d hd, hpass]
    · intro hpass
      exact ⟨c, hself, hpass⟩
  rw [truth, truth, reread_options, heq]

end Condition

/-! ## Faithful trees -/

namespace FilterTree

theorem Faithful.inner {junction : Junction} {items : List FilterTree} {item : FilterTree}
    (h : (group junction items).Faithful) (hitem : item ∈ items) : item.Faithful := by
  intro g hg
  apply h
  rw [groups, List.mem_cons, mem_groupsOf]
  exact .inr ⟨item, hitem, hg⟩

theorem sound_of_mem_conditions {junction : Junction} {items : List FilterTree}
    (h : ∀ c ∈ (group junction items).conditions, c.Sound) {item : FilterTree} (hitem : item ∈ items) :
    ∀ c ∈ item.conditions, c.Sound := by
  intro c hc
  apply h
  rw [conditions, mem_conditionsOf]
  exact ⟨item, hitem, hc⟩

/-- A condition of a group that keeps its meaning is read as all its namesakes, or as itself. -/
theorem Keeps.truth_reread {junction : Junction} {items : List FilterTree}
    (h : Keeps junction items) (hsound : ∀ c, condition c ∈ items → c.Sound) {c : Condition}
    (hc : condition c ∈ items) (v : AtomicTest → Bool) :
    (c.reread (items.filterMap condition?)).truth v =
        junction.holds ((c.namesakes (items.filterMap condition?)).map (Condition.truth v)) ∨
      (c.reread (items.filterMap condition?)).truth v = c.truth v := by
  have hmem := mem_filterMap_condition?.2 hc
  have hsiblings : ∀ d ∈ items.filterMap condition?, d.Sound :=
    fun d hd => hsound d (mem_filterMap_condition?.1 hd)
  have hnamesake : ∀ d ∈ c.namesakes (items.filterMap condition?),
      condition d ∈ items ∧ d.suffix = c.suffix := fun d hd =>
    (Condition.mem_namesakes.1 hd).imp mem_filterMap_condition?.1 id
  have hblank : c.test = .equality true → ∀ d ∈ c.namesakes (items.filterMap condition?),
      ∀ operand ∈ d.operands, operand.toText? ≠ some "" := by
    intro htest d hd
    obtain ⟨hd, hsuffix⟩ := hnamesake d hd
    apply h.blank d hd
    rw [← htest]
    exact ((hsound d hd).toReadable.eq_of_suffix_eq (hsound c hc).toReadable hsuffix).2.2
  by_cases hnegated : c.options.negated = decide (junction = .conjunction)
  · exact .inl (Condition.truth_reread_eq_holds hsiblings hmem hblank hnegated)
  · right
    apply Condition.truth_reread_eq_truth hsiblings hmem hblank
    intro d hd
    obtain ⟨hd, hsuffix⟩ := hnamesake d hd
    exact (h.shared c d hc hd hsuffix).resolve_left hnegated

/-- A group that is faithful is read as a group of the same truth. -/
theorem Faithful.holds_reread {t : FilterTree} (hgroup : t.condition? = none) (h : t.Faithful)
    (hsound : ∀ c ∈ t.conditions, c.Sound) (v : AtomicTest → Bool) :
    t.reread.holds (Condition.truth v) = t.holds (Condition.truth v) := by
  induction t using induct with
  | condition c => cases hgroup
  | group junction items ih =>
      have hkeeps : Keeps junction items := h (junction, items) (by simp [groups])
      have hmember : ∀ item ∈ items, ∀ c ∈ item.conditions, c.Sound := fun _ hitem =>
        sound_of_mem_conditions hsound hitem
      have hinner : ∀ j inner, group j inner ∈ items →
          (group j inner).reread.holds (Condition.truth v) =
            (group j inner).holds (Condition.truth v) := fun j inner hmem =>
        ih _ hmem rfl (h.inner hmem) (hmember _ hmem)
      have hcondition := fun c hc => hkeeps.truth_reread
        (fun d hd => hmember _ hd d (by simp [conditions])) (c := c) hc v
      -- a silent group does not decide the junction
      have hloud : ∀ item ∈ items, item.holds (Condition.truth v) = junction.decisive →
          item.isSilent = false := by
        intro item hitem hholds
        rw [← Bool.not_eq_true]
        intro hsilent
        rw [holds_of_isSilent _ hsilent, hkeeps.silent item hitem hsilent] at hholds
        cases hholds
      rw [reread, holds_group, holds_group]
      apply Junction.holds_congr
      rw [mem_map_holds_rereadOf, List.mem_map]
      constructor
      · rintro (⟨c, hc, hholds⟩ | ⟨j, inner, hmem, -, hholds⟩)
        · rcases hcondition c hc with heq | heq
          · rw [heq, Junction.holds_eq_decisive_iff] at hholds
            obtain ⟨d, hd, hholds⟩ := List.mem_map.1 hholds
            have hd := mem_filterMap_condition?.1 (Condition.mem_namesakes.1 hd).1
            exact ⟨_, hd, by rw [holds, hholds]⟩
          · exact ⟨_, hc, by rw [holds, ← heq, hholds]⟩
        · exact ⟨_, hmem, by rw [← hinner j inner hmem, hholds]⟩
      · rintro ⟨item, hmem, hholds⟩
        cases item with
        | condition c =>
            refine .inl ⟨c, hmem, ?_⟩
            rw [holds] at hholds
            rcases hcondition c hmem with heq | heq
            · rw [heq, Junction.holds_eq_decisive_iff, ← hholds]
              exact List.mem_map_of_mem
                (Condition.mem_namesakes.2 ⟨mem_filterMap_condition?.2 hmem, rfl⟩)
            · rw [heq, hholds]
        | group j inner =>
            exact .inr ⟨j, inner, hmem, hloud _ hmem hholds, by rw [hinner j inner hmem, hholds]⟩

end FilterTree

end ResourceQuery
