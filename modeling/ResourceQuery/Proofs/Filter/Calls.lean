import ResourceQuery.Proofs.Filter.Meaning
import ResourceQuery.Proofs.Filter.Walk
import ResourceQuery.Proofs.NameMap
import ResourceQuery.Proofs.Path.Steps
import ResourceQuery.Proofs.Schema.WellFormed
/-!
# Filters that calls put together

A filter starts with its outermost group, and calls open groups, change junctions and add conditions
anywhere. `Arranged` couples what groups and the filter know of used paths and joined types with
the conditions that are there; every call keeps it, also one that fails (`Arranged.after`).
-/

namespace ResourceQuery

/-- A call that changes a filter. -/
inductive FilterCall
  | basePath (path : String)
  | group (parent : Nat) (junction : Junction)
  | junction (number : Nat) (junction : Junction)
  | condition (number : Nat) (path : String) (options : ConditionOptions) (test : Test)
      (operands : List String)

namespace FilterCall

def setsBasePath : FilterCall → Bool
  | basePath _ => true
  | _ => false

theorem eq_basePath_of_sets {call : FilterCall} (h : call.setsBasePath = true) :
    ∃ path, call = basePath path := by
  cases call with
  | basePath path => exact ⟨path, rfl⟩
  | group => cases h
  | junction => cases h
  | condition => cases h

def apply (s : Schema) (f : Filter) : FilterCall → Except Fault Filter
  | basePath path => f.withBasePath s path
  | group parent j => (f.openGroup parent j).map Prod.snd
  | junction number j => f.setJunction number j
  | condition number path options test operands =>
    f.addCondition s number path options test operands

end FilterCall

namespace Path

/-- The path goes on behind a reference to the target. -/
def Crosses (p : Path) (target : String) : Prop :=
  ∃ n container q, n + 1 < p.steps.length ∧ p.steps[n]? = some (.property container q) ∧
    q.isReference ∧ q.target? = some target

/-- The last step of the path is a reference to the target. -/
def EndsAt (p : Path) (target : String) : Prop :=
  ∃ container q, p.steps.getLast? = some (.property container q) ∧ q.isReference ∧
    q.target? = some target

theorem mem_participatingTypes {p : Path} {target : String} :
    target ∈ p.participatingTypes ↔ p.Crosses target := by
  have hstep : ∀ step, step ∈ p.steps.dropLast ↔
      ∃ n, n + 1 < p.steps.length ∧ p.steps[n]? = some step := by
    intro step
    rw [List.mem_iff_getElem?]
    refine exists_congr fun n => ?_
    rw [List.getElem?_dropLast]
    split
    · exact ⟨fun h => ⟨by omega, h⟩, And.right⟩
    · exact ⟨fun h => (Option.some_ne_none _ h.symm).elim, fun h => by omega⟩
  simp only [participatingTypes, List.mem_filterMap, List.mem_filter]
  constructor
  · rintro ⟨q, ⟨⟨step, hmem, hq⟩, href⟩, htarget⟩
    obtain ⟨n, hn, hget⟩ := (hstep step).1 hmem
    cases step with
    | variant _ => cases hq
    | property container p =>
        cases hq
        exact ⟨n, container, q, hn, hget, href, htarget⟩
  · rintro ⟨n, container, q, hn, hget, href, htarget⟩
    exact ⟨q, ⟨⟨_, (hstep _).2 ⟨n, hn, hget⟩, rfl⟩, href⟩, htarget⟩

end Path

namespace Filter

/-- The filter behind a call. One that fails leaves it as it is. -/
def after (s : Schema) (f : Filter) (call : FilterCall) : Filter :=
  match call.apply s f with
  | .ok f' => f'
  | .error _ => f

/-! ## Used paths -/

/-- The path is noted in the group and in those around it. -/
theorem getElem?_noteUsed {path : String} {steps number n : Nat} {groups : List FilterGroup}
    {g : FilterGroup} (h : Nested groups) (hsteps : number < steps) (hg : groups[n]? = some g) :
    ∃ used, (noteUsed path steps number groups)[n]? = some { g with used := used } ∧
      (NameSet.Sorted g.used → NameSet.Sorted used) ∧
      ∀ p, p ∈ used ↔ (p = path ∧ Within groups number n) ∨ p ∈ g.used := by
  induction steps generalizing number groups g with
  | zero => omega
  | succ steps ih =>
      let change : FilterGroup → FilterGroup :=
        fun g => { g with used := NameSet.insert path g.used }
      have hlinks : (groups.modify number change).map links = groups.map links :=
        map_modify_eq (fun g => (rfl : links (change g) = links g)) groups number
      -- the group itself
      have hnoted : ∃ used, (groups.modify number change)[n]? = some { g with used := used } ∧
          (NameSet.Sorted g.used → NameSet.Sorted used) ∧
          ∀ p, p ∈ used ↔ (p = path ∧ number = n) ∨ p ∈ g.used := by
        by_cases heq : number = n
        · refine ⟨NameSet.insert path g.used, ?_, NameSet.sorted_insert path, ?_⟩
          · rw [heq, List.getElem?_modify_eq, hg]
            rfl
          · intro p
            rw [NameSet.mem_insert, and_iff_left heq]
        · refine ⟨g.used, by rw [List.getElem?_modify_ne _ _ heq, hg], id, ?_⟩
          intro p
          rw [or_iff_right fun h => heq h.2]
      obtain ⟨used, hget, hsorted, hmem⟩ := hnoted
      unfold noteUsed
      simp only
      -- the groups around it
      split
      · rename_i parent haround
        have hlt : parent < number := h.lt_of_around? haround
        have hparent : parent < steps := by omega
        obtain ⟨used', hget', hsorted', hmem'⟩ := ih (h.congr hlinks) hparent hget
        refine ⟨used', hget', fun hg => hsorted' (hsorted hg), ?_⟩
        intro p
        have hwithin : Within groups number n ↔ number = n ∨ Within groups parent n := by
          rw [within_iff_around?]
          unfold around?
          simp [haround]
        rw [hmem', within_congr hlinks, hmem, hwithin, and_or_left, or_left_comm, or_assoc]
      · rename_i haround
        refine ⟨used, hget, hsorted, ?_⟩
        intro p
        have hwithin : Within groups number n ↔ number = n := by
          rw [within_iff_around?]
          unfold around?
          simp [haround]
        rw [hmem, hwithin]

/-! ## What calls keep -/

theorem lt_of_checkGroup {f : Filter} {number : Nat} (h : f.checkGroup number = .ok ()) :
    number < f.groups.length := by
  unfold checkGroup at h
  split at h
  · assumption
  · cases h

/-- Groups know the paths of the conditions in them, and the filter knows the types that are joined
in by its conditions and its base path. -/
structure Arranged (f : Filter) : Prop where
  nested : Nested f.groups
  used : ∀ number g, f.groups[number]? = some g → NameSet.Sorted g.used ∧
    ∀ p, p ∈ g.used ↔ ∃ c, Contains f.groups number c ∧ c.path.text = p
  sorted : NameSet.Sorted f.participatingTypes
  joined : ∀ target, target ∈ f.participatingTypes ↔
    (∃ c, Contains f.groups root c ∧ c.path.Crosses target) ∨
      ∃ base, f.basePath = some base ∧ (base.Crosses target ∨ base.EndsAt target)

namespace Arranged

variable {s : Schema} {f f' : Filter}

theorem all {resourceType : String} (h : Filter.all s resourceType = .ok f) : f.Arranged := by
  obtain ⟨c, -, h⟩ := bind_eq_ok_iff.1 h
  cases h
  have hnumber : ∀ {number g},
      ([⟨.conjunction, none, [], []⟩] : List FilterGroup)[number]? = some g →
        number = root ∧ g = ⟨.conjunction, none, [], []⟩ := by
    intro number g hg
    cases number with
    | zero => exact ⟨rfl, by simpa using hg.symm⟩
    | succ number => simp at hg
  have hnone : ∀ number c, ¬Contains [⟨.conjunction, none, [], []⟩] number c := by
    rintro number c ⟨n, g, -, hg, hc⟩
    rw [(hnumber hg).2] at hc
    cases hc
  refine ⟨⟨⟨_, rfl, rfl⟩, ?_, ?_⟩, ?_, List.Pairwise.nil, ?_⟩
  · intro number g hg hne
    exact absurd (hnumber hg).1 hne
  · intro number g hg
    obtain ⟨rfl, rfl⟩ := hnumber hg
    rfl
  · intro number g hg
    obtain ⟨rfl, rfl⟩ := hnumber hg
    refine ⟨List.Pairwise.nil, ?_⟩
    simp [hnone]
  · simp [hnone]

/-- The places of groups and conditions matter, and not the junctions. -/
theorem setJunction {number : Nat} {junction : Junction} (h : f.Arranged)
    (hcall : f.setJunction number junction = .ok f') : f'.Arranged := by
  obtain ⟨_, -, hcall⟩ := bind_eq_ok_iff.1 hcall
  let others := f.groups.modify number fun g => { g with junction := junction }
  obtain rfl : { f with groups := others } = f' := Except.ok.inj hcall
  have hsame : ∀ {α : Type} (part : FilterGroup → α),
      (∀ g, part { g with junction := junction } = part g) → others.map part = f.groups.map part :=
    fun part hpart => map_modify_eq hpart f.groups number
  have hlinks : others.map links = f.groups.map links := hsame links fun _ => rfl
  have hcontains : ∀ {n c}, Contains others n c ↔ Contains f.groups n c :=
    contains_congr hlinks (hsame _ fun _ => rfl)
  refine ⟨h.nested.congr hlinks, ?_, h.sorted, ?_⟩
  · intro n g hg
    obtain ⟨g', hg', hused⟩ := getElem?_of_map_eq (hsame FilterGroup.used fun _ => rfl) hg
    rw [← hused]
    simpa only [hcontains] using h.used n g' hg'
  · simpa only [hcontains] using h.joined

theorem openGroup {parent : Nat} {junction : Junction} {answer : Nat × Filter} (h : f.Arranged)
    (hcall : f.openGroup parent junction = .ok answer) : answer.2.Arranged := by
  obtain ⟨_, hcheck, -⟩ := bind_eq_ok_iff.1 hcall
  have hparent := lt_of_checkGroup hcheck
  rw [openGroup_eq hparent] at hcall
  let others := withGroup f.groups parent junction
  obtain rfl : (f.groups.length, { f with groups := others }) = answer := Except.ok.inj hcall
  have hcontains : ∀ {n c}, Contains others n c ↔ Contains f.groups n c :=
    h.nested.contains_withGroup
  refine ⟨h.nested.withGroup hparent junction, ?_, h.sorted, ?_⟩
  · intro n g hg
    simp only [hcontains]
    obtain ⟨-, g', hg', rfl⟩ | ⟨rfl, rfl⟩ := withGroup_cases hg
    · exact h.used n g' hg'
    · refine ⟨List.Pairwise.nil, fun p => ⟨fun hp => (List.not_mem_nil hp).elim, ?_⟩⟩
      rintro ⟨c, ⟨inner, g, hwithin, hg, -⟩, -⟩
      have hle := h.nested.le_of_within hwithin
      have hlt := (List.getElem?_eq_some_iff.1 hg).1
      omega
  · simpa only [hcontains] using h.joined

theorem addCondition {number : Nat} {path : String} {options : ConditionOptions} {test : Test}
    {operands : List String} (h : f.Arranged)
    (hcall : f.addCondition s number path options test operands = .ok f') : f'.Arranged := by
  obtain ⟨_, hcheck, -⟩ := bind_eq_ok_iff.1 hcall
  have hnumber := lt_of_checkGroup hcheck
  rw [addCondition_eq hnumber] at hcall
  obtain ⟨c, -, hf⟩ := map_eq_ok_iff.1 hcall
  let noted := noteUsed c.path.text (number + 1) number f.groups
  have hnoted : ∀ {α : Type} (part : FilterGroup → α),
      (∀ g used, part { g with used := used } = part g) → noted.map part = f.groups.map part :=
    fun part hpart => map_noteUsed hpart _ _ _ _
  have hlinks : noted.map links = f.groups.map links := hnoted links fun _ _ => rfl
  have hlength : noted.length = f.groups.length := length_of_links hlinks
  let others := addItem number (.condition c) noted
  obtain rfl : { f with
      groups := others
      participatingTypes := NameSet.insertAll c.path.participatingTypes f.participatingTypes } =
    f' := hf
  have hcontains : ∀ {n d}, Contains others n d ↔
      Contains f.groups n d ∨ (d = c ∧ Within f.groups number n) := by
    intro n d
    rw [contains_addItem (by rwa [hlength]), within_congr hlinks,
      contains_congr hlinks (hnoted _ fun _ _ => rfl)]
  refine ⟨h.nested.congr ((links_addItem_condition noted number c).trans hlinks), ?_,
    NameSet.sorted_insertAll _ h.sorted, ?_⟩
  · intro n g hg
    rw [getElem?_addItem, Option.map_eq_some_iff] at hg
    obtain ⟨g', hg', rfl⟩ := hg
    have hlt : n < f.groups.length := by
      rw [← hlength]
      exact (List.getElem?_eq_some_iff.1 hg').1
    obtain ⟨hsorted, hmem⟩ := h.used n _ (List.getElem?_eq_getElem hlt)
    obtain ⟨used, hget, hsorted', hmem'⟩ :=
      getElem?_noteUsed h.nested (Nat.lt_succ_self number) (List.getElem?_eq_getElem hlt)
    obtain rfl : _ = g' := Option.some.inj (hget.symm.trans hg')
    refine ⟨hsorted' hsorted, fun p => ?_⟩
    show p ∈ used ↔ _
    rw [hmem', hmem]
    simp only [hcontains]
    constructor
    · rintro (⟨rfl, hwithin⟩ | ⟨d, hd, rfl⟩)
      · exact ⟨c, .inr ⟨rfl, hwithin⟩, rfl⟩
      · exact ⟨d, .inl hd, rfl⟩
    · rintro ⟨d, hd | ⟨rfl, hwithin⟩, rfl⟩
      · exact .inr ⟨d, hd, rfl⟩
      · exact .inl ⟨rfl, hwithin⟩
  · intro target
    have hroot := h.nested.within_root hnumber
    show target ∈ NameSet.insertAll _ _ ↔ _
    rw [NameSet.mem_insertAll, Path.mem_participatingTypes, h.joined, ← or_assoc]
    refine or_congr_left ?_
    simp only [hcontains]
    constructor
    · rintro (hcrosses | ⟨d, hd, hcrosses⟩)
      · exact ⟨c, .inr ⟨rfl, hroot⟩, hcrosses⟩
      · exact ⟨d, .inl hd, hcrosses⟩
    · rintro ⟨d, hd | ⟨rfl, -⟩, hcrosses⟩
      · exact .inr ⟨d, hd, hcrosses⟩
      · exact .inl hcrosses

theorem withBasePath {path : String} (h : f.Arranged) (hnone : f.basePath = none)
    (hcall : f.withBasePath s path = .ok f') : f'.Arranged := by
  obtain ⟨-, base, property, scope, -, -, hproperty, hopened, rfl⟩ :=
    withBasePath_eq_ok_iff.1 hcall
  obtain ⟨container, hlast⟩ := Path.getLast?_of_terminal hproperty
  obtain ⟨-, hscope, -⟩ := Path.opened_eq_some hopened
  have hends : ∀ target,
      target ∈ (if property.isReference then [scope.name] else []) ↔ base.EndsAt target := by
    intro target
    unfold Path.EndsAt
    rw [hlast]
    constructor
    · intro hmem
      split at hmem
      · rename_i href
        obtain rfl : target = scope.name := by simpa using hmem
        exact ⟨container, property, rfl, href, hscope⟩
      · cases hmem
    · rintro ⟨_, _, hstep, href, htarget⟩
      cases hstep
      rw [if_pos href, List.mem_singleton]
      exact Option.some.inj (htarget.symm.trans hscope)
  refine ⟨h.nested, h.used, NameSet.sorted_insertAll _ h.sorted, ?_⟩
  intro target
  rw [NameSet.mem_insertAll, List.mem_append, Path.mem_participatingTypes, hends, h.joined, or_comm]
  simp [hnone]

theorem after {call : FilterCall} (h : f.Arranged)
    (hbase : call.setsBasePath = true → f.basePath = none) : (f.after s call).Arranged := by
  unfold Filter.after
  split
  · rename_i f' hcall
    cases call with
    | basePath path => exact h.withBasePath (hbase rfl) hcall
    | group parent junction =>
        obtain ⟨answer, hopen, rfl⟩ := map_eq_ok_iff.1 hcall
        exact h.openGroup hopen
    | junction number junction => exact h.setJunction hcall
    | condition number path options test operands => exact h.addCondition hcall
  · exact h

end Arranged

section

variable {s : Schema} {f f' : Filter} {call : FilterCall}

theorem Nested.apply (h : Nested f.groups) (hcall : call.apply s f = .ok f') :
    Nested f'.groups := by
  cases call with
  | basePath path => rwa [withBasePath_groups hcall]
  | group parent junction =>
      obtain ⟨answer, hopen, rfl⟩ := map_eq_ok_iff.1 hcall
      obtain ⟨_, hcheck, -⟩ := bind_eq_ok_iff.1 hopen
      have hparent := lt_of_checkGroup hcheck
      rw [openGroup_eq hparent] at hopen
      cases hopen
      exact h.withGroup hparent junction
  | junction number junction =>
      obtain ⟨_, -, hset⟩ := bind_eq_ok_iff.1 hcall
      cases hset
      let change (g : FilterGroup) : FilterGroup := { g with junction := junction }
      exact h.congr (map_modify_eq (fun g => (rfl : links (change g) = links g)) f.groups number)
  | condition number path options test operands =>
      obtain ⟨_, -, hadd⟩ := bind_eq_ok_iff.1 hcall
      obtain ⟨c, -, hadd⟩ := bind_eq_ok_iff.1 hadd
      cases hadd
      refine h.congr ((links_addItem_condition _ number c).trans ?_)
      exact map_noteUsed (fun _ _ => rfl) _ _ _ _

/-- The conditions behind a call were there before, or the call made them at the scope. -/
theorem contains_of_apply {call : FilterCall} {number : Nat} {c : Condition}
    (h : Nested f.groups) (hcall : call.apply s f = .ok f') (hc : Contains f'.groups number c) :
    Contains f.groups number c ∨
      ∃ path options test operands, makeCondition s f.scope path options test operands = .ok c := by
  cases call with
  | basePath path =>
      rw [withBasePath_groups hcall] at hc
      exact .inl hc
  | group parent junction =>
      obtain ⟨answer, hopen, rfl⟩ := map_eq_ok_iff.1 hcall
      obtain ⟨_, hcheck, -⟩ := bind_eq_ok_iff.1 hopen
      rw [openGroup_eq (lt_of_checkGroup hcheck)] at hopen
      cases hopen
      exact .inl (h.contains_withGroup.1 hc)
  | junction number junction =>
      obtain ⟨_, -, hset⟩ := bind_eq_ok_iff.1 hcall
      cases hset
      let change (g : FilterGroup) : FilterGroup := { g with junction := junction }
      have hlinks : (f.groups.modify number change).map links = f.groups.map links :=
        map_modify_eq (fun g => (rfl : links (change g) = links g)) f.groups number
      have hitems : (f.groups.modify number change).map FilterGroup.items =
          f.groups.map FilterGroup.items :=
        map_modify_eq (fun g => (rfl : (change g).items = g.items)) f.groups number
      exact .inl ((contains_congr hlinks hitems).1 hc)
  | condition inner path options test operands =>
      obtain ⟨_, hcheck, -⟩ := bind_eq_ok_iff.1 hcall
      have hinner := lt_of_checkGroup hcheck
      simp only [FilterCall.apply, addCondition_eq hinner] at hcall
      obtain ⟨d, hd, rfl⟩ := map_eq_ok_iff.1 hcall
      let noted := noteUsed d.path.text (inner + 1) inner f.groups
      have hlinks : noted.map links = f.groups.map links := map_noteUsed (fun _ _ => rfl) _ _ _ _
      have hitems : noted.map FilterGroup.items = f.groups.map FilterGroup.items :=
        map_noteUsed (fun _ _ => rfl) _ _ _ _
      have hlt : inner < noted.length := by rwa [length_of_links hlinks]
      rcases (contains_addItem hlt).1 hc with hold | ⟨rfl, -⟩
      · exact .inl ((contains_congr hlinks hitems).1 hold)
      · exact .inr ⟨path, options, test, operands, hd⟩

/-- Only a base path changes what a filter is about. -/
theorem kept_of_apply (hcall : call.apply s f = .ok f') (hset : call.setsBasePath = false) :
    f'.basePath = f.basePath ∧ f'.resourceType = f.resourceType ∧ f'.scope = f.scope := by
  cases call with
  | basePath path => cases hset
  | group parent junction =>
      obtain ⟨answer, hopen, rfl⟩ := map_eq_ok_iff.1 hcall
      obtain ⟨_, -, hopen⟩ := bind_eq_ok_iff.1 hopen
      cases hopen
      exact ⟨rfl, rfl, rfl⟩
  | junction number junction =>
      obtain ⟨_, -, hcall⟩ := bind_eq_ok_iff.1 hcall
      cases hcall
      exact ⟨rfl, rfl, rfl⟩
  | condition number path options test operands =>
      obtain ⟨_, -, hcall⟩ := bind_eq_ok_iff.1 hcall
      obtain ⟨_, -, hcall⟩ := bind_eq_ok_iff.1 hcall
      cases hcall
      exact ⟨rfl, rfl, rfl⟩

/-- What every call keeps that does not fail, all calls keep. -/
theorem foldl_after_keeps {P : Filter → Prop} {calls : List FilterCall} (hf : P f)
    (hP : ∀ (g : Filter) (call : FilterCall) (g' : Filter), P g → call.apply s g = .ok g' → P g') :
    P (calls.foldl (after s) f) := by
  induction calls generalizing f with
  | nil => exact hf
  | cons call rest ih =>
      refine ih ?_
      unfold after
      split
      · rename_i f' hcall
        exact hP f call f' hf hcall
      · exact hf

theorem basePath_after (hset : call.setsBasePath = false) :
    (f.after s call).basePath = f.basePath := by
  unfold after
  split
  · rename_i f' hcall
    exact (kept_of_apply hcall hset).1
  · rfl

end

/-- Calls of which one sets the base path at most, if it is not set yet. -/
theorem Arranged.foldl_after {s : Schema} {calls : List FilterCall} {f : Filter} (h : f.Arranged)
    (hbase : calls.countP FilterCall.setsBasePath ≤ if f.basePath = none then 1 else 0) :
    (calls.foldl (Filter.after s) f).Arranged := by
  induction calls generalizing f with
  | nil => exact h
  | cons call rest ih =>
      rw [List.countP_cons] at hbase
      cases hcall : call.setsBasePath with
      | true =>
          rw [if_pos hcall] at hbase
          have hnone : f.basePath = none := by
            by_contra hsome
            rw [if_neg hsome] at hbase
            omega
          refine ih (h.after fun _ => hnone) ?_
          rw [if_pos hnone] at hbase
          omega
      | false =>
          refine ih (h.after fun hset => by rw [hcall] at hset; cases hset) ?_
          rw [basePath_after hcall]
          simpa [hcall] using hbase

/-! ## What follows of a filter -/

/-- What holds of a filter, whichever calls put it together. -/
structure Consistent (f : Filter) : Prop where
  outermost : root < f.groups.length ∧ f.parent? root = none
  around : ∀ number < f.groups.length, number ≠ root →
    ∃ outer < number, f.parent? number = some outer
  /-- A group is an item of the group around it, once, and of no other group. -/
  once : ∀ number < f.groups.length, ∀ n g, f.group? n = some g →
    g.inner.count number = if f.parent? number = some n then 1 else 0
  walked : (numbers f.walk).Perm (List.range f.groups.length)
  /-- No bound on the depth is met. -/
  ends : ∀ number < f.groups.length, ∀ depth, f.groups.length ≤ depth →
    f.treeAt depth number = f.treeAt f.groups.length number
  groups : f.tree.groups = (numbers f.walk).map f.groupTree
  conditions : f.conditions = f.walk.filterMap FilterItem.condition?
  keyed : ∀ key, (f.keyed key).map Prod.snd = f.walk
  encode : ∀ key, f.encode key = do
    return (f.basePath.toList.map fun path => (key ++ "@", path.text)) ++
      (← (f.keyed key).mapM f.itemParameters).flatten
  used : ∀ number g, f.group? number = some g → g.used =
    NameSet.ofList ((f.treeAt f.groups.length number).conditions.map fun c => c.path.text)
  isUsed : ∀ path, (¬∃ above, path = above ++ ".*") →
    (f.isUsed path = true ↔ ∃ c ∈ f.conditions, c.path.text = path)
  isUsed_below : ∀ above, f.isUsed (above ++ ".*") = true ↔
    ∃ c ∈ f.conditions, Text.startsWith c.path.text (above ++ ".") = true
  joined : NameSet.Sorted f.participatingTypes ∧ ∀ target, target ∈ f.participatingTypes ↔
    (∃ c ∈ f.conditions, c.path.Crosses target) ∨
      ∃ base, f.basePath = some base ∧ (base.Crosses target ∨ base.EndsAt target)

theorem isUsed_iff {f : Filter} {path : String} (h : ¬∃ above, path = above ++ ".*") :
    f.isUsed path = true ↔ path ∈ f.used := by
  unfold isUsed
  split
  · rename_i rest heq
    refine absurd ⟨String.ofList rest.reverse, String.toList_inj.1 ?_⟩ h
    rw [← List.reverse_reverse path.toList, heq, String.toList_append, String.toList_ofList]
    simp
  · exact List.contains_iff_mem

theorem isUsed_below_iff {f : Filter} {above : String} :
    f.isUsed (above ++ ".*") = true ↔
      ∃ path ∈ f.used, Text.startsWith path (above ++ ".") = true := by
  have hreverse : (above ++ ".*").toList.reverse = '*' :: '.' :: above.toList.reverse := by
    simp
  have habove : String.ofList ('.' :: above.toList.reverse).reverse = above ++ "." := by
    apply String.toList_inj.1
    simp
  unfold isUsed
  rw [hreverse]
  simp only [habove, List.any_eq_true]

theorem Arranged.consistent {f : Filter} (h : f.Arranged) : f.Consistent := by
  have hconditions : ∀ number < f.groups.length, ∀ c,
      c ∈ (f.treeAt f.groups.length number).conditions ↔ Contains f.groups number c :=
    fun number hnumber c => h.nested.mem_conditions_treeAt (by omega) hnumber
  have hroot := hconditions root h.nested.root_lt
  have hused : ∀ path, path ∈ f.used ↔ ∃ c ∈ f.conditions, c.path.text = path := by
    intro path
    obtain ⟨g, hg, -⟩ := h.nested.outermost
    have hmem := (h.used root g hg).2 path
    simp only [← hroot] at hmem
    rw [Filter.used, group?, hg]
    exact hmem
  constructor
  case outermost => exact ⟨h.nested.root_lt, h.nested.around?_root⟩
  case around =>
    intro number hnumber hne
    have hg := List.getElem?_eq_getElem hnumber
    obtain ⟨outer, hlt, hparent⟩ := h.nested.around number _ hg hne
    exact ⟨outer, hlt, by rw [parent?, group?, hg, Option.bind_some, hparent]⟩
  case once =>
    intro number hnumber n g hg
    have hparent : f.parent? number = around? f.groups number := rfl
    rw [h.nested.inner n g hg, hparent]
    by_cases haround : around? f.groups number = some n
    · rw [if_pos haround, List.count_filter
        (p := fun i => decide (around? f.groups i = some n)) (decide_eq_true haround)]
      exact List.count_eq_one_of_mem List.nodup_range (List.mem_range.2 hnumber)
    · rw [if_neg haround, List.count_eq_zero]
      intro hmem
      exact haround (of_decide_eq_true (List.mem_filter.1 hmem).2)
  case walked => exact h.nested.numbers_walk_perm
  case ends => exact fun number hnumber depth hdepth =>
    h.nested.treeAt_eq (by omega) (by omega) hnumber
  case groups => exact h.nested.groups_treeAt (by omega) h.nested.root_lt
  case conditions => exact conditions_treeAt f _ _
  case keyed => exact fun key => map_snd_keyedAt f _ key root
  case encode => exact encode_eq_keyed f
  case used =>
    intro number g hg
    obtain ⟨hsorted, hmem⟩ := h.used number g hg
    refine hsorted.ext (NameSet.sorted_ofList _) fun path => ?_
    have hnumber := (List.getElem?_eq_some_iff.1 hg).1
    rw [hmem, NameSet.mem_ofList, List.mem_map]
    simp only [hconditions number hnumber]
  case isUsed =>
    intro path hpath
    rw [isUsed_iff hpath, hused]
  case isUsed_below =>
    intro above
    simp only [isUsed_below_iff, hused]
    constructor
    · rintro ⟨_, ⟨c, hc, rfl⟩, hstart⟩
      exact ⟨c, hc, hstart⟩
    · rintro ⟨c, hc, hstart⟩
      exact ⟨_, ⟨c, hc, rfl⟩, hstart⟩
  case joined =>
    refine ⟨h.sorted, fun target => ?_⟩
    rw [h.joined]
    simp only [← hroot]
    rfl

/-- A filter is consistent after any calls, also when some of them fail. The base path is set once
at most. -/
theorem consistent_of_calls {s : Schema} {resourceType : String} {f : Filter}
    {calls : List FilterCall} (hall : Filter.all s resourceType = .ok f)
    (hbase : calls.countP FilterCall.setsBasePath ≤ 1) :
    (calls.foldl (after s) f).Consistent := by
  have hnone : f.basePath = none := by
    obtain ⟨c, -, hall⟩ := bind_eq_ok_iff.1 hall
    cases hall
    rfl
  apply Arranged.consistent
  exact (Arranged.all hall).foldl_after (by rwa [if_pos hnone])

/-- The orders of users, with one call that names no group and one that names no property. -/
def orderCalls : List FilterCall :=
  [.group 7 .disjunction, .basePath "order", .group 0 .disjunction,
    .condition 1 "customer.id" {} (.equality false) ["7"],
    .condition 1 "nothing" {} (.equality false) ["7"], .junction 1 .conjunction]

theorem orderCalls_consistent : ∃ f, Filter.all orderSchema "User" = .ok f ∧
    orderCalls.countP FilterCall.setsBasePath ≤ 1 ∧
    (orderCalls.foldl (after orderSchema) f).Consistent ∧
    (orderCalls.foldl (after orderSchema) f).groups.length = 2 ∧
    (orderCalls.foldl (after orderSchema) f).participatingTypes = ["Order", "User"] := by
  have hall : Filter.all orderSchema "User" =
      .ok ⟨"User", none, "User", [⟨.conjunction, none, [], []⟩], []⟩ := rfl
  exact ⟨_, hall, by decide, consistent_of_calls hall (by decide), rfl, rfl⟩

end Filter

end ResourceQuery
