import ResourceQuery.Filter.Basic
/-!
# Groups inside each other

Every group of a filter knows the group around it and the groups in it. `Nested` says that the two
agree; groups that are opened keep it (`Nested.withGroup`). `Within` follows the groups outward.
-/

namespace ResourceQuery

namespace FilterItem

def group? : FilterItem → Option Nat
  | group number => some number
  | condition _ => none

def condition? : FilterItem → Option Condition
  | group _ => none
  | condition c => some c

theorem mem_filterMap_group? {items : List FilterItem} {number : Nat} :
    number ∈ items.filterMap group? ↔ group number ∈ items := by
  rw [List.mem_filterMap]
  constructor
  · rintro ⟨item, hitem, hnumber⟩
    cases item with
    | group other =>
        obtain rfl : other = number := by simpa [group?] using hnumber
        exact hitem
    | condition c => cases hnumber
  · intro hitem
    exact ⟨_, hitem, rfl⟩

end FilterItem

/-- The numbers of the groups that are items of the group. -/
def FilterGroup.inner (g : FilterGroup) : List Nat := g.items.filterMap FilterItem.group?

namespace Filter

/-- The group around the group with a number. -/
def around? (groups : List FilterGroup) (number : Nat) : Option Nat :=
  groups[number]?.bind FilterGroup.parent

/-- The group is the other one, or somewhere inside it. -/
inductive Within (groups : List FilterGroup) : Nat → Nat → Prop
  | self (number : Nat) : Within groups number number
  | outward {number between outer : Nat} (haround : around? groups number = some between)
      (h : Within groups between outer) : Within groups number outer

/-- The condition stands in the group, or somewhere inside it. -/
def Contains (groups : List FilterGroup) (number : Nat) (c : Condition) : Prop :=
  ∃ n g, Within groups n number ∧ groups[n]? = some g ∧ .condition c ∈ g.items

/-- Every group but the outermost one has a group around it, with a smaller number. The groups in a
group are those that it is around, each of them once. -/
structure Nested (groups : List FilterGroup) : Prop where
  outermost : ∃ g, groups[root]? = some g ∧ g.parent = none
  around : ∀ number g, groups[number]? = some g → number ≠ root →
    ∃ outer < number, g.parent = some outer
  inner : ∀ number g, groups[number]? = some g →
    g.inner = (List.range groups.length).filter fun n => around? groups n = some number

/-! ## Operations on groups -/

/-- What a group knows of other groups. -/
def links (g : FilterGroup) : Option Nat × List Nat := (g.parent, g.inner)

theorem map_modify_eq {α β : Type} {f : α → β} {change : α → α} (h : ∀ a, f (change a) = f a)
    (items : List α) (number : Nat) : (items.modify number change).map f = items.map f := by
  apply List.ext_getElem?
  intro n
  rw [List.getElem?_map, List.getElem?_map, List.getElem?_modify]
  cases items[n]? with
  | none => rfl
  | some a =>
      by_cases hn : number = n
      · simp [hn, h]
      · simp [hn]

theorem links_addItem_condition (groups : List FilterGroup) (number : Nat) (c : Condition) :
    (addItem number (.condition c) groups).map links = groups.map links :=
  map_modify_eq (fun g => by simp [links, FilterGroup.inner, FilterItem.group?]) groups number

theorem map_noteUsed {α : Type} {f : FilterGroup → α}
    (h : ∀ g used, f { g with used := used } = f g) (path : String) (steps number : Nat)
    (groups : List FilterGroup) : (noteUsed path steps number groups).map f = groups.map f := by
  induction steps generalizing number groups with
  | zero => rfl
  | succ steps ih =>
      have hnoted : (groups.modify number fun g =>
          { g with used := NameSet.insert path g.used }).map f = groups.map f :=
        map_modify_eq (fun g => h g _) groups number
      unfold noteUsed
      simp only
      split
      · rw [ih, hnoted]
      · exact hnoted

theorem getElem?_of_map_eq {α : Type} {f : FilterGroup → α} {groups others : List FilterGroup}
    (h : others.map f = groups.map f) {number : Nat} {g : FilterGroup}
    (hg : others[number]? = some g) : ∃ g', groups[number]? = some g' ∧ f g' = f g := by
  have hmap : (others.map f)[number]? = (groups.map f)[number]? := by rw [h]
  rw [List.getElem?_map, List.getElem?_map, hg, Option.map_some, eq_comm,
    Option.map_eq_some_iff] at hmap
  exact hmap

section Links

variable {groups others : List FilterGroup} (h : others.map links = groups.map links)

include h

theorem length_of_links : others.length = groups.length := by
  simpa using congrArg List.length h

theorem getElem?_of_links {number : Nat} {g : FilterGroup} (hg : others[number]? = some g) :
    ∃ g', groups[number]? = some g' ∧ g'.parent = g.parent ∧ g'.inner = g.inner := by
  obtain ⟨g', hg', heq⟩ := getElem?_of_map_eq h hg
  exact ⟨g', hg', congrArg Prod.fst heq, congrArg Prod.snd heq⟩

theorem around?_of_links (number : Nat) : around? others number = around? groups number := by
  unfold around?
  cases hg : others[number]? with
  | some g =>
      obtain ⟨g', hg', hparent, -⟩ := getElem?_of_links h hg
      rw [hg', Option.bind_some, Option.bind_some, hparent]
  | none =>
      rw [List.getElem?_eq_none_iff] at hg
      rw [List.getElem?_eq_none (by rwa [← length_of_links h])]

/-- Only what groups know of each other matters. -/
theorem Nested.congr (hgroups : Nested groups) : Nested others where
  outermost := by
    obtain ⟨g, hg, hparent⟩ := hgroups.outermost
    obtain ⟨g', hg', hparent', -⟩ := getElem?_of_links h.symm hg
    exact ⟨g', hg', hparent'.trans hparent⟩
  around number g hg hne := by
    obtain ⟨g', hg', hparent, -⟩ := getElem?_of_links h hg
    rw [← hparent]
    exact hgroups.around number g' hg' hne
  inner number g hg := by
    obtain ⟨g', hg', -, hinner⟩ := getElem?_of_links h hg
    rw [← hinner, hgroups.inner number g' hg', length_of_links h]
    simp only [around?_of_links h]

theorem Within.congr {number outer : Nat} (hwithin : Within groups number outer) :
    Within others number outer := by
  induction hwithin with
  | self number => exact .self number
  | outward haround _ ih => exact .outward ((around?_of_links h _).trans haround) ih

end Links

theorem within_congr {groups others : List FilterGroup} (h : others.map links = groups.map links)
    {number outer : Nat} : Within others number outer ↔ Within groups number outer :=
  ⟨Within.congr h.symm, Within.congr h⟩

theorem contains_congr {groups others : List FilterGroup}
    (hlinks : others.map links = groups.map links)
    (hitems : others.map FilterGroup.items = groups.map FilterGroup.items) {number : Nat}
    {c : Condition} : Contains others number c ↔ Contains groups number c := by
  have hcongr : ∀ {groups others : List FilterGroup}, others.map links = groups.map links →
      others.map FilterGroup.items = groups.map FilterGroup.items →
      Contains others number c → Contains groups number c := by
    rintro groups others hlinks hitems ⟨n, g, hwithin, hg, hc⟩
    obtain ⟨g', hg', heq⟩ := getElem?_of_map_eq hitems hg
    exact ⟨n, g', (within_congr hlinks).1 hwithin, hg', heq ▸ hc⟩
  exact ⟨hcongr hlinks hitems, hcongr hlinks.symm hitems.symm⟩

theorem lt_length_of_around? {groups : List FilterGroup} {number outer : Nat}
    (h : around? groups number = some outer) : number < groups.length := by
  obtain ⟨g, hg, -⟩ := Option.bind_eq_some_iff.1 h
  exact (List.getElem?_eq_some_iff.1 hg).1

theorem getElem?_addItem (number : Nat) (item : FilterItem) (groups : List FilterGroup) (n : Nat) :
    (addItem number item groups)[n]? = groups[n]?.map fun g =>
      { g with items := g.items ++ if number = n then [item] else [] } := by
  rw [addItem, List.getElem?_modify]
  cases groups[n]? with
  | none => rfl
  | some g =>
      by_cases heq : number = n
      · simp [heq]
      · simp [heq]

/-- The groups with a further one inside the group with a number. -/
def withGroup (groups : List FilterGroup) (number : Nat) (junction : Junction) :
    List FilterGroup :=
  addItem number (.group groups.length) groups ++ [⟨junction, some number, [], []⟩]

section WithGroup

variable (groups : List FilterGroup) (number : Nat) (junction : Junction)

@[simp] theorem length_withGroup :
    (withGroup groups number junction).length = groups.length + 1 := by
  simp [withGroup, addItem]

theorem getElem?_withGroup_last :
    (withGroup groups number junction)[groups.length]? = some ⟨junction, some number, [], []⟩ := by
  rw [withGroup, List.getElem?_append_right (by simp [addItem])]
  simp [addItem]

theorem getElem?_withGroup {n : Nat} (hn : n < groups.length) :
    (withGroup groups number junction)[n]? = groups[n]?.map fun g =>
      { g with items := g.items ++ if number = n then [.group groups.length] else [] } := by
  rw [withGroup, List.getElem?_append_left (by simpa [addItem] using hn), getElem?_addItem]

variable {groups number junction} in
/-- A group is an old one, maybe with the new one as its last item, or the new one. -/
theorem withGroup_cases {n : Nat} {g : FilterGroup}
    (hg : (withGroup groups number junction)[n]? = some g) :
    (n < groups.length ∧ ∃ g', groups[n]? = some g' ∧
      { g' with items := g'.items ++ if number = n then [.group groups.length] else [] } = g) ∨
      n = groups.length ∧ ⟨junction, some number, [], []⟩ = g := by
  have hlt := (List.getElem?_eq_some_iff.1 hg).1
  rw [length_withGroup] at hlt
  rcases Nat.lt_succ_iff_lt_or_eq.1 hlt with hlt | rfl
  · rw [getElem?_withGroup groups number junction hlt, Option.map_eq_some_iff] at hg
    exact .inl ⟨hlt, hg⟩
  · rw [getElem?_withGroup_last] at hg
    exact .inr ⟨rfl, Option.some.inj hg⟩

theorem around?_withGroup (n : Nat) :
    around? (withGroup groups number junction) n =
      if n = groups.length then some number else around? groups n := by
  unfold around?
  rcases Nat.lt_trichotomy n groups.length with hn | rfl | hn
  · rw [if_neg (by omega), getElem?_withGroup groups number junction hn]
    cases groups[n]? <;> rfl
  · rw [if_pos rfl, getElem?_withGroup_last, Option.bind_some]
  · rw [if_neg (by omega), List.getElem?_eq_none (by rw [length_withGroup]; omega),
      List.getElem?_eq_none (by omega)]

end WithGroup

theorem Nested.around?_root {groups : List FilterGroup} (h : Nested groups) :
    around? groups root = none := by
  obtain ⟨g, hg, hparent⟩ := h.outermost
  rw [around?, hg, Option.bind_some, hparent]

theorem Nested.lt_of_around? {groups : List FilterGroup} (h : Nested groups) {number outer : Nat}
    (haround : around? groups number = some outer) : outer < number := by
  obtain ⟨g, hg, hparent⟩ := Option.bind_eq_some_iff.1 haround
  by_cases hroot : number = root
  · rw [hroot, h.around?_root] at haround
    cases haround
  · obtain ⟨n, hlt, hn⟩ := h.around number g hg hroot
    rw [hn] at hparent
    cases hparent
    exact hlt

/-- A group that is opened inside another one has the greatest number of all. -/
theorem Nested.withGroup {groups : List FilterGroup} (h : Nested groups) {number : Nat}
    (hnumber : number < groups.length) (junction : Junction) :
    Nested (withGroup groups number junction) where
  outermost := by
    obtain ⟨g, hg, hparent⟩ := h.outermost
    have hlt := (List.getElem?_eq_some_iff.1 hg).1
    rw [getElem?_withGroup groups number junction hlt, hg]
    exact ⟨_, rfl, hparent⟩
  around n g hg hne := by
    obtain ⟨-, g', hg', rfl⟩ | ⟨rfl, rfl⟩ := withGroup_cases hg
    · exact h.around n g' hg' hne
    · exact ⟨number, hnumber, rfl⟩
  inner n g hg := by
    have hold : ((List.range groups.length).filter fun i =>
        around? (Filter.withGroup groups number junction) i = some n) =
        (List.range groups.length).filter fun i => around? groups i = some n := by
      apply List.filter_congr
      intro i hi
      rw [around?_withGroup, if_neg (by rw [List.mem_range] at hi; omega)]
    rw [length_withGroup, List.range_succ, List.filter_append, hold]
    obtain ⟨-, g', hg', rfl⟩ | ⟨rfl, rfl⟩ := withGroup_cases hg
    · rw [FilterGroup.inner, List.filterMap_append, ← FilterGroup.inner, h.inner n g' hg']
      congr 1
      by_cases heq : number = n
      · simp [around?_withGroup, heq, FilterItem.group?]
      · simp [around?_withGroup, heq]
    · -- what is inside the new group was opened after it
      have hnone : ((List.range groups.length).filter fun i =>
          around? groups i = some groups.length) = [] := by
        rw [List.filter_eq_nil_iff]
        intro i hi haround
        have := h.lt_of_around? (of_decide_eq_true haround)
        rw [List.mem_range] at hi
        omega
      rw [hnone]
      simp [FilterGroup.inner, around?_withGroup, Nat.ne_of_lt hnumber]

/-! ## Inside and around -/

theorem Within.trans {groups : List FilterGroup} {a b c : Nat} (hab : Within groups a b)
    (hbc : Within groups b c) : Within groups a c := by
  induction hab with
  | self _ => exact hbc
  | outward haround _ ih => exact .outward haround (ih hbc)

/-- Of two groups around a group one is inside the other. -/
theorem Within.total {groups : List FilterGroup} {number a b : Nat} (ha : Within groups number a)
    (hb : Within groups number b) : Within groups a b ∨ Within groups b a := by
  induction ha with
  | self _ => exact .inl hb
  | outward haround h ih =>
      cases hb with
      | self _ => exact .inr (.outward haround h)
      | outward haround' hb' =>
          rw [haround] at haround'
          cases haround'
          exact ih hb'

theorem within_iff_around? {groups : List FilterGroup} {number outer : Nat} :
    Within groups number outer ↔
      number = outer ∨ ∃ n, around? groups number = some n ∧ Within groups n outer := by
  constructor
  · intro h
    cases h with
    | self _ => exact .inl rfl
    | outward haround h => exact .inr ⟨_, haround, h⟩
  · rintro (rfl | ⟨n, hn, h⟩)
    · exact .self _
    · exact .outward hn h

/-- What is inside a group is inside one of the groups in it. -/
theorem within_iff {groups : List FilterGroup} {number outer : Nat} :
    Within groups number outer ↔
      number = outer ∨ ∃ n, around? groups n = some outer ∧ Within groups number n := by
  constructor
  · intro h
    induction h with
    | self _ => exact .inl rfl
    | @outward number between outer haround _ ih =>
        rcases ih with rfl | ⟨n, hn, hwithin⟩
        · exact .inr ⟨number, haround, .self number⟩
        · exact .inr ⟨n, hn, .outward haround hwithin⟩
  · rintro (rfl | ⟨n, hn, hwithin⟩)
    · exact .self _
    · exact hwithin.trans (.outward hn (.self outer))

namespace Nested

variable {groups : List FilterGroup} (h : Nested groups)

include h

theorem le_of_within {number outer : Nat} (hwithin : Within groups number outer) :
    outer ≤ number := by
  induction hwithin with
  | self _ => exact Nat.le_refl _
  | outward haround _ ih =>
      have := h.lt_of_around? haround
      omega

theorem within_root {number : Nat} (hnumber : number < groups.length) :
    Within groups number root := by
  induction number using Nat.strongRecOn with
  | ind number ih =>
      by_cases hroot : number = root
      · rw [hroot]
        exact .self _
      · have hg := List.getElem?_eq_getElem hnumber
        obtain ⟨outer, hlt, hparent⟩ := h.around number _ hg hroot
        have haround : around? groups number = some outer := by
          rw [around?, hg, Option.bind_some, hparent]
        exact .outward haround (ih outer hlt (by omega))

theorem mem_inner {number n : Nat} {g : FilterGroup} (hg : groups[number]? = some g) :
    n ∈ g.inner ↔ around? groups n = some number := by
  rw [h.inner number g hg, List.mem_filter, List.mem_range, decide_eq_true_eq]
  exact ⟨And.right, fun haround => ⟨lt_length_of_around? haround, haround⟩⟩

/-- The new group has nothing in it. -/
theorem within_withGroup {number n outer : Nat} {junction : Junction} (hn : n < groups.length) :
    Within (Filter.withGroup groups number junction) n outer ↔ Within groups n outer := by
  constructor
  · intro hwithin
    induction hwithin with
    | self _ => exact .self _
    | outward haround _ ih =>
        rw [around?_withGroup, if_neg (Nat.ne_of_lt hn)] at haround
        exact .outward haround (ih (Nat.lt_trans (h.lt_of_around? haround) hn))
  · intro hwithin
    induction hwithin with
    | self _ => exact .self _
    | outward haround _ ih =>
        refine .outward ?_ (ih (Nat.lt_trans (h.lt_of_around? haround) hn))
        rw [around?_withGroup, if_neg (Nat.ne_of_lt hn), haround]

theorem contains_withGroup {number n : Nat} {junction : Junction} {c : Condition} :
    Contains (Filter.withGroup groups number junction) n c ↔ Contains groups n c := by
  constructor
  · rintro ⟨inner, g, hwithin, hg, hc⟩
    obtain ⟨hlt, g', hg', rfl⟩ | ⟨-, rfl⟩ := withGroup_cases hg
    · refine ⟨inner, g', (h.within_withGroup hlt).1 hwithin, hg', ?_⟩
      by_cases heq : number = inner
      · simpa [heq] using hc
      · simpa [heq] using hc
    · cases hc
  · rintro ⟨inner, g, hwithin, hg, hc⟩
    have hlt := (List.getElem?_eq_some_iff.1 hg).1
    refine ⟨inner, _, (h.within_withGroup hlt).2 hwithin,
      by rw [getElem?_withGroup groups number junction hlt, hg, Option.map_some], ?_⟩
    exact List.mem_append_left _ hc

end Nested

theorem contains_addItem {groups : List FilterGroup} {number n : Nat} {c d : Condition}
    (hnumber : number < groups.length) :
    Contains (addItem number (.condition c) groups) n d ↔
      Contains groups n d ∨ (d = c ∧ Within groups number n) := by
  have hwithin : ∀ {inner}, Within (addItem number (.condition c) groups) inner n ↔
      Within groups inner n := within_congr (links_addItem_condition groups number c)
  constructor
  · rintro ⟨inner, g, hinner, hg, hd⟩
    rw [hwithin] at hinner
    rw [getElem?_addItem, Option.map_eq_some_iff] at hg
    obtain ⟨g', hg', rfl⟩ := hg
    rcases List.mem_append.1 hd with hd | hd
    · exact .inl ⟨inner, g', hinner, hg', hd⟩
    · split at hd
      · rename_i heq
        obtain rfl : d = c := by simpa using hd
        exact .inr ⟨rfl, heq ▸ hinner⟩
      · cases hd
  · rintro (⟨inner, g, hinner, hg, hd⟩ | ⟨rfl, hinner⟩)
    · refine ⟨inner, _, hwithin.2 hinner, by rw [getElem?_addItem, hg, Option.map_some], ?_⟩
      exact List.mem_append_left _ hd
    · refine ⟨number, _, hwithin.2 hinner,
        by rw [getElem?_addItem, List.getElem?_eq_getElem hnumber, Option.map_some], ?_⟩
      simp

end Filter

end ResourceQuery
