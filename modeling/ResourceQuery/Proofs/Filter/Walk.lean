import Mathlib.Data.List.Nodup
import ResourceQuery.Filter.Tree
import ResourceQuery.Proofs.Filter.Nesting
import ResourceQuery.Proofs.Filter.Truth
/-!
# The way along the tree

What is met in a filter, depth first. Where groups are nested, the way meets every group once
(`Nested.numbers_walk_perm`) and ends before the bound on its depth does (`Nested.treeAt_eq`).
Conditions are listed and parameters are written along it (`encode_eq_keyed`).
-/

namespace ResourceQuery

namespace Filter

def itemsAt (f : Filter) (number : Nat) : List FilterItem :=
  ((f.group? number).map FilterGroup.items).getD []

def junctionAt (f : Filter) (number : Nat) : Junction :=
  ((f.group? number).map FilterGroup.junction).getD .conjunction

def itemTree (f : Filter) (depth : Nat) : FilterItem → FilterTree
  | .condition c => .condition c
  | .group number => f.treeAt depth number

/-- What a group is in the tree. -/
def groupTree (f : Filter) (number : Nat) : Junction × List FilterTree :=
  (f.junctionAt number, (f.itemsAt number).map (f.itemTree f.groups.length))

def walkItem (walk : Nat → List FilterItem) : FilterItem → List FilterItem
  | .condition c => [.condition c]
  | .group number => walk number

/-- The group with a number and everything in it, in the order in which it is met. -/
def walkAt (f : Filter) : Nat → Nat → List FilterItem
  | 0, _ => []
  | depth + 1, number => .group number :: (f.itemsAt number).flatMap (walkItem (f.walkAt depth))

/-- Everything that is met in the filter, depth first. -/
def walk (f : Filter) : List FilterItem := f.walkAt f.groups.length root

def numbers (items : List FilterItem) : List Nat := items.filterMap FilterItem.group?

def keyedItems (below : String → Nat → List (String × FilterItem)) (key : String) :
    Nat → List FilterItem → List (String × FilterItem)
  | _, [] => []
  | groups, .condition c :: rest => (key, .condition c) :: keyedItems below key groups rest
  | groups, .group number :: rest =>
    below (key ++ "." ++ Numeral.ofNat (groups + 1)) number ++
      keyedItems below key (groups + 1) rest

/-- What is met from a group on, each with the key of the group that it is or stands in. -/
def keyedAt (f : Filter) : Nat → String → Nat → List (String × FilterItem)
  | 0, _, _ => []
  | depth + 1, key, number =>
    (key, .group number) :: keyedItems (f.keyedAt depth) key 0 (f.itemsAt number)

/-- Everything that is met in the filter, with the keys that it is written under. -/
def keyed (f : Filter) (key : String) : List (String × FilterItem) :=
  f.keyedAt f.groups.length key root

/-- The parameters of what is met, without what comes after it. -/
def itemParameters (f : Filter) : String × FilterItem → Except Fault (List (String × String))
  | (key, .group number) => .ok (FilterTree.junctionParameter key (f.junctionAt number))
  | (key, .condition c) => (FilterTree.condition c).parameters key

section Walk

variable {f : Filter} {depth number : Nat} {g : FilterGroup}

theorem treesAt_eq_map (f : Filter) (depth : Nat) (items : List FilterItem) :
    f.treesAt depth items = items.map (f.itemTree depth) := by
  induction items with
  | nil => rw [treesAt, List.map_nil]
  | cons item rest ih => cases item <;> rw [treesAt, ih] <;> rfl

theorem treeAt_succ (hg : f.groups[number]? = some g) :
    f.treeAt (depth + 1) number = .group g.junction (g.items.map (f.itemTree depth)) := by
  simp only [treeAt, group?, hg, treesAt_eq_map]

theorem walkAt_succ (hg : f.groups[number]? = some g) :
    f.walkAt (depth + 1) number = .group number :: g.items.flatMap (walkItem (f.walkAt depth)) := by
  simp only [walkAt, itemsAt, group?, hg, Option.map_some, Option.getD_some]

theorem numbers_append (items rest : List FilterItem) :
    numbers (items ++ rest) = numbers items ++ numbers rest :=
  List.filterMap_append

theorem numbers_flatMap (walk : Nat → List FilterItem) (g : FilterGroup) :
    numbers (g.items.flatMap (walkItem walk)) = g.inner.flatMap fun n => numbers (walk n) := by
  rw [FilterGroup.inner, numbers]
  induction g.items with
  | nil => rfl
  | cons item rest ih =>
      rw [List.flatMap_cons, List.filterMap_append, ih]
      cases item <;> rfl

theorem numbers_walkAt_succ (hg : f.groups[number]? = some g) :
    numbers (f.walkAt (depth + 1) number) =
      number :: g.inner.flatMap fun i => numbers (f.walkAt depth i) := by
  rw [walkAt_succ hg, ← numbers_flatMap]
  rfl

/-- The conditions of the tree are those that are met. -/
theorem conditions_treeAt (f : Filter) (depth number : Nat) :
    (f.treeAt depth number).conditions =
      (f.walkAt depth number).filterMap FilterItem.condition? := by
  induction depth generalizing number with
  | zero => simp [treeAt, walkAt, FilterTree.conditions, FilterTree.conditionsOf]
  | succ depth ih =>
      cases hg : f.groups[number]? with
      | none =>
          simp [treeAt, walkAt, itemsAt, group?, hg, FilterTree.conditions, FilterTree.conditionsOf,
            FilterItem.condition?]
      | some g =>
          rw [treeAt_succ hg, walkAt_succ hg, FilterTree.conditions,
            List.filterMap_cons_none (by rfl)]
          induction g.items with
          | nil => rfl
          | cons item rest ihRest =>
              rw [List.map_cons, FilterTree.conditionsOf, ihRest, List.flatMap_cons,
                List.filterMap_append]
              congr 1
              cases item with
              | condition c => rfl
              | group n => exact ih n

theorem exists_treeAt_eq (f : Filter) (depth number : Nat) :
    ∃ junction items, f.treeAt depth number = .group junction items := by
  cases depth with
  | zero => exact ⟨_, _, by rw [treeAt]⟩
  | succ depth =>
      rw [treeAt]
      split
      · exact ⟨_, _, rfl⟩
      · exact ⟨_, _, rfl⟩

theorem map_snd_keyedAt (f : Filter) (depth : Nat) (key : String) (number : Nat) :
    (f.keyedAt depth key number).map Prod.snd = f.walkAt depth number := by
  induction depth generalizing key number with
  | zero => rfl
  | succ depth ih =>
      have hitems : ∀ groups items, (keyedItems (f.keyedAt depth) key groups items).map Prod.snd =
          items.flatMap (walkItem (f.walkAt depth)) := by
        intro groups items
        induction items generalizing groups with
        | nil => rfl
        | cons item rest ihRest =>
            cases item with
            | condition c => rw [keyedItems, List.map_cons, ihRest, List.flatMap_cons]; rfl
            | group n => rw [keyedItems, List.map_append, ih, ihRest, List.flatMap_cons]; rfl
      rw [keyedAt, List.map_cons, hitems, walkAt]

/-- The parameters of a group are those of everything that is met from it on. -/
theorem parameters_treeAt (f : Filter) (depth : Nat) (key : String) (number : Nat) :
    (f.treeAt depth number).parameters key = do
      return (← (f.keyedAt depth key number).mapM f.itemParameters).flatten := by
  induction depth generalizing key number with
  | zero =>
      simp only [treeAt, keyedAt, FilterTree.parameters, FilterTree.parametersOf]
      rfl
  | succ depth ih =>
      have hitems : ∀ groups items,
          FilterTree.parametersOf key groups (items.map (f.itemTree depth)) = do
            return (← (keyedItems (f.keyedAt depth) key groups items).mapM
              f.itemParameters).flatten := by
        intro groups items
        induction items generalizing groups with
        | nil => rfl
        | cons item rest ihRest =>
            cases item with
            | condition c =>
                rw [List.map_cons, itemTree, FilterTree.parametersOf, keyedItems, List.mapM_cons,
                  ihRest, itemParameters]
                simp
            | group n =>
                have hgroup := ih (key ++ "." ++ Numeral.ofNat (groups + 1)) n
                obtain ⟨junction, inner, heq⟩ := exists_treeAt_eq f depth n
                rw [heq] at hgroup
                rw [List.map_cons, itemTree, heq, FilterTree.parametersOf, keyedItems,
                  List.mapM_append, ihRest, hgroup]
                simp
      cases hg : f.groups[number]? with
      | none =>
          simp [treeAt, keyedAt, keyedItems, itemParameters, itemsAt, junctionAt, group?, hg,
            FilterTree.parameters, FilterTree.parametersOf, FilterTree.junctionParameter]
      | some g =>
          have hat : f.itemsAt number = g.items ∧ f.junctionAt number = g.junction := by
            simp [itemsAt, junctionAt, group?, hg]
          rw [treeAt_succ hg, FilterTree.parameters, hitems, keyedAt, List.mapM_cons,
            itemParameters, hat.1, hat.2, ok_bind]
          simp

end Walk

namespace Nested

variable {f : Filter} (h : Nested f.groups)

include h

/-- The groups in a group need less depth than the group. -/
theorem depth_of_mem_inner {depth number n : Nat} {g : FilterGroup}
    (hg : f.groups[number]? = some g) (hdepth : f.groups.length ≤ depth + 1 + number)
    (hn : n ∈ g.inner) : f.groups.length ≤ depth + n ∧ n < f.groups.length := by
  rw [h.mem_inner hg] at hn
  have hlt := h.lt_of_around? hn
  have hlength := lt_length_of_around? hn
  omega

/-- A greater bound on the depth makes no difference. -/
theorem treeAt_eq {depth deeper number : Nat} (hdepth : f.groups.length ≤ depth + number)
    (hdeeper : f.groups.length ≤ deeper + number) (hnumber : number < f.groups.length) :
    f.treeAt depth number = f.treeAt deeper number := by
  induction depth generalizing deeper number with
  | zero => omega
  | succ depth ih =>
      obtain ⟨deeper, rfl⟩ : ∃ d, deeper = d + 1 := ⟨deeper - 1, by omega⟩
      have hg := List.getElem?_eq_getElem hnumber
      rw [treeAt_succ hg, treeAt_succ hg]
      congr 1
      apply List.map_congr_left
      intro item hitem
      cases item with
      | condition c => rfl
      | group n =>
          have hn := FilterItem.mem_filterMap_group?.2 hitem
          obtain ⟨hdepth', hlt⟩ := h.depth_of_mem_inner hg hdepth hn
          obtain ⟨hdeeper', -⟩ := h.depth_of_mem_inner hg hdeeper hn
          exact ih hdepth' hdeeper' hlt

/-- What is met from a group on are the groups inside it. -/
theorem mem_numbers_walkAt {depth number n : Nat} (hdepth : f.groups.length ≤ depth + number)
    (hnumber : number < f.groups.length) :
    n ∈ numbers (f.walkAt depth number) ↔ Within f.groups n number := by
  induction depth generalizing number with
  | zero => omega
  | succ depth ih =>
      have hg := List.getElem?_eq_getElem hnumber
      rw [numbers_walkAt_succ hg, List.mem_cons, List.mem_flatMap, within_iff]
      refine or_congr Iff.rfl (exists_congr fun i => ?_)
      rw [← h.mem_inner hg]
      refine and_congr_right fun hi => ?_
      obtain ⟨hdepth', hlt⟩ := h.depth_of_mem_inner hg hdepth hi
      exact ih hdepth' hlt

/-- Different groups in one group have nothing in common. -/
theorem eq_of_within {number i j n : Nat} (hi : around? f.groups i = some number)
    (hj : around? f.groups j = some number) (hni : Within f.groups n i)
    (hnj : Within f.groups n j) : i = j := by
  have hself : ∀ {i j}, around? f.groups i = some number → around? f.groups j = some number →
      Within f.groups i j → i = j := by
    intro i j hi hj hwithin
    cases hwithin with
    | self _ => rfl
    | outward haround hbetween =>
        rw [hi] at haround
        cases haround
        have hle := h.le_of_within hbetween
        have hlt := h.lt_of_around? hj
        omega
  rcases hni.total hnj with hij | hji
  · exact hself hi hj hij
  · exact (hself hj hi hji).symm

theorem nodup_numbers_walkAt {depth number : Nat} (hdepth : f.groups.length ≤ depth + number)
    (hnumber : number < f.groups.length) : (numbers (f.walkAt depth number)).Nodup := by
  induction depth generalizing number with
  | zero => omega
  | succ depth ih =>
      have hg := List.getElem?_eq_getElem hnumber
      have hinner : ∀ i ∈ f.groups[number].inner,
          f.groups.length ≤ depth + i ∧ i < f.groups.length :=
        fun i hi => h.depth_of_mem_inner hg hdepth hi
      have hnodup : f.groups[number].inner.Nodup := by
        rw [h.inner number _ hg]
        exact List.nodup_range.filter _
      rw [numbers_walkAt_succ hg, List.nodup_cons, List.nodup_flatMap]
      refine ⟨?_, fun i hi => ih (hinner i hi).1 (hinner i hi).2, ?_⟩
      · intro hmem
        obtain ⟨i, hi, hmem⟩ := List.mem_flatMap.1 hmem
        rw [h.mem_numbers_walkAt (hinner i hi).1 (hinner i hi).2] at hmem
        have hle := h.le_of_within hmem
        have hlt := h.lt_of_around? ((h.mem_inner hg).1 hi)
        omega
      · refine hnodup.pairwise_of_forall_ne ?_
        intro i hi j hj hne n hni hnj
        rw [h.mem_numbers_walkAt (hinner i hi).1 (hinner i hi).2] at hni
        rw [h.mem_numbers_walkAt (hinner j hj).1 (hinner j hj).2] at hnj
        exact hne (h.eq_of_within ((h.mem_inner hg).1 hi) ((h.mem_inner hg).1 hj) hni hnj)

theorem root_lt : root < f.groups.length := by
  obtain ⟨g, hg, -⟩ := h.outermost
  exact (List.getElem?_eq_some_iff.1 hg).1

/-- Every group is met once. -/
theorem numbers_walk_perm : (numbers f.walk).Perm (List.range f.groups.length) := by
  refine (List.perm_ext_iff_of_nodup (h.nodup_numbers_walkAt (by omega) h.root_lt)
    List.nodup_range).2 fun n => ?_
  rw [h.mem_numbers_walkAt (by omega) h.root_lt, List.mem_range]
  refine ⟨fun hwithin => ?_, h.within_root⟩
  cases hwithin with
  | self _ => exact h.root_lt
  | outward haround _ => exact lt_length_of_around? haround

/-- The groups of the tree are those that are met. -/
theorem groups_treeAt {depth number : Nat} (hdepth : f.groups.length ≤ depth + number)
    (hnumber : number < f.groups.length) :
    (f.treeAt depth number).groups = (numbers (f.walkAt depth number)).map f.groupTree := by
  induction depth generalizing number with
  | zero => omega
  | succ depth ih =>
      have hg := List.getElem?_eq_getElem hnumber
      have hinner : ∀ n, FilterItem.group n ∈ f.groups[number].items →
          f.groups.length ≤ depth + n ∧ n < f.groups.length := fun n hn =>
        h.depth_of_mem_inner hg hdepth (FilterItem.mem_filterMap_group?.2 hn)
      have hgroup : (f.groups[number].junction, f.groups[number].items.map (f.itemTree depth)) =
          f.groupTree number := by
        simp only [groupTree, junctionAt, itemsAt, group?, hg, Option.map_some, Option.getD_some]
        congr 1
        apply List.map_congr_left
        intro item hitem
        cases item with
        | condition c => rfl
        | group n =>
            obtain ⟨hdepth', hlt⟩ := hinner n hitem
            exact h.treeAt_eq hdepth' (by omega) hlt
      have hitems : ∀ items : List FilterItem, (∀ n, .group n ∈ items →
          (f.treeAt depth n).groups = (numbers (f.walkAt depth n)).map f.groupTree) →
          FilterTree.groupsOf (items.map (f.itemTree depth)) =
            (numbers (items.flatMap (walkItem (f.walkAt depth)))).map f.groupTree := by
        intro items hitems
        induction items with
        | nil => rfl
        | cons item rest ihRest =>
            have hrest := ihRest fun n hn => hitems n (List.mem_cons_of_mem _ hn)
            rw [List.map_cons, FilterTree.groupsOf, hrest, List.flatMap_cons, numbers_append,
              List.map_append]
            congr 1
            cases item with
            | condition c => rfl
            | group n => exact hitems n List.mem_cons_self
      rw [treeAt_succ hg, walkAt_succ hg, FilterTree.groups, hgroup,
        hitems _ fun n hn => ih (hinner n hn).1 (hinner n hn).2]
      rfl

/-- The conditions inside a group are those in the groups inside it. -/
theorem mem_conditions_treeAt {depth number : Nat} {c : Condition}
    (hdepth : f.groups.length ≤ depth + number) (hnumber : number < f.groups.length) :
    c ∈ (f.treeAt depth number).conditions ↔ Contains f.groups number c := by
  induction depth generalizing number with
  | zero => omega
  | succ depth ih =>
      have hg := List.getElem?_eq_getElem hnumber
      have hmem : c ∈ (f.treeAt (depth + 1) number).conditions ↔
          .condition c ∈ f.groups[number].items ∨
            ∃ i ∈ f.groups[number].inner, c ∈ (f.treeAt depth i).conditions := by
        rw [treeAt_succ hg, FilterTree.conditions, FilterTree.mem_conditionsOf]
        simp only [List.mem_map, exists_exists_and_eq_and, FilterGroup.inner,
          FilterItem.mem_filterMap_group?]
        constructor
        · rintro ⟨item, hitem, hc⟩
          cases item with
          | condition d =>
              obtain rfl : c = d := by simpa [itemTree, FilterTree.conditions] using hc
              exact .inl hitem
          | group i => exact .inr ⟨i, hitem, hc⟩
        · rintro (hitem | ⟨i, hi, hc⟩)
          · exact ⟨_, hitem, by simp [itemTree, FilterTree.conditions]⟩
          · exact ⟨_, hi, hc⟩
      rw [hmem]
      constructor
      · rintro (hc | ⟨i, hi, hc⟩)
        · exact ⟨number, _, .self number, hg, hc⟩
        · obtain ⟨hdepth', hlt⟩ := h.depth_of_mem_inner hg hdepth hi
          obtain ⟨n, g, hwithin, hn, hc⟩ := (ih hdepth' hlt).1 hc
          exact ⟨n, g, within_iff.2 (.inr ⟨i, (h.mem_inner hg).1 hi, hwithin⟩), hn, hc⟩
      · rintro ⟨n, g, hwithin, hn, hc⟩
        rcases within_iff.1 hwithin with rfl | ⟨i, hi, hwithin⟩
        · rw [hg] at hn
          cases hn
          exact .inl hc
        · have hi' := (h.mem_inner hg).2 hi
          obtain ⟨hdepth', hlt⟩ := h.depth_of_mem_inner hg hdepth hi'
          exact .inr ⟨i, hi', (ih hdepth' hlt).2 ⟨n, g, hwithin, hn, hc⟩⟩

end Nested

/-- The filter is written along the way through it, the base path first. -/
theorem encode_eq_keyed (f : Filter) (key : String) :
    f.encode key = do
      return (f.basePath.toList.map fun path => (key ++ "@", path.text)) ++
        (← (f.keyed key).mapM f.itemParameters).flatten := by
  rw [encode, tree, parameters_treeAt, keyed]
  cases f.basePath <;> simp

end Filter

end ResourceQuery
