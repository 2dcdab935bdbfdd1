import ResourceQuery.Proofs.Filter.Encoding
import ResourceQuery.Proofs.Parameters
/-!
# Trees with numbered groups

A tree is written with numbers for the names of its groups. Clauses whose groups are named by numbers,
without gaps and in this order, declare a tree that is written as the same clauses
(`Declared.clauses_tree_perm`).
-/

namespace ResourceQuery

/-! ## Clauses without repetition -/

namespace FilterTree

theorem nodup_clausesOf {key : List String} {groups : Nat} {items : List FilterTree}
    (hconditions : (items.filterMap condition?).Nodup)
    (hinner : ∀ (i : Nat) (t : FilterTree), (innerGroups items)[i]? = some t →
      (t.clauses (key ++ [Numeral.ofNat (groups + i + 1)])).Nodup) :
    (clausesOf key groups items).Nodup := by
  induction items generalizing groups with
  | nil => exact List.nodup_nil
  | cons item rest ih =>
      cases item with
      | condition c =>
          rw [innerGroups_condition] at hinner
          have hcons : (condition c :: rest).filterMap condition? =
              c :: rest.filterMap condition? := rfl
          rw [hcons, List.nodup_cons] at hconditions
          rw [clausesOf, List.nodup_cons]
          refine ⟨?_, ih hconditions.2 hinner⟩
          intro hmem
          rcases mem_clausesOf.1 hmem with ⟨d, hd, heq⟩ | ⟨i, t, -, hx⟩
          · simp only [FilterClause.mk.injEq, ClauseContent.conditions.injEq, true_and,
              List.cons.injEq, and_true] at heq
            rw [heq] at hconditions
            exact hconditions.1 (mem_filterMap_condition?.2 hd)
          · exact key_ne_of_mem_clauses hx rfl
      | group junction inner =>
          rw [innerGroups_group] at hinner
          rw [clausesOf, List.nodup_append]
          refine ⟨hinner 0 _ rfl, ih hconditions ?_, ?_⟩
          · intro i t ht
            have := hinner (i + 1) t (by simpa using ht)
            rwa [show groups + (i + 1) + 1 = groups + 1 + i + 1 by omega] at this
          · rintro x hx y hy rfl
            rcases mem_clausesOf.1 hy with ⟨d, -, rfl⟩ | ⟨i, t, -, hy⟩
            · exact key_ne_of_mem_clauses hx rfl
            · have hsame := Numeral.ofNat_injective
                (segment_eq_of_mem_clauses hx (prefix_of_mem_clauses hy))
              omega

end FilterTree

/-! ## The groups inside a declared group -/

namespace PlacedItem

def key? : PlacedItem → Option (List String)
  | group (.key segments) => some segments
  | _ => none

def condition? : PlacedItem → Option Condition
  | condition c => some c
  | _ => none

theorem eq_of_key? {item : PlacedItem} {segments : List String}
    (h : item.key? = some segments) : item = group (.key segments) := by
  cases item with
  | condition c => cases h
  | group place =>
      cases place with
      | key inner =>
          cases h
          rfl
      | alternatives number => cases h

end PlacedItem

/-- The clause makes its group a disjunction, or is about one condition. -/
def FilterClause.IsSingle (x : FilterClause) : Prop :=
  x = ⟨x.key, .junction .disjunction⟩ ∨ ∃ c, x = ⟨x.key, .conditions [c]⟩

namespace Declared

/-- The keys of the groups inside the group with a key, in the order in which they are opened. -/
def innerKeys (clauses : List FilterClause) (key : List String) : List (List String) :=
  (items clauses (.key key)).filterMap PlacedItem.key?

/-- The groups inside every group are named by numbers, in the order of the numbers. -/
def Numbered (clauses : List FilterClause) : Prop :=
  ∀ key, key ≠ [] → ∃ count, innerKeys clauses key =
    (List.range count).map fun i => key ++ [Numeral.ofNat (i + 1)]

theorem mem_innerKeys {clauses : List FilterClause} {key inner : List String} :
    inner ∈ innerKeys clauses key ↔
      ∃ segment, inner = key ++ [segment] ∧ ∃ c ∈ clauses, inner <+: c.key := by
  have hiff : inner ∈ innerKeys clauses key ↔
      .group (.key inner) ∈ itemsFrom key [] clauses := by
    rw [innerKeys, List.mem_filterMap]
    constructor
    · rintro ⟨item, hitem, hkey⟩
      obtain rfl := PlacedItem.eq_of_key? hkey
      exact hitem
    · intro hitem
      exact ⟨_, hitem, rfl⟩
  rw [hiff, key_mem_itemsFrom]
  simp

/-- Groups are opened in the order of the clauses that need them first. -/
theorem pairwise_innerKeys {clauses : List FilterClause} {R : FilterClause → FilterClause → Prop}
    (h : clauses.Pairwise R) (key : List String) :
    (innerKeys clauses key).Pairwise fun a b =>
      a ≠ b ∧ ∃ x ∈ clauses, ∃ y ∈ clauses, R x y ∧ a <+: x.key ∧ b <+: y.key := by
  have hfrom : ∀ before,
      ((itemsFrom key before clauses).filterMap PlacedItem.key?).Pairwise fun a b =>
        a ≠ b ∧ ∃ x ∈ clauses, ∃ y ∈ clauses, R x y ∧ a <+: x.key ∧ b <+: y.key := by
    induction clauses with
    | nil => exact fun _ => List.Pairwise.nil
    | cons c rest ih =>
        intro before
        rw [List.pairwise_cons] at h
        have hrest := ih h.2 (before ++ [c])
        have hput : (c.put before.length key).filterMap PlacedItem.key? = [] := by
          obtain ⟨clauseKey, content⟩ := c
          unfold FilterClause.put
          split
          · cases content with
            | junction j => rfl
            | conditions conditions => simp [List.filterMap_map, Function.comp_def, PlacedItem.key?]
            | alternatives conditions => rfl
          · rfl
        rw [itemsFrom, List.filterMap_append, List.filterMap_append, hput, List.append_nil,
          List.pairwise_append]
        refine ⟨?_, ?_, ?_⟩
        · unfold FilterClause.opened
          simp only
          split
          · exact List.pairwise_singleton _ _
          · exact List.Pairwise.nil
        · refine hrest.imp ?_
          rintro a b ⟨hne, x, hx, y, hy, hxy⟩
          exact ⟨hne, x, by simp [hx], y, by simp [hy], hxy⟩
        · intro a ha b hb
          obtain ⟨item, hitem, hkey⟩ := List.mem_filterMap.1 ha
          obtain ⟨segment, rfl, hunder, -⟩ := mem_opened.1 hitem
          obtain rfl : key ++ [segment] = a := by simpa [PlacedItem.key?] using hkey
          obtain ⟨item, hitem, hkey⟩ := List.mem_filterMap.1 hb
          obtain rfl := PlacedItem.eq_of_key? hkey
          obtain ⟨other, rfl, ⟨y, hy, hy'⟩, hfirst⟩ := key_mem_itemsFrom.1 hitem
          refine ⟨?_, c, by simp, y, by simp [hy], h.1 y hy, hunder, hy'⟩
          intro heq
          exact hfirst ⟨c, by simp, heq ▸ hunder⟩
  exact hfrom []

/-! ## Clauses of the declared tree -/

theorem conditions_itemsFrom (key : List String) (before clauses : List FilterClause) :
    (itemsFrom key before clauses).filterMap PlacedItem.condition? =
      clauses.flatMap fun x => if x.key = key then
        match x.content with
        | .conditions conditions => conditions
        | _ => []
      else [] := by
  induction clauses generalizing before with
  | nil => rfl
  | cons c rest ih =>
      have hopened : (c.opened before key).filterMap PlacedItem.condition? = [] := by
        unfold FilterClause.opened
        simp only
        split
        · rfl
        · rfl
      rw [itemsFrom, List.filterMap_append, List.filterMap_append, hopened, ih, List.flatMap_cons,
        List.nil_append]
      congr 1
      unfold FilterClause.put
      split
      · cases c.content with
        | junction j => rfl
        | conditions conditions => simp [List.filterMap_map, Function.comp_def, PlacedItem.condition?]
        | alternatives conditions => rfl
      · rfl

theorem condition?_tree (clauses : List FilterClause) (depth : Nat) (key : List String) :
    (tree clauses depth key).condition? = none := by
  cases depth <;> rfl

variable {clauses : List FilterClause} (hsingle : ∀ x ∈ clauses, x.IsSingle)

include hsingle

theorem not_alternatives {key : List String} {number : Nat} :
    PlacedItem.group (.alternatives number) ∉ items clauses (.key key) := by
  intro h
  obtain ⟨i, conditions, -, hi⟩ := alternatives_mem_itemsFrom.1 h
  rcases hsingle _ (List.mem_of_getElem? hi) with heq | ⟨c, heq⟩
  · cases heq
  · cases heq

theorem innerGroups_items {key : List String} {below : List String → FilterTree}
    (hbelow : ∀ key, (below key).condition? = none) :
    FilterTree.innerGroups ((items clauses (.key key)).map (itemTree clauses below)) =
      (innerKeys clauses key).map below := by
  have hnone : ∀ number, PlacedItem.group (.alternatives number) ∉ items clauses (.key key) :=
    fun _ => not_alternatives hsingle
  rw [innerKeys]
  revert hnone
  induction items clauses (.key key) with
  | nil => exact fun _ => rfl
  | cons item rest ih =>
      intro hnone
      have hrest := ih fun number hmem => hnone number (List.mem_cons_of_mem _ hmem)
      match item, hnone with
      | .condition c, _ =>
        rw [FilterTree.innerGroups] at hrest ⊢
        rw [List.map_cons, List.filter_cons_of_neg (by simp [itemTree, FilterTree.condition?]), hrest,
          List.filterMap_cons_none rfl]
      | .group (.key inner), _ =>
        rw [FilterTree.innerGroups] at hrest ⊢
        rw [List.map_cons, List.filter_cons_of_pos (by simp [itemTree, hbelow]), hrest]
        rfl
      | .group (.alternatives number), hnone => exact absurd (by simp) (hnone number)

theorem getElem?_innerGroups {key : List String} {below : List String → FilterTree}
    (hbelow : ∀ key, (below key).condition? = none) {count : Nat}
    (hcount : innerKeys clauses key = (List.range count).map fun i => key ++ [Numeral.ofNat (i + 1)])
    {i : Nat} {t : FilterTree} :
    (FilterTree.innerGroups ((items clauses (.key key)).map (itemTree clauses below)))[i]? = some t ↔
      i < count ∧ t = below (key ++ [Numeral.ofNat (i + 1)]) := by
  rw [innerGroups_items hsingle hbelow, hcount, List.map_map, List.getElem?_map]
  rcases Nat.lt_or_ge i count with hi | hi
  · simp [hi, eq_comm]
  · rw [List.getElem?_eq_none (by simpa using hi)]
    simp [Nat.not_lt.2 hi]

theorem conditions_items {key : List String} (below : List String → FilterTree)
    (hbelow : ∀ key, (below key).condition? = none) :
    ((items clauses (.key key)).map (itemTree clauses below)).filterMap FilterTree.condition? =
      (items clauses (.key key)).filterMap PlacedItem.condition? := by
  rw [List.filterMap_map]
  refine List.filterMap_congr fun item hitem => ?_
  match item with
  | .condition c => rfl
  | .group (.key inner) => exact hbelow inner
  | .group (.alternatives number) => exact absurd hitem (not_alternatives hsingle)

/-- The conditions of a group are those that a clause with its key is about. -/
theorem mem_conditions_items {key : List String} {c : Condition} :
    c ∈ (items clauses (.key key)).filterMap PlacedItem.condition? ↔
      ⟨key, .conditions [c]⟩ ∈ clauses := by
  rw [items, conditions_itemsFrom, List.mem_flatMap]
  constructor
  · rintro ⟨y, hy, hc⟩
    split at hc
    · rename_i hykey
      rcases hsingle y hy with heq | ⟨d, heq⟩
      · rw [heq] at hc
        cases hc
      · rw [heq] at hc
        obtain rfl : c = d := by simpa using hc
        rwa [← hykey, ← heq]
    · cases hc
  · intro hc
    exact ⟨_, hc, by simp⟩

theorem nodup_conditions (hnodup : clauses.Nodup) (key : List String) :
    ((items clauses (.key key)).filterMap PlacedItem.condition?).Nodup := by
  rw [items, conditions_itemsFrom]
  induction clauses with
  | nil => exact List.nodup_nil
  | cons x rest ih =>
      rw [List.nodup_cons] at hnodup
      have hrest := ih (fun y hy => hsingle y (by simp [hy])) hnodup.2
      rw [List.flatMap_cons]
      split
      · rename_i hkey
        rcases hsingle x (by simp) with heq | ⟨c, heq⟩
        · rw [heq]
          exact hrest
        · rw [heq, List.singleton_append, List.nodup_cons]
          refine ⟨?_, hrest⟩
          intro hmem
          rw [← conditions_itemsFrom, ← items,
            mem_conditions_items fun y hy => hsingle y (by simp [hy])] at hmem
          rw [heq, hkey] at hnodup
          exact hnodup.1 hmem
      · exact hrest

/-- A group is a disjunction when a clause says so. -/
theorem junction_eq_disjunction_iff (key : List String) :
    junction clauses (.key key) = .disjunction ↔ ⟨key, .junction .disjunction⟩ ∈ clauses := by
  have honly : ∀ j, ⟨key, .junction j⟩ ∈ clauses → j = .disjunction := by
    intro j hj
    rcases hsingle _ hj with heq | ⟨c, heq⟩
    · simpa using heq
    · cases heq
  by_cases hmem : (⟨key, .junction .disjunction⟩ : FilterClause) ∈ clauses
  · have hdisjunction : junction clauses (.key key) = .disjunction :=
      junction_eq fun j => ⟨fun hj => ⟨honly j hj, rfl⟩, fun hj => hj.1 ▸ hmem⟩
    simp [hdisjunction, hmem]
  · have hconjunction : junction clauses (.key key) = .conjunction :=
      junction_eq fun j => iff_of_false (fun hj => hmem (honly j hj ▸ hj)) (by simp)
    simp [hconjunction, hmem]

/-- The clauses that the declared tree of a key is written as are those below the key. -/
theorem mem_clauses_tree (hnumbered : Numbered clauses) {depth : Nat} {key : List String}
    (hkey : key ≠ []) (hdeep : ∀ c ∈ clauses, c.key.length < depth + key.length)
    {x : FilterClause} :
    x ∈ (tree clauses depth key).clauses key ↔ x ∈ clauses ∧ key <+: x.key := by
  induction depth generalizing key with
  | zero =>
      have hnone : x ∉ (tree clauses 0 key).clauses key := by
        simp [tree, FilterTree.clauses, FilterTree.junctionClauses, FilterTree.clausesOf]
      refine iff_of_false hnone ?_
      rintro ⟨hx, hunder⟩
      have := hdeep x hx
      have := hunder.length_le
      omega
  | succ depth ih =>
      have hbelow := condition?_tree clauses depth
      obtain ⟨count, hcount⟩ := hnumbered key hkey
      have hinner := fun i t => getElem?_innerGroups hsingle hbelow hcount (i := i) (t := t)
      have hcondition : ∀ c, FilterTree.condition c ∈ (items clauses (.key key)).map
          (itemTree clauses (tree clauses depth)) ↔ ⟨key, .conditions [c]⟩ ∈ clauses := by
        intro c
        rw [← FilterTree.mem_filterMap_condition?, conditions_items hsingle _ hbelow,
          mem_conditions_items hsingle]
      have hjunction := junction_eq_disjunction_iff hsingle key
      rw [tree, FilterTree.mem_clauses_group, hjunction]
      constructor
      · rintro (⟨hj, rfl⟩ | ⟨c, hc, rfl⟩ | ⟨i, t, ht, hx⟩)
        · exact ⟨hj, List.prefix_rfl⟩
        · exact ⟨(hcondition c).1 hc, List.prefix_rfl⟩
        · obtain ⟨hi, rfl⟩ := (hinner i t).1 ht
          obtain ⟨hmem, hunder⟩ := (ih (by simp) fun c hc => by
            have := hdeep c hc
            simp only [List.length_append, List.length_singleton]
            omega).1 hx
          exact ⟨hmem, (List.prefix_append _ _).trans hunder⟩
      · rintro ⟨hx, hunder⟩
        by_cases hown : x.key = key
        · subst hown
          rcases hsingle x hx with heq | ⟨c, heq⟩
          · exact .inl ⟨heq ▸ hx, heq⟩
          · exact .inr (.inl ⟨c, (hcondition c).2 (heq ▸ hx), heq⟩)
        · obtain ⟨tail, htail⟩ := hunder
          cases tail with
          | nil => exact absurd (by simpa using htail.symm) hown
          | cons segment rest =>
              have hsegment : key ++ [segment] <+: x.key := ⟨rest, by simp [← htail]⟩
              have hmem := mem_innerKeys.2 ⟨segment, rfl, x, hx, hsegment⟩
              rw [hcount, List.mem_map] at hmem
              obtain ⟨i, hi, heq⟩ := hmem
              refine .inr (.inr ⟨i, _, (hinner i _).2 ⟨List.mem_range.1 hi, rfl⟩, ?_⟩)
              rw [heq]
              refine (ih (by simp) fun c hc => ?_).2 ⟨hx, hsegment⟩
              have := hdeep c hc
              simp only [List.length_append, List.length_singleton]
              omega

theorem nodup_clauses_tree (hnumbered : Numbered clauses) (hnodup : clauses.Nodup) {depth : Nat}
    {key : List String} (hkey : key ≠ []) : ((tree clauses depth key).clauses key).Nodup := by
  induction depth generalizing key with
  | zero => exact List.nodup_nil
  | succ depth ih =>
      have hbelow := condition?_tree clauses depth
      obtain ⟨count, hcount⟩ := hnumbered key hkey
      have hitems : (FilterTree.clausesOf key 0 ((items clauses (.key key)).map
          (itemTree clauses (tree clauses depth)))).Nodup := by
        apply FilterTree.nodup_clausesOf
        · rw [conditions_items hsingle _ hbelow]
          exact nodup_conditions hsingle hnodup key
        · intro i t ht
          obtain ⟨-, rfl⟩ := (getElem?_innerGroups hsingle hbelow hcount).1 ht
          rw [Nat.zero_add]
          exact ih (by simp)
      rw [tree, FilterTree.clauses]
      cases hjunction : junction clauses (.key key) with
      | conjunction => exact hitems
      | disjunction =>
          rw [FilterTree.junctionClauses, List.singleton_append, List.nodup_cons]
          refine ⟨?_, hitems⟩
          intro hmem
          rcases FilterTree.mem_clausesOf.1 hmem with ⟨c, -, heq⟩ | ⟨i, t, -, hx⟩
          · cases heq
          · exact FilterTree.key_ne_of_mem_clauses hx rfl

/-- Clauses whose groups are numbered declare a tree that is written as them. -/
theorem clauses_tree_perm (hnumbered : Numbered clauses) (hnodup : clauses.Nodup) {depth : Nat}
    {root : String} (hroot : ∀ c ∈ clauses, [root] <+: c.key)
    (hdeep : ∀ c ∈ clauses, c.key.length ≤ depth) :
    ((tree clauses depth [root]).clauses [root]).Perm clauses := by
  have hne : [root] ≠ [] := by simp
  rw [List.perm_ext_iff_of_nodup (nodup_clauses_tree hsingle hnumbered hnodup hne) hnodup]
  intro x
  rw [mem_clauses_tree hsingle hnumbered hne fun c hc => by
    have := hdeep c hc
    simp only [List.length_singleton]
    omega]
  exact ⟨fun h => h.1, fun h => ⟨h, hroot x h⟩⟩

end Declared

/-! ## Trees that are read as they were written -/

namespace FilterTree

mutual

/-- How deep the groups of a tree nest. -/
def depth : FilterTree → Nat
  | condition _ => 0
  | group _ items => depthOf items + 1

def depthOf : List FilterTree → Nat
  | [] => 0
  | item :: rest => max item.depth (depthOf rest)

end

theorem depth_le_depthOf {items : List FilterTree} {item : FilterTree} (h : item ∈ items) :
    item.depth ≤ depthOf items := by
  induction items with
  | nil => cases h
  | cons first rest ih =>
      rw [depthOf]
      rcases List.mem_cons.1 h with rfl | h
      · exact Nat.le_max_left _ _
      · exact Nat.le_trans (ih h) (Nat.le_max_right _ _)

theorem length_key_lt {t : FilterTree} (hgroup : t.condition? = none) {key : List String}
    {x : FilterClause} (h : x ∈ t.clauses key) : x.key.length < key.length + t.depth := by
  induction t using induct generalizing key with
  | condition c => cases hgroup
  | group junction items ih =>
      rw [depth]
      by_cases hown : x.key = key
      · rw [hown]
        omega
      · obtain ⟨tail, htail⟩ := prefix_of_mem_clauses h
        cases tail with
        | nil => exact absurd (by simpa using htail.symm) hown
        | cons segment rest =>
            have hunder : key ++ [segment] <+: x.key := ⟨rest, by simp [← htail]⟩
            obtain ⟨i, t, ht, -, hx⟩ := (mem_clauses_inner hunder).1 h
            obtain ⟨hmem, hnone⟩ := mem_innerGroups.1 (List.mem_of_getElem? ht)
            have hlength := ih t hmem hnone hx
            have hle := depth_le_depthOf hmem
            rw [List.length_append, List.length_singleton] at hlength
            omega

theorem groups_subset {junction : Junction} {items : List FilterTree} {item : FilterTree}
    (h : item ∈ items) {g : Junction × List FilterTree} (hg : g ∈ item.groups) :
    g ∈ (group junction items).groups := by
  rw [groups, List.mem_cons, mem_groupsOf]
  exact .inr ⟨item, h, hg⟩

/-- No group that is written stands behind one that is not, and the numbers of those that are have
one digit. -/
def KeepsNumbers (items : List FilterTree) : Prop :=
  ∃ written silent, written ≤ 9 ∧
    (innerGroups items).map isSilent = List.replicate written false ++ List.replicate silent true

theorem KeepsNumbers.isSilent_iff {items : List FilterTree} (h : KeepsNumbers items) :
    ∃ written ≤ 9, written ≤ (innerGroups items).length ∧
      ∀ (i : Nat) (t : FilterTree), (innerGroups items)[i]? = some t →
        (t.isSilent = false ↔ i < written) := by
  obtain ⟨written, silent, hdigit, hsilent⟩ := h
  refine ⟨written, hdigit, ?_, ?_⟩
  · have hlength := congrArg List.length hsilent
    simp only [List.length_map, List.length_append, List.length_replicate] at hlength
    omega
  · intro i t ht
    have hown := congrArg (fun flags => flags[i]?) hsilent
    simp only [List.getElem?_map, ht, Option.map_some, List.getElem?_append, List.length_replicate,
      List.getElem?_replicate] at hown
    by_cases hi : i < written
    · simpa [hi] using hown
    · simp only [hi, if_false] at hown
      split at hown
      · simpa [hi] using hown
      · cases hown

/-- The groups below a key that are written are numbered from one on. -/
theorem exists_numbers {t : FilterTree} (h : ∀ g ∈ t.groups, KeepsNumbers g.2)
    {key inner : List String} (hinner : key <+: inner) :
    ∃ count ≤ 9, ∀ segment, (∃ x ∈ t.clauses key, inner ++ [segment] <+: x.key) ↔
      ∃ i < count, segment = Numeral.ofNat (i + 1) := by
  induction t using induct generalizing key with
  | condition c =>
      refine ⟨0, by omega, fun segment => iff_of_false ?_ (by simp)⟩
      rintro ⟨x, hx, hunder⟩
      obtain rfl : x = ⟨key, .conditions [c]⟩ := by simpa [clauses] using hx
      have hlength := hunder.length_le
      have := hinner.length_le
      simp only [List.length_append, List.length_singleton] at hlength
      omega
  | group junction items ih =>
      obtain ⟨tail, rfl⟩ := hinner
      cases tail with
      | nil =>
          obtain ⟨written, hdigit, hlength, hsilent⟩ :=
            (h (junction, items) (by simp [groups])).isSilent_iff
          refine ⟨written, hdigit, fun segment => ?_⟩
          rw [List.append_nil]
          constructor
          · rintro ⟨x, hx, hunder⟩
            obtain ⟨i, t, ht, hsegment, hx⟩ := (mem_clauses_inner hunder).1 hx
            exact ⟨i, (hsilent i t ht).1 ((isSilent_eq_false_iff _).2 ⟨x, hx⟩), hsegment⟩
          · rintro ⟨i, hi, rfl⟩
            have ht := List.getElem?_eq_getElem (Nat.lt_of_lt_of_le hi hlength)
            obtain ⟨x, hx⟩ := (isSilent_eq_false_iff (key ++ [Numeral.ofNat (i + 1)])).1
              ((hsilent i _ ht).2 hi)
            have hunder := prefix_of_mem_clauses hx
            exact ⟨x, (mem_clauses_of_innerGroups ht hunder).2 hx, hunder⟩
      | cons segment rest =>
          -- the groups below another group than those inside are none
          by_cases hinside : ∃ (i : Nat) (t : FilterTree), (innerGroups items)[i]? = some t ∧
              segment = Numeral.ofNat (i + 1)
          · obtain ⟨i, t, ht, rfl⟩ := hinside
            have hmem := (mem_innerGroups.1 (List.mem_of_getElem? ht)).1
            have hkey : key ++ Numeral.ofNat (i + 1) :: rest =
                (key ++ [Numeral.ofNat (i + 1)]) ++ rest := by simp
            obtain ⟨count, hdigit, hcount⟩ := ih t hmem
              (fun g hg => h g (groups_subset hmem hg)) (hkey ▸ List.prefix_append _ rest)
            refine ⟨count, hdigit, fun other => ?_⟩
            rw [← hcount, hkey]
            constructor
            · rintro ⟨x, hx, hunder⟩
              have hgroup := ((List.prefix_append _ rest).trans (List.prefix_append _ _)).trans hunder
              exact ⟨x, (mem_clauses_of_innerGroups ht hgroup).1 hx, hunder⟩
            · rintro ⟨x, hx, hunder⟩
              exact ⟨x, (mem_clauses_of_innerGroups ht (prefix_of_mem_clauses hx)).2 hx, hunder⟩
          · refine ⟨0, by omega, fun other => iff_of_false ?_ (by simp)⟩
            rintro ⟨x, hx, hunder⟩
            have hsegment : key ++ [segment] <+: x.key := by
              refine List.IsPrefix.trans ?_ hunder
              exact ⟨rest ++ [other], by simp⟩
            obtain ⟨i, t, ht, hsegment, -⟩ := (mem_clauses_inner hsegment).1 hx
            exact hinside ⟨i, t, ht, hsegment⟩

end FilterTree

/-! ## Clauses in the order of their names -/

namespace FilterClause

/-- The part of the name of a clause's parameters behind the group. -/
def suffix (x : FilterClause) : String :=
  match x.content with
  | .junction _ => ""
  | .conditions conditions | .alternatives conditions =>
    (conditions.head?.map Condition.suffix).getD ""

/-- The name of the parameters of a clause. -/
def name (x : FilterClause) : String := Text.join "." x.key ++ "$" ++ x.suffix

end FilterClause

theorem toList_join_append {key : List String} (hkey : key ≠ []) (more : List String) :
    (Text.join "." (key ++ more)).toList =
      (Text.join "." key).toList ++ more.flatMap fun segment => '.' :: segment.toList := by
  cases key with
  | nil => exact absurd rfl hkey
  | cons first others =>
      rw [List.cons_append, Text.toList_join_cons, Text.toList_join_cons, List.flatMap_append,
        List.append_assoc]
      rfl

theorem lt_of_append_lt {front a b : List Char} (h : front ++ a < front ++ b) : a < b := by
  induction front with
  | nil => exact h
  | cons c rest ih =>
      rw [List.cons_append, List.cons_append, List.cons_lt_cons_iff] at h
      rcases h with hless | ⟨-, hless⟩
      · exact absurd hless (Char.lt_irrefl c)
      · exact ih hless

/-- Numbers of one digit are in the order of their texts. -/
theorem le_of_name_lt {x y : FilterClause} {key : List String} (hkey : key ≠ []) {i j : Nat}
    (hi : i < 9) (hj : j < 9) (hx : key ++ [Numeral.ofNat (i + 1)] <+: x.key)
    (hy : key ++ [Numeral.ofNat (j + 1)] <+: y.key) (h : x.name < y.name) : i ≤ j := by
  have hdigit : ∀ i < 9, ∃ c, Numeral.digits (i + 1) = [c] ∧ c.toNat = 49 + i := by
    have hall : ∀ i : Fin 9, Numeral.digits (i + 1) = [Char.ofNat (49 + i)] ∧
        (Char.ofNat (49 + i)).toNat = 49 + i := by decide
    exact fun i hi => ⟨_, hall ⟨i, hi⟩⟩
  have hname : ∀ (x : FilterClause) (segment : String), key ++ [segment] <+: x.key →
      ∃ rest, x.name.toList = (Text.join "." key).toList ++ '.' :: (segment.toList ++ rest) := by
    rintro x segment ⟨rest, hrest⟩
    rw [List.append_assoc] at hrest
    refine ⟨(rest.flatMap fun segment => '.' :: segment.toList) ++ ("$" ++ x.suffix).toList, ?_⟩
    rw [FilterClause.name, ← hrest, String.append_assoc, String.toList_append,
      toList_join_append hkey]
    simp
  obtain ⟨c, hc, hci⟩ := hdigit i hi
  obtain ⟨d, hd, hdj⟩ := hdigit j hj
  obtain ⟨restx, hxname⟩ := hname x _ hx
  obtain ⟨resty, hyname⟩ := hname y _ hy
  rw [String.lt_iff, hxname, hyname] at h
  have hless := lt_of_append_lt h
  rw [List.cons_lt_cons_iff] at hless
  simp only [Numeral.ofNat, String.toList_ofList, hc, hd, List.singleton_append,
    List.cons_lt_cons_iff] at hless
  rcases hless with hless | ⟨-, hless | ⟨heq, -⟩⟩
  · exact absurd hless (Char.lt_irrefl _)
  · have hnat : c.toNat < d.toNat := hless
    omega
  · subst heq
    omega

/-- Clauses in the order of their names, with no more than nine groups inside each, are numbered. -/
theorem Declared.numbered_of_sorted {clauses : List FilterClause}
    (hsorted : clauses.Pairwise fun x y => x.name < y.name)
    (hnumbers : ∀ key : List String, key ≠ [] → ∃ count ≤ 9, ∀ segment,
      (∃ x ∈ clauses, key ++ [segment] <+: x.key) ↔ ∃ i < count, segment = Numeral.ofNat (i + 1)) :
    Numbered clauses := by
  intro key hkey
  obtain ⟨count, hdigit, hcount⟩ := hnumbers key hkey
  refine ⟨count, ?_⟩
  have hmem : ∀ inner, inner ∈ innerKeys clauses key ↔
      ∃ i < count, inner = key ++ [Numeral.ofNat (i + 1)] := by
    intro inner
    rw [mem_innerKeys]
    constructor
    · rintro ⟨segment, rfl, hsome⟩
      obtain ⟨i, hi, rfl⟩ := (hcount segment).1 hsome
      exact ⟨i, hi, rfl⟩
    · rintro ⟨i, hi, rfl⟩
      exact ⟨_, rfl, (hcount _).2 ⟨i, hi, rfl⟩⟩
  have hinjective : ∀ i j, key ++ [Numeral.ofNat (i + 1)] = key ++ [Numeral.ofNat (j + 1)] →
      i = j := by
    intro i j heq
    have := Numeral.ofNat_injective (n := i + 1) (m := j + 1) (by simpa using heq)
    omega
  have hordered : (innerKeys clauses key).Pairwise fun a b =>
      ∃ i j, i < j ∧ a = key ++ [Numeral.ofNat (i + 1)] ∧ b = key ++ [Numeral.ofNat (j + 1)] := by
    refine (pairwise_innerKeys hsorted key).imp_of_mem ?_
    rintro a b ha hb ⟨hne, x, -, y, -, hname, hax, hby⟩
    obtain ⟨i, hi, rfl⟩ := (hmem a).1 ha
    obtain ⟨j, hj, rfl⟩ := (hmem b).1 hb
    have hle := le_of_name_lt hkey (by omega) (by omega) hax hby hname
    have hdistinct : i ≠ j := by
      rintro rfl
      exact hne rfl
    exact ⟨i, j, by omega, rfl, rfl⟩
  have hrange : ((List.range count).map fun i => key ++ [Numeral.ofNat (i + 1)]).Pairwise fun a b =>
      ∃ i j, i < j ∧ a = key ++ [Numeral.ofNat (i + 1)] ∧ b = key ++ [Numeral.ofNat (j + 1)] := by
    rw [List.pairwise_map]
    exact List.pairwise_lt_range.imp fun {i j} hij => ⟨i, j, hij, rfl, rfl⟩
  have hirreflexive : ∀ a b : List String,
      (∃ i j, i < j ∧ a = key ++ [Numeral.ofNat (i + 1)] ∧ b = key ++ [Numeral.ofNat (j + 1)]) →
      a ≠ b := by
    rintro a b ⟨i, j, hij, rfl, rfl⟩ heq
    have := hinjective i j heq
    omega
  have hperm := (List.perm_ext_iff_of_nodup (hordered.imp (hirreflexive _ _))
    (hrange.imp (hirreflexive _ _))).2 fun inner => by
      rw [hmem]
      simp [eq_comm]
  refine hperm.eq_of_pairwise ?_ hordered hrange
  rintro a b - - ⟨i, j, hij, rfl, rfl⟩ ⟨j', i', hji, hj, hi⟩
  have := hinjective _ _ hj
  have := hinjective _ _ hi
  omega

end ResourceQuery
