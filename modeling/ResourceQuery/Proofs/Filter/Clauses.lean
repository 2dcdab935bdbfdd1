import ResourceQuery.Compile.Filter
import ResourceQuery.Filter.Tree
/-!
# Clauses of filters and the tree they declare

A clause is an entry of a filter whose qualifiers, paths and operands are read. The tree that
clauses declare is said here without numbers: a group for every key in front of the key of a clause,
and for every clause with alternatives a group of its own. Its truth does not depend on the order of
the clauses (`holds_declared_perm`).
-/

namespace ResourceQuery

/-! ## Truth of a filter tree -/

/-- The junction of truth values. -/
def Junction.holds : Junction → List Bool → Bool
  | conjunction, values => values.all id
  | disjunction, values => values.any id

/-- The truth value that decides a junction where it occurs. -/
def Junction.decisive : Junction → Bool
  | conjunction => false
  | disjunction => true

theorem Junction.holds_eq_decisive_iff {j : Junction} {values : List Bool} :
    j.holds values = j.decisive ↔ j.decisive ∈ values := by
  cases j <;> simp [holds, decisive]

theorem bool_eq_of_iff {x y : Bool} (b : Bool) (h : x = b ↔ y = b) : x = y := by
  revert h
  cases x <;> cases y <;> cases b <;> decide

theorem Junction.holds_congr {j : Junction} {values others : List Bool}
    (h : j.decisive ∈ values ↔ j.decisive ∈ others) : j.holds values = j.holds others :=
  bool_eq_of_iff j.decisive (holds_eq_decisive_iff.trans (h.trans holds_eq_decisive_iff.symm))

namespace FilterTree

mutual

/-- The truth of a tree, given that of its conditions. -/
def holds (v : Condition → Bool) : FilterTree → Bool
  | condition c => v c
  | group junction items => junction.holds (holdsOf v items)

def holdsOf (v : Condition → Bool) : List FilterTree → List Bool
  | [] => []
  | item :: rest => item.holds v :: holdsOf v rest

end

theorem holdsOf_eq_map (v : Condition → Bool) (items : List FilterTree) :
    holdsOf v items = items.map (holds v) := by
  induction items with
  | nil => rfl
  | cons item rest ih => simp only [holdsOf, List.map_cons, ih]

theorem holds_group (v : Condition → Bool) (junction : Junction) (items : List FilterTree) :
    (group junction items).holds v = junction.holds (items.map (holds v)) := by
  rw [holds, holdsOf_eq_map]

end FilterTree

/-- The truth of a filter, given that of its conditions. -/
def Filter.holds (v : Condition → Bool) (f : Filter) : Bool := f.tree.holds v

/-! ## Clauses -/

/-- What is said of a group: its junction, conditions in it, or conditions of which one has to
hold. -/
inductive ClauseContent
  | junction (junction : Junction)
  | conditions (conditions : List Condition)
  | alternatives (conditions : List Condition)

structure FilterClause where
  key : List String
  content : ClauseContent

namespace FilterEntry

/-- The conditions that a condition text stands for, one for each path. -/
def conditions? (s : Schema) (config : Configuration) (scope : String) (e : FilterEntry)
    (text : ConditionText) : Option (List Condition) := do
  let reading ← (Qualifier.ofCondition text.qualifiers).toOption
  let (test, operands) ← (Filter.testAndOperands e.name reading.test e.values).toOption
  guard (operands.length ≤ config.maxOperands)
  text.paths.mapM fun path =>
    (Filter.makeCondition s scope path.path { reading.options with negated := text.negated } test
      operands).toOption

def content? (s : Schema) (config : Configuration) (scope : String) (e : FilterEntry) :
    Option ClauseContent :=
  match e.content with
  | .junction => do
    let value ← (FilterParameters.singleValue e.name e.values).toOption
    return .junction (← (Filter.junctionOf e.group value).toOption)
  | .condition text => do
    let conditions ← e.conditions? s config scope text
    return if 1 < text.paths.length then .alternatives conditions else .conditions conditions

/-- The clause that an entry is; nothing if the entry cannot be read. -/
def clause? (s : Schema) (config : Configuration) (scope : String) (e : FilterEntry) :
    Option FilterClause := do
  guard (e.group.depth ≤ config.maxGroupDepth)
  return ⟨e.group.segments, ← e.content? s config scope⟩

/-- Only a junction entry gives a junction. -/
theorem content_of_content?_junction {s : Schema} {config : Configuration} {scope : String}
    {e : FilterEntry} {j : Junction} (h : e.content? s config scope = some (.junction j)) :
    e.content = .junction := by
  cases hcontent : e.content with
  | junction => rfl
  | condition text =>
      simp only [content?, hcontent, Option.bind_eq_bind, Option.bind_eq_some_iff] at h
      obtain ⟨conditions, -, heq⟩ := h
      have heq := Option.some.inj heq
      split at heq <;> cases heq

end FilterEntry

/-! ## Places of the declared tree -/

/-- Where a group of the declared tree stands: at a key, or at the clause whose alternatives it
holds. -/
inductive Place
  | key (segments : List String)
  | alternatives (clause : Nat)
  deriving DecidableEq, Repr

inductive PlacedItem
  | group (place : Place)
  | condition (condition : Condition)

namespace FilterClause

/-- The junction that a clause gives to the group with a key. -/
def junctionFor? (key : List String) (c : FilterClause) : Option Junction :=
  match c.content with
  | .junction j => if c.key = key then some j else none
  | _ => none

/-- The junctions of places with what a clause says of them. -/
def junctionAt (junction : Place → Junction) (c : FilterClause) : Place → Junction
  | .key key => (c.junctionFor? key).getD (junction (.key key))
  | .alternatives number => junction (.alternatives number)

/-- The conditions of the alternatives of a clause. -/
def alternatives (c : FilterClause) : List Condition :=
  match c.content with
  | .alternatives conditions => conditions
  | _ => []

/-- The group inside the group with a key that is first needed for a clause, after others. -/
def opened (before : List FilterClause) (c : FilterClause) (key : List String) : List PlacedItem :=
  let inner := c.key.take (key.length + 1)
  if key <+: c.key ∧ key ≠ c.key ∧ ¬∃ b ∈ before, inner <+: b.key then [.group (.key inner)] else []

/-- What a clause with a number puts into the group with a key. -/
def put (number : Nat) (c : FilterClause) (key : List String) : List PlacedItem :=
  if c.key = key then
    match c.content with
    | .junction _ => []
    | .conditions conditions => conditions.map .condition
    | .alternatives _ => [.group (.alternatives number)]
  else []

/-- What a clause with a number puts into the group of a place. -/
def putAt (number : Nat) (c : FilterClause) : Place → List PlacedItem
  | .key key => c.put number key
  | .alternatives n => if n = number then c.alternatives.map .condition else []

theorem junctionFor?_eq_some_iff {c : FilterClause} {key : List String} {j : Junction} :
    c.junctionFor? key = some j ↔ c = ⟨key, .junction j⟩ := by
  obtain ⟨clauseKey, content⟩ := c
  cases content <;> simp [junctionFor?, and_comm]

theorem mem_filterMap_junctionFor? {clauses : List FilterClause} {key : List String}
    {j : Junction} :
    j ∈ clauses.filterMap (junctionFor? key) ↔ ⟨key, .junction j⟩ ∈ clauses := by
  simp only [List.mem_filterMap, junctionFor?_eq_some_iff, exists_eq_right]

theorem junctionAt_junction (junction : Place → Junction) (key : List String) (j : Junction) :
    junctionAt junction ⟨key, .junction j⟩ = fun p => if p = .key key then j else junction p := by
  funext p
  cases p with
  | alternatives n => simp [junctionAt]
  | key other =>
      by_cases hkey : key = other
      · simp [junctionAt, junctionFor?, hkey]
      · simp [junctionAt, junctionFor?, hkey, Ne.symm hkey]

/-- Other clauses leave the junctions as they are. -/
theorem junctionAt_of_ne (junction : Place → Junction) {c : FilterClause}
    (h : ∀ j, c.content ≠ .junction j) : junctionAt junction c = junction := by
  funext p
  cases p with
  | alternatives n => rfl
  | key key =>
      have hnone : c.junctionFor? key = none := by
        rw [Option.eq_none_iff_forall_ne_some]
        intro j hj
        exact h j (by rw [junctionFor?_eq_some_iff.1 hj])
      rw [junctionAt, hnone, Option.getD_none]

theorem putAt_junction (number : Nat) (key : List String) (j : Junction) (p : Place) :
    putAt number ⟨key, .junction j⟩ p = [] := by
  cases p <;> simp [putAt, put, alternatives]

theorem putAt_conditions (number : Nat) (key : List String) (conditions : List Condition)
    (p : Place) :
    putAt number ⟨key, .conditions conditions⟩ p =
      if p = .key key then conditions.map .condition else [] := by
  cases p <;> simp [putAt, put, alternatives, eq_comm]

theorem putAt_alternatives (number : Nat) (key : List String) (conditions : List Condition)
    (p : Place) :
    putAt number ⟨key, .alternatives conditions⟩ p =
      (if p = .key key then [.group (.alternatives number)] else []) ++
        if p = .alternatives number then conditions.map .condition else [] := by
  cases p <;> simp [putAt, put, alternatives, eq_comm]

end FilterClause

namespace Declared

/-- The junction of a place; a group with no clause about it is a conjunction. -/
def junction (clauses : List FilterClause) : Place → Junction
  | .key key => (clauses.filterMap (FilterClause.junctionFor? key)).getLast?.getD .conjunction
  | .alternatives _ => .disjunction

/-- What clauses after others put into the group with a key. -/
def itemsFrom (key : List String) : List FilterClause → List FilterClause → List PlacedItem
  | _, [] => []
  | before, c :: rest =>
    c.opened before key ++ c.put before.length key ++ itemsFrom key (before ++ [c]) rest

/-- The items of a place, in the order of the clauses. -/
def items (clauses : List FilterClause) : Place → List PlacedItem
  | .key key => itemsFrom key [] clauses
  | .alternatives number =>
    ((clauses[number]?.map FilterClause.alternatives).getD []).map .condition

/-- The place around a place. -/
def around? (clauses : List FilterClause) : Place → Option Place
  | .key key => if key.length ≤ 1 then none else some (.key key.dropLast)
  | .alternatives number => clauses[number]?.map fun c => .key c.key

/-- The places of the tree: the outermost one, the keys in front of those that occur, and the
alternatives. -/
def IsPlace (root : String) (clauses : List FilterClause) : Place → Prop
  | .key key => key = [root] ∨ (key ≠ [] ∧ ∃ c ∈ clauses, key <+: c.key)
  | .alternatives number =>
    ∃ key conditions, clauses[number]? = some ⟨key, .alternatives conditions⟩

/-- An item as a tree, given the trees of keys. -/
def itemTree (clauses : List FilterClause) (below : List String → FilterTree) :
    PlacedItem → FilterTree
  | .condition c => .condition c
  | .group (.key inner) => below inner
  | .group (.alternatives number) =>
    .group .disjunction
      (((clauses[number]?.map FilterClause.alternatives).getD []).map .condition)

/-- The declared tree below a key; groups nest no deeper than the first number says. -/
def tree (clauses : List FilterClause) : Nat → List String → FilterTree
  | 0, _ => .group .conjunction []
  | depth + 1, key =>
    .group (junction clauses (.key key))
      ((items clauses (.key key)).map (itemTree clauses (tree clauses depth)))

/-! ## Items by their clauses -/

theorem itemsFrom_append (key : List String) (before clauses more : List FilterClause) :
    itemsFrom key before (clauses ++ more) =
      itemsFrom key before clauses ++ itemsFrom key (before ++ clauses) more := by
  induction clauses generalizing before with
  | nil => simp [itemsFrom]
  | cons c rest ih =>
      simp only [List.cons_append, itemsFrom, ih, List.append_assoc, List.nil_append]

theorem mem_opened {before : List FilterClause} {c : FilterClause} {key : List String}
    {item : PlacedItem} :
    item ∈ c.opened before key ↔
      ∃ segment, item = .group (.key (key ++ [segment])) ∧ key ++ [segment] <+: c.key ∧
        ¬∃ b ∈ before, key ++ [segment] <+: b.key := by
  have hinner : key <+: c.key ∧ key ≠ c.key ↔
      ∃ segment, c.key.take (key.length + 1) = key ++ [segment] ∧ key ++ [segment] <+: c.key := by
    constructor
    · rintro ⟨⟨tail, htail⟩, hne⟩
      cases tail with
      | nil => exact absurd (by simpa using htail) hne
      | cons segment rest =>
          refine ⟨segment, ?_, ⟨rest, by simp [← htail]⟩⟩
          rw [← htail, List.take_append, List.take_of_length_le (by omega)]
          simp
    · rintro ⟨segment, -, ⟨rest, hrest⟩⟩
      refine ⟨⟨segment :: rest, by simp [← hrest]⟩, ?_⟩
      intro heq
      have hlength := congrArg List.length hrest
      rw [← heq] at hlength
      simp at hlength
  unfold FilterClause.opened
  constructor
  · intro hitem
    simp only at hitem
    split at hitem
    · rename_i h
      obtain ⟨segment, htake, hkey⟩ := hinner.1 ⟨h.1, h.2.1⟩
      rw [htake] at hitem h
      exact ⟨segment, by simpa using hitem, hkey, h.2.2⟩
    · simp at hitem
  · rintro ⟨segment, rfl, hkey, hbefore⟩
    have htake : c.key.take (key.length + 1) = key ++ [segment] := by
      obtain ⟨rest, hrest⟩ := hkey
      rw [← hrest, List.take_left' (by simp)]
    obtain ⟨hunder, hne⟩ := hinner.2 ⟨segment, htake, hkey⟩
    simp only [htake]
    rw [if_pos ⟨hunder, hne, hbefore⟩]
    simp

theorem condition_mem_itemsFrom {key : List String} {before clauses : List FilterClause}
    {c : Condition} :
    .condition c ∈ itemsFrom key before clauses ↔
      ∃ conditions, ⟨key, .conditions conditions⟩ ∈ clauses ∧ c ∈ conditions := by
  induction clauses generalizing before with
  | nil => simp [itemsFrom]
  | cons clause rest ih =>
      have hopened : PlacedItem.condition c ∉ clause.opened before key := by
        intro h
        obtain ⟨_, h, _⟩ := mem_opened.1 h
        cases h
      have hput : PlacedItem.condition c ∈ clause.put before.length key ↔
          ∃ conditions, ⟨key, .conditions conditions⟩ = clause ∧ c ∈ conditions := by
        obtain ⟨clauseKey, content⟩ := clause
        by_cases hkey : clauseKey = key
        · cases content <;> simp [FilterClause.put, hkey, eq_comm]
        · simp [FilterClause.put, hkey, Ne.symm hkey]
      simp only [itemsFrom, List.mem_append, hopened, false_or, hput, ih, List.mem_cons]
      grind

theorem alternatives_mem_itemsFrom {key : List String} {before clauses : List FilterClause}
    {number : Nat} :
    .group (.alternatives number) ∈ itemsFrom key before clauses ↔
      ∃ i conditions, number = before.length + i ∧
        clauses[i]? = some ⟨key, .alternatives conditions⟩ := by
  induction clauses generalizing before with
  | nil => simp [itemsFrom]
  | cons clause rest ih =>
      have hopened : PlacedItem.group (.alternatives number) ∉ clause.opened before key := by
        intro h
        obtain ⟨_, h, _⟩ := mem_opened.1 h
        cases h
      have hput : PlacedItem.group (.alternatives number) ∈ clause.put before.length key ↔
          number = before.length ∧ ∃ conditions, clause = ⟨key, .alternatives conditions⟩ := by
        obtain ⟨clauseKey, content⟩ := clause
        cases content <;> by_cases hkey : clauseKey = key <;> simp [FilterClause.put, hkey]
      simp only [itemsFrom, List.mem_append, hopened, false_or, hput, ih, List.length_append,
        List.length_cons, List.length_nil]
      constructor
      · rintro (⟨hnumber, conditions, hclause⟩ | ⟨i, conditions, hnumber, hi⟩)
        · exact ⟨0, conditions, by omega, by simp [hclause]⟩
        · exact ⟨i + 1, conditions, by omega, by simpa using hi⟩
      · rintro ⟨i, conditions, hnumber, hi⟩
        cases i with
        | zero => exact .inl ⟨by omega, conditions, by simpa using hi⟩
        | succ i => exact .inr ⟨i, conditions, by omega, by simpa using hi⟩

theorem key_mem_itemsFrom {key inner : List String} {before clauses : List FilterClause} :
    .group (.key inner) ∈ itemsFrom key before clauses ↔
      ∃ segment, inner = key ++ [segment] ∧ (∃ c ∈ clauses, inner <+: c.key) ∧
        ¬∃ b ∈ before, inner <+: b.key := by
  induction clauses generalizing before with
  | nil => simp [itemsFrom]
  | cons clause rest ih =>
      have hput : PlacedItem.group (.key inner) ∉ clause.put before.length key := by
        obtain ⟨clauseKey, content⟩ := clause
        cases content <;> by_cases hkey : clauseKey = key <;> simp [FilterClause.put, hkey]
      simp only [itemsFrom, List.mem_append, mem_opened, hput, or_false, ih]
      constructor
      · rintro (⟨segment, hinner, hclause, hbefore⟩ | ⟨segment, hinner, ⟨c, hc, hunder⟩, hbefore⟩)
        · obtain rfl : inner = key ++ [segment] := by simpa using hinner
          exact ⟨segment, rfl, ⟨clause, by simp, hclause⟩, hbefore⟩
        · refine ⟨segment, hinner, ⟨c, by simp [hc], hunder⟩, ?_⟩
          rintro ⟨b, hb, hb'⟩
          exact hbefore ⟨b, .inl hb, hb'⟩
      · rintro ⟨segment, rfl, ⟨c, hc, hunder⟩, hbefore⟩
        by_cases hclause : key ++ [segment] <+: clause.key
        · exact .inl ⟨segment, rfl, hclause, hbefore⟩
        · refine .inr ⟨segment, rfl, ⟨c, ?_, hunder⟩, ?_⟩
          · rcases List.mem_cons.1 hc with rfl | hc
            · exact absurd hunder hclause
            · exact hc
          · rintro ⟨b, hb | hb, hb'⟩
            · exact hbefore ⟨b, hb, hb'⟩
            · obtain rfl : b = clause := by simpa using hb
              exact hclause hb'

/-! ## One more clause -/

theorem items_concat_key (clauses : List FilterClause) (c : FilterClause) (key : List String) :
    items (clauses ++ [c]) (.key key) =
      items clauses (.key key) ++
        (c.opened clauses key ++ c.putAt clauses.length (.key key)) := by
  simp only [items, FilterClause.putAt, itemsFrom_append, List.nil_append, itemsFrom, List.append_nil]

theorem items_concat_alternatives (clauses : List FilterClause) (c : FilterClause) (number : Nat) :
    items (clauses ++ [c]) (.alternatives number) =
      items clauses (.alternatives number) ++ c.putAt clauses.length (.alternatives number) := by
  simp only [items, FilterClause.putAt]
  rcases Nat.lt_trichotomy number clauses.length with h | h | h
  · rw [List.getElem?_append_left h, if_neg (by omega), List.append_nil]
  · subst h
    simp
  · rw [List.getElem?_eq_none (by simp; omega), List.getElem?_eq_none (by omega),
      if_neg (by omega), List.append_nil]

theorem junction_concat (clauses : List FilterClause) (c : FilterClause) (p : Place) :
    junction (clauses ++ [c]) p = c.junctionAt (junction clauses) p := by
  cases p with
  | alternatives number => rfl
  | key key =>
      simp only [junction, FilterClause.junctionAt, List.filterMap_append]
      cases h : c.junctionFor? key with
      | none => simp [h]
      | some j => simp [h]

/-- Which group is around a place does not depend on what the last clause says. -/
theorem around?_concat_content (clauses : List FilterClause) (key : List String)
    (content other : ClauseContent) :
    around? (clauses ++ [⟨key, content⟩]) = around? (clauses ++ [⟨key, other⟩]) := by
  funext p
  cases p with
  | key _ => rfl
  | alternatives number =>
      simp only [around?]
      rcases Nat.lt_trichotomy number clauses.length with h | h | h
      · rw [List.getElem?_append_left h, List.getElem?_append_left h]
      · subst h
        simp
      · rw [List.getElem?_eq_none (by simp; omega), List.getElem?_eq_none (by simp; omega)]

theorem around?_concat {clauses : List FilterClause} {root : String} {p : Place}
    (c : FilterClause) (h : IsPlace root clauses p) :
    around? (clauses ++ [c]) p = around? clauses p := by
  cases p with
  | key _ => rfl
  | alternatives number =>
      obtain ⟨key, conditions, hclause⟩ := h
      have hlt := (List.getElem?_eq_some_iff.1 hclause).1
      simp only [around?, List.getElem?_append_left hlt]

theorem isPlace_concat_key {clauses : List FilterClause} {root : String} {c : FilterClause}
    {key : List String} :
    IsPlace root (clauses ++ [c]) (.key key) ↔
      IsPlace root clauses (.key key) ∨ (key ≠ [] ∧ key <+: c.key) := by
  simp only [IsPlace, List.mem_append, List.mem_singleton]
  constructor
  · rintro (heq | ⟨hne, b, hb | rfl, hunder⟩)
    · exact .inl (.inl heq)
    · exact .inl (.inr ⟨hne, b, hb, hunder⟩)
    · exact .inr ⟨hne, hunder⟩
  · rintro ((heq | ⟨hne, b, hb, hunder⟩) | ⟨hne, hunder⟩)
    · exact .inl heq
    · exact .inr ⟨hne, b, .inl hb, hunder⟩
    · exact .inr ⟨hne, c, .inr rfl, hunder⟩

theorem isPlace_concat_alternatives {clauses : List FilterClause} {root : String} {c : FilterClause}
    {number : Nat} :
    IsPlace root (clauses ++ [c]) (.alternatives number) ↔
      IsPlace root clauses (.alternatives number) ∨
        number = clauses.length ∧ ∃ key conditions, c = ⟨key, .alternatives conditions⟩ := by
  simp only [IsPlace]
  rcases Nat.lt_trichotomy number clauses.length with h | h | h
  · simp [List.getElem?_append_left h, Nat.ne_of_lt h]
  · subst h
    simp
  · rw [List.getElem?_eq_none (by simp; omega), List.getElem?_eq_none (by omega)]
    simp
    omega

/-- What is no place has nothing in it. -/
theorem items_eq_nil {clauses : List FilterClause} {root : String} {p : Place}
    (h : ¬IsPlace root clauses p) (hp : p ≠ .key []) : items clauses p = [] := by
  rw [List.eq_nil_iff_forall_not_mem]
  intro item hitem
  cases p with
  | alternatives number =>
      simp only [items] at hitem
      match hclause : clauses[number]? with
      | none => simp [hclause] at hitem
      | some ⟨key, .alternatives conditions⟩ => exact h ⟨key, conditions, hclause⟩
      | some ⟨_, .junction _⟩ => simp [hclause, FilterClause.alternatives] at hitem
      | some ⟨_, .conditions _⟩ => simp [hclause, FilterClause.alternatives] at hitem
  | key key =>
      have hne : key ≠ [] := by
        rintro rfl
        exact hp rfl
      apply h
      right
      refine ⟨hne, ?_⟩
      match item with
      | .condition c =>
        obtain ⟨conditions, hclause, -⟩ := condition_mem_itemsFrom.1 hitem
        exact ⟨_, hclause, List.prefix_rfl⟩
      | .group (.alternatives number) =>
        obtain ⟨i, conditions, -, hi⟩ := alternatives_mem_itemsFrom.1 hitem
        exact ⟨_, List.mem_of_getElem? hi, List.prefix_rfl⟩
      | .group (.key inner) =>
        obtain ⟨segment, rfl, ⟨c, hc, hunder⟩, -⟩ := key_mem_itemsFrom.1 hitem
        exact ⟨c, hc, (List.prefix_append _ _).trans hunder⟩

theorem junction_eq_conjunction {clauses : List FilterClause} {root : String} {key : List String}
    (h : ¬IsPlace root clauses (.key key)) (hne : key ≠ []) :
    junction clauses (.key key) = .conjunction := by
  have hnone : clauses.filterMap (FilterClause.junctionFor? key) = [] := by
    rw [List.eq_nil_iff_forall_not_mem]
    intro j hj
    exact h (.inr ⟨hne, _, FilterClause.mem_filterMap_junctionFor?.1 hj, List.prefix_rfl⟩)
  simp [junction, hnone]

/-! ## Truth of the declared tree -/

/-- A truth value of an item in the group with a key, by the clauses alone. -/
theorem mem_itemHolds {v : Condition → Bool} {clauses : List FilterClause}
    {below : List String → FilterTree} {key : List String} {b : Bool} :
    b ∈ ((items clauses (.key key)).map (itemTree clauses below)).map (FilterTree.holds v) ↔
      (∃ conditions, ⟨key, .conditions conditions⟩ ∈ clauses ∧ ∃ c ∈ conditions, v c = b) ∨
      (∃ conditions, ⟨key, .alternatives conditions⟩ ∈ clauses ∧ conditions.any v = b) ∨
      ∃ segment, (∃ c ∈ clauses, key ++ [segment] <+: c.key) ∧
        (below (key ++ [segment])).holds v = b := by
  simp only [List.map_map, List.mem_map, Function.comp_apply, items]
  constructor
  · rintro ⟨item, hitem, rfl⟩
    match item with
    | .condition c =>
      obtain ⟨conditions, hclause, hc⟩ := condition_mem_itemsFrom.1 hitem
      exact .inl ⟨conditions, hclause, c, hc, by simp [itemTree, FilterTree.holds]⟩
    | .group (.alternatives number) =>
      obtain ⟨i, conditions, hnumber, hi⟩ := alternatives_mem_itemsFrom.1 hitem
      obtain rfl : number = i := by simpa using hnumber
      refine .inr (.inl ⟨conditions, List.mem_of_getElem? hi, ?_⟩)
      simp [itemTree, hi, FilterClause.alternatives, FilterTree.holds_group, Junction.holds,
        Function.comp_def, FilterTree.holds]
    | .group (.key inner) =>
      obtain ⟨segment, rfl, hclause, -⟩ := key_mem_itemsFrom.1 hitem
      exact .inr (.inr ⟨segment, hclause, rfl⟩)
  · rintro (⟨conditions, hclause, c, hc, rfl⟩ | ⟨conditions, hclause, rfl⟩ | ⟨segment, hclause, rfl⟩)
    · exact ⟨.condition c, condition_mem_itemsFrom.2 ⟨conditions, hclause, hc⟩,
        by simp [itemTree, FilterTree.holds]⟩
    · obtain ⟨i, hi⟩ := List.mem_iff_getElem?.1 hclause
      refine ⟨.group (.alternatives i),
        alternatives_mem_itemsFrom.2 ⟨i, conditions, by simp, hi⟩, ?_⟩
      simp [itemTree, hi, FilterClause.alternatives, FilterTree.holds_group, Junction.holds,
        Function.comp_def, FilterTree.holds]
    · exact ⟨.group (.key (key ++ [segment])),
        key_mem_itemsFrom.2 ⟨segment, rfl, hclause, by simp⟩, rfl⟩

theorem junction_perm {clauses others : List FilterClause} (hperm : clauses.Perm others)
    {key : List String} (hone : (clauses.filterMap (FilterClause.junctionFor? key)).length ≤ 1) :
    junction clauses (.key key) = junction others (.key key) := by
  have hjunctions := hperm.filterMap (FilterClause.junctionFor? key)
  have heq : clauses.filterMap (FilterClause.junctionFor? key) =
      others.filterMap (FilterClause.junctionFor? key) := by
    match hlist : clauses.filterMap (FilterClause.junctionFor? key), hone with
    | [], _ =>
      rw [hlist] at hjunctions
      exact hjunctions.nil_eq
    | [j], _ =>
      rw [hlist] at hjunctions
      exact (List.singleton_perm.1 hjunctions)
  simp only [junction, heq]

/-- Clauses in another order declare a tree of the same truth, if none gives a group its junction a
second time. -/
theorem holds_tree_perm {clauses others : List FilterClause} (hperm : clauses.Perm others)
    (hone : ∀ key, (clauses.filterMap (FilterClause.junctionFor? key)).length ≤ 1)
    (v : Condition → Bool) (depth : Nat) (key : List String) :
    (tree clauses depth key).holds v = (tree others depth key).holds v := by
  induction depth generalizing key with
  | zero => rfl
  | succ depth ih =>
      simp only [tree, FilterTree.holds_group, junction_perm hperm (hone key)]
      apply Junction.holds_congr
      rw [mem_itemHolds, mem_itemHolds]
      simp only [hperm.mem_iff, ih]

end Declared

end ResourceQuery
