import ResourceQuery.Proofs.Compile.Conditions
import ResourceQuery.Proofs.Compile.FilterParameters
import ResourceQuery.Proofs.Filter.Numbering
/-!
# Values of the names that a tree is written with

The parameters of a tree are read as groups that are disjunctions and as conditions in their groups.
A group is said to be a disjunction once (`Filter.given_junction`), and the values of a condition's
name are those of its namesakes in its group (`Filter.given_condition`).
-/

namespace ResourceQuery

/-- All conditions of a clause. -/
def FilterClause.conditions (c : FilterClause) : List Condition :=
  match c.content with
  | .junction _ => []
  | .conditions conditions | .alternatives conditions => conditions

namespace FilterClause

/-- The values of the parameters of a clause. -/
def texts (x : FilterClause) : List String :=
  match x.content with
  | .junction _ => ["or"]
  | .conditions conditions | .alternatives conditions => conditions.flatMap Condition.texts

/-- All parameters of a clause about one condition have its name. -/
theorem pairs_eq {x : FilterClause} (h : x.IsSingle) :
    x.pairs = x.texts.map fun text => (x.name, text) := by
  obtain heq | ⟨c, heq⟩ := h
  · rw [heq]
    simp [pairs, texts, name, suffix]
  · rw [heq]
    simp [pairs, texts, name, suffix]

/-- A name has the values of the clauses with that name, in their order. -/
theorem given_flatMap_pairs {clauses : List FilterClause} (h : ∀ x ∈ clauses, x.IsSingle)
    (name : String) : Parameters.given name (clauses.flatMap pairs) =
      (clauses.filter fun x => x.name = name).flatMap texts := by
  induction clauses with
  | nil => rfl
  | cons x rest ih =>
      obtain ⟨hx, hrest⟩ := List.forall_mem_cons.1 h
      rw [List.flatMap_cons, Parameters.given_append, ih hrest, pairs_eq hx]
      by_cases hname : x.name = name
      · rw [hname, Parameters.given_map, List.filter_cons_of_pos (by simpa using hname),
          List.flatMap_cons]
      · rw [Parameters.given_map_ne hname, List.filter_cons_of_neg (by simpa using hname),
          List.nil_append]

end FilterClause

namespace Filter

/-- The conditions that clauses are about in the group with a key. -/
def conditionsAt (clauses : List FilterClause) (key : List String) : List Condition :=
  clauses.flatMap fun x => if x.key = key then x.conditions else []

end Filter

namespace FilterTree

/-- A group is said to be a disjunction once, before everything else. -/
theorem pairwise_clauses (t : FilterTree) (key : List String) :
    (t.clauses key).Pairwise fun x y => ∀ j, y ≠ ⟨x.key, .junction j⟩ := by
  induction t using induct generalizing key with
  | condition c => exact List.pairwise_singleton _ _
  | group junction items ih =>
      have hitems : ∀ (rest : List FilterTree) (groups : Nat), (∀ item ∈ rest, item ∈ items) →
          (clausesOf key groups rest).Pairwise fun x y => ∀ j, y ≠ ⟨x.key, .junction j⟩ := by
        intro rest
        induction rest with
        | nil => exact fun _ _ => List.Pairwise.nil
        | cons item rest ihrest =>
            intro groups hmem
            have hrest := fun groups => ihrest groups fun other hother =>
              hmem other (List.mem_cons_of_mem _ hother)
            cases item with
            | condition c =>
                rw [clausesOf, List.pairwise_cons]
                refine ⟨?_, hrest groups⟩
                rintro y hy j rfl
                rcases mem_clausesOf.1 hy with ⟨d, -, heq⟩ | ⟨i, t, -, hx⟩
                · cases heq
                · exact key_ne_of_mem_clauses hx rfl
            | group j inner =>
                rw [clausesOf, List.pairwise_append]
                refine ⟨ih _ (hmem _ (by simp)) _, hrest _, ?_⟩
                rintro x hx y hy j rfl
                rcases mem_clausesOf.1 hy with ⟨d, -, heq⟩ | ⟨i, t, -, hy⟩
                · cases heq
                · have hunder := prefix_of_mem_clauses hy
                  have hsame := Numeral.ofNat_injective (segment_eq_of_mem_clauses hx hunder)
                  omega
      rw [clauses, List.pairwise_append]
      refine ⟨?_, hitems items 0 fun _ hmem => hmem, ?_⟩
      · cases junction with
        | conjunction => exact List.Pairwise.nil
        | disjunction => exact List.pairwise_singleton _ _
      · rintro x hx y hy j rfl
        cases junction with
        | conjunction => cases hx
        | disjunction =>
            obtain rfl : x = ⟨key, .junction .disjunction⟩ := by simpa [junctionClauses] using hx
            rcases mem_clausesOf.1 hy with ⟨d, -, heq⟩ | ⟨i, t, -, hy⟩
            · cases heq
            · exact key_ne_of_mem_clauses hy rfl

open ResourceQuery.Filter (conditionsAt)

theorem conditionsAt_eq_nil {clauses : List FilterClause} {key : List String}
    (h : ∀ x ∈ clauses, x.key ≠ key) : conditionsAt clauses key = [] := by
  rw [conditionsAt, List.flatMap_eq_nil_iff]
  intro x hx
  rw [if_neg (h x hx)]

theorem conditionsAt_append (clauses more : List FilterClause) (key : List String) :
    conditionsAt (clauses ++ more) key = conditionsAt clauses key ++ conditionsAt more key :=
  List.flatMap_append

theorem conditionsAt_junctionClauses (key inner : List String) (junction : Junction) :
    conditionsAt (junctionClauses key junction) inner = [] := by
  cases junction with
  | conjunction => rfl
  | disjunction => simp [conditionsAt, junctionClauses, FilterClause.conditions]

/-- The conditions of a group are those among its items. -/
theorem conditionsAt_own (key : List String) (groups : Nat) (items : List FilterTree) :
    conditionsAt (clausesOf key groups items) key = items.filterMap condition? := by
  induction items generalizing groups with
  | nil => rfl
  | cons item rest ih =>
      cases item with
      | condition c =>
          rw [clausesOf, ← List.singleton_append, conditionsAt_append, ih]
          simp [conditionsAt, FilterClause.conditions, condition?]
      | group junction inner =>
          rw [clausesOf, conditionsAt_append, ih,
            conditionsAt_eq_nil fun x hx => key_ne_of_mem_clauses hx]
          rfl

theorem conditionsAt_inner {key inner : List String} {groups : Nat} {items : List FilterTree}
    {i : Nat} {t : FilterTree} (ht : (innerGroups items)[i]? = some t)
    (hunder : key ++ [Numeral.ofNat (groups + i + 1)] <+: inner) :
    conditionsAt (clausesOf key groups items) inner =
      conditionsAt (t.clauses (key ++ [Numeral.ofNat (groups + i + 1)])) inner := by
  induction items generalizing groups i with
  | nil => cases ht
  | cons item rest ih =>
      have hne : key ≠ inner := by
        rintro rfl
        have := hunder.length_le
        simp only [List.length_append, List.length_singleton] at this
        omega
      cases item with
      | condition c =>
          rw [innerGroups_condition] at ht
          rw [clausesOf, ← List.singleton_append, conditionsAt_append, ih ht hunder,
            conditionsAt_eq_nil (by simpa using hne), List.nil_append]
      | group junction items' =>
          rw [innerGroups_group] at ht
          rw [clausesOf, conditionsAt_append]
          cases i with
          | zero =>
              obtain rfl : group junction items' = t := by simpa using ht
              have hrest : conditionsAt (clausesOf key (groups + 1) rest) inner = [] := by
                apply conditionsAt_eq_nil
                rintro x hx rfl
                rcases mem_clausesOf.1 hx with ⟨d, -, rfl⟩ | ⟨i, t, -, hx⟩
                · exact hne rfl
                · have := Numeral.ofNat_injective (segment_eq_of_mem_clauses hx hunder)
                  omega
              rw [hrest, List.append_nil]
          | succ i =>
              rw [conditionsAt_eq_nil, List.nil_append]
              · have hnumber : groups + (i + 1) + 1 = groups + 1 + i + 1 := by omega
                rw [hnumber] at hunder ⊢
                exact ih (by simpa using ht) hunder
              · rintro x hx rfl
                have := Numeral.ofNat_injective (segment_eq_of_mem_clauses hx hunder)
                omega

/-- What is written for a key is written for the items of a group. -/
theorem exists_group_conditionsAt {t : FilterTree} (hgroup : t.condition? = none)
    {key : List String} {x : FilterClause} (hx : x ∈ t.clauses key) :
    ∃ g ∈ t.groups, conditionsAt (t.clauses key) x.key = g.2.filterMap condition? := by
  induction t using induct generalizing key with
  | condition c => cases hgroup
  | group junction items ih =>
      by_cases hown : x.key = key
      · refine ⟨(junction, items), by simp [groups], ?_⟩
        rw [clauses, conditionsAt_append, conditionsAt_junctionClauses, List.nil_append, hown,
          conditionsAt_own]
      · obtain ⟨tail, htail⟩ := prefix_of_mem_clauses hx
        cases tail with
        | nil => exact absurd (by simpa using htail.symm) hown
        | cons segment rest =>
            have hinner : key ++ [segment] <+: x.key := ⟨rest, by simp [← htail]⟩
            obtain ⟨i, t, ht, rfl, hx⟩ := (mem_clauses_inner hinner).1 hx
            obtain ⟨hmem, hnone⟩ := mem_innerGroups.1 (List.mem_of_getElem? ht)
            obtain ⟨g, hg, hconditions⟩ := ih t hmem hnone hx
            refine ⟨g, groups_subset hmem hg, ?_⟩
            have hunder := prefix_of_mem_clauses hx
            rw [clauses, conditionsAt_append, conditionsAt_junctionClauses, List.nil_append,
              ← hconditions]
            rw [← Nat.zero_add i] at hunder ⊢
            exact conditionsAt_inner ht hunder

end FilterTree

/-- The text says of a condition all but its operands. -/
structure Condition.SaidBy (c : Condition) (text : ConditionText) : Prop where
  paths : text.paths.map PathText.path = [c.path.text]
  negated : text.negated = c.options.negated
  qualifiers : Qualifier.ofCondition text.qualifiers =
    .ok ⟨{ c.options with negated := false }, c.namedTest?⟩

namespace Filter

variable {s : Schema} {scope root : String} {t : FilterTree}

theorem readable_of_mem_clauses (hroot : Text.isIdentifier root.toList = true) {x : FilterClause}
    (hx : x ∈ t.clauses [root]) :
    ∃ groups, x.key = root :: groups ∧ GroupKey.Readable root groups := by
  obtain ⟨numbers, hnumbers⟩ := FilterTree.key_of_mem_clauses hx
  refine ⟨numbers.map Numeral.ofNat, hnumbers, hroot, ?_⟩
  intro name hname
  obtain ⟨n, -, rfl⟩ := List.mem_map.1 hname
  rw [Numeral.ofNat, String.toList_ofList]
  refine ⟨Numeral.digits_ne_nil n, ?_⟩
  intro c hc
  simp [Text.isIdentifierPart, Char.isAlphanum, Numeral.isDigit_of_mem_digits hc]

theorem mem_conditionsAt {key : List String} {c : Condition} :
    c ∈ conditionsAt (t.clauses [root]) key ↔ ⟨key, .conditions [c]⟩ ∈ t.clauses [root] := by
  rw [conditionsAt, List.mem_flatMap]
  constructor
  · rintro ⟨x, hx, hc⟩
    split at hc
    · rename_i hkey
      subst hkey
      rcases FilterTree.content_of_mem_clauses hx with heq | ⟨d, -, heq⟩
      · rw [heq] at hc
        cases hc
      · rw [heq, FilterClause.conditions, List.mem_singleton] at hc
        subst hc
        rwa [← heq]
    · cases hc
  · intro hx
    exact ⟨_, hx, by simp [FilterClause.conditions]⟩

theorem made_of_mem_conditionsAt (hmade : ∀ c ∈ t.conditions, c.Made s scope) {key : List String}
    {c : Condition} (hc : c ∈ conditionsAt (t.clauses [root]) key) : c.Made s scope := by
  rcases FilterTree.content_of_mem_clauses (mem_conditionsAt.1 hc) with hfalse | ⟨d, hd, hsame⟩
  · cases hfalse
  · cases hsame
    exact hmade c hd

theorem isSingle_of_mem_clauses {key : List String} : ∀ x ∈ t.clauses key, x.IsSingle := by
  intro x hx
  rcases FilterTree.content_of_mem_clauses hx with heq | ⟨c, -, heq⟩
  · exact .inl heq
  · exact .inr ⟨c, heq⟩

/-- Everything that is written for a clause has the name of the clause. -/
theorem name_of_mem_pairs {key : List String} {x : FilterClause} (hx : x ∈ t.clauses key)
    {pair : String × String} (hpair : pair ∈ x.pairs) : pair.1 = x.name := by
  rw [FilterClause.pairs_eq (isSingle_of_mem_clauses x hx)] at hpair
  obtain ⟨text, -, rfl⟩ := List.mem_map.1 hpair
  rfl

/-! ## Names -/

variable (hroot : Text.isIdentifier root.toList = true) (hmade : ∀ c ∈ t.conditions, c.Made s scope)
  {x y : FilterClause} (hx : x ∈ t.clauses [root]) (hy : y ∈ t.clauses [root])

include hroot hx in
theorem parse_junction_name (heq : x = ⟨x.key, .junction .disjunction⟩) :
    FilterParameter.parse x.name = .ok (.junction ⟨x.key⟩) := by
  obtain ⟨groups, hkey, hreadable⟩ := readable_of_mem_clauses hroot hx
  have hname : x.name = FilterParameter.opening root groups '$' := by
    rw [heq, FilterClause.name, FilterClause.suffix, String.append_empty, hkey]
    rfl
  rw [hname, hkey]
  exact FilterParameter.parse_junction hreadable

include hroot hmade hx

/-- The name of a clause about a condition says all of the condition but its operands. -/
theorem parse_condition_name {c : Condition} (heq : x = ⟨x.key, .conditions [c]⟩) :
    ∃ text, FilterParameter.parse x.name = .ok (.condition ⟨x.key⟩ text) ∧ c.SaidBy text := by
  obtain ⟨groups, hkey, hreadable⟩ := readable_of_mem_clauses hroot hx
  have hname : x.name = FilterParameter.opening root groups '$' ++ c.suffix := by
    rw [heq, FilterClause.name, hkey]
    rfl
  have hown := made_of_mem_conditionsAt hmade (mem_conditionsAt.2 (heq ▸ hx))
  obtain ⟨text, hparse, hpaths, hnegated, hmeaning⟩ := hown.toReadable.parse hreadable
  rw [hname, hkey]
  exact ⟨text, hparse, hpaths, hnegated, hmeaning⟩

include hy

/-- No other clause has the name of one that makes its group a disjunction. -/
theorem eq_of_junction_name (heq : x = ⟨x.key, .junction .disjunction⟩) (hname : y.name = x.name) :
    y = x := by
  have hparse := parse_junction_name hroot hx heq
  rcases isSingle_of_mem_clauses y hy with hjunction | ⟨d, hd⟩
  · have hother := parse_junction_name hroot hy hjunction
    rw [hname, hparse] at hother
    obtain hkey : x.key = y.key := by simpa using hother
    rw [hjunction, heq, hkey]
  · obtain ⟨text, hother, -⟩ := parse_condition_name hroot hmade hy hd
    rw [hname, hparse] at hother
    cases hother

/-- The clauses with the name of a condition are about its namesakes in the group. -/
theorem exists_condition_of_name {c : Condition} (heq : x = ⟨x.key, .conditions [c]⟩)
    (hname : y.name = x.name) : ∃ d, y = ⟨x.key, .conditions [d]⟩ ∧ d.suffix = c.suffix := by
  obtain ⟨text, hparse, -⟩ := parse_condition_name hroot hmade hx heq
  rcases isSingle_of_mem_clauses y hy with hjunction | ⟨d, hd⟩
  · have hother := parse_junction_name hroot hy hjunction
    rw [hname, hparse] at hother
    cases hother
  · obtain ⟨other, hother, -⟩ := parse_condition_name hroot hmade hy hd
    rw [hname, hparse] at hother
    obtain ⟨hkey, -⟩ : x.key = y.key ∧ text = other := by simpa using hother
    rw [← hkey] at hd
    refine ⟨d, hd, ?_⟩
    rw [hd, heq] at hname
    simpa [FilterClause.name, FilterClause.suffix] using hname

omit hy

/-! ## Values -/

/-- That a group is a disjunction is written once. -/
theorem given_junction (heq : x = ⟨x.key, .junction .disjunction⟩) :
    Parameters.given x.name ((t.clauses [root]).flatMap FilterClause.pairs) = ["or"] := by
  have hall : ∀ y ∈ (t.clauses [root]).filter (fun y => y.name = x.name), y = x := by
    intro y hy
    obtain ⟨hy, hname⟩ := List.mem_filter.1 hy
    exact eq_of_junction_name hroot hmade hx hy heq (by simpa using hname)
  have hown : x ∈ (t.clauses [root]).filter (fun y => y.name = x.name) :=
    List.mem_filter.2 ⟨hx, by simp⟩
  have honce := (FilterTree.pairwise_clauses t [root]).filter (fun y => y.name = x.name)
  rw [FilterClause.given_flatMap_pairs isSingle_of_mem_clauses]
  generalize (t.clauses [root]).filter (fun y => y.name = x.name) = named at *
  match named with
  | [y] =>
      rw [hall y (List.mem_singleton_self y), heq]
      rfl
  | y :: z :: rest =>
      -- the second would say of the group of the first that it is a disjunction
      obtain rfl := hall y (by simp)
      obtain rfl := hall z (by simp)
      exact absurd heq ((List.pairwise_cons.1 honce).1 z (by simp) _)

/-- The values of a condition's name are those of its namesakes in its group, in their order. -/
theorem given_condition {c : Condition} (heq : x = ⟨x.key, .conditions [c]⟩) :
    Parameters.given x.name ((t.clauses [root]).flatMap FilterClause.pairs) =
      (c.namesakes (conditionsAt (t.clauses [root]) x.key)).flatMap Condition.texts := by
  rw [Parameters.given_flatMap, Condition.namesakes, conditionsAt, List.filter_flatMap,
    List.flatMap_assoc]
  apply List.flatMap_congr
  intro y hy
  have hsingle := isSingle_of_mem_clauses y hy
  rw [FilterClause.pairs_eq hsingle]
  by_cases hname : y.name = x.name
  · obtain ⟨d, hd, hsuffix⟩ := exists_condition_of_name hroot hmade hx hy heq hname
    rw [hname, Parameters.given_map, hd]
    simp [FilterClause.texts, FilterClause.conditions, hsuffix]
  · -- no condition of the clause is a namesake in the group
    rw [Parameters.given_map_ne hname]
    rcases hsingle with hjunction | ⟨d, hd⟩
    · rw [hjunction]
      simp [FilterClause.conditions]
    · by_cases hkey : y.key = x.key
      · have hsuffix : d.suffix ≠ c.suffix := by
          intro hsuffix
          apply hname
          rw [hd, heq, hkey]
          simp [FilterClause.name, FilterClause.suffix, hsuffix]
        rw [hd]
        simp [FilterClause.conditions, hsuffix]
      · simp [hkey]

end Filter

end ResourceQuery
