import ResourceQuery.Proofs.Filter.Truth
/-!
# Clauses that a tree is written as

The parameters of a tree are those of its clauses: one for every disjunction and one for every
condition, in the group with the key that the tree gives it. Clauses that say the same of every key
declare what is read of the tree.
-/

namespace ResourceQuery

namespace Condition

/-- The values that a condition is written with. -/
def texts (c : Condition) : List String :=
  if c.operands.isEmpty then [""] else c.operands.map fun operand => operand.toText?.getD ""

theorem texts_ne_nil (c : Condition) : c.texts ≠ [] := by
  unfold texts
  split
  · simp
  · rename_i hempty
    rw [List.isEmpty_iff] at hempty
    simpa using hempty

theorem encode_eq {c : Condition} (h : ∀ operand ∈ c.operands, operand.toText?.isSome) :
    c.encode = .ok (c.suffix, c.texts) := by
  have hmap : c.operands.mapM Value.toText =
      .ok (c.operands.map fun operand => operand.toText?.getD "") := by
    rw [mapM_eq_ok_iff, List.map_map]
    apply List.map_congr_left
    intro operand hoperand
    obtain ⟨text, htext⟩ := Option.isSome_iff_exists.1 (h operand hoperand)
    simp only [Value.toText, htext, Function.comp_apply, Option.getD_some]
  unfold encode texts
  split
  · rfl
  · rw [hmap]
    rfl

end Condition

namespace FilterClause

/-- The parameters of a clause. -/
def pairs (c : FilterClause) : List (String × String) :=
  let opening := Text.join "." c.key ++ "$"
  match c.content with
  | .junction _ => [(opening, "or")]
  | .conditions conditions | .alternatives conditions =>
    conditions.flatMap fun c => c.texts.map fun text => (opening ++ c.suffix, text)

end FilterClause

namespace FilterTree

def junctionClauses (key : List String) : Junction → List FilterClause
  | .conjunction => []
  | .disjunction => [⟨key, .junction .disjunction⟩]

mutual

/-- The clauses that are written for a tree under a key. -/
def clauses (key : List String) : FilterTree → List FilterClause
  | condition c => [⟨key, .conditions [c]⟩]
  | group junction items => junctionClauses key junction ++ clausesOf key 0 items

/-- The clauses of items, of which some groups were before. -/
def clausesOf (key : List String) (groups : Nat) : List FilterTree → List FilterClause
  | [] => []
  | condition c :: rest => ⟨key, .conditions [c]⟩ :: clausesOf key groups rest
  | group junction items :: rest =>
    clauses (key ++ [Numeral.ofNat (groups + 1)]) (group junction items) ++
      clausesOf key (groups + 1) rest

end

theorem join_concat {key : List String} (h : key ≠ []) (segment : String) :
    Text.join "." (key ++ [segment]) = Text.join "." key ++ "." ++ segment := by
  cases key with
  | nil => exact absurd rfl h
  | cons first others =>
      apply String.toList_inj.1
      rw [List.cons_append, Text.toList_join_cons, String.toList_append, String.toList_append,
        Text.toList_join_cons]
      simp

/-- A tree whose operands have texts is written, as its clauses. -/
theorem parameters_eq {t : FilterTree} {key : List String} (hkey : key ≠ [])
    (h : ∀ c ∈ t.conditions, ∀ operand ∈ c.operands, operand.toText?.isSome) :
    t.parameters (Text.join "." key) = .ok ((t.clauses key).flatMap FilterClause.pairs) := by
  have hcondition : ∀ (c : Condition) (key : List String),
      (∀ operand ∈ c.operands, operand.toText?.isSome) →
      (condition c).parameters (Text.join "." key) =
        .ok (FilterClause.pairs ⟨key, .conditions [c]⟩) := by
    intro c key hc
    rw [parameters, Condition.encode_eq hc]
    simp [FilterClause.pairs]
  induction t using induct generalizing key with
  | condition c =>
      rw [hcondition c key (h c (by simp [conditions]))]
      simp [clauses]
  | group junction items ih =>
      have hitems : ∀ (rest : List FilterTree) (groups : Nat), (∀ item ∈ rest, item ∈ items) →
          parametersOf (Text.join "." key) groups rest =
            .ok ((clausesOf key groups rest).flatMap FilterClause.pairs) := by
        intro rest
        induction rest with
        | nil =>
            intro groups _
            rfl
        | cons item rest ihrest =>
            intro groups hmem
            have hsub : ∀ c ∈ item.conditions, ∀ operand ∈ c.operands,
                operand.toText?.isSome := by
              intro c hc
              apply h
              rw [conditions, mem_conditionsOf]
              exact ⟨item, hmem item (by simp), hc⟩
            have hrest := fun groups => ihrest groups fun other hother =>
              hmem other (List.mem_cons_of_mem _ hother)
            cases item with
            | condition c =>
                rw [parametersOf, hcondition c key (hsub c (by simp [conditions])), hrest, clausesOf]
                rfl
            | group j inner =>
                rw [parametersOf, ← join_concat hkey,
                  ih _ (hmem _ (by simp)) (by simp) hsub, hrest, clausesOf, List.flatMap_append]
                rfl
      rw [parameters, hitems items 0 fun _ hmem => hmem, clauses, List.flatMap_append]
      cases junction <;> rfl

/-! ## Clauses by their keys -/

/-- The groups among items. -/
def innerGroups (items : List FilterTree) : List FilterTree :=
  items.filter fun item => item.condition?.isNone

theorem innerGroups_condition (c : Condition) (rest : List FilterTree) :
    innerGroups (condition c :: rest) = innerGroups rest := by
  simp [innerGroups, condition?]

theorem innerGroups_group (junction : Junction) (items rest : List FilterTree) :
    innerGroups (group junction items :: rest) = group junction items :: innerGroups rest := by
  simp [innerGroups, condition?]

/-- A clause of items is that of a condition, or one of a group by its number. -/
theorem mem_clausesOf {key : List String} {groups : Nat} {items : List FilterTree}
    {x : FilterClause} :
    x ∈ clausesOf key groups items ↔
      (∃ c, condition c ∈ items ∧ x = ⟨key, .conditions [c]⟩) ∨
      ∃ (i : Nat) (t : FilterTree), (innerGroups items)[i]? = some t ∧
        x ∈ t.clauses (key ++ [Numeral.ofNat (groups + i + 1)]) := by
  induction items generalizing groups with
  | nil => simp [clausesOf, innerGroups]
  | cons item rest ih =>
      cases item with
      | condition c =>
          rw [clausesOf, List.mem_cons, ih, innerGroups_condition]
          constructor
          · rintro (rfl | ⟨d, hd, rfl⟩ | h)
            · exact .inl ⟨c, by simp, rfl⟩
            · exact .inl ⟨d, by simp [hd], rfl⟩
            · exact .inr h
          · rintro (⟨d, hd, rfl⟩ | h)
            · rcases List.mem_cons.1 hd with hd | hd
              · cases hd
                exact .inl rfl
              · exact .inr (.inl ⟨d, hd, rfl⟩)
            · exact .inr (.inr h)
      | group junction inner =>
          rw [clausesOf, List.mem_append, ih, innerGroups_group]
          constructor
          · rintro (h | ⟨d, hd, rfl⟩ | ⟨i, t, ht, hx⟩)
            · exact .inr ⟨0, _, rfl, h⟩
            · exact .inl ⟨d, by simp [hd], rfl⟩
            · refine .inr ⟨i + 1, t, by simpa using ht, ?_⟩
              rwa [show groups + (i + 1) + 1 = groups + 1 + i + 1 by omega]
          · rintro (⟨d, hd, rfl⟩ | ⟨i, t, ht, hx⟩)
            · rcases List.mem_cons.1 hd with hd | hd
              · cases hd
              · exact .inr (.inl ⟨d, hd, rfl⟩)
            · cases i with
              | zero =>
                  obtain rfl : group junction inner = t := by simpa using ht
                  exact .inl hx
              | succ i =>
                  refine .inr (.inr ⟨i, t, by simpa using ht, ?_⟩)
                  rwa [show groups + 1 + i + 1 = groups + (i + 1) + 1 by omega]

theorem mem_innerGroups {items : List FilterTree} {t : FilterTree} :
    t ∈ innerGroups items ↔ t ∈ items ∧ t.condition? = none := by
  simp [innerGroups]

theorem mem_junctionClauses {key : List String} {junction : Junction} {x : FilterClause} :
    x ∈ junctionClauses key junction ↔
      junction = .disjunction ∧ x = ⟨key, .junction .disjunction⟩ := by
  cases junction <;> simp [junctionClauses]

/-- A clause of a group is that of its junction, of a condition, or of an inner group by its
number. -/
theorem mem_clauses_group {junction : Junction} {items : List FilterTree} {key : List String}
    {x : FilterClause} :
    x ∈ (group junction items).clauses key ↔
      (junction = .disjunction ∧ x = ⟨key, .junction .disjunction⟩) ∨
      (∃ c, condition c ∈ items ∧ x = ⟨key, .conditions [c]⟩) ∨
      ∃ (i : Nat) (t : FilterTree), (innerGroups items)[i]? = some t ∧
        x ∈ t.clauses (key ++ [Numeral.ofNat (i + 1)]) := by
  rw [clauses, List.mem_append, mem_junctionClauses, mem_clausesOf]
  simp only [Nat.zero_add]

/-- The clauses of a tree stand under its key, in groups named by numbers. -/
theorem key_of_mem_clauses {t : FilterTree} {key : List String} {x : FilterClause}
    (h : x ∈ t.clauses key) : ∃ numbers : List Nat, x.key = key ++ numbers.map Numeral.ofNat := by
  induction t using induct generalizing key with
  | condition c =>
      obtain rfl : x = ⟨key, .conditions [c]⟩ := by simpa [clauses] using h
      exact ⟨[], by simp⟩
  | group junction items ih =>
      rcases mem_clauses_group.1 h with ⟨-, rfl⟩ | ⟨c, -, rfl⟩ | ⟨i, t, ht, hx⟩
      · exact ⟨[], by simp⟩
      · exact ⟨[], by simp⟩
      · have hmem := (mem_innerGroups.1 (List.mem_of_getElem? ht)).1
        obtain ⟨numbers, hnumbers⟩ := ih t hmem hx
        exact ⟨(i + 1) :: numbers, by rw [hnumbers]; simp⟩

theorem prefix_of_mem_clauses {t : FilterTree} {key : List String} {x : FilterClause}
    (h : x ∈ t.clauses key) : key <+: x.key := by
  obtain ⟨numbers, hnumbers⟩ := key_of_mem_clauses h
  rw [hnumbers]
  exact List.prefix_append _ _

theorem key_ne_of_mem_clauses {t : FilterTree} {key : List String} {segment : String}
    {x : FilterClause} (h : x ∈ t.clauses (key ++ [segment])) : x.key ≠ key := by
  intro heq
  have hlength := (prefix_of_mem_clauses h).length_le
  rw [heq, List.length_append, List.length_singleton] at hlength
  omega

theorem segment_eq_of_mem_clauses {t : FilterTree} {key : List String} {segment other : String}
    {x : FilterClause} (h : x ∈ t.clauses (key ++ [segment])) (hother : key ++ [other] <+: x.key) :
    segment = other := by
  have hsame := List.prefix_of_prefix_length_le (prefix_of_mem_clauses h) hother (by simp)
  simpa using hsame.eq_of_length (by simp)

/-- A clause below a group of a tree is one of the inner group with its number. -/
theorem mem_clauses_inner {junction : Junction} {items : List FilterTree} {key : List String}
    {segment : String} {x : FilterClause} (hunder : key ++ [segment] <+: x.key) :
    x ∈ (group junction items).clauses key ↔
      ∃ (i : Nat) (t : FilterTree), (innerGroups items)[i]? = some t ∧
        segment = Numeral.ofNat (i + 1) ∧ x ∈ t.clauses (key ++ [segment]) := by
  have hne : x.key ≠ key := by
    intro heq
    have := hunder.length_le
    rw [heq, List.length_append, List.length_singleton] at this
    omega
  rw [mem_clauses_group]
  constructor
  · rintro (⟨-, rfl⟩ | ⟨d, -, rfl⟩ | ⟨i, t, ht, hx⟩)
    · exact absurd rfl hne
    · exact absurd rfl hne
    · obtain rfl := segment_eq_of_mem_clauses hx hunder
      exact ⟨i, t, ht, rfl, hx⟩
  · rintro ⟨i, t, ht, rfl, hx⟩
    exact .inr (.inr ⟨i, t, ht, hx⟩)

/-- What is written for a group below the key of an inner group is written for that one. -/
theorem mem_clauses_of_innerGroups {junction : Junction} {items : List FilterTree}
    {key : List String} {i : Nat} {t : FilterTree} (ht : (innerGroups items)[i]? = some t)
    {x : FilterClause} (hunder : key ++ [Numeral.ofNat (i + 1)] <+: x.key) :
    x ∈ (group junction items).clauses key ↔ x ∈ t.clauses (key ++ [Numeral.ofNat (i + 1)]) := by
  rw [mem_clauses_inner hunder]
  constructor
  · rintro ⟨i', t', ht', heq, hx⟩
    have hi := Numeral.ofNat_injective heq
    obtain rfl : i = i' := by omega
    obtain rfl := Option.some.inj (ht.symm.trans ht')
    exact hx
  · intro hx
    exact ⟨i, t, ht, rfl, hx⟩

/-- A clause with the key of a group is that of its junction or of a condition. -/
theorem mem_clauses_own {junction : Junction} {items : List FilterTree} {x : FilterClause} :
    x ∈ (group junction items).clauses x.key ↔
      (junction = .disjunction ∧ x = ⟨x.key, .junction .disjunction⟩) ∨
      ∃ c, condition c ∈ items ∧ x = ⟨x.key, .conditions [c]⟩ := by
  rw [mem_clauses_group]
  refine or_congr_right (or_iff_left ?_)
  rintro ⟨i, t, -, hx⟩
  exact key_ne_of_mem_clauses hx rfl

theorem junction_mem_clauses_iff {junction : Junction} {items : List FilterTree}
    {key : List String} {j : Junction} :
    ⟨key, .junction j⟩ ∈ (group junction items).clauses key ↔
      j = .disjunction ∧ junction = .disjunction := by
  rw [mem_clauses_own (x := ⟨key, .junction j⟩)]
  simp [and_comm]

theorem condition_mem_clauses_iff {junction : Junction} {items : List FilterTree}
    {key : List String} {c : Condition} :
    ⟨key, .conditions [c]⟩ ∈ (group junction items).clauses key ↔ condition c ∈ items := by
  rw [mem_clauses_own (x := ⟨key, .conditions [c]⟩)]
  simp

/-- A clause of a tree makes a group a disjunction, or is about one condition of the tree. -/
theorem content_of_mem_clauses {t : FilterTree} {key : List String} {x : FilterClause}
    (h : x ∈ t.clauses key) :
    x = ⟨x.key, .junction .disjunction⟩ ∨ ∃ c ∈ t.conditions, x = ⟨x.key, .conditions [c]⟩ := by
  induction t using induct generalizing key with
  | condition c =>
      obtain rfl : x = ⟨key, .conditions [c]⟩ := by simpa [clauses] using h
      exact .inr ⟨c, by simp [conditions], rfl⟩
  | group junction items ih =>
      have hmember : ∀ item ∈ items, ∀ c ∈ item.conditions,
          c ∈ (group junction items).conditions := by
        intro item hitem c hc
        rw [conditions, mem_conditionsOf]
        exact ⟨item, hitem, hc⟩
      rcases mem_clauses_group.1 h with ⟨-, rfl⟩ | ⟨c, hc, rfl⟩ | ⟨i, t, ht, hx⟩
      · exact .inl rfl
      · exact .inr ⟨c, hmember _ hc c (by simp [conditions]), rfl⟩
      · have hmem := (mem_innerGroups.1 (List.mem_of_getElem? ht)).1
        rcases ih t hmem hx with hx | ⟨c, hc, hx⟩
        · exact .inl hx
        · exact .inr ⟨c, hmember t hmem c hc, hx⟩

/-- Every clause of a tree has a parameter. -/
theorem exists_mem_pairs {t : FilterTree} {key : List String} {x : FilterClause}
    (h : x ∈ t.clauses key) : ∃ pair, pair ∈ x.pairs := by
  rcases content_of_mem_clauses h with hx | ⟨c, -, hx⟩
  · rw [hx]
    exact ⟨_, List.mem_singleton_self _⟩
  · obtain ⟨text, htext⟩ := List.exists_mem_of_ne_nil _ c.texts_ne_nil
    refine ⟨(Text.join "." x.key ++ "$" ++ c.suffix, text), ?_⟩
    rw [hx]
    simp only [FilterClause.pairs, List.flatMap_cons, List.flatMap_nil, List.append_nil,
      List.mem_map]
    exact ⟨text, htext, rfl⟩

/-- Something is written for a tree unless it is silent. -/
theorem isSilent_eq_false_iff {t : FilterTree} (key : List String) :
    t.isSilent = false ↔ ∃ x, x ∈ t.clauses key := by
  induction t using induct generalizing key with
  | condition c => simp [isSilent, clauses]
  | group junction items ih =>
      rw [← Bool.not_eq_true, isSilent_group]
      constructor
      · intro h
        cases junction with
        | disjunction => exact ⟨_, junction_mem_clauses_iff.2 ⟨rfl, rfl⟩⟩
        | conjunction =>
            simp only [true_and, not_forall] at h
            obtain ⟨item, hitem, hloud⟩ := h
            cases item with
            | condition c => exact ⟨_, condition_mem_clauses_iff.2 hitem⟩
            | group j inner =>
                obtain ⟨i, hi⟩ := List.mem_iff_getElem?.1 (mem_innerGroups.2 ⟨hitem, rfl⟩)
                obtain ⟨x, hx⟩ := (ih _ hitem (key ++ [Numeral.ofNat (i + 1)])).1
                  (by simpa using hloud)
                exact ⟨x, mem_clauses_group.2 (.inr (.inr ⟨i, _, hi, hx⟩))⟩
      · rintro ⟨x, hx⟩ ⟨rfl, hsilent⟩
        rcases mem_clauses_group.1 hx with ⟨hj, -⟩ | ⟨c, hc, -⟩ | ⟨i, t, ht, hx⟩
        · cases hj
        · cases hsilent _ hc
        · have hmem := (mem_innerGroups.1 (List.mem_of_getElem? ht)).1
          have hloud := (ih t hmem _).2 ⟨x, hx⟩
          rw [hsilent t hmem] at hloud
          cases hloud

end FilterTree

/-! ## Truth of what is read -/

/-- Clauses say of each key what clauses of a tree say, with conditions read among those of their
group. -/
structure Restates (v : AtomicTest → Bool) (siblings : List String → List Condition)
    (written clauses : List FilterClause) : Prop where
  among : ∀ key c, c ∈ siblings key ↔ ⟨key, .conditions [c]⟩ ∈ written
  keys : ∀ key, (∃ c ∈ clauses, c.key = key) ↔ ∃ c ∈ written, c.key = key
  junction : ∀ key j, ⟨key, .junction j⟩ ∈ clauses ↔ ⟨key, .junction j⟩ ∈ written
  condition : ∀ key b,
    (∃ conditions, ⟨key, .conditions conditions⟩ ∈ clauses ∧ ∃ c ∈ conditions, c.truth v = b) ↔
      ∃ c, ⟨key, .conditions [c]⟩ ∈ written ∧ (c.reread (siblings key)).truth v = b
  alternatives : ∀ key conditions, ⟨key, .alternatives conditions⟩ ∉ clauses

/-- A group has the junction that a clause gives it, and is a conjunction without one. -/
theorem Declared.junction_eq {clauses : List FilterClause} {key : List String}
    {junction : Junction}
    (h : ∀ j, ⟨key, .junction j⟩ ∈ clauses ↔ j = .disjunction ∧ junction = .disjunction) :
    Declared.junction clauses (.key key) = junction := by
  have hmem : ∀ j, j ∈ clauses.filterMap (FilterClause.junctionFor? key) ↔
      ⟨key, .junction j⟩ ∈ clauses := fun _ => FilterClause.mem_filterMap_junctionFor?
  rw [Declared.junction]
  cases hlast : (clauses.filterMap (FilterClause.junctionFor? key)).getLast? with
  | none =>
      rw [List.getLast?_eq_none_iff] at hlast
      cases junction with
      | conjunction => rfl
      | disjunction =>
          have hdisjunction := (hmem .disjunction).2 ((h _).2 ⟨rfl, rfl⟩)
          rw [hlast] at hdisjunction
          cases hdisjunction
  | some j =>
      obtain ⟨rfl, rfl⟩ := (h j).1 ((hmem j).1 (List.mem_of_getLast? hlast))
      rfl

open FilterTree in
/-- What a group is written as declares what is read of the group. -/
theorem Restates.holds_declared {v : AtomicTest → Bool} {siblings : List String → List Condition}
    {written clauses : List FilterClause} (h : Restates v siblings written clauses)
    {t : FilterTree} (hgroup : t.condition? = none) {key : List String}
    (hwritten : ∀ x : FilterClause, key <+: x.key → (x ∈ written ↔ x ∈ t.clauses key))
    {depth : Nat} (hpositive : 0 < depth) (hdeep : ∀ c ∈ clauses, c.key.length < depth + key.length) :
    (Declared.tree clauses depth key).holds (Condition.truth v) =
      t.reread.holds (Condition.truth v) := by
  induction t using FilterTree.induct generalizing key depth with
  | condition c => cases hgroup
  | group junction items ih =>
      obtain ⟨depth, rfl⟩ : ∃ d, depth = d + 1 := ⟨depth - 1, by omega⟩
      -- what is written for the group itself
      have hjunction : ∀ j, ⟨key, .junction j⟩ ∈ clauses ↔
          j = .disjunction ∧ junction = .disjunction := fun j => by
        rw [h.junction, hwritten _ List.prefix_rfl, junction_mem_clauses_iff]
      have hcondition : ∀ c, ⟨key, .conditions [c]⟩ ∈ written ↔ .condition c ∈ items := fun c => by
        rw [hwritten _ List.prefix_rfl, condition_mem_clauses_iff]
      -- what is written for the groups inside
      have hinner : ∀ (i : Nat) (t : FilterTree), (innerGroups items)[i]? = some t →
          ∀ x : FilterClause, key ++ [Numeral.ofNat (i + 1)] <+: x.key →
            (x ∈ written ↔ x ∈ t.clauses (key ++ [Numeral.ofNat (i + 1)])) := by
        intro i t ht x hunder
        rw [hwritten x ((List.prefix_append _ _).trans hunder), mem_clauses_of_innerGroups ht hunder]
      have hbelow : ∀ (i : Nat) (t : FilterTree), (innerGroups items)[i]? = some t →
          ∀ c ∈ clauses, key ++ [Numeral.ofNat (i + 1)] <+: c.key →
          (Declared.tree clauses depth (key ++ [Numeral.ofNat (i + 1)])).holds
            (Condition.truth v) = t.reread.holds (Condition.truth v) := by
        intro i t ht c hc hunder
        obtain ⟨hmem, hnone⟩ := mem_innerGroups.1 (List.mem_of_getElem? ht)
        have hlength := hunder.length_le
        have hclause := hdeep c hc
        simp only [List.length_append, List.length_singleton] at hlength
        refine ih t hmem hnone (hinner i t ht) (by omega) fun other hother => ?_
        have hother := hdeep other hother
        simp only [List.length_append, List.length_singleton]
        omega
      rw [Declared.tree, Declared.junction_eq hjunction, reread, holds_group, holds_group]
      apply Junction.holds_congr
      generalize junction.decisive = b
      rw [Declared.mem_itemHolds, mem_map_holds_rereadOf, h.condition]
      have hamong : ∀ c : Condition, (c.reread (siblings key)).truth v =
          (c.reread (items.filterMap condition?)).truth v := by
        intro c
        apply Condition.truth_reread_congr
        intro d
        rw [h.among, hcondition, mem_filterMap_condition?]
      simp only [hcondition, hamong]
      apply or_congr Iff.rfl
      constructor
      · rintro (⟨conditions, hc, -⟩ | ⟨segment, ⟨c, hc, hunder⟩, hb⟩)
        · exact absurd hc (h.alternatives key conditions)
        · obtain ⟨x, hx, hkey⟩ := (h.keys c.key).1 ⟨c, hc, rfl⟩
          rw [← hkey] at hunder
          obtain ⟨i, t, ht, rfl, hx⟩ := (mem_clauses_inner hunder).1
            ((hwritten x ((List.prefix_append _ _).trans hunder)).1 hx)
          obtain ⟨hmem, hnone⟩ := mem_innerGroups.1 (List.mem_of_getElem? ht)
          rw [hbelow i t ht c hc (by rwa [← hkey])] at hb
          cases t with
          | condition d => cases hnone
          | group j inner =>
              exact ⟨j, inner, hmem, (isSilent_eq_false_iff _).2 ⟨x, hx⟩, hb⟩
      · rintro ⟨j, inner, hmem, hloud, hb⟩
        obtain ⟨i, hi⟩ := List.mem_iff_getElem?.1 (mem_innerGroups.2 ⟨hmem, rfl⟩)
        obtain ⟨x, hx⟩ := (isSilent_eq_false_iff (key ++ [Numeral.ofNat (i + 1)])).1 hloud
        have hunder := prefix_of_mem_clauses hx
        obtain ⟨c, hc, hkey⟩ := (h.keys x.key).2 ⟨x, (hinner i _ hi x hunder).2 hx, rfl⟩
        rw [← hkey] at hunder
        exact .inr ⟨_, ⟨c, hc, hunder⟩, by rw [hbelow i _ hi c hc hunder, hb]⟩

end ResourceQuery
