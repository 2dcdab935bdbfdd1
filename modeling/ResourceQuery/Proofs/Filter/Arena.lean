import ResourceQuery.Proofs.Filter.Clauses
/-!
# Numbered groups and the places they stand for

A list of places names the groups of a filter by their numbers. `LaidOut` says that every group has
the junction, the group around it and the items that its place has. One lemma for each operation
on groups says how the places change with it; whatever a group knows of used paths stays out of it.
-/

namespace ResourceQuery

namespace Filter

/-- An item of a group, with the place of the group that it is. -/
def namedItem (places : List Place) : FilterItem → Option PlacedItem
  | .group number => places[number]?.map .group
  | .condition c => some (.condition c)

/-- The groups are those of the places, each with what its place has. -/
structure LaidOut (groups : List FilterGroup) (places : List Place) (junction : Place → Junction)
    (around? : Place → Option Place) (items : Place → List PlacedItem) : Prop where
  nodup : places.Nodup
  length : places.length = groups.length
  /-- A group has a smaller number than the groups inside it. -/
  inward : ∀ (number : Nat) (g : FilterGroup) (inner : Nat), groups[number]? = some g →
    FilterItem.group inner ∈ g.items → number < inner
  group : ∀ (number : Nat) (place : Place), places[number]? = some place → ∃ g : FilterGroup,
    groups[number]? = some g ∧
    g.junction = junction place ∧
    g.parent.map (fun n => places[n]?) = (around? place).map some ∧
    g.items.map (namedItem places) = (items place).map some

theorem namedItem_append {places : List Place} {item : FilterItem} {placed : PlacedItem}
    (more : List Place) (h : namedItem places item = some placed) :
    namedItem (places ++ more) item = some placed := by
  cases item with
  | condition c => exact h
  | group number =>
      simp only [namedItem, Option.map_eq_some_iff] at h ⊢
      obtain ⟨place, hplace, hplaced⟩ := h
      exact ⟨place, by rw [List.getElem?_append_left (List.getElem?_eq_some_iff.1 hplace).1, hplace],
        hplaced⟩

theorem map_namedItem_append {places : List Place} {items : List FilterItem}
    {placed : List PlacedItem} (more : List Place)
    (h : items.map (namedItem places) = placed.map some) :
    items.map (namedItem (places ++ more)) = placed.map some := by
  induction items generalizing placed with
  | nil => simpa using h
  | cons item rest ih =>
      cases placed with
      | nil => simp at h
      | cons p others =>
          simp only [List.map_cons, List.cons.injEq] at h ⊢
          exact ⟨namedItem_append more h.1, ih h.2⟩

theorem map_place_append {places : List Place} {parent : Option Nat} {around : Option Place}
    (more : List Place) (h : parent.map (fun n => places[n]?) = around.map some) :
    parent.map (fun n => (places ++ more)[n]?) = around.map some := by
  cases parent with
  | none => simpa using h
  | some n =>
      cases around with
      | none => simp at h
      | some place =>
          simp only [Option.map_some, Option.some.injEq] at h ⊢
          rw [List.getElem?_append_left (List.getElem?_eq_some_iff.1 h).1, h]

theorem addItem_append {number : Nat} {groups : List FilterGroup} (h : number < groups.length)
    (item : FilterItem) (more : List FilterGroup) :
    Filter.addItem number item (groups ++ more) = Filter.addItem number item groups ++ more := by
  unfold Filter.addItem
  induction groups generalizing number with
  | nil => cases h
  | cons g rest ih =>
      cases number with
      | zero => rfl
      | succ number =>
          rw [List.cons_append, List.modify_succ_cons, List.modify_succ_cons, List.cons_append,
            ih (Nat.lt_of_succ_lt_succ h)]

namespace LaidOut

variable {groups : List FilterGroup} {places : List Place} {junction : Place → Junction}
  {around? : Place → Option Place} {items : Place → List PlacedItem}

/-- Only what the places have matters. -/
theorem congr {junction' : Place → Junction} {around?' : Place → Option Place}
    {items' : Place → List PlacedItem} (h : LaidOut groups places junction around? items)
    (hjunction : ∀ p ∈ places, junction' p = junction p)
    (haround : ∀ p ∈ places, around?' p = around? p) (hitems : ∀ p ∈ places, items' p = items p) :
    LaidOut groups places junction' around?' items' where
  nodup := h.nodup
  length := h.length
  inward := h.inward
  group := by
    intro number place hplace
    have hmem := List.mem_of_getElem? hplace
    rw [hjunction place hmem, haround place hmem, hitems place hmem]
    exact h.group number place hplace

theorem number_lt (h : LaidOut groups places junction around? items) {number : Nat} {place : Place}
    (hplace : places[number]? = some place) : number < groups.length := by
  rw [← h.length]
  exact (List.getElem?_eq_some_iff.1 hplace).1

/-- A place has one number. -/
theorem number_unique (h : LaidOut groups places junction around? items) {number other : Nat}
    {place : Place} (hnumber : places[number]? = some place) (hother : places[other]? = some place) :
    number = other := by
  have hlt := (List.getElem?_eq_some_iff.1 hnumber).1
  exact (List.getElem?_inj hlt h.nodup).1 (hnumber.trans hother.symm)

/-- One group changed in a way that its place says. -/
theorem modify (h : LaidOut groups places junction around? items) {number : Nat} {place : Place}
    (hplace : places[number]? = some place) (change : FilterGroup → FilterGroup)
    {junction' : Place → Junction} {items' : Place → List PlacedItem}
    (hothers : ∀ p ∈ places, p ≠ place → junction' p = junction p ∧ items' p = items p)
    (hparent : ∀ g, (change g).parent = g.parent)
    (hinward : ∀ g inner, groups[number]? = some g → FilterItem.group inner ∈ (change g).items →
      FilterItem.group inner ∈ g.items ∨ number < inner)
    (hchange : ∀ g, groups[number]? = some g → g.junction = junction place →
      g.items.map (namedItem places) = (items place).map some →
      (change g).junction = junction' place ∧
        (change g).items.map (namedItem places) = (items' place).map some) :
    LaidOut (groups.modify number change) places junction' around? items' where
  nodup := h.nodup
  length := by rw [List.length_modify, h.length]
  inward := by
    intro n g inner hg hinner
    by_cases hn : number = n
    · subst hn
      rw [List.getElem?_modify_eq] at hg
      obtain ⟨old, hold, rfl⟩ := Option.map_eq_some_iff.1 hg
      rcases hinward old inner hold hinner with hkept | hadded
      · exact h.inward number old inner hold hkept
      · exact hadded
    · rw [List.getElem?_modify_ne _ _ hn] at hg
      exact h.inward n g inner hg hinner
  group := by
    intro n p hp
    by_cases hn : number = n
    · subst hn
      obtain rfl : place = p := Option.some.inj (hplace.symm.trans hp)
      obtain ⟨g, hg, hj, hparents, hi⟩ := h.group number place hplace
      obtain ⟨hj', hi'⟩ := hchange g hg hj hi
      refine ⟨change g, ?_, hj', ?_, hi'⟩
      · rw [List.getElem?_modify_eq, hg, Option.map_eq_map, Option.map_some]
      · rw [hparent, hparents]
    · have hne : p ≠ place := by
        intro heq
        subst heq
        exact hn (h.number_unique hplace hp)
      obtain ⟨hj', hi'⟩ := hothers p (List.mem_of_getElem? hp) hne
      obtain ⟨g, hg, hj, hparents, hi⟩ := h.group n p hp
      exact ⟨g, by rw [List.getElem?_modify_ne _ _ hn, hg], by rw [hj, hj'], hparents,
        by rw [hi, hi']⟩

/-- An item put at the end of a group; if it is a group, it has a greater number. -/
theorem addItem (h : LaidOut groups places junction around? items) {number : Nat} {place : Place}
    (hplace : places[number]? = some place) {item : FilterItem} {placed : PlacedItem}
    (hitem : namedItem places item = some placed)
    (hgreater : ∀ inner, item = .group inner → number < inner) :
    LaidOut (Filter.addItem number item groups) places junction around?
      (fun p => items p ++ if p = place then [placed] else []) := by
  apply h.modify hplace
  · intro p _ hne
    simp [hne]
  · intro g
    rfl
  · intro g inner _ hinner
    rcases List.mem_append.1 hinner with hinner | hinner
    · exact .inl hinner
    · exact .inr (hgreater inner (List.mem_singleton.1 hinner).symm)
  · intro g _ hj hi
    simp [hj, hi, hitem]

theorem addCondition (h : LaidOut groups places junction around? items) {number : Nat}
    {place : Place} (hplace : places[number]? = some place) (c : Condition) :
    LaidOut (Filter.addItem number (.condition c) groups) places junction around?
      (fun p => items p ++ if p = place then [.condition c] else []) :=
  h.addItem hplace rfl fun _ heq => nomatch heq

theorem setJunction (h : LaidOut groups places junction around? items) {number : Nat}
    {place : Place} (hplace : places[number]? = some place) (j : Junction) :
    LaidOut (groups.modify number fun g => { g with junction := j }) places
      (fun p => if p = place then j else junction p) around? items := by
  apply h.modify hplace
  · intro p _ hne
    simp [hne]
  · intro g
    rfl
  · intro g inner _ hinner
    exact .inl hinner
  · intro g _ _ hi
    simp [hi]

theorem noteUsed (h : LaidOut groups places junction around? items) (path : String)
    (steps number : Nat) :
    LaidOut (Filter.noteUsed path steps number groups) places junction around? items := by
  induction steps generalizing number groups with
  | zero => exact h
  | succ steps ih =>
      have hnoted : LaidOut
          (groups.modify number fun g => { g with used := NameSet.insert path g.used })
          places junction around? items := by
        by_cases hlt : number < places.length
        · apply h.modify (List.getElem?_eq_getElem hlt)
          · intro p _ _
            exact ⟨rfl, rfl⟩
          · intro g
            rfl
          · intro g inner _ hinner
            exact .inl hinner
          · intro g _ hj hi
            exact ⟨hj, hi⟩
        · rw [List.modify_eq_self (by rw [← h.length]; omega)]
          exact h
      unfold Filter.noteUsed
      simp only
      split
      · exact ih hnoted _
      · exact hnoted

/-- A group without items at the end of the groups stands for a new place. -/
theorem concat (h : LaidOut groups places junction around? items) {inner : Place}
    {parent : Option Nat} (hfresh : inner ∉ places)
    (hparent : parent.map (fun n => places[n]?) = (around? inner).map some)
    (hitems : items inner = []) :
    LaidOut (groups ++ [⟨junction inner, parent, [], []⟩]) (places ++ [inner]) junction around?
      items where
  nodup := by
    rw [List.nodup_append]
    refine ⟨h.nodup, by simp, ?_⟩
    intro p hp q hq heq
    obtain rfl : q = inner := by simpa using hq
    exact hfresh (heq ▸ hp)
  length := by simp [h.length]
  inward := by
    intro n g i hg hi
    rcases Nat.lt_or_ge n groups.length with hn | hn
    · rw [List.getElem?_append_left hn] at hg
      exact h.inward n g i hg hi
    · rw [List.getElem?_append_right hn] at hg
      obtain rfl := List.mem_singleton.1 (List.mem_of_getElem? hg)
      cases hi
  group := by
    intro n p hp
    rcases Nat.lt_or_ge n places.length with hn | hn
    · rw [List.getElem?_append_left hn] at hp
      rw [List.getElem?_append_left (h.length ▸ hn)]
      obtain ⟨g, hg, hj, hp, hi⟩ := h.group n p hp
      exact ⟨g, hg, hj, map_place_append _ hp, map_namedItem_append _ hi⟩
    · rw [List.getElem?_append_right hn] at hp
      obtain rfl := List.mem_singleton.1 (List.mem_of_getElem? hp)
      obtain ⟨hzero, -⟩ := List.getElem?_eq_some_iff.1 hp
      rw [List.length_singleton, Nat.lt_one_iff] at hzero
      refine ⟨⟨junction p, parent, [], []⟩, ?_, rfl, map_place_append _ hparent, by simp [hitems]⟩
      rw [List.getElem?_append_right (h.length ▸ hn), ← h.length, hzero, List.getElem?_cons_zero]

/-- A new group inside another one stands for a new place. -/
theorem openGroup (h : LaidOut groups places junction around? items) {number : Nat}
    {place inner : Place} (hplace : places[number]? = some place) (hfresh : inner ∉ places)
    (haround : around? inner = some place) (hitems : items inner = []) :
    LaidOut (Filter.addItem number (.group groups.length) groups ++
        [⟨junction inner, some number, [], []⟩]) (places ++ [inner]) junction around?
      (fun p => items p ++ if p = place then [.group inner] else []) := by
  have hnumber := h.number_lt hplace
  have hparent : (some number).map (fun n => places[n]?) = (around? inner).map some := by
    rw [haround, Option.map_some, Option.map_some, hplace]
  have hplace' : (places ++ [inner])[number]? = some place := by
    rw [List.getElem?_append_left (List.getElem?_eq_some_iff.1 hplace).1, hplace]
  have hinner : namedItem (places ++ [inner]) (.group groups.length) = some (.group inner) := by
    simp [namedItem, ← h.length]
  have hput := (h.concat hfresh hparent hitems).addItem hplace' hinner fun _ heq => by
    cases heq
    exact hnumber
  rwa [addItem_append hnumber] at hput

end LaidOut

end Filter

end ResourceQuery
