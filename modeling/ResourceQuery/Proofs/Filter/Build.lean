import Mathlib.Data.Option.Basic
import ResourceQuery.Proofs.Filter.Arena
import ResourceQuery.Proofs.Filter.Draft
import ResourceQuery.Proofs.Outcome
/-!
# Building a filter

A filter is built entry by entry. The groups opened so far are those of the tree that the clauses
read so far declare; `addEntry_lays` says that one entry keeps this, and that the only entries that
fail are those that are no clause.
-/

namespace ResourceQuery

namespace Filter

/-! ## Reaching the group of a key -/

/-- Every place has a group, and the groups of keys are known by their keys. -/
structure Draft.Lays (root : String) (d : Draft) (places : List Place) (junction : Place → Junction)
    (around? : Place → Option Place) (items : Place → List PlacedItem) : Prop where
  laid : LaidOut d.filter.groups places junction around? items
  rooted : places[Filter.root]? = some (.key [root])
  found : ∀ (key : List String) (number : Nat), d.opened.lookup key = some number →
    places[number]? = some (.key key)
  known : ∀ key : List String, .key key ∈ places → key = [root] ∨ (d.opened.lookup key).isSome

/-- What the way from a key over further segments adds to the group of a place. -/
def openedOn (places : List Place) (front : List String) : List String → Place → List PlacedItem
  | [], _ => []
  | segment :: rest, p =>
    (if p = .key front ∧ .key (front ++ [segment]) ∉ places then
      [.group (.key (front ++ [segment]))] else []) ++
      openedOn places (front ++ [segment]) rest p

/-- Only groups of longer keys are asked for on the way. -/
theorem openedOn_append {places : List Place} {front key rest : List String} (p : Place)
    (h : key.length ≤ front.length) :
    openedOn (places ++ [.key key]) front rest p = openedOn places front rest p := by
  induction rest generalizing front with
  | nil => rfl
  | cons segment rest ih =>
      have hne : front ++ [segment] ≠ key := by
        intro heq
        have := congrArg List.length heq
        simp at this
        omega
      have hlength : key.length ≤ (front ++ [segment]).length := by
        simp
        omega
      simp only [openedOn, ih hlength, List.mem_append, List.mem_singleton, Place.key.injEq, hne,
        or_false]

/-- Nothing is added to groups that do not stand on the way. -/
theorem openedOn_eq_nil {places : List Place} {front key rest : List String}
    (h : ¬(front <+: key ∧ key <+: front ++ rest ∧ key ≠ front ++ rest)) :
    openedOn places front rest (.key key) = [] := by
  induction rest generalizing front with
  | nil => rfl
  | cons segment rest ih =>
      have hfront : key ≠ front := by
        rintro rfl
        exact h ⟨List.prefix_rfl, List.prefix_append _ _, by simp⟩
      have hrest : ¬(front ++ [segment] <+: key ∧ key <+: front ++ [segment] ++ rest ∧
          key ≠ front ++ [segment] ++ rest) := by
        rintro ⟨hunder, hkey, hne⟩
        rw [List.append_assoc, List.singleton_append] at hkey hne
        exact h ⟨(List.prefix_append _ _).trans hunder, hkey, hne⟩
      simp only [openedOn, ih hrest, Place.key.injEq, hfront, false_and, if_false, List.append_nil]

theorem openedOn_alternatives (places : List Place) (front rest : List String) (number : Nat) :
    openedOn places front rest (.alternatives number) = [] := by
  induction rest generalizing front with
  | nil => rfl
  | cons segment rest ih => simp [openedOn, ih]

/-- A group on the way gets the next one, unless that was open before. -/
theorem openedOn_of_way {places : List Place} {front key rest : List String} {segment : String}
    (h : key ++ segment :: rest = front ++ tail) (hfront : front <+: key) :
    openedOn places front tail (.key key) =
      if .key (key ++ [segment]) ∈ places then [] else [.group (.key (key ++ [segment]))] := by
  induction tail generalizing front with
  | nil =>
      have := hfront.length_le
      have := congrArg List.length h
      simp at this
      omega
  | cons next tail ih =>
      by_cases heq : key = front
      · subst heq
        obtain ⟨rfl, rfl⟩ : segment = next ∧ rest = tail := by simpa using h
        have hnil : openedOn places (key ++ [segment]) rest (.key key) = [] := by
          apply openedOn_eq_nil
          rintro ⟨hunder, -⟩
          have hlength := hunder.length_le
          rw [List.length_append, List.length_singleton] at hlength
          omega
        simp only [openedOn, hnil, List.append_nil, true_and]
        by_cases hmem : Place.key (key ++ [segment]) ∈ places
        · rw [if_neg (by simpa using hmem), if_pos hmem]
        · rw [if_pos (by simpa using hmem), if_neg hmem]
      · have hlonger : front ++ [next] <+: key := by
          obtain ⟨more, rfl⟩ := hfront
          rw [List.append_assoc, List.append_cancel_left_eq] at h
          cases more with
          | nil => simp at heq
          | cons other more =>
              obtain ⟨rfl, -⟩ : other = next ∧ _ := by simpa using h
              exact ⟨more, by simp⟩
        simp only [openedOn, Place.key.injEq, heq, false_and, if_false, List.nil_append]
        exact ih (by simpa using h) hlonger

/-- A key is on the way from one over further segments. -/
def OnWay (front rest key : List String) : Prop :=
  front <+: key ∧ key ≠ front ∧ key <+: front ++ rest

theorem not_onWay_nil (front key : List String) : ¬OnWay front [] key := by
  rintro ⟨hunder, hne, hkey⟩
  rw [List.append_nil] at hkey
  exact hne (hkey.eq_of_length_le hunder.length_le)

/-- The keys on the way over a segment: the next one, and those behind it. -/
theorem onWay_cons (front rest : List String) (segment : String) (key : List String) :
    OnWay front (segment :: rest) key ↔
      key = front ++ [segment] ∨ OnWay (front ++ [segment]) rest key := by
  have hsplit : front ++ [segment] ++ rest = front ++ segment :: rest := by simp
  unfold OnWay
  rw [hsplit]
  constructor
  · rintro ⟨⟨tail, rfl⟩, hne, hkey⟩
    rw [List.prefix_append_right_inj] at hkey
    cases tail with
    | nil => simp at hne
    | cons other tail =>
        obtain ⟨rfl, htail⟩ := List.cons_prefix_cons.1 hkey
        by_cases hnil : tail = []
        · exact .inl (by rw [hnil])
        · refine .inr ⟨⟨tail, by simp⟩, by simpa using hnil, ?_⟩
          rw [List.prefix_append_right_inj]
          exact List.cons_prefix_cons.2 ⟨rfl, htail⟩
  · rintro (rfl | ⟨hunder, hne, hkey⟩)
    · refine ⟨List.prefix_append _ _, by simp, ?_⟩
      rw [List.prefix_append_right_inj]
      exact List.cons_prefix_cons.2 ⟨rfl, List.nil_prefix⟩
    · refine ⟨(List.prefix_append _ _).trans hunder, ?_, hkey⟩
      rintro rfl
      have hlength := hunder.length_le
      rw [List.length_append, List.length_singleton] at hlength
      omega

theorem openGroup_eq {f : Filter} {parent : Nat} (h : parent < f.groups.length) (j : Junction) :
    f.openGroup parent j = .ok (f.groups.length, { f with
      groups := addItem parent (.group f.groups.length) f.groups ++ [⟨j, some parent, [], []⟩] }) := by
  simp only [openGroup, checkGroup, if_pos h]
  rfl

section

variable {root : String} {junction : Place → Junction} {around? : Place → Option Place}

/-- A new group inside the group of a key, known by a key of its own. -/
theorem Draft.Lays.openKey {d : Draft} {places : List Place} {items : Place → List PlacedItem}
    {front key : List String} {number : Nat} (h : d.Lays root places junction around? items)
    (hnumber : places[number]? = some (.key front)) (hfresh : .key key ∉ places)
    (hjunction : junction (.key key) = .conjunction) (haround : around? (.key key) = some (.key front))
    (hitems : items (.key key) = []) :
    Draft.Lays root
      ⟨{ d.filter with
          groups := addItem number (.group d.filter.groups.length) d.filter.groups ++
            [⟨.conjunction, some number, [], []⟩] },
        (key, d.filter.groups.length) :: d.opened⟩
      (places ++ [.key key]) junction around?
      (fun p => items p ++ if p = .key front then [.group (.key key)] else []) where
  laid := by
    have hopen := h.laid.openGroup hnumber hfresh haround hitems
    rw [hjunction] at hopen
    exact hopen
  rooted := by
    rw [List.getElem?_append_left (List.getElem?_eq_some_iff.1 h.rooted).1, h.rooted]
  found := by
    intro other n hlookup
    rw [List.lookup_cons] at hlookup
    split at hlookup
    · rename_i heq
      obtain rfl : other = key := by simpa using heq
      obtain rfl : d.filter.groups.length = n := by simpa using hlookup
      rw [← h.laid.length]
      simp
    · have hplace := h.found other n hlookup
      rw [List.getElem?_append_left (List.getElem?_eq_some_iff.1 hplace).1, hplace]
  known := by
    intro other hmem
    rw [List.lookup_cons]
    rcases List.mem_append.1 hmem with hmem | hmem
    · rcases h.known other hmem with heq | hsome
      · exact .inl heq
      · right
        split
        · rfl
        · exact hsome
    · obtain rfl : other = key := by simpa using hmem
      simp

/-- From a key over further segments the groups on the way are there, and nothing else has
changed. -/
structure Draft.Reached (root : String) (junction : Place → Junction)
    (around? : Place → Option Place) (front rest : List String) (places : List Place)
    (items : Place → List PlacedItem) (d : Draft) (number : Nat) (d' : Draft)
    (places' : List Place) : Prop where
  lays : d'.Lays root places' junction around? (fun p => items p ++ openedOn places front rest p)
  place : places'[number]? = some (.key (front ++ rest))
  places : ∀ p, p ∈ places' ↔ p ∈ places ∨ ∃ key, p = .key key ∧ OnWay front rest key
  filter : d'.filter = { d.filter with groups := d'.filter.groups }

namespace Draft.Reached

variable {front rest : List String} {segment : String} {places places' : List Place}
  {items : Place → List PlacedItem} {d d' d'' : Draft} {number : Nat}

theorem here (h : d.Lays root places junction around? items)
    (hnumber : places[number]? = some (.key front)) :
    Draft.Reached root junction around? front [] places items d number d places where
  lays := by simpa [openedOn] using h
  place := by simpa using hnumber
  places := fun p => by simp [not_onWay_nil]
  filter := rfl

/-- Over a segment whose group is there. -/
theorem known (hmem : .key (front ++ [segment]) ∈ places)
    (h : Draft.Reached root junction around? (front ++ [segment]) rest places items d number d'
      places') :
    Draft.Reached root junction around? front (segment :: rest) places items d number d' places'
    where
  lays := by
    simpa only [openedOn, hmem, not_true_eq_false, and_false, if_false, List.nil_append] using h.lays
  place := by simpa using h.place
  places := by
    intro p
    rw [h.places]
    simp only [onWay_cons]
    constructor
    · rintro (hp | ⟨key, rfl, hkey⟩)
      · exact .inl hp
      · exact .inr ⟨key, rfl, .inr hkey⟩
    · rintro (hp | ⟨key, rfl, rfl | hkey⟩)
      · exact .inl hp
      · exact .inl hmem
      · exact .inr ⟨key, rfl, hkey⟩
  filter := h.filter

/-- Over a segment whose group is opened. -/
theorem opened (hfresh : .key (front ++ [segment]) ∉ places)
    (h : Draft.Reached root junction around? (front ++ [segment]) rest
      (places ++ [.key (front ++ [segment])])
      (fun p => items p ++ if p = .key front then [.group (.key (front ++ [segment]))] else []) d'
      number d'' places')
    (hfilter : d'.filter = { d.filter with groups := d'.filter.groups }) :
    Draft.Reached root junction around? front (segment :: rest) places items d number d'' places'
    where
  lays := by
    simp only [openedOn, hfresh, not_false_eq_true, and_true]
    simpa only [List.append_assoc, openedOn_append _ (Nat.le_refl _)] using h.lays
  place := by simpa using h.place
  places := by
    intro p
    rw [h.places, List.mem_append, List.mem_singleton]
    simp only [onWay_cons]
    constructor
    · rintro ((hp | rfl) | ⟨key, rfl, hkey⟩)
      · exact .inl hp
      · exact .inr ⟨_, rfl, .inl rfl⟩
      · exact .inr ⟨key, rfl, .inr hkey⟩
    · rintro (hp | ⟨key, rfl, rfl | hkey⟩)
      · exact .inl (.inl hp)
      · exact .inl (.inr rfl)
      · exact .inr ⟨key, rfl, hkey⟩
  filter := by rw [h.filter, hfilter]

end Draft.Reached

/-- Segments behind a group that is open: their groups are there in the end, and nothing else
changes. -/
theorem Draft.reach_lays {rest front : List String} {number : Nat} {d : Draft}
    {places : List Place} {items : Place → List PlacedItem}
    (h : d.Lays root places junction around? items) (hfront : front ≠ [])
    (hnumber : places[number]? = some (.key front))
    (hjunction : ∀ key, key ≠ [] → .key key ∉ places → junction (.key key) = .conjunction)
    (haround : ∀ key : List String, 1 < key.length → around? (.key key) = some (.key key.dropLast))
    (hitems : ∀ p ∉ places, p ≠ .key [] → items p = []) :
    ∃ reached d' places', d.reach (some number) front rest = .ok (reached, d') ∧
      Draft.Reached root junction around? front rest places items d reached d' places' := by
  induction rest generalizing front number d places items with
  | nil => exact ⟨number, d, places, rfl, .here h hnumber⟩
  | cons segment rest ih =>
      have hinner : front ++ [segment] ≠ [] := by simp
      have hlonger : 1 < (front ++ [segment]).length := by
        have := List.length_pos_iff.2 hfront
        simp
        omega
      unfold Draft.reach
      simp only
      split
      · rename_i known hknown
        have hplace := h.found _ _ hknown
        obtain ⟨reached, d', places', hreach, hreached⟩ := ih h hinner hplace hjunction hitems
        exact ⟨reached, d', places', hreach, .known (List.mem_of_getElem? hplace) hreached⟩
      · rename_i hunknown
        have hfresh : Place.key (front ++ [segment]) ∉ places := by
          intro hmem
          rcases h.known _ hmem with heq | hsome
          · rw [heq] at hlonger
            simp at hlonger
          · rw [hunknown] at hsome
            cases hsome
        have hgrown := h.openKey hnumber hfresh (hjunction _ hinner hfresh)
          (by rw [haround _ hlonger, List.dropLast_concat]) (hitems _ hfresh (by simp))
        have hnew : (places ++ [Place.key (front ++ [segment])])[d.filter.groups.length]? =
            some (.key (front ++ [segment])) := by
          rw [← h.laid.length]
          simp
        have hold : ∀ p, p ∉ places ++ [.key (front ++ [segment])] → p ∉ places :=
          fun p hp hmem => hp (List.mem_append_left _ hmem)
        have hempty : ∀ p ∉ places ++ [.key (front ++ [segment])], p ≠ .key [] →
            (items p ++ if p = .key front then [.group (.key (front ++ [segment]))] else []) =
              [] := by
          intro p hp hnil
          have hne : p ≠ .key front := by
            rintro rfl
            exact hold _ hp (List.mem_of_getElem? hnumber)
          simp [hitems p (hold p hp) hnil, hne]
        rw [openGroup_eq (h.laid.number_lt hnumber)]
        obtain ⟨reached, d', places', hreach, hreached⟩ :=
          ih hgrown hinner hnew (fun key hne hkey => hjunction key hne (hold _ hkey)) hempty
        exact ⟨reached, d', places', hreach, .opened hfresh hreached rfl⟩

/-- The whole key: the first group on the way is the outermost one. -/
theorem Draft.reach_root_lays (rest : List String) {d : Draft} {places : List Place}
    {items : Place → List PlacedItem} (h : d.Lays root places junction around? items)
    (hjunction : ∀ key, key ≠ [] → .key key ∉ places → junction (.key key) = .conjunction)
    (haround : ∀ key : List String, 1 < key.length → around? (.key key) = some (.key key.dropLast))
    (hitems : ∀ p ∉ places, p ≠ .key [] → items p = []) :
    ∃ reached d' places', d.reach none [] (root :: rest) = .ok (reached, d') ∧
      Draft.Reached root junction around? [root] rest places items d reached d' places' := by
  have hmem := List.mem_of_getElem? h.rooted
  unfold Draft.reach
  simp only [List.nil_append]
  split
  · rename_i number hnumber
    exact Draft.reach_lays h (by simp) (h.found _ _ hnumber) hjunction haround hitems
  · have hknown : Draft.Lays root { d with opened := ([root], Filter.root) :: d.opened } places
        junction around? items := by
      refine ⟨h.laid, h.rooted, ?_, ?_⟩
      · intro key number hlookup
        rw [List.lookup_cons] at hlookup
        split at hlookup
        · rename_i heq
          obtain rfl : key = [root] := by simpa using heq
          obtain rfl : Filter.root = number := by simpa using hlookup
          exact h.rooted
        · exact h.found key number hlookup
      · intro key hkey
        by_cases heq : key = [root]
        · exact .inl heq
        · right
          rcases h.known key hkey with hroot | hsome
          · exact absurd hroot heq
          · rw [List.lookup_cons]
            split
            · rfl
            · exact hsome
    obtain ⟨reached, d', places', hreach, hreached⟩ :=
      Draft.reach_lays hknown (by simp) h.rooted hjunction haround hitems
    exact ⟨reached, d', places', hreach, hreached.lays, hreached.place, hreached.places,
      hreached.filter⟩

end

/-! ## Conditions -/

/-- What a filter is about: where its conditions start, and the path that leads there. -/
def subject (f : Filter) : String × Option Path := (f.scope, f.basePath)

theorem addCondition_eq {s : Schema} {f : Filter} {number : Nat} (h : number < f.groups.length)
    (path : String) (options : ConditionOptions) (test : Test) (operands : List String) :
    f.addCondition s number path options test operands =
      (makeCondition s f.scope path options test operands).map fun condition => { f with
        groups := addItem number (.condition condition)
          (noteUsed condition.path.text (number + 1) number f.groups)
        participatingTypes :=
          NameSet.insertAll condition.path.participatingTypes f.participatingTypes } := by
  simp only [addCondition, checkGroup, if_pos h]
  cases makeCondition s f.scope path options test operands <;> rfl

/-- A condition text fails before any path is looked at, or stands for one test of all its paths. -/
theorem addConditionText_cases (s : Schema) (config : Configuration) (f : Filter) (number : Nat)
    (e : FilterEntry) (text : ConditionText) :
    (e.conditions? s config f.scope text = none ∧
      ∃ fault, f.addConditionText s config number e.name text e.values = .error fault) ∨
    ∃ options test operands,
      e.conditions? s config f.scope text = (text.paths.mapM fun path =>
        (makeCondition s f.scope path.path options test operands).toOption) ∧
      f.addConditionText s config number e.name text e.values =
        if 1 < text.paths.length then do
          let (inner, f) ← f.openGroup number .disjunction
          addTests s inner options test operands f text.paths
        else addTests s number options test operands f text.paths := by
  cases hreading : Qualifier.ofCondition text.qualifiers with
  | error fault =>
      left
      simp only [FilterEntry.conditions?, addConditionText, hreading]
      exact ⟨rfl, fault, rfl⟩
  | ok reading =>
      cases htest : testAndOperands e.name reading.test e.values with
      | error fault =>
          left
          constructor
          · simp [FilterEntry.conditions?, hreading, htest, Except.toOption]
          · refine ⟨fault, ?_⟩
            simp only [addConditionText, hreading]
            change (testAndOperands e.name reading.test e.values >>= _) = _
            rw [htest]
            rfl
      | ok tested =>
          obtain ⟨test, operands⟩ := tested
          by_cases hmany : config.maxOperands < operands.length
          · left
            constructor
            · simp [FilterEntry.conditions?, hreading, htest, Except.toOption,
                ↓guard_of_not (Nat.not_le.2 hmany)]
            · refine ⟨(Fault.of (.request (.tooManyValues config.maxOperands))).about e.name, ?_⟩
              simp only [addConditionText, hreading]
              change (testAndOperands e.name reading.test e.values >>= _) = _
              rw [htest]
              change (if config.maxOperands < operands.length then _ else _) = _
              rw [if_pos hmany]
              rfl
          · right
            refine ⟨{ reading.options with negated := text.negated }, test, operands, ?_, ?_⟩
            · simp [FilterEntry.conditions?, hreading, htest, Except.toOption,
                ↓guard_of (Nat.not_lt.1 hmany)]
            · simp only [addConditionText, hreading]
              change (testAndOperands e.name reading.test e.values >>= _) = _
              rw [htest]
              change (if config.maxOperands < operands.length then _ else _) = _
              rw [if_neg hmany]

section

variable {junction : Place → Junction} {around? : Place → Option Place}

/-- The tests of all paths are items of the group, or one of them cannot be made. -/
theorem addTests_lays (s : Schema) (options : ConditionOptions) (test : Test)
    (operands : List String) (paths : List PathText) {f : Filter} {number : Nat} {place : Place}
    {places : List Place} {items : Place → List PlacedItem}
    (h : LaidOut f.groups places junction around? items) (hplace : places[number]? = some place) :
    match paths.mapM fun path =>
        (makeCondition s f.scope path.path options test operands).toOption with
    | some conditions => ∃ f', addTests s number options test operands f paths = .ok f' ∧
        LaidOut f'.groups places junction around?
          (fun p => items p ++ if p = place then conditions.map .condition else []) ∧
        f'.subject = f.subject
    | none => ∃ fault, addTests s number options test operands f paths = .error fault := by
  induction paths generalizing f items with
  | nil =>
      refine ⟨f, rfl, ?_, rfl⟩
      simpa using h
  | cons path rest ih =>
      have hequation := addCondition_eq (s := s) (h.number_lt hplace) path.path options test operands
      cases hmade : makeCondition s f.scope path.path options test operands with
      | error fault =>
          rw [hmade] at hequation
          simp only [List.mapM_cons, hmade, Except.toOption]
          exact ⟨fault.locatedAt path.position, by
            simp only [addTests, List.foldlM_cons, hequation]
            rfl⟩
      | ok c =>
          rw [hmade] at hequation
          have hnext := (h.noteUsed c.path.text (number + 1) number).addCondition hplace c
          have hrest := ih (f := { f with
            groups := addItem number (.condition c)
              (noteUsed c.path.text (number + 1) number f.groups)
            participatingTypes :=
              NameSet.insertAll c.path.participatingTypes f.participatingTypes }) hnext
          have hfold : addTests s number options test operands f (path :: rest) =
              addTests s number options test operands { f with
                groups := addItem number (.condition c)
                  (noteUsed c.path.text (number + 1) number f.groups)
                participatingTypes :=
                  NameSet.insertAll c.path.participatingTypes f.participatingTypes } rest := by
            simp only [addTests, List.foldlM_cons, hequation]
            rfl
          have hsome : (makeCondition s f.scope path.path options test operands).toOption =
              some c := by
            rw [hmade]
            rfl
          rw [hfold]
          simp only [List.mapM_cons, hsome, Option.bind_eq_bind, Option.bind_some]
          cases hconditions : rest.mapM fun path =>
              (makeCondition s f.scope path.path options test operands).toOption with
          | none =>
              simp only [hconditions] at hrest
              simpa using hrest
          | some conditions =>
              simp only [hconditions] at hrest
              obtain ⟨f', hadd, hlaid, hsubject⟩ := hrest
              refine ⟨f', hadd, ?_, hsubject⟩
              have hitems : ∀ p : Place, (if p = place then [PlacedItem.condition c] else []) ++
                  (if p = place then conditions.map .condition else []) =
                  if p = place then (c :: conditions).map .condition else [] := by
                intro p
                split <;> rfl
              simpa only [List.append_assoc, hitems] using hlaid

/-- The conditions of a condition text are items of the group, or of a new group with their
alternatives. -/
theorem addConditionText_lays (s : Schema) (config : Configuration) {f : Filter} {number i : Nat}
    {e : FilterEntry} {text : ConditionText} {places : List Place} {items : Place → List PlacedItem}
    (h : LaidOut f.groups places junction around? items)
    (hplace : places[number]? = some (.key e.group.segments))
    (hfresh : .alternatives i ∉ places) (hjunction : junction (.alternatives i) = .disjunction)
    (haround : around? (.alternatives i) = some (.key e.group.segments))
    (hitems : items (.alternatives i) = []) (hcontent : e.content = .condition text) :
    match e.content? s config f.scope with
    | some content => ∃ f' more,
        f.addConditionText s config number e.name text e.values = .ok f' ∧
        LaidOut f'.groups (places ++ more) junction around?
          (fun p => items p ++ FilterClause.putAt i ⟨e.group.segments, content⟩ p) ∧
        (∀ p, p ∈ more ↔ p = .alternatives i ∧ ∃ conditions, content = .alternatives conditions) ∧
        f'.subject = f.subject
    | none => ∃ fault,
        f.addConditionText s config number e.name text e.values = .error fault := by
  simp only [FilterEntry.content?, hcontent]
  rcases addConditionText_cases s config f number e text with
    ⟨hnone, hfault⟩ | ⟨options, test, operands, hconditions, hadd⟩
  · rw [hnone]
    exact hfault
  rw [hconditions, hadd]
  by_cases hseveral : 1 < text.paths.length
  · have hopen := h.openGroup hplace hfresh haround hitems
    rw [hjunction] at hopen
    have hinner : (places ++ [Place.alternatives i])[f.groups.length]? =
        some (.alternatives i) := by
      rw [← h.length]
      simp
    have htests := addTests_lays s options test operands text.paths (f := { f with
      groups := addItem number (.group f.groups.length) f.groups ++
        [⟨.disjunction, some number, [], []⟩] }) hopen hinner
    simp only [if_pos hseveral, openGroup_eq (h.number_lt hplace)]
    cases hmade : text.paths.mapM fun path =>
        (makeCondition s f.scope path.path options test operands).toOption with
    | none =>
        simp only [hmade] at htests
        exact htests
    | some conditions =>
        simp only [hmade] at htests
        obtain ⟨f', hf', hlaid, hsubject⟩ := htests
        refine ⟨f', [.alternatives i], hf', ?_, ?_, hsubject⟩
        · simpa only [FilterClause.putAt_alternatives, List.append_assoc] using hlaid
        · simp
  · have htests := addTests_lays s options test operands text.paths h hplace
    simp only [if_neg hseveral]
    cases hmade : text.paths.mapM fun path =>
        (makeCondition s f.scope path.path options test operands).toOption with
    | none =>
        simp only [hmade] at htests
        exact htests
    | some conditions =>
        simp only [hmade] at htests
        obtain ⟨f', hf', hlaid, hsubject⟩ := htests
        refine ⟨f', [], hf', ?_, by simp, hsubject⟩
        simpa only [FilterClause.putAt_conditions, List.append_nil] using hlaid

end

/-- More groups, none of them with a key, leave what is known of keys as it is. -/
theorem Draft.Lays.extend {root : String} {d : Draft} {f : Filter} {places more : List Place}
    {junction junction' : Place → Junction} {around? around?' : Place → Option Place}
    {items items' : Place → List PlacedItem} (h : d.Lays root places junction around? items)
    (hmore : ∀ key, Place.key key ∉ more)
    (hlaid : LaidOut f.groups (places ++ more) junction' around?' items') :
    Draft.Lays root { d with filter := f } (places ++ more) junction' around?' items' where
  laid := hlaid
  rooted := by
    rw [List.getElem?_append_left (List.getElem?_eq_some_iff.1 h.rooted).1, h.rooted]
  found := by
    intro key number hlookup
    have hplace := h.found key number hlookup
    rw [List.getElem?_append_left (List.getElem?_eq_some_iff.1 hplace).1, hplace]
  known := by
    intro key hkey
    rcases List.mem_append.1 hkey with hkey | hkey
    · exact h.known key hkey
    · exact absurd hkey (hmore key)

/-! ## Entries -/

/-- The groups of a draft are those of the tree that clauses declare. -/
def Draft.Declares (root : String) (clauses : List FilterClause) (d : Draft) : Prop :=
  ∃ places, d.Lays root places (Declared.junction clauses) (Declared.around? clauses)
      (Declared.items clauses) ∧
    ∀ p, p ∈ places ↔ Declared.IsPlace root clauses p

/-- The way to the group of a clause opens what the clause is the first to need. -/
theorem openedOn_eq_opened {root : String} {rest key : List String} {clauses : List FilterClause}
    {c : FilterClause} {places : List Place}
    (hplaces : ∀ p, p ∈ places ↔ Declared.IsPlace root clauses p) (hc : c.key = root :: rest)
    (hkey : key ≠ []) :
    openedOn places [root] rest (.key key) = c.opened clauses key := by
  by_cases hway : key <+: c.key ∧ key ≠ c.key
  · obtain ⟨⟨tail, htail⟩, hne⟩ := hway
    cases tail with
    | nil => exact absurd (by simpa using htail) hne
    | cons segment tail =>
        have hroot : [root] <+: key := by
          cases key with
          | nil => simp at hkey
          | cons first more =>
              rw [hc, List.cons_append, List.cons.injEq] at htail
              exact ⟨more, by rw [htail.1]; rfl⟩
        have htake : c.key.take (key.length + 1) = key ++ [segment] := by
          rw [← htail, List.take_append, List.take_of_length_le (by omega)]
          simp
        have hopen : Place.key (key ++ [segment]) ∈ places ↔
            ∃ b ∈ clauses, key ++ [segment] <+: b.key := by
          have hlonger : key ++ [segment] ≠ [root] := by
            intro heq
            have := congrArg List.length heq
            simp at this
            exact hkey this
          rw [hplaces]
          simp [Declared.IsPlace, hlonger]
        have hunder : key <+: c.key := ⟨_, htail⟩
        have hrest : key ++ segment :: tail = [root] ++ rest := by rw [htail, hc]; rfl
        rw [openedOn_of_way hrest hroot]
        simp only [FilterClause.opened, htake]
        by_cases hmem : Place.key (key ++ [segment]) ∈ places
        · rw [if_pos hmem, if_neg (fun h => h.2.2 (hopen.1 hmem))]
        · rw [if_neg hmem, if_pos ⟨hunder, hne, fun h => hmem (hopen.2 h)⟩]
  · rw [openedOn_eq_nil]
    · simp only [FilterClause.opened]
      rw [if_neg (fun h => hway ⟨h.1, h.2.1⟩)]
    · rintro ⟨-, hunder, hne⟩
      exact hway ⟨by rw [hc]; exact hunder, by rw [hc]; exact hne⟩

/-- What a draft of clauses is after one more: the way is open, and the clause is put. -/
theorem Draft.declares_concat {root : String} {rest : List String} {clauses : List FilterClause}
    {c : FilterClause} {places more : List Place} {d : Draft} (hc : c.key = root :: rest)
    (hplaces : ∀ p, p ∈ places ↔ Declared.IsPlace root clauses p)
    {places' : List Place}
    (hplaces' : ∀ p, p ∈ places' ↔ p ∈ places ∨ ∃ key, p = .key key ∧ OnWay [root] rest key)
    (hmore : ∀ p, p ∈ more ↔ p = .alternatives clauses.length ∧
      ∃ conditions, c.content = .alternatives conditions)
    (h : d.Lays root (places' ++ more) (c.junctionAt (Declared.junction clauses))
      (Declared.around? (clauses ++ [c]))
      (fun p => Declared.items clauses p ++ openedOn places [root] rest p ++
        c.putAt clauses.length p)) :
    d.Declares root (clauses ++ [c]) := by
  refine ⟨places' ++ more, ⟨?_, h.rooted, h.found, h.known⟩, ?_⟩
  · apply h.laid.congr
    · intro p _
      exact Declared.junction_concat clauses c p
    · intro p _
      rfl
    · intro p hp
      cases p with
      | key key =>
          have hkey : key ≠ [] := by
            rintro rfl
            rcases List.mem_append.1 hp with hp | hp
            · rcases (hplaces' _).1 hp with hp | ⟨key, hnil, hunder, -⟩
              · rcases (hplaces _).1 hp with hroot | ⟨hne, -⟩
                · simp at hroot
                · exact hne rfl
              · obtain rfl : [] = key := by simpa using hnil
                simp at hunder
            · exact absurd ((hmore _).1 hp).1 (by simp)
          rw [Declared.items_concat_key, openedOn_eq_opened hplaces hc hkey, List.append_assoc]
      | alternatives n =>
          rw [Declared.items_concat_alternatives]
          simp [openedOn_alternatives]
  · intro p
    rw [List.mem_append, hplaces', hplaces, hmore]
    cases p with
    | key key =>
        rw [Declared.isPlace_concat_key, hc]
        constructor
        · rintro ((hp | ⟨other, heq, hunder, -, hkey⟩) | ⟨heq, -⟩)
          · exact .inl hp
          · obtain rfl : key = other := by simpa using heq
            refine .inr ⟨?_, hkey⟩
            rintro rfl
            simp at hunder
          · cases heq
        · rintro (hp | ⟨hne, hkey⟩)
          · exact .inl (.inl hp)
          · by_cases hroot : key = [root]
            · exact .inl (.inl (.inl hroot))
            · refine .inl (.inr ⟨key, rfl, ?_, hroot, hkey⟩)
              cases key with
              | nil => simp at hne
              | cons first rest =>
                  obtain ⟨rfl, -⟩ := List.cons_prefix_cons.1 hkey
                  exact ⟨rest, rfl⟩
    | alternatives n =>
        rw [Declared.isPlace_concat_alternatives]
        constructor
        · rintro ((hp | ⟨_, heq, -⟩) | ⟨heq, conditions, hcontent⟩)
          · exact .inl hp
          · cases heq
          · refine .inr ⟨by simpa using heq, c.key, conditions, ?_⟩
            rw [← hcontent]
        · rintro (hp | ⟨rfl, key, conditions, rfl⟩)
          · exact .inl (.inl hp)
          · exact .inr ⟨rfl, conditions, rfl⟩

theorem addEntry_eq {s : Schema} {config : Configuration} {d d' : Draft} {e : FilterEntry}
    {number : Nat} (hdepth : e.group.depth ≤ config.maxGroupDepth)
    (hreach : d.reach none [] e.group.segments = .ok (number, d')) :
    d.addEntry s config e =
      (addContent s config d'.filter number e).map fun f => { d' with filter := f } := by
  simp only [Draft.addEntry, hreach, if_neg (Nat.not_lt.2 hdepth), ok_bind]
  cases addContent s config d'.filter number e <;> rfl

/-- An entry does to its group what its clause says, or fails if it is no clause. -/
theorem addContent_lays (s : Schema) (config : Configuration) {root : String} {d : Draft}
    {e : FilterEntry} {number i : Nat} {places : List Place} {junction : Place → Junction}
    {around? : Place → Option Place} {items : Place → List PlacedItem}
    (h : d.Lays root places junction around? items)
    (hplace : places[number]? = some (.key e.group.segments))
    (hfresh : .alternatives i ∉ places) (hjunction : junction (.alternatives i) = .disjunction)
    (haround : around? (.alternatives i) = some (.key e.group.segments))
    (hitems : items (.alternatives i) = []) :
    match e.content? s config d.filter.scope with
    | some content => ∃ f more, addContent s config d.filter number e = .ok f ∧
        Draft.Lays root { d with filter := f } (places ++ more)
          (FilterClause.junctionAt junction ⟨e.group.segments, content⟩) around?
          (fun p => items p ++ FilterClause.putAt i ⟨e.group.segments, content⟩ p) ∧
        (∀ p, p ∈ more ↔ p = .alternatives i ∧ ∃ conditions, content = .alternatives conditions) ∧
        f.subject = d.filter.subject
    | none => ∃ fault, addContent s config d.filter number e = .error fault := by
  cases hcontent : e.content with
  | junction =>
      simp only [FilterEntry.content?, addContent, hcontent, setJunction, checkGroup,
        if_pos (h.laid.number_lt hplace)]
      cases FilterParameters.singleValue e.name e.values with
      | error fault => exact ⟨fault, rfl⟩
      | ok value =>
          have hbind : ∀ {α : Type} (g : String → Except Fault α),
              (Except.ok value >>= g) = g value := fun _ => rfl
          simp only [hbind, Except.toOption, Option.bind_eq_bind, Option.bind_some]
          cases junctionOf e.group value with
          | error fault => exact ⟨fault, rfl⟩
          | ok j =>
              refine ⟨_, [], rfl, h.extend (by simp) ?_, by simp, rfl⟩
              simpa only [FilterClause.junctionAt_junction, FilterClause.putAt_junction,
                List.append_nil] using h.laid.setJunction hplace j
  | condition text =>
      have htext := addConditionText_lays s config h.laid hplace hfresh hjunction haround hitems
        hcontent
      have hadd : addContent s config d.filter number e =
          d.filter.addConditionText s config number e.name text e.values := by
        rw [addContent, hcontent]
      rw [hadd]
      cases hmade : e.content? s config d.filter.scope with
      | none =>
          simp only [hmade] at htext
          exact htext
      | some content =>
          simp only [hmade] at htext
          obtain ⟨f, more, hf, hlaid, hmore, hsubject⟩ := htext
          have hkeys : ∀ key, Place.key key ∉ more := by
            intro key hkey
            cases ((hmore _).1 hkey).1
          refine ⟨f, more, hf, h.extend hkeys ?_, hmore, hsubject⟩
          rw [FilterClause.junctionAt_of_ne]
          · exact hlaid
          · rintro j rfl
            cases hcontent.symm.trans (FilterEntry.content_of_content?_junction hmade)

/-- An entry adds its clause; one that is no clause fails. -/
theorem addEntry_declares (s : Schema) (config : Configuration) {root : String}
    {clauses : List FilterClause} {d : Draft} {e : FilterEntry} (h : d.Declares root clauses)
    (hroot : e.group.segments.head? = some root) :
    match e.clause? s config d.filter.scope with
    | some c => ∃ d', d.addEntry s config e = .ok d' ∧ d'.Declares root (clauses ++ [c]) ∧
        d'.filter.subject = d.filter.subject
    | none => ∃ fault, d.addEntry s config e = .error fault := by
  by_cases hdeep : config.maxGroupDepth < e.group.depth
  · simp only [FilterEntry.clause?, ↓guard_of_not (Nat.not_le.2 hdeep)]
    refine ⟨(Fault.of (.request (.groupTooDeep e.group.encode config.maxGroupDepth))).about e.name,
      ?_⟩
    simp only [Draft.addEntry, if_pos hdeep]
    rfl
  have hdepth := Nat.not_lt.1 hdeep
  obtain ⟨rest, hsegments⟩ : ∃ rest, e.group.segments = root :: rest := by
    cases hlist : e.group.segments with
    | nil => simp [hlist] at hroot
    | cons first rest =>
        rw [hlist, List.head?_cons, Option.some.injEq] at hroot
        exact ⟨rest, by rw [hroot]⟩
  obtain ⟨places, hlays, hplaces⟩ := h
  obtain ⟨number, d', places', hreach, hreached⟩ :=
    Draft.reach_root_lays rest hlays
      (fun key hne hkey => Declared.junction_eq_conjunction (fun hp => hkey ((hplaces _).2 hp)) hne)
      (fun key hkey => by rw [Declared.around?, if_neg (by omega)])
      (fun p hp hne => Declared.items_eq_nil (fun h => hp ((hplaces _).2 h)) hne)
  have hnumber : places'[number]? = some (.key e.group.segments) := by
    rw [hsegments]
    exact hreached.place
  rw [← hsegments] at hreach
  have hscope : d'.filter.scope = d.filter.scope := by rw [hreached.filter]
  have hsubject : d'.filter.subject = d.filter.subject := by rw [hreached.filter]; rfl
  have hclause : e.clause? s config d.filter.scope =
      (e.content? s config d'.filter.scope).map (FilterClause.mk e.group.segments) := by
    simp only [FilterEntry.clause?, ↓guard_of hdepth, hscope]
    cases e.content? s config d.filter.scope <;> rfl
  -- the place of alternatives of the entry, which has no group yet
  have hfresh : Place.alternatives clauses.length ∉ places' := by
    intro hmem
    rcases (hreached.places _).1 hmem with hmem | ⟨key, hkey, -⟩
    · obtain ⟨key, conditions, hclauses⟩ := (hplaces _).1 hmem
      have := (List.getElem?_eq_some_iff.1 hclauses).1
      omega
    · cases hkey
  have haround : ∀ p ∈ places',
      Declared.around? (clauses ++ [⟨e.group.segments, .conditions []⟩]) p =
        Declared.around? clauses p := by
    intro p hp
    rcases (hreached.places p).1 hp with hp | ⟨key, rfl, -⟩
    · exact Declared.around?_concat _ ((hplaces p).1 hp)
    · rfl
  have hopen : d'.Lays root places' _ (Declared.around? _) _ :=
    ⟨hreached.lays.laid.congr (fun _ _ => rfl) haround (fun _ _ => rfl), hreached.lays.rooted,
      hreached.lays.found, hreached.lays.known⟩
  have hadded := addContent_lays s config hopen hnumber hfresh rfl
    (by simp [Declared.around?]) (by simp [Declared.items, openedOn_alternatives])
  rw [hclause, addEntry_eq (s := s) hdepth hreach]
  cases hmade : e.content? s config d'.filter.scope with
  | none =>
      simp only [hmade] at hadded
      obtain ⟨fault, hfault⟩ := hadded
      exact ⟨fault, by rw [hfault]; rfl⟩
  | some content =>
      simp only [hmade] at hadded
      obtain ⟨f, more, hf, hlays, hmore, hsubject'⟩ := hadded
      rw [Declared.around?_concat_content _ _ _ content] at hlays
      exact ⟨{ d' with filter := f }, by rw [hf]; rfl,
        Draft.declares_concat hsegments hplaces hreached.places hmore hlays,
        hsubject'.trans hsubject⟩

end Filter

end ResourceQuery
