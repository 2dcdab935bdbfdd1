import ResourceQuery.Proofs.Path.Steps
import ResourceQuery.Proofs.Query.FilterParameter
import ResourceQuery.Proofs.Text.Pieces
/-!
# Paths in front of a path

What leads to a step of a resolved path is a path of its own, which leads to the same step
(`Path.resolve_prefix`). So what was noted of a step can be asked for by the text in front of it.
-/

namespace ResourceQuery

namespace Text

theorem not_mem_of_isIdentifier {name : List Char} (h : isIdentifier name = true) : '.' ∉ name := by
  intro hmem
  have hpart := isIdentifierPart_of_mem h '.' hmem
  revert hpart
  decide

end Text

namespace Path

theorem segments_join {names : List String} (hne : names ≠ [])
    (h : ∀ name ∈ names, '.' ∉ name.toList) : segments (Text.join "." names) = names := by
  rw [segments, toList_join, Text.split_joinChars (by simpa using hne)
    (by simpa [separator] using h)]
  simp

theorem not_mem_of_mem_segments {text name : String} (h : name ∈ segments text) :
    '.' ∉ name.toList := by
  obtain ⟨piece, hpiece, rfl⟩ := List.mem_map.1 h
  rw [String.toList_ofList]
  exact Text.not_mem_of_mem_split hpiece

/-- Segments in front of others are followed to the steps in front. -/
theorem follow_prefix {s : Schema} {text other : String} {c : Container} {names : List String}
    {steps front : List PathStep} (h : follow s text c names = .ok steps) (hfront : front <+: steps) :
    follow s other c (front.map PathStep.name) = .ok front := by
  induction names generalizing c steps front with
  | nil =>
      rw [follow] at h
      cases h
      obtain rfl := List.prefix_nil.1 hfront
      rfl
  | cons segment rest ih =>
      rw [follow] at h
      simp only at h
      split at h
      · cases h
      · rename_i hempty
        split at h
        · rename_i p hp
          have hname := property?_name hp
          split at h
          · cases h
            rcases List.prefix_cons_iff.1 hfront with rfl | ⟨tail, rfl, htail⟩
            · rfl
            · obtain rfl := List.prefix_nil.1 htail
              simp [follow, PathStep.name, hname, hempty, hp]
          · split at h
            · rename_i next hnext
              cases hrest : follow s text next rest with
              | error fault => rw [hrest] at h; cases h
              | ok others =>
                  rw [hrest] at h
                  cases h
                  rcases List.prefix_cons_iff.1 hfront with rfl | ⟨tail, rfl, htail⟩
                  · rfl
                  · have hbehind := ih hrest htail
                    cases tail with
                    | nil => simp [follow, PathStep.name, hname, hempty, hp]
                    | cons step tail =>
                        rw [List.map_cons, follow]
                        simp only [PathStep.name, hname, hempty, hp, hnext, hbehind]
                        rfl
            · cases h
        · rename_i hp
          split at h
          · rename_i hvariant
            split at h
            · rename_i v hv
              cases hrest : follow s text v rest with
              | error fault => rw [hrest] at h; cases h
              | ok others =>
                  rw [hrest] at h
                  cases h
                  rcases List.prefix_cons_iff.1 hfront with rfl | ⟨tail, rfl, htail⟩
                  · rfl
                  · rw [List.map_cons, follow]
                    simp only [PathStep.name, hempty, hp, hvariant, if_true, hv, ih hrest htail]
                    rfl
            · cases h
          · split at h
            · cases h
            · cases h

/-- The text in front of a step spells the steps up to it. -/
theorem mem_prefixesFrom {front text : String} {steps : List PathStep} {step : PathStep}
    (h : (text, step) ∈ prefixesFrom front steps) :
    ∃ before, before ++ [step] <+: steps ∧
      text = spelling front ((before ++ [step]).map PathStep.name) := by
  induction steps generalizing front with
  | nil => cases h
  | cons first rest ih =>
      rw [prefixesFrom] at h
      rcases List.mem_cons.1 h with heq | h
      · cases heq
        exact ⟨[], by simp, rfl⟩
      · obtain ⟨before, hbefore, htext⟩ := ih h
        refine ⟨first :: before, ?_, ?_⟩
        · rw [List.cons_append, List.cons_prefix_cons]
          exact ⟨rfl, hbefore⟩
        · rw [htext]
          rfl

theorem mem_prefixesFrom_last {front : String} {steps : List PathStep} {step : PathStep}
    (h : steps.getLast? = some step) :
    (spelling front (steps.map PathStep.name), step) ∈ prefixesFrom front steps := by
  induction steps generalizing front with
  | nil => simp at h
  | cons first rest ih =>
      rw [prefixesFrom]
      cases rest with
      | nil =>
          obtain rfl : first = step := by simpa using h
          exact List.mem_cons_self
      | cons next rest =>
          rw [List.getLast?_cons_cons] at h
          exact List.mem_cons_of_mem _ (ih h)

/-- The last step is reached by the whole text. -/
theorem mem_prefixes_terminal {s : Schema} {start text : String} {path : Path} {p : Property}
    (h : resolve s start text = .ok path) (hterminal : path.terminal = .ok p) :
    ∃ step, (text, step) ∈ path.prefixes ∧ step.property? = some p := by
  obtain ⟨-, -, hnames, hnonempty, -⟩ := resolve_ok h
  have hlast : path.lastProperty? = some p := by
    unfold terminal at hterminal
    split at hterminal
    · rename_i last hlast
      cases hterminal
      exact hlast
    · cases hterminal
  obtain ⟨step, hstep, hproperty⟩ := Option.bind_eq_some_iff.1 hlast
  refine ⟨step, ?_, hproperty⟩
  have hmem : (spelling "" (path.steps.map PathStep.name), step) ∈ prefixesFrom "" path.steps :=
    mem_prefixesFrom_last hstep
  rwa [hnames, spelling_eq_join hnonempty, join_segments] at hmem

theorem prefixesFrom_append (front : String) (steps more : List PathStep) :
    prefixesFrom front steps <+: prefixesFrom front (steps ++ more) := by
  induction steps generalizing front with
  | nil => exact List.nil_prefix
  | cons step rest ih =>
      rw [List.cons_append, prefixesFrom, prefixesFrom, List.cons_prefix_cons]
      exact ⟨rfl, ih _⟩

/-- The steps up to one of a resolved path, by the names in front of it. -/
theorem steps_of_mem_prefixes {s : Schema} {start text front : String} {path : Path}
    {step : PathStep} (h : resolve s start text = .ok path) (hstep : (front, step) ∈ path.prefixes) :
    ∃ before, before ++ [step] <+: path.steps ∧
      front = Text.join "." ((before ++ [step]).map PathStep.name) ∧
      (before ++ [step]).map PathStep.name <+: segments text := by
  obtain ⟨-, -, hnames, hnonempty, -⟩ := resolve_ok h
  obtain ⟨before, hbefore, hfront⟩ := mem_prefixesFrom hstep
  have hsegments : (before ++ [step]).map PathStep.name <+: segments text := by
    rw [← hnames]
    exact hbefore.map PathStep.name
  refine ⟨before, hbefore, ?_, hsegments⟩
  rw [hfront, spelling_eq_join fun name hname => hnonempty name (hsegments.subset hname)]

/-- What leads to a property on a path is a path to that property, with nothing else in front. -/
theorem resolve_prefix {s : Schema} {start text front : String} {path : Path} {step : PathStep}
    {p : Property} (h : resolve s start text = .ok path) (hstep : (front, step) ∈ path.prefixes)
    (hproperty : step.property? = some p) :
    ∃ inner, resolve s start front = .ok inner ∧ inner.terminal = .ok p ∧
      inner.prefixes <+: path.prefixes := by
  obtain ⟨before, hbefore, hfront, hsegments⟩ := steps_of_mem_prefixes h hstep
  have hnonempty := (resolve_ok h).2.2.2.1
  have hown : segments front = (before ++ [step]).map PathStep.name := by
    rw [hfront]
    exact segments_join (by simp) fun name hname =>
      not_mem_of_mem_segments (hsegments.subset hname)
  have hne : front.isEmpty = false := by
    rw [String.isEmpty_eq_false_iff]
    rintro rfl
    have hnone : segments "" = [""] := rfl
    rw [hnone] at hown
    have hmem : "" ∈ (before ++ [step]).map PathStep.name := by
      rw [← hown]
      simp
    exact hnonempty "" (hsegments.subset hmem) rfl
  unfold resolve at h
  obtain ⟨c, hc, h⟩ := bind_eq_ok_iff.1 h
  split at h
  · cases h
  · simp only [bind_eq_ok_iff] at h
    obtain ⟨steps, hsteps, h⟩ := h
    cases h
    refine ⟨⟨front, start, before ++ [step]⟩, ?_, ?_, ?_⟩
    · rw [resolve, hc, ok_bind, hne, hown, follow_prefix hsteps hbefore]
      rfl
    · simp [terminal, lastProperty?, hproperty]
    · obtain ⟨more, rfl⟩ := hbefore
      exact prefixesFrom_append _ _ _

/-- The texts up to the properties on a path that pass a test. -/
def passing (test : Property → Bool) (path : Path) : List String :=
  (path.prefixes.filter fun entry => entry.2.property?.any test).map Prod.fst

theorem mem_passing {test : Property → Bool} {path : Path} {text : String} :
    text ∈ path.passing test ↔
      ∃ step p, (text, step) ∈ path.prefixes ∧ step.property? = some p ∧ test p = true := by
  simp only [passing, List.mem_map, List.mem_filter, Option.any_eq_true]
  constructor
  · rintro ⟨⟨_, step⟩, ⟨hmem, p, hp, htest⟩, rfl⟩
    exact ⟨step, p, hmem, hp, htest⟩
  · rintro ⟨step, p, hmem, hp, htest⟩
    exact ⟨(text, step), ⟨hmem, p, hp, htest⟩, rfl⟩

/-- A property that passes is reached by a path on which no other properties pass. -/
theorem resolve_passing {test : Property → Bool} {s : Schema} {start text front : String}
    {path : Path} (h : resolve s start text = .ok path) (hfront : front ∈ path.passing test) :
    ∃ inner p, resolve s start front = .ok inner ∧ inner.terminal = .ok p ∧ test p = true ∧
      ∀ other ∈ inner.passing test, other ∈ path.passing test := by
  obtain ⟨step, p, hstep, hproperty, htest⟩ := mem_passing.1 hfront
  obtain ⟨inner, hinner, hterminal, hprefixes⟩ := resolve_prefix h hstep hproperty
  refine ⟨inner, p, hinner, hterminal, htest, fun other hother => ?_⟩
  obtain ⟨step, q, hmem, hq⟩ := mem_passing.1 hother
  exact mem_passing.2 ⟨step, q, hprefixes.subset hmem, hq⟩

theorem self_mem_passing {test : Property → Bool} {s : Schema} {start text : String} {path : Path}
    {p : Property} (h : resolve s start text = .ok path) (hterminal : path.terminal = .ok p)
    (htest : test p = true) : text ∈ path.passing test := by
  obtain ⟨step, hstep, hproperty⟩ := mem_prefixes_terminal h hterminal
  exact mem_passing.2 ⟨step, p, hstep, hproperty, htest⟩

/-- What leads to a step of a dotted path is dotted. -/
theorem isDotted_prefix {s : Schema} {start text front : String} {path : Path} {step : PathStep}
    (h : resolve s start text = .ok path) (hstep : (front, step) ∈ path.prefixes)
    (hdotted : Text.IsDotted text) : Text.IsDotted front := by
  obtain ⟨before, -, hfront, hsegments⟩ := steps_of_mem_prefixes h hstep
  obtain ⟨first, others, rfl, hnames⟩ := hdotted
  rw [segments_join (by simp) fun name hname =>
    Text.not_mem_of_isIdentifier (hnames name hname)] at hsegments
  cases hlist : (before ++ [step]).map PathStep.name with
  | nil => simp at hlist
  | cons name rest =>
      rw [hlist] at hfront hsegments
      exact ⟨name, rest, hfront, fun other hother => hnames other (hsegments.subset hother)⟩

end Path

end ResourceQuery
