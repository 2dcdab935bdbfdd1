import ResourceQuery.Proofs.Outcome
import ResourceQuery.Proofs.Text.Pieces
import ResourceQuery.Session.Write
/-!
# Steps of resolved paths

A resolved path is a run of steps from container to container, with a step for every segment of its
text. Writing spells paths without the variants that they select: `Path.spelled` lists the spelling
of every property on a path. For a path that selects no variant, the last of them is its text.
-/

namespace ResourceQuery

namespace Path

/-- Steps that lead on from a container. -/
inductive Follows (s : Schema) : Container → List PathStep → Prop
  | done (c : Container) : Follows s c []
  | last {c : Container} {p : Property} (h : c.property? p.name = some p) :
    Follows s c [.property c.name p]
  | property {c next : Container} {p : Property} {rest : List PathStep}
    (h : c.property? p.name = some p) (hopened : opened s p = some next)
    (hrest : Follows s next rest) : Follows s c (.property c.name p :: rest)
  | variant {c v : Container} {tag : String} {rest : List PathStep} (h : tag ∈ c.variants)
    (hv : s.container? tag = some v) (hrest : Follows s v rest) :
    Follows s c (.variant tag :: rest)

theorem property?_name {c : Container} {name : String} {p : Property}
    (h : c.property? name = some p) : p.name = name := by
  simpa using List.find?_some h

theorem follow_ok {s : Schema} {text : String} {c : Container} {segments : List String}
    {steps : List PathStep} (h : follow s text c segments = .ok steps) :
    Follows s c steps ∧ steps.map PathStep.name = segments ∧ ∀ name ∈ segments, name ≠ "" := by
  induction segments generalizing c steps with
  | nil =>
      rw [follow] at h
      cases h
      exact ⟨.done c, rfl, by simp⟩
  | cons segment rest ih =>
      rw [follow] at h
      simp only at h
      split at h
      · cases h
      · rename_i hempty
        have hne : segment ≠ "" := by
          rintro rfl
          exact hempty rfl
        split at h
        · rename_i p hp
          have hname := property?_name hp
          split at h
          · rename_i hlast
            obtain rfl : rest = [] := by simpa using hlast
            cases h
            refine ⟨.last (hname ▸ hp), by simp [PathStep.name, hname], by simpa using hne⟩
          · split at h
            · rename_i next hnext
              cases hrest : follow s text next rest with
              | error fault => rw [hrest] at h; cases h
              | ok others =>
                  rw [hrest] at h
                  cases h
                  obtain ⟨hfollows, hnames, hnonempty⟩ := ih hrest
                  refine ⟨.property (hname ▸ hp) hnext hfollows,
                    by simp [PathStep.name, hname, hnames], ?_⟩
                  simpa using ⟨hne, hnonempty⟩
            · cases h
        · split at h
          · rename_i hvariant
            split at h
            · rename_i v hv
              cases hrest : follow s text v rest with
              | error fault => rw [hrest] at h; cases h
              | ok others =>
                  rw [hrest] at h
                  cases h
                  obtain ⟨hfollows, hnames, hnonempty⟩ := ih hrest
                  refine ⟨.variant (by simpa using hvariant) hv hfollows,
                    by simp [PathStep.name, hnames], ?_⟩
                  simpa using ⟨hne, hnonempty⟩
            · cases h
          · split at h
            · cases h
            · cases h

/-- A path goes on in the container that its property names. -/
theorem opened_eq_some {s : Schema} {p : Property} {next : Container}
    (h : opened s p = some next) : p.isNavigable = true ∧ p.target? = some next.name ∧
      s.container? next.name = some next := by
  unfold opened at h
  split at h
  · rename_i hnavigable
    obtain ⟨target, htarget, hnext⟩ := Option.bind_eq_some_iff.1 h
    have hname : next.name = target := by simpa using List.find?_some hnext
    rw [hname]
    exact ⟨hnavigable, htarget, hnext⟩
  · cases h

theorem getLast?_of_terminal {path : Path} {p : Property} (h : path.terminal = .ok p) :
    ∃ container, path.steps.getLast? = some (.property container p) := by
  unfold terminal lastProperty? at h
  split at h
  · rename_i hlast
    cases h
    obtain ⟨step, hstep, hproperty⟩ := Option.bind_eq_some_iff.1 hlast
    cases step with
    | variant _ => cases hproperty
    | property container q =>
        cases hproperty
        exact ⟨container, hstep⟩
  · cases h

/-- Every property on the way is one of the container that its step names. -/
theorem Follows.holder {s : Schema} {c : Container} {steps : List PathStep} (h : Follows s c steps)
    (hc : s.container? c.name = some c) {container : String} {p : Property}
    (hstep : .property container p ∈ steps) :
    ∃ holder, s.container? container = some holder ∧ holder.property? p.name = some p := by
  induction h with
  | done _ => cases hstep
  | last hp =>
      cases List.mem_singleton.1 hstep
      exact ⟨_, hc, hp⟩
  | property hp hopened _ ih =>
      rcases List.mem_cons.1 hstep with heq | hrest
      · cases heq
        exact ⟨_, hc, hp⟩
      · exact ih (opened_eq_some hopened).2.2 hrest
  | @variant _ v tag _ _ hv _ ih =>
      have hname : v.name = tag := by simpa using List.find?_some hv
      rcases List.mem_cons.1 hstep with heq | hrest
      · cases heq
      · exact ih (by rw [hname, hv]) hrest

/-- What a resolved path is. -/
theorem resolve_ok {s : Schema} {start text : String} {path : Path}
    (h : resolve s start text = .ok path) :
    path.text = text ∧ path.start = start ∧ path.steps.map PathStep.name = segments text ∧
      (∀ name ∈ segments text, name ≠ "") ∧
      ∃ c, s.container start = .ok c ∧ Follows s c path.steps := by
  unfold resolve at h
  obtain ⟨c, hc, h⟩ := bind_eq_ok_iff.1 h
  split at h
  · cases h
  · simp only [bind_eq_ok_iff] at h
    obtain ⟨steps, hsteps, h⟩ := h
    cases h
    obtain ⟨hfollows, hnames, hnonempty⟩ := follow_ok hsteps
    exact ⟨rfl, rfl, hnames, hnonempty, c, hc, hfollows⟩

theorem holder_of_resolve {s : Schema} {start text : String} {path : Path}
    (h : resolve s start text = .ok path) {container : String} {p : Property}
    (hstep : .property container p ∈ path.steps) :
    ∃ holder, s.container? container = some holder ∧ holder.property? p.name = some p := by
  obtain ⟨-, -, -, -, c, hc, hfollows⟩ := resolve_ok h
  refine hfollows.holder ?_ hstep
  have hfound := Schema.container_eq_ok_iff.1 hc
  have hname : c.name = start := by simpa using List.find?_some hfound
  rw [hname, hfound]

/-! ## Spelling -/

/-- The properties of a list with their paths as they are spelled when objects are written. -/
def spelled (front : String) : List Property → List (String × Property)
  | [] => []
  | p :: rest =>
    let path := WriteOptions.propertyPath front p.name
    (path, p) :: spelled path rest

/-- No step selects a variant. -/
def SelectsNoVariant (path : Path) : Prop := ∀ step ∈ path.steps, step.property?.isSome

theorem names_of_selectsNoVariant {path : Path} (h : path.SelectsNoVariant) :
    path.properties.map Property.name = path.steps.map PathStep.name := by
  unfold SelectsNoVariant at h
  unfold properties
  revert h
  induction path.steps with
  | nil => exact fun _ => rfl
  | cons step rest ih =>
      intro h
      have hrest := ih fun step hstep => h step (by simp [hstep])
      cases step with
      | property container p => simpa [PathStep.property?, PathStep.name] using hrest
      | variant tag =>
          have := h (.variant tag) (by simp)
          cases this

/-- The spelling of the last property of a list. -/
def spelling (front : String) (names : List String) : String :=
  names.foldl WriteOptions.propertyPath front

theorem propertyPath_of_ne {front : String} (h : front ≠ "") (name : String) :
    WriteOptions.propertyPath front name = front ++ "." ++ name := by
  unfold WriteOptions.propertyPath
  rw [if_neg (by simpa using h)]

theorem propertyPath_ne {front name : String} (h : name ≠ "") :
    WriteOptions.propertyPath front name ≠ "" := by
  by_cases hfront : front = ""
  · subst hfront
    exact h
  · rw [propertyPath_of_ne hfront]
    intro heq
    have := congrArg String.toList heq
    simp at this

theorem spelling_cons_of_ne {front name : String} (hfront : front ≠ "") (names : List String) :
    spelling front (name :: names) = front ++ "." ++ Text.join "." (name :: names) := by
  induction names generalizing front name with
  | nil =>
      rw [spelling, List.foldl_cons, List.foldl_nil, propertyPath_of_ne hfront]
      rfl
  | cons next rest ih =>
      have hpath : WriteOptions.propertyPath front name ≠ "" := by
        rw [propertyPath_of_ne hfront]
        intro heq
        have := congrArg String.toList heq
        simp at this
      have hrest : spelling (WriteOptions.propertyPath front name) (next :: rest) = _ := ih hpath
      rw [spelling, List.foldl_cons, ← spelling, hrest, propertyPath_of_ne hfront]
      simp only [Text.join, String.append_assoc]

theorem spelling_eq_join {names : List String} (h : ∀ name ∈ names, name ≠ "") :
    spelling "" names = Text.join "." names := by
  cases names with
  | nil => rfl
  | cons name rest =>
      have hname := h name (by simp)
      cases rest with
      | nil => rfl
      | cons next rest =>
          change spelling name (next :: rest) = _
          rw [spelling_cons_of_ne hname]
          rfl

/-- The spelling of a longer path begins with that of a shorter one and a point. -/
theorem startsWith_spelling {front : String} {names : List String} (hfront : front ≠ "")
    (hnames : names ≠ []) : Text.startsWith (spelling front names) (front ++ ".") = true := by
  cases names with
  | nil => exact absurd rfl hnames
  | cons name rest =>
      rw [spelling_cons_of_ne hfront, Text.startsWith, List.isPrefixOf_iff_prefix]
      simp

theorem spelling_mem_spelled {front : String} {ps : List Property} {p : Property}
    (h : ps.getLast? = some p) :
    (spelling front (ps.map Property.name), p) ∈ spelled front ps := by
  induction ps generalizing front with
  | nil => simp at h
  | cons q rest ih =>
      cases rest with
      | nil =>
          obtain rfl : q = p := by simpa using h
          simp [spelling, spelled]
      | cons r rest =>
          have hrest : (spelling (WriteOptions.propertyPath front q.name)
              ((r :: rest).map Property.name), p) ∈ spelled _ (r :: rest) :=
            ih (by simpa using h)
          rw [spelled]
          exact List.mem_cons_of_mem _ hrest

/-- Every spelling on a path is that of the whole path, or that of a path to something above. -/
theorem mem_spelled {front path : String} {ps : List Property} {p : Property}
    (hnames : ∀ q ∈ ps, q.name ≠ "") (h : (path, p) ∈ spelled front ps) :
    (path = spelling front (ps.map Property.name) ∧ ps.getLast? = some p) ∨
      Text.startsWith (spelling front (ps.map Property.name)) (path ++ ".") = true := by
  induction ps generalizing front with
  | nil => simp [spelled] at h
  | cons q rest ih =>
      rw [spelled] at h
      rcases List.mem_cons.1 h with heq | h
      · obtain ⟨rfl, rfl⟩ := Prod.mk.inj heq
        cases rest with
        | nil => exact .inl ⟨rfl, rfl⟩
        | cons r rest =>
            right
            rw [List.map_cons, spelling, List.foldl_cons, ← spelling]
            exact startsWith_spelling (propertyPath_ne (hnames p (by simp))) (by simp)
      · rw [List.map_cons, spelling, List.foldl_cons, ← spelling]
        rcases ih (fun q hq => hnames q (by simp [hq])) h with ⟨heq, hlast⟩ | hstarts
        · refine .inl ⟨heq, ?_⟩
          cases rest with
          | nil => simp at hlast
          | cons r rest => simpa using hlast
        · exact .inr hstarts

theorem toList_join (names : List String) :
    (Text.join "." names).toList = Text.joinChars separator (names.map String.toList) :=
  Text.toList_join separator names

theorem join_segments (text : String) : Text.join "." (segments text) = text := by
  apply String.toList_inj.1
  rw [segments, toList_join, List.map_map]
  simp [Function.comp_def, Text.join_split]

/-- A path that selects no variant is spelled as its text. -/
theorem spelling_of_selectsNoVariant {s : Schema} {start text : String} {path : Path}
    (h : resolve s start text = .ok path) (hvariant : path.SelectsNoVariant) :
    spelling "" (path.properties.map Property.name) = text := by
  obtain ⟨-, -, hnames, hnonempty, -⟩ := resolve_ok h
  rw [names_of_selectsNoVariant hvariant, hnames, spelling_eq_join hnonempty, join_segments]

end Path

end ResourceQuery
