import ResourceQuery.Proofs.Projection.Lookups
/-!
# References on the way

The references that are listed and those that are fetched stand in a map from their paths to what
they point to. Whatever calls come one after the other, the map holds exactly the references on the
way to the paths that were asked for (`Collects`). So every path in it leads to a reference, and with
a path all references that are crossed to reach it are there (`crossings_of_calls`).
-/

namespace ResourceQuery

namespace Path

variable {s : Schema} {start text front target : String} {held? : Property → Option String}

/-- The text is a path to a property that holds the target. -/
def PointsTo (s : Schema) (start : String) (held? : Property → Option String)
    (text target : String) : Prop :=
  ∃ path p, resolve s start text = .ok path ∧ path.terminal = .ok p ∧ held? p = some target

theorem PointsTo.unique {other : String} (h : PointsTo s start held? text target)
    (h' : PointsTo s start held? text other) : target = other := by
  obtain ⟨path, p, hpath, hterminal, htarget⟩ := h
  obtain ⟨path', p', hpath', hterminal', htarget'⟩ := h'
  obtain rfl := Except.ok.inj (hpath.symm.trans hpath')
  obtain rfl := Except.ok.inj (hterminal.symm.trans hterminal')
  exact Option.some.inj (htarget.symm.trans htarget')

/-- What is noted of a step on a path is what the text up to the step points to. -/
theorem noted_iff_pointsTo {path : Path} (h : resolve s start text = .ok path) :
    (∃ step p, (front, step) ∈ path.prefixes ∧ step.property? = some p ∧ held? p = some target) ↔
      PointsTo s start held? front target ∧ LeadsTo front text := by
  constructor
  · rintro ⟨step, p, hstep, hp, htarget⟩
    obtain ⟨inner, hinner, hterminal, -⟩ := resolve_prefix h hstep hp
    have htest : (held? p).isSome = true := by rw [htarget]; rfl
    refine ⟨⟨inner, p, hinner, hterminal, htarget⟩, ?_⟩
    have hpassing : front ∈ path.passing fun p => (held? p).isSome :=
      mem_passing.2 ⟨step, p, hstep, hp, htest⟩
    exact (mem_passing_iff_leadsTo h hinner hterminal htest).1 hpassing
  · rintro ⟨⟨inner, p, hinner, hterminal, htarget⟩, hleads⟩
    have htest : (held? p).isSome = true := by rw [htarget]; rfl
    have hpassing : front ∈ path.passing fun p => (held? p).isSome :=
      (mem_passing_iff_leadsTo h hinner hterminal htest).2 hleads
    obtain ⟨step, q, hstep, hq, -⟩ := mem_passing.1 hpassing
    -- the step is the one that the text leads to
    obtain ⟨inner', hinner', hterminal', -⟩ := resolve_prefix h hstep hq
    obtain rfl := Except.ok.inj (hinner.symm.trans hinner')
    obtain rfl := Except.ok.inj (hterminal.symm.trans hterminal')
    exact ⟨step, p, hstep, hq, htarget⟩

/-- The names of the steps up to one of them spell the text in front of it. -/
theorem mem_prefixes_of_steps {path : Path} (h : resolve s start text = .ok path)
    {before behind : List PathStep} {step : PathStep}
    (hsteps : path.steps = before ++ step :: behind) :
    (Text.join "." ((before ++ [step]).map PathStep.name), step) ∈ path.prefixes := by
  have hcut : path.steps = (before ++ [step]) ++ behind := by simpa using hsteps
  obtain ⟨-, -, hnames, hnonempty, -⟩ := resolve_ok h
  have hfilled : ∀ name ∈ (before ++ [step]).map PathStep.name, name ≠ "" := by
    intro name hname
    apply hnonempty
    rw [← hnames, hcut, List.map_append]
    exact List.mem_append_left _ hname
  rw [← spelling_eq_join hfilled, prefixes, hcut]
  exact (prefixesFrom_append "" (before ++ [step]) behind).subset
    (mem_prefixesFrom_last (by simp))

/-- In front of the last step a property opens the container of the next one. -/
theorem Follows.exists_opened {c : Container} {before behind : List PathStep} {step : PathStep}
    {p : Property} (h : Follows s c (before ++ step :: behind)) (hp : step.property? = some p)
    (hbehind : behind ≠ []) : ∃ next, opened s p = some next := by
  induction before generalizing c with
  | nil =>
      cases h with
      | last _ => exact absurd rfl hbehind
      | property _ hopened _ =>
          cases hp
          exact ⟨_, hopened⟩
      | variant _ _ _ => cases hp
  | cons first before ih =>
      rw [List.cons_append] at h
      generalize hmore : before ++ step :: behind = more at h
      cases h with
      | last _ => simp at hmore
      | property _ _ hrest => exact ih (hmore ▸ hrest)
      | variant _ _ hrest => exact ih (hmore ▸ hrest)

end Path

/-! ## Maps of what is crossed -/

/-- What is noted of references is their target, at least of those that a path can go on behind. -/
structure NotesTargets (s : Schema) (held? : Property → Option String) : Prop where
  target : ∀ p (reference : Target) noted, p.type.target? = some reference →
    held? p = some noted → noted = reference.name
  crossed : ∀ p (reference : Target) next, p.type.target? = some reference →
    Path.opened s p = some next → held? p = some reference.name

section

variable (s : Schema) (start : String) (held? : Property → Option String)

/-- The map holds what is pointed to on the way to the paths that were added. -/
def Collects (added : String → Prop) (m : NameMap String) : Prop :=
  ∀ path target, m.find? path = some target ↔
    Path.PointsTo s start held? path target ∧ ∃ whole, added whole ∧ Path.LeadsTo path whole

/-- The map is closed under the references on the way to a path. -/
structure Crossings (added : String → Prop) (m : NameMap String) : Prop where
  /-- What stands under a path is what the last property on it points to. -/
  resolved : ∀ path target, m.find? path = some target → ∃ resolved p,
    Path.resolve s start path = .ok resolved ∧ resolved.terminal = .ok p ∧ held? p = some target
  /-- With a path, all references on the way stand there with their targets. -/
  closed : ∀ path resolved before step behind p (reference : Target), m.contains path = true →
    Path.resolve s start path = .ok resolved → resolved.steps = before ++ step :: behind →
    step.property? = some p → p.type.target? = some reference →
    m.find? (Text.join "." ((before ++ [step]).map PathStep.name)) = some reference.name
  complete : ∀ path, added path → m.contains path = true
  bounded : ∀ path, m.contains path = true → ∃ whole, added whole ∧ Path.LeadsTo path whole

end

section

variable {s : Schema} {start : String} {held? : Property → Option String}
  {added : String → Prop} {m : NameMap String}

theorem collects_nil (s : Schema) (start : String) (held? : Property → Option String) :
    Collects s start held? (fun _ => False) [] := by
  intro path target
  simp

theorem Collects.congr {others : String → Prop} (h : Collects s start held? added m)
    (hothers : ∀ path, added path ↔ others path) : Collects s start held? others m := by
  intro path target
  simp only [h path target, hothers]

/-- What is noted of the steps of one more path is put in on top of the rest. -/
theorem Collects.insert {whole : String} {resolved : Path} {entries : NameMap String}
    (h : Collects s start held? added m) (hresolved : Path.resolve s start whole = .ok resolved)
    (hentries : ∀ path target, (path, target) ∈ entries ↔
      ∃ step p, (path, step) ∈ resolved.prefixes ∧ step.property? = some p ∧
        held? p = some target) :
    Collects s start held? (fun path => added path ∨ path = whole)
      (entries.foldl (fun m entry => m.insert entry.1 entry.2) m) := by
  have hmem : ∀ path target, (path, target) ∈ entries ↔
      Path.PointsTo s start held? path target ∧ Path.LeadsTo path whole :=
    fun path target => (hentries path target).trans (Path.noted_iff_pointsTo hresolved)
  have hfound : ∀ path target,
      (entries.foldl (fun m entry => m.insert entry.1 entry.2) m).find? path = some target →
      Path.PointsTo s start held? path target ∧
        ∃ w, (added w ∨ w = whole) ∧ Path.LeadsTo path w := by
    intro path target hfind
    rcases NameMap.mem_of_find?_foldl_insert hfind with hnew | hold
    · obtain ⟨hpoints, hleads⟩ := (hmem path target).1 hnew
      exact ⟨hpoints, whole, .inr rfl, hleads⟩
    · obtain ⟨hpoints, w, hw, hleads⟩ := (h path target).1 hold
      exact ⟨hpoints, w, .inl hw, hleads⟩
  refine fun path target => ⟨hfound path target, ?_⟩
  rintro ⟨hpoints, w, hw, hleads⟩
  have hcontains : (entries.foldl (fun m entry => m.insert entry.1 entry.2) m).contains path =
      true := by
    rw [NameMap.contains_foldl_insert]
    rcases hw with hw | rfl
    · right
      rw [NameMap.contains, (h path target).2 ⟨hpoints, w, hw, hleads⟩]
      rfl
    · exact .inl (List.mem_map_of_mem ((hmem path target).2 ⟨hpoints, hleads⟩))
  -- what is found there is pointed to by the same path
  obtain ⟨found, hfind⟩ := Option.isSome_iff_exists.1 hcontains
  rw [hfind, (hfound path found hfind).1.unique hpoints]

/-- Calls that each add what they ask for add up. -/
theorem Collects.foldl {β γ : Type} {step : β → γ → β} {keeps : β → Prop}
    (map : β → NameMap String) {asks : γ → String → Prop}
    (hstep : ∀ {added b} (c : γ), keeps b → Collects s start held? added (map b) →
      keeps (step b c) ∧ Collects s start held? (fun path => added path ∨ asks c path)
        (map (step b c)))
    (calls : List γ) {b : β} (hb : keeps b) (h : Collects s start held? added (map b)) :
    Collects s start held? (fun path => added path ∨ ∃ c ∈ calls, asks c path)
      (map (calls.foldl step b)) := by
  induction calls generalizing added b with
  | nil => exact h.congr (by simp)
  | cons c rest ih =>
      obtain ⟨hkeeps, hnext⟩ := hstep c hb h
      rw [List.foldl_cons]
      exact (ih hkeeps hnext).congr (by simp [or_assoc])

/-- On the way to a path on the way to an added one, everything is on the way to that one. -/
theorem Collects.crossings (h : Collects s start held? added m) (hnotes : NotesTargets s held?)
    (hadded : ∀ path, added path → ∃ target, Path.PointsTo s start held? path target) :
    Crossings s start held? added m where
  resolved path target hfind := ((h path target).1 hfind).1
  closed path resolved before step behind p reference hpath hresolved hsteps hp hreference := by
    obtain ⟨found, hfind⟩ := Option.isSome_iff_exists.1 hpath
    obtain ⟨⟨inner, q, hinner, hterminal, hfound⟩, whole, hwhole, hleads⟩ := (h path found).1 hfind
    have hnoted : held? p = some reference.name := by
      by_cases hlast : behind = []
      · -- the path itself ends in the reference
        obtain rfl := Except.ok.inj (hresolved.symm.trans hinner)
        obtain ⟨container, hstep⟩ := Path.getLast?_of_terminal hterminal
        rw [hsteps, hlast, List.getLast?_append_cons, List.getLast?_singleton] at hstep
        cases Option.some.inj hstep
        cases hp
        rw [hfound, hnotes.target _ reference found hreference hfound]
      · obtain ⟨-, -, -, -, c, -, hfollows⟩ := Path.resolve_ok hresolved
        rw [hsteps] at hfollows
        obtain ⟨next, hnext⟩ := hfollows.exists_opened hp hlast
        exact hnotes.crossed p reference next hreference hnext
    obtain ⟨hpoints, hfront⟩ := (Path.noted_iff_pointsTo hresolved).1
      ⟨step, p, Path.mem_prefixes_of_steps hresolved hsteps, hp, hnoted⟩
    exact (h _ reference.name).2 ⟨hpoints, whole, hwhole, hfront.trans hleads⟩
  complete path hpath := by
    obtain ⟨target, hpoints⟩ := hadded path hpath
    rw [NameMap.contains, (h path target).2 ⟨hpoints, path, hpath, .inl rfl⟩]
    rfl
  bounded path hpath := by
    obtain ⟨found, hfind⟩ := Option.isSome_iff_exists.1 hpath
    exact ((h path found).1 hfind).2

end

/-! ## Listed references -/

namespace References

variable {s : Schema} {resourceType : String} {r : References} {added : String → Prop}

/-- What a reference points to, a wildcard for any resource. -/
def targetName? (p : Property) : Option String := p.type.target?.map Target.name

theorem notesTargets_targetName? : NotesTargets s targetName? where
  target p reference noted hreference hnoted := by
    rw [targetName?, hreference] at hnoted
    exact (Option.some.inj hnoted).symm
  crossed p reference next hreference _ := by
    rw [targetName?, hreference]
    rfl

/-- The references behind a call. One that fails leaves them as they are. -/
def after (s : Schema) (r : References) (path : String) : References :=
  match r.add s path with
  | .ok r' => r'
  | .error _ => r

/-- A path is added if it leads to a reference, whatever is listed already. -/
theorem exists_add_iff (path : String) : (∃ r', r.add s path = .ok r') ↔
    ∃ target, Path.PointsTo s r.resourceType targetName? path target := by
  simp only [add_eq_ok_iff]
  constructor
  · rintro ⟨_, resolved, property, hresolved, hterminal, hreference, -⟩
    obtain ⟨target, htarget⟩ := Option.isSome_iff_exists.1 hreference
    exact ⟨target.name, resolved, property, hresolved, hterminal, by rw [targetName?, htarget]; rfl⟩
  · rintro ⟨_, resolved, property, hresolved, hterminal, htarget⟩
    obtain ⟨target, htarget, -⟩ := Option.map_eq_some_iff.1 htarget
    exact ⟨_, resolved, property, hresolved, hterminal, Option.isSome_iff_exists.2 ⟨_, htarget⟩, rfl⟩

theorem collects_after (path : String) (htype : r.resourceType = resourceType)
    (h : Collects s resourceType targetName? added r.paths) :
    (after s r path).resourceType = resourceType ∧
      Collects s resourceType targetName?
        (fun whole => added whole ∨ whole = path ∧
          ∃ target, Path.PointsTo s resourceType targetName? whole target)
        (after s r path).paths := by
  subst htype
  have hasks := exists_add_iff (s := s) (r := r) path
  unfold after
  cases hadd : r.add s path with
  | ok r' =>
      have hpoints := hasks.1 ⟨r', hadd⟩
      obtain ⟨resolved, property, hresolved, -, -, rfl⟩ := add_eq_ok_iff.1 hadd
      refine ⟨rfl, (h.insert hresolved fun _ _ => mem_crossed).congr fun whole => ?_⟩
      exact or_congr_right ⟨fun heq => ⟨heq, heq ▸ hpoints⟩, And.left⟩
  | error fault =>
      refine ⟨rfl, h.congr fun whole => (or_iff_left ?_).symm⟩
      rintro ⟨rfl, hpoints⟩
      obtain ⟨r', hr'⟩ := hasks.2 hpoints
      rw [hadd] at hr'
      cases hr'

theorem crossings_foldl {start : References} (hstart : References.none s resourceType = .ok start)
    (paths : List String) :
    Crossings s resourceType targetName?
      (fun whole => whole ∈ paths ∧ ∃ r, start.add s whole = .ok r)
      (paths.foldl (after s) start).paths := by
  obtain ⟨c, hc, h⟩ := bind_eq_ok_iff.1 hstart
  cases h
  have htype := Projection.resource_name hc
  have hcollects := Collects.foldl References.paths collects_after paths (b := ⟨c.name, []⟩) htype
    (collects_nil s resourceType targetName?)
  refine Collects.crossings (hcollects.congr fun whole => ?_) notesTargets_targetName?
    fun whole hwhole => ?_
  · rw [exists_add_iff, htype]
    simp
  · rw [← htype]
    exact (exists_add_iff whole).1 hwhole.2

end References

/-! ## Fetched references -/

/-- A call that changes a projection. -/
inductive ProjectionCall
  | includeAll
  | includePath (path : String)
  | excludePath (path : String)
  | fetchPath (path : String)
  | scopePath (path key : String) (filter : Filter)

def ProjectionCall.apply (s : Schema) (p : Projection) : ProjectionCall → Except Fault Projection
  | includeAll => p.includeAll
  | includePath path => p.includePath s path
  | excludePath path => p.excludePath s path
  | fetchPath path => p.fetchPath s path
  | scopePath path key filter => p.scopePath s path key filter

namespace Projection

variable {s : Schema} {resourceType : String} {p q : Projection} {added : String → Prop}

/-- No path goes on behind a reference to any resource. -/
theorem notesTargets_fetchTarget? : NotesTargets s fetchTarget? where
  target p reference noted hreference hnoted := by
    rw [fetchTarget?, hreference] at hnoted
    cases reference with
    | any => cases hnoted
    | resource name => exact (Option.some.inj hnoted).symm
  crossed p reference next hreference hnext := by
    have htarget := (Path.opened_eq_some hnext).2.1
    rw [Property.target?, ValueType.container?] at htarget
    rw [ValueType.target?] at hreference
    cases hleaf : p.type.leaf with
    | reference target =>
        rw [hleaf] at hreference htarget
        cases hreference
        cases reference with
        | any => cases htarget
        | resource name => rw [fetchTarget?, ValueType.target?, hleaf]; rfl
    | _ =>
        rw [hleaf] at hreference
        cases hreference

/-- The projection behind a call. One that fails leaves it as it is. -/
def after (s : Schema) (p : Projection) (call : ProjectionCall) : Projection :=
  match call.apply s p with
  | .ok q => q
  | .error _ => p

/-- A path is fetched if it leads to a typed reference, whatever the projection says already. -/
theorem exists_fetchPath_iff {path : String} : (∃ q, p.fetchPath s path = .ok q) ↔
    ∃ target, Path.PointsTo s p.resourceType fetchTarget? path target := by
  simp only [fetchPath_eq_ok_iff]
  constructor
  · rintro ⟨_, resolved, property, hresolved, hterminal, htyped, -⟩
    obtain ⟨target, htarget⟩ := Option.isSome_iff_exists.1 htyped
    exact ⟨target, resolved, property, hresolved, hterminal, htarget⟩
  · rintro ⟨_, resolved, property, hresolved, hterminal, htarget⟩
    exact ⟨_, resolved, property, hresolved, hterminal, Option.isSome_iff_exists.2 ⟨_, htarget⟩, rfl⟩

/-- Calls that fetch nothing leave what is fetched. -/
theorem fetched_of_apply {call : ProjectionCall} (hcall : ∀ path, call ≠ .fetchPath path)
    (h : call.apply s p = .ok q) : q.resourceType = p.resourceType ∧ q.fetched = p.fetched := by
  cases call with
  | includeAll =>
      obtain ⟨-, -, rfl⟩ := includeAll_eq_ok_iff.1 h
      exact ⟨rfl, rfl⟩
  | includePath path =>
      obtain ⟨_, _, -, -, -, rfl⟩ := includePath_eq_ok_iff.1 h
      exact ⟨rfl, rfl⟩
  | excludePath path =>
      obtain ⟨_, _, -, -, rfl⟩ := excludePath_eq_ok_iff.1 h
      exact ⟨rfl, rfl⟩
  | fetchPath path => exact absurd rfl (hcall path)
  | scopePath path key filter =>
      obtain ⟨-, rfl⟩ := scopePath_eq_ok_iff.1 h
      exact ⟨rfl, rfl⟩

theorem collects_after (call : ProjectionCall) (htype : p.resourceType = resourceType)
    (h : Collects s resourceType fetchTarget? added p.fetched) :
    (after s p call).resourceType = resourceType ∧
      Collects s resourceType fetchTarget?
        (fun whole => added whole ∨ call = .fetchPath whole ∧
          ∃ target, Path.PointsTo s resourceType fetchTarget? whole target)
        (after s p call).fetched := by
  subst htype
  have hold : (∀ whole, call = .fetchPath whole →
      ¬∃ target, Path.PointsTo s p.resourceType fetchTarget? whole target) → ∀ whole,
      added whole ↔ added whole ∨ call = .fetchPath whole ∧
        ∃ target, Path.PointsTo s p.resourceType fetchTarget? whole target :=
    fun hnone whole => (or_iff_left fun hwhole => hnone whole hwhole.1 hwhole.2).symm
  unfold after
  cases hcall : call.apply s p with
  | error fault =>
      refine ⟨rfl, h.congr (hold ?_)⟩
      rintro whole rfl hpoints
      obtain ⟨q, hq⟩ := exists_fetchPath_iff.2 hpoints
      rw [ProjectionCall.apply, hq] at hcall
      cases hcall
  | ok q =>
      by_cases hfetch : ∃ path, call = .fetchPath path
      · obtain ⟨path, rfl⟩ := hfetch
        have hpoints := exists_fetchPath_iff.1 ⟨q, hcall⟩
        obtain ⟨resolved, property, hresolved, -, -, rfl⟩ := fetchPath_eq_ok_iff.1 hcall
        refine ⟨rfl, (h.insert hresolved fun _ _ => mem_crossed).congr fun whole => ?_⟩
        refine or_congr_right ⟨?_, ?_⟩
        · rintro rfl
          exact ⟨rfl, hpoints⟩
        · rintro ⟨heq, -⟩
          cases heq
          rfl
      · have hcalls : ∀ path, call ≠ .fetchPath path := fun path heq => hfetch ⟨path, heq⟩
        obtain ⟨htype, hfetched⟩ := fetched_of_apply hcalls hcall
        refine ⟨htype, ?_⟩
        rw [hfetched]
        exact h.congr (hold fun whole heq => absurd heq (hcalls whole))

theorem crossings_foldl {start : Projection} (hstart : Projection.none s resourceType = .ok start)
    (calls : List ProjectionCall) :
    Crossings s resourceType fetchTarget?
      (fun whole => .fetchPath whole ∈ calls ∧ ∃ q, start.fetchPath s whole = .ok q)
      (calls.foldl (after s) start).fetched := by
  rw [none_ok hstart]
  have hcollects := Collects.foldl Projection.fetched collects_after calls
    (b := ⟨resourceType, false, [], [], []⟩) rfl (collects_nil s resourceType fetchTarget?)
  refine Collects.crossings (hcollects.congr fun whole => ?_) notesTargets_fetchTarget?
    fun whole hwhole => ?_
  · rw [exists_fetchPath_iff]
    simp
  · exact exists_fetchPath_iff.1 hwhole.2

/-- A call puts its rule to where it belongs, so the rules stay in the order of their paths. -/
theorem sorted_after (call : ProjectionCall) (h : p.rules.Sorted) : (after s p call).rules.Sorted := by
  unfold after
  cases hcall : call.apply s p with
  | error fault => exact h
  | ok q =>
      cases call with
      | includeAll =>
          obtain ⟨-, -, rfl⟩ := includeAll_eq_ok_iff.1 hcall
          exact h
      | includePath path =>
          obtain ⟨_, _, -, -, -, rfl⟩ := includePath_eq_ok_iff.1 hcall
          exact NameMap.sorted_insert path true h
      | excludePath path =>
          obtain ⟨_, _, -, -, rfl⟩ := excludePath_eq_ok_iff.1 hcall
          exact NameMap.sorted_insert path false h
      | fetchPath path =>
          obtain ⟨_, _, -, -, -, rfl⟩ := fetchPath_eq_ok_iff.1 hcall
          exact NameMap.sorted_insert path true h
      | scopePath path key filter =>
          obtain ⟨-, rfl⟩ := scopePath_eq_ok_iff.1 hcall
          exact NameMap.sorted_insert path true h

/-- Lookups can be made behind any calls. -/
theorem sorted_foldl_after {start : Projection} (hstart : Projection.none s resourceType = .ok start)
    (calls : List ProjectionCall) : (calls.foldl (after s) start).rules.Sorted := by
  rw [none_ok hstart]
  have hkept : ∀ p : Projection, p.rules.Sorted → (calls.foldl (after s) p).rules.Sorted := by
    induction calls with
    | nil => exact fun _ h => h
    | cons call rest ih => exact fun p h => ih _ (sorted_after call h)
  exact hkept _ List.Pairwise.nil

end Projection

/-- Whatever calls come one after the other, what is listed and what is fetched is closed under the
references that are crossed on the way, and nothing else is there. What a call that fails asked for
is not added. -/
theorem crossings_of_calls {s : Schema} {resourceType : String} {references : References}
    {projection : Projection} (hreferences : References.none s resourceType = .ok references)
    (hprojection : Projection.none s resourceType = .ok projection) :
    (∀ paths : List String, Crossings s resourceType References.targetName?
      (fun whole => whole ∈ paths ∧ ∃ r, references.add s whole = .ok r)
      (paths.foldl (References.after s) references).paths) ∧
    ∀ calls : List ProjectionCall, Crossings s resourceType Projection.fetchTarget?
      (fun whole => .fetchPath whole ∈ calls ∧ ∃ q, projection.fetchPath s whole = .ok q)
      (calls.foldl (Projection.after s) projection).fetched :=
  ⟨References.crossings_foldl hreferences, Projection.crossings_foldl hprojection⟩

/-- The customer of a user's order, fetched after a call that fails. -/
def fetchCalls : List ProjectionCall :=
  [.includeAll, .fetchPath "order.id", .fetchPath "order.customer", .excludePath "order"]

/-- The order is crossed on the way to its customer. -/
theorem fetchCalls_crossings :
    References.none orderSchema "User" = .ok ⟨"User", []⟩ ∧
      Projection.none orderSchema "User" = .ok ⟨"User", false, [], [], []⟩ ∧
      (["id", "order.customer"].foldl (References.after orderSchema) ⟨"User", []⟩).paths.find?
        "order" = some "Order" ∧
      (fetchCalls.foldl (Projection.after orderSchema)
        ⟨"User", false, [], [], []⟩).fetched.find? "order" = some "Order" := by
  have hreferences : References.none orderSchema "User" = .ok ⟨"User", []⟩ := rfl
  have hprojection : Projection.none orderSchema "User" = .ok ⟨"User", false, [], [], []⟩ := rfl
  have hcustomer : Path.resolve orderSchema "User" "order.customer" =
      .ok ⟨"order.customer", "User",
        [.property "User" orderProperty, .property "Order" customerProperty]⟩ := rfl
  obtain ⟨hlisted, hfetched⟩ := crossings_of_calls hreferences hprojection
  refine ⟨hreferences, hprojection, ?_, ?_⟩
  · exact (hlisted ["id", "order.customer"]).closed "order.customer" _ [] _ _ _ (.resource "Order")
      ((hlisted _).complete _ ⟨by simp, _, rfl⟩) hcustomer rfl rfl rfl
  · exact (hfetched fetchCalls).closed "order.customer" _ [] _ _ _ (.resource "Order")
      ((hfetched _).complete _ ⟨by simp [fetchCalls], _, rfl⟩) hcustomer rfl rfl rfl

end ResourceQuery
