import ResourceQuery.Proofs.Filter.BasePath
import ResourceQuery.Proofs.Path.Prefixes
import ResourceQuery.Proofs.Schema.WellFormed
/-!
# Paths put together

A path of two parts is followed by following the first part, going on in the container that its last
step opens, and following the second part from there (`Path.resolve_append`). What a name stands for
does not depend on what comes behind it, so a path may be cut at every separator.
-/

namespace ResourceQuery

namespace PathStep

/-- The container that a path goes on in behind a step: that of a navigable property, if it is
registered, or that of the selected variant. -/
def opened? (s : Schema) : PathStep → Option Container
  | property _ p => Path.opened s p
  | variant tag => s.container? tag

theorem container?_of_opened? {s : Schema} {step : PathStep} {next : Container}
    (h : step.opened? s = some next) : s.container? next.name = some next := by
  cases step with
  | property container p => exact (Path.opened_eq_some h).2.2
  | variant tag =>
      have hname : next.name = tag := (Schema.container?_some h).2
      rw [hname]
      exact h

end PathStep

namespace Path

/-- The step that a name stands for in a container: one of its properties, or else a variant. -/
def stepFor? (s : Schema) (c : Container) (name : String) : Option PathStep :=
  match c.property? name with
  | some p => some (.property c.name p)
  | none => if name ∈ c.variants ∧ (s.container? name).isSome then some (.variant name) else none

/-- The rest of a path is followed from the container that a step opens. -/
def FollowsBehind (s : Schema) (text : String) (step : PathStep) (rest : List String)
    (behind : List PathStep) : Prop :=
  ∃ next, step.opened? s = some next ∧ follow s text next rest = .ok behind

theorem map_cons_eq_ok_iff {x : Except Fault (List PathStep)} {step : PathStep}
    {steps : List PathStep} :
    x.map (step :: ·) = .ok steps ↔ ∃ behind, steps = step :: behind ∧ x = .ok behind := by
  cases x with
  | error fault => simp [Except.map]
  | ok behind => simp [Except.map, eq_comm]

/-- One step on the way. The last one need not open a container. -/
theorem follow_cons_eq_ok_iff {s : Schema} {text name : String} {c : Container}
    {rest : List String} {steps : List PathStep} :
    follow s text c (name :: rest) = .ok steps ↔
      name ≠ "" ∧ ∃ step behind, stepFor? s c name = some step ∧ steps = step :: behind ∧
        if rest = [] then behind = [] else FollowsBehind s text step rest behind := by
  rw [follow]
  simp only [String.isEmpty_iff]
  by_cases hempty : name = ""
  · simp [hempty]
  rw [if_neg hempty, and_iff_right hempty]
  unfold stepFor?
  cases hp : c.property? name with
  | some p =>
      cases rest with
      | nil => simp [eq_comm]
      | cons next rest =>
          cases hopened : opened s p with
          | none => simp [FollowsBehind, PathStep.opened?, hopened]
          | some next => simp [FollowsBehind, PathStep.opened?, hopened, map_cons_eq_ok_iff]
  | none =>
      by_cases htag : name ∈ c.variants
      · cases hv : s.container? name with
        | none => simp [htag]
        | some v =>
            cases rest with
            | nil => simp [htag, follow, Except.map, eq_comm]
            | cons next rest =>
                simp [FollowsBehind, PathStep.opened?, htag, hv, map_cons_eq_ok_iff]
      · simp only [List.contains_iff_mem, htag, if_false, false_and]
        split <;> simp

/-- What is followed does not depend on the text that faults are told with. -/
theorem follow_eq_ok_congr {s : Schema} {text other : String} {c : Container} {names : List String}
    {steps : List PathStep} (h : follow s text c names = .ok steps) :
    follow s other c names = .ok steps := by
  induction names generalizing c steps with
  | nil => exact h
  | cons name rest ih =>
      rw [follow_cons_eq_ok_iff] at h ⊢
      obtain ⟨hname, step, behind, hstep, rfl, hbehind⟩ := h
      refine ⟨hname, step, behind, hstep, rfl, ?_⟩
      split at hbehind
      · rwa [if_pos ‹_›]
      · obtain ⟨next, hnext, hrest⟩ := hbehind
        rw [if_neg ‹_›]
        exact ⟨next, hnext, ih hrest⟩

/-- Names in front are followed first, and the last step of them opens the container for the
rest. -/
theorem follow_append_eq_ok_iff {s : Schema} {text : String} {c : Container}
    {front rest : List String} {steps : List PathStep} (hfront : front ≠ []) (hrest : rest ≠ []) :
    follow s text c (front ++ rest) = .ok steps ↔
      ∃ before step behind, follow s text c front = .ok before ∧ before.getLast? = some step ∧
        FollowsBehind s text step rest behind ∧ steps = before ++ behind := by
  induction front generalizing c steps with
  | nil => exact absurd rfl hfront
  | cons name front ih =>
      rw [List.cons_append, follow_cons_eq_ok_iff]
      simp only [follow_cons_eq_ok_iff]
      cases front with
      | nil =>
          simp only [List.nil_append, if_neg hrest, if_true]
          constructor
          · rintro ⟨hname, step, behind, hstep, rfl, hbehind⟩
            exact ⟨[step], step, behind, ⟨hname, step, [], hstep, rfl, rfl⟩, rfl, hbehind, rfl⟩
          · rintro ⟨_, last, behind, ⟨hname, step, _, hstep, rfl, rfl⟩, hlast, hbehind, rfl⟩
            obtain rfl : step = last := by simpa using hlast
            exact ⟨hname, step, behind, hstep, rfl, hbehind⟩
      | cons second front =>
          have hne : second :: front ≠ [] := by simp
          have hmore : second :: front ++ rest ≠ [] := by simp
          simp only [if_neg hne, if_neg hmore]
          constructor
          · rintro ⟨hname, step, _, hstep, rfl, next, hnext, hbehind⟩
            obtain ⟨before, last, behind, hbefore, hlast, hrest, rfl⟩ := (ih hne).1 hbehind
            refine ⟨step :: before, last, behind,
              ⟨hname, step, before, hstep, rfl, next, hnext, hbefore⟩, ?_, hrest, rfl⟩
            rw [List.getLast?_cons, hlast]
            rfl
          · rintro ⟨_, last, behind, ⟨hname, step, before, hstep, rfl, next, hnext, hbefore⟩, hlast,
              hrest, rfl⟩
            have hbefore_ne : before ≠ [] := by
              rintro rfl
              rw [follow_cons_eq_ok_iff] at hbefore
              obtain ⟨-, _, _, -, hnil, -⟩ := hbefore
              cases hnil
            rw [List.getLast?_cons_of_ne_nil hbefore_ne] at hlast
            exact ⟨hname, step, before ++ behind, hstep, rfl, next, hnext,
              (ih hne).2 ⟨before, last, behind, hbefore, hlast, hrest, rfl⟩⟩

/-- The steps of a path are those of its segments. -/
theorem resolve_eq_ok_iff {s : Schema} {start text : String} {path : Path} :
    resolve s start text = .ok path ↔ ∃ c steps, s.container? start = some c ∧
      follow s text c (segments text) = .ok steps ∧ path = ⟨text, start, steps⟩ := by
  have hempty : ∀ c steps, follow s "" c (segments "") ≠ .ok steps := by
    intro c steps h
    exact (follow_cons_eq_ok_iff.1 h).1 rfl
  simp only [resolve, bind_eq_ok_iff, Schema.container_eq_ok_iff]
  refine exists_congr fun c => ?_
  constructor
  · rintro ⟨hc, h⟩
    split at h
    · cases h
    · simp only [bind_eq_ok_iff] at h
      obtain ⟨steps, hsteps, h⟩ := h
      cases h
      exact ⟨steps, hc, hsteps, rfl⟩
  · rintro ⟨steps, hc, hsteps, rfl⟩
    refine ⟨hc, ?_⟩
    split
    · rename_i htext
      obtain rfl := String.isEmpty_iff.1 htext
      exact absurd hsteps (hempty c steps)
    · rw [hsteps]
      rfl

theorem segments_append (front rest : String) :
    segments (front ++ "." ++ rest) = segments front ++ segments rest := by
  have htext : (front ++ "." ++ rest).toList = front.toList ++ separator :: rest.toList := by
    simp [separator]
  rw [segments, htext, Text.split_append, List.map_append]
  rfl

theorem segments_ne_nil (text : String) : segments text ≠ [] := by
  simp [segments, Text.split_ne_nil]

/-- A path of two parts resolves if its first part does, opens a container, and the second part
resolves from there. -/
theorem resolve_append {s : Schema} {start front rest : String} {path : Path} :
    resolve s start (front ++ "." ++ rest) = .ok path ↔
      ∃ before step next behind, resolve s start front = .ok before ∧
        before.steps.getLast? = some step ∧ step.opened? s = some next ∧
        resolve s next.name rest = .ok behind ∧
        path = ⟨front ++ "." ++ rest, start, before.steps ++ behind.steps⟩ := by
  simp only [resolve_eq_ok_iff, segments_append,
    follow_append_eq_ok_iff (segments_ne_nil front) (segments_ne_nil rest)]
  constructor
  · rintro ⟨c, _, hc, ⟨before, step, behind, hbefore, hlast, ⟨next, hnext, hbehind⟩, rfl⟩, rfl⟩
    exact ⟨⟨front, start, before⟩, step, next, ⟨rest, next.name, behind⟩,
      ⟨c, before, hc, follow_eq_ok_congr hbefore, rfl⟩, hlast, hnext,
      ⟨next, behind, PathStep.container?_of_opened? hnext, follow_eq_ok_congr hbehind, rfl⟩, rfl⟩
  · rintro ⟨_, step, next, _, ⟨c, before, hc, hbefore, rfl⟩, hlast, hnext,
      ⟨found, behind, hfound, hbehind, rfl⟩, rfl⟩
    obtain rfl : next = found :=
      Option.some.inj ((PathStep.container?_of_opened? hnext).symm.trans hfound)
    exact ⟨c, _, hc, ⟨before, step, behind, follow_eq_ok_congr hbefore, hlast,
      ⟨next, hnext, follow_eq_ok_congr hbehind⟩, rfl⟩, rfl⟩

/-- In a built schema every variant that a container lists is registered. -/
theorem stepFor?_eq_some_iff {d : SchemaDocument} {s : Schema} (hbuild : d.build = .ok s)
    {c : Container} (hc : c ∈ s.containers) {name : String} {step : PathStep} :
    stepFor? s c name = some step ↔
      (∃ p, c.property? name = some p ∧ step = .property c.name p) ∨
        c.property? name = none ∧ name ∈ c.variants ∧ step = .variant name := by
  unfold stepFor?
  cases c.property? name with
  | some p => simp [eq_comm]
  | none =>
      have hregistered : name ∈ c.variants → (s.container? name).isSome := by
        intro htag
        obtain ⟨v, hv, -⟩ := (SchemaDocument.build_coherent hbuild).variant_of_mem hc htag
        rw [hv]
        rfl
      by_cases htag : name ∈ c.variants
      · simp [htag, hregistered htag, eq_comm]
      · simp [htag]

theorem resolve_single {d : SchemaDocument} {s : Schema} (hbuild : d.build = .ok s)
    {start name : String} {path : Path} (hname : name ≠ "") (hdot : '.' ∉ name.toList) :
    resolve s start name = .ok path ↔ ∃ c, s.container? start = some c ∧
      ((∃ p, c.property? name = some p ∧ path = ⟨name, start, [.property start p]⟩) ∨
        c.property? name = none ∧ name ∈ c.variants ∧ path = ⟨name, start, [.variant name]⟩) := by
  have hsegments : segments name = [name] := by
    rw [segments, separator, Text.split_of_not_mem hdot]
    simp
  rw [resolve_eq_ok_iff, hsegments]
  refine exists_congr fun c => ?_
  rw [exists_and_left]
  refine and_congr_right fun hc => ?_
  obtain ⟨hmem, rfl⟩ := Schema.container?_some hc
  simp only [follow_cons_eq_ok_iff, if_true, stepFor?_eq_some_iff hbuild hmem]
  constructor
  · rintro ⟨_, ⟨-, step, _, hstep, rfl, rfl⟩, rfl⟩
    rcases hstep with ⟨p, hp, rfl⟩ | ⟨hnone, htag, rfl⟩
    · exact .inl ⟨p, hp, rfl⟩
    · exact .inr ⟨hnone, htag, rfl⟩
  · rintro (⟨p, hp, rfl⟩ | ⟨hnone, htag, rfl⟩)
    · exact ⟨_, ⟨hname, _, [], .inl ⟨p, hp, rfl⟩, rfl, rfl⟩, rfl⟩
    · exact ⟨_, ⟨hname, _, [], .inr ⟨hnone, htag, rfl⟩, rfl, rfl⟩, rfl⟩

theorem join_names {s : Schema} {start text : String} {path : Path}
    (h : resolve s start text = .ok path) :
    Text.join "." (path.steps.map PathStep.name) = text := by
  obtain ⟨-, -, hnames, -⟩ := resolve_ok h
  rw [hnames, join_segments]

end Path

/-- A filter with a base path starts at the container that the last step of the path opens. -/
theorem Filter.withBasePath_ok {s : Schema} {f based : Filter} {base : String}
    (h : f.withBasePath s base = .ok based) :
    ∃ front step next, Path.resolve s f.resourceType base = .ok front ∧
      front.steps.getLast? = some step ∧ step.opened? s = some next ∧ based.scope = next.name ∧
      based.basePath = some front ∧ based.resourceType = f.resourceType := by
  obtain ⟨-, front, p, next, hfront, -, hp, hnext, rfl⟩ := withBasePath_eq_ok_iff.1 h
  obtain ⟨container, hlast⟩ := Path.getLast?_of_terminal hp
  exact ⟨front, _, next, hfront, hlast, hnext, rfl, rfl, rfl⟩

/-- Behind a base path the paths of conditions are what is left of those from the resource on. -/
theorem Filter.resolve_scope_iff {s : Schema} {f based : Filter} {base text : String}
    {front : Path} {behind : List PathStep} (h : f.withBasePath s base = .ok based)
    (hfront : Path.resolve s f.resourceType base = .ok front) :
    (∃ path, Path.resolve s based.scope text = .ok path ∧ path.steps = behind) ↔
      ∃ whole, Path.resolve s f.resourceType (base ++ "." ++ text) = .ok whole ∧
        whole.steps = front.steps ++ behind := by
  obtain ⟨found, step, next, hfound, hlast, hnext, hscope, -⟩ := withBasePath_ok h
  obtain rfl : found = front := Except.ok.inj (hfound.symm.trans hfront)
  rw [hscope]
  simp only [Path.resolve_append]
  constructor
  · rintro ⟨path, hpath, rfl⟩
    exact ⟨_, ⟨found, step, next, path, hfound, hlast, hnext, hpath, rfl⟩, rfl⟩
  · rintro ⟨_, ⟨found', step', next', path, hfound', hlast', hnext', hpath, rfl⟩, hsteps⟩
    obtain rfl : found = found' := Except.ok.inj (hfound.symm.trans hfound')
    obtain rfl : step = step' := Option.some.inj (hlast.symm.trans hlast')
    obtain rfl : next = next' := Option.some.inj (hnext.symm.trans hnext')
    exact ⟨path, hpath, List.append_cancel_left hsteps⟩

namespace Path

/-- Resolution goes from segment to segment: a path may be cut at every separator, a segment is a
property or else a variant, and the names of the steps are the text again. So a filter with a base
path resolves the paths of its conditions as they resolve behind the base path. -/
theorem resolve_composes {d : SchemaDocument} {s : Schema} (hbuild : d.build = .ok s) :
    (∀ start front rest path, resolve s start (front ++ "." ++ rest) = .ok path ↔
      ∃ before step next behind, resolve s start front = .ok before ∧
        before.steps.getLast? = some step ∧ step.opened? s = some next ∧
        resolve s next.name rest = .ok behind ∧
        path = ⟨front ++ "." ++ rest, start, before.steps ++ behind.steps⟩) ∧
    (∀ start name path, name ≠ "" → '.' ∉ name.toList →
      (resolve s start name = .ok path ↔ ∃ c, s.container? start = some c ∧
        ((∃ p, c.property? name = some p ∧ path = ⟨name, start, [.property start p]⟩) ∨
          c.property? name = none ∧ name ∈ c.variants ∧
            path = ⟨name, start, [.variant name]⟩))) ∧
    (∀ start text path, resolve s start text = .ok path →
      Text.join "." (path.steps.map PathStep.name) = text) ∧
    ∀ (f based : Filter) base, f.withBasePath s base = .ok based →
      ∃ front, resolve s f.resourceType base = .ok front ∧ based.basePath = some front ∧
        ∀ text behind, (∃ path, resolve s based.scope text = .ok path ∧ path.steps = behind) ↔
          ∃ whole, resolve s f.resourceType (base ++ "." ++ text) = .ok whole ∧
            whole.steps = front.steps ++ behind := by
  refine ⟨fun _ _ _ _ => resolve_append, fun _ _ _ => resolve_single hbuild,
    fun _ _ _ => join_names, ?_⟩
  intro f based base h
  obtain ⟨front, -, -, hfront, -, -, -, hbase, -⟩ := Filter.withBasePath_ok h
  exact ⟨front, hfront, hbase, fun _ _ => Filter.resolve_scope_iff h hfront⟩

/-- The number of a card stands behind the selection of cards, and the customer of an order behind
the order. -/
theorem resolve_composes_orders : orderDocument.build = .ok orderSchema ∧
    (∃ path, resolve orderSchema "Payment" "Card" = .ok path ∧ path.steps = [.variant "Card"]) ∧
    (∃ path, resolve orderSchema "Payment" ("Card" ++ "." ++ "number") = .ok path ∧
      path.steps.map PathStep.name = ["Card", "number"]) ∧
    ∃ f based whole, Filter.all orderSchema "User" = .ok f ∧
      f.withBasePath orderSchema "order" = .ok based ∧
      resolve orderSchema "User" ("order" ++ "." ++ "customer.id") = .ok whole ∧
      whole.steps.map PathStep.name = ["order", "customer", "id"] := by
  have hbuild : orderDocument.build = .ok orderSchema := rfl
  obtain ⟨happend, hsingle, -, hbased⟩ := resolve_composes hbuild
  have hcard : resolve orderSchema "Payment" "Card" = .ok ⟨"Card", "Payment", [.variant "Card"]⟩ :=
    (hsingle "Payment" "Card" _ (by decide) (by decide)).2 ⟨_, rfl, .inr ⟨rfl, by decide, rfl⟩⟩
  have hnumber := (happend "Payment" "Card" "number" _).2 ⟨_, _, _, _, hcard, rfl, rfl, rfl, rfl⟩
  obtain ⟨front, hfront, -, hscope⟩ := hbased
    ⟨"User", none, "User", [⟨.conjunction, none, [], []⟩], []⟩ _ "order" rfl
  obtain ⟨whole, hwhole, hsteps⟩ := (hscope "customer.id" _).1 ⟨_, rfl, rfl⟩
  refine ⟨hbuild, ⟨_, hcard, rfl⟩, ⟨_, hnumber, rfl⟩, _, _, whole, rfl, rfl, hwhole, ?_⟩
  cases hfront
  rw [hsteps]
  rfl

end Path

end ResourceQuery
