import ResourceQuery.Proofs.Schema.Additions
/-!
# The steps of building

Each step of building ends well under a condition that does not look at the order of declarations:
containers are registered if their names differ, plain and computed properties are runs of
additions, and variants inherit if they hide nothing.
-/

namespace ResourceQuery

/-- A container inherits properties of other names. -/
theorem Container.inherit_eq_ok {c : Container} {inherited : List Property}
    (h : ((inherited ++ c.properties).map Property.name).Nodup) :
    c.inherit inherited = .ok (c.withProperties (inherited ++ c.properties)) :=
  inherit_eq_ok_iff.2 ⟨h, rfl⟩

/-! ## Registering -/

/-- The containers of a declared type, without properties. -/
def TypeDeclaration.skeletons (d : TypeDeclaration) (role : ContainerRole) :
    Except Fault (List Container) := do
  Schema.checkTypeName d.name
  let shape ← d.shape
  let variants ← d.variants.mapM fun v => do
    Schema.checkTypeName v.name
    return [⟨v.name, role, .variant d.name, .empty⟩]
  return ⟨d.name, role, shape, .empty⟩ :: variants.flatten

namespace Schema

def HasNamedContainers (s : Schema) : Prop := (s.containers.map Container.name).Nodup

theorem HasNamedContainers.of_append {containers others : List Container}
    (h : HasNamedContainers ⟨containers ++ others⟩) : HasNamedContainers ⟨containers⟩ :=
  (List.nodup_append.1 (by simpa [HasNamedContainers] using h)).1

/-- A step registers the containers that are made of its element. -/
def Registers {α : Type} (step : Schema → α → Except Fault Schema)
    (make : α → Except Fault (List Container)) : Prop :=
  ∀ s a t, s.HasNamedContainers → (step s a = .ok t ↔
    ∃ containers, make a = .ok containers ∧ t = ⟨s.containers ++ containers⟩ ∧
      t.HasNamedContainers)

/-- Steps that register make a run that registers. -/
theorem Registers.foldlM {α : Type} {step : Schema → α → Except Fault Schema}
    {make : α → Except Fault (List Container)} (h : Registers step make) :
    Registers (fun s (items : List α) => items.foldlM step s)
      fun items => List.flatten <$> items.mapM make := by
  intro s items t hs
  induction items generalizing s with
  | nil =>
      simp only [List.foldlM_nil, List.mapM_nil]
      constructor
      · intro heq
        cases heq
        exact ⟨[], rfl, by simp, hs⟩
      · rintro ⟨_, heq, rfl, -⟩
        cases heq
        simp [pure, Except.pure]
  | cons a rest ih =>
      simp only [List.foldlM_cons, bind_eq_ok_iff, h s a _ hs]
      constructor
      · rintro ⟨u, ⟨containers, hmake, rfl, hu⟩, hrest⟩
        obtain ⟨others, hothers, rfl, ht⟩ := (ih _ hu).1 hrest
        obtain ⟨lists, hlists, rfl⟩ := map_eq_ok_iff.1 hothers
        refine ⟨(containers :: lists).flatten, map_eq_ok_iff.2 ⟨containers :: lists, ?_, rfl⟩, ?_,
          ht⟩
        · rw [mapM_eq_ok_iff] at hlists ⊢
          rw [List.map_cons, List.map_cons, hmake, hlists]
        · simp
      · rintro ⟨all, hall, rfl, ht⟩
        obtain ⟨lists, hlists, rfl⟩ := map_eq_ok_iff.1 hall
        rw [mapM_eq_ok_iff] at hlists
        cases lists with
        | nil => cases hlists
        | cons containers lists =>
            rw [List.map_cons, List.map_cons, List.cons.injEq] at hlists
            obtain ⟨hmake, hlists⟩ := hlists
            have ht' : HasNamedContainers ⟨(s.containers ++ containers) ++ lists.flatten⟩ := by
              simpa using ht
            refine ⟨_, ⟨containers, hmake, rfl, ht'.of_append⟩, (ih _ ht'.of_append).2 ?_⟩
            exact ⟨lists.flatten, map_eq_ok_iff.2 ⟨lists, mapM_eq_ok_iff.2 hlists, rfl⟩,
              by simp, ht⟩

theorem register_registers (role : ContainerRole) (shape : ContainerShape) :
    Registers (fun s name => s.register name role shape)
      fun name => .ok [⟨name, role, shape, .empty⟩] := by
  intro s name t hs
  have hfresh : s.container? name = none ↔
      HasNamedContainers ⟨s.containers ++ [⟨name, role, shape, .empty⟩]⟩ := by
    rw [HasNamedContainers, List.map_append, List.nodup_append]
    simp only [container?, List.find?_eq_none, beq_iff_eq]
    constructor
    · intro hnone
      refine ⟨hs, by simp, ?_⟩
      rintro other hother _ hmem rfl
      obtain ⟨c, hc, rfl⟩ := List.mem_map.1 hother
      exact hnone c hc (by simpa using hmem)
    · rintro ⟨-, -, hdifferent⟩ c hc hname
      exact hdifferent _ (List.mem_map_of_mem hc) name (by simp) hname
  have hregister : s.register name role shape = .ok t ↔
      s.container? name = none ∧ t = ⟨s.containers ++ [⟨name, role, shape, .empty⟩]⟩ := by
    unfold register
    cases s.container? name <;> simp [eq_comm]
  rw [hregister, hfresh]
  constructor
  · rintro ⟨hnamed, rfl⟩
    exact ⟨_, rfl, rfl, hnamed⟩
  · rintro ⟨_, ⟨⟩, rfl, hnamed⟩
    exact ⟨hnamed, rfl⟩

theorem registerVariant_registers (role : ContainerRole) (base : String) :
    Registers (fun s (v : VariantDeclaration) => do
      checkTypeName v.name
      s.register v.name role (.variant base)) fun v => do
      checkTypeName v.name
      return [⟨v.name, role, .variant base, .empty⟩] := by
  intro s v t hs
  simp only [bind_eq_ok_iff, register_registers role (.variant base) s v.name t hs]
  constructor
  · rintro ⟨_, hcheck, containers, hmake, h⟩
    exact ⟨containers, ⟨_, hcheck, hmake⟩, h⟩
  · rintro ⟨containers, ⟨_, hcheck, hmake⟩, h⟩
    exact ⟨_, hcheck, containers, hmake, h⟩

theorem registerType_registers :
    Registers (fun s (entry : TypeDeclaration × ContainerRole) => s.registerType entry.1 entry.2)
      fun entry => entry.1.skeletons entry.2 := by
  rintro s ⟨d, role⟩ t hs
  have hvariants := fun (u : Schema) (hu : u.HasNamedContainers) =>
    (registerVariant_registers role d.name).foldlM u d.variants t hu
  simp only [registerType, TypeDeclaration.skeletons, bind_eq_ok_iff]
  constructor
  · rintro ⟨_, hcheck, shape, hshape, u, hregister, hrun⟩
    obtain ⟨_, ⟨⟩, rfl, hu⟩ := (register_registers role shape s d.name u hs).1 hregister
    obtain ⟨containers, hmake, rfl, ht⟩ := (hvariants _ hu).1 hrun
    obtain ⟨lists, hlists, rfl⟩ := map_eq_ok_iff.1 hmake
    exact ⟨_, ⟨_, hcheck, shape, hshape, lists, hlists, rfl⟩, by simp, ht⟩
  · rintro ⟨_, ⟨_, hcheck, shape, hshape, lists, hlists, ⟨⟩⟩, rfl, ht⟩
    have ht' : HasNamedContainers
        ⟨(s.containers ++ [⟨d.name, role, shape, .empty⟩]) ++ lists.flatten⟩ := by
      simpa using ht
    refine ⟨_, hcheck, shape, hshape, _,
      (register_registers role shape s d.name _ hs).2 ⟨_, rfl, rfl, ht'.of_append⟩, ?_⟩
    exact (hvariants _ ht'.of_append).2
      ⟨lists.flatten, map_eq_ok_iff.2 ⟨lists, hlists, rfl⟩, by simp, ht⟩

/-- All types of a document are registered if and only if they can be on their own and all names
differ. -/
theorem registerTypes_eq_ok_iff {types : List (TypeDeclaration × ContainerRole)} {t : Schema} :
    types.foldlM (fun s entry => s.registerType entry.1 entry.2) Schema.empty = .ok t ↔
      ∃ lists, types.mapM (fun entry => entry.1.skeletons entry.2) = .ok lists ∧
        t = ⟨lists.flatten⟩ ∧ t.HasNamedContainers := by
  have hempty : HasNamedContainers Schema.empty := List.nodup_nil
  rw [registerType_registers.foldlM Schema.empty types t hempty]
  simp only [map_eq_ok_iff, Schema.empty, List.nil_append]
  constructor
  · rintro ⟨_, ⟨lists, hlists, rfl⟩, h⟩
    exact ⟨lists, hlists, h⟩
  · rintro ⟨lists, hlists, h⟩
    exact ⟨_, ⟨lists, hlists, rfl⟩, h⟩

/-! ## Plain properties -/

/-- The additions that mark a polymorphic container. -/
def markers (s : Schema) (container : String) : List Addition :=
  match (s.container? container).map Container.shape with
  | some (.polymorphic name variants) => [.discriminator container name variants]
  | _ => []

/-- The additions for the plain properties of a container. -/
def plainAdditions (s : Schema) (entry : String × List PropertyDeclaration) : List Addition :=
  s.markers entry.1 ++ (entry.2.filter fun d => !d.isDeferred).map (.declared entry.1)

theorem declare_eq_put (s : Schema) (name : String) (d : PropertyDeclaration) :
    s.declare name d = s.put (.declared name d) := by
  simp only [declare, put, Addition.make, Addition.container, bind_assoc]

/-- What a change does to containers of other names does not matter. -/
theorem modify_congr {s t : Schema} {name : String} {f g : Container → Except Fault Container}
    (h : ∀ c ∈ s.containers, c.name = name → f c = g c) :
    s.modify name f = .ok t ↔ s.modify name g = .ok t := by
  have hmap : s.containers.map (fun c => if c.name = name then f c else .ok c) =
      s.containers.map fun c => if c.name = name then g c else .ok c := by
    refine List.map_congr_left fun c hc => ?_
    by_cases hname : c.name = name
    · rw [if_pos hname, if_pos hname, h c hc hname]
    · rw [if_neg hname, if_neg hname]
  simp only [modify, bind_eq_ok_iff, mapM_eq_ok_iff, hmap]

theorem addDiscriminator_eq_ok_iff {s t : Schema} (hs : IsOutline s.outline) {name : String} :
    s.addDiscriminator name = .ok t ↔
      (s.container? name).isSome = true ∧ s.putAll (s.markers name) = .ok t := by
  simp only [addDiscriminator, bind_eq_ok_iff, container_eq_ok_iff]
  cases hc : s.container? name with
  | none => simp
  | some c =>
      obtain ⟨hmem, hname⟩ := container?_some hc
      simp only [Option.some.injEq, exists_eq_left', Option.isSome_some, true_and, markers, hc,
        Option.map_some]
      cases hshape : c.shape with
      | polymorphic discriminator variants =>
          have hput : s.put (.discriminator name discriminator variants) = .ok t ↔
              s.modify name (fun d => d.add (discriminatorOf c discriminator variants)) =
                .ok t := by
            simp only [put, Addition.container, Addition.make, container_eq_ok_iff.2 hc, ok_bind]
          rw [putAll, foldlM_singleton, hput]
          refine modify_congr fun d hd hdname => ?_
          rw [container_unique hs hd hmem (hdname.trans hname.symm)]
      | _ => rfl

theorem declarePlain_eq_ok_iff {s t : Schema} (hs : IsOutline s.outline) {name : String}
    {properties : List PropertyDeclaration} :
    s.declarePlain name properties = .ok t ↔
      (s.container? name).isSome = true ∧
        s.putAll (s.plainAdditions (name, properties)) = .ok t := by
  simp only [declarePlain, plainAdditions, putAll, List.foldlM_append, List.foldlM_map,
    declare_eq_put, bind_eq_ok_iff, addDiscriminator_eq_ok_iff hs]
  constructor
  · rintro ⟨u, ⟨hregistered, hmarked⟩, hdeclared⟩
    exact ⟨hregistered, u, hmarked, hdeclared⟩
  · rintro ⟨hregistered, u, hmarked, hdeclared⟩
    exact ⟨u, ⟨hregistered, hmarked⟩, hdeclared⟩

theorem markers_eq {s t : Schema} (h : s.headers.Perm t.headers) (hs : IsOutline s.outline)
    (ht : IsOutline t.outline) : s.markers = t.markers := by
  funext name
  have hshape := congrArg (Option.map fun header => header.2.2) (header?_eq h hs ht name)
  rw [Option.map_map, Option.map_map] at hshape
  unfold markers
  rw [show (s.container? name).map Container.shape = (t.container? name).map Container.shape from
    hshape]

theorem plainAdditions_eq {s t : Schema} (h : s.headers.Perm t.headers) (hs : IsOutline s.outline)
    (ht : IsOutline t.outline) : s.plainAdditions = t.plainAdditions := by
  funext entry
  rw [plainAdditions, plainAdditions, markers_eq h hs ht]

/-- The plain properties of all containers are one run of additions. -/
theorem declarePlain_run_eq_ok_iff {s u t : Schema} (hu : u.Ordered)
    (hs : IsOutline s.outline) (hheaders : u.headers.Perm s.headers)
    {properties : List (String × List PropertyDeclaration)} :
    properties.foldlM (fun (s : Schema) entry => s.declarePlain entry.1 entry.2) u = .ok t ↔
      (∀ entry ∈ properties, (s.container? entry.1).isSome = true) ∧
        u.putAll (properties.flatMap s.plainAdditions) = .ok t := by
  induction properties generalizing u with
  | nil => simp [putAll]
  | cons entry rest ih =>
      have hregistered : (u.container? entry.1).isSome = (s.container? entry.1).isSome := by
        have hheader := congrArg Option.isSome (header?_eq hheaders hu.outlined hs entry.1)
        rwa [Option.isSome_map, Option.isSome_map] at hheader
      rw [List.foldlM_cons, List.flatMap_cons, putAll, List.foldlM_append, List.forall_mem_cons,
        bind_eq_ok_iff, bind_eq_ok_iff, ← hregistered, ← plainAdditions_eq hheaders hu.outlined hs]
      constructor
      · rintro ⟨v, hv, hrest⟩
        obtain ⟨hfirst, hput⟩ := (declarePlain_eq_ok_iff hu.outlined).1 hv
        have hrun := run_of_putAll hu hput
        have hrunHeaders := hrun.within.headers.symm.trans hheaders
        obtain ⟨hothers, hputs⟩ := (ih hrun.ordered hrunHeaders).1 hrest
        rw [← plainAdditions_eq hheaders hu.outlined hs] at hputs
        exact ⟨⟨hfirst, hothers⟩, v, hput, hputs⟩
      · rintro ⟨⟨hfirst, hothers⟩, v, hput, hputs⟩
        have hrun := run_of_putAll hu hput
        refine ⟨v, (declarePlain_eq_ok_iff hu.outlined).2 ⟨hfirst, hput⟩, ?_⟩
        refine (ih hrun.ordered (hrun.within.headers.symm.trans hheaders)).2 ⟨hothers, ?_⟩
        rwa [← plainAdditions_eq hheaders hu.outlined hs]

/-! ## Computed properties -/

/-- Computed properties in the order they are put in. -/
def completion (pending : List (String × PropertyDeclaration)) : List Addition :=
  (pending.filter (fun entry => entry.2.isDependentReference) ++
    pending.filter fun entry => !entry.2.isDependentReference).map fun entry =>
      .declared entry.1 entry.2

theorem declareComputed_eq_putAll (s : Schema) (pending : List (String × PropertyDeclaration)) :
    s.declareComputed pending = s.putAll (completion pending) := by
  simp only [declareComputed, putAll, completion, List.partition_eq_filter_filter,
    List.foldlM_map, declare_eq_put]
  rfl

theorem mem_completion {pending : List (String × PropertyDeclaration)} {a : Addition} :
    a ∈ completion pending ↔ ∃ entry ∈ pending, .declared entry.1 entry.2 = a := by
  rw [completion, List.mem_map]
  exact exists_congr fun entry => and_congr_left fun _ =>
    (List.filter_append_perm _ pending).mem_iff

theorem completion_perm {pending others : List (String × PropertyDeclaration)}
    (h : pending.Perm others) : (completion pending).Perm (completion others) :=
  ((h.filter _).append (h.filter _)).map _

/-! ## Inheriting -/

/-- A variant that hides nothing of its base inherits. -/
theorem inheritBase_succeeds {s : Schema} (ho : IsOutline s.outline)
    {before after : List Container} {c : Container} (hsplit : before ++ c :: after = s.containers)
    (hnamed : ((s.inheriting c).properties.map Property.name).Nodup) :
    ∃ t, inheritBase ⟨before.map s.inheriting ++ c :: after⟩ c = .ok t := by
  have houtline : outline ⟨before.map s.inheriting ++ c :: after⟩ = s.outline := by
    simp [outline, ← hsplit]
  have ho' : IsOutline (outline ⟨before.map s.inheriting ++ c :: after⟩) := houtline ▸ ho
  have hc : c ∈ before.map s.inheriting ++ c :: after := by simp
  unfold inheritBase
  cases hbase : c.base? with
  | none => exact ⟨_, rfl⟩
  | some base =>
      obtain ⟨b, hb, rfl⟩ := base_of_variant ho' hc hbase
      have hproperties := properties_of_base ho hsplit hbase hb rfl
      rw [inheriting_of_base hbase, ← hproperties] at hnamed
      simp only [container_of_mem ho' hb, ok_bind]
      refine ⟨_, modify_eq_ok (g := fun d => if d.name = c.name then
        d.withProperties (b.properties ++ d.properties) else d) fun d hd => ?_⟩
      by_cases hname : d.name = c.name
      · obtain rfl := container_unique ho' hd hc hname
        rw [if_pos rfl, if_pos rfl, Container.inherit_eq_ok hnamed]
      · rw [if_neg hname, if_neg hname]

theorem inheritBases_succeed {s : Schema} (ho : IsOutline s.outline)
    (h : HasNamedProperties ⟨s.containers.map s.inheriting⟩) :
    s.containers.foldlM inheritBase s = .ok ⟨s.containers.map s.inheriting⟩ := by
  have hrun : ∀ (after before : List Container), before ++ after = s.containers →
      after.foldlM inheritBase ⟨before.map s.inheriting ++ after⟩ =
        .ok ⟨s.containers.map s.inheriting⟩ := by
    intro after
    induction after with
    | nil =>
        intro before hsplit
        rw [← hsplit, List.append_nil, List.append_nil]
        rfl
    | cons c rest ih =>
        intro before hsplit
        have hc : c ∈ s.containers := by simp [← hsplit]
        obtain ⟨next, hnext⟩ := inheritBase_succeeds ho hsplit (h _ (List.mem_map_of_mem hc))
        have hmoved := ih (before ++ [c]) (by simp [← hsplit])
        rw [List.foldlM_cons, hnext, ok_bind, inheritBase_eq ho hsplit hnext]
        simpa using hmoved
  exact hrun s.containers [] rfl

theorem container?_inheriting (s : Schema) (name : String) :
    container? ⟨s.containers.map s.inheriting⟩ name = (s.container? name).map s.inheriting := by
  rw [container?, container?, List.find?_map]
  have hnames : (fun c : Container => c.name == name) ∘ s.inheriting = fun c => c.name == name := by
    funext c
    simp
  rw [hnames]

theorem headers_inheriting (s : Schema) :
    headers ⟨s.containers.map s.inheriting⟩ = s.headers := by
  simp [headers, Container.header]

section SameAs

variable {s s' t : Schema} (hs : s.Ordered) (hs' : s'.Ordered) (h : s'.SameAs s)

include hs hs' h

theorem SameAs.propertiesOf (name : String) :
    (s'.propertiesOf name).Perm (s.propertiesOf name) := by
  have hheader := header?_eq h.headers hs'.outlined hs.outlined name
  cases hc : s.container? name with
  | none =>
      rw [hc, Option.map_none, Option.map_eq_none_iff] at hheader
      rw [Schema.propertiesOf, Schema.propertiesOf, hc, hheader]
  | some c =>
      obtain ⟨d, hd, -⟩ := container?_of_headers h.headers.symm hs'.outlined hc
      rw [Schema.propertiesOf, Schema.propertiesOf, hc, hd]
      exact h.perm hs' hs hd hc

theorem SameAs.inheriting {name : String} {c' c : Container}
    (hc' : s'.container? name = some c') (hc : s.container? name = some c) :
    (s'.inheriting c').properties.Perm (s.inheriting c).properties := by
  have hperm := h.perm hs' hs hc' hc
  have hbase : c'.base? = c.base? := by
    have hheader := header?_eq h.headers hs'.outlined hs.outlined name
    rw [hc, hc', Option.map_some, Option.map_some, Option.some.injEq] at hheader
    rw [Container.base?, (Container.header_inj hheader).2.2, ← Container.base?]
  cases hc : c.base? with
  | none => rwa [inheriting_of_none hc, inheriting_of_none (hbase.trans hc)]
  | some base =>
      rw [inheriting_of_base hc, inheriting_of_base (hbase.trans hc)]
      exact (h.propertiesOf hs hs' base).append hperm

/-- The same schemas inherit the same. -/
theorem SameAs.inherit (hinherit : s.containers.foldlM inheritBase s = .ok t) (ht : t.Ordered) :
    ∃ t', s'.containers.foldlM inheritBase s' = .ok t' ∧ t'.Ordered ∧ t'.SameAs t := by
  obtain rfl := inheritBases_eq hs.outlined hinherit
  have hfound : ∀ c' ∈ s'.containers, ∃ c, s'.container? c'.name = some c' ∧
      s.container? c'.name = some c := by
    intro c' hc'
    have hc'found := container?_of_mem hs'.outlined hc'
    obtain ⟨c, hc, -⟩ := container?_of_headers h.headers hs.outlined hc'found
    exact ⟨c, hc'found, hc⟩
  have hnamed : HasNamedProperties ⟨s'.containers.map s'.inheriting⟩ := by
    intro d hd
    obtain ⟨c', hc', rfl⟩ := List.mem_map.1 hd
    obtain ⟨c, hfound', hfound⟩ := hfound c' hc'
    have hperm := h.inheriting hs hs' hfound' hfound
    rw [(hperm.map Property.name).nodup_iff]
    exact ht.named _ (List.mem_map_of_mem (container?_some hfound).1)
  have hordered : Ordered ⟨s'.containers.map s'.inheriting⟩ := by
    refine ⟨?_, hnamed⟩
    refine isOutline_perm (headers_outline ?_) hs'.outlined
    rw [headers_inheriting]
  refine ⟨_, inheritBases_succeed hs'.outlined hnamed, hordered,
    sameAs_of_perm hordered ht ?_ fun name c d hc hd => ?_⟩
  · rw [headers_inheriting, headers_inheriting]
    exact h.headers
  · rw [container?_inheriting, Option.map_eq_some_iff] at hc hd
    obtain ⟨c', hc', rfl⟩ := hc
    obtain ⟨d', hd', rfl⟩ := hd
    exact h.inheriting hs hs' hc' hd'

/-! ## Checking -/

/-- The same schemas pass the same checks. -/
theorem SameAs.checked (hchecked : s.containers.forM checkContainer = .ok ()) :
    s'.containers.forM checkContainer = .ok () := by
  rw [forM_eq_ok_iff] at hchecked ⊢
  intro c' hc'
  have hfound' := container?_of_mem hs'.outlined hc'
  obtain ⟨c, hfound, hheader⟩ := container?_of_headers h.headers hs.outlined hfound'
  have hperm := h.perm hs' hs hfound' hfound
  have hfind : ∀ want : Property → Bool,
      (c'.properties.find? want).isSome = (c.properties.find? want).isSome := by
    intro want
    rw [Bool.eq_iff_iff, List.find?_isSome, List.find?_isSome]
    simp only [hperm.mem_iff]
  obtain ⟨hname, hrole, hshape⟩ := Container.header_inj hheader
  have hsame : checkContainer c' = .ok () ↔ checkContainer c = .ok () := by
    simp only [checkContainer_eq_ok_iff, Container.identifier?, Container.discriminator?, hfind,
      Container.isPersistent, Container.isPolymorphic, Container.isVariant, Container.base?, hrole,
      hshape]
  exact hsame.2 (hchecked c (container?_some hfound).1)

end SameAs

end Schema

end ResourceQuery
