import Mathlib.Data.List.Perm.Basic
import ResourceQuery.Proofs.Schema.Coherence
import ResourceQuery.Proofs.Schema.Declared
/-!
# How a schema grows

Once its containers are registered, a schema only grows by properties: they are put behind those
that are there, or in front of them when a variant takes over its base. A finished container is
given in closed form by what was added to it (`SchemaDocument.build_grown`).
-/

namespace ResourceQuery

namespace Container

/-- The container with further properties behind its own. -/
def extended (c : Container) (more : List Property) : Container :=
  c.withProperties (c.properties ++ more)

section Extended

variable (c : Container) (more : List Property)

@[simp] theorem extended_name : (c.extended more).name = c.name := rfl

@[simp] theorem extended_role : (c.extended more).role = c.role := rfl

@[simp] theorem extended_shape : (c.extended more).shape = c.shape := rfl

@[simp] theorem extended_base? : (c.extended more).base? = c.base? := rfl

@[simp] theorem extended_properties : (c.extended more).properties = c.properties ++ more := rfl

@[simp] theorem extended_nil : c.extended [] = c := by simp [extended]

end Extended

theorem add_eq {c c' : Container} {p : Property} (h : c.add p = .ok c') : c' = c.extended [p] :=
  (add_eq_ok_iff.1 h).2.2

end Container

namespace Schema

/-- Each container gets the further properties that stand under its name. -/
def extended (s : Schema) (more : String → List Property) : Schema :=
  ⟨s.containers.map fun c => c.extended (more c.name)⟩

/-- One property for one container. -/
def single (name : String) (p : Property) (other : String) : List Property :=
  if other = name then [p] else []

@[simp] theorem extended_none (s : Schema) : s.extended (fun _ => []) = s := by
  simp [extended]

theorem extended_extended (s : Schema) (more further : String → List Property) :
    (s.extended more).extended further = s.extended fun name => more name ++ further name := by
  simp [extended, Container.extended]

@[simp] theorem outline_extended (s : Schema) (more : String → List Property) :
    (s.extended more).outline = s.outline := by
  simp [extended, outline]

/-- A successful change changes every container of the name, and no other. -/
theorem modify_eq {s t : Schema} {name : String} {f : Container → Except Fault Container}
    {g : Container → Container} (h : s.modify name f = .ok t)
    (hf : ∀ c ∈ s.containers, c.name = name → ∀ c', f c = .ok c' → c' = g c)
    (hg : ∀ c ∈ s.containers, c.name ≠ name → g c = c) : t = ⟨s.containers.map g⟩ := by
  simp only [modify, bind_eq_ok_iff] at h
  obtain ⟨containers, hcontainers, ht⟩ := h
  cases ht
  rw [mapM_eq_ok_iff] at hcontainers
  have hall : ∀ c ∈ s.containers, (if c.name = name then f c else .ok c) = .ok (g c) := by
    intro c hc
    have hmem := List.mem_map_of_mem
      (f := fun c : Container => if c.name = name then f c else .ok c) hc
    rw [hcontainers] at hmem
    obtain ⟨c', -, hc'⟩ := List.mem_map.1 hmem
    by_cases hname : c.name = name
    · rw [if_pos hname] at hc' ⊢
      rw [← hc', hf c hc hname c' hc'.symm]
    · rw [if_neg hname, hg c hc hname]
  have hmap : (s.containers.map g).map Except.ok = containers.map (Except.ok (ε := Fault)) := by
    rw [← hcontainers, List.map_map]
    exact List.map_congr_left fun c hc => (hall c hc).symm
  rw [List.map_inj_right fun _ _ h => Except.ok.inj h] at hmap
  rw [hmap]

/-- A change that succeeds where it has to changes the containers of the name. -/
theorem modify_eq_ok {s : Schema} {name : String} {f : Container → Except Fault Container}
    {g : Container → Container}
    (h : ∀ c ∈ s.containers, (if c.name = name then f c else .ok c) = .ok (g c)) :
    s.modify name f = .ok ⟨s.containers.map g⟩ := by
  refine bind_eq_ok_iff.2 ⟨_, mapM_eq_ok_iff.2 ?_, rfl⟩
  rw [List.map_map]
  exact List.map_congr_left h

theorem modify_succeeds {s t : Schema} {name : String} {f : Container → Except Fault Container}
    (h : s.modify name f = .ok t) {c : Container} (hc : c ∈ s.containers) (hname : c.name = name) :
    ∃ c', f c = .ok c' := by
  simp only [modify, bind_eq_ok_iff] at h
  obtain ⟨containers, hcontainers, -⟩ := h
  rw [mapM_eq_ok_iff] at hcontainers
  have hmem := List.mem_map_of_mem
    (f := fun c : Container => if c.name = name then f c else .ok c) hc
  rw [hcontainers, if_pos hname] at hmem
  obtain ⟨c', -, hc'⟩ := List.mem_map.1 hmem
  exact ⟨c', hc'.symm⟩

theorem modify_add_eq {s t : Schema} {name : String} {p : Container → Property} {p' : Property}
    (h : s.modify name (fun c => c.add (p c)) = .ok t)
    (hp : ∀ c ∈ s.containers, c.name = name → p c = p') : t = s.extended (single name p') := by
  refine modify_eq h ?_ ?_
  · intro c hc hname c' hadd
    rw [Container.add_eq hadd, hp c hc hname, single, if_pos hname]
  · intro c _ hname
    rw [single, if_neg hname, Container.extended_nil]

/-! ## Declaring -/

/-- A declared property is built by the schema so far and goes behind the others of its container,
whose first identifier it is if it is one. -/
theorem declare_eq {s t : Schema} {name : String} {d : PropertyDeclaration}
    (h : s.declare name d = .ok t) :
    ∃ c kind p, s.container name = .ok c ∧ d.effectiveKind name = .ok kind ∧
      d.build s c kind = .ok p ∧ t = s.extended (single name p) ∧
      (p.isId = true → c.identifier? = none) := by
  simp only [declare, bind_eq_ok_iff] at h
  obtain ⟨c, hc, kind, hkind, p, hp, hmodify⟩ := h
  refine ⟨c, kind, p, hc, hkind, hp, modify_add_eq hmodify fun _ _ _ => rfl, ?_⟩
  obtain ⟨hmem, hname⟩ := container_ok hc
  obtain ⟨c', hadd⟩ := modify_succeeds hmodify hmem hname
  exact (Container.add_eq_ok_iff.1 hadd).1

/-- A discriminator is added to a polymorphic container, and nothing to another. -/
theorem addDiscriminator_eq {s t : Schema} {name : String} (ho : IsOutline s.outline)
    (h : s.addDiscriminator name = .ok t) :
    ∃ c, s.container name = .ok c ∧
      ((∃ discriminator variants, c.shape = .polymorphic discriminator variants ∧
          t = s.extended (single name (discriminatorOf c discriminator variants))) ∨
        (c.isPolymorphic = false ∧ t = s)) := by
  simp only [addDiscriminator, bind_eq_ok_iff] at h
  obtain ⟨c, hc, h⟩ := h
  refine ⟨c, hc, ?_⟩
  split at h
  · rename_i discriminator variants hshape
    refine .inl ⟨discriminator, variants, hshape, modify_add_eq h ?_⟩
    intro d hd hname
    obtain ⟨hmem, hcname⟩ := container_ok hc
    rw [container_unique ho hd hmem (hname.trans hcname.symm)]
  · rename_i hshape
    cases h
    refine .inr ⟨?_, rfl⟩
    unfold Container.isPolymorphic
    split
    · rename_i discriminator variants heq
      exact absurd heq (hshape discriminator variants)
    · rfl

/-- The names of the declared properties that go to a container, in their order. -/
def namesFor (entries : List (String × PropertyDeclaration)) (name : String) : List String :=
  (entries.filter fun entry => entry.1 == name).map fun entry => entry.2.name

theorem namesFor_append (entries others : List (String × PropertyDeclaration)) (name : String) :
    namesFor (entries ++ others) name = namesFor entries name ++ namesFor others name := by
  simp [namesFor]

/-- What a run of declarations adds goes by their names. -/
theorem declare_run {s t : Schema} {entries : List (String × PropertyDeclaration)}
    (h : entries.foldlM (fun (s : Schema) entry => s.declare entry.1 entry.2) s = .ok t) :
    ∃ more, t = s.extended more ∧
      ∀ name, (more name).map Property.name = namesFor entries name := by
  have hnone : ∃ more, s = s.extended more ∧
      ∀ name, (more name).map Property.name = namesFor [] name :=
    ⟨fun _ => [], by simp, by simp [namesFor]⟩
  refine foldlM_accumulates (fun before u => ∃ more, u = s.extended more ∧
    ∀ name, (more name).map Property.name = namesFor before name) ?_ hnone h
  rintro before entry u w ⟨more, rfl, hmore⟩ hdeclare
  obtain ⟨c, kind, p, -, -, hp, rfl, -⟩ := declare_eq hdeclare
  refine ⟨_, extended_extended _ _ _, ?_⟩
  intro name
  rw [List.map_append, hmore, namesFor_append]
  congr 1
  by_cases hname : entry.1 = name
  · simp [single, namesFor, hname, PropertyDeclaration.build_name hp]
  · simp [single, namesFor, hname, Ne.symm hname]

/-- All declarations of computed or of other properties, with their containers. -/
def declarations (properties : List (String × List PropertyDeclaration))
    (want : PropertyDeclaration → Bool) : List (String × PropertyDeclaration) :=
  properties.flatMap fun (name, declared) => (declared.filter want).map fun d => (name, d)

theorem declarations_append (properties others : List (String × List PropertyDeclaration))
    (want : PropertyDeclaration → Bool) :
    declarations (properties ++ others) want =
      declarations properties want ++ declarations others want := by
  simp [declarations]

theorem declarePlain_eq {s t : Schema} (ho : IsOutline s.outline) {name : String}
    {properties : List PropertyDeclaration} (h : s.declarePlain name properties = .ok t) :
    ∃ more, t = s.extended more ∧ ∀ c ∈ s.containers, c.isPolymorphic = false →
      (more c.name).map Property.name =
        namesFor (declarations [(name, properties)] fun d => !d.isDeferred) c.name := by
  simp only [declarePlain, bind_eq_ok_iff] at h
  obtain ⟨marked, hmarked, hdeclared⟩ := h
  have hentries : (declarations [(name, properties)] fun d => !d.isDeferred) =
      (properties.filter fun d => !d.isDeferred).map fun d => (name, d) := by
    simp [declarations]
  rw [hentries]
  have hrun : ((properties.filter fun d => !d.isDeferred).map fun d => (name, d)).foldlM
      (fun (s : Schema) entry => s.declare entry.1 entry.2) marked = .ok t := by
    rwa [List.foldlM_map]
  obtain ⟨more, rfl, hmore⟩ := declare_run hrun
  obtain ⟨c, hc, ⟨discriminator, variants, hshape, rfl⟩ | ⟨-, rfl⟩⟩ := addDiscriminator_eq ho hmarked
  · refine ⟨_, extended_extended _ _ _, ?_⟩
    intro d hd hplain
    obtain ⟨hmem, hname⟩ := container_ok hc
    have hne : d.name ≠ name := by
      intro heq
      obtain rfl := container_unique ho hd hmem (heq.trans hname.symm)
      simp [Container.isPolymorphic, hshape] at hplain
    rw [single, if_neg hne, List.nil_append, hmore]
  · exact ⟨more, rfl, fun d _ _ => hmore d.name⟩

theorem declarePlain_run {s t : Schema} (ho : IsOutline s.outline)
    {properties : List (String × List PropertyDeclaration)}
    (h : properties.foldlM (fun (s : Schema) entry => s.declarePlain entry.1 entry.2) s = .ok t) :
    ∃ more, t = s.extended more ∧ ∀ c ∈ s.containers, c.isPolymorphic = false →
      (more c.name).map Property.name =
        namesFor (declarations properties fun d => !d.isDeferred) c.name := by
  have hnone : ∃ more, s = s.extended more ∧ ∀ c ∈ s.containers, c.isPolymorphic = false →
      (more c.name).map Property.name =
        namesFor (declarations [] fun d => !d.isDeferred) c.name :=
    ⟨fun _ => [], by simp, by simp [namesFor, declarations]⟩
  refine foldlM_accumulates (fun before u => ∃ more, u = s.extended more ∧
    ∀ c ∈ s.containers, c.isPolymorphic = false → (more c.name).map Property.name =
      namesFor (declarations before fun d => !d.isDeferred) c.name) ?_ hnone h
  rintro before entry u w ⟨more, rfl, hmore⟩ hplain
  obtain ⟨further, rfl, hfurther⟩ := declarePlain_eq (by simpa using ho) hplain
  refine ⟨_, extended_extended _ _ _, ?_⟩
  intro c hc hpolymorphic
  rw [List.map_append, hmore c hc hpolymorphic, declarations_append, namesFor_append]
  congr 1
  exact hfurther (c.extended (more c.name)) (List.mem_map_of_mem hc) hpolymorphic

theorem namesFor_perm {entries others : List (String × PropertyDeclaration)}
    (h : entries.Perm others) (name : String) :
    (namesFor entries name).Perm (namesFor others name) :=
  (h.filter _).map _

/-- Computed properties go behind the others, dependent references first. -/
theorem declareComputed_eq {s t : Schema} {pending : List (String × PropertyDeclaration)}
    (h : s.declareComputed pending = .ok t) :
    ∃ more, t = s.extended more ∧
      ∀ name, ((more name).map Property.name).Perm (namesFor pending name) := by
  rw [declareComputed, List.partition_eq_filter_filter] at h
  obtain ⟨more, rfl, hmore⟩ := declare_run h
  refine ⟨more, rfl, fun name => ?_⟩
  rw [hmore]
  exact namesFor_perm (List.filter_append_perm _ pending) name

/-! ## Inheriting -/

/-- The properties of the container of a name. -/
def propertiesOf (s : Schema) (name : String) : List Property :=
  ((s.container? name).map Container.properties).getD []

theorem propertiesOf_name {s : Schema} (ho : IsOutline s.outline) {c : Container}
    (hc : c ∈ s.containers) : s.propertiesOf c.name = c.properties := by
  rw [propertiesOf, container?_of_mem ho hc]
  rfl

/-- A variant with the properties of its base in front; another container as it is. -/
def inheriting (s : Schema) (c : Container) : Container :=
  match c.base? with
  | some base => c.withProperties (s.propertiesOf base ++ c.properties)
  | none => c

theorem inheriting_of_base {s : Schema} {c : Container} {base : String}
    (hbase : c.base? = some base) :
    s.inheriting c = c.withProperties (s.propertiesOf base ++ c.properties) := by
  rw [inheriting, hbase]

theorem inheriting_of_none {s : Schema} {c : Container} (hbase : c.base? = none) :
    s.inheriting c = c := by
  rw [inheriting, hbase]

section Inheriting

variable (s : Schema) (c : Container)

@[simp] theorem inheriting_name : (s.inheriting c).name = c.name := by
  unfold inheriting
  split <;> rfl

@[simp] theorem inheriting_role : (s.inheriting c).role = c.role := by
  unfold inheriting
  split <;> rfl

@[simp] theorem inheriting_shape : (s.inheriting c).shape = c.shape := by
  unfold inheriting
  split <;> rfl

@[simp] theorem inheriting_base? : (s.inheriting c).base? = c.base? := by
  rw [Container.base?, inheriting_shape, ← Container.base?]

end Inheriting

/-- The base of a variant is registered. -/
theorem base_of_variant {s : Schema} (ho : IsOutline s.outline) {v : Container}
    (hv : v ∈ s.containers) {base : String} (hbase : v.base? = some base) :
    ∃ b ∈ s.containers, b.name = base := by
  obtain ⟨discriminator, tags, hmem⟩ :=
    ho.bases v.name base (shape_of_base? hbase ▸ mem_outline hv)
  obtain ⟨b, hb, heq⟩ := List.mem_map.1 hmem
  exact ⟨b, hb, (Prod.mk.inj heq).1⟩

/-- Bases are no variants, so they stay as they are while variants inherit. -/
theorem properties_of_base {s : Schema} (ho : IsOutline s.outline) {before after : List Container}
    {c : Container} (hsplit : before ++ c :: after = s.containers) {base : String}
    (hbase : c.base? = some base) {b : Container}
    (hb : b ∈ before.map s.inheriting ++ c :: after) (hname : b.name = base) :
    b.properties = s.propertiesOf base := by
  have hc : c ∈ s.containers := by simp [← hsplit]
  rcases List.mem_append.1 hb with hmem | hmem
  · obtain ⟨d, hd, rfl⟩ := List.mem_map.1 hmem
    rw [inheriting_name] at hname
    have hdmem : d ∈ s.containers := by simp [← hsplit, hd]
    rw [inheriting_of_none (base?_of_variant ho hc hdmem hbase hname)]
    rw [← hname, propertiesOf_name ho hdmem]
  · rw [← hname, propertiesOf_name ho (by simp [← hsplit, List.mem_cons.1 hmem])]

/-- One step of inheriting, when the containers in front have been done. -/
theorem inheritBase_eq {s t : Schema} (ho : IsOutline s.outline) {before after : List Container}
    {c : Container} (hsplit : before ++ c :: after = s.containers)
    (h : inheritBase ⟨before.map s.inheriting ++ c :: after⟩ c = .ok t) :
    t = ⟨before.map s.inheriting ++ s.inheriting c :: after⟩ := by
  have hc : c ∈ s.containers := by simp [← hsplit]
  unfold inheritBase at h
  split at h
  · rename_i base hbase
    obtain ⟨b, hb, hmodify⟩ := bind_eq_ok_iff.1 h
    have hproperties : b.properties = s.propertiesOf base :=
      properties_of_base ho hsplit hbase (container_ok hb).1 (container_ok hb).2
    have hothers : ∀ d ∈ before ++ after, d.name ≠ c.name := by
      have hnodup : ((before ++ c :: after).map Container.name).Nodup := by
        have := ho.nodup
        rwa [outline, List.map_map, ← hsplit] at this
      rw [(List.perm_middle.map Container.name).nodup_iff, List.map_cons, List.nodup_cons] at hnodup
      exact fun d hd hname => hnodup.1 (List.mem_map.2 ⟨d, hd, hname⟩)
    have hinherits : ∀ d : Container, ∀ d', d.inherit b.properties = .ok d' →
        d' = d.withProperties (s.propertiesOf base ++ d.properties) := by
      intro d d' hd
      rw [(Container.inherit_eq_ok_iff.1 hd).2, hproperties]
    rw [modify_eq (g := fun d => if d.name = c.name then
        d.withProperties (s.propertiesOf base ++ d.properties) else d) hmodify
      (fun d _ hname d' hd => by rw [if_pos hname, hinherits d d' hd])
      (fun d _ hname => if_neg hname)]
    simp only [List.map_append, List.map_cons, List.map_map, if_true]
    rw [inheriting_of_base hbase]
    congr 2
    · refine List.map_congr_left fun d hd => ?_
      have hne := hothers d (by simp [hd])
      simp [hne]
    · congr 1
      refine (List.map_congr_left fun d hd => ?_).trans (List.map_id after)
      exact if_neg (hothers d (by simp [hd]))
  · rename_i hbase
    cases h
    rw [inheriting_of_none hbase]

theorem inheritBases_eq {s t : Schema} (ho : IsOutline s.outline)
    (h : s.containers.foldlM inheritBase s = .ok t) : t = ⟨s.containers.map s.inheriting⟩ := by
  have hrun : ∀ (after before : List Container), before ++ after = s.containers →
      after.foldlM inheritBase ⟨before.map s.inheriting ++ after⟩ = .ok t →
      t = ⟨s.containers.map s.inheriting⟩ := by
    intro after
    induction after with
    | nil =>
        intro before hsplit h
        cases h
        rw [← hsplit, List.append_nil, List.append_nil]
    | cons c rest ih =>
        intro before hsplit h
        rw [List.foldlM_cons] at h
        obtain ⟨between, hfirst, hrest⟩ := bind_eq_ok_iff.1 h
        rw [inheritBase_eq ho hsplit hfirst] at hrest
        exact ih (before ++ [c]) (by simp [← hsplit]) (by simpa using hrest)
  exact hrun s.containers [] rfl (by simpa using h)

/-- The names that go to containers of one kind, by the kind of the container. -/
theorem namesFor_filter (entries : List (String × PropertyDeclaration)) (want : String → Bool)
    (name : String) :
    namesFor (entries.filter fun entry => want entry.1) name =
      if want name = true then namesFor entries name else [] := by
  rw [namesFor, List.filter_filter]
  by_cases hwant : want name = true
  · rw [if_pos hwant, namesFor]
    congr 1
    refine List.filter_congr fun entry _ => ?_
    by_cases hname : entry.1 = name
    · simp [hname, hwant]
    · simp [hname]
  · rw [if_neg hwant, List.map_eq_nil_iff, List.filter_eq_nil_iff]
    intro entry _
    by_cases hname : entry.1 = name
    · simp [hname, hwant]
    · simp [hname]

end Schema

namespace SchemaDocument

/-- The names of the properties that are declared for a container. -/
def declaredNames (d : SchemaDocument) (name : String) : List String :=
  (d.properties.filter fun entry => entry.1 == name).flatMap fun entry =>
    entry.2.map PropertyDeclaration.name

theorem namesFor_declarations (properties : List (String × List PropertyDeclaration))
    (want : PropertyDeclaration → Bool) (name : String) :
    Schema.namesFor (Schema.declarations properties want) name =
      (properties.filter fun entry => entry.1 == name).flatMap fun entry =>
        (entry.2.filter want).map PropertyDeclaration.name := by
  induction properties with
  | nil => rfl
  | cons entry rest ih =>
      have hsplit : Schema.declarations (entry :: rest) want =
          ((entry.2.filter want).map fun d => (entry.1, d)) ++ Schema.declarations rest want := rfl
      rw [hsplit, Schema.namesFor_append, ih, List.filter_cons, Schema.namesFor]
      by_cases hname : entry.1 = name
      · simp [hname, List.filter_map, Function.comp_def]
      · simp [hname, List.filter_map, Function.comp_def]

/-- Declarations are computed or not. -/
theorem namesFor_declared (d : SchemaDocument) (name : String) :
    (Schema.namesFor (Schema.declarations d.properties fun p => !p.isDeferred) name ++
      Schema.namesFor d.computed name).Perm (d.declaredNames name) := by
  have hcomputed : d.computed = Schema.declarations d.properties fun p => p.isDeferred := rfl
  rw [hcomputed, namesFor_declarations, namesFor_declarations, declaredNames]
  refine (List.flatMap_append_perm _ _ _).trans (List.Perm.flatMap_left _ fun entry _ => ?_)
  rw [← List.map_append]
  refine List.Perm.map _ ?_
  refine List.perm_append_comm.trans ?_
  exact List.filter_append_perm PropertyDeclaration.isDeferred entry.2

/-- A built schema in closed form: what was declared before inheritance, then the properties of the
bases in front, then what was computed for variants. -/
theorem build_grown {d : SchemaDocument} {s : Schema} (h : d.build = .ok s) :
    ∃ (grown : Schema) (last : String → List Property), Schema.IsOutline grown.outline ∧
      s = (⟨grown.containers.map grown.inheriting⟩ : Schema).extended last ∧
      (∀ c ∈ grown.containers, c.base? = none → last c.name = []) ∧
      ∀ c ∈ grown.containers, ∀ base, c.base? = some base →
        ((c.properties ++ last c.name).map Property.name).Perm (d.declaredNames c.name) := by
  obtain ⟨skeletons, plain, bases, inherited, hskeletons, hplain, hbases, hinherited, hcomplete, -⟩ :=
    build_steps h
  obtain ⟨last, rfl, hlast⟩ := Schema.declareComputed_eq hcomplete
  obtain ⟨first, rfl, hfirst⟩ := Schema.declareComputed_eq hbases
  obtain ⟨ho, hempty⟩ := skeletons_ok hskeletons
  obtain ⟨declared, rfl, hdeclared⟩ := Schema.declarePlain_run ho hplain
  rw [Schema.extended_extended] at hinherited
  have hgrown : Schema.IsOutline
      (skeletons.extended fun name => declared name ++ first name).outline := by simpa using ho
  refine ⟨_, last, hgrown, by rw [Schema.inheritBases_eq hgrown hinherited], ?_⟩
  -- computed properties go by what is a variant
  have hkind : ∀ k ∈ skeletons.containers,
      (skeletons.extended declared).isVariant k.name = k.isVariant := by
    intro k hk
    exact Schema.isVariant_of_outline (by simpa using ho) (by simpa using Schema.mem_outline hk)
  constructor
  · intro c hc hnone
    obtain ⟨k, hk, rfl⟩ := List.mem_map.1 hc
    have hvariant : k.isVariant = false := by
      rw [Container.isVariant, ← Container.extended_base?, hnone]
      rfl
    have hperm := hlast k.name
    rw [Schema.namesFor_filter, hkind k hk, hvariant, if_neg (by simp)] at hperm
    simpa using hperm
  · intro c hc base hbase
    obtain ⟨k, hk, rfl⟩ := List.mem_map.1 hc
    rw [Container.extended_base?] at hbase
    have hvariant : k.isVariant = true := by
      rw [Container.isVariant, hbase]
      rfl
    have hpolymorphic : k.isPolymorphic = false := by
      rw [Container.isPolymorphic, Schema.shape_of_base? hbase]
    have hfirstNone : first k.name = [] := by
      have hperm := hfirst k.name
      have hwant := Schema.namesFor_filter d.computed
        (fun name => !(skeletons.extended declared).isVariant name) k.name
      rw [hkind k hk, hvariant, if_neg (by simp)] at hwant
      simpa using hperm.trans (List.Perm.of_eq hwant)
    have hlastNames := hlast k.name
    rw [Schema.namesFor_filter, hkind k hk, if_pos hvariant] at hlastNames
    simp only [Container.extended_properties, Container.extended_name, hempty k hk, hfirstNone,
      List.nil_append, List.append_nil, List.map_append, hdeclared k hk hpolymorphic]
    exact (hlastNames.append_left _).trans (d.namesFor_declared k.name)

/-- A variant lists the properties of its base and behind them its own, which are the declared
ones. -/
theorem build_inherited {d : SchemaDocument} {s : Schema} (h : d.build = .ok s) {v : Container}
    (hv : v ∈ s.containers) {base : String} (hbase : v.base? = some base) :
    ∃ c own, s.container? base = some c ∧ v.properties = c.properties ++ own ∧
      (own.map Property.name).Perm (d.declaredNames v.name) := by
  have hcoherent := build_coherent h
  obtain ⟨grown, last, hgrown, rfl, hnone, hnames⟩ := build_grown h
  simp only [Schema.extended, List.mem_map, exists_exists_and_eq_and] at hv
  obtain ⟨g, hg, rfl⟩ := hv
  simp only [Container.extended_base?, Schema.inheriting_base?] at hbase
  obtain ⟨b, hb, rfl⟩ := Schema.base_of_variant hgrown hg hbase
  -- the base is no variant, so nothing has come to it since
  have hbnone := Schema.base?_of_variant hgrown hg hb hbase rfl
  have hfinal :
      b ∈ ((⟨grown.containers.map grown.inheriting⟩ : Schema).extended last).containers := by
    refine List.mem_map.2 ⟨b, List.mem_map.2 ⟨b, hb, Schema.inheriting_of_none hbnone⟩, ?_⟩
    rw [hnone b hb hbnone, Container.extended_nil]
  refine ⟨b, g.properties ++ last g.name, ?_, ?_, by simpa using hnames g hg _ hbase⟩
  · exact Schema.container?_of_mem hcoherent.outlined hfinal
  · rw [Schema.inheriting_of_base hbase, Container.extended_properties,
      Schema.propertiesOf_name hgrown hb, Container.withProperties_properties,
      Container.withProperties_name, List.append_assoc]

end SchemaDocument

end ResourceQuery
