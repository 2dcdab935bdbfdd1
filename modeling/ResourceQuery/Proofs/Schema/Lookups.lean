import ResourceQuery.Proofs.Schema.WellFormed
/-!
# What declarations look up

A schema is known by the headers of its containers and by the properties that are found in them. A
declaration looks up few properties: the reference on the other side, the collection of an aggregate
and its source. Where these are found it becomes the same property
(`PropertyDeclaration.build_of_lookups`).
-/

namespace ResourceQuery

/-- What is settled of a container when it is registered. -/
def Container.header (c : Container) : String × ContainerRole × ContainerShape :=
  (c.name, c.role, c.shape)

theorem Container.header_inj {c c' : Container} (h : c.header = c'.header) :
    c.name = c'.name ∧ c.role = c'.role ∧ c.shape = c'.shape := by
  simpa [Container.header] using h

namespace Schema

def headers (s : Schema) : List (String × ContainerRole × ContainerShape) :=
  s.containers.map Container.header

/-- The property of a name in the container of a name. -/
def lookup (s : Schema) (container name : String) : Option Property :=
  (s.container? container).bind fun c => c.property? name

theorem lookup_of_container? {s : Schema} {container : String} {c : Container}
    (h : s.container? container = some c) (name : String) :
    s.lookup container name = c.property? name := by
  rw [lookup, h, Option.bind_some]

theorem lookup_eq_some {s : Schema} {container name : String} {p : Property} :
    s.lookup container name = some p ↔
      ∃ c, s.container? container = some c ∧ c.property? name = some p := Option.bind_eq_some_iff

theorem headers_outline {s t : Schema} (h : s.headers.Perm t.headers) :
    s.outline.Perm t.outline := by
  have hmap := h.map fun header => (header.1, header.2.2)
  simpa [headers, Container.header, outline, Function.comp_def] using hmap

theorem isOutline_perm {outline other : List (String × ContainerShape)} (h : outline.Perm other)
    (ho : IsOutline outline) : IsOutline other where
  nodup := (h.map Prod.fst).nodup_iff.1 ho.nodup
  variants name discriminator tags hmem tag htag :=
    h.mem_iff.1 (ho.variants name discriminator tags (h.mem_iff.2 hmem) tag htag)
  bases name base hmem := by
    obtain ⟨discriminator, tags, hbase⟩ := ho.bases name base (h.mem_iff.2 hmem)
    exact ⟨discriminator, tags, h.mem_iff.1 hbase⟩

/-- A container is found wherever containers have the same headers. -/
theorem container?_of_headers {s t : Schema} (h : s.headers.Perm t.headers)
    (ht : IsOutline t.outline) {name : String} {c : Container} (hc : s.container? name = some c) :
    ∃ c', t.container? name = some c' ∧ c'.header = c.header := by
  obtain ⟨hmem, rfl⟩ := container?_some hc
  obtain ⟨c', hc', heq⟩ := List.mem_map.1 (h.mem_iff.1 (List.mem_map_of_mem hmem))
  refine ⟨c', ?_, heq⟩
  rw [← (Container.header_inj heq).1]
  exact container?_of_mem ht hc'

/-- What is settled of a container does not depend on its properties. -/
theorem header?_eq {s t : Schema} (h : s.headers.Perm t.headers) (hs : IsOutline s.outline)
    (ht : IsOutline t.outline) (name : String) :
    (s.container? name).map Container.header = (t.container? name).map Container.header := by
  refine Option.ext fun header => ?_
  simp only [Option.map_eq_some_iff]
  constructor
  · rintro ⟨c, hc, rfl⟩
    exact container?_of_headers h ht hc
  · rintro ⟨c, hc, rfl⟩
    exact container?_of_headers h.symm hs hc

/-! ## Comparing schemas -/

/-- The same containers with at most the properties of another schema. -/
structure Within (s t : Schema) : Prop where
  headers : s.headers.Perm t.headers
  kept : ∀ container name p, s.lookup container name = some p → t.lookup container name = some p

theorem Within.refl (s : Schema) : s.Within s := ⟨.refl _, fun _ _ _ h => h⟩

theorem Within.trans {s t u : Schema} (hst : s.Within t) (htu : t.Within u) : s.Within u :=
  ⟨hst.headers.trans htu.headers, fun container name p h =>
    htu.kept container name p (hst.kept container name p h)⟩

theorem Within.registered {s t : Schema} (h : s.Within t) (ht : IsOutline t.outline) :
    ∀ name c, s.container? name = some c →
      ∃ c', t.container? name = some c' ∧ c'.header = c.header :=
  fun _ _ hc => container?_of_headers h.headers ht hc

/-- The same containers, with the same properties. -/
structure SameAs (s t : Schema) : Prop where
  headers : s.headers.Perm t.headers
  lookup : ∀ container name, s.lookup container name = t.lookup container name

section SameAs

variable {s t : Schema}

/-- What has grown holds what was there. -/
theorem within_of_reaches (hheaders : s.headers.Perm t.headers) (h : s.Reaches t)
    (ht : t.Ordered) : s.Within t := by
  refine ⟨hheaders, fun container name p hp => ?_⟩
  obtain ⟨c, hc, hfound⟩ := lookup_eq_some.1 hp
  obtain ⟨c', hc', hgrown⟩ := h.container? ht hc
  exact lookup_eq_some.2 ⟨c', hc',
    property?_of_kept (ht.named c' (container?_some hc').1) hgrown.kept hfound⟩

variable (hs : s.Ordered) (ht : t.Ordered)

include hs ht

/-- The same lookups are those of the same properties, in some order. -/
theorem SameAs.perm (h : s.SameAs t) {name : String} {c d : Container}
    (hc : s.container? name = some c) (hd : t.container? name = some d) :
    c.properties.Perm d.properties := by
  have hcNamed := hs.named c (container?_some hc).1
  have hdNamed := ht.named d (container?_some hd).1
  have hsame : ∀ other, c.property? other = d.property? other := by
    intro other
    rw [← lookup_of_container? hc, ← lookup_of_container? hd, h.lookup]
  rw [List.perm_ext_iff_of_nodup hcNamed.of_map hdNamed.of_map]
  intro p
  constructor
  · intro hp
    exact (property?_some ((hsame _).symm.trans (property?_of_mem hcNamed hp))).1
  · intro hp
    exact (property?_some ((hsame _).trans (property?_of_mem hdNamed hp))).1

theorem sameAs_of_perm (hheaders : s.headers.Perm t.headers)
    (h : ∀ name c d, s.container? name = some c → t.container? name = some d →
      c.properties.Perm d.properties) : s.SameAs t := by
  refine ⟨hheaders, fun container name => ?_⟩
  have hheader := header?_eq hheaders hs.outlined ht.outlined container
  cases hc : s.container? container with
  | none =>
      rw [hc, Option.map_none, eq_comm, Option.map_eq_none_iff] at hheader
      rw [lookup, lookup, hc, hheader]
  | some c =>
      obtain ⟨d, hd, -⟩ := container?_of_headers hheaders ht.outlined hc
      have hperm := h container c d hc hd
      have hcNamed := hs.named c (container?_some hc).1
      have hdNamed := ht.named d (container?_some hd).1
      rw [lookup_of_container? hc, lookup_of_container? hd]
      refine Option.ext fun p => ⟨?_, ?_⟩
      · exact property?_of_kept hdNamed fun q hq => hperm.mem_iff.1 hq
      · exact property?_of_kept hcNamed fun q hq => hperm.mem_iff.2 hq

end SameAs

/-- There is at most one identifier in a container. -/
def HasSingleIdentifiers (s : Schema) : Prop := ∀ container name other p q,
  s.lookup container name = some p → s.lookup container other = some q →
    p.isId = true → q.isId = true → p = q

end Schema

namespace PropertyDeclaration

def isAggregate (d : PropertyDeclaration) : Bool :=
  d.kind == some .aggregate || d.kind == some .dependentAggregate

/-- A declaration in a container looks up a property of a container. -/
inductive LooksUp (d : PropertyDeclaration) (c : Container) : String → String → Prop
  | reverse {type : ValueType} {target reverse : String}
    (hkind : d.isDependentReference = true) (htype : d.valueType c.name = .ok type)
    (htarget : type.target? = some (.resource target)) (hreverse : d.reverse = some reverse) :
    LooksUp d c target reverse
  | collection {aggregate : Aggregate} (hkind : d.isAggregate = true)
    (haggregate : d.aggregate = some aggregate) : LooksUp d c c.name aggregate.collection
  | source {aggregate : Aggregate} {collection : Property} {target name : String}
    (hkind : d.isAggregate = true) (haggregate : d.aggregate = some aggregate)
    (hcollection : c.property? aggregate.collection = some collection)
    (htarget : collection.target? = some target) (hsource : aggregate.source = some name) :
    LooksUp d c target name

variable {d : PropertyDeclaration} {s t : Schema} {c c' : Container} {kind : DeclaredKind}
  {type : ValueType}

theorem isDeferred_of_isAggregate (h : d.isAggregate = true) : d.isDeferred = true := by
  rw [isAggregate, Bool.or_eq_true, beq_iff_eq, beq_iff_eq] at h
  rcases h with h | h <;> rw [isDeferred, h]

/-- Only what is put off looks up anything. -/
theorem LooksUp.isDeferred {container name : String} (h : d.LooksUp c container name) :
    d.isDeferred = true := by
  cases h with
  | reverse hkind _ _ _ =>
      rw [isDependentReference, beq_iff_eq] at hkind
      rw [PropertyDeclaration.isDeferred, hkind]
  | collection hkind _ => exact isDeferred_of_isAggregate hkind
  | source hkind _ _ _ _ => exact isDeferred_of_isAggregate hkind

/-- Kinds that are computed are declared. -/
theorem effectiveKind_ok {container : String} (h : d.effectiveKind container = .ok kind) :
    d.kind = some kind ∨ kind = .simple ∨ kind = .object ∨ kind = .reference := by
  unfold effectiveKind at h
  split at h
  · rename_i declared hdeclared
    cases h
    exact .inl hdeclared
  · obtain ⟨type, -, h⟩ := bind_eq_ok_iff.1 h
    split at h <;> cases h <;> simp

/-! ## Building by what is looked up -/

section Transfer

variable (hheader : c'.header = c.header)
  (hregistered : ∀ name r, s.container? name = some r →
    ∃ r', t.container? name = some r' ∧ r'.header = r.header)
  (hfound : ∀ container name q, d.LooksUp c container name → s.lookup container name = some q →
    t.lookup container name = some q)

section

include hregistered

theorem checkNames_of_headers {container : String} (h : d.checkNames s container type = .ok ()) :
    d.checkNames t container type = .ok () := by
  have hresource : ∀ {r r' : Container}, r'.header = r.header → r'.isResource = r.isResource := by
    intro r r' heq
    rw [Container.isResource, (Container.header_inj heq).2.1, ← Container.isResource]
  induction type with
  | object name =>
      unfold checkNames at h ⊢
      cases hr : s.container? name with
      | none =>
          rw [hr] at h
          cases h
      | some r =>
          obtain ⟨r', hr', heq⟩ := hregistered name r hr
          rw [hr] at h
          rw [hr']
          simpa only [hresource heq] using h
  | reference target =>
      cases target with
      | any => rfl
      | resource name =>
          unfold checkNames at h ⊢
          cases hr : s.container? name with
          | none =>
              rw [hr] at h
              cases h
          | some r =>
              obtain ⟨r', hr', heq⟩ := hregistered name r hr
              rw [hr] at h
              rw [hr']
              simpa only [Option.any_some, hresource heq] using h
  | list inner ih => exact ih h
  | set inner ih => exact ih h
  | map key inner ihKey ihInner =>
      unfold checkNames at h ⊢
      simp only [refuse_bind, ite_error_eq_ok_iff, bind_eq_ok_iff] at h ⊢
      obtain ⟨hkeyable, _, hkey, hinner⟩ := h
      exact ⟨hkeyable, (), ihKey hkey, ihInner hinner⟩
  | scalar _ => rfl
  | enum _ => exact h
  | dynamic => rfl

theorem resource_of_headers {name : String} {r : Container} (h : s.resource name = .ok r) :
    ∃ r', t.resource name = .ok r' ∧ t.container? name = some r' := by
  obtain ⟨hr, hrole⟩ := Schema.resource_ok h
  obtain ⟨r', hr', heq⟩ := hregistered name r hr
  refine ⟨r', Schema.resource_of_container? hr' ?_, hr'⟩
  rwa [Container.isResource, (Container.header_inj heq).2.1, ← Container.isResource]

end

include hheader hregistered hfound

theorem dependentReference_of_lookups {k : PropertyKind} (hkind : d.isDependentReference = true)
    (htype : d.valueType c.name = .ok type) (h : d.dependentReference s c type = .ok k) :
    d.dependentReference t c' type = .ok k := by
  obtain ⟨hname, -, hshape⟩ := Container.header_inj hheader
  have hbase : c'.base? = c.base? := by rw [Container.base?, hshape, ← Container.base?]
  unfold dependentReference at h ⊢
  rw [hname, hbase]
  cases hreverse : d.reverse with
  | none =>
      rw [hreverse] at h
      cases h
  | some reverse =>
      simp only [hreverse] at h ⊢
      split at h
      case h_2 => cases h
      rename_i target htarget
      simp only [refuse_bind, ite_error_eq_ok_iff, bind_eq_ok_iff] at h
      obtain ⟨hdegree, resource, hresource, h⟩ := h
      obtain ⟨resource', hresource', hfound'⟩ := resource_of_headers hregistered hresource
      split at h
      case h_2 => cases h
      rename_i back hback
      have hlookup : s.lookup target reverse = some back := by
        rw [Schema.lookup_of_container? (Schema.resource_ok hresource).1, hback]
      have hback' := hfound _ _ _ (.reverse hkind htype htarget hreverse) hlookup
      rw [Schema.lookup_of_container? hfound'] at hback'
      simp only [refuse_bind, ite_error_eq_ok_iff, bind_eq_ok_iff]
      refine ⟨hdegree, resource', hresource', ?_⟩
      simp only [hback']
      exact h

theorem aggregateOver_of_lookups {dependent : Bool} {k : PropertyKind}
    (hc : s.container? c.name = some c) (hc' : t.container? c.name = some c')
    (hkind : d.isAggregate = true) (h : d.aggregateOver s c dependent type = .ok k) :
    d.aggregateOver t c' dependent type = .ok k := by
  obtain ⟨hname, -, -⟩ := Container.header_inj hheader
  obtain ⟨aggregate, receiving, collection, target, element, source, haggregate, hnullable, hscalar,
    hcollection, hfits, htarget, helement, hsource, hfunction, heq⟩ := aggregateOver_eq_ok_iff.1 h
  rw [Schema.container_eq_ok_iff] at helement
  obtain ⟨element', helement', heqElement⟩ := hregistered target element helement
  have hcollection' : c'.property? aggregate.collection = some collection := by
    rw [← Schema.lookup_of_container? hc']
    refine hfound _ _ _ (.collection hkind haggregate) ?_
    rw [Schema.lookup_of_container? hc, hcollection]
  have hsource' : d.sourceKind c'.name element' aggregate.source = .ok source := by
    cases hnamed : aggregate.source with
    | none =>
        rw [hnamed] at hsource
        exact hsource
    | some name =>
        rw [hnamed] at hsource
        obtain ⟨p, _, hp, htype, rfl⟩ := sourceKind_ok hsource
        have hp' : t.lookup target name = some p := by
          refine hfound _ _ _ (.source hkind haggregate hcollection htarget hnamed) ?_
          rw [Schema.lookup_of_container? helement, hp]
        rw [Schema.lookup_of_container? helement'] at hp'
        simp only [sourceKind, hp', htype]
  exact aggregateOver_eq_ok_iff.2 ⟨aggregate, receiving, collection, target, element', source,
    haggregate, hnullable, hscalar, hcollection', hfits, htarget,
    Schema.container_eq_ok_iff.2 helement', hsource', by rwa [hname], heq⟩

theorem propertyKind_of_lookups {k : PropertyKind} (hc : s.container? c.name = some c)
    (hc' : t.container? c.name = some c') (hkind : d.effectiveKind c.name = .ok kind)
    (htype : d.valueType c.name = .ok type) (h : d.propertyKind s c kind type = .ok k) :
    d.propertyKind t c' kind type = .ok k := by
  obtain ⟨hname, hrole, hshape⟩ := Container.header_inj hheader
  cases kind with
  | dependentReference =>
      have hdeclared : d.isDependentReference = true := by
        rcases effectiveKind_ok hkind with hkind | hkind | hkind | hkind
        · simp [isDependentReference, hkind]
        all_goals cases hkind
      exact dependentReference_of_lookups hheader hregistered hfound hdeclared htype h
  | aggregate | dependentAggregate =>
      have hdeclared : d.isAggregate = true := by
        rcases effectiveKind_ok hkind with hkind | hkind | hkind | hkind
        · simp [isAggregate, hkind]
        all_goals cases hkind
      exact aggregateOver_of_lookups hheader hregistered hfound hc hc' hdeclared h
  | _ =>
      simp only [propertyKind, Container.isResource, Container.isVariant, Container.base?, hrole,
        hshape, hname] at h ⊢
      exact h

/-- Where the same properties are found, a declaration becomes the same property. -/
theorem build_of_lookups {p : Property} (hc : s.container? c.name = some c)
    (hc' : t.container? c.name = some c') (hkind : d.effectiveKind c.name = .ok kind)
    (h : d.build s c kind = .ok p) : d.build t c' kind = .ok p := by
  obtain ⟨hname, hrole, -⟩ := Container.header_inj hheader
  simp only [build, refuse_bind, throw_bind, ite_error_eq_ok_iff, bind_eq_ok_iff] at h ⊢
  obtain ⟨hidentifier, type, htype, _, hnames, k, hk, persistence, hpersistence, hlazy, heq⟩ := h
  rw [hname]
  have hnames' := checkNames_of_headers hregistered hnames
  have hk' := propertyKind_of_lookups hheader hregistered hfound hc hc' hkind htype hk
  have hpersistence' : d.persistence c' k type = .ok persistence := by
    have hpersistent : c'.holdsPersistentData = c.holdsPersistentData := by
      rw [Container.holdsPersistentData, hrole, ← Container.holdsPersistentData]
    simp only [PropertyDeclaration.persistence, hpersistent, hname] at hpersistence ⊢
    exact hpersistence
  exact ⟨hidentifier, type, htype, (), hnames', k, hk', persistence, hpersistence', hlazy, heq⟩

end Transfer

/-! ## What is found -/

theorem effectiveKind_of_kind {container : String} (h : d.kind = some kind) :
    d.effectiveKind container = .ok kind := by
  rw [effectiveKind, h]
  rfl

theorem propertyKind_of_build {p : Property} (h : d.build s c kind = .ok p) :
    ∃ type, d.valueType c.name = .ok type ∧ d.propertyKind s c kind type = .ok p.kind := by
  simp only [build, refuse_bind, throw_bind, ite_error_eq_ok_iff, bind_eq_ok_iff] at h
  obtain ⟨-, type, htype, _, -, k, hk, _, -, -, heq⟩ := h
  cases heq
  exact ⟨type, htype, hk⟩

theorem aggregateOver_of_build {p : Property} (hkind : d.effectiveKind c.name = .ok kind)
    (haggregate : d.isAggregate = true) (h : d.build s c kind = .ok p) :
    ∃ dependent type, d.aggregateOver s c dependent type = .ok p.kind := by
  obtain ⟨type, -, hk⟩ := propertyKind_of_build h
  rw [isAggregate, Bool.or_eq_true, beq_iff_eq, beq_iff_eq] at haggregate
  rcases haggregate with haggregate | haggregate
  all_goals
    rw [effectiveKind_of_kind haggregate] at hkind
    cases hkind
  · exact ⟨false, type, hk⟩
  · exact ⟨true, type, hk⟩

theorem dependentReference_of_build {p : Property} (hkind : d.effectiveKind c.name = .ok kind)
    (hdependent : d.isDependentReference = true) (h : d.build s c kind = .ok p) :
    ∃ type reverse, d.valueType c.name = .ok type ∧ d.reverse = some reverse ∧
      p.kind = .dependentReference reverse ∧ type.LinksBack s c reverse := by
  obtain ⟨type, htype, hk⟩ := propertyKind_of_build h
  rw [isDependentReference, beq_iff_eq] at hdependent
  rw [effectiveKind_of_kind hdependent] at hkind
  cases hkind
  obtain ⟨reverse, hreverse, hp, hlinks⟩ := dependentReference_ok hk
  exact ⟨type, reverse, htype, hreverse, hp, hlinks⟩

/-- The other side of a dependent reference is there, and it is declared as a reference. -/
theorem reverse_of_build {p : Property} (hkind : d.effectiveKind c.name = .ok kind)
    (h : d.build s c kind = .ok p) (hdependent : d.isDependentReference = true)
    {container name : String} (hlooks : d.LooksUp c container name) :
    ∃ q, s.lookup container name = some q ∧ q.kind = .reference := by
  have hnone : d.isAggregate = false := by
    rw [isDependentReference, beq_iff_eq] at hdependent
    simp [isAggregate, hdependent]
  cases hlooks with
  | reverse _ htype htarget hreverse =>
      obtain ⟨type, reverse, htype', hreverse', -, target, resource, back, htarget', hresource,
        hback, hreference, -⟩ := dependentReference_of_build hkind hdependent h
      rw [htype] at htype'
      cases htype'
      rw [hreverse] at hreverse'
      cases hreverse'
      rw [htarget] at htarget'
      cases htarget'
      refine ⟨back, ?_, hreference⟩
      rw [Schema.lookup_of_container? (Schema.resource_ok hresource).1, hback]
  | collection haggregate _ =>
      rw [hnone] at haggregate
      cases haggregate
  | source haggregate _ _ _ _ =>
      rw [hnone] at haggregate
      cases haggregate

/-- What a declaration looked up was there. -/
theorem found_of_build {p : Property} (hc : s.container? c.name = some c)
    (hkind : d.effectiveKind c.name = .ok kind) (h : d.build s c kind = .ok p)
    {container name : String} (hlooks : d.LooksUp c container name) :
    ∃ q, s.lookup container name = some q := by
  cases hlooks with
  | reverse hdependent htype htarget hreverse =>
      obtain ⟨q, hq, -⟩ :=
        reverse_of_build hkind h hdependent (.reverse hdependent htype htarget hreverse)
      exact ⟨q, hq⟩
  | collection haggregate hsame =>
      obtain ⟨_, _, hover⟩ := aggregateOver_of_build hkind haggregate h
      obtain ⟨_, _, collection, _, _, _, hdeclared, -, -, hcollection, -⟩ :=
        aggregateOver_eq_ok_iff.1 hover
      rw [hsame] at hdeclared
      cases hdeclared
      exact ⟨collection, by rw [Schema.lookup_of_container? hc, hcollection]⟩
  | source haggregate hsame hcollection htarget hnamed =>
      obtain ⟨_, _, hover⟩ := aggregateOver_of_build hkind haggregate h
      obtain ⟨_, _, _, _, element, _, hdeclared, -, -, hcollection', -, htarget', helement, hsource,
        -⟩ := aggregateOver_eq_ok_iff.1 hover
      rw [hsame] at hdeclared
      cases hdeclared
      rw [hcollection] at hcollection'
      cases hcollection'
      rw [htarget] at htarget'
      cases htarget'
      rw [hnamed] at hsource
      obtain ⟨p, _, hp, -, -⟩ := sourceKind_ok hsource
      rw [Schema.container_eq_ok_iff] at helement
      exact ⟨p, by rw [Schema.lookup_of_container? helement, hp]⟩

/-- Aggregates are declared to be computed, and so are the other declarations that are put off. -/
theorem isAggregate_of_isDeferred (h : d.isDeferred = true)
    (hdependent : d.isDependentReference = false) : d.isAggregate = true := by
  unfold isDeferred at h
  split at h
  · rename_i hkind
    simp [isDependentReference, hkind] at hdependent
  · rename_i hkind
    simp [isAggregate, hkind]
  · rename_i hkind
    simp [isAggregate, hkind]
  · cases h

theorem isAggregate_of_build {p : Property} (hkind : d.effectiveKind c.name = .ok kind)
    (haggregate : d.isAggregate = true) (h : d.build s c kind = .ok p) : p.isAggregate = true := by
  obtain ⟨dependent, _, hover⟩ := aggregateOver_of_build hkind haggregate h
  obtain ⟨_, _, _, _, _, _, -, -, -, -, -, -, -, -, -, heq⟩ := aggregateOver_eq_ok_iff.1 hover
  rw [Property.isAggregate, Property.aggregate?, heq]
  cases dependent <;> rfl

theorem isComputed_of_build {p : Property} (hkind : d.effectiveKind c.name = .ok kind)
    (hdeferred : d.isDeferred = true) (h : d.build s c kind = .ok p) : p.isComputed = true := by
  cases hdependent : d.isDependentReference with
  | true =>
      obtain ⟨_, _, -, -, heq, -⟩ := dependentReference_of_build hkind hdependent h
      rw [Property.isComputed, heq]
      rfl
  | false =>
      have hdeclared := isAggregate_of_isDeferred hdeferred hdependent
      have haggregate := isAggregate_of_build hkind hdeclared h
      rw [Property.isAggregate, Property.aggregate?] at haggregate
      unfold PropertyKind.aggregate? at haggregate
      rw [Property.isComputed]
      split at haggregate <;> simp_all [PropertyKind.isComputed]

theorem LooksUp.of_collection {container name : String} (hheader : c'.header = c.header)
    (hfound : d.isAggregate = true → ∀ aggregate, d.aggregate = some aggregate → ∀ q,
      c.property? aggregate.collection = some q → c'.property? aggregate.collection = some q)
    (h : d.LooksUp c container name) : d.LooksUp c' container name := by
  obtain ⟨hname, -, -⟩ := Container.header_inj hheader
  cases h with
  | reverse hkind htype htarget hreverse => exact .reverse hkind (hname ▸ htype) htarget hreverse
  | collection hkind haggregate =>
      rw [← hname]
      exact .collection hkind haggregate
  | source hkind haggregate hcollection htarget hsource =>
      exact .source hkind haggregate (hfound hkind _ haggregate _ hcollection) htarget hsource

/-- A container with more properties leads to no other lookups, if the collection was there. -/
theorem looksUp_iff_of_found {container name : String} (hheader : c'.header = c.header)
    (hfound : d.isAggregate = true → ∀ aggregate, d.aggregate = some aggregate →
      ∃ q, c.property? aggregate.collection = some q ∧
        c'.property? aggregate.collection = some q) :
    d.LooksUp c' container name ↔ d.LooksUp c container name := by
  constructor
  · refine .of_collection hheader.symm fun hkind aggregate haggregate p hp => ?_
    obtain ⟨q, hq, hq'⟩ := hfound hkind aggregate haggregate
    rwa [← Option.some.inj (hq'.symm.trans hp)]
  · refine .of_collection hheader fun hkind aggregate haggregate p hp => ?_
    obtain ⟨q, hq, hq'⟩ := hfound hkind aggregate haggregate
    rwa [← Option.some.inj (hq.symm.trans hp)]

end PropertyDeclaration

end ResourceQuery
