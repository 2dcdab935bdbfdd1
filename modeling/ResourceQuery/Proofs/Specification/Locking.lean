import ResourceQuery.Proofs.Path.Selection
import ResourceQuery.Proofs.Specification.Acceptance
import ResourceQuery.Store
/-!
# Records locked by their identifiers

A request with nothing but an equality of one property compiles to the filter of that condition
alone (`Filter.compile_equality_iff`). With the identifier of a resource that the store keeps, a
record may be locked by it, if and only if the identifier is stored (`Filter.compile_identifier`).
-/

namespace ResourceQuery

theorem Text.isDotted_of_isIdentifier {name : String} (h : isIdentifier name.toList = true) :
    IsDotted name := ⟨name, [], rfl, by simpa using h⟩

namespace Configuration

/-- A filter has a group at least, and a condition may have an operand. -/
theorem limits_of_validate {c : Configuration} {u : Unit} (h : c.validate = .ok u) :
    0 < c.maxGroupDepth ∧ 0 < c.maxOperands := by
  simp only [validate, throw_bind, ite_error_eq_ok_iff, bind_eq_ok_iff] at h
  obtain ⟨-, _, -, hlimits⟩ := h
  rw [throw_eq_error, ite_error_eq_ok_iff, not_or] at hlimits
  exact hlimits.1.imp Nat.pos_of_ne_zero Nat.pos_of_ne_zero

end Configuration

namespace FilterParameters

/-- A single condition is the only entry of its filter. -/
theorem collect_condition {config : Configuration} (hconfig : config.validate = .ok ())
    {name : String} {group : GroupKey} {text : ConditionText}
    (h : FilterParameter.parse name = .ok (.condition group text))
    (hkey : group.root = config.filterKey) (keys : List String) (value : String) :
    ∃ groups, collect config keys (Parameters.ofPairs [(name, value)]) = .ok groups ∧
      of groups config.filterKey = { entries := [⟨name, group, .condition text, [value]⟩] } := by
  have hentries : (Parameters.ofPairs [(name, value)]).entries = [(name, [value])] := rfl
  refine ⟨addEntry [] ⟨name, group, .condition text, [value]⟩, ?_, ?_⟩
  · rw [collect, hentries, List.filter_singleton,
      (isAddressed_iff_of_parse hconfig h).2 (.inl hkey), cond_true, foldlM_singleton, addParameter, h]
    rfl
  · rw [addEntry, of_insert, if_pos hkey, hkey]
    rfl

end FilterParameters

namespace Filter

variable {s : Schema} {config : Configuration}

/-! ## One condition -/

/-- The filter of a single condition. -/
def ofCondition (c : Container) (condition : Condition) : Filter :=
  ⟨c.name, none, c.name, [⟨.conjunction, none, [.condition condition], [condition.path.text]⟩],
    NameSet.insertAll condition.path.participatingTypes []⟩

/-- A text that is a path alone asks for equality with the value that it is given. -/
theorem addContent_equality {name value : String} {group : GroupKey} {text : ConditionText}
    {place : PathText} (hconfig : config.validate = .ok ()) (hpaths : text.paths = [place])
    (hqualifiers : text.qualifiers = []) (hnegated : text.negated = false) (hvalue : value ≠ "")
    (f : Filter) (number : Nat) :
    addContent s config f number ⟨name, group, .condition text, [value]⟩ =
      addTests s number {} (.equality true) [value] f [place] := by
  have hreading : Qualifier.ofCondition text.qualifiers = .ok {} := by
    rw [hqualifiers]
    rfl
  have htest : testAndOperands name none [value] = .ok (.equality true, [value]) := by
    simp [testAndOperands, hvalue]
  have hfew : ¬config.maxOperands < [value].length :=
    Nat.not_lt.2 (Configuration.limits_of_validate hconfig).2
  simp only [addContent, addConditionText, hreading, ok_bind, htest, if_neg hfew, hpaths, hnegated]
  rfl

/-- The only entry of a filter puts its condition into the outermost group. -/
theorem build_equality_iff {resourceType path name value : String} {c : Container}
    {text : ConditionText} (hconfig : config.validate = .ok ())
    (hresource : s.resource resourceType = .ok c) (hpaths : text.paths.map PathText.path = [path])
    (hqualifiers : text.qualifiers = []) (hnegated : text.negated = false) (hvalue : value ≠ "")
    {f : Filter} :
    build s config resourceType
        { entries := [⟨name, ⟨[config.filterKey]⟩, .condition text, [value]⟩] } = .ok f ↔
      ∃ condition, makeCondition s c.name path {} (.equality true) [value] = .ok condition ∧
        f = ofCondition c condition := by
  obtain ⟨place, hplace, rfl⟩ : ∃ place, text.paths = [place] ∧ place.path = path := by
    simpa [List.map_eq_singleton_iff] using hpaths
  let start : Filter := ⟨c.name, none, c.name, [⟨.conjunction, none, [], []⟩], []⟩
  let entry : FilterEntry := ⟨name, ⟨[config.filterKey]⟩, .condition text, [value]⟩
  have hstart : Filter.all s resourceType = .ok start := by
    rw [Filter.all, hresource]
    rfl
  have hbuild : build s config resourceType { entries := [entry] } =
      (Draft.addEntry s config ⟨start, []⟩ entry).map Draft.filter := by
    rw [build_eq, Filter.start, hstart, ok_bind, pure_bind, foldlM_singleton]
    cases Draft.addEntry s config ⟨start, []⟩ entry <;> rfl
  -- the key of the filter itself is the outermost group, which is there from the start
  have hreach : Draft.reach ⟨start, []⟩ none [] entry.group.segments =
      .ok (root, ⟨start, [([config.filterKey], root)]⟩) := rfl
  have hdepth : entry.group.depth ≤ config.maxGroupDepth :=
    (Configuration.limits_of_validate hconfig).1
  have hopen : root < start.groups.length := Nat.one_pos
  rw [hbuild, addEntry_eq hdepth hreach,
    addContent_equality hconfig hplace hqualifiers hnegated hvalue, addTests, foldlM_singleton,
    addCondition_eq hopen]
  cases makeCondition s start.scope place.path {} (.equality true) [value] with
  | error fault => simp [Except.map]
  | ok condition =>
      have hgroups : addItem root (.condition condition)
          (noteUsed condition.path.text (root + 1) root start.groups) =
            (ofCondition c condition).groups := rfl
      simp [Except.map, hgroups, start, ofCondition, eq_comm]

/-- A request with one equality alone compiles to the filter of its condition. -/
theorem compile_equality_iff {resourceType path value : String} {c : Container}
    (hconfig : config.validate = .ok ()) (hresource : s.resource resourceType = .ok c)
    (hpath : Text.IsDotted path) (hvalue : value ≠ "") {f : Filter} :
    compile s config resourceType
        (Parameters.ofPairs [(config.filterKey ++ "$" ++ path, value)]) = .ok f ↔
      ∃ condition, makeCondition s c.name path {} (.equality true) [value] = .ok condition ∧
        f = ofCondition c condition := by
  obtain ⟨-, rfl⟩ := Schema.container?_some (Schema.resource_ok hresource).1
  have hkey : GroupKey.Readable config.filterKey [] :=
    ⟨(Configuration.validate_ok hconfig).1, by simp⟩
  obtain ⟨text, hparse, hpaths, hqualifiers, hnegated⟩ :=
    FilterParameter.parse_condition hkey hpath (List.forall_mem_nil Qualifier.Readable) false
  have hname : FilterParameter.opening config.filterKey [] '$' ++
      ConditionText.written path [] false = config.filterKey ++ "$" ++ path := by
    simp [FilterParameter.opening, ConditionText.written, Text.join]
  rw [hname] at hparse
  obtain ⟨groups, hcollect, hentries⟩ :=
    FilterParameters.collect_condition hconfig hparse rfl [] value
  rw [compile, hcollect, ok_bind, hresource, ok_bind, hentries]
  exact build_equality_iff hconfig hresource hpaths (by simpa using hqualifiers) hnegated hvalue

/-! ## The identifier of a resource -/

theorem inapplicable?_of_isKeyable {type : ValueType} (h : type.isKeyable = true) (equal : Bool) :
    inapplicable? (.equality equal) type = none := by
  cases type with
  | scalar kind | enum members | reference target => rfl
  | _ => cases h

/-- An equality of a property can be made of a text that its type reads, if and only if the store
can tell the property. -/
theorem makeCondition_equality_iff {d : SchemaDocument} (hbuild : d.build = .ok s) {c : Container}
    {p : Property} {text : String} {value : Value} (hc : c ∈ s.containers) (hp : p ∈ c.properties)
    (hkeyable : p.type.isKeyable = true) (hread : p.type.parseText s text = .ok value) :
    (∃ condition, makeCondition s c.name p.name {} (.equality true) [text] = .ok condition) ↔
      Path.isEvaluable s (.property c.name p) = true := by
  have hresolved := Path.resolve_property hbuild hc hp
  have htested : testedType s p.name p.type {} = .ok p.type :=
    congrArg Except.ok (ValueType.leaf_of_isKeyable hkeyable)
  have happlicable := inapplicable?_of_isKeyable hkeyable true
  have hcheck : checkOperandCount p.name (.equality true) [text] = .ok () := rfl
  have hterminal : Path.terminal ⟨p.name, c.name, [.property c.name p]⟩ = .ok p := rfl
  simp only [makeCondition, hcheck, hresolved, ok_bind, Path.checkEvaluable, List.find?_singleton]
  cases Path.isEvaluable s (.property c.name p) with
  | false => simp [error_bind]
  | true => simp [ok_bind, hterminal, htested, happlicable, hread]

/-- A condition on the identifier is all that a record is locked by. -/
theorem checkLock_ofCondition {c : Container} {id : Property} {condition : Condition}
    (hc : s.container? c.name = some c) (hid : c.identifier? = some id)
    (hpath : condition.path.text = id.name) :
    (ofCondition c condition).checkLock s c.name = .ok () := by
  have hbyId : (ofCondition c condition).isByIdOnly s = true := by
    simp [isByIdOnly, ofCondition, hc, hid, hpath, used, group?, root]
  have hhere : ¬((ofCondition c condition).resourceType ≠ c.name ∨
      (ofCondition c condition).basePath.isSome = true) := by
    simp [ofCondition]
  rw [checkLock, if_neg hhere, hbyId]
  rfl

/-- The store can tell the identifier of a resource that it keeps if and only if it is stored. -/
theorem isEvaluable_identifier {c : Container} {id : Property} (hc : s.container? c.name = some c)
    (hpersistent : c.isPersistent = true) (hid : c.identifier? = some id) :
    Path.isEvaluable s (.property c.name id) = id.isPersisted := by
  have hrole : c.role = .resource true := by simpa [Container.isPersistent] using hpersistent
  have hkind : id.kind = .id := by simpa [Property.isId] using List.find?_some hid
  simp [Path.isEvaluable, Schema.holdsPersistentData, Container.holdsPersistentData, hc, hrole,
    Property.isComputed, hkind, PropertyKind.isComputed]

/-- A record of a resource that the store keeps can be locked by its identifier, if and only if the
identifier is stored. -/
theorem compile_identifier {d : SchemaDocument} (hbuild : d.build = .ok s) {resourceType : String}
    {c : Container} {id : Property} {text : String} {value : Value}
    (hresource : s.resource resourceType = .ok c) (hpersistent : c.isPersistent = true)
    (hid : c.identifier? = some id) (hconfig : config.validate = .ok ()) (htext : text ≠ "")
    (hread : id.type.parseText s text = .ok value) :
    (∃ f, compile s config resourceType
        (Parameters.ofPairs [(config.filterKey ++ "$" ++ id.name, text)]) = .ok f ∧
      f.checkLock s resourceType = .ok ()) ↔ id.isPersisted = true := by
  obtain ⟨hfound, -⟩ := Schema.resource_ok hresource
  obtain ⟨hc, rfl⟩ := Schema.container?_some hfound
  have hmem : id ∈ c.properties := List.mem_of_find?_eq_some hid
  have hkeyable := (SchemaDocument.build_keyed hbuild c hc id hmem).2 (List.find?_some hid)
  have hdotted := Text.isDotted_of_isIdentifier (SchemaDocument.build_named hbuild c hc id hmem)
  rw [← isEvaluable_identifier hfound hpersistent hid,
    ← makeCondition_equality_iff hbuild hc hmem hkeyable hread]
  simp only [compile_equality_iff hconfig hresource hdotted htext]
  constructor
  · rintro ⟨_, ⟨condition, hcondition, -⟩, -⟩
    exact ⟨condition, hcondition⟩
  · rintro ⟨condition, hcondition⟩
    exact ⟨_, ⟨condition, hcondition, rfl⟩,
      checkLock_ofCondition hfound hid (makeCondition_ok hcondition).1⟩

/-- The user with number seven can be locked. -/
theorem compile_identifier_user :
    orderDocument.build = .ok orderSchema ∧ orderSchema.resource "User" = .ok userContainer ∧
      userContainer.isPersistent = true ∧ userContainer.identifier? = some identifierProperty ∧
      Configuration.validate {} = .ok () ∧
      (∃ value, identifierProperty.type.parseText orderSchema "7" = .ok value) ∧
      ∃ f, compile orderSchema {} "User" (Parameters.ofPairs [("f$id", "7")]) = .ok f ∧
        f.checkLock orderSchema "User" = .ok () := by
  have hbuild : orderDocument.build = .ok orderSchema := rfl
  have hresource : orderSchema.resource "User" = .ok userContainer := rfl
  have hid : userContainer.identifier? = some identifierProperty := rfl
  have hconfig : Configuration.validate {} = .ok () := by decide +kernel
  obtain ⟨value, hread⟩ : ∃ value, identifierProperty.type.parseText orderSchema "7" = .ok value :=
    isSome_toOption_iff.1 (by decide +kernel)
  exact ⟨hbuild, hresource, rfl, hid, hconfig, ⟨value, hread⟩,
    (compile_identifier hbuild hresource rfl hid hconfig (by decide) hread).2 rfl⟩

/-- Tickets whose numbers are not stored. -/
def ticketDocument : SchemaDocument where
  resources :=
    [{ name := "Ticket"
       properties := [{ name := "id", kind := some .id, type := "long", transient := true }] }]
  objects := []

def ticketNumber : Property := { identifierProperty with persistence := none }

def ticketSchema : Schema := ⟨[⟨"Ticket", .resource true, .plain, [ticketNumber]⟩]⟩

/-- The store keeps tickets, and still none can be locked by its number. -/
theorem not_compile_ticketNumber :
    ticketDocument.build = .ok ticketSchema ∧
      (∃ c, ticketSchema.resource "Ticket" = .ok c ∧ c.isPersistent = true ∧
        c.identifier? = some ticketNumber) ∧
      Configuration.validate {} = .ok () ∧
      (∃ value, ticketNumber.type.parseText ticketSchema "7" = .ok value) ∧
      ¬∃ f, compile ticketSchema {} "Ticket" (Parameters.ofPairs [("f$id", "7")]) = .ok f ∧
        f.checkLock ticketSchema "Ticket" = .ok () := by
  have hconfig : Configuration.validate {} = .ok () := by decide +kernel
  refine ⟨rfl, ⟨_, rfl, rfl, rfl⟩, hconfig, isSome_toOption_iff.1 (by decide +kernel), ?_⟩
  rintro ⟨f, hcompile, -⟩
  have hresource : ticketSchema.resource "Ticket" = .ok _ := rfl
  have hdotted : Text.IsDotted "id" := Text.isDotted_of_isIdentifier (by decide)
  obtain ⟨condition, hcondition, -⟩ :=
    (compile_equality_iff hconfig hresource hdotted (by decide)).1 hcompile
  cases hcondition

end Filter

end ResourceQuery
