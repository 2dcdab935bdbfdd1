import ResourceQuery.Proofs.Compile.Lists
import ResourceQuery.Proofs.Compile.Validity
/-!
# Sort keys

An order is put together by calls, and a call that fails leaves it as it is. Records are compared by
what a single property holds, or by the identifier of the resource that it refers to. Exactly the
calls that ask for such a key succeed (`SortCall.apply_eq_ok_iff`). The identifier may be of any
type that is fit for one; if it is a reference in turn, references are compared.
-/

namespace ResourceQuery

/-! ## What is compared -/

namespace ValueType

/-- A scalar or a member of an enum. -/
def isPlain : ValueType → Bool
  | scalar _ | enum _ => true
  | _ => false

/-- The type of the key by which records are sorted: that of a property, or that of the identifier
behind it. -/
structure SortKey (s : Schema) (type : ValueType) (byId : Bool) (key : ValueType) : Prop where
  qualified : byId = type.isReference
  held : type.Holds s (if byId then .id else .value) key
  /-- Only an identifier may be a reference, and then one that is compared as it is. -/
  plain : key.isPlain = true ∨ byId = true ∧ key.isReference = true

theorem isPlain_or_isReference {type : ValueType} (h : type.isKeyable = true) :
    type.isPlain = true ∨ type.isReference = true := by
  cases type with
  | scalar _ | enum _ => exact .inl rfl
  | reference _ => exact .inr rfl
  | _ => cases h

/-- Nothing but a plain type is its own sort key. -/
theorem sortKey_own {s : Schema} {type key : ValueType} (hleaf : type.leaf = type)
    (hreference : type.isReference = false) :
    type.SortKey s false key ↔ type.isPlain = true ∧ key = type := by
  constructor
  · rintro ⟨-, hheld, hplain⟩
    cases hheld
    rw [hleaf] at hplain ⊢
    exact ⟨hplain.resolve_right (by simp), rfl⟩
  · rintro ⟨hplain, rfl⟩
    have hheld : key.Holds s .value key.leaf := .value
    rw [hleaf] at hheld
    exact ⟨hreference.symm, hheld, .inl hplain⟩

end ValueType

namespace SortOrder

variable {d : SchemaDocument} {s : Schema}

/-- In a built schema all that stands for an identifier is a key or a reference. -/
theorem keyable_identifier (hbuild : d.build = .ok s) {name : String} {resource : Container}
    {identifier : Property} (hresource : s.resource name = .ok resource)
    (hidentifier : resource.identifier? = some identifier) : identifier.type.isKeyable = true := by
  have hmem := (Schema.container?_some (Schema.resource_ok hresource).1).1
  exact (SchemaDocument.build_keyed hbuild resource hmem identifier
    (List.mem_of_find?_eq_some hidentifier)).2 (List.find?_some hidentifier)

theorem identifier_eq_some_iff {target : Target} {identifier : Property} :
    ((target.resource?.bind s.container?).filter Container.isResource).bind Container.identifier? =
        some identifier ↔
      ∃ name resource, target = .resource name ∧ s.resource name = .ok resource ∧
        resource.identifier? = some identifier := by
  cases target with
  | any => simp [Target.resource?]
  | resource name =>
      have hbind : (Target.resource name).resource?.bind s.container? = s.container? name := rfl
      rw [hbind, Option.bind_eq_some_iff]
      simp only [Schema.filter_isResource_eq_some_iff]
      constructor
      · rintro ⟨resource, hresource, hidentifier⟩
        exact ⟨name, resource, rfl, hresource, hidentifier⟩
      · rintro ⟨_, resource, heq, hresource, hidentifier⟩
        cases heq
        exact ⟨resource, hresource, hidentifier⟩

/-- The type that is compared of a single value is its sort key. -/
theorem sortedType_eq_ok_iff (hbuild : d.build = .ok s) {path : String} {type key : ValueType}
    {byId : Bool} (hsingle : type.isCollection = false) :
    sortedType s path type byId = .ok key ↔ type.SortKey s byId key := by
  cases type with
  | list _ | set _ | map _ _ => simp [ValueType.isCollection, ValueType.degree] at hsingle
  | object _ | dynamic =>
      simp only [sortedType, reduceCtorEq, false_iff]
      intro h
      cases h.qualified
      simpa [ValueType.isPlain] using (ValueType.sortKey_own rfl rfl).1 h
  | scalar _ | enum _ =>
      cases byId with
      | true =>
          simp only [sortedType, if_true, reduceCtorEq, false_iff]
          intro h
          cases h.qualified
      | false =>
          rw [ValueType.sortKey_own rfl rfl]
          simp [sortedType, ValueType.isPlain, eq_comm]
  | reference target =>
      cases byId with
      | false =>
          simp only [sortedType, Bool.not_false, if_true, reduceCtorEq, false_iff]
          intro h
          cases h.qualified
      | true =>
          simp only [sortedType, Bool.not_true, Bool.false_eq_true, if_false]
          constructor
          · intro h
            split at h
            · rename_i identifier hidentifier
              cases h
              obtain ⟨name, resource, rfl, hresource, hfound⟩ :=
                identifier_eq_some_iff.1 hidentifier
              have hkeyable := keyable_identifier hbuild hresource hfound
              refine ⟨rfl, .id rfl hresource hfound, ?_⟩
              exact (ValueType.isPlain_or_isReference hkeyable).imp_right fun h => ⟨rfl, h⟩
            · cases h
          · rintro ⟨-, hheld, -⟩
            cases hheld with
            | id htarget hresource hidentifier =>
                cases htarget
                rw [identifier_eq_some_iff.2 ⟨_, _, rfl, hresource, hidentifier⟩]

end SortOrder

/-! ## Calls -/

/-- A sort that tells records of the resource type apart by a single value that the store has. -/
structure PropertySort.Comparable (s : Schema) (resourceType : String) (p : PropertySort) :
    Prop where
  resolves : Path.resolve s resourceType p.path.text = .ok p.path
  evaluable : p.path.checkEvaluable s = .ok ()
  single : ∀ property ∈ p.path.properties, property.type.isCollection = false
  key : ∃ property key, p.path.terminal = .ok property ∧ property.type.SortKey s p.byId key ∧
    (p.transform.isSome = true → key = .string)

/-- The records of the resource type are segmented by a filter of their own. -/
def Segment.Divides (resourceType : String) (segment : Segment) : Prop :=
  segment.filter.resourceType = resourceType ∧ segment.filter.basePath = none

/-- A call that adds to an order. -/
inductive SortCall
  | property (direction : Direction) (path : String) (transform : Option Transform) (byId : Bool)
  | segment (direction : Direction) (key : String) (filter : Filter)

namespace SortElement

def Fits (s : Schema) (resourceType : String) : SortElement → Prop
  | segment x => x.Divides resourceType
  | property p => p.Comparable s resourceType

end SortElement

namespace SortCall

def apply (s : Schema) (o : SortOrder) : SortCall → Except Fault SortOrder
  | property direction path transform byId => o.add s direction path transform byId
  | segment direction key filter => o.addSegment direction key filter

/-- The element is what the call asks for. -/
inductive Asks (s : Schema) (resourceType : String) : SortCall → SortElement → Prop
  | property {direction : Direction} {path : String} {resolved : Path}
    {transform : Option Transform} {byId : Bool}
    (h : Path.resolve s resourceType path = .ok resolved) :
    Asks s resourceType (.property direction path transform byId)
      (.property ⟨direction, resolved, transform, byId⟩)
  | segment {direction : Direction} {key : String} {filter : Filter} :
    Asks s resourceType (.segment direction key filter) (.segment ⟨direction, key, filter⟩)

end SortCall

namespace SortOrder

/-- The order with one more element behind those of its kind. -/
def push (o : SortOrder) : SortElement → SortOrder
  | .segment segment => { o with segments := o.segments ++ [segment] }
  | .property p => { o with properties := o.properties ++ [p] }

variable {d : SchemaDocument} {s : Schema}

/-- A transform is passed by if there is none, or if the key is a string. -/
theorem transformed_eq_ok_iff {transform : Option Transform} {path : String} {key : ValueType}
    {o o' : SortOrder} :
    (do
      if let some t := transform then
        if !t.appliesTo key then
          throw (Fault.of (.use path (.transformOfNonString t.function.name)))
      return o : Except Fault SortOrder) = .ok o' ↔
      (transform.isSome = true → key = .string) ∧ o = o' := by
  cases transform with
  | none => simp [pure, Except.pure]
  | some t =>
      by_cases hkey : key = .string
      · simp [Transform.appliesTo, hkey, pure, Except.pure]
      · simp [Transform.appliesTo, hkey, throw_eq_error]

theorem mem_properties_of_terminal {path : Path} {property : Property}
    (h : path.terminal = .ok property) : property ∈ path.properties := by
  obtain ⟨container, hlast⟩ := Path.getLast?_of_terminal h
  exact List.mem_filterMap.2 ⟨_, List.mem_of_getLast? hlast, rfl⟩

/-- A property is added if it is a single one that is compared, and only then. -/
theorem add_eq_ok_iff (hbuild : d.build = .ok s) {o o' : SortOrder} {direction : Direction}
    {path : String} {transform : Option Transform} {byId : Bool} :
    o.add s direction path transform byId = .ok o' ↔
      ∃ resolved, Path.resolve s o.resourceType path = .ok resolved ∧
        PropertySort.Comparable s o.resourceType ⟨direction, resolved, transform, byId⟩ ∧
        o' = o.push (.property ⟨direction, resolved, transform, byId⟩) := by
  have hmany : ∀ resolved : Path, resolved.isMultiValued = false ↔
      ∀ property ∈ resolved.properties, property.type.isCollection = false := by
    simp [Path.isMultiValued]
  constructor
  · intro h
    simp only [add, bind_eq_ok_iff] at h
    obtain ⟨resolved, hresolved, _, hevaluable, property, hproperty, h⟩ := h
    split at h
    · cases h
    · rename_i hsingle
      obtain ⟨key, hkey, h⟩ := bind_eq_ok_iff.1 h
      obtain ⟨hstring, rfl⟩ := transformed_eq_ok_iff.1 h
      replace hsingle := (hmany resolved).1 (by simpa using hsingle)
      rw [sortedType_eq_ok_iff hbuild
        (hsingle property (mem_properties_of_terminal hproperty))] at hkey
      exact ⟨resolved, hresolved, ⟨by rwa [(Path.resolve_ok hresolved).1], hevaluable, hsingle,
        property, key, hproperty, hkey, hstring⟩, rfl⟩
  · rintro ⟨resolved, hresolved, ⟨-, hevaluable, hsingle, property, key, hproperty, hkey, hstring⟩,
      rfl⟩
    have hsorted : sortedType s path property.type byId = .ok key :=
      (sortedType_eq_ok_iff hbuild
        (hsingle property (mem_properties_of_terminal hproperty))).2 hkey
    simp only [add, hresolved, ok_bind, hevaluable, hproperty, (hmany resolved).2 hsingle, hsorted]
    exact transformed_eq_ok_iff.2 ⟨hstring, rfl⟩

theorem addSegment_eq_ok_iff {o o' : SortOrder} {direction : Direction} {key : String}
    {filter : Filter} :
    o.addSegment direction key filter = .ok o' ↔
      Segment.Divides o.resourceType ⟨direction, key, filter⟩ ∧
        o' = o.push (.segment ⟨direction, key, filter⟩) := by
  unfold addSegment
  rw [ite_error_eq_ok_iff, not_or, not_not, Option.not_isSome_iff_eq_none, Except.ok.injEq,
    eq_comm (b := o')]
  rfl

end SortOrder

namespace SortCall

variable {d : SchemaDocument} {s : Schema}

/-- A call succeeds if it asks for an element that fits, which it adds, and only then. -/
theorem apply_eq_ok_iff (hbuild : d.build = .ok s) {o o' : SortOrder} {call : SortCall} :
    call.apply s o = .ok o' ↔ ∃ x, call.Asks s o.resourceType x ∧ x.Fits s o.resourceType ∧
      o' = o.push x := by
  cases call with
  | property direction path transform byId =>
      rw [apply, SortOrder.add_eq_ok_iff hbuild]
      constructor
      · rintro ⟨resolved, hresolved, hcomparable, heq⟩
        exact ⟨_, .property hresolved, hcomparable, heq⟩
      · rintro ⟨x, hasks, hfits, heq⟩
        cases hasks with
        | property hresolved => exact ⟨_, hresolved, hfits, heq⟩
  | segment direction key filter =>
      rw [apply, SortOrder.addSegment_eq_ok_iff]
      constructor
      · rintro ⟨hdivides, heq⟩
        exact ⟨_, .segment, hdivides, heq⟩
      · rintro ⟨x, hasks, hfits, heq⟩
        cases hasks with
        | segment => exact ⟨hfits, heq⟩

/-- Whether a call succeeds does not depend on what the order holds already. -/
def succeeds (s : Schema) (start : SortOrder) (call : SortCall) : Bool :=
  (call.apply s start).toOption.isSome

theorem succeeds_iff (hbuild : d.build = .ok s) {start : SortOrder} {call : SortCall} :
    call.succeeds s start = true ↔
      ∃ x, call.Asks s start.resourceType x ∧ x.Fits s start.resourceType := by
  rw [succeeds, isSome_toOption_iff]
  constructor
  · rintro ⟨o', h⟩
    obtain ⟨x, hasks, hfits, -⟩ := (apply_eq_ok_iff hbuild).1 h
    exact ⟨x, hasks, hfits⟩
  · rintro ⟨x, hasks, hfits⟩
    exact ⟨_, (apply_eq_ok_iff hbuild).2 ⟨x, hasks, hfits, rfl⟩⟩

end SortCall

/-! ## Runs of calls -/

namespace SortOrder

variable {d : SchemaDocument} {s : Schema}

/-- The order behind a call. One that fails leaves it as it is. -/
def after (s : Schema) (o : SortOrder) (call : SortCall) : SortOrder :=
  match call.apply s o with
  | .ok o' => o'
  | .error _ => o

/-- The order holds what the calls ask for, one element for each, and all of it fits. -/
structure Gathers (s : Schema) (calls : List SortCall) (o : SortOrder) : Prop where
  segments : ∀ x ∈ o.segments, x.Divides o.resourceType
  properties : ∀ p ∈ o.properties, p.Comparable s o.resourceType
  /-- Segments come first, each kind in the order of the calls. -/
  elements : ∃ asked, List.Forall₂ (SortCall.Asks s o.resourceType) calls asked ∧
    o.elements = (asked.filterMap SortElement.segment?).map .segment ++
      (asked.filterMap SortElement.property?).map .property

theorem gathers_empty (resourceType : String) : Gathers s [] ⟨resourceType, [], []⟩ :=
  ⟨by simp, by simp, [], .nil, rfl⟩

theorem resourceType_push (o : SortOrder) (x : SortElement) :
    (o.push x).resourceType = o.resourceType := by cases x <;> rfl

/-- An element that fits is gathered with the call that asks for it. -/
theorem Gathers.push {o : SortOrder} {calls : List SortCall} {call : SortCall} {x : SortElement}
    (h : o.Gathers s calls) (hasks : call.Asks s o.resourceType x)
    (hfits : x.Fits s o.resourceType) : (o.push x).Gathers s (calls ++ [call]) := by
  obtain ⟨asked, hasked, helements⟩ := h.elements
  have hsegments : o.segments = asked.filterMap SortElement.segment? := by
    rw [← filterMap_segment? o, helements]
    simp [List.filterMap_append, List.filterMap_map, Function.comp_def, SortElement.segment?]
  have hproperties : o.properties = asked.filterMap SortElement.property? := by
    rw [← filterMap_property? o, helements]
    simp [List.filterMap_append, List.filterMap_map, Function.comp_def, SortElement.property?]
  have hall : List.Forall₂ (SortCall.Asks s (o.push x).resourceType) (calls ++ [call])
      (asked ++ [x]) := by
    rw [resourceType_push]
    exact List.rel_append hasked (.cons hasks .nil)
  cases x with
  | segment segment =>
      refine ⟨List.forall_mem_append.2 ⟨h.segments, List.forall_mem_singleton.2 hfits⟩,
        h.properties, _, hall, ?_⟩
      simp [SortOrder.elements, SortOrder.push, hsegments, hproperties, SortElement.segment?,
        SortElement.property?, List.filterMap_cons]
  | property p =>
      refine ⟨h.segments,
        List.forall_mem_append.2 ⟨h.properties, List.forall_mem_singleton.2 hfits⟩, _, hall, ?_⟩
      simp [SortOrder.elements, SortOrder.push, hsegments, hproperties, SortElement.segment?,
        SortElement.property?, List.filterMap_cons]

/-- The calls in front are those that led to the order. -/
theorem foldl_after (hbuild : d.build = .ok s) {start o : SortOrder} (front : List SortCall)
    {calls : List SortCall} (htype : o.resourceType = start.resourceType)
    (h : o.Gathers s (front.filter (·.succeeds s start))) :
    (calls.foldl (after s) o).resourceType = start.resourceType ∧
      (calls.foldl (after s) o).Gathers s ((front ++ calls).filter (·.succeeds s start)) := by
  induction calls generalizing o front with
  | nil => exact ⟨htype, by simpa using h⟩
  | cons call rest ih =>
      have hsplit : front ++ call :: rest = (front ++ [call]) ++ rest := by simp
      rw [List.foldl_cons, hsplit]
      by_cases hsucceeds : call.succeeds s start = true
      · obtain ⟨x, hasks, hfits⟩ := (SortCall.succeeds_iff hbuild).1 hsucceeds
        rw [← htype] at hasks hfits
        have happly := (SortCall.apply_eq_ok_iff hbuild).2 ⟨x, hasks, hfits, rfl⟩
        have hafter : after s o call = o.push x := by rw [after, happly]
        rw [hafter]
        apply ih (front ++ [call]) ((resourceType_push o x).trans htype)
        rw [List.filter_append, List.filter_cons_of_pos hsucceeds]
        exact h.push hasks hfits
      · have hafter : after s o call = o := by
          cases happly : call.apply s o with
          | error _ => rw [after, happly]
          | ok o' =>
              obtain ⟨x, hasks, hfits, -⟩ := (SortCall.apply_eq_ok_iff hbuild).1 happly
              rw [htype] at hasks hfits
              exact absurd ((SortCall.succeeds_iff hbuild).2 ⟨x, hasks, hfits⟩) hsucceeds
        rw [hafter]
        apply ih (front ++ [call]) htype
        rw [List.filter_append, List.filter_cons_of_neg hsucceeds]
        simpa using h

/-- After any calls an order holds what was asked for by those that succeed, and all of it fits. -/
theorem gathers_of_calls (hbuild : d.build = .ok s) {resourceType : String} {start : SortOrder}
    {calls : List SortCall} (hstart : SortOrder.none s resourceType = .ok start) :
    (calls.foldl (after s) start).resourceType = resourceType ∧
      (calls.foldl (after s) start).Gathers s (calls.filter (·.succeeds s start)) := by
  obtain ⟨c, hresource, hstart⟩ := bind_eq_ok_iff.1 hstart
  cases hstart
  have hname := (Schema.container?_some (Schema.resource_ok hresource).1).2
  rw [← hname]
  exact foldl_after hbuild [] rfl (gathers_empty _)

/-- Calls for orders of customers. Customers are references, which the first call passes over. -/
def customerCalls (own : Filter) : List SortCall :=
  [.property .asc "customer" Option.none false, .property .desc "customer" Option.none true,
    .segment .asc "own" own, .property .asc "customer.id" Option.none false]

theorem customerCalls_gathered : orderDocument.build = .ok orderSchema ∧
    ∃ start own, SortOrder.none orderSchema "Order" = .ok start ∧
      Filter.all orderSchema "Order" = .ok own ∧
      ((customerCalls own).foldl (after orderSchema) start).Gathers orderSchema
        ((customerCalls own).filter (·.succeeds orderSchema start)) ∧
      ((customerCalls own).foldl (after orderSchema) start).encode =
        "$own,customer:id:desc,customer.id" := by
  have hbuild : orderDocument.build = .ok orderSchema := rfl
  have hstart : SortOrder.none orderSchema "Order" = .ok ⟨"Order", [], []⟩ := rfl
  have hown : Filter.all orderSchema "Order" =
      .ok ⟨"Order", Option.none, "Order", [⟨.conjunction, Option.none, [], []⟩], []⟩ := rfl
  exact ⟨hbuild, _, _, hstart, hown, (gathers_of_calls hbuild hstart).2, by decide +kernel⟩

/-- Keepers with their badges. A badge is known by its keeper. -/
def badgeDocument : SchemaDocument where
  resources :=
    [{ name := "Keeper"
       properties :=
        [{ name := "id", kind := some .id, type := "long" },
          { name := "badge", type := "ref(Badge)" }] },
      { name := "Badge"
        properties := [{ name := "keeper", kind := some .id, type := "ref(Keeper)" }] }]
  objects := []

def badgeProperty : Property :=
  { name := "badge", kind := .reference, type := .reference (.resource "Badge"),
    settable := true, persistence := some ⟨"badge", Option.none⟩ }

def badgeSchema : Schema :=
  let keeper : Property :=
    { name := "keeper", kind := .id, type := .reference (.resource "Keeper"),
      settable := true, persistence := some ⟨"keeper", Option.none⟩ }
  ⟨[⟨"Keeper", .resource true, .plain, [identifierProperty, badgeProperty]⟩,
    ⟨"Badge", .resource true, .plain, [keeper]⟩]⟩

/-- Keepers are sorted by their badges, of which only references are there to be compared. -/
theorem badge_compares_references : badgeDocument.build = .ok badgeSchema ∧
    ∃ start o p property, SortOrder.none badgeSchema "Keeper" = .ok start ∧
      after badgeSchema start (.property .asc "badge" Option.none true) = o ∧ p ∈ o.properties ∧
      p.path.terminal = .ok property ∧
      ∀ key, property.type.SortKey badgeSchema p.byId key ↔
        key = .reference (.resource "Keeper") := by
  have hbuild : badgeDocument.build = .ok badgeSchema := toOption_eq_some_iff.1 (by decide +kernel)
  have hstart : SortOrder.none badgeSchema "Keeper" = .ok ⟨"Keeper", [], []⟩ := rfl
  let path : Path := ⟨"badge", "Keeper", [.property "Keeper" badgeProperty]⟩
  have hadd : SortOrder.add badgeSchema ⟨"Keeper", [], []⟩ .asc "badge" Option.none true =
      .ok ⟨"Keeper", [], [⟨.asc, path, Option.none, true⟩]⟩ := rfl
  refine ⟨hbuild, _, _, ⟨.asc, path, Option.none, true⟩, badgeProperty, hstart, rfl, ?_, rfl, ?_⟩
  · rw [after, SortCall.apply, hadd]
    simp
  · intro key
    constructor
    · rintro ⟨-, hheld, -⟩
      cases hheld with
      | id htarget hresource hidentifier =>
          cases htarget
          cases hresource
          cases hidentifier
          rfl
    · rintro rfl
      have hresource : badgeSchema.resource "Badge" = .ok badgeSchema.containers[1] := rfl
      exact ⟨rfl, .id rfl hresource rfl, .inr ⟨rfl, rfl⟩⟩

end SortOrder

end ResourceQuery
