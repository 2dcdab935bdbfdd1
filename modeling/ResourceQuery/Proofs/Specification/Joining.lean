import ResourceQuery.Proofs.Query.Joining
import ResourceQuery.Proofs.Specification.Acceptance
/-!
# Joined list parameters

What a request is compiled to depends on its list parameters only through the elements of all their
values: not on how the elements are divided among values, and not on where they stand
(`Specification.SameRequest.compile_iff`). So two values of a list parameter are as good as one with
a comma between them (`Specification.compile_joined_iff`).
-/

namespace ResourceQuery

/-! ## Places do not matter -/

theorem toOption_located {α : Type} (position : Position) (x : Except Fault α) :
    (located position x).toOption = x.toOption := by
  cases x <;> rfl

theorem toOption_additionalFilter (filters : NameMap Filter) (key : String) (position : Position) :
    (additionalFilter filters key position).toOption = filters.find? key := by
  unfold additionalFilter
  cases filters.find? key <;> rfl

namespace Qualifier

theorem toOption_transform (q : Qualifier) : q.transform.toOption =
    (Transform.ofName q.name q.parameters).toOption := by
  unfold transform
  cases Transform.ofName q.name q.parameters <;> rfl

theorem toOption_readSort_unplaced (r : SortReading) (q : Qualifier) :
    (readSort r q.unplaced).toOption = (readSort r q).toOption := by
  have hdirection : q.unplaced.direction? = q.direction? := rfl
  have hid : (q.unplaced.name = "id" ∧ q.unplaced.isPlain ∧ !r.byId) =
      (q.name = "id" ∧ q.isPlain ∧ !r.byId) := rfl
  unfold readSort
  by_cases hlast : r.direction.isSome = true
  · simp only [if_pos hlast]
    rfl
  simp only [if_neg hlast, hdirection]
  cases q.direction? with
  | some direction => rfl
  | none =>
      simp only [hid]
      split
      · rfl
      · split
        · simp only [toOption_bind, toOption_transform]
          rfl
        · rfl

theorem toOption_ofSort_unplaced (qualifiers : List Qualifier) :
    (ofSort (qualifiers.map unplaced)).toOption = (ofSort qualifiers).toOption :=
  Grammar.foldlM_map_unplaced toOption_readSort_unplaced qualifiers _

end Qualifier

section Elements

variable (s : Schema) (filters : NameMap Filter)

theorem SortOrder.toOption_addText_unplaced (o : SortOrder) (text : OrderText) :
    (o.addText s filters text.unplaced).toOption = (o.addText s filters text).toOption := by
  cases text with
  | segment key descending position =>
      simp only [OrderText.unplaced, addText, toOption_bind, toOption_located,
        toOption_additionalFilter]
  | property path qualifiers =>
      simp only [OrderText.unplaced, addText, toOption_bind, toOption_located,
        Qualifier.toOption_ofSort_unplaced, PathText.unplaced]

theorem Projection.toOption_addText_unplaced (p : Projection) (text : ProjectionText) :
    (p.addText s filters text.unplaced).toOption = (p.addText s filters text).toOption := by
  cases text <;>
    simp only [ProjectionText.unplaced, addText, toOption_bind, toOption_located,
      toOption_additionalFilter, PathText.unplaced]

end Elements

namespace FilterParameters

theorem orderKeys_unplaced (elements : List OrderText) :
    orderKeys (elements.map OrderText.unplaced) = orderKeys elements := by
  rw [orderKeys, orderKeys, List.filterMap_map]
  refine List.filterMap_congr fun element _ => ?_
  cases element <;> rfl

theorem projectionKeys_unplaced (elements : List ProjectionText) :
    projectionKeys (elements.map ProjectionText.unplaced) = projectionKeys elements := by
  rw [projectionKeys, projectionKeys, List.filterMap_map]
  refine List.filterMap_congr fun element _ => ?_
  cases element <;> rfl

theorem toOption_referredKeys (config : Configuration) (params : Parameters) :
    (referredKeys config params).toOption = do
      let orders ← OrderText.grammar.readAll? (params.values config.orderParam)
      let projections ← ProjectionText.grammar.readAll? (params.values config.propertiesParam)
      return orderKeys orders ++ projectionKeys projections := by
  have horders : ∀ lists : List (List OrderText),
      orderKeys (lists.map OrderText.grammar.unplaced).flatten = lists.flatMap orderKeys := by
    intro lists
    have hlists : (lists.map OrderText.grammar.unplaced).flatten =
        lists.flatten.map OrderText.unplaced := List.map_flatten.symm
    rw [hlists, orderKeys_unplaced, orderKeys, List.filterMap_flatten]
    rfl
  have hprojections : ∀ lists : List (List ProjectionText),
      projectionKeys (lists.map ProjectionText.grammar.unplaced).flatten =
        lists.flatMap projectionKeys := by
    intro lists
    have hlists : (lists.map ProjectionText.grammar.unplaced).flatten =
        lists.flatten.map ProjectionText.unplaced := List.map_flatten.symm
    rw [hlists, projectionKeys_unplaced, projectionKeys, List.filterMap_flatten]
    rfl
  rw [referredKeys, Grammar.readAll?_eq, Grammar.readAll?_eq]
  change (((params.values config.orderParam).mapM OrderText.grammar.parse) >>= _).toOption = _
  cases (params.values config.orderParam).mapM OrderText.grammar.parse with
  | error fault => rfl
  | ok orders =>
      change (((params.values config.propertiesParam).mapM ProjectionText.grammar.parse) >>=
        _).toOption = _
      cases (params.values config.propertiesParam).mapM ProjectionText.grammar.parse with
      | error fault => rfl
      | ok projections =>
          exact congrArg some (congrArg₂ (· ++ ·) (horders orders).symm
            (hprojections projections).symm)

end FilterParameters

/-! ## Requests -/

/-- The values of a parameter in place of those that it has. -/
def Parameters.put (p : Parameters) (name : String) (values : List String) : Parameters :=
  ⟨p.entries.insert name values, NameMap.sorted_insert name values p.sorted⟩

theorem Parameters.values_put (p : Parameters) (name other : String) (values : List String) :
    (p.put name values).values other = if name = other then values else p.values other := by
  rw [Parameters.values, Parameters.values, put, NameMap.find?_insert]
  split <;> rfl

namespace Specification

variable {s : Schema} {config : Configuration} {params other : Parameters} {resourceType : String}

/-- Two requests with the same filters, the same range, and lists of the same elements. -/
structure SameRequest (config : Configuration) (params other : Parameters) : Prop where
  orders : OrderText.grammar.readAll? (params.values config.orderParam) =
    OrderText.grammar.readAll? (other.values config.orderParam)
  projections : ProjectionText.grammar.readAll? (params.values config.propertiesParam) =
    ProjectionText.grammar.readAll? (other.values config.propertiesParam)
  references : PathText.grammar.readAll? (params.values config.referencesParam) =
    PathText.grammar.readAll? (other.values config.referencesParam)
  range : params.firstNonEmpty? config.rangeParam = other.firstNonEmpty? config.rangeParam
  collects : ∀ keys, FilterParameters.collect config keys params =
    FilterParameters.collect config keys other

theorem SameRequest.symm (h : SameRequest config params other) :
    SameRequest config other params :=
  ⟨h.orders.symm, h.projections.symm, h.references.symm, h.range.symm,
    fun keys => (h.collects keys).symm⟩

theorem SameRequest.compiledFrom (h : SameRequest config params other) {keys : List String}
    {groups : NameMap FilterParameters} {spec : Specification}
    (hfrom : CompiledFrom s config params keys groups spec) :
    CompiledFrom s config other keys groups spec where
  refers := by
    rw [← toOption_eq_some_iff, FilterParameters.toOption_referredKeys, ← h.orders,
      ← h.projections, ← FilterParameters.toOption_referredKeys, toOption_eq_some_iff]
    exact hfrom.refers
  collects := (h.collects keys).symm.trans hfrom.collects
  own := hfrom.own
  filter := hfrom.filter
  additional := hfrom.additional
  order := by
    have hadd := SortOrder.toOption_addText_unplaced s spec.additionalFilters
    have hread := (Grammar.foldlM_eq_ok_iff (g := OrderText.grammar) rfl hadd).1 hfrom.order
    rw [h.orders] at hread
    exact (Grammar.foldlM_eq_ok_iff (g := OrderText.grammar) rfl hadd).2 hread
  projection := by
    have hadd := Projection.toOption_addText_unplaced s spec.additionalFilters
    have hread := (Grammar.foldlM_eq_ok_iff (g := ProjectionText.grammar) rfl hadd).1
      hfrom.projection
    rw [h.projections] at hread
    exact (Grammar.foldlM_eq_ok_iff (g := ProjectionText.grammar) rfl hadd).2 hread
  references := by
    have hadd : ∀ (r : References) (path : PathText),
        (located path.unplaced.position (r.add s path.unplaced.path)).toOption =
          (located path.position (r.add s path.path)).toOption := fun r path => by
      rw [toOption_located, toOption_located]
      rfl
    have hread := (Grammar.foldlM_eq_ok_iff (g := PathText.grammar) rfl hadd).1 hfrom.references
    rw [h.references] at hread
    exact (Grammar.foldlM_eq_ok_iff (g := PathText.grammar) rfl hadd).2 hread
  range := h.range ▸ hfrom.range

/-- Requests that are the same are compiled to the same specification, or neither of them is. -/
theorem SameRequest.compile_iff (h : SameRequest config params other) (spec : Specification) :
    compile s config resourceType params = .ok spec ↔
      compile s config resourceType other = .ok spec := by
  rw [compile_eq_ok_iff, compile_eq_ok_iff]
  constructor
  · rintro ⟨start, keys, groups, hstart, htype, hfrom⟩
    exact ⟨start, keys, groups, hstart, htype, h.compiledFrom hfrom⟩
  · rintro ⟨start, keys, groups, hstart, htype, hfrom⟩
    exact ⟨start, keys, groups, hstart, htype, h.symm.compiledFrom hfrom⟩

/-- Other values of a list parameter leave the filters and the range of a request as they are. -/
theorem sameRequest_put (hconfig : config.validate = .ok ()) {name : String}
    (hname : name ∈ [config.orderParam, config.propertiesParam, config.referencesParam])
    {values : List String}
    (horders : OrderText.grammar.readAll? (params.values name) =
      OrderText.grammar.readAll? values)
    (hprojections : ProjectionText.grammar.readAll? (params.values name) =
      ProjectionText.grammar.readAll? values)
    (hreferences : PathText.grammar.readAll? (params.values name) =
      PathText.grammar.readAll? values) :
    SameRequest config params (params.put name values) where
  orders := by
    rw [Parameters.values_put]
    split
    · rename_i heq
      rw [← heq, horders]
    · rfl
  projections := by
    rw [Parameters.values_put]
    split
    · rename_i heq
      rw [← heq, hprojections]
    · rfl
  references := by
    rw [Parameters.values_put]
    split
    · rename_i heq
      rw [← heq, hreferences]
    · rfl
  range := by
    rw [Parameters.firstNonEmpty?, Parameters.firstNonEmpty?, Parameters.values_put,
      if_neg (Configuration.ne_rangeParam hconfig hname)]
  collects := by
    intro keys
    have hparameter : name ∈ config.parameterNames := by
      simp only [List.mem_cons, List.not_mem_nil, or_false] at hname
      rcases hname with rfl | rfl | rfl <;> simp [Configuration.parameterNames]
    rw [FilterParameters.collect, FilterParameters.collect, Parameters.put,
      NameMap.filter_insert_of_not
        (FilterParameters.isAddressed_of_mem_parameterNames hconfig hparameter)]

/-- Two consecutive values of a list parameter say the same as one value with a comma between
them. -/
theorem compile_joined_iff (hconfig : config.validate = .ok ()) {name : String}
    (hname : name ∈ [config.orderParam, config.propertiesParam, config.referencesParam])
    {a b : String} (ha : a ≠ "") (hb : b ≠ "") {front back : List String}
    (hvalues : params.values name = front ++ a :: b :: back) (spec : Specification) :
    compile s config resourceType params = .ok spec ↔
      compile s config resourceType (params.put name (front ++ (a ++ "," ++ b) :: back)) =
        .ok spec := by
  refine (sameRequest_put hconfig hname ?_ ?_ ?_).compile_iff spec
  · rw [hvalues, OrderText.joins.readAll?_joined ha hb]
  · rw [hvalues, ProjectionText.joins.readAll?_joined ha hb]
  · rw [hvalues, PathText.joins.readAll?_joined ha hb]

/-- Late users first, the order in two values. -/
def twoOrders : Parameters :=
  Parameters.ofPairs [("f$order.id:ge", "10"), ("late$id:gt", "5"), ("order", "$late"),
    ("order", "id:desc")]

theorem twoOrders_joined :
    Configuration.validate {} = .ok () ∧ twoOrders.values "order" = ["$late", "id:desc"] ∧
      ∃ spec, compile orderSchema {} "User" twoOrders = .ok spec ∧
        spec.order.encode = "$late,id:desc" ∧
        compile orderSchema {} "User" (twoOrders.put "order" ["$late,id:desc"]) = .ok spec := by
  have hconfig : Configuration.validate {} = .ok () := by decide +kernel
  have hvalues : twoOrders.values "order" = [] ++ "$late" :: "id:desc" :: [] := by decide +kernel
  have hcheck : (compile orderSchema {} "User" twoOrders).toOption.any (fun spec =>
      spec.order.encode = "$late,id:desc") = true := by decide +kernel
  obtain ⟨spec, hspec, horder⟩ := (Option.any_eq_true _ _).1 hcheck
  have hcompile := toOption_eq_some_iff.1 hspec
  have hjoined := (compile_joined_iff hconfig (by decide) (by decide) (by decide) hvalues spec).1
    hcompile
  exact ⟨hconfig, hvalues, spec, hcompile, of_decide_eq_true horder, hjoined⟩

end Specification

end ResourceQuery
