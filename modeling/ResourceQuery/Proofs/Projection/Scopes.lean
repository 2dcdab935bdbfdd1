import ResourceQuery.Proofs.Filter.Anchored
import ResourceQuery.Proofs.Path.Selection
import ResourceQuery.Proofs.Projection.Rules
import ResourceQuery.Proofs.Schema.Sources
/-!
# Scoped aggregates

An aggregate is only computed over a filter that is based on its collection, and the two are told
apart by their texts. The text of the collection is put together of the path to the aggregate, so it
leads to the collection beside it (`Path.resolve_collectionPath`), and the conditions of the filter
start at the elements that the aggregate was declared over (`Projection.scopePath_elements`).
-/

namespace ResourceQuery

namespace Path

/-- A text without separator leads to a property of the container it starts at. -/
theorem step_of_not_mem {s : Schema} {start name : String} {path : Path} {container : String}
    {p : Property} (hdot : separator ∉ name.toList) (h : resolve s start name = .ok path)
    (hlast : path.steps.getLast? = some (.property container p)) :
    container = start ∧ path.steps = [.property container p] := by
  obtain ⟨-, -, hnames, -, c, hc, hfollows⟩ := resolve_ok h
  have hsegments : segments name = [name] := by
    rw [segments, Text.split_of_not_mem hdot]
    simp
  rw [hsegments] at hnames
  obtain ⟨step, hstep, -⟩ := List.map_eq_singleton_iff.1 hnames
  rw [hstep, List.getLast?_singleton, Option.some.injEq] at hlast
  rw [hstep, hlast] at hfollows ⊢
  obtain ⟨-, rfl⟩ := Schema.container_ok hc
  cases hfollows <;> exact ⟨rfl, rfl⟩

/-- The collection of an aggregate stands beside it, wherever the path has led: at the same
container, behind the same steps. -/
theorem resolve_collectionPath {d : SchemaDocument} {s : Schema} (hbuild : d.build = .ok s)
    {start text : String} {path : Path} {c : Container} {p collection : Property}
    {aggregate : Aggregate} (h : resolve s start text = .ok path)
    (hlast : path.steps.getLast? = some (.property c.name p)) (hc : c ∈ s.containers)
    (hcollection : c.property? aggregate.collection = some collection) :
    resolve s start (Projection.collectionPath path aggregate) =
      .ok ⟨Projection.collectionPath path aggregate, start,
        path.steps.dropLast ++ [.property c.name collection]⟩ := by
  obtain ⟨hmem, hname⟩ := Schema.property?_some hcollection
  have hown := resolve_property hbuild hc hmem
  rw [hname] at hown
  have htext := (resolve_ok h).1
  unfold Projection.collectionPath parent?
  rw [htext]
  cases hsplit : Text.splitLast separator text.toList with
  | none =>
      obtain ⟨rfl, hsteps⟩ := step_of_not_mem (Text.splitLast_eq_none.1 hsplit) h hlast
      rw [hsteps]
      exact hown
  | some parts =>
      obtain ⟨front, name⟩ := parts
      obtain ⟨hjoined, hdot⟩ := Text.splitLast_eq_some hsplit
      have hparts : text = String.ofList front ++ "." ++ String.ofList name := by
        apply String.toList_inj.1
        simp [hjoined, separator]
      rw [hparts] at h
      obtain ⟨before, step, next, behind, hbefore, hstep, hnext, hbehind, rfl⟩ := resolve_append.1 h
      -- the last name is a property of the container that the front opens
      have hbehindLast : behind.steps.getLast? = some (.property c.name p) := by
        have hnonempty : behind.steps ≠ [] := by
          intro hnil
          have hnames := (resolve_ok hbehind).2.2.1
          rw [hnil] at hnames
          exact segments_ne_nil _ hnames.symm
        rwa [List.getLast?_append_of_ne_nil _ hnonempty] at hlast
      obtain ⟨hsame, hsteps⟩ := step_of_not_mem (by simpa using hdot) hbehind hbehindLast
      have hopened : step.opened? s = some c := by
        have hfound := PathStep.container?_of_opened? hnext
        rw [← hsame, Schema.container?_of_mem (SchemaDocument.build_coherent hbuild).outlined hc]
          at hfound
        rw [hnext, hfound]
      refine resolve_append.2 ⟨before, step, c, _, hbefore, hstep, hopened, hown, ?_⟩
      rw [hsteps]
      simp

end Path

namespace Projection

/-- Whichever calls put the filter together, its conditions start at the elements that the aggregate
was declared over. -/
theorem scopePath_elements {d : SchemaDocument} {s : Schema} (hbuild : d.build = .ok s)
    {resourceType : String} {all f : Filter} (hall : Filter.all s resourceType = .ok all)
    {calls : List FilterCall} (hcalls : calls.foldl (Filter.after s) all = f) {p q : Projection}
    {path key : String} (h : p.scopePath s path key f = .ok q) :
    ∃ resolved c property aggregate base element,
      Path.resolve s p.resourceType path = .ok resolved ∧
      resolved.steps.getLast? = some (.property c.name property) ∧
      c ∈ s.containers ∧ property ∈ c.properties ∧ property.aggregate? = some aggregate ∧
      f.basePath = some base ∧ s.element? c aggregate = some element ∧ f.scope = element.name ∧
      (∀ condition ∈ f.conditions,
        Path.resolve s element.name condition.path.text = .ok condition.path) ∧
      ∃ before holder looked, before.Reaches s ∧
        (holder.name = c.name ∨ c.base? = some holder.name) ∧
        property.LookedUp aggregate before holder looked ∧ looked.name = element.name := by
  have hanchored : f.Anchored s := hcalls ▸ (Filter.Anchored.all hall).foldl_after
  obtain ⟨⟨resolved, property, aggregate, hresolved, -, hterminal, haggregate, htype, hbase⟩, -⟩ :=
    scopePath_eq_ok_iff.1 h
  obtain ⟨container, hlast⟩ := Path.getLast?_of_terminal hterminal
  obtain ⟨c, hc, hproperty⟩ := Path.holder_of_resolve hresolved (List.mem_of_getLast? hlast)
  obtain ⟨hcMem, rfl⟩ := Schema.container?_some hc
  have hpMem := (Schema.property?_some hproperty).1
  obtain ⟨before, holder, looked, element, hbefore, hholder, hlooked, helement, hgrown⟩ :=
    SchemaDocument.build_recalls hbuild c hcMem property hpMem aggregate haggregate
  obtain ⟨collection, target, hcollection, htarget, hfound⟩ := Schema.element?_eq_some.1 helement
  obtain ⟨base, hsome, htext⟩ := Option.map_eq_some_iff.1 hbase
  -- the base path has the text of the collection, so it is the path to the collection
  have hbased := hanchored.based
  simp only [Filter.Scoped, hsome, htext, htype] at hbased
  obtain ⟨hfront, -, _, _, hend, -, hscope⟩ := hbased
  have hbeside := Path.resolve_collectionPath hbuild hresolved hlast hcMem hcollection
  obtain rfl := Except.ok.inj (hbeside.symm.trans hfront)
  rw [List.getLast?_concat, Option.some.injEq, PathStep.property.injEq] at hend
  obtain ⟨-, rfl⟩ := hend
  have hname : f.scope = element.name := by
    rw [(Schema.container?_some hfound).2]
    exact Option.some.inj (hscope.symm.trans htarget)
  refine ⟨resolved, c, property, aggregate, _, element, hresolved, hlast, hcMem, hpMem, haggregate,
    hsome, helement, hname, fun condition hcondition => ?_, before, holder, looked, hbefore,
    hholder, hlooked, hgrown.name.symm⟩
  rw [← hname]
  exact hanchored.resolve_of_mem hcondition

section

open SchemaDocument (folderDocument folderSchema sizeProperty)

/-- The children of a folder that have no single child, put together by calls of which two fail. -/
def childCalls : List FilterCall :=
  [.condition 0 "nothing" {} (.equality false) ["1"], .basePath "Folder.children",
    .condition 0 "size" {} (.equality false) ["1"], .basePath "children"]

def childFilter : Filter :=
  childCalls.foldl (Filter.after folderSchema)
    ⟨"Node", .none, "Node", [⟨.conjunction, .none, [], []⟩], []⟩

/-- The size of a folder, which folders have taken over, was declared over nodes. -/
theorem folderSize_elements : folderDocument.build = .ok folderSchema ∧
    ∃ all p q, Filter.all folderSchema "Node" = .ok all ∧
      childCalls.foldl (Filter.after folderSchema) all = childFilter ∧
      Projection.none folderSchema "Node" = .ok p ∧
      p.scopePath folderSchema "Folder.size" "inner" childFilter = .ok q ∧
      childFilter.used = ["size"] ∧ ∃ aggregate before holder looked,
        before.Reaches folderSchema ∧ sizeProperty.LookedUp aggregate before holder looked ∧
        childFilter.scope = looked.name := by
  have hbuild : folderDocument.build = .ok folderSchema :=
    toOption_eq_some_iff.1 (by decide +kernel)
  let all : Filter := ⟨"Node", .none, "Node", [⟨.conjunction, .none, [], []⟩], []⟩
  let p : Projection := ⟨"Node", false, [], [], []⟩
  have hall : Filter.all folderSchema "Node" = .ok all := rfl
  have hscoped : (p.scopePath folderSchema "Folder.size" "inner" childFilter).toOption.isSome := by
    decide +kernel
  obtain ⟨q, hq⟩ := Option.isSome_iff_exists.1 hscoped
  have hq := toOption_eq_some_iff.1 hq
  have hsize : Path.resolve folderSchema "Node" "Folder.size" =
      .ok ⟨"Folder.size", "Node", [.variant "Folder", .property "Folder" sizeProperty]⟩ :=
    toOption_eq_some_iff.1 (by decide +kernel)
  obtain ⟨resolved, c, property, aggregate, _, _, hresolved, hlast, -, -, -, -, -, hscope, -, before,
    holder, looked, hbefore, -, hlooked, hname⟩ := scopePath_elements hbuild hall rfl hq
  obtain rfl := Except.ok.inj (hsize.symm.trans hresolved)
  obtain ⟨-, rfl⟩ := PathStep.property.inj (Option.some.inj hlast)
  exact ⟨hbuild, all, p, q, hall, rfl, rfl, hq, by decide +kernel, aggregate, before, holder,
    looked, hbefore, hlooked, hscope.trans hname.symm⟩

end

end Projection

end ResourceQuery
