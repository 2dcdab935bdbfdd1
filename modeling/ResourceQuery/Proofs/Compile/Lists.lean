import ResourceQuery.Compile.Specification
import ResourceQuery.Proofs.Compile.Qualifiers
import ResourceQuery.Proofs.NameMap
import ResourceQuery.Proofs.Path.Prefixes
import ResourceQuery.Proofs.Query.ListText
/-!
# Orders and references written and compiled again

What compilation leaves of an order or a list of references is enough to compile its text once more:
the outcome is written as the same text. The filters of segments may be others then, as long as they
are about the same records.
-/

namespace ResourceQuery

/-! ## Elements -/

theorem additionalFilter_eq_ok_iff {filters : NameMap Filter} {key : String} {position : Position}
    {f : Filter} : additionalFilter filters key position = .ok f ↔ filters.find? key = some f := by
  unfold additionalFilter
  cases filters.find? key <;> simp

theorem located_eq_ok_iff {α : Type} {position : Position} {outcome : Except Fault α} {a : α} :
    located position outcome = .ok a ↔ outcome = .ok a := by
  cases outcome <;> simp [located]

/-- Where one map has a filter with one of the keys, the other has one about the same records. -/
def Replaces (keys : List String) (filters others : NameMap Filter) : Prop :=
  ∀ key ∈ keys, ∀ f, filters.find? key = some f →
    ∃ g, others.find? key = some g ∧ g.resourceType = f.resourceType ∧ g.basePath = f.basePath

theorem filterMap_of_forall₂ {α β γ : Type} {R : α → β → Prop} {f : α → Option γ}
    {g : β → Option γ} {items : List α} {others : List β} (h : List.Forall₂ R items others)
    (heq : ∀ a b, R a b → g b = f a) : others.filterMap g = items.filterMap f := by
  induction h with
  | nil => rfl
  | cons hab _ ih => rw [List.filterMap_cons, List.filterMap_cons, heq _ _ hab, ih]

/-! ## Paths that are put in with what leads to them -/

/-- What is noted of the properties on a path stands under the texts that lead to them. -/
theorem keys_filterMap_prefixes {α : Type} (path : Path) (note : Property → Option α)
    (name : α → String) :
    NameMap.keys (path.prefixes.filterMap fun (text, step) =>
      (step.property?.bind note).map fun a => (text, name a)) =
        path.passing fun p => (note p).isSome := by
  rw [Path.passing]
  induction path.prefixes with
  | nil => rfl
  | cons entry rest ih =>
      obtain ⟨text, step⟩ := entry
      rw [List.filterMap_cons, List.filter_cons]
      cases hnote : step.property?.bind note with
      | none =>
          have hno : ¬step.property?.any (fun p => (note p).isSome) = true := by
            cases hproperty : step.property? with
            | none => simp
            | some p => simpa [hproperty] using hnote
          simp only [hnote, Option.map_none, hno]
          exact ih
      | some a =>
          have hyes : step.property?.any (fun p => (note p).isSome) = true := by
            obtain ⟨p, hproperty, ha⟩ := Option.bind_eq_some_iff.1 hnote
            simp [hproperty, ha]
          simp only [hnote, Option.map_some, hyes, if_true]
          exact congrArg (text :: ·) ih

/-- What is noted of the properties on a path, with the texts up to them. -/
theorem mem_filterMap_prefixes {α : Type} (path : Path) (note : Property → Option α)
    (name : α → String) {front target : String} :
    (front, target) ∈ (path.prefixes.filterMap fun (text, step) =>
      (step.property?.bind note).map fun a => (text, name a)) ↔
        ∃ step p, (front, step) ∈ path.prefixes ∧ step.property? = some p ∧
          (note p).map name = some target := by
  rw [List.mem_filterMap]
  constructor
  · rintro ⟨⟨text, step⟩, hstep, hentry⟩
    obtain ⟨a, hnote, heq⟩ := Option.map_eq_some_iff.1 hentry
    obtain ⟨p, hp, ha⟩ := Option.bind_eq_some_iff.1 hnote
    cases heq
    exact ⟨step, p, hstep, hp, by rw [ha]; rfl⟩
  · rintro ⟨step, p, hstep, hp, htarget⟩
    obtain ⟨a, ha, rfl⟩ := Option.map_eq_some_iff.1 htarget
    exact ⟨(front, step), hstep, by simp [hp, ha]⟩

/-- Each path leads to a property that passes, and stands with the paths to those on the way. -/
def ClosedPaths (s : Schema) (start : String) (test : Property → Bool) (m : NameMap String) :
    Prop :=
  ∀ path, m.contains path = true → ∃ resolved p, Path.resolve s start path = .ok resolved ∧
    resolved.terminal = .ok p ∧ test p = true ∧
    ∀ front ∈ resolved.passing test, m.contains front = true

theorem ClosedPaths.nil {s : Schema} {start : String} {test : Property → Bool} :
    ClosedPaths s start test [] := fun _ h => by cases h

theorem ClosedPaths.insert {s : Schema} {start path : String} {test : Property → Bool}
    {m entries : NameMap String} {resolved : Path} (h : ClosedPaths s start test m)
    (hresolved : Path.resolve s start path = .ok resolved)
    (hentries : entries.keys = resolved.passing test) :
    ClosedPaths s start test (entries.foldl (fun m entry => m.insert entry.1 entry.2) m) := by
  intro front hfront
  rcases (NameMap.contains_foldl_insert _ _).1 hfront with hnew | hold
  · rw [hentries] at hnew
    obtain ⟨inner, p, hinner, hterminal, htest, hothers⟩ := Path.resolve_passing hresolved hnew
    refine ⟨inner, p, hinner, hterminal, htest, fun other hother => ?_⟩
    rw [NameMap.contains_foldl_insert, hentries]
    exact .inl (hothers other hother)
  · obtain ⟨inner, p, hinner, hterminal, htest, hothers⟩ := h front hold
    refine ⟨inner, p, hinner, hterminal, htest, fun other hother => ?_⟩
    rw [NameMap.contains_foldl_insert]
    exact .inr (hothers other hother)

/-! ## Orders -/

namespace SortElement

def segment? : SortElement → Option Segment
  | segment s => some s
  | property _ => none

def property? : SortElement → Option PropertySort
  | segment _ => none
  | property p => some p

/-- An element of an order parameter says what the element is. -/
def Restates : SortElement → OrderText → Prop
  | segment s, text => ∃ position, text = .segment s.key (s.direction = .desc) position
  | property p, text => ∃ path qualifiers, text = .property path qualifiers ∧
      path.path = p.path.text ∧ qualifiers.map (fun q => (q.name, q.parameters)) = p.words

end SortElement

namespace SortOrder

theorem filterMap_segment? (o : SortOrder) :
    o.elements.filterMap SortElement.segment? = o.segments := by
  simp [elements, List.filterMap_append, List.filterMap_map, Function.comp_def,
    SortElement.segment?]

theorem filterMap_property? (o : SortOrder) :
    o.elements.filterMap SortElement.property? = o.properties := by
  simp [elements, List.filterMap_append, List.filterMap_map, Function.comp_def,
    SortElement.property?]

variable {s : Schema} {filters others : NameMap Filter}

/-- The filters of segments are found by their keys, and properties can be added to every order of
the resource type. -/
structure Compiled (s : Schema) (filters : NameMap Filter) (o : SortOrder) : Prop where
  keys : ∀ segment ∈ o.segments, Text.isIdentifier segment.key.toList = true
  found : ∀ segment ∈ o.segments, filters.find? segment.key = some segment.filter
  own : ∀ segment ∈ o.segments, segment.filter.resourceType = o.resourceType ∧
    segment.filter.basePath = Option.none
  paths : ∀ p ∈ o.properties, Text.IsDotted p.path.text
  transforms : ∀ p ∈ o.properties, ∀ t ∈ p.transform, t.Sound
  added : ∀ p ∈ o.properties, ∀ other : SortOrder, other.resourceType = o.resourceType →
    other.add s p.direction p.path.text p.transform p.byId =
      .ok { other with properties := other.properties ++ [p] }

theorem compiled_empty (resourceType : String) : Compiled s filters ⟨resourceType, [], []⟩ where
  keys := by simp
  found := by simp
  own := by simp
  paths := by simp
  transforms := by simp
  added := by simp

/-- A property that can be added to one order can be added to all of its resource type. -/
theorem add_ok {o o' : SortOrder} {direction : Direction} {path : String}
    {transform : Option Transform} {byId : Bool}
    (h : o.add s direction path transform byId = .ok o') :
    ∃ p : PropertySort, p.path.text = path ∧ p.transform = transform ∧
      o' = { o with properties := o.properties ++ [p] } ∧
      ∀ other : SortOrder, other.resourceType = o.resourceType →
        other.add s p.direction p.path.text p.transform p.byId =
          .ok { other with properties := other.properties ++ [p] } := by
  have hadded := h
  simp only [add, bind_eq_ok_iff] at h
  obtain ⟨resolved, hresolved, checked, hcheck, property, hproperty, h⟩ := h
  have htext := (Path.resolve_ok hresolved).1
  split at h
  · cases h
  · rename_i hsingle
    obtain ⟨sorted, hsorted, h⟩ := bind_eq_ok_iff.1 h
    have hadd : ∀ other : SortOrder, other.resourceType = o.resourceType →
        other.add s direction path transform byId = .ok { other with
          properties := other.properties ++ [⟨direction, resolved, transform, byId⟩] } := by
      intro other hother
      simp only [add, hother, hresolved, ok_bind, hcheck, hproperty, hsingle, hsorted]
      cases transform with
      | none => rfl
      | some t =>
          simp only at h ⊢
          split at h
          · cases h
          · rename_i happlies
            simp only [happlies]
            rfl
    exact ⟨⟨direction, resolved, transform, byId⟩, htext, rfl,
      Except.ok.inj (hadded.symm.trans (hadd o rfl)), by rwa [htext]⟩

theorem Compiled.addSegment {o : SortOrder} {direction : Direction} {key : String} {f : Filter}
    (h : o.Compiled s filters) (hkey : Text.isIdentifier key.toList = true)
    (hfound : filters.find? key = some f) (htype : f.resourceType = o.resourceType)
    (hbase : f.basePath = Option.none) :
    Compiled s filters { o with segments := o.segments ++ [⟨direction, key, f⟩] } := by
  refine ⟨?_, ?_, ?_, h.paths, h.transforms, h.added⟩
  · exact List.forall_mem_append.2 ⟨h.keys, List.forall_mem_singleton.2 hkey⟩
  · exact List.forall_mem_append.2 ⟨h.found, List.forall_mem_singleton.2 hfound⟩
  · exact List.forall_mem_append.2 ⟨h.own, List.forall_mem_singleton.2 ⟨htype, hbase⟩⟩

theorem Compiled.addProperty {o : SortOrder} {p : PropertySort} (h : o.Compiled s filters)
    (hpath : Text.IsDotted p.path.text) (htransform : ∀ t ∈ p.transform, t.Sound)
    (hadded : ∀ other : SortOrder, other.resourceType = o.resourceType →
      other.add s p.direction p.path.text p.transform p.byId =
        .ok { other with properties := other.properties ++ [p] }) :
    Compiled s filters { o with properties := o.properties ++ [p] } := by
  refine ⟨h.keys, h.found, h.own, ?_, ?_, ?_⟩
  · exact List.forall_mem_append.2 ⟨h.paths, List.forall_mem_singleton.2 hpath⟩
  · exact List.forall_mem_append.2 ⟨h.transforms, List.forall_mem_singleton.2 htransform⟩
  · exact List.forall_mem_append.2 ⟨h.added, List.forall_mem_singleton.2 hadded⟩

theorem Compiled.addText {o o' : SortOrder} {text : OrderText} (h : o.Compiled s filters)
    (htext : text.Readable) (hadd : o.addText s filters text = .ok o') :
    o'.Compiled s filters ∧ o'.resourceType = o.resourceType := by
  cases text with
  | segment key descending position =>
      obtain ⟨f, hf, hadd⟩ := bind_eq_ok_iff.1 hadd
      have hown := located_eq_ok_iff.1 hadd
      unfold SortOrder.addSegment at hown
      split at hown
      · cases hown
      · rename_i hsame
        cases hown
        simp only [not_or, ne_eq, Decidable.not_not, Bool.not_eq_true, Option.isSome_eq_false_iff,
          Option.isNone_iff_eq_none] at hsame
        exact ⟨h.addSegment htext (additionalFilter_eq_ok_iff.1 hf) hsame.1 hsame.2, rfl⟩
  | property path qualifiers =>
      obtain ⟨reading, hreading, hadd⟩ := bind_eq_ok_iff.1 hadd
      obtain ⟨p, hpath, htransform, rfl, hadded⟩ := add_ok (located_eq_ok_iff.1 hadd)
      refine ⟨h.addProperty ?_ ?_ hadded, rfl⟩
      · rw [hpath]
        exact htext
      · rw [htransform]
        exact Qualifier.sound_of_ofSort hreading

/-- The order that is compiled of parameter values. -/
theorem compiled_of_values {resourceType : String} {values : List String} {o : SortOrder}
    (h : values.foldlM (compile s filters) ⟨resourceType, [], []⟩ = .ok o) :
    o.Compiled s filters ∧ o.resourceType = resourceType := by
  refine foldlM_invariant (P := fun o => o.Compiled s filters ∧ o.resourceType = resourceType) h
    ⟨compiled_empty resourceType, rfl⟩ ?_
  intro o value o' _ ho hcompile
  obtain ⟨texts, htexts, hadd⟩ := bind_eq_ok_iff.1 hcompile
  refine foldlM_invariant (P := fun o => o.Compiled s filters ∧ o.resourceType = resourceType)
    hadd ho ?_
  intro o text o' htext ho hadd
  obtain ⟨hcompiled, htype⟩ := ho.1.addText (OrderText.readable_of_parse htexts text htext) hadd
  exact ⟨hcompiled, htype.trans ho.2⟩

/-- A compiled order that is not empty is read element by element. -/
theorem Compiled.parse_encode {o : SortOrder} (h : o.Compiled s filters)
    (hne : o.isEmpty = false) : ∃ texts, OrderText.parse o.encode = .ok texts ∧
      List.Forall₂ SortElement.Restates o.elements texts := by
  have helements : o.elements ≠ [] := by
    intro hnone
    simp only [elements, List.append_eq_nil_iff, List.map_eq_nil_iff] at hnone
    simp [isEmpty, hnone.1, hnone.2] at hne
  refine Reader.readAll_separated "order" helements fun x hx rest hrest => ?_
  rcases List.mem_append.1 hx with hx | hx
  · obtain ⟨segment, hsegment, rfl⟩ := List.mem_map.1 hx
    have htakes := OrderText.takes_segment (h.keys segment hsegment)
      (segment.direction = .desc) hrest
    simp only [decide_eq_true_eq] at htakes
    exact htakes
  · obtain ⟨p, hp, rfl⟩ := List.mem_map.1 hx
    rw [SortElement.encode, p.encode_eq]
    exact OrderText.takes_property (h.paths p hp)
      (PropertySort.readable_of_mem_words (h.transforms p hp)) hrest

/-- The keys that the text of an order refers to are those of its segments. -/
theorem orderKeys_of_restates {o : SortOrder} {texts : List OrderText}
    (h : List.Forall₂ SortElement.Restates o.elements texts) :
    FilterParameters.orderKeys texts = o.segments.map Segment.key := by
  have hsegments : o.elements.filterMap (fun x => x.segment?.map Segment.key) =
      o.segments.map Segment.key := by
    rw [elements, List.filterMap_append, List.filterMap_map, List.filterMap_map]
    simp [Function.comp_def, SortElement.segment?]
  rw [FilterParameters.orderKeys, ← hsegments]
  refine filterMap_of_forall₂ h fun x text hrestates => ?_
  cases x with
  | segment segment =>
      obtain ⟨position, rfl⟩ := hrestates
      rfl
  | property p =>
      obtain ⟨path, qualifiers, rfl, -⟩ := hrestates
      rfl

/-- What the elements read so far make of an order. -/
structure Reads (resourceType : String) (front : List SortElement) (o : SortOrder) : Prop where
  type : o.resourceType = resourceType
  segments : o.segments.map Segment.encode = (front.filterMap SortElement.segment?).map
    Segment.encode
  properties : o.properties = front.filterMap SortElement.property?

/-- The element of a segment adds the segment, with the filter that its key stands for. -/
theorem Compiled.addText_segment {o other : SortOrder} {segment : Segment} {text : OrderText}
    {g : Filter} (h : o.Compiled s filters) (hsegment : segment ∈ o.segments)
    (hrestates : (SortElement.segment segment).Restates text)
    (hg : others.find? segment.key = some g) (hgtype : g.resourceType = segment.filter.resourceType)
    (hgbase : g.basePath = segment.filter.basePath) (htype : other.resourceType = o.resourceType) :
    other.addText s others text = .ok { other with
      segments := other.segments ++ [⟨segment.direction, segment.key, g⟩] } := by
  obtain ⟨position, rfl⟩ := hrestates
  obtain ⟨hown, hbase⟩ := h.own segment hsegment
  have hadded : other.addSegment segment.direction segment.key g = .ok { other with
      segments := other.segments ++ [⟨segment.direction, segment.key, g⟩] } := by
    rw [SortOrder.addSegment, if_neg]
    simp [hgtype, hgbase, hown, hbase, htype]
  have hdirection : (if segment.direction = .desc then Direction.desc else .asc) =
      segment.direction := by
    cases segment.direction <;> rfl
  simp only [SortOrder.addText, additionalFilter_eq_ok_iff.2 hg, ok_bind, decide_eq_true_eq,
    hdirection, hadded, located]

/-- The element of a property adds the property. -/
theorem Compiled.addText_property {o other : SortOrder} {p : PropertySort} {text : OrderText}
    (h : o.Compiled s filters) (hp : p ∈ o.properties)
    (hrestates : (SortElement.property p).Restates text)
    (htype : other.resourceType = o.resourceType) :
    other.addText s others text = .ok { other with properties := other.properties ++ [p] } := by
  obtain ⟨path, qualifiers, rfl, hpath, hwords⟩ := hrestates
  have hdirection : (if p.direction = .desc then some Direction.desc else Option.none).getD
      .asc = p.direction := by
    cases p.direction <;> rfl
  simp only [SortOrder.addText, Qualifier.ofSort_words (h.transforms p hp) hwords, ok_bind,
    hdirection, hpath, h.added p hp other htype, located]

theorem Compiled.addText_restates {o other : SortOrder} {front : List SortElement} {x : SortElement}
    {text : OrderText} (h : o.Compiled s filters)
    (hothers : Replaces (o.segments.map Segment.key) filters others) (hx : x ∈ o.elements)
    (hrestates : x.Restates text) (hother : other.Reads o.resourceType front) :
    ∃ next, other.addText s others text = .ok next ∧ next.Reads o.resourceType (front ++ [x]) := by
  rcases List.mem_append.1 hx with hx | hx
  · obtain ⟨segment, hsegment, rfl⟩ := List.mem_map.1 hx
    obtain ⟨g, hg, hgtype, hgbase⟩ := hothers segment.key (List.mem_map_of_mem hsegment) _
      (h.found segment hsegment)
    refine ⟨_, h.addText_segment hsegment hrestates hg hgtype hgbase hother.type, hother.type,
      ?_, ?_⟩
    · rw [List.filterMap_append, List.map_append, List.map_append, hother.segments]
      rfl
    · rw [List.filterMap_append, hother.properties]
      exact (List.append_nil _).symm
  · obtain ⟨p, hp, rfl⟩ := List.mem_map.1 hx
    refine ⟨_, h.addText_property hp hrestates hother.type, hother.type, ?_, ?_⟩
    · rw [List.filterMap_append, List.map_append, hother.segments]
      exact (List.append_nil _).symm
    · rw [List.filterMap_append, hother.properties]
      rfl

/-- The values of the order parameter. -/
def texts (o : SortOrder) : List String := if o.isEmpty then [] else [o.encode]

/-- A compiled order is written with the keys of its segments. -/
theorem Compiled.referred {o : SortOrder} (h : o.Compiled s filters) :
    ∃ elements, o.texts.mapM OrderText.parse = .ok elements ∧
      elements.flatMap FilterParameters.orderKeys = o.segments.map Segment.key := by
  rw [texts]
  cases hempty : o.isEmpty with
  | true =>
      have hnone : o.segments = [] ∧ o.properties = [] := by
        simpa [isEmpty] using hempty
      exact ⟨[], rfl, by simp [hnone.1]⟩
  | false =>
      obtain ⟨elements, hparse, hrestates⟩ := h.parse_encode hempty
      refine ⟨[elements], ?_, by simp [orderKeys_of_restates hrestates]⟩
      rw [mapM_eq_ok_iff]
      simp [hparse]

/-- A compiled order is compiled again of its text, to one that is written as the same. -/
theorem Compiled.recovers {o : SortOrder} (h : o.Compiled s filters)
    (hothers : Replaces (o.segments.map Segment.key) filters others) :
    ∃ again, o.texts.foldlM (compile s others) ⟨o.resourceType, [], []⟩ = .ok again ∧
      again.isEmpty = o.isEmpty ∧ again.encode = o.encode := by
  rw [texts]
  cases hempty : o.isEmpty with
  | true =>
      have hnone : o.segments = [] ∧ o.properties = [] := by
        simpa [isEmpty] using hempty
      refine ⟨_, rfl, rfl, ?_⟩
      simp [encode, elements, hnone]
  | false =>
      obtain ⟨texts, hparse, hrestates⟩ := h.parse_encode hempty
      have hplan : ∃ again, texts.foldlM (SortOrder.addText s others) ⟨o.resourceType, [], []⟩ =
          .ok again ∧ again.Reads o.resourceType ([] ++ o.elements) := by
        refine foldlM_follows (fun front other => Reads o.resourceType front other) ?_ hrestates
          ⟨rfl, rfl, rfl⟩
        intro front x rest text other heq hx hother
        refine h.addText_restates hothers ?_ hx hother
        rw [List.nil_append] at heq
        simp [heq]
      obtain ⟨again, hagain, hreads⟩ := hplan
      have hsegments := hreads.segments
      have hproperties := hreads.properties
      rw [List.nil_append, filterMap_segment?] at hsegments
      rw [List.nil_append, filterMap_property?] at hproperties
      refine ⟨again, ?_, ?_, ?_⟩
      · simp only [Bool.false_eq_true, if_false]
        rw [foldlM_singleton, compile, hparse, ok_bind, hagain]
      · have hlength : again.segments.length = o.segments.length := by
          simpa using congrArg List.length hsegments
        rw [← hempty, isEmpty, isEmpty, hproperties, Bool.eq_iff_iff]
        simp only [Bool.and_eq_true, List.isEmpty_iff, ← List.length_eq_zero_iff, hlength]
      · have hwritten : ∀ o : SortOrder, o.segments.map (SortElement.encode ∘ .segment) =
            o.segments.map Segment.encode := fun _ => rfl
        simp only [encode, elements, List.map_append, List.map_map, hproperties]
        rw [hwritten, hwritten, hsegments]

end SortOrder

/-! ## References -/

namespace References

variable {s : Schema} {resourceType : String}

/-- A reference of any kind. -/
def isListable (p : Property) : Bool := p.type.isReference

/-- The references on a path, with the types they point to. -/
def crossed (path : Path) : NameMap String :=
  path.prefixes.filterMap fun (text, step) =>
    (step.property?.bind fun p => p.type.target?).map fun target => (text, target.name)

theorem keys_crossed (path : Path) : (crossed path).keys = path.passing isListable :=
  keys_filterMap_prefixes path (fun p => p.type.target?) Target.name

theorem mem_crossed {path : Path} {front target : String} :
    (front, target) ∈ crossed path ↔ ∃ step p, (front, step) ∈ path.prefixes ∧
      step.property? = some p ∧ p.type.target?.map Target.name = some target :=
  mem_filterMap_prefixes path (fun p => p.type.target?) Target.name

/-- What is listed is a reference, and all references on the way are listed. -/
theorem add_eq_ok_iff {r r' : References} {path : String} : r.add s path = .ok r' ↔
    ∃ resolved property, Path.resolve s r.resourceType path = .ok resolved ∧
      resolved.terminal = .ok property ∧ isListable property = true ∧
      r' = { r with
        paths := (crossed resolved).foldl (fun m entry => m.insert entry.1 entry.2) r.paths } := by
  simp only [add, bind_eq_ok_iff]
  constructor
  · rintro ⟨resolved, hresolved, property, hterminal, h⟩
    split at h
    · cases h
    · rename_i hreference
      cases h
      rw [Bool.not_eq_true, Bool.not_eq_false'] at hreference
      exact ⟨resolved, property, hresolved, hterminal, hreference, rfl⟩
  · rintro ⟨resolved, property, hresolved, hterminal, hreference, rfl⟩
    refine ⟨resolved, hresolved, property, hterminal, ?_⟩
    rw [show property.type.isReference = true from hreference]
    rfl

/-- Every path can be put in again, and puts in what leads to it. -/
structure Compiled (s : Schema) (resourceType : String) (r : References) : Prop where
  type : r.resourceType = resourceType
  sorted : r.paths.Sorted
  dotted : ∀ path, r.contains path = true → Text.IsDotted path
  closed : ClosedPaths s resourceType isListable r.paths

theorem compiled_empty : Compiled s resourceType ⟨resourceType, []⟩ where
  type := rfl
  sorted := List.Pairwise.nil
  dotted := fun _ h => by cases h
  closed := ClosedPaths.nil

theorem Compiled.add {r r' : References} {path : String} (h : r.Compiled s resourceType)
    (hpath : Text.IsDotted path) (hadd : r.add s path = .ok r') : r'.Compiled s resourceType := by
  obtain ⟨resolved, property, hresolved, hterminal, -, rfl⟩ := add_eq_ok_iff.1 hadd
  rw [h.type] at hresolved
  refine ⟨h.type, NameMap.sorted_foldl_insert _ h.sorted, ?_,
    h.closed.insert hresolved (keys_crossed resolved)⟩
  intro front hfront
  rcases (NameMap.contains_foldl_insert _ _).1 hfront with hnew | hold
  · rw [keys_crossed] at hnew
    obtain ⟨step, p, hstep, -⟩ := Path.mem_passing.1 hnew
    exact Path.isDotted_prefix hresolved hstep hpath
  · exact h.dotted front hold

/-- The references that are compiled of parameter values. -/
theorem compiled_of_values {values : List String} {r : References}
    (h : values.foldlM (compile s) ⟨resourceType, []⟩ = .ok r) : r.Compiled s resourceType := by
  refine foldlM_invariant (P := fun r => r.Compiled s resourceType) h compiled_empty ?_
  intro r value r' _ hr hcompile
  obtain ⟨texts, htexts, hadd⟩ := bind_eq_ok_iff.1 hcompile
  refine foldlM_invariant (P := fun r => r.Compiled s resourceType) hadd hr ?_
  intro r text r' htext hr hadd
  exact hr.add (PathText.readable_of_parseList htexts text htext) (located_eq_ok_iff.1 hadd)

/-- What the paths read so far make of references that are written with them. -/
structure Reads (r : References) (front : List String) (other : References) : Prop where
  type : other.resourceType = r.resourceType
  sorted : other.paths.Sorted
  listed : ∀ path, other.contains path = true → r.contains path = true
  kept : ∀ path ∈ front, other.contains path = true

theorem Compiled.add_again {r other : References} {front : List String} {path : String}
    (h : r.Compiled s resourceType) (hother : r.Reads front other)
    (hpath : r.contains path = true) :
    ∃ next, other.add s path = .ok next ∧ r.Reads (front ++ [path]) next := by
  obtain ⟨resolved, property, hresolved, hterminal, hreference, hclosed⟩ := h.closed path hpath
  have htype : other.resourceType = resourceType := hother.type.trans h.type
  refine ⟨_, add_eq_ok_iff.2
    ⟨resolved, property, htype ▸ hresolved, hterminal, hreference, rfl⟩, ?_⟩
  refine ⟨hother.type, NameMap.sorted_foldl_insert _ hother.sorted, ?_, ?_⟩
  · intro inner hinner
    rcases (NameMap.contains_foldl_insert _ _).1 hinner with hnew | hold
    · rw [keys_crossed] at hnew
      exact hclosed inner hnew
    · exact hother.listed inner hold
  · intro inner hinner
    apply (NameMap.contains_foldl_insert _ _).2
    rcases List.mem_append.1 hinner with hinner | hinner
    · exact .inr (hother.kept inner hinner)
    · rw [List.mem_singleton.1 hinner, keys_crossed]
      exact .inl (Path.self_mem_passing hresolved hterminal hreference)

/-- The values of the reference parameter. -/
def texts (r : References) : List String := if r.isEmpty then [] else [r.encode]

/-- Compiled references are compiled again of their text, to some that are written as the same. -/
theorem Compiled.recovers {r : References} (h : r.Compiled s resourceType) :
    ∃ again, r.texts.foldlM (compile s) ⟨resourceType, []⟩ = .ok again ∧
      again.isEmpty = r.isEmpty ∧ again.encode = r.encode := by
  rw [texts]
  cases hempty : r.isEmpty with
  | true =>
      have hnone : r.paths = [] := by simpa [isEmpty] using hempty
      refine ⟨_, rfl, rfl, ?_⟩
      rw [encode, encode, hnone]
  | false =>
      have hne : NameMap.keys r.paths ≠ [] := by
        intro hnone
        rw [isEmpty, List.map_eq_nil_iff.1 hnone] at hempty
        cases hempty
      have hlisted : ∀ path ∈ NameMap.keys r.paths, r.contains path = true :=
        fun path hpath => NameMap.contains_iff.2 hpath
      obtain ⟨texts, hparse, htexts⟩ := PathText.parseList_join hne fun path hpath =>
        h.dotted path (hlisted path hpath)
      have hplan : List.Forall₂ (fun path text => PathText.path text = path)
          (NameMap.keys r.paths) texts := by
        rw [← htexts, List.forall₂_map_left_iff, List.forall₂_same]
        exact fun _ _ => rfl
      have hstart : r.Reads [] ⟨resourceType, []⟩ :=
        ⟨h.type.symm, List.Pairwise.nil, fun _ hmem => (by cases hmem), by simp⟩
      obtain ⟨again, hagain, hreads⟩ : ∃ again : References, texts.foldlM
          (fun r path => located path.position (References.add s r path.path)) ⟨resourceType, []⟩ =
            .ok again ∧ r.Reads ([] ++ NameMap.keys r.paths) again := by
        refine foldlM_follows (fun front other => r.Reads front other) ?_ hplan hstart
        rintro front _ rest text other heq rfl hother
        have hpath : text.path ∈ NameMap.keys r.paths := by
          rw [List.nil_append] at heq
          simp [heq]
        obtain ⟨next, hnext, hreads⟩ := h.add_again hother (hlisted _ hpath)
        exact ⟨next, located_eq_ok_iff.2 hnext, hreads⟩
      have hkeys : NameMap.keys again.paths = NameMap.keys r.paths :=
        hreads.sorted.keys_eq h.sorted fun path =>
          ⟨hreads.listed path, fun hpath => hreads.kept path (NameMap.contains_iff.1 hpath)⟩
      refine ⟨again, ?_, ?_, ?_⟩
      · simp only [Bool.false_eq_true, if_false]
        rw [foldlM_singleton, compile, encode, hparse, ok_bind, hagain]
      · rw [isEmpty, List.isEmpty_eq_false_iff]
        intro hnone
        rw [hnone] at hkeys
        exact hne hkeys.symm
      · rw [encode, encode, hkeys]

end References

end ResourceQuery
