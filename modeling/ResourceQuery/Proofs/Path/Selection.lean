import ResourceQuery.Proofs.Path.Composition
import ResourceQuery.Proofs.Schema.Naming
/-!
# Properties of variants

The names of variants and those of properties share the segments of a path, and a property comes
first. So a property is found behind the name of its variant, unless the container has a property
that is named like the variant and leads elsewhere (`Path.resolve_selected`). Nothing keeps a schema
from that.
-/

namespace ResourceQuery

namespace Path

variable {d : SchemaDocument} {s : Schema} (hbuild : d.build = .ok s)

include hbuild

/-- A name in a built schema is a segment of its own. -/
theorem resolve_name {start name : String} {path : Path}
    (hname : Text.isIdentifier name.toList = true) :
    resolve s start name = .ok path ↔ ∃ c, s.container? start = some c ∧
      ((∃ p, c.property? name = some p ∧ path = ⟨name, start, [.property start p]⟩) ∨
        c.property? name = none ∧ name ∈ c.variants ∧ path = ⟨name, start, [.variant name]⟩) := by
  refine resolve_single hbuild ?_ (Text.not_mem_of_isIdentifier hname)
  rintro rfl
  cases hname

section

variable {c : Container} (hc : c ∈ s.containers)

include hc

/-- The name of a property is a path to it. -/
theorem resolve_property {p : Property} (hp : p ∈ c.properties) :
    resolve s c.name p.name = .ok ⟨p.name, c.name, [.property c.name p]⟩ := by
  have hcoherent := SchemaDocument.build_coherent hbuild
  refine (resolve_name hbuild (SchemaDocument.build_named hbuild c hc p hp)).2
    ⟨c, Schema.container?_of_mem hcoherent.outlined hc, .inl ⟨p, ?_, rfl⟩⟩
  exact Schema.property?_of_mem (hcoherent.named c hc) hp

/-- The name of a variant is a path to it, where no property has the name. -/
theorem resolve_variant {tag : String} (htag : tag ∈ c.variants)
    (hnone : c.property? tag = none) :
    resolve s c.name tag = .ok ⟨tag, c.name, [.variant tag]⟩ := by
  have hcoherent := SchemaDocument.build_coherent hbuild
  obtain ⟨v, hv, rfl, -⟩ := hcoherent.variant_of_mem hc htag
  have hname := (SchemaDocument.build_isNamed hbuild v (Schema.container?_some hv).1).name
  exact (resolve_name hbuild hname).2
    ⟨c, Schema.container?_of_mem hcoherent.outlined hc, .inr ⟨hnone, htag, rfl⟩⟩

end

/-- A property is found behind a path that opens its container, and behind no other path. -/
theorem resolve_behind {start front : String} {before : Path} {step : PathStep} {v : Container}
    {p : Property} (hbefore : resolve s start front = .ok before)
    (hlast : before.steps.getLast? = some step) (hv : v ∈ s.containers) (hp : p ∈ v.properties) :
    (∃ path, resolve s start (front ++ "." ++ p.name) = .ok path ∧
      path.steps.getLast? = some (.property v.name p)) ↔ step.opened? s = some v := by
  constructor
  · rintro ⟨path, hpath, hend⟩
    obtain ⟨before', step', next, behind, hbefore', hlast', hnext, hbehind, rfl⟩ :=
      resolve_append.1 hpath
    obtain rfl : before = before' := Except.ok.inj (hbefore.symm.trans hbefore')
    obtain rfl : step = step' := Option.some.inj (hlast.symm.trans hlast')
    obtain ⟨_, -, ⟨q, -, rfl⟩ | ⟨-, -, rfl⟩⟩ :=
      (resolve_name hbuild (SchemaDocument.build_named hbuild v hv p hp)).1 hbehind
    · have hsame : next.name = v.name ∧ q = p := by simpa using hend
      have hfound := PathStep.container?_of_opened? hnext
      rw [hsame.1, Schema.container?_of_mem (SchemaDocument.build_coherent hbuild).outlined hv]
        at hfound
      rw [hnext, hfound]
    · simp at hend
  · intro hopened
    refine ⟨_, resolve_append.2 ⟨before, step, v, _, hbefore, hlast, hopened,
      resolve_property hbuild hv hp, rfl⟩, ?_⟩
    simp

/-- A property of a variant is found behind the name of the variant, if and only if a property of
the same name in the polymorphic container, should there be one, leads to the variant, too. -/
theorem resolve_selected {c : Container} (hc : c ∈ s.containers) {tag : String}
    (htag : tag ∈ c.variants) :
    ∃ v, s.container? tag = some v ∧ v.base? = some c.name ∧ ∀ p ∈ v.properties,
      ((∃ path, resolve s c.name (tag ++ "." ++ p.name) = .ok path ∧
        path.steps.getLast? = some (.property v.name p)) ↔
          ∀ q, c.property? tag = some q → opened s q = some v) ∧
      (c.property? tag = none → resolve s c.name (tag ++ "." ++ p.name) =
        .ok ⟨tag ++ "." ++ p.name, c.name, [.variant tag, .property v.name p]⟩) := by
  obtain ⟨v, hv, rfl, hbase⟩ := (SchemaDocument.build_coherent hbuild).variant_of_mem hc htag
  have hvMem := (Schema.container?_some hv).1
  refine ⟨v, hv, hbase, fun p hp => ?_⟩
  cases htwice : c.property? v.name with
  | none =>
      have hselected := resolve_variant hbuild hc htag htwice
      have hpath : resolve s c.name (v.name ++ "." ++ p.name) =
          .ok ⟨v.name ++ "." ++ p.name, c.name, [.variant v.name, .property v.name p]⟩ :=
        resolve_append.2 ⟨_, _, v, _, hselected, rfl, hv, resolve_property hbuild hvMem hp, rfl⟩
      exact ⟨⟨(fun _ _ hq => by cases hq), fun _ => ⟨_, hpath, rfl⟩⟩, fun _ => hpath⟩
  | some q =>
      have hnamed := Path.property?_name htwice
      have hfirst := resolve_property hbuild hc (Schema.property?_some htwice).1
      rw [hnamed] at hfirst
      refine ⟨?_, fun hnone => by cases hnone⟩
      rw [resolve_behind hbuild hfirst rfl hvMem hp]
      simp [PathStep.opened?]

omit hbuild

/-- The number of a card is found behind the selection of cards, and so is the method of the
payment, which cards have inherited. -/
theorem cardProperties_selected : orderDocument.build = .ok orderSchema ∧
    ∃ v, orderSchema.container? "Card" = some v ∧
      v.properties.map Property.name = ["method", "number"] ∧
      ∀ p ∈ v.properties, ∃ path, resolve orderSchema "Payment" ("Card" ++ "." ++ p.name) =
        .ok path ∧ path.steps.getLast? = some (.property v.name p) := by
  have hbuild : orderDocument.build = .ok orderSchema := rfl
  have hpayment : orderSchema.container? "Payment" = some _ := rfl
  obtain ⟨v, hv, -, hselected⟩ : ∃ v, orderSchema.container? "Card" = some v ∧ _ :=
    resolve_selected hbuild (Schema.container?_some hpayment).1 (by decide)
  refine ⟨hbuild, v, hv, ?_, fun p hp => ?_⟩
  · cases hv
    rfl
  · exact (hselected p hp).1.2 fun q hq => by cases hq

/-- Shapes with a text that is named like one of their variants. -/
def shapeDocument : SchemaDocument where
  resources := []
  objects :=
    [{ name := "Shape"
       discriminator := some "kind"
       properties := [{ name := "Circle", type := "string" }]
       variants := [{ name := "Circle", properties := [{ name := "radius", type := "float" }] }] }]

def shapeContainer : Container :=
  let kind : Property :=
    { name := "kind", kind := .discriminator, type := .enum ["Circle"], settable := true,
      nullable := false, persistence := some ⟨"kind", none⟩ }
  let circle : Property :=
    { name := "Circle", kind := .simple, type := .string, settable := true,
      persistence := some ⟨"Circle", none⟩ }
  ⟨"Shape", .object, .polymorphic "kind" ["Circle"], [kind, circle]⟩

def radiusProperty : Property :=
  { name := "radius", kind := .simple, type := .scalar .float, settable := true,
    persistence := some ⟨"radius", none⟩ }

def circleContainer : Container :=
  ⟨"Circle", .object, .variant "Shape", shapeContainer.properties ++ [radiusProperty]⟩

/-- The radius of a circle is not found: the text is taken for the circle. -/
theorem circleRadius_hidden :
    ∃ s, shapeDocument.build = .ok s ∧ shapeContainer ∈ s.containers ∧
      "Circle" ∈ shapeContainer.variants ∧ s.container? "Circle" = some circleContainer ∧
      radiusProperty ∈ circleContainer.properties ∧
      ¬ ∃ path, resolve s "Shape" "Circle.radius" = .ok path ∧
        path.steps.getLast? = some (.property "Circle" radiusProperty) := by
  refine ⟨⟨[shapeContainer, circleContainer]⟩, by decide +kernel, by simp, by decide,
    by decide +kernel, by simp [circleContainer], ?_⟩
  rintro ⟨path, hpath, -⟩
  have hrefused : resolve ⟨[shapeContainer, circleContainer]⟩ "Shape" "Circle.radius" =
      .error (Fault.of (.path "Circle.radius" (.notNavigable "Circle"))) := by
    decide +kernel
  rw [hrefused] at hpath
  cases hpath

end Path

end ResourceQuery
