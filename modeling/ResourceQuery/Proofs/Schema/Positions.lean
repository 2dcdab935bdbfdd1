import Mathlib.Data.List.Induction
import Mathlib.Data.List.Nodup
import ResourceQuery.Proofs.NameMap
import ResourceQuery.Proofs.Outcome
import ResourceQuery.Schema.Container
/-!
# Positions of properties

Each kind of position is that of the last property of its kind (`lastAt?`), be it those of a name,
the identifiers or the discriminators. Where no two properties are of the kind, the property at the
position is the one that a search finds (`bind_lastAt?_eq_find?`), so the positions that are kept
while a schema is built answer as its properties do (`Container.positioned`).
-/

namespace ResourceQuery

namespace Positions

/-- The position of the last property with a quality. -/
def lastAt? (quality : Property → Bool) (properties : List Property) : Option Nat :=
  properties.zipIdx.foldl (fun found entry => if quality entry.1 then some entry.2 else found) none

section

variable (quality : Property → Bool) (properties : List Property)

@[simp] theorem lastAt?_nil : lastAt? quality [] = none := rfl

theorem lastAt?_concat (p : Property) : lastAt? quality (properties ++ [p]) =
    if quality p then some properties.length else lastAt? quality properties := by
  simp [lastAt?, List.zipIdx_append]

/-- At the position is a property with the quality; without a position there is none. -/
theorem lastAt?_cases :
    (∃ position p, lastAt? quality properties = some position ∧ properties[position]? = some p ∧
      quality p = true) ∨
    (lastAt? quality properties = none ∧ ∀ p ∈ properties, quality p = false) := by
  induction properties using List.reverseRecOn with
  | nil => exact .inr ⟨rfl, by simp⟩
  | append_singleton front last ih =>
      rw [lastAt?_concat]
      cases hlast : quality last with
      | true => exact .inl ⟨front.length, last, by simp, by simp, hlast⟩
      | false =>
          rcases ih with ⟨position, p, hfound, hp, hquality⟩ | ⟨hnone, hall⟩
          · have hlt := (List.getElem?_eq_some_iff.1 hp).1
            exact .inl ⟨position, p, by simpa using hfound,
              by rw [List.getElem?_append_left hlt, hp], hquality⟩
          · refine .inr ⟨by simpa using hnone, fun p hp => ?_⟩
            rcases List.mem_append.1 hp with hp | hp
            · exact hall p hp
            · rwa [List.mem_singleton.1 hp]

theorem isSome_bind_lastAt? : ((lastAt? quality properties).bind fun position =>
    properties[position]?).isSome = properties.any quality := by
  rcases lastAt?_cases quality properties with ⟨position, p, hfound, hp, hquality⟩ | ⟨hnone, hall⟩
  · rw [hfound, Option.bind_some, hp]
    exact (List.any_eq_true.2 ⟨p, List.mem_of_getElem? hp, hquality⟩).symm
  · rw [hnone, Option.bind_none]
    exact (List.any_eq_false.2 fun p hp => by simp [hall p hp]).symm

end

/-- The only property with a quality is found at its position. -/
theorem bind_lastAt?_eq_find? {quality : Property → Bool} {properties : List Property}
    (hunique : ∀ p ∈ properties, ∀ q ∈ properties, quality p = true → quality q = true → p = q) :
    ((lastAt? quality properties).bind fun position => properties[position]?) =
      properties.find? quality := by
  rcases lastAt?_cases quality properties with ⟨position, p, hfound, hp, hquality⟩ | ⟨hnone, hall⟩
  · have hmem := List.mem_of_getElem? hp
    obtain ⟨q, hq⟩ := Option.isSome_iff_exists.1 (List.find?_isSome.2 ⟨p, hmem, hquality⟩)
    rw [hfound, Option.bind_some, hp, hq, hunique p hmem q (List.mem_of_find?_eq_some hq) hquality
      (List.find?_some hq)]
  · rw [hnone, Option.bind_none]
    exact (List.find?_eq_none.2 fun p hp => by simp [hall p hp]).symm

theorem find?_named_ofList (name : String) (properties : List Property) :
    NameMap.find? name (ofList properties).named =
      lastAt? (fun p => p.name == name) properties := by
  induction properties using List.reverseRecOn with
  | nil => rfl
  | append_singleton front last ih =>
      rw [ofList_concat, note, NameMap.find?_insert, ih, lastAt?_concat]
      simp only [beq_iff_eq]

theorem identifier_ofList (properties : List Property) :
    (ofList properties).identifier = lastAt? Property.isId properties := by
  induction properties using List.reverseRecOn with
  | nil => rfl
  | append_singleton front last ih => rw [ofList_concat, note, ih, lastAt?_concat]

theorem discriminator_ofList (properties : List Property) :
    (ofList properties).discriminator = lastAt? Property.isDiscriminator properties := by
  induction properties using List.reverseRecOn with
  | nil => rfl
  | append_singleton front last ih => rw [ofList_concat, note, ih, lastAt?_concat]

end Positions

namespace PropertyTable

open Positions

variable (t : PropertyTable)

theorem named?_eq_bind (name : String) : t.named? name =
    (lastAt? (fun p => p.name == name) t.properties).bind fun position =>
      t.properties[position]? := by
  rw [named?, t.kept, find?_named_ofList]

theorem identifier?_eq_bind : t.identifier? =
    (lastAt? Property.isId t.properties).bind fun position => t.properties[position]? := by
  rw [identifier?, t.kept, identifier_ofList]

theorem discriminator?_eq_bind : t.discriminator? =
    (lastAt? Property.isDiscriminator t.properties).bind fun position =>
      t.properties[position]? := by
  rw [discriminator?, t.kept, discriminator_ofList]

@[simp] theorem isSome_identifier? : t.identifier?.isSome = t.properties.any Property.isId := by
  rw [identifier?_eq_bind, isSome_bind_lastAt?]

@[simp] theorem isSome_discriminator? :
    t.discriminator?.isSome = t.properties.any Property.isDiscriminator := by
  rw [discriminator?_eq_bind, isSome_bind_lastAt?]

theorem contains_named (name : String) :
    NameMap.contains name t.positions.named = true ↔ name ∈ t.properties.map Property.name := by
  rw [NameMap.contains, t.kept, find?_named_ofList, List.mem_map]
  rcases lastAt?_cases (fun p => p.name == name) t.properties with
    ⟨position, p, hfound, hp, hname⟩ | ⟨hnone, hall⟩
  · simpa [hfound] using ⟨p, List.mem_of_getElem? hp, by simpa using hname⟩
  · simpa [hnone] using hall

variable {t} {u : PropertyTable}

theorem add_eq (t : PropertyTable) (p : Property) :
    t.add p = if p.name ∈ t.properties.map Property.name then .error p
      else .ok (ofList (t.properties ++ [p])) := by
  unfold add
  by_cases htaken : p.name ∈ t.properties.map Property.name
  · rw [if_pos htaken, if_pos ((t.contains_named p.name).2 htaken)]
  · rw [if_neg htaken, if_neg (mt (t.contains_named p.name).1 htaken)]
    exact congrArg Except.ok (ext rfl)

theorem add_eq_ok_iff {p : Property} :
    t.add p = .ok u ↔
      p.name ∉ t.properties.map Property.name ∧ u = ofList (t.properties ++ [p]) := by
  rw [add_eq, ite_error_eq_ok_iff, Except.ok.injEq, eq_comm]

/-- Properties are added one after the other if no name is taken. -/
theorem foldlM_add_eq_ok_iff {more : List Property}
    (h : (t.properties.map Property.name).Nodup) :
    more.foldlM add t = .ok u ↔
      ((t.properties ++ more).map Property.name).Nodup ∧ u = ofList (t.properties ++ more) := by
  induction more generalizing t with
  | nil =>
      have hself : ofList t.properties = t := ext rfl
      simp [h, hself, pure, Except.pure, eq_comm]
  | cons p rest ih =>
      rw [List.foldlM_cons, bind_eq_ok_iff]
      constructor
      · rintro ⟨between, hfirst, hrest⟩
        obtain ⟨hfresh, rfl⟩ := add_eq_ok_iff.1 hfirst
        have hnodup : ((t.properties ++ [p]).map Property.name).Nodup := by
          rw [List.map_append, List.nodup_append]
          refine ⟨h, by simp, ?_⟩
          rintro name hname _ hp rfl
          exact hfresh (List.mem_singleton.1 hp ▸ hname)
        simpa [ofList] using (ih hnodup).1 hrest
      · rintro ⟨hnodup, rfl⟩
        let between := ofList (t.properties ++ [p])
        have hsplit : between.properties ++ rest = t.properties ++ p :: rest := by
          simp [between, ofList]
        rw [← hsplit] at hnodup
        have hfront : (between.properties.map Property.name).Nodup := by
          rw [List.map_append] at hnodup
          exact (List.nodup_append.1 hnodup).1
        refine ⟨between, add_eq_ok_iff.2 ⟨fun hmem => ?_, rfl⟩,
          (ih hfront).2 ⟨hnodup, by rw [hsplit]⟩⟩
        have happart := (List.nodup_append.1 (List.map_append .. ▸ hfront)).2.2
        exact happart _ hmem p.name (by simp) rfl

/-- Inherited properties are put in front if all names differ. -/
theorem inherit_eq_ok_iff {inherited : List Property} :
    t.inherit inherited = .ok u ↔
      ((inherited ++ t.properties).map Property.name).Nodup ∧
        u = ofList (inherited ++ t.properties) := by
  have hempty : (empty.properties.map Property.name).Nodup := List.nodup_nil
  rw [inherit, foldlM_add_eq_ok_iff hempty]
  rfl

end PropertyTable

namespace Container

variable (c : Container)

/-- The container with other properties. -/
def withProperties (properties : List Property) : Container :=
  { c with table := .ofList properties }

section WithProperties

variable (properties : List Property)

@[simp] theorem withProperties_name : (c.withProperties properties).name = c.name := rfl

@[simp] theorem withProperties_role : (c.withProperties properties).role = c.role := rfl

@[simp] theorem withProperties_shape : (c.withProperties properties).shape = c.shape := rfl

@[simp] theorem withProperties_properties :
    (c.withProperties properties).properties = properties := rfl

@[simp] theorem withProperties_self : c.withProperties c.properties = c := by
  have htable : PropertyTable.ofList c.properties = c.table := PropertyTable.ext rfl
  rw [withProperties, htable]

@[simp] theorem withProperties_withProperties (others : List Property) :
    (c.withProperties others).withProperties properties = c.withProperties properties := rfl

end WithProperties

theorem isSome_table_identifier? : c.table.identifier?.isSome = c.identifier?.isSome := by
  rw [PropertyTable.isSome_identifier?, Bool.eq_iff_iff, List.any_eq_true]
  exact List.find?_isSome.symm

theorem isSome_table_discriminator? :
    c.table.discriminator?.isSome = c.discriminator?.isSome := by
  rw [PropertyTable.isSome_discriminator?, Bool.eq_iff_iff, List.any_eq_true]
  exact List.find?_isSome.symm

/-- What stands at the kept positions is what a search finds. -/
structure Positioned : Prop where
  named : ∀ name, c.table.named? name = c.property? name
  identifier : c.table.identifier? = c.identifier?
  discriminator : c.table.discriminator? = c.discriminator?

variable {c}

theorem positioned (hnodup : (c.properties.map Property.name).Nodup)
    (hid : ∀ p ∈ c.properties, ∀ q ∈ c.properties, p.isId = true → q.isId = true → p = q)
    (hmark : ∀ p ∈ c.properties, ∀ q ∈ c.properties, p.isDiscriminator = true →
      q.isDiscriminator = true → p = q) : c.Positioned where
  named name := by
    rw [PropertyTable.named?_eq_bind]
    refine Positions.bind_lastAt?_eq_find? fun p hp q hq hpname hqname => ?_
    exact List.inj_on_of_nodup_map hnodup hp hq
      ((beq_iff_eq.1 hpname).trans (beq_iff_eq.1 hqname).symm)
  identifier := by
    rw [PropertyTable.identifier?_eq_bind]
    exact Positions.bind_lastAt?_eq_find? hid
  discriminator := by
    rw [PropertyTable.discriminator?_eq_bind]
    exact Positions.bind_lastAt?_eq_find? hmark

theorem property?_eq_none_iff {name : String} :
    c.property? name = none ↔ name ∉ c.properties.map Property.name := by
  simp [property?, List.find?_eq_none]

end Container

end ResourceQuery
