import ResourceQuery.Proofs.Session.Projected
/-!
# Rules and written documents

A rule of a projection is kept under the text of its path, and writing asks for the path as it
spells it. The two agree for a path that selects no variant, and such a rule is honoured. A rule
behind a selected variant is never asked for: what it includes is left out, and what it excludes is
written.
-/

namespace ResourceQuery

namespace Path

/-- A path goes on only behind objects and references, so no property inside is a discriminator. -/
theorem Follows.not_isDiscriminator {s : Schema} {c : Container} {steps : List PathStep}
    {last : Property} (h : Follows s c steps)
    (hlast : steps.getLast?.bind PathStep.property? = some last)
    (hdiscriminator : last.isDiscriminator = false) :
    ∀ p ∈ steps.filterMap PathStep.property?, p.isDiscriminator = false := by
  induction h with
  | done => simp
  | last hp =>
      intro q hq
      obtain rfl : q = last := by
        simp [PathStep.property?] at hlast hq
        rw [hq, hlast]
      exact hdiscriminator
  | @property c next p rest hp hopened hrest ih =>
      have hinner : ∀ q ∈ rest.filterMap PathStep.property?, q.isDiscriminator = false := by
        cases rest with
        | nil => simp
        | cons step others => exact ih (by simpa using hlast)
      have hp : p.isDiscriminator = false := by
        unfold opened at hopened
        split at hopened
        · rename_i hnavigable
          cases hkind : p.kind <;>
            simp_all [Property.isNavigable, Property.isObject, Property.isReference,
              Property.isDiscriminator]
        · cases hopened
      intro q hq
      have hq' : q = p ∨ q ∈ rest.filterMap PathStep.property? := by
        simpa [PathStep.property?] using hq
      rcases hq' with rfl | hq'
      · exact hp
      · exact hinner q hq'
  | @variant c v tag rest htag hv hrest ih =>
      cases rest with
      | nil => simp [PathStep.property?]
      | cons step others =>
          intro q hq
          exact ih (by simpa using hlast) q (by simpa [PathStep.property?] using hq)

theorem getLast?_properties {path : Path} {last : Property} (h : path.lastProperty? = some last) :
    path.properties.getLast? = some last := by
  obtain ⟨step, hstep, hlast⟩ := Option.bind_eq_some_iff.1 h
  obtain ⟨front, hsteps⟩ := List.getLast?_eq_some_iff.1 hstep
  rw [properties, hsteps, List.filterMap_append]
  simp [hlast]

theorem mem_of_mem_spelled {front path : String} {ps : List Property} {p : Property}
    (h : (path, p) ∈ spelled front ps) : p ∈ ps := by
  induction ps generalizing front with
  | nil => simp [spelled] at h
  | cons q rest ih =>
      rw [spelled] at h
      rcases List.mem_cons.1 h with heq | h
      · simp [(Prod.mk.inj heq).2]
      · exact List.mem_cons_of_mem _ (ih h)

section

variable {s : Schema} {start text : String} {path : Path}

/-- Writing asks for the last property of a path without variants by the text of the path. -/
theorem text_mem_spelled (h : resolve s start text = .ok path) (hvariant : path.SelectsNoVariant)
    {last : Property} (hlast : path.lastProperty? = some last) :
    (text, last) ∈ spelled "" path.properties := by
  have hmem : (spelling "" (path.properties.map Property.name), last) ∈ spelled "" path.properties :=
    spelling_mem_spelled (getLast?_properties hlast)
  rw [spelling_of_selectsNoVariant h hvariant] at hmem
  exact hmem

/-- All other properties on the path it asks for by texts of paths above. -/
theorem text_or_above_of_mem_spelled (h : resolve s start text = .ok path)
    (hvariant : path.SelectsNoVariant) {above : String} {p : Property}
    (hmem : (above, p) ∈ spelled "" path.properties) :
    above = text ∨ Text.startsWith text (above ++ ".") = true := by
  obtain ⟨-, -, hnames, hnonempty, -⟩ := resolve_ok h
  have hproperties : ∀ q ∈ path.properties, q.name ≠ "" := by
    intro q hq
    apply hnonempty q.name
    rw [← hnames, ← names_of_selectsNoVariant hvariant]
    exact List.mem_map_of_mem hq
  have hcases := mem_spelled hproperties hmem
  rw [spelling_of_selectsNoVariant h hvariant] at hcases
  rcases hcases with ⟨heq, -⟩ | habove
  · exact .inl heq
  · exact .inr habove

end

end Path

namespace Projection

/-- What comes of a rule at a place that its path denotes. The place is written if and only if all
properties on the way can be got and are written by their spelled paths. For a path that selects no
variant this is what the rule says. -/
structure Honours (p : Projection) (path : Path) (rule : Bool) (place : Option Json) : Prop where
  written_iff : place.isSome ↔ ∀ q r, (q, r) ∈ Path.spelled "" path.properties →
    r.gettable = true ∧ p.isWritten q r.fetchedByDefault = true
  excluded : path.SelectsNoVariant → rule = false →
    (∀ below, Text.startsWith below (path.text ++ ".") = true → (below, true) ∉ p.rules) →
    place = Option.none
  included : path.SelectsNoVariant → rule = true → (∀ r ∈ path.properties, r.gettable = true) →
    place.isSome

/-- Every rule has a path that leads to a property, and unless that is a discriminator, the document
of a value honours the rule at all places that the path denotes. -/
theorem document_honours {d : SchemaDocument} {s : Schema} {resourceType text : String}
    {p : Projection} {v : Value} {doc : Json} {rule : Bool} (hbuild : d.build = .ok s)
    (hp : Reachable s resourceType p) (hrule : p.rules.find? text = some rule)
    (hdoc : (ValueType.object resourceType).document s (Value.projecting p) v = .ok doc) :
    ∃ path property, Path.resolve s resourceType text = .ok path ∧
      path.terminal = .ok property ∧
      (property.isDiscriminator = false → ∀ address,
        Value.Denotes path.steps (.object resourceType) v address →
        p.Honours path rule (doc.at? address)) := by
  have hrules := hasRules_of_reachable hp
  obtain ⟨path, property, hresolve, hterminal⟩ :=
    hrules.resolved text rule (NameMap.mem_of_find? hrule)
  refine ⟨path, property, hresolve, hterminal, ?_⟩
  intro hdiscriminator address hdenotes
  obtain ⟨htext, -, hnames, hnonempty, c, hc, hfollows⟩ := Path.resolve_ok hresolve
  have hlast : path.lastProperty? = some property := by
    unfold Path.terminal at hterminal
    split at hterminal
    · rename_i found hfound
      cases hterminal
      exact hfound
    · cases hterminal
  have hcontainer : (ValueType.object resourceType).container?.bind s.container? = some c :=
    Schema.container_eq_ok_iff.1 hc
  have hshows : (doc.at? address).isSome ↔ ∀ q r, (q, r) ∈ Path.spelled "" path.properties →
      r.gettable = true ∧ p.isWritten q r.fetchedByDefault = true :=
    ValueType.document_shows (SchemaDocument.build_coherent hbuild) hdoc c path.steps address
      hcontainer hfollows (hfollows.not_isDiscriminator hlast hdiscriminator) hdenotes
  subst htext
  constructor
  case written_iff => exact hshows
  case excluded =>
    intro hvariant hexcluded hbelow
    subst hexcluded
    refine Option.eq_none_iff_forall_ne_some.2 fun j hj => ?_
    have hsome : (doc.at? address).isSome := by
      rw [hj]
      rfl
    have hwritten := (hshows.1 hsome path.text property
      (Path.text_mem_spelled hresolve hvariant hlast)).2
    rw [isWritten_of_excluded property.fetchedByDefault hrule hbelow] at hwritten
    cases hwritten
  case included =>
    intro hvariant hincluded hgettable
    subst hincluded
    refine hshows.2 fun q r hmem => ⟨hgettable r (Path.mem_of_mem_spelled hmem), ?_⟩
    rcases Path.text_or_above_of_mem_spelled hresolve hvariant hmem with heq | habove
    · rw [heq]
      exact isWritten_of_included r.fetchedByDefault hrule
    · have hbelow := includesBelow_of_included hrules.sorted hrule habove
      unfold isWritten
      rw [if_pos hbelow]

/-- People who pay by card. -/
def paymentDocument : SchemaDocument :=
  { resources :=
      [{ name := "User", persistent := false
         properties := [{ name := "payment", type := "object(Payment)" }] }]
    objects :=
      [{ name := "Payment", discriminator := some "method"
         properties := [{ name := "currency", type := "string" }]
         variants :=
           [{ name := "Card", properties := [{ name := "number", type := "string" }] }] }] }

def paymentProperty : Property :=
  { name := "payment", kind := .object, type := .object "Payment", settable := true }

def methodProperty : Property :=
  { name := "method", kind := .discriminator, type := .enum ["Card"], settable := true
    nullable := false, persistence := some ⟨"method", Option.none⟩ }

def currencyProperty : Property :=
  { name := "currency", kind := .simple, type := .string, settable := true
    persistence := some ⟨"currency", Option.none⟩ }

def numberProperty : Property :=
  { name := "number", kind := .simple, type := .string, settable := true
    persistence := some ⟨"number", Option.none⟩ }

def paymentSchema : Schema :=
  ⟨[{ name := "User", role := .resource false, shape := .plain
      table := [paymentProperty] },
    { name := "Payment", role := .object, shape := .polymorphic "method" ["Card"]
      table := [methodProperty, currencyProperty] },
    { name := "Card", role := .object, shape := .variant "Payment"
      table := [methodProperty, currencyProperty, numberProperty] }]⟩

def payment : Value :=
  .object "User" [("payment", .object "Card"
    [("currency", .text "EUR"), ("number", .text "4111")])]

/-- A projection over users with one rule. -/
def ruling (includeByDefault : Bool) (path : String) (rule : Bool) : Projection :=
  ⟨"User", includeByDefault, [(path, rule)], [], []⟩

def currencyPath : Path :=
  ⟨"payment.currency", "User",
    [.property "User" paymentProperty, .property "Payment" currencyProperty]⟩

def numberPath : Path :=
  ⟨"payment.Card.number", "User",
    [.property "User" paymentProperty, .variant "Card", .property "Card" numberProperty]⟩

/-- The document of a user who pays by card, with what else is written of the payment. -/
def cardDocument (members : List (String × Json)) : Json :=
  .object [("payment",
    .object (members.foldl (fun m entry => NameMap.insert entry.1 entry.2 m)
      [("method", .string "Card")]))]

/-- The currency of a payment is written when it is included. -/
theorem document_honours_currency :
    paymentDocument.build = .ok paymentSchema ∧
      Reachable paymentSchema "User" (ruling false "payment.currency" true) ∧
      (ValueType.object "User").document paymentSchema
          (Value.projecting (ruling false "payment.currency" true)) payment =
        .ok (cardDocument [("currency", .string "EUR")]) ∧
      ((cardDocument [("currency", .string "EUR")]).at?
        [.member "payment", .member "currency"]).isSome := by
  have hinclude : includePath paymentSchema ⟨"User", false, [], [], []⟩ "payment.currency" =
    .ok (ruling false "payment.currency" true) := rfl
  have hreach : Reachable paymentSchema "User" (ruling false "payment.currency" true) :=
    .includePath (.none rfl) hinclude
  have hdoc : (ValueType.object "User").document paymentSchema
      (Value.projecting (ruling false "payment.currency" true)) payment =
    .ok (cardDocument [("currency", .string "EUR")]) := rfl
  have hrule : (ruling false "payment.currency" true).rules.find? "payment.currency" =
    some true := rfl
  refine ⟨rfl, hreach, hdoc, ?_⟩
  obtain ⟨path, property, hresolve, hterminal, hhonours⟩ :=
    document_honours (d := paymentDocument) rfl hreach hrule hdoc
  obtain rfl : currencyPath = path := Except.ok.inj hresolve
  obtain rfl : currencyProperty = property := Except.ok.inj hterminal
  have hdenotes : Value.Denotes currencyPath.steps (.object "User") payment
      [.member "payment", .member "currency"] :=
    .property rfl (.property rfl (.here _ _))
  have hgettable : ∀ r ∈ currencyPath.properties, r.gettable = true := by decide
  exact (hhonours rfl _ hdenotes).included (by unfold Path.SelectsNoVariant; decide) rfl hgettable

/-- The number of a card is left out though it is included, and written though it is excluded. -/
theorem not_honours_number :
    paymentDocument.build = .ok paymentSchema ∧
      Path.resolve paymentSchema "User" "payment.Card.number" = .ok numberPath ∧
      Value.Denotes numberPath.steps (.object "User") payment
        [.member "payment", .member "number"] ∧
      (∀ r ∈ numberPath.properties, r.gettable = true) ∧
      (Reachable paymentSchema "User" (ruling false "payment.Card.number" true) ∧
        (ValueType.object "User").document paymentSchema
            (Value.projecting (ruling false "payment.Card.number" true)) payment =
          .ok (cardDocument []) ∧
        (cardDocument []).at? [.member "payment", .member "number"] = Option.none) ∧
      Reachable paymentSchema "User" (ruling true "payment.Card.number" false) ∧
        (ValueType.object "User").document paymentSchema
            (Value.projecting (ruling true "payment.Card.number" false)) payment =
          .ok (cardDocument [("currency", .string "EUR"), ("number", .string "4111")]) ∧
        (cardDocument [("currency", .string "EUR"), ("number", .string "4111")]).at?
          [.member "payment", .member "number"] = some (.string "4111") := by
  have hinclude : includePath paymentSchema ⟨"User", false, [], [], []⟩ "payment.Card.number" =
    .ok (ruling false "payment.Card.number" true) := rfl
  have hexclude : excludePath paymentSchema ⟨"User", true, [], [], []⟩ "payment.Card.number" =
    .ok (ruling true "payment.Card.number" false) := rfl
  have hall : includeAll ⟨"User", false, [], [], []⟩ = .ok ⟨"User", true, [], [], []⟩ := rfl
  refine ⟨rfl, rfl, .property rfl (.variant (.property rfl (.here _ _))), by decide, ?_, ?_⟩
  · exact ⟨.includePath (.none rfl) hinclude, rfl, rfl⟩
  · exact ⟨.excludePath (.includeAll (.none rfl) hall) hexclude, rfl, rfl⟩

end Projection

end ResourceQuery
