import ResourceQuery.Proofs.Schema.Document
import ResourceQuery.Proofs.Text.Octets
import ResourceQuery.Schema.Fingerprint
/-!
# Documents written as JSON

Schema documents and configurations are read again from the JSON that was written of them, and no
two schema documents are written the same, so fingerprints tell them apart as far as the hash does
(`documents_reread`). Configurations are checked when they are read.
-/

namespace ResourceQuery

open Json (Fits)

/-- What is read of the JSON of a document is read of the document. -/
theorem Fault.DocumentFormat.readText?_writeText {α : Type} {document : Json}
    (h : Fits Json.maxDepth document) (ofJson : Json → Option α) (ofYaml : Yaml.Tree → Option α) :
    readText? .json ofJson ofYaml (writeText .json document) = ofJson document := by
  rw [readText?, writeText, h.parse?_indented, Option.bind_some]

namespace SchemaDocument

variable {d other : SchemaDocument}

/-- Whatever notation a document was read from, its tables of roles are ordered. -/
theorem ordered_of_ofText {format : Fault.DocumentFormat} {text : String}
    (h : ofText format text = .ok d) : d.Ordered := by
  unfold ofText at h
  split at h
  · rename_i document hread
    cases h
    cases format with
    | json =>
        obtain ⟨tree, -, hdocument⟩ := Option.bind_eq_some_iff.1 hread
        exact ordered_of_ofTree? hdocument
    | yaml =>
        obtain ⟨tree, -, hdocument⟩ := Option.bind_eq_some_iff.1 hread
        exact ordered_of_ofTree? hdocument
  · cases h

theorem fits_maxDepth (d : SchemaDocument) : Fits Json.maxDepth d.toJson := d.fits_toJson 118

theorem ofText_toText (h : d.Ordered) : ofText .json (d.toText .json) = .ok d := by
  rw [ofText, toText, Fault.DocumentFormat.readText?_writeText d.fits_maxDepth, ofTree?_toJson h]

/-- The compact form of a document tells which one it is. -/
theorem eq_of_compact (h : d.Ordered) (hother : other.Ordered)
    (heq : d.toJson.compact = other.toJson.compact) : d = other := by
  have hjson : some d.toJson = some other.toJson := by
    rw [← d.fits_maxDepth.parse?_compact, heq, other.fits_maxDepth.parse?_compact]
  have htree := ofTree?_toJson h
  rw [Option.some.inj hjson, ofTree?_toJson hother] at htree
  exact (Option.some.inj htree).symm

/-- The octets that the fingerprint of a document is the hash of. -/
def octets (d : SchemaDocument) : List UInt8 := Text.toOctets d.toJson.compact.toList

theorem eq_of_octets (h : d.Ordered) (hother : other.Ordered) (heq : d.octets = other.octets) :
    d = other :=
  eq_of_compact h hother (String.toList_inj.1 (Text.toOctets_injective heq))

end SchemaDocument

namespace Configuration

theorem checkNames_fails (names : List String) :
    FailsBy (fun fault => fault.kind = .configuration) (checkNames names) := by
  induction names with
  | nil => exact .ok
  | cons name rest ih => exact FailsBy.check rfl (FailsBy.check rfl ih)

/-- What is wrong with a configuration is a fault of the configuration. -/
theorem validate_fails (c : Configuration) :
    FailsBy (fun fault => fault.kind = .configuration) c.validate := by
  refine FailsBy.check rfl ?_
  refine (checkNames_fails c.parameterNames).bind fun _ _ => ?_
  exact FailsBy.check rfl .ok

theorem ofText_toText {c : Configuration} (h : c.Bounded) :
    ofText .json (c.toText .json) = c.validate.map fun _ => c := by
  rw [ofText, toText, Fault.DocumentFormat.readText?_writeText (fits_toJson 126 h), ofTree?_toJson]
  change (c.validate >>= fun _ => pure c) = _
  cases c.validate <;> rfl

end Configuration

/-- Documents are read from their JSON as they were written, and schema documents differ in it; a
configuration comes back if it is valid, and is refused for what is wrong with it if not. -/
theorem documents_reread :
    (∀ d : SchemaDocument, d.Ordered → SchemaDocument.ofText .json (d.toText .json) = .ok d) ∧
    (∀ d other : SchemaDocument, d.Ordered → other.Ordered → d ≠ other →
      d.toJson.compact ≠ other.toJson.compact) ∧
    (∀ d other : SchemaDocument, d.Ordered → other.Ordered → d.fingerprint = other.fingerprint →
      d = other ∨
        d.octets ≠ other.octets ∧ Blake3.hexHash d.octets = Blake3.hexHash other.octets) ∧
    ∀ c : Configuration, c.Bounded →
      (c.validate = .ok () → Configuration.ofText .json (c.toText .json) = .ok c) ∧
      (c.validate ≠ .ok () → ∃ fault, Configuration.ofText .json (c.toText .json) = .error fault ∧
        fault.kind = .configuration) := by
  refine ⟨fun d h => d.ofText_toText h, ?_, ?_, ?_⟩
  · exact fun d other h hother hne heq => hne (SchemaDocument.eq_of_compact h hother heq)
  · intro d other h hother heq
    by_cases hsame : d = other
    · exact .inl hsame
    · exact .inr ⟨fun hoctets => hsame (SchemaDocument.eq_of_octets h hother hoctets), heq⟩
  · intro c h
    rw [Configuration.ofText_toText h]
    have hfails := c.validate_fails
    cases hvalid : c.validate with
    | ok _ => exact ⟨fun _ => rfl, fun hne => absurd rfl hne⟩
    | error fault =>
        rw [hvalid] at hfails
        exact ⟨fun hok => (by cases hok), fun _ => ⟨fault, rfl, hfails.fault⟩⟩

/-- Reviews that only staff may load and nobody may update. -/
def reviewDocument : SchemaDocument where
  resources :=
    [{ name := "Review"
       properties :=
        [{ name := "id", kind := some .id, type := "long" },
          { name := "note", type := "string", nullable := false,
            access := [(.load, ["staff", "\"chief\""]), (.update, [])] }] }]
  objects := []

def emptyDocument : SchemaDocument where
  resources := []
  objects := []

theorem reviewDocument_ordered : reviewDocument.Ordered := by
  refine ⟨List.forall_mem_singleton.2 ⟨?_, List.forall_mem_nil _⟩, List.forall_mem_nil _⟩
  simp [PropertyDeclaration.Ordered, RoleTable.Ordered, Operation.rank]

theorem emptyDocument_ordered : emptyDocument.Ordered :=
  ⟨List.forall_mem_nil _, List.forall_mem_nil _⟩

theorem reviewDocument_reread :
    (reviewDocument.Ordered ∧ emptyDocument.Ordered ∧ reviewDocument ≠ emptyDocument) ∧
    SchemaDocument.ofText .json (reviewDocument.toText .json) = .ok reviewDocument ∧
    reviewDocument.toJson.compact ≠ emptyDocument.toJson.compact ∧
    (reviewDocument.fingerprint = emptyDocument.fingerprint →
      Blake3.hexHash reviewDocument.octets = Blake3.hexHash emptyDocument.octets) ∧
    Configuration.ofText .json (Configuration.toText .json {}) = .ok {} ∧
    ∃ fault, Configuration.ofText .json
        (Configuration.toText .json { maxOperands := 0 }) = .error fault ∧
      fault.kind = .configuration := by
  obtain ⟨hreread, hdiffer, hfingerprint, hconfiguration⟩ := documents_reread
  have hreview := reviewDocument_ordered
  have hempty := emptyDocument_ordered
  have hne : reviewDocument ≠ emptyDocument := by decide
  have hvalid : Configuration.validate {} = .ok () := by decide +kernel
  have hinvalid : Configuration.validate { maxOperands := 0 } ≠ .ok () := by decide +kernel
  refine ⟨⟨hreview, hempty, hne⟩, hreread _ hreview, hdiffer _ _ hreview hempty hne, ?_,
    (hconfiguration {} ⟨by decide +kernel, by decide +kernel⟩).1 hvalid,
    (hconfiguration { maxOperands := 0 } ⟨by decide +kernel, by decide +kernel⟩).2 hinvalid⟩
  intro heq
  exact ((hfingerprint _ _ hreview hempty heq).resolve_left hne).2

end ResourceQuery
