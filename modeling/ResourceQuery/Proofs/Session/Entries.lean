import ResourceQuery.Proofs.Session.Balance
import ResourceQuery.Proofs.Session.Identities
/-!
# Entries of a cache

The key of an object is its identity behind the names of the properties on the way to it. Names hold
no separator, so the key tells the way, the type and the identifier, whatever the text of the
identifier is. An entry of the cache is therefore about the objects at one place that have one
identity, and about all of these (`entries_apart`).
-/

namespace ResourceQuery

/-! ## Objects with the way to them -/

/-- An object with an identity that was read. -/
structure Sighting where
  context : Context
  /-- The text of its identity. -/
  name : String
  object : Instance

namespace Sighting

def key (a : Sighting) : String := a.context.key a.name

/-- The way is made of names, and the identity belongs to a type that has a name. -/
structure Proper (a : Sighting) : Prop where
  labels : ∀ label ∈ a.context.labels, Text.isIdentifier label.toList = true
  name : ∃ type id, Text.isIdentifier type.toList = true ∧ a.name = type ++ "#" ++ id

theorem Proper.key_eq_iff {a b : Sighting} (ha : a.Proper) (hb : b.Proper) :
    a.key = b.key ↔ a.context = b.context ∧ a.name = b.name := by
  constructor
  · intro h
    obtain ⟨type, id, htype, hname⟩ := ha.name
    obtain ⟨other, id', hother, hname'⟩ := hb.name
    rw [key, key, hname, hname'] at h
    obtain ⟨hcontext, rfl, rfl⟩ :=
      (Context.key_eq_iff ha.labels hb.labels htype hother).1 h
    exact ⟨hcontext, hname.trans hname'.symm⟩
  · rintro ⟨hcontext, hname⟩
    rw [key, key, hcontext, hname]

end Sighting

/-- The first object, which takes over from the others one by one what it lacks. -/
def Instance.mergeAll (objects : List Instance) : Option Instance :=
  objects.foldl
    (fun known object => some (known.elim object fun known => known.mergeMissing object)) none

theorem Instance.mergeAll_concat (objects : List Instance) (object : Instance) :
    mergeAll (objects ++ [object]) =
      some ((mergeAll objects).elim object fun known => known.mergeMissing object) := by
  rw [mergeAll, List.foldl_append]
  rfl

/-- What stands under a key behind one more object. -/
theorem IdentityCache.find?_intern (cache : IdentityCache) (name : String) (value : Value)
    (key : String) : (cache.intern name value).2.entries.find? key =
      if cache.context.key name = key then
        some ((cache.entries.find? key).elim value fun old => merge old value)
      else cache.entries.find? key := by
  simp only [intern]
  split
  · rename_i old hold
    rw [NameMap.find?_insert]
    split
    · rename_i heq
      rw [← heq, hold]
      rfl
    · rfl
  · rename_i hnone
    rw [NameMap.find?_insert]
    split
    · rename_i heq
      rw [← heq, hnone]
      rfl
    · rfl

/-- A cache, with all objects that were put into it. -/
def Identities.sighted : Identities (IdentityCache × List Sighting) where
  enter name known := (known.1.enter name, known.2)
  exit known := (known.1.exit, known.2)
  intern name object known :=
    let answer := known.1.intern name (.ofInstance object)
    (answer.1, answer.2, known.2 ++ [⟨known.1.context, name, object⟩])

namespace Identities

/-- To look at the objects changes nothing. -/
theorem sighted_simulates :
    Simulates (fun _ => True) (fun known sighted => known = some sighted.1) cached sighted where
  entered _ := trivial
  enter h := by rw [h]; rfl
  exited _ := trivial
  exit h := by rw [h]; rfl
  recorded _ := trivial
  intern _ h _ := by
    rw [h]
    exact ⟨rfl, rfl⟩

theorem exists_sighted {s : Schema} {principal : Option Principal} {type : ValueType} {j : Json}
    {known : IdentityCache} {v : Value} {left : Option IdentityCache}
    (h : cached.readTree s principal type j (some known) = .ok (v, left))
    (sightings : List Sighting) : ∃ cache more, left = some cache ∧
      sighted.readTree s principal type j (known, sightings) = .ok (v, cache, more) := by
  have hagree := sighted_simulates.readTree s principal j type (a := some known)
    (b := (known, sightings)) fun _ => rfl
  rw [h] at hagree
  generalize sighted.readTree s principal type j (known, sightings) = read at hagree
  cases hagree with
  | @ok _ q hq =>
      obtain ⟨-, hvalue, hleft⟩ := hq trivial
      obtain ⟨w, cache, more⟩ := q
      obtain rfl : v = w := hvalue
      exact ⟨cache, more, hleft, rfl⟩

/-! ## What stands under a key -/

/-- Under each key stands what the objects with the key are merged to. -/
structure Records (known : IdentityCache × List Sighting) : Prop where
  labels : ∀ label ∈ known.1.context.labels, Text.isIdentifier label.toList = true
  proper : ∀ a ∈ known.2, a.Proper
  entries : ∀ key, known.1.entries.find? key =
    (Instance.mergeAll ((known.2.filter fun a => a.key = key).map Sighting.object)).map
      Value.ofInstance

namespace Records

variable {known : IdentityCache × List Sighting}

theorem empty : Records (.empty, []) :=
  ⟨by simp [IdentityCache.empty], by simp, fun _ => rfl⟩

theorem enter (h : Records known) {label : String} (hlabel : Text.isIdentifier label.toList = true) :
    Records (sighted.enter label known) where
  labels other hother := by
    rcases List.mem_append.1 hother with hother | hother
    · exact h.labels other hother
    · rwa [List.mem_singleton.1 hother]
  proper := h.proper
  entries := h.entries

theorem exit (h : Records known) : Records (sighted.exit known) where
  labels label hlabel := h.labels label (List.mem_of_mem_dropLast hlabel)
  proper := h.proper
  entries := h.entries

/-- One more object is merged with the earlier ones that have its key. -/
theorem intern (h : Records known) {type id : String}
    (htype : Text.isIdentifier type.toList = true) (object : Instance) :
    Records (sighted.intern (type ++ "#" ++ id) object known).2 where
  labels := by
    simp only [sighted, IdentityCache.context_intern]
    exact h.labels
  proper a ha := by
    rcases List.mem_append.1 ha with ha | ha
    · exact h.proper a ha
    · rw [List.mem_singleton.1 ha]
      exact ⟨h.labels, type, id, htype, rfl⟩
  entries key := by
    obtain ⟨cache, sightings⟩ := known
    have hentries := h.entries key
    simp only [sighted] at hentries ⊢
    rw [IdentityCache.find?_intern, hentries, List.filter_append]
    by_cases hkey : cache.context.key (type ++ "#" ++ id) = key
    · have hsame : Sighting.key ⟨cache.context, type ++ "#" ++ id, object⟩ = key := hkey
      rw [if_pos hkey, List.filter_cons_of_pos (by simpa using hsame), List.filter_nil,
        List.map_append, List.map_singleton, Instance.mergeAll_concat]
      cases Instance.mergeAll _ <;> rfl
    · have hother : Sighting.key ⟨cache.context, type ++ "#" ++ id, object⟩ ≠ key := hkey
      rw [if_neg hkey, List.filter_cons_of_neg (by simpa using hother), List.filter_nil,
        List.append_nil]

end Records

theorem sighted_carries {s : Schema} (hnames : s.IsNamed)
    (hlabels : ∀ c ∈ s.containers, ∀ p ∈ c.properties, Text.isIdentifier p.name.toList = true) :
    sighted.Carries s fun known left => Records known → Records left where
  refl _ h := h
  trans h h' hknown := h' (h hknown)
  within hc hp h hknown := (h (hknown.enter (hlabels _ hc _ hp))).exit
  intern _ object _ hc hknown := hknown.intern (hnames _ hc).name object

/-- The caches of a session that reads one value after the other, at places that have names. -/
inductive Reached (s : Schema) : IdentityCache × List Sighting → Prop
  | empty : Reached s (.empty, [])
  | enter {known : IdentityCache × List Sighting} {label : String} (h : Reached s known)
      (hlabel : Text.isIdentifier label.toList = true) : Reached s (sighted.enter label known)
  | exit {known : IdentityCache × List Sighting} (h : Reached s known) :
      Reached s (sighted.exit known)
  | read {known left : IdentityCache × List Sighting} {principal : Option Principal}
      {type : ValueType} {j : Json} {v : Value} (h : Reached s known)
      (hread : sighted.readTree s principal type j known = .ok (v, left)) : Reached s left

theorem Reached.records {d : SchemaDocument} {s : Schema} (hbuild : d.build = .ok s)
    {known : IdentityCache × List Sighting} (h : Reached s known) : Records known := by
  induction h with
  | empty => exact .empty
  | enter _ hlabel ih => exact ih.enter hlabel
  | exit _ ih => exact ih.exit
  | read _ hread ih =>
      have hcarries := sighted_carries (SchemaDocument.build_isNamed hbuild)
        (SchemaDocument.build_named hbuild)
      exact hcarries.readTree _ hread ih

end Identities

/-! ## Entries -/

/-- Each entry of a cache is about the objects at one place that have one identity. -/
structure IdentityCache.Apart (cache : IdentityCache) (sightings : List Sighting) : Prop where
  /-- The objects with an identity at a place are merged to one. -/
  entry : ∀ a ∈ sightings, cache.entries.find? a.key =
    (Instance.mergeAll ((sightings.filter fun b => b.context = a.context ∧ b.name = a.name).map
      Sighting.object)).map Value.ofInstance
  /-- Objects at two places or with two identities stand under two keys. -/
  single : ∀ a ∈ sightings, ∀ b ∈ sightings, a.key = b.key →
    a.context = b.context ∧ a.name = b.name
  only : ∀ key value, cache.entries.find? key = some value → ∃ a ∈ sightings, a.key = key

theorem Identities.Records.apart {cache : IdentityCache} {sightings : List Sighting}
    (h : Identities.Records (cache, sightings)) : cache.Apart sightings where
  entry a ha := by
    rw [h.entries]
    congr 3
    refine List.filter_congr fun b hb => ?_
    rw [decide_eq_decide]
    exact (h.proper b hb).key_eq_iff (h.proper a ha)
  single a ha b hb := ((h.proper a ha).key_eq_iff (h.proper b hb)).1
  only key value hvalue := by
    rw [h.entries] at hvalue
    obtain ⟨merged, hmerged, -⟩ := Option.map_eq_some_iff.1 hvalue
    have hfound : (sightings.filter fun a => a.key = key) ≠ [] := by
      intro hnil
      rw [hnil] at hmerged
      cases hmerged
    obtain ⟨a, ha⟩ := List.exists_mem_of_ne_nil _ hfound
    obtain ⟨hmem, hkey⟩ := List.mem_filter.1 ha
    exact ⟨a, hmem, by simpa using hkey⟩

/-- The objects that a session puts into its cache can be looked at. -/
theorem ValueType.read_sighted {s : Schema} {principal : Option Principal} {type : ValueType}
    {j : Json} {stack : List OpenInput} {known : IdentityCache} {v : Value} {left : JsonInput}
    (h : (type.read s principal).run.run ⟨some j, stack, some known⟩ = (.ok v, left))
    (sightings : List Sighting) : ∃ cache more, left.identities = some cache ∧
      Identities.sighted.readTree s principal type j (known, sightings) = .ok (v, cache, more) := by
  obtain ⟨kept, htree, rfl⟩ := read_run.1 h
  exact Identities.exists_sighted htree sightings

/-- The key of an object tells the way to it, its type and its identifier. So objects that a session
reads at two places or with two identities never share an entry. -/
theorem entries_apart :
    (∀ (c d : Context) (type other id id' : String),
      (∀ label ∈ c.labels, Text.isIdentifier label.toList = true) →
      (∀ label ∈ d.labels, Text.isIdentifier label.toList = true) →
      Text.isIdentifier type.toList = true → Text.isIdentifier other.toList = true →
      (c.key (type ++ "#" ++ id) = d.key (other ++ "#" ++ id') ↔
        c = d ∧ type = other ∧ id = id')) ∧
    (∀ (d : SchemaDocument) (s : Schema) (cache : IdentityCache) (sightings : List Sighting),
      d.build = .ok s → Identities.Reached s (cache, sightings) → cache.Apart sightings) ∧
    ∀ (s : Schema) (principal : Option Principal) (type : ValueType) (j : Json)
      (stack : List OpenInput) (known : IdentityCache) (sightings : List Sighting) (v : Value)
      (left : JsonInput),
      (type.read s principal).run.run ⟨some j, stack, some known⟩ = (.ok v, left) →
      ∃ cache more, left.identities = some cache ∧
        Identities.sighted.readTree s principal type j (known, sightings) =
          .ok (v, cache, more) := by
  refine ⟨?_, ?_, ?_⟩
  · exact fun c d type other id id' => Context.key_eq_iff
  · exact fun d s cache sightings hbuild h => (h.records hbuild).apart
  · exact fun s principal type j stack known sightings v left h => ValueType.read_sighted h sightings

section

open ValueType (person personJson personDocument personSchema)

/-- Ann, who owns something. -/
def ann : Sighting := ⟨⟨["owner"]⟩, "User#1", person (some "Ann")⟩

/-- Bob, who stands alone and has the same identifier. -/
def bob : Sighting := ⟨⟨[]⟩, "User#1", person (some "Bob")⟩

def ownerCache : IdentityCache := ⟨⟨["owner"]⟩, [("owner/User#1", .ofInstance ann.object)], 0⟩

def peopleCache : IdentityCache :=
  ⟨⟨[]⟩, [("User#1", .ofInstance bob.object), ("owner/User#1", .ofInstance ann.object)], 0⟩

/-- Bob is read behind Ann and takes over nothing. -/
theorem people_apart :
    personDocument.build = .ok personSchema ∧
      ((ValueType.object "User").read personSchema none).run.run
          ⟨some (personJson (some "Bob")), [], some ownerCache.exit⟩ =
        (.ok (.ofInstance bob.object), ⟨none, [], some peopleCache⟩) ∧
      (∃ cache more, some peopleCache = some cache ∧
        Identities.sighted.readTree personSchema none (.object "User") (personJson (some "Bob"))
          (ownerCache.exit, [ann]) = .ok (.ofInstance bob.object, cache, more)) ∧
      Identities.Reached personSchema (peopleCache, [ann, bob]) ∧
      peopleCache.Apart [ann, bob] ∧ ann.key ≠ bob.key := by
  obtain ⟨hkeys, happart, hsighted⟩ := entries_apart
  have hann : Identities.sighted.readTree personSchema none (.object "User")
      (personJson (some "Ann")) (⟨⟨["owner"]⟩, [], 0⟩, []) =
    .ok (.ofInstance ann.object, ownerCache, [ann]) := rfl
  have hbob : Identities.sighted.readTree personSchema none (.object "User")
      (personJson (some "Bob")) (ownerCache.exit, [ann]) =
    .ok (.ofInstance bob.object, peopleCache, [ann, bob]) := rfl
  have hrun : ((ValueType.object "User").read personSchema none).run.run
      ⟨some (personJson (some "Bob")), [], some ownerCache.exit⟩ =
    (.ok (.ofInstance bob.object), ⟨none, [], some peopleCache⟩) := rfl
  have hreached : Identities.Reached personSchema (peopleCache, [ann, bob]) :=
    .read (.exit (.read (.enter .empty rfl) hann)) hbob
  refine ⟨rfl, hrun, hsighted _ _ _ _ _ _ [ann] _ _ hrun, hreached,
    happart personDocument _ _ _ rfl hreached, fun heq => ?_⟩
  have howner : ∀ label ∈ ann.context.labels, Text.isIdentifier label.toList = true := by
    simp only [ann, List.mem_singleton]
    rintro _ rfl
    rfl
  have hplaces := (hkeys ann.context bob.context "User" "User" "1" "1" howner (by simp [bob]) rfl
    rfl).1 heq
  cases hplaces.1

end

end ResourceQuery
