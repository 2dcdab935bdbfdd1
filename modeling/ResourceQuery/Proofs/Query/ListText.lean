import ResourceQuery.Proofs.Numeral.Digits
import ResourceQuery.Proofs.Query.FilterParameter
import ResourceQuery.Query.ListText
/-!
# Elements of list parameters read back

The elements of an order, a projection and a reference list are read as they were written, whatever
element follows them, and so is a range.
-/

namespace ResourceQuery

open Reader

/-! ## Where elements end -/

namespace Reader

theorem ElementEnds.closed {text : List Char} (h : ElementEnds text) : Closed text := by
  intro c hc
  simp [h c hc]

theorem ElementEnds.head?_ne {text : List Char} (h : ElementEnds text) {c : Char} (hne : c ≠ ',') :
    text.head? ≠ some c := fun heq => hne (h c heq)

end Reader

/-- A dotted path begins like an identifier. -/
theorem Text.IsDotted.head? {path : String} (h : Text.IsDotted path) :
    ∃ c more, path.toList = c :: more ∧ Text.isIdentifierStart c = true := by
  obtain ⟨first, others, rfl, hnames⟩ := h
  have hfirst := hnames first (by simp)
  rw [Text.toList_join_cons]
  cases hname : first.toList with
  | nil => simp [hname, Text.isIdentifier] at hfirst
  | cons c more =>
      rw [hname, Text.isIdentifier, Bool.and_eq_true] at hfirst
      exact ⟨c, _, List.cons_append, hfirst.1⟩

theorem Text.IsDotted.head?_ne {path : String} (h : Text.IsDotted path) (rest : List Char)
    {c : Char} (hc : Text.isIdentifierStart c = false) :
    (path.toList ++ rest).head? ≠ some c := by
  obtain ⟨d, more, hpath, hd⟩ := h.head?
  rw [hpath]
  intro heq
  obtain rfl : d = c := by simpa using heq
  rw [hd] at hc
  cases hc

/-! ## Orders -/

namespace OrderText

/-- How a direction is written, if at all. -/
def directionText : Option Bool → String
  | none => ""
  | some false => ":asc"
  | some true => ":desc"

theorem takes_direction (direction : Option Bool) {rest : List Char} (hrest : ElementEnds rest) :
    (Reader.optional segmentDirection).Takes (directionText direction).toList rest
      fun answer => answer = direction := by
  -- a direction is the word behind a colon
  have hword : ∀ {word : List Char} {descending : Bool},
      OrderText.direction.Takes word rest (· = descending) →
      (Reader.optional segmentDirection).Takes (':' :: word) rest (· = some descending) := by
    intro word descending hdirection
    have hwhole : segmentDirection.Takes (':' :: word) rest (· = descending) := by
      refine Takes.cons (takes_char ':' _) fun _ _ => ?_
      refine hdirection.finish fun down hdown => ?_
      refine (takes_atElementEnd hrest).before fun _ _ => ?_
      exact (takes_pure down rest).mono fun _ heq => heq.trans hdown
    refine hwhole.optional.mono ?_
    rintro _ ⟨_, rfl, rfl⟩
    rfl
  match direction with
  | none => exact Misses.optional (Misses.bind (misses_char (hrest.head?_ne (by decide))))
  | some false =>
      exact hword (((takes_word ['a', 's', 'c'] rest).finish fun _ _ =>
        takes_pure false rest).orElse _)
  | some true =>
      refine hword (Misses.orElse (Misses.bind (misses_word ?_)) ?_)
      · rintro ⟨tail, htail⟩
        cases htail
      · exact (takes_word ['d', 'e', 's', 'c'] rest).finish fun _ _ => takes_pure true rest

/-- A segment is ascending unless it says otherwise. -/
theorem takes_directed {key : String} (hkey : Text.isIdentifier key.toList = true)
    (direction : Option Bool) {rest : List Char} (hrest : ElementEnds rest) :
    reader.Takes ("$" ++ key ++ directionText direction).toList rest fun text =>
      ∃ position, text = segment key (direction.getD false) position := by
  have hbehind : Ends Text.isIdentifierPart ((directionText direction).toList ++ rest) := by
    match direction with
    | none => exact hrest.closed.ends (by decide)
    | some false | some true =>
        intro c hc
        cases hc
        rfl
  have htext : ("$" ++ key ++ directionText direction).toList =
      ['$'] ++ (key.toList ++ (directionText direction).toList) := by
    simp
  refine Takes.orElse ?_ _
  rw [htext]
  refine takes_position_bind fun position => ?_
  refine (takes_char '$' _).bind fun _ _ => ?_
  refine (takes_identifier hkey hbehind).bind fun name hname => ?_
  refine (takes_direction direction hrest).map fun answer hanswer => ⟨position, ?_⟩
  rw [hname, hanswer, String.ofList_toList]

theorem takes_segment {key : String} (hkey : Text.isIdentifier key.toList = true)
    (descending : Bool) {rest : List Char} (hrest : ElementEnds rest) :
    reader.Takes ("$" ++ key ++ (if descending then ":desc" else "")).toList rest fun text =>
      ∃ position, text = segment key descending position := by
  cases descending with
  | false => exact takes_directed hkey none hrest
  | true => exact takes_directed hkey (some true) hrest

theorem takes_property {path : String} (hpath : Text.IsDotted path)
    {words : List (String × List String)} (hwords : ∀ word ∈ words, Qualifier.Readable word)
    {rest : List Char} (hrest : ElementEnds rest) :
    reader.Takes (Text.join ":" (path :: words.map Qualifier.written)).toList rest fun text =>
      ∃ p qualifiers, text = property p qualifiers ∧ p.path = path ∧
        qualifiers.map (fun q => (q.name, q.parameters)) = words := by
  have htext : (Text.join ":" (path :: words.map Qualifier.written)).toList =
      path.toList ++ words.flatMap fun word => ':' :: (Qualifier.written word).toList := by
    rw [Text.toList_join_cons, List.flatMap_map]
    rfl
  have hbehind : Closed ((words.flatMap fun word => ':' :: (Qualifier.written word).toList) ++
      rest) := by
    cases words with
    | nil => exact hrest.closed
    | cons word more =>
        intro c hc
        cases hc
        decide
  rw [htext]
  refine Misses.orElse ?_ ?_
  · refine misses_position_bind fun position => Misses.bind (misses_char ?_)
    rw [List.append_assoc]
    exact hpath.head?_ne _ (by decide)
  · refine (PathText.takes_reader hpath hbehind.pathEnds).bind fun p hp => ?_
    refine Takes.map (Qualifier.takes_listReader hwords hrest.closed
      (hrest.head?_ne (by decide))) fun qualifiers hqualifiers => ?_
    exact ⟨p, qualifiers, rfl, hp, hqualifiers⟩

/-- Keys are identifiers and paths are dotted identifiers. -/
def Readable : OrderText → Prop
  | segment key _ _ => Text.isIdentifier key.toList = true
  | property path _ => Text.IsDotted path.path

theorem readable_of_parse {text : String} {elements : List OrderText}
    (h : parse text = .ok elements) : ∀ element ∈ elements, element.Readable := by
  refine of_readAll (gives_separated ',' ?_) h
  refine Gives.orElse ?_ ?_
  · refine Gives.bind (gives_true _) fun position _ => Gives.bind (gives_true _) fun _ _ => ?_
    refine Gives.bind gives_identifier fun key hkey => ?_
    exact Gives.bind (gives_true _) fun _ _ => gives_pure hkey
  · refine Gives.bind PathText.gives_reader fun path hpath => ?_
    exact Gives.bind (gives_true _) fun _ _ => gives_pure hpath

end OrderText

/-! ## Projections -/

namespace ProjectionText

theorem takes_all (rest : List Char) :
    reader.Takes "*".toList rest fun text => ∃ position, text = includeAll position := by
  refine Takes.orElse ?_ _
  refine takes_position_bind fun position => ?_
  refine (takes_char '*' rest).map fun _ _ => ⟨position, rfl⟩

theorem takes_exclude {path : String} (hpath : Text.IsDotted path) {rest : List Char}
    (hrest : ElementEnds rest) :
    reader.Takes ("-" ++ path).toList rest fun text =>
      ∃ p, text = excludePath p ∧ p.path = path := by
  have htext : ("-" ++ path).toList = ['-'] ++ path.toList := by simp
  rw [htext]
  refine Misses.orElse (misses_position_bind fun position => Misses.bind (misses_char (by simp))) ?_
  refine Takes.orElse ?_ _
  refine (takes_char '-' _).bind fun _ _ => ?_
  exact (PathText.takes_reader hpath hrest.closed.pathEnds).map fun p hp => ⟨p, rfl, hp⟩

/-- An element that begins with a path is read by what follows the path. -/
theorem takes_path {path : String} (hpath : Text.IsDotted path) {tail rest : List Char}
    (htail : PathEnds (tail ++ rest)) {P : ProjectionText → Prop}
    (h : ∀ p : PathText, p.path = path → (do
      match ← Reader.optional (Reader.word ['.', '*']) with
      | some _ => return fetchPath p
      | none =>
        match ← Reader.optional (do Reader.char '/'; Reader.identifier) with
        | some key => return scopePath p key
        | none => return includePath p : Reader ProjectionText).Takes tail rest P) :
    reader.Takes (path.toList ++ tail) rest P := by
  refine Misses.orElse ?_ (Misses.orElse ?_ ?_)
  · refine misses_position_bind fun position => Misses.bind (misses_char ?_)
    rw [List.append_assoc]
    exact hpath.head?_ne _ (by decide)
  · refine Misses.bind (misses_char ?_)
    rw [List.append_assoc]
    exact hpath.head?_ne _ (by decide)
  · exact (PathText.takes_reader hpath htail).bind h

theorem takes_fetch {path : String} (hpath : Text.IsDotted path) (rest : List Char) :
    reader.Takes (path ++ ".*").toList rest fun text =>
      ∃ p, text = fetchPath p ∧ p.path = path := by
  rw [String.toList_append]
  refine takes_path hpath ⟨?_, ?_⟩ fun p hp => ?_
  · intro c hc
    cases hc
    rfl
  · intro more hmore c hc
    cases hmore
    cases hc
    rfl
  · refine (takes_word ['.', '*'] _).optional.finish fun answer hanswer => ?_
    obtain ⟨_, rfl, -⟩ := hanswer
    exact (takes_pure (fetchPath p) rest).mono fun _ heq => ⟨p, heq, hp⟩

theorem takes_scope {path key : String} (hpath : Text.IsDotted path)
    (hkey : Text.isIdentifier key.toList = true) {rest : List Char} (hrest : ElementEnds rest) :
    reader.Takes (path ++ "/" ++ key).toList rest fun text =>
      ∃ p, text = scopePath p key ∧ p.path = path := by
  have htext : (path ++ "/" ++ key).toList = path.toList ++ ('/' :: key.toList) := by simp
  rw [htext]
  refine takes_path hpath ⟨?_, ?_⟩ fun p hp => ?_
  · intro c hc
    cases hc
    rfl
  · intro more hmore
    cases hmore
  · refine (Misses.optional (misses_word ?_)).before fun answer hanswer => ?_
    · rintro ⟨tail, htail⟩
      cases htail
    subst hanswer
    have hname : (do Reader.char '/'; Reader.identifier : Reader String).Takes
        ('/' :: key.toList) rest fun name => name = key := by
      refine (takes_char '/' _).cons fun _ _ => ?_
      refine (takes_identifier hkey (hrest.closed.ends (by decide))).mono fun name hname => ?_
      rw [hname, String.ofList_toList]
    refine hname.optional.finish fun answer hanswer => ?_
    obtain ⟨_, rfl, rfl⟩ := hanswer
    exact (takes_pure _ rest).mono fun _ heq => ⟨p, heq, hp⟩

theorem takes_include {path : String} (hpath : Text.IsDotted path) {rest : List Char}
    (hrest : ElementEnds rest) :
    reader.Takes path.toList rest fun text => ∃ p, text = includePath p ∧ p.path = path := by
  have hplain : reader.Takes (path.toList ++ []) rest fun text =>
      ∃ p, text = includePath p ∧ p.path = path := by
    have hends : PathEnds ([] ++ rest) := hrest.closed.pathEnds
    refine takes_path hpath hends fun p hp => ?_
    refine (Misses.optional (misses_word ?_)).before fun answer hanswer => ?_
    · rintro ⟨tail, htail⟩
      have hcomma := hrest '.' (by rw [List.nil_append] at htail; rw [← htail]; rfl)
      cases hcomma
    subst hanswer
    refine (Misses.optional (Misses.bind (misses_char ?_))).finish fun answer hanswer => ?_
    · exact hrest.head?_ne (by decide)
    subst hanswer
    exact (takes_pure _ rest).mono fun _ heq => ⟨p, heq, hp⟩
  rwa [List.append_nil] at hplain

/-- Keys are identifiers and paths are dotted identifiers. -/
def Readable : ProjectionText → Prop
  | includeAll _ => True
  | includePath path | excludePath path | fetchPath path => Text.IsDotted path.path
  | scopePath path key => Text.IsDotted path.path ∧ Text.isIdentifier key.toList = true

theorem readable_of_parse {text : String} {elements : List ProjectionText}
    (h : parse text = .ok elements) : ∀ element ∈ elements, element.Readable := by
  refine of_readAll (gives_separated ',' ?_) h
  refine Gives.orElse ?_ (Gives.orElse ?_ ?_)
  · refine Gives.bind (gives_true _) fun position _ => Gives.bind (gives_true _) fun _ _ => ?_
    exact gives_pure trivial
  · refine Gives.bind (gives_true _) fun _ _ => ?_
    exact Gives.bind PathText.gives_reader fun path hpath => gives_pure hpath
  · refine Gives.bind PathText.gives_reader fun path hpath => ?_
    refine Gives.bind (gives_true _) fun fetched _ => ?_
    cases fetched with
    | some _ => exact gives_pure hpath
    | none =>
        have hkey : (do Reader.char '/'; Reader.identifier : Reader String).Gives fun key =>
            Text.isIdentifier key.toList = true :=
          Gives.bind (gives_true _) fun _ _ => gives_identifier
        refine Gives.bind hkey.optional fun answer hanswer => ?_
        cases answer with
        | none => exact gives_pure hpath
        | some key => exact gives_pure ⟨hpath, hanswer key rfl⟩

end ProjectionText

/-! ## References and ranges -/

namespace PathText

/-- A list of paths that can be read is read. -/
theorem parseList_join {paths : List String} (hne : paths ≠ [])
    (hpaths : ∀ path ∈ paths, Text.IsDotted path) :
    ∃ texts, parseList (Text.join "," paths) = .ok texts ∧ texts.map PathText.path = paths := by
  have hread : ∀ path ∈ paths, ∀ rest, ElementEnds rest →
      reader.Takes (id path).toList rest fun text => text.path = path :=
    fun path hpath rest hrest => takes_reader (hpaths path hpath) hrest.closed.pathEnds
  obtain ⟨texts, hparse, htexts⟩ := readAll_separated "reference list" hne hread
  rw [List.map_id] at hparse
  refine ⟨texts, hparse, ?_⟩
  rw [← List.forall₂_eq_eq_eq, List.forall₂_map_left_iff]
  exact htexts.flip

theorem readable_of_parseList {text : String} {texts : List PathText}
    (h : parseList text = .ok texts) : ∀ path ∈ texts, Text.IsDotted path.path :=
  of_readAll (gives_separated ',' gives_reader) h

end PathText

namespace Range

theorem takes_number {n : Nat} (hn : n ≤ greatest) {rest : List Char}
    (hrest : Ends Char.isDigit rest) :
    numberReader.Takes (Numeral.digits n) rest fun value => value = n := by
  refine takes_position_bind fun position => ?_
  have hdigits := takes_run1 (Numeral.digits_ne_nil n)
    (fun c hc => Numeral.isDigit_of_mem_digits hc) hrest
  refine hdigits.finish fun digits hvalue => ?_
  rw [hvalue, Numeral.value_digits]
  simp only [if_pos hn]
  exact takes_pure n rest

theorem gives_number : numberReader.Gives fun n => n ≤ greatest := by
  refine Gives.bind (gives_true _) fun position _ => Gives.bind (gives_true _) fun digits _ => ?_
  intro cursor value after h
  simp only at h
  split at h
  · rename_i hle
    cases h
    exact hle
  · cases h

theorem le_of_parse {text : String} {r : Range} (h : parse text = .ok r) :
    r.first ≤ greatest ∧ r.count ≤ greatest := by
  refine of_readAll (P := fun r => r.first ≤ greatest ∧ r.count ≤ greatest) ?_ h
  refine Gives.bind gives_number fun first hfirst => Gives.bind (gives_true _) fun _ _ => ?_
  exact Gives.bind gives_number fun count hcount => gives_pure ⟨hfirst, hcount⟩

/-- A range is read as it was written. -/
theorem parse_encode {r : Range} (hfirst : r.first ≤ greatest) (hcount : r.count ≤ greatest) :
    parse r.encode = .ok r := by
  have htakes : reader.Takes r.encode.toList [] fun value => value = r := by
    have htext : r.encode.toList =
        Numeral.digits r.first ++ ([','] ++ Numeral.digits r.count) := by
      simp [encode, Numeral.ofNat]
    rw [htext]
    refine (takes_number hfirst fun c hc => ?_).bind fun first hfirst => ?_
    · cases hc
      rfl
    refine (takes_char ',' _).bind fun _ _ => ?_
    refine (takes_number hcount (by simp [Ends])).map fun count hcount => ?_
    rw [hfirst, hcount]
  obtain ⟨value, hparse, rfl⟩ := readAll_of_takes "range" htakes
  exact hparse

end Range

end ResourceQuery
