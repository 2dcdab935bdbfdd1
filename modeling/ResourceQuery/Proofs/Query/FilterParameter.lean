import ResourceQuery.Proofs.Query.Reader
import ResourceQuery.Query.FilterParameter
import ResourceQuery.Text.Piece
/-!
# Names of filter parameters read back

The name that is put together of the segments of a group and of a condition is read as that group
and that condition. What is read of any name is put together of identifiers.
-/

namespace ResourceQuery

namespace Text

/-- Dotted identifiers. -/
def IsDotted (text : String) : Prop :=
  ∃ first others, text = join "." (first :: others) ∧
    ∀ name ∈ first :: others, isIdentifier name.toList = true

/-- A character that is not in what is put together is not in the text. -/
theorem notMem_join {c : Char} {separator first : String} {others : List String}
    (hseparator : c ∉ separator.toList) (h : ∀ name ∈ first :: others, c ∉ name.toList) :
    c ∉ (join separator (first :: others)).toList := by
  rw [toList_join_cons, List.mem_append, List.mem_flatMap]
  rintro (hfirst | ⟨name, hother, hmem⟩)
  · exact h first List.mem_cons_self hfirst
  · rcases List.mem_append.1 hmem with hmem | hmem
    · exact hseparator hmem
    · exact h name (List.mem_cons_of_mem _ hother) hmem

theorem notMem_of_isIdentifier {c : Char} (hc : isIdentifierPart c = false) {name : List Char}
    (h : isIdentifier name = true) : c ∉ name := by
  intro hmem
  rw [isIdentifierPart_of_mem h c hmem] at hc
  cases hc

/-- A dotted text has no character in it but those of identifiers, and dots. -/
theorem IsDotted.notMem {c : Char} (hc : isIdentifierPart c = false) (hdot : c ≠ '.')
    {text : String} (h : IsDotted text) : c ∉ text.toList := by
  obtain ⟨first, others, rfl, hnames⟩ := h
  refine notMem_join (by simpa using hdot) fun name hname => ?_
  exact notMem_of_isIdentifier hc (hnames name hname)

end Text

namespace Reader

/-- Only what ends a path or a qualifier follows. -/
def Closed (text : List Char) : Prop := ∀ c ∈ text.head?, c ∈ [':', '!', ',']

theorem Closed.ends {text : List Char} (h : Closed text) {p : Char → Bool}
    (hp : [':', '!', ','].all (fun c => !p c) = true) : Ends p text := by
  intro c hc
  have hnot := List.all_eq_true.1 hp c (h c hc)
  simpa using hnot

/-- No further segment of a path follows. -/
structure PathEnds (text : List Char) : Prop where
  ends : Ends Text.isIdentifierPart text
  point : ∀ more, text = '.' :: more → Ends Text.isIdentifierStart more

theorem Closed.head?_ne {text : List Char} (h : Closed text) {c : Char}
    (hne : c ∉ [':', '!', ',']) : text.head? ≠ some c := fun heq => hne (h c heq)

theorem Closed.pathEnds {text : List Char} (h : Closed text) : PathEnds text where
  ends := h.ends (by decide)
  point := by
    rintro more rfl
    exact absurd rfl (h.head?_ne (c := '.') (by decide))

end Reader

open Reader

/-! ## Paths -/

theorem PathText.takes_reader {path : String} (hpath : Text.IsDotted path) {rest : List Char}
    (hrest : PathEnds rest) : PathText.reader.Takes path.toList rest fun text => text.path = path := by
  obtain ⟨first, others, rfl, hnames⟩ := hpath
  refine takes_position_bind fun position => ?_
  have hsegments : (separated1 '.' identifier).Takes
      (first.toList ++ others.flatMap fun name => '.' :: name.toList) rest
      (List.Forall₂ (fun name value => value = name) (first :: others)) :=
    takes_separated1 (Ends Text.isIdentifierPart)
      hrest.ends (fun more c hc => by cases hc; rfl)
      (fun name hname more hmore => by
        simpa using takes_identifier (hnames name hname) hmore)
      (misses_separator fun more hmore => misses_identifier (hrest.point more hmore))
  rw [Text.toList_join_cons]
  refine Takes.map (f := fun segments => (⟨Text.join "." segments, position⟩ : PathText))
    hsegments fun segments hsegments => ?_
  have heq : segments = first :: others := by
    rw [← List.forall₂_eq_eq_eq]
    exact hsegments.flip
  rw [heq]

theorem PathText.gives_reader : PathText.reader.Gives fun text => Text.IsDotted text.path := by
  refine Gives.bind (gives_true _) fun position _ => ?_
  refine Gives.bind (gives_separated1 '.' gives_identifier) fun segments hsegments => ?_
  refine gives_pure ?_
  obtain ⟨hne, hnames⟩ := hsegments
  cases segments with
  | nil => exact absurd rfl hne
  | cons first others => exact ⟨first, others, rfl, hnames⟩

/-! ## Qualifiers -/

/-- The name and the parameters of a qualifier can be read back. -/
structure Qualifier.Readable (word : String × List String) : Prop where
  name : Text.isIdentifier word.1.toList = true
  parameters : ∀ p ∈ word.2, p.toList ≠ [] ∧ ∀ c ∈ p.toList, Qualifier.isParameterPart c = true

/-- A qualifier as written. -/
def Qualifier.written (word : String × List String) : String := Text.join "-" (word.1 :: word.2)

theorem Qualifier.isParameterPart_of_isIdentifierPart {c : Char}
    (h : Text.isIdentifierPart c = true) : Qualifier.isParameterPart c = true := by
  simp only [Text.isIdentifierPart, Bool.or_eq_true] at h
  simp only [Qualifier.isParameterPart, Bool.or_eq_true]
  exact .inl (.inl h)

theorem Qualifier.takes_reader {word : String × List String} (hword : Qualifier.Readable word)
    {rest : List Char} (hrest : Closed rest) :
    Qualifier.reader.Takes (Qualifier.written word).toList rest
      fun q => (q.name, q.parameters) = word := by
  refine takes_position_bind fun position => ?_
  have hends : Ends Qualifier.isParameterPart rest := hrest.ends (by decide)
  have hparameters : Takes
      (many (do Reader.char '-'; Reader.run1 Qualifier.isParameterPart) : Reader (List (List Char)))
      (word.2.flatMap fun p => '-' :: p.toList) rest
      (List.Forall₂ (fun p value => value = p.toList) word.2) := by
    refine takes_many (Ends Qualifier.isParameterPart) hends (fun p more c hc => by cases hc; rfl)
      (by simp) ?_ (Misses.bind (misses_char (hrest.head?_ne (by decide))))
    intro p hp more hmore
    obtain ⟨hne, hall⟩ := hword.parameters p hp
    exact (takes_char '-' _).bind fun _ _ => takes_run1 hne hall hmore
  have hbehind : Ends Qualifier.isParameterPart
      ((word.2.flatMap fun p => '-' :: p.toList) ++ rest) := by
    cases word.2 with
    | nil => exact hends
    | cons p more =>
        intro c hc
        cases hc
        rfl
  have hname := takes_identifier hword.name
    (hbehind.mono fun c => Qualifier.isParameterPart_of_isIdentifierPart)
  rw [Qualifier.written, Text.toList_join_cons]
  refine Takes.bind hname fun name hname => ?_
  refine Takes.map (f := fun parameters =>
      (⟨name, parameters.map String.ofList, position⟩ : Qualifier))
    hparameters fun parameters hparameters => ?_
  have heq : parameters = word.2.map String.toList := by
    rw [← List.forall₂_eq_eq_eq, List.forall₂_map_right_iff]
    exact hparameters.flip
  rw [heq, hname]
  simp

theorem Qualifier.takes_listReader {words : List (String × List String)}
    (hwords : ∀ word ∈ words, Qualifier.Readable word) {rest : List Char} (hrest : Closed rest)
    (hcolon : rest.head? ≠ some ':') :
    Qualifier.listReader.Takes (words.flatMap fun word => ':' :: (Qualifier.written word).toList)
      rest fun qualifiers => qualifiers.map (fun q => (q.name, q.parameters)) = words := by
  have hmany : Takes (many (do Reader.char ':'; Qualifier.reader) : Reader (List Qualifier))
      (words.flatMap fun word => ':' :: (Qualifier.written word).toList) rest
      (List.Forall₂ (fun word q => (q.name, q.parameters) = word) words) := by
    refine takes_many Closed hrest (fun word more c hc => by cases hc; simp) (by simp)
      ?_ (Misses.bind (misses_char hcolon))
    intro word hword more hmore
    exact (takes_char ':' _).bind fun _ _ => Qualifier.takes_reader (hwords word hword) hmore
  refine hmany.mono fun qualifiers hqualifiers => ?_
  rw [← List.forall₂_eq_eq_eq, List.forall₂_map_left_iff]
  exact hqualifiers.flip

/-! ## Conditions -/

/-- A condition on one path as written. -/
def ConditionText.written (path : String) (words : List (String × List String)) (negated : Bool) :
    String :=
  Text.join ":" (path :: words.map Qualifier.written) ++ (if negated then "!" else "")

/-- A condition is read behind its properties, its qualifiers and the mark of a negation. -/
theorem ConditionText.takes_tests {path : String} {others : List String}
    (hpaths : ∀ name ∈ path :: others, Text.IsDotted name) {words : List (String × List String)}
    (hwords : ∀ word ∈ words, Qualifier.Readable word) (negated : Bool) :
    ConditionText.reader.Takes ((Text.join "," (path :: others)).toList ++
      ((words.flatMap fun word => ':' :: (Qualifier.written word).toList) ++
        (if negated then "!" else "").toList)) [] fun text =>
      text.paths.map PathText.path = path :: others ∧
        text.qualifiers.map (fun q => (q.name, q.parameters)) = words ∧
        text.negated = negated := by
  -- what is behind the paths: qualifiers and the mark of a negation
  have hmark : (if negated then "!" else "").toList.head? ≠ some ':' := by
    cases negated <;> decide
  have hclosed : Closed ((if negated then "!" else "").toList ++ []) := by
    intro c hc
    cases negated with
    | false => cases hc
    | true =>
        cases hc
        decide
  have hbehind : Closed ((words.flatMap fun word => ':' :: (Qualifier.written word).toList) ++
      ((if negated then "!" else "").toList ++ [])) := by
    cases words with
    | nil => simpa using hclosed
    | cons word more =>
        intro c hc
        cases hc
        decide
  have hpaths : (separated1 ',' PathText.reader).Takes
      (path.toList ++ others.flatMap fun name => ',' :: name.toList)
      ((words.flatMap fun word => ':' :: (Qualifier.written word).toList) ++
        ((if negated then "!" else "").toList ++ []))
      fun paths => paths.map PathText.path = path :: others := by
    have hlist : (separated1 ',' PathText.reader).Takes _ _ _ :=
      takes_separated1 Closed hbehind (fun more c hc => by cases hc; decide)
        (fun name hname more hmore => PathText.takes_reader (hpaths name hname) hmore.pathEnds)
        (Misses.bind (misses_char (by cases words <;> cases negated <;> simp)))
    refine hlist.mono fun paths hpaths => ?_
    rw [← List.forall₂_eq_eq_eq, List.forall₂_map_left_iff]
    exact hpaths.flip
  have hnegation : (Reader.optional (Reader.char '!')).Takes (if negated then "!" else "").toList []
      fun negation => negation.isSome = negated := by
    cases negated with
    | false =>
        refine (Misses.optional (misses_char (by decide))).mono ?_
        rintro _ rfl
        rfl
    | true =>
        refine (takes_char '!' []).optional.mono ?_
        rintro _ ⟨_, rfl, -⟩
        rfl
  rw [Text.toList_join_cons]
  refine Takes.bind (by rw [List.append_assoc]; exact hpaths) fun paths hpaths => ?_
  refine Takes.bind (Qualifier.takes_listReader hwords hclosed (by simpa using hmark))
    fun qualifiers hqualifiers => ?_
  exact hnegation.map fun negation hnegation => ⟨hpaths, hqualifiers, hnegation⟩

theorem ConditionText.takes_reader {path : String} (hpath : Text.IsDotted path)
    {words : List (String × List String)} (hwords : ∀ word ∈ words, Qualifier.Readable word)
    (negated : Bool) :
    ConditionText.reader.Takes (ConditionText.written path words negated).toList [] fun text =>
      text.paths.map PathText.path = [path] ∧
        text.qualifiers.map (fun q => (q.name, q.parameters)) = words ∧
        text.negated = negated := by
  have htext : (ConditionText.written path words negated).toList =
      (Text.join "," [path]).toList ++
        ((words.flatMap fun word => ':' :: (Qualifier.written word).toList) ++
          (if negated then "!" else "").toList) := by
    rw [ConditionText.written, String.toList_append, Text.toList_join_cons, List.flatMap_map,
      List.append_assoc]
    rfl
  rw [htext]
  exact takes_tests (by simpa using hpath) hwords negated

theorem ConditionText.gives_reader :
    ConditionText.reader.Gives fun text => ∀ path ∈ text.paths, Text.IsDotted path.path := by
  refine Gives.bind (gives_separated1 ',' PathText.gives_reader) fun paths hpaths => ?_
  refine Gives.bind (gives_true _) fun qualifiers _ => ?_
  exact Gives.bind (gives_true _) fun negation _ => gives_pure hpaths.2

/-! ## Groups -/

/-- The segments of the key of a group: an identifier, and names made of letters, digits and
underscores. -/
structure GroupKey.Readable (root : String) (groups : List String) : Prop where
  root : Text.isIdentifier root.toList = true
  groups : ∀ name ∈ groups, name.toList ≠ [] ∧ ∀ c ∈ name.toList, Text.isIdentifierPart c = true

theorem GroupKey.takes_reader {root : String} {groups : List String}
    (hkey : GroupKey.Readable root groups) {rest : List Char}
    (hrest : ∀ c ∈ rest.head?, c ∈ ['$', '@']) :
    GroupKey.reader.Takes (Text.join "." (root :: groups)).toList rest
      fun key => key = ⟨root :: groups⟩ := by
  have hends : Ends Text.isIdentifierPart rest := by
    intro c hc
    have hall : ['$', '@'].all (fun c => !Text.isIdentifierPart c) = true := by decide
    have hnot := List.all_eq_true.1 hall c (hrest c hc)
    simpa using hnot
  have hpoint : rest.head? ≠ some '.' := by
    intro heq
    have := hrest '.' heq
    simp at this
  have hgroups : Takes
      (many (do Reader.char '.'; Reader.run1 Text.isIdentifierPart) : Reader (List (List Char)))
      (groups.flatMap fun name => '.' :: name.toList) rest
      (List.Forall₂ (fun name value => value = name.toList) groups) := by
    refine takes_many (Ends Text.isIdentifierPart) hends (fun name more c hc => by cases hc; rfl)
      (by simp) ?_ (Misses.bind (misses_char hpoint))
    intro name hname more hmore
    obtain ⟨hne, hall⟩ := hkey.groups name hname
    exact (takes_char '.' _).bind fun _ _ => takes_run1 hne hall hmore
  have hbehind : Ends Text.isIdentifierPart
      ((groups.flatMap fun name => '.' :: name.toList) ++ rest) := by
    cases groups with
    | nil => exact hends
    | cons name more =>
        intro c hc
        cases hc
        rfl
  rw [Text.toList_join_cons]
  refine Takes.bind (takes_identifier hkey.root hbehind) fun first hfirst => ?_
  refine Takes.map (f := fun groups => (⟨first :: groups.map String.ofList⟩ : GroupKey))
    hgroups fun names hnames => ?_
  have heq : names = groups.map String.toList := by
    rw [← List.forall₂_eq_eq_eq, List.forall₂_map_right_iff]
    exact hnames.flip
  rw [heq, hfirst]
  simp

theorem GroupKey.gives_reader :
    GroupKey.reader.Gives fun key => ∃ root groups, key = ⟨root :: groups⟩ ∧
      Text.isIdentifier root.toList = true := by
  refine Gives.bind gives_identifier fun root hroot => ?_
  exact Gives.bind (gives_true _) fun groups _ => gives_pure ⟨root, _, rfl, hroot⟩

theorem GroupKey.advances_reader : GroupKey.reader.Advances :=
  advances_identifier.bind fun _ =>
    (advances_many ((advances_char '.').bind fun _ => advances_run1 _)).bind fun _ =>
      advances_pure _

/-! ## Parameters -/

namespace FilterParameter

theorem takes_marker {c : Char} (hc : c ∈ ['$', '@']) (rest : List Char) :
    marker.Takes [c] rest fun value => value = c := by
  have hsign : ∀ sign : Char,
      (do Reader.char sign; return sign : Reader Char).Takes [sign] rest fun value => value = sign :=
    fun sign => (takes_char sign rest).bind fun _ _ => takes_pure sign rest
  by_cases hdollar : c = '$'
  · subst hdollar
    exact (hsign '$').orElse _
  · obtain rfl : c = '@' := by simpa [hdollar] using hc
    exact Misses.orElse (Misses.bind (misses_char (by simp))) (hsign '@')

/-- The text that opens the name of a parameter: the key of a group and the marker. -/
def opening (root : String) (groups : List String) (c : Char) : String :=
  Text.join "." (root :: groups) ++ String.singleton c

variable {root : String} {groups : List String}

/-- A name reads as its group and what the reader behind the marker takes. -/
theorem parse_opening (hkey : GroupKey.Readable root groups) {rest : String}
    {P : FilterParameter → Prop}
    (hrest : (do
      match ← Reader.optional ConditionText.reader with
      | some text => return condition ⟨root :: groups⟩ text
      | none => return junction ⟨root :: groups⟩ : Reader FilterParameter).Takes rest.toList [] P) :
    ∃ p, parse (opening root groups '$' ++ rest) = .ok p ∧ P p := by
  apply readAll_of_takes
  have hmark : ∀ c ∈ (['$'] ++ (rest.toList ++ [])).head?, c ∈ ['$', '@'] := by simp
  have hgroup := GroupKey.takes_reader hkey hmark
  have hchars : (opening root groups '$' ++ rest).toList =
      (Text.join "." (root :: groups)).toList ++ (['$'] ++ rest.toList) := by
    simp [opening]
  rw [hchars]
  refine Takes.bind (by rw [List.append_assoc]; exact hgroup) ?_
  rintro _ rfl
  refine Takes.bind (takes_marker (by simp) _) ?_
  rintro _ rfl
  exact hrest

theorem misses_condition : ConditionText.reader.Misses [] := by
  have hpath : PathText.reader.Misses [] := misses_position_bind fun position =>
    Misses.bind (Misses.bind (Misses.bind (misses_run1 fun c hc => by cases hc)))
  exact Misses.bind (Misses.bind hpath)

theorem parse_junction (hkey : GroupKey.Readable root groups) :
    parse (opening root groups '$') = .ok (junction ⟨root :: groups⟩) := by
  have htakes : (do
      match ← Reader.optional ConditionText.reader with
      | some text => return condition ⟨root :: groups⟩ text
      | none => return junction ⟨root :: groups⟩ : Reader FilterParameter).Takes "".toList []
      fun p => p = junction ⟨root :: groups⟩ := by
    have hnone : (Reader.optional ConditionText.reader).Takes [] ([] ++ []) (· = none) :=
      Misses.optional misses_condition
    apply hnone.bind
    rintro _ rfl
    exact takes_pure _ _
  obtain ⟨p, hparse, rfl⟩ := parse_opening hkey htakes
  rw [← hparse, String.append_empty]

/-- A name reads as its group and the condition behind the marker. -/
theorem parse_of_takes (hkey : GroupKey.Readable root groups) {rest : String}
    {P : ConditionText → Prop} (hrest : ConditionText.reader.Takes rest.toList [] P) :
    ∃ text, parse (opening root groups '$' ++ rest) = .ok (condition ⟨root :: groups⟩ text) ∧
      P text := by
  have htakes : (do
      match ← Reader.optional ConditionText.reader with
      | some text => return condition ⟨root :: groups⟩ text
      | none => return junction ⟨root :: groups⟩ : Reader FilterParameter).Takes rest.toList []
      fun p => ∃ text, p = condition ⟨root :: groups⟩ text ∧ P text := by
    rw [← List.append_nil rest.toList]
    apply hrest.optional.bind
    rintro _ ⟨text, rfl, htext⟩
    apply (takes_pure _ _).mono
    rintro _ rfl
    exact ⟨text, rfl, htext⟩
  obtain ⟨p, hparse, text, rfl, htext⟩ := parse_opening hkey htakes
  exact ⟨text, hparse, htext⟩

theorem parse_condition (hkey : GroupKey.Readable root groups) {path : String}
    (hpath : Text.IsDotted path) {words : List (String × List String)}
    (hwords : ∀ word ∈ words, Qualifier.Readable word) (negated : Bool) :
    ∃ text : ConditionText,
      parse (opening root groups '$' ++ ConditionText.written path words negated) =
        .ok (condition ⟨root :: groups⟩ text) ∧
      text.paths.map PathText.path = [path] ∧
      text.qualifiers.map (fun q => (q.name, q.parameters)) = words ∧ text.negated = negated :=
  parse_of_takes hkey (ConditionText.takes_reader hpath hwords negated)

theorem parse_basePath (hroot : Text.isIdentifier root.toList = true) :
    parse (opening root [] '@') = .ok (basePath root) := by
  have hkey : GroupKey.Readable root [] := ⟨hroot, by simp⟩
  have hmark : ∀ c ∈ ['@'].head?, c ∈ ['$', '@'] := by simp
  have hgroup := GroupKey.takes_reader hkey hmark
  have htakes : reader.Takes (opening root [] '@').toList [] fun p => p = basePath root := by
    have hchars : (opening root [] '@').toList = (Text.join "." [root]).toList ++ ['@'] := by
      simp [opening]
    rw [hchars]
    refine Takes.bind hgroup ?_
    rintro _ rfl
    rw [← List.append_nil ['@']]
    refine Takes.bind (takes_marker (by simp) _) ?_
    rintro _ rfl
    exact takes_pure _ _
  obtain ⟨p, hparse, rfl⟩ := readAll_of_takes "filter parameter" htakes
  exact hparse

/-- The key of the filter that a parameter is about. -/
def key : FilterParameter → String
  | junction group => group.root
  | basePath key => key
  | condition group _ => group.root

/-- What is read of a name: identifiers, and the segments of a group begin with the key of its
filter. -/
structure Sound (p : FilterParameter) : Prop where
  key : Text.isIdentifier p.key.toList = true
  group : ∀ group, p = junction group ∨ (∃ text, p = condition group text) →
    group.segments.head? = some p.key
  paths : ∀ group text, p = condition group text → ∀ path ∈ text.paths, Text.IsDotted path.path

theorem gives_reader : reader.Gives Sound := by
  refine Gives.bind GroupKey.gives_reader ?_
  rintro group ⟨root, groups, rfl, hroot⟩
  refine Gives.bind (gives_true _) fun c _ => ?_
  split
  · split
    · exact gives_pure ⟨hroot, by simp, by simp⟩
    · intro cursor value after h
      cases h
  · refine Gives.bind ConditionText.gives_reader.optional fun answer hanswer => ?_
    cases answer with
    | none => exact gives_pure ⟨hroot, by simp [FilterParameter.key, GroupKey.root], by simp⟩
    | some text =>
        refine gives_pure ⟨hroot, by simp [FilterParameter.key, GroupKey.root], ?_⟩
        intro group other heq
        cases heq
        exact hanswer text rfl

theorem sound_of_parse {name : String} {p : FilterParameter} (h : parse name = .ok p) : p.Sound :=
  of_readAll gives_reader h

/-- The name of a parameter is addressed to the filter that it is about. -/
theorem root?_of_parse {name : String} {p : FilterParameter} (h : parse name = .ok p) :
    root? name = some p.key := by
  unfold parse Reader.readAll at h
  split at h
  swap
  · cases h
  rename_i value last hread
  cases h
  obtain ⟨⟨_, between⟩, hvalue, hend⟩ := bind_eq_ok_iff.1 hread
  obtain ⟨⟨_, _⟩, -, hpure⟩ := bind_eq_ok_iff.1 hend
  cases hpure
  obtain ⟨⟨group, behind⟩, hgroup, hrest⟩ := bind_eq_ok_iff.1 hvalue
  obtain ⟨⟨c, after⟩, hmarker, hrest⟩ := bind_eq_ok_iff.1 hrest
  have hroot : root? name = some group.root := by
    have hboth : (do let group ← GroupKey.reader; let _ ← marker; return group : Reader GroupKey)
        (Cursor.start name) = .ok (group, after) := by
      rw [bind_apply, hgroup, ok_bind, bind_apply, hmarker]
      rfl
    rw [root?, hboth]
  rw [hroot]
  simp only at hrest
  split at hrest
  · split at hrest
    · cases hrest
      rfl
    · cases hrest
  · obtain ⟨⟨answer, _⟩, -, hrest⟩ := bind_eq_ok_iff.1 hrest
    cases answer <;> cases hrest <;> rfl

/-- A marker stands where it is read. -/
theorem marker_ok {cursor after : Cursor} {c : Char} (h : marker cursor = .ok (c, after)) :
    c ∈ ['$', '@'] ∧ c ∈ cursor.rest := by
  have hsign : ∀ sign : Char, ∀ {after : Cursor} {c : Char},
      (do Reader.char sign; return sign : Reader Char) cursor = .ok (c, after) →
        c = sign ∧ c ∈ cursor.rest := by
    intro sign after c hread
    obtain ⟨⟨_, between⟩, hchar, hpure⟩ := bind_eq_ok_iff.1 hread
    cases hpure
    unfold Reader.char at hchar
    split at hchar
    · cases hchar
    · rename_i d rest hrest
      split at hchar
      · rename_i hd
        simp [hrest, hd]
      · cases hchar
  unfold marker Reader.orElse at h
  split at h
  · obtain ⟨rfl, hmem⟩ := hsign '@' h
    exact ⟨by simp, hmem⟩
  · obtain ⟨rfl, hmem⟩ := hsign '$' h
    exact ⟨by simp, hmem⟩

/-- A name that is addressed to a filter holds a marker. -/
theorem marker_mem_of_root? {name root : String} (h : root? name = some root) :
    '$' ∈ name.toList ∨ '@' ∈ name.toList := by
  unfold root? at h
  split at h
  swap
  · cases h
  rename_i group last hread
  obtain ⟨⟨key, between⟩, hgroup, hrest⟩ := bind_eq_ok_iff.1 hread
  obtain ⟨⟨c, after⟩, hmarker, -⟩ := bind_eq_ok_iff.1 hrest
  obtain ⟨hc, hmem⟩ := marker_ok hmarker
  have hname : c ∈ name.toList := (GroupKey.advances_reader _ _ _ hgroup).subset hmem
  rcases List.mem_cons.1 hc with rfl | hc
  · exact .inl hname
  · obtain rfl : c = '@' := by simpa using hc
    exact .inr hname

end FilterParameter

end ResourceQuery
