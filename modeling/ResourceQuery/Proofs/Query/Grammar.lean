import ResourceQuery.Proofs.Query.ListText
import ResourceQuery.Proofs.Query.Spelling
/-!
# The grammars of parameter texts

How the syntax trees of filter parameters, orders, projections and reference lists are spelled, and
that their readers keep to it (`Grammar.Exact`): a well-formed tree is read from each of its
spellings, and whatever is read spells the text, with every place in the tree where its piece
stands. In one direction the readers are followed with `Takes`, in the other one with `Spells`.
-/

namespace ResourceQuery

open Reader Piece

/-- How texts are read, and what they are read as: the trees that can be written, their written
form, everything that counts as a spelling of one, and a tree without its places. -/
structure Grammar (T : Type) where
  parse : String → Except Fault T
  WellFormed : T → Prop
  written : T → List Piece
  Spelling : T → List Piece → Prop
  unplaced : T → T

namespace Grammar

variable {T : Type}

/-- Trees are read from all their spellings, a text spells what it is read as, place by place, and
no text spells two trees. -/
structure Exact (g : Grammar T) : Prop where
  written : ∀ tree, g.WellFormed tree → g.Spelling tree (g.written tree)
  reads : ∀ tree pieces, g.WellFormed tree → g.Spelling tree pieces →
    ∃ read, g.parse (textOf pieces) = .ok read ∧ g.unplaced read = g.unplaced tree
  spelled : ∀ text tree, g.parse text = .ok tree → g.WellFormed tree ∧
    ∃ pieces, g.Spelling tree pieces ∧ textOf pieces = text ∧ Located 0 pieces
  unambiguous : ∀ tree pieces other others, g.WellFormed tree → g.Spelling tree pieces →
    g.WellFormed other → g.Spelling other others → textOf pieces = textOf others →
    g.unplaced tree = g.unplaced other

/-- One text has one reading, so a tree that is read from all its spellings shares none. -/
theorem Exact.of_reads {g : Grammar T}
    (hwritten : ∀ tree, g.WellFormed tree → g.Spelling tree (g.written tree))
    (hreads : ∀ tree pieces, g.WellFormed tree → g.Spelling tree pieces →
      ∃ read, g.parse (textOf pieces) = .ok read ∧ g.unplaced read = g.unplaced tree)
    (hspelled : ∀ text tree, g.parse text = .ok tree → g.WellFormed tree ∧
      ∃ pieces, g.Spelling tree pieces ∧ textOf pieces = text ∧ Located 0 pieces) : g.Exact where
  written := hwritten
  reads := hreads
  spelled := hspelled
  unambiguous := by
    intro tree pieces other others htree hpieces hother hothers heq
    obtain ⟨read, hread, hunplaced⟩ := hreads tree pieces htree hpieces
    obtain ⟨again, hagain, hsame⟩ := hreads other others hother hothers
    rw [heq, hagain] at hread
    cases hread
    rw [← hunplaced, hsame]

/-- Elements between commas. -/
def listOf (parse : String → Except Fault (List T)) (WellFormed : T → Prop)
    (written : T → List Piece) (Spelling : T → List Piece → Prop) (unplaced : T → T) :
    Grammar (List T) where
  parse := parse
  WellFormed elements := ∀ element ∈ elements, WellFormed element
  written elements := [mark ","].intercalate (elements.map written)
  Spelling := Listed "," Spelling
  unplaced := List.map unplaced

/-- A list is read exactly if its elements are, whatever element follows them. -/
theorem listOf_exact {what : String} {read : Reader T} {parse : String → Except Fault (List T)}
    {WellFormed : T → Prop} {written : T → List Piece} {Spelling : T → List Piece → Prop}
    {unplaced : T → T} (hparse : parse = readAll what (separated ',' read))
    (hwritten : ∀ element, WellFormed element → Spelling element (written element))
    (hmisses : read.Misses [])
    (htakes : ∀ element pieces rest, WellFormed element → Spelling element pieces →
      ElementEnds rest →
      read.Takes (textOf pieces).toList rest fun value => unplaced value = unplaced element)
    (hspells : read.Spells fun element pieces => WellFormed element ∧ Spelling element pieces) :
    (listOf parse WellFormed written Spelling unplaced).Exact := by
  subst hparse
  refine Exact.of_reads ?written ?reads ?spelled
  case written =>
    intro elements helements
    refine ⟨elements.map written, ?_, rfl⟩
    rw [List.forall₂_map_right_iff, List.forall₂_same]
    exact fun element helement => hwritten element (helements element helement)
  case reads =>
    rintro elements _ helements ⟨parts, hparts, rfl⟩
    show ∃ values, readAll what (separated ',' read) _ = .ok values ∧
      values.map unplaced = elements.map unplaced
    rw [textOf_intercalate]
    by_cases hne : elements.zip parts = []
    · obtain ⟨rfl, rfl⟩ : elements = [] ∧ parts = [] := by cases hparts <;> simp at hne ⊢
      have hnone : (separated ',' read).Takes "".toList [] fun values => values = [] :=
        (Misses.optional hmisses.bind).map fun answer hanswer => by rw [hanswer]; rfl
      obtain ⟨values, hparse, rfl⟩ := readAll_of_takes what hnone
      exact ⟨[], hparse, rfl⟩
    · obtain ⟨hlength, hzip⟩ := List.forall₂_iff_zip.1 hparts
      have hread : ∀ i ∈ elements.zip parts, ∀ rest, ElementEnds rest →
          read.Takes (textOf i.2).toList rest fun value => unplaced value = unplaced i.1 := by
        intro i hi rest hrest
        have helement := helements i.1 (List.of_mem_zip hi).1
        exact htakes i.1 i.2 rest helement (hzip hi) hrest
      obtain ⟨values, hparse, hvalues⟩ := readAll_separated what hne hread
      have htexts : (elements.zip parts).map (fun i => textOf i.2) = parts.map textOf := by
        conv_rhs => rw [← List.map_snd_zip hlength.ge, List.map_map]
        rfl
      have hsame : (elements.zip parts).map (fun i => unplaced i.1) = values.map unplaced := by
        rw [← List.forall₂_eq_eq_eq, List.forall₂_map_left_iff, List.forall₂_map_right_iff]
        exact hvalues.imp fun _ _ heq => heq.symm
      rw [htexts] at hparse
      refine ⟨values, hparse, ?_⟩
      conv_rhs => rw [← List.map_fst_zip hlength.le, List.map_map]
      exact hsame.symm
  case spelled =>
    intro text elements hparse
    obtain ⟨pieces, ⟨parts, hparts, rfl⟩, htext, hlocated⟩ :=
      (hspells.separated (by decide)).of_readAll hparse
    rw [List.forall₂_and_left] at hparts
    exact ⟨hparts.1, _, ⟨parts, hparts.2, rfl⟩, htext, hlocated⟩

end Grammar

/-! ## Paths and qualifiers -/

namespace PathText

def piece (p : PathText) : Piece := .placed p.path p.position

def unplaced (p : PathText) : PathText := { p with position := .unknown }

theorem spells_reader :
    reader.Spells fun p pieces => Text.IsDotted p.path ∧ pieces = [p.piece] := by
  refine Spells.and (spells_position_bind fun place => ?_) gives_reader
  refine (spells_identifier.separated1 (by decide)).map ?_
  rintro segments _ ⟨-, parts, hparts, rfl⟩
  obtain ⟨-, rfl⟩ := forall₂_eq_map_iff.1 hparts
  have htexts : (segments.map fun name => [mark name]).map textOf = segments := by
    rw [List.map_map]
    exact (List.map_congr_left fun name _ => by simp).trans (List.map_id _)
  rw [textOf_intercalate, htexts]
  rfl

theorem unplaced_eq {p other : PathText} (h : p.path = other.path) :
    p.unplaced = other.unplaced := by
  rw [unplaced, unplaced, h]

theorem map_unplaced {texts others : List PathText}
    (h : texts.map PathText.path = others.map PathText.path) :
    texts.map unplaced = others.map unplaced := by
  have hpath : ∀ list : List PathText,
      list.map unplaced = (list.map PathText.path).map fun path => ⟨path, .unknown⟩ := by
    intro list
    rw [List.map_map]
    rfl
  rw [hpath, hpath, h]

end PathText

namespace Qualifier

def piece (q : Qualifier) : Piece := .placed q.encode q.position

/-- Qualifiers, each behind a colon. -/
def pieces (qualifiers : List Qualifier) : List Piece :=
  (qualifiers.map fun q => [mark ":", q.piece]).flatten

def unplaced (q : Qualifier) : Qualifier := { q with position := .unknown }

def WellFormed (q : Qualifier) : Prop := Readable (q.name, q.parameters)

theorem isPlain_of_isParameterPart {c : Char} (h : isParameterPart c = true) : Text.IsPlain c := by
  simp only [isParameterPart, Bool.or_eq_true, beq_iff_eq] at h
  rcases h with ((h | rfl) | rfl) | rfl
  · exact Text.isPlain_of_isAlphanum h
  all_goals decide

theorem spells_reader : reader.Spells fun q pieces => q.WellFormed ∧ pieces = [q.piece] := by
  refine spells_position_bind fun place => ?_
  refine spells_identifier.bind ?_
  rintro name _ ⟨hname, rfl⟩
  refine (spells_segments (by decide) fun c => isPlain_of_isParameterPart).map ?_
  rintro parameters _ ⟨hparameters, rfl⟩
  refine ⟨⟨hname, ?_⟩, ?_⟩
  · intro p hp
    obtain ⟨chars, hchars, rfl⟩ := List.mem_map.1 hp
    simpa using hparameters chars hchars
  · have htext := textOf_segments "-" name (parameters.map String.ofList)
    rw [List.map_map] at htext
    exact congrArg (fun text => [placed text place]) htext

theorem spells_listReader : listReader.Spells fun qualifiers pieces =>
    (∀ q ∈ qualifiers, q.WellFormed) ∧ pieces = Qualifier.pieces qualifiers := by
  have hnext : (do Reader.char ':'; reader : Reader Qualifier).Spells fun q pieces =>
      q.WellFormed ∧ pieces = [mark ":", q.piece] := by
    refine (spells_char (by decide)).bind ?_
    rintro _ _ rfl
    refine spells_reader.mono ?_
    rintro q _ ⟨hq, rfl⟩
    exact ⟨hq, rfl⟩
  refine hnext.many.mono ?_
  rintro qualifiers _ ⟨parts, hparts, rfl⟩
  obtain ⟨hqualifiers, rfl⟩ := forall₂_eq_map_iff.1 hparts
  exact ⟨hqualifiers, rfl⟩

theorem map_unplaced {qualifiers others : List Qualifier}
    (h : qualifiers.map (fun q => (q.name, q.parameters)) =
      others.map fun q => (q.name, q.parameters)) :
    qualifiers.map unplaced = others.map unplaced := by
  have hword : ∀ list : List Qualifier, list.map unplaced =
      (list.map fun q => (q.name, q.parameters)).map fun word => ⟨word.1, word.2, .unknown⟩ := by
    intro list
    rw [List.map_map]
    rfl
  rw [hword, hword, h]

/-- The words of qualifiers behind their colons. -/
theorem toList_textOf_pieces (qualifiers : List Qualifier) :
    (textOf (pieces qualifiers)).toList =
      (qualifiers.map fun q => (q.name, q.parameters)).flatMap fun word =>
        ':' :: (written word).toList := by
  induction qualifiers with
  | nil => rfl
  | cons q rest ih =>
      have hcons : pieces (q :: rest) = mark ":" :: q.piece :: pieces rest := rfl
      rw [hcons, textOf_cons, textOf_cons, String.toList_append, String.toList_append, ih]
      rfl

end Qualifier

/-! ## Names of filter parameters -/

def GroupKey.WellFormed (k : GroupKey) : Prop :=
  ∃ root groups, k = ⟨root :: groups⟩ ∧ Readable root groups

theorem GroupKey.spells_reader :
    reader.Spells fun k pieces => k.WellFormed ∧ pieces = [mark k.encode] := by
  refine Spells.merge ?_
  refine spells_identifier.bind ?_
  rintro root _ ⟨hroot, rfl⟩
  refine (spells_segments (by decide) fun c => Text.isPlain_of_isIdentifierPart).map ?_
  rintro groups _ ⟨hgroups, rfl⟩
  refine ⟨⟨root, _, rfl, hroot, ?_⟩, ?_⟩
  · intro name hname
    obtain ⟨chars, hchars, rfl⟩ := List.mem_map.1 hname
    simpa using hgroups chars hchars
  · have htext := textOf_segments "." root (groups.map String.ofList)
    rw [List.map_map] at htext
    exact congrArg (fun text => [mark text]) htext

namespace ConditionText

structure WellFormed (t : ConditionText) : Prop where
  nonempty : t.paths ≠ []
  paths : ∀ path ∈ t.paths, Text.IsDotted path.path
  qualifiers : ∀ q ∈ t.qualifiers, q.WellFormed

def pieces (t : ConditionText) : List Piece :=
  [mark ","].intercalate (t.paths.map fun path => [path.piece]) ++
    (Qualifier.pieces t.qualifiers ++ if t.negated then [mark "!"] else [])

def unplaced (t : ConditionText) : ConditionText :=
  ⟨t.paths.map PathText.unplaced, t.qualifiers.map Qualifier.unplaced, t.negated⟩

theorem spells_reader : reader.Spells fun t pieces => t.WellFormed ∧ pieces = t.pieces := by
  refine (PathText.spells_reader.separated1 (by decide)).bind ?_
  rintro paths _ ⟨hne, parts, hparts, rfl⟩
  obtain ⟨hpaths, rfl⟩ := forall₂_eq_map_iff.1 hparts
  refine Qualifier.spells_listReader.bind ?_
  rintro qualifiers _ ⟨hqualifiers, rfl⟩
  refine (spells_char (by decide)).optional.map ?_
  rintro negation last hlast
  refine ⟨⟨hne, hpaths, hqualifiers⟩, ?_⟩
  rcases hlast with ⟨rfl, rfl⟩ | ⟨_, rfl, rfl⟩ <;> rfl

theorem takes_pieces {t : ConditionText} (ht : t.WellFormed) :
    reader.Takes (textOf t.pieces).toList [] fun text => text.unplaced = t.unplaced := by
  have hwords : ∀ word ∈ t.qualifiers.map (fun q => (q.name, q.parameters)),
      Qualifier.Readable word := by
    intro word hword
    obtain ⟨q, hq, rfl⟩ := List.mem_map.1 hword
    exact ht.qualifiers q hq
  cases hpaths : t.paths.map PathText.path with
  | nil => exact absurd (List.map_eq_nil_iff.1 hpaths) ht.nonempty
  | cons path others =>
      have hdotted : ∀ name ∈ path :: others, Text.IsDotted name := by
        intro name hname
        rw [← hpaths] at hname
        obtain ⟨text, htext, rfl⟩ := List.mem_map.1 hname
        exact ht.paths text htext
      have htexts : (t.paths.map fun path => [path.piece]).map textOf = path :: others := by
        rw [← hpaths, List.map_map]
        exact List.map_congr_left fun text _ => by simp [PathText.piece]
      have hchars : (textOf t.pieces).toList = (Text.join "," (path :: others)).toList ++
          (((t.qualifiers.map fun q => (q.name, q.parameters)).flatMap fun word =>
            ':' :: (Qualifier.written word).toList) ++
            (if t.negated then "!" else "").toList) := by
        rw [pieces, textOf_append, textOf_append, textOf_intercalate, htexts, String.toList_append,
          String.toList_append, Qualifier.toList_textOf_pieces]
        cases t.negated <;> rfl
      rw [hchars]
      refine (takes_tests hdotted hwords t.negated).mono ?_
      rintro text ⟨hsame, hqualifiers, hnegated⟩
      rw [unplaced, unplaced, PathText.map_unplaced (hsame.trans hpaths.symm),
        Qualifier.map_unplaced hqualifiers, hnegated]

end ConditionText

namespace FilterParameter

def WellFormed : FilterParameter → Prop
  | junction group => group.WellFormed
  | basePath key => Text.isIdentifier key.toList = true
  | condition group text => group.WellFormed ∧ text.WellFormed

def pieces : FilterParameter → List Piece
  | junction group => [mark group.encode, mark "$"]
  | basePath key => [mark key, mark "@"]
  | condition group text => mark group.encode :: mark "$" :: text.pieces

def unplaced : FilterParameter → FilterParameter
  | junction group => junction group
  | basePath key => basePath key
  | condition group text => condition group text.unplaced

def grammar : Grammar FilterParameter where
  parse := parse
  WellFormed := WellFormed
  written := pieces
  Spelling p pieces := pieces = p.pieces
  unplaced := unplaced

theorem spells_marker :
    marker.Spells fun c pieces => c ∈ ['$', '@'] ∧ pieces = [mark (String.singleton c)] := by
  refine Spells.orElse ?_ ?_
  · refine (spells_char (by decide)).map ?_
    rintro _ _ rfl
    exact ⟨by simp, rfl⟩
  · refine (spells_char (by decide)).map ?_
    rintro _ _ rfl
    exact ⟨by simp, rfl⟩

theorem spells_reader : reader.Spells fun p pieces => p.WellFormed ∧ pieces = p.pieces := by
  refine GroupKey.spells_reader.bind ?_
  rintro group _ ⟨hgroup, rfl⟩
  refine spells_marker.bind ?_
  rintro c _ ⟨hc, rfl⟩
  split
  · rename_i hat
    subst hat
    split
    · rename_i hdepth
      -- the key of a group without nested groups is its root
      obtain ⟨root, groups, rfl, hkey⟩ := hgroup
      obtain rfl : groups = [] := by simpa [GroupKey.depth] using hdepth
      exact spells_pure ⟨hkey.root, rfl⟩
    · intro offset text value after h
      cases h
  · rename_i hat
    obtain rfl : c = '$' := by simpa [hat] using hc
    refine ConditionText.spells_reader.optional.bind ?_
    rintro _ _ (⟨rfl, rfl⟩ | ⟨text, rfl, htext, rfl⟩)
    · exact spells_pure ⟨hgroup, rfl⟩
    · exact spells_pure ⟨⟨hgroup, htext⟩, by simp [pieces]⟩

theorem grammar_exact : grammar.Exact := by
  refine Grammar.Exact.of_reads (fun _ _ => rfl) ?reads ?spelled
  case reads =>
    rintro tree _ htree rfl
    cases tree with
    | junction group =>
        obtain ⟨root, groups, rfl, hkey⟩ := htree
        exact ⟨_, parse_junction hkey, rfl⟩
    | basePath key => exact ⟨_, parse_basePath htree, rfl⟩
    | condition group text =>
        obtain ⟨⟨root, groups, rfl, hkey⟩, htext⟩ := htree
        have htakes := ConditionText.takes_pieces htext
        obtain ⟨read, hparse, hread⟩ := parse_of_takes hkey htakes
        refine ⟨condition ⟨root :: groups⟩ read, ?_, congrArg (condition _) hread⟩
        have hwhole : textOf (condition ⟨root :: groups⟩ text).pieces =
            opening root groups '$' ++ textOf text.pieces := by
          rw [pieces, textOf_cons, textOf_cons, ← String.append_assoc]
          rfl
        exact (congrArg parse hwhole).trans hparse
  case spelled =>
    intro text tree hparse
    obtain ⟨pieces, ⟨htree, rfl⟩, htext, hlocated⟩ := spells_reader.of_readAll hparse
    exact ⟨htree, _, rfl, htext, hlocated⟩

end FilterParameter

/-! ## Orders -/

namespace OrderText

def WellFormed : OrderText → Prop
  | segment key _ _ => Text.isIdentifier key.toList = true
  | property path qualifiers => Text.IsDotted path.path ∧ ∀ q ∈ qualifiers, q.WellFormed

def segmentPiece (key : String) (direction : Option Bool) (position : Position) : Piece :=
  .placed ("$" ++ key ++ directionText direction) position

def pieces : OrderText → List Piece
  | segment key descending position =>
    [segmentPiece key (if descending then some true else none) position]
  | property path qualifiers => path.piece :: Qualifier.pieces qualifiers

/-- The direction of an ascending segment may be left out. -/
def Spelling : OrderText → List Piece → Prop
  | segment key descending position, pieces =>
    ∃ direction : Option Bool, direction.getD false = descending ∧
      pieces = [segmentPiece key direction position]
  | property path qualifiers, pieces => pieces = path.piece :: Qualifier.pieces qualifiers

def unplaced : OrderText → OrderText
  | segment key descending _ => segment key descending .unknown
  | property path qualifiers => property path.unplaced (qualifiers.map Qualifier.unplaced)

def grammar : Grammar (List OrderText) :=
  .listOf parse WellFormed pieces Spelling unplaced

theorem spells_direction : direction.Spells fun descending pieces =>
    pieces = [mark (if descending then "desc" else "asc")] := by
  refine Spells.orElse ?_ ?_
  · refine (spells_word (by decide)).map ?_
    rintro _ _ rfl
    rfl
  · refine (spells_word (by decide)).map ?_
    rintro _ _ rfl
    rfl

theorem spells_segmentDirection : segmentDirection.Spells fun descending pieces =>
    textOf pieces = directionText (some descending) := by
  refine (spells_char (by decide)).bind ?_
  rintro _ _ rfl
  refine spells_direction.bind ?_
  rintro descending _ rfl
  refine spells_atElementEnd.map ?_
  rintro _ _ rfl
  cases descending <;> rfl

theorem spells_segmentReader : segmentReader.Spells fun element pieces =>
    element.WellFormed ∧ element.Spelling pieces := by
  refine spells_position_bind fun place => ?_
  refine (spells_char (by decide)).bind ?_
  rintro _ _ rfl
  refine spells_identifier.bind ?_
  rintro key _ ⟨hkey, rfl⟩
  refine spells_segmentDirection.optional.map ?_
  intro direction last hlast
  have hdirection : textOf last = directionText direction := by
    rcases hlast with ⟨rfl, rfl⟩ | ⟨descending, rfl, hlast⟩
    · rfl
    · exact hlast
  have htext : textOf ([mark (String.singleton '$')] ++ ([mark key] ++ last)) =
      "$" ++ key ++ directionText direction := by
    rw [textOf_append, textOf_append, hdirection, textOf_cons, textOf_cons, textOf_nil,
      String.append_empty, String.append_empty, String.append_assoc]
    rfl
  exact ⟨hkey, direction, rfl, congrArg (fun text => [placed text place]) htext⟩

theorem spells_reader : reader.Spells fun element pieces =>
    element.WellFormed ∧ element.Spelling pieces := by
  refine Spells.orElse spells_segmentReader ?_
  refine PathText.spells_reader.bind ?_
  rintro path _ ⟨hpath, rfl⟩
  refine Qualifier.spells_listReader.map ?_
  rintro qualifiers _ ⟨hqualifiers, rfl⟩
  exact ⟨⟨hpath, hqualifiers⟩, rfl⟩

theorem takes_spelling {element : OrderText} {pieces : List Piece} {rest : List Char}
    (helement : element.WellFormed) (hpieces : element.Spelling pieces) (hrest : ElementEnds rest) :
    reader.Takes (textOf pieces).toList rest fun value => value.unplaced = element.unplaced := by
  cases element with
  | segment key descending position =>
      obtain ⟨direction, rfl, rfl⟩ := hpieces
      rw [textOf_cons, textOf_nil, String.append_empty]
      refine (takes_directed helement direction hrest).mono ?_
      rintro _ ⟨place, rfl⟩
      rfl
  | property path qualifiers =>
      obtain rfl : pieces = _ := hpieces
      obtain ⟨hpath, hqualifiers⟩ := helement
      have hwords : ∀ word ∈ qualifiers.map (fun q => (q.name, q.parameters)),
          Qualifier.Readable word := by
        intro word hword
        obtain ⟨q, hq, rfl⟩ := List.mem_map.1 hword
        exact hqualifiers q hq
      have hchars : (textOf (path.piece :: Qualifier.pieces qualifiers)).toList =
          (Text.join ":" (path.path ::
            (qualifiers.map fun q => (q.name, q.parameters)).map Qualifier.written)).toList := by
        rw [Text.toList_join_cons, List.flatMap_map, textOf_cons, String.toList_append,
          Qualifier.toList_textOf_pieces]
        rfl
      rw [hchars]
      refine (takes_property hpath hwords hrest).mono ?_
      rintro _ ⟨p, others, rfl, hp, hothers⟩
      rw [unplaced, unplaced, Qualifier.map_unplaced hothers, PathText.unplaced_eq hp]

theorem grammar_exact : grammar.Exact := by
  refine Grammar.listOf_exact rfl ?_ (fun place => ⟨place, rfl⟩)
    (fun _ _ _ => takes_spelling) spells_reader
  rintro (⟨key, descending, position⟩ | ⟨path, qualifiers⟩) -
  · exact ⟨_, by cases descending <;> rfl, rfl⟩
  · rfl

end OrderText

/-! ## Projections and reference lists -/

namespace ProjectionText

def pieces : ProjectionText → List Piece
  | includeAll position => [placed "*" position]
  | includePath path => [path.piece]
  | excludePath path => [mark "-", path.piece]
  | fetchPath path => [path.piece, mark ".*"]
  | scopePath path key => [path.piece, mark "/", mark key]

def unplaced : ProjectionText → ProjectionText
  | includeAll _ => includeAll .unknown
  | includePath path => includePath path.unplaced
  | excludePath path => excludePath path.unplaced
  | fetchPath path => fetchPath path.unplaced
  | scopePath path key => scopePath path.unplaced key

def grammar : Grammar (List ProjectionText) :=
  .listOf parse Readable pieces (fun element pieces => pieces = element.pieces) unplaced

theorem spells_pathReader : pathReader.Spells fun element pieces =>
    element.Readable ∧ pieces = element.pieces := by
  refine PathText.spells_reader.bind ?_
  rintro path _ ⟨hpath, rfl⟩
  refine (spells_word (by decide)).optional.bind ?_
  rintro _ _ (⟨rfl, rfl⟩ | ⟨_, rfl, rfl⟩)
  · have hkey : (do Reader.char '/'; Reader.identifier : Reader String).Spells fun key pieces =>
        Text.isIdentifier key.toList = true ∧ pieces = [mark "/", mark key] := by
      refine (spells_char (by decide)).bind ?_
      rintro _ _ rfl
      refine spells_identifier.mono ?_
      rintro key _ ⟨hkey, rfl⟩
      exact ⟨hkey, rfl⟩
    refine hkey.optional.bind ?_
    rintro _ _ (⟨rfl, rfl⟩ | ⟨key, rfl, hkey, rfl⟩)
    · exact spells_pure ⟨hpath, rfl⟩
    · exact spells_pure ⟨⟨hpath, hkey⟩, rfl⟩
  · exact spells_pure ⟨hpath, rfl⟩

theorem spells_reader : reader.Spells fun element pieces =>
    element.Readable ∧ pieces = element.pieces := by
  refine Spells.orElse ?_ (Spells.orElse ?_ spells_pathReader)
  · refine spells_position_bind fun place => ?_
    refine (spells_char (by decide)).map ?_
    rintro _ _ rfl
    exact ⟨trivial, rfl⟩
  · refine (spells_char (by decide)).bind ?_
    rintro _ _ rfl
    refine PathText.spells_reader.map ?_
    rintro path _ ⟨hpath, rfl⟩
    exact ⟨hpath, rfl⟩

theorem takes_pieces {element : ProjectionText} {rest : List Char} (helement : element.Readable)
    (hrest : ElementEnds rest) : reader.Takes (textOf element.pieces).toList rest fun value =>
      value.unplaced = element.unplaced := by
  cases element with
  | includeAll position =>
      refine (takes_all rest).mono ?_
      rintro _ ⟨place, rfl⟩
      rfl
  | includePath path =>
      have htext : textOf (includePath path).pieces = path.path := by
        simp [pieces, PathText.piece]
      rw [htext]
      refine (takes_include helement hrest).mono ?_
      rintro _ ⟨p, rfl, hp⟩
      exact congrArg includePath (PathText.unplaced_eq hp)
  | excludePath path =>
      have htext : textOf (excludePath path).pieces = "-" ++ path.path := by
        simp [pieces, PathText.piece]
      rw [htext]
      refine (takes_exclude helement hrest).mono ?_
      rintro _ ⟨p, rfl, hp⟩
      exact congrArg excludePath (PathText.unplaced_eq hp)
  | fetchPath path =>
      have htext : textOf (fetchPath path).pieces = path.path ++ ".*" := by
        simp [pieces, PathText.piece]
      rw [htext]
      refine (takes_fetch helement rest).mono ?_
      rintro _ ⟨p, rfl, hp⟩
      exact congrArg fetchPath (PathText.unplaced_eq hp)
  | scopePath path key =>
      have htext : textOf (scopePath path key).pieces = path.path ++ "/" ++ key := by
        simp [pieces, PathText.piece, String.append_assoc]
      rw [htext]
      refine (takes_scope helement.1 helement.2 hrest).mono ?_
      rintro _ ⟨p, rfl, hp⟩
      exact congrArg (scopePath · key) (PathText.unplaced_eq hp)

theorem grammar_exact : grammar.Exact := by
  refine Grammar.listOf_exact rfl (fun _ _ => rfl) (fun place => ⟨place, rfl⟩) ?_ spells_reader
  rintro element _ rest helement rfl
  exact takes_pieces helement

end ProjectionText

namespace PathText

def grammar : Grammar (List PathText) :=
  .listOf parseList (fun p => Text.IsDotted p.path) (fun p => [p.piece])
    (fun p pieces => pieces = [p.piece]) unplaced

theorem grammar_exact : grammar.Exact := by
  refine Grammar.listOf_exact rfl (fun _ _ => rfl) (fun place => ⟨place, rfl⟩) ?_ spells_reader
  rintro p _ rest hp rfl hrest
  have htext : (textOf [p.piece]).toList = p.path.toList := by simp [piece]
  rw [htext]
  exact (takes_reader hp hrest.closed.pathEnds).mono fun text htext => unplaced_eq htext

end PathText

/-- The grammars of the parameters are read exactly, and the name of a parameter is addressed to the
filter that its group or its base path belongs to. -/
theorem Grammar.parameters_exact :
    FilterParameter.grammar.Exact ∧ OrderText.grammar.Exact ∧ ProjectionText.grammar.Exact ∧
      PathText.grammar.Exact ∧
      ∀ name p, FilterParameter.parse name = .ok p → FilterParameter.root? name = some p.key :=
  ⟨FilterParameter.grammar_exact, OrderText.grammar_exact, ProjectionText.grammar_exact,
    PathText.grammar_exact, fun _ _ => FilterParameter.root?_of_parse⟩

end ResourceQuery
