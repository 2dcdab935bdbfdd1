import ResourceQuery.Proofs.Query.Grammar
/-!
# Places of paths

Every path that is read from a parameter text stands in that text where its position says, in the
first line and as a whole element (`Text.HasPath`): what is in front of it ends in a separator, and
a separator follows it. A path is framed by the pieces around it, and the pieces of a list element
by the commas between elements.
-/

namespace ResourceQuery

open Piece

/-! ## Frames -/

namespace Text

/-- A path may stand behind this text: nothing, or something that ends in a separator. -/
def OpensPath (front : String) : Prop :=
  front = "" ∨ ∃ mark ∈ ["$", ",", "-"], ∃ before, front = before ++ mark

/-- This text may follow a path: nothing, or something that begins with a separator. -/
def ClosesPath (rest : String) : Prop :=
  rest = "" ∨ ∃ mark ∈ [",", ":", "!", "/", ".*"], ∃ after, rest = mark ++ after

/-- A dotted path is an element of a text, and a position is that of its first character: the
offset counts the octets in front of it, and the column the characters of the only line. -/
structure HasPath (text path : String) (position : Position) : Prop where
  dotted : IsDotted path
  whole : ∃ front rest, text = front ++ path ++ rest ∧ position.offset = front.utf8ByteSize ∧
    OpensPath front ∧ ClosesPath rest
  line : position.line = 1
  column : position.column = position.offset + 1

theorem OpensPath.append {front next : String} (hfront : OpensPath front)
    (hnext : OpensPath next) : OpensPath (front ++ next) := by
  rcases hnext with rfl | ⟨mark, hmark, before, rfl⟩
  · rwa [String.append_empty]
  · exact .inr ⟨mark, hmark, front ++ before, (String.append_assoc ..).symm⟩

theorem ClosesPath.append {rest next : String} (hrest : ClosesPath rest)
    (hnext : ClosesPath next) : ClosesPath (rest ++ next) := by
  rcases hrest with rfl | ⟨mark, hmark, after, rfl⟩
  · rwa [String.empty_append]
  · exact .inr ⟨mark, hmark, after ++ next, String.append_assoc ..⟩

end Text

open Text

namespace PathText

/-- The path is one of some pieces, and may stand between those around it. -/
def FramedBy (path : PathText) (pieces : List Piece) : Prop :=
  ∃ front rest, pieces = front ++ path.piece :: rest ∧ OpensPath (textOf front) ∧
    ClosesPath (textOf rest)

variable {path : PathText} {pieces : List Piece}

theorem framedBy_cons {rest : List Piece} (hrest : ClosesPath (textOf rest)) :
    path.FramedBy (path.piece :: rest) := ⟨[], rest, rfl, .inl rfl, hrest⟩

theorem FramedBy.within (h : path.FramedBy pieces) (front rest : List Piece)
    (hfront : OpensPath (textOf front)) (hrest : ClosesPath (textOf rest)) :
    path.FramedBy (front ++ pieces ++ rest) := by
  obtain ⟨before, after, rfl, hbefore, hafter⟩ := h
  refine ⟨front ++ before, after ++ rest, by simp, ?_, ?_⟩
  · rw [textOf_append]
    exact hfront.append hbefore
  · rw [textOf_append]
    exact hafter.append hrest

/-- Commas frame the elements of a list. -/
theorem FramedBy.intercalate {parts : List (List Piece)} (h : path.FramedBy pieces)
    (hpart : pieces ∈ parts) : path.FramedBy ([mark ","].intercalate parts) := by
  obtain ⟨before, after, rfl⟩ := List.append_of_mem hpart
  have hrest : path.FramedBy ([mark ","].intercalate (pieces :: after)) := by
    cases after with
    | nil => simpa using h
    | cons next others =>
        have hcomma : ClosesPath (textOf (mark "," :: [mark ","].intercalate (next :: others))) :=
          .inr ⟨",", by simp, _, textOf_cons _ _⟩
        have hframed := h.within [] _ (.inl rfl) hcomma
        rwa [List.nil_append, ← List.singleton_append, ← List.append_assoc,
          ← List.intercalate_cons_of_ne_nil (by simp)] at hframed
  cases before with
  | nil => exact hrest
  | cons first others =>
      have hcomma : OpensPath (textOf ([mark ","].intercalate (first :: others) ++ [mark ","])) :=
        .inr ⟨",", by simp, _, textOf_append _ _⟩
      have hframed := hrest.within _ [] hcomma (.inl rfl)
      rw [intercalate_append "," (by simp) (by simp)]
      simpa using hframed

/-- Where pieces stand at their places, a framed path stands at its position. -/
theorem FramedBy.hasPath (h : path.FramedBy pieces) (hdotted : IsDotted path.path)
    (hlocated : Located 0 pieces) : HasPath (textOf pieces) path.path path.position := by
  obtain ⟨front, rest, rfl, hfront, hrest⟩ := h
  obtain ⟨hplace, -⟩ := (located_append.1 hlocated).2
  have hposition : path.position = .inLine (textOf front).utf8ByteSize := by
    simpa using hplace path.position rfl
  refine ⟨hdotted, ⟨textOf front, textOf rest, ?_, ?_, hfront, hrest⟩, ?_, ?_⟩
  · rw [textOf_append, textOf_cons, String.append_assoc]
    rfl
  all_goals rw [hposition]; rfl

end PathText

open PathText

/-- Qualifiers may follow a path. -/
theorem Qualifier.closesPath (qualifiers : List Qualifier) :
    ClosesPath (textOf (pieces qualifiers)) := by
  cases qualifiers with
  | nil => exact .inl rfl
  | cons q rest => exact .inr ⟨":", by simp, q.encode ++ textOf (pieces rest), by simp [pieces, piece]⟩

/-! ## Names of filter parameters -/

theorem ConditionText.framedBy {t : ConditionText} {path : PathText} (h : path ∈ t.paths) :
    path.FramedBy t.pieces := by
  have hnegation : ClosesPath (textOf (if t.negated then [mark "!"] else [])) := by
    cases t.negated with
    | false => exact .inl rfl
    | true => exact .inr ⟨"!", by simp, "", by simp⟩
  have hpaths : path.FramedBy ([mark ","].intercalate (t.paths.map fun path => [path.piece])) :=
    (framedBy_cons (.inl rfl)).intercalate (List.mem_map_of_mem h)
  refine hpaths.within [] (Qualifier.pieces t.qualifiers ++ if t.negated then [mark "!"] else [])
    (.inl rfl) ?_
  rw [textOf_append]
  exact (Qualifier.closesPath t.qualifiers).append hnegation

/-- The paths of a condition stand in the name of its parameter. -/
theorem FilterParameter.hasPath_of_parse {name : String} {group : GroupKey} {text : ConditionText}
    (h : parse name = .ok (condition group text)) {path : PathText} (hpath : path ∈ text.paths) :
    HasPath name path.path path.position := by
  obtain ⟨⟨-, htext⟩, spelling, rfl, rfl, hlocated⟩ := grammar_exact.spelled name _ h
  have hopens : OpensPath (textOf [mark group.encode, mark "$"]) :=
    .inr ⟨"$", by simp, group.encode, by simp⟩
  have hframed := (ConditionText.framedBy hpath).within _ [] hopens (.inl rfl)
  rw [List.append_nil] at hframed
  exact hframed.hasPath (htext.paths path hpath) hlocated

/-! ## Lists -/

/-- In a list whose elements frame their paths, the paths stand at their positions. -/
theorem Grammar.hasPath_of_listed {T : Type} {elements : List T} {pieces : List Piece}
    {Spelling : T → List Piece → Prop} (h : Reader.Listed "," Spelling elements pieces)
    (hlocated : Located 0 pieces) {element : T} (helement : element ∈ elements) {path : PathText}
    (hdotted : IsDotted path.path)
    (hframed : ∀ part, Spelling element part → path.FramedBy part) :
    HasPath (textOf pieces) path.path path.position := by
  obtain ⟨parts, hparts, rfl⟩ := h
  obtain ⟨part, hpart, hspelling⟩ := exists_of_forall₂ hparts.flip helement
  exact ((hframed part hspelling).intercalate hpart).hasPath hdotted hlocated

theorem OrderText.hasPath_of_parse {text : String} {elements : List OrderText}
    (h : parse text = .ok elements) {path : PathText} {qualifiers : List Qualifier}
    (helement : property path qualifiers ∈ elements) : HasPath text path.path path.position := by
  obtain ⟨hformed, pieces, hlisted, rfl, hlocated⟩ := grammar_exact.spelled text elements h
  refine Grammar.hasPath_of_listed hlisted hlocated helement (hformed _ helement).1 ?_
  rintro part rfl
  exact framedBy_cons (Qualifier.closesPath qualifiers)

/-- The path that an element of a projection is about. -/
def ProjectionText.path? : ProjectionText → Option PathText
  | includeAll _ => none
  | includePath path | excludePath path | fetchPath path | scopePath path _ => some path

theorem ProjectionText.framedBy {element : ProjectionText} {path : PathText}
    (h : element.path? = some path) : path.FramedBy element.pieces := by
  cases element with
  | includeAll position => cases h
  | includePath own =>
      cases h
      exact framedBy_cons (.inl rfl)
  | excludePath own =>
      cases h
      have hown : path.FramedBy [path.piece] := framedBy_cons (.inl rfl)
      exact hown.within [mark "-"] [] (.inr ⟨"-", by simp, "", by simp⟩) (.inl rfl)
  | fetchPath own =>
      cases h
      exact framedBy_cons (.inr ⟨".*", by simp, "", by simp⟩)
  | scopePath own key =>
      cases h
      exact framedBy_cons (.inr ⟨"/", by simp, key, by simp⟩)

theorem ProjectionText.hasPath_of_parse {text : String} {elements : List ProjectionText}
    (h : parse text = .ok elements) {element : ProjectionText} (helement : element ∈ elements)
    {path : PathText} (hpath : element.path? = some path) :
    HasPath text path.path path.position := by
  obtain ⟨hformed, pieces, hlisted, rfl, hlocated⟩ := grammar_exact.spelled text elements h
  have hdotted : IsDotted path.path := by
    have hreadable := hformed element helement
    cases element with
    | includeAll position => cases hpath
    | scopePath own key =>
        cases hpath
        exact hreadable.1
    | _ =>
        cases hpath
        exact hreadable
  refine Grammar.hasPath_of_listed hlisted hlocated helement hdotted ?_
  rintro part rfl
  exact framedBy hpath

theorem PathText.hasPath_of_parseList {text : String} {paths : List PathText}
    (h : parseList text = .ok paths) {path : PathText} (hpath : path ∈ paths) :
    HasPath text path.path path.position := by
  obtain ⟨hformed, pieces, hlisted, rfl, hlocated⟩ := grammar_exact.spelled text paths h
  refine Grammar.hasPath_of_listed hlisted hlocated hpath (hformed path hpath) ?_
  rintro part rfl
  exact framedBy_cons (.inl rfl)

end ResourceQuery
