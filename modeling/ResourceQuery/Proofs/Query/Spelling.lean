import ResourceQuery.Proofs.Query.Reader
/-!
# Spellings

What a reader takes from the front of a text is a spelling of its answer: pieces of text one behind
the other, some of them with a place that the answer has noted. `Spells` says that nothing but such
a spelling is taken and that every noted place is where its piece stands. Each combinator has a
lemma for it.
-/

namespace ResourceQuery

/-! ## Places in a line -/

/-- The place behind a number of octets of the first line, where every character is one octet. -/
def Position.inLine (offset : Nat) : Position := ⟨offset, 1, offset + 1⟩

/-- A character of one octet that does not open a new line. -/
def Text.IsPlain (c : Char) : Prop := c.utf8Size = 1 ∧ c ≠ '\n'

instance (c : Char) : Decidable (Text.IsPlain c) := inferInstanceAs (Decidable (_ ∧ _))

/-- Letters and digits stand between the first digit and the last small letter. -/
theorem Text.range_of_isAlphanum {c : Char} (h : c.isAlphanum = true) :
    48 ≤ c.toNat ∧ c.toNat ≤ 122 := by
  change (decide (65 ≤ c.val ∧ c.val ≤ 90) || (decide (97 ≤ c.val) && decide (c.val ≤ 122)) ||
    (decide (48 ≤ c.val) && decide (c.val ≤ 57))) = true at h
  simp [UInt32.le_iff_toNat_le] at h
  omega

theorem Text.isPlain_of_isAlphanum {c : Char} (h : c.isAlphanum = true) : IsPlain c := by
  have hrange := range_of_isAlphanum h
  refine ⟨?_, ?_⟩
  · rw [Char.utf8Size_eq_one_iff, UInt32.le_iff_toNat_le, Char.toNat_val]
    exact hrange.2.trans (by decide)
  · rintro rfl
    exact absurd hrange.1 (by decide)

theorem Text.isPlain_of_isIdentifierPart {c : Char} (h : isIdentifierPart c = true) :
    IsPlain c := by
  rw [isIdentifierPart, Bool.or_eq_true, beq_iff_eq] at h
  rcases h with h | rfl
  · exact isPlain_of_isAlphanum h
  · decide

theorem Position.advance_inLine {c : Char} (hc : Text.IsPlain c) (offset : Nat) :
    (inLine offset).advance c = inLine (offset + c.utf8Size) := by
  obtain ⟨hsize, hline⟩ := hc
  rw [advance, if_neg hline, hsize]
  rfl

theorem Position.foldl_advance_inLine {text : List Char} (htext : ∀ c ∈ text, Text.IsPlain c)
    (offset : Nat) : text.foldl advance (inLine offset) =
      inLine (offset + (String.ofList text).utf8ByteSize) := by
  induction text generalizing offset with
  | nil => rfl
  | cons c rest ih =>
      have hsplit : String.ofList (c :: rest) = String.singleton c ++ String.ofList rest := by
        rw [← String.toList_inj]
        simp
      rw [List.foldl_cons, advance_inLine (htext c (by simp)),
        ih fun d hd => htext d (by simp [hd]), hsplit, String.utf8ByteSize_append,
        String.utf8ByteSize_singleton, Nat.add_assoc]

/-! ## Pieces -/

/-- A piece of a written text, and the place that was noted for it. -/
structure Piece where
  text : String
  noted : Option Position

namespace Piece

def mark (text : String) : Piece := ⟨text, none⟩

def placed (text : String) (position : Position) : Piece := ⟨text, some position⟩

def textOf (pieces : List Piece) : String := String.join (pieces.map text)

/-- Every noted place is where its piece stands; the first piece stands behind `offset` octets. -/
def Located : Nat → List Piece → Prop
  | _, [] => True
  | offset, piece :: rest =>
    (∀ place ∈ piece.noted, place = .inLine offset) ∧
      Located (offset + piece.text.utf8ByteSize) rest

@[simp] theorem textOf_nil : textOf [] = "" := rfl

@[simp] theorem textOf_cons (piece : Piece) (rest : List Piece) :
    textOf (piece :: rest) = piece.text ++ textOf rest := by
  rw [← String.toList_inj]
  simp [textOf]

@[simp] theorem textOf_append (pieces others : List Piece) :
    textOf (pieces ++ others) = textOf pieces ++ textOf others := by
  rw [← String.toList_inj]
  simp [textOf]

@[simp] theorem mark_text (text : String) : (mark text).text = text := rfl

@[simp] theorem placed_text (text : String) (position : Position) :
    (placed text position).text = text := rfl

theorem located_append {pieces others : List Piece} {offset : Nat} :
    Located offset (pieces ++ others) ↔
      Located offset pieces ∧ Located (offset + (textOf pieces).utf8ByteSize) others := by
  induction pieces generalizing offset with
  | nil => simp [Located]
  | cons piece rest ih =>
      simp only [List.cons_append, Located, ih, textOf_cons, String.utf8ByteSize_append, and_assoc,
        Nat.add_assoc]

theorem located_mark (offset : Nat) (text : String) : Located offset [mark text] :=
  ⟨by simp [mark], trivial⟩

theorem located_placed (offset : Nat) (text : String) :
    Located offset [placed text (.inLine offset)] :=
  ⟨by simp [placed], trivial⟩

/-- The text of parts with a mark between them. -/
theorem textOf_intercalate (separator : String) (parts : List (List Piece)) :
    textOf ([mark separator].intercalate parts) = Text.join separator (parts.map textOf) := by
  induction parts with
  | nil => rfl
  | cons first others ih =>
      cases others with
      | nil => simp [Text.join]
      | cons second rest =>
          rw [List.intercalate_cons_cons, textOf_append, textOf_append, ih, textOf_cons, textOf_nil]
          simp [Text.join]

/-- Parts with a mark between them are the first one, and the others each behind a mark. -/
theorem intercalate_cons (separator : String) (first : List Piece) (others : List (List Piece)) :
    [mark separator].intercalate (first :: others) =
      first ++ (others.map fun part => mark separator :: part).flatten := by
  induction others generalizing first with
  | nil => simp
  | cons second rest ih => rw [List.intercalate_cons_cons, ih]; simp

/-- Two lists of parts have a mark between them. -/
theorem intercalate_append (separator : String) {parts others : List (List Piece)}
    (hparts : parts ≠ []) (hothers : others ≠ []) :
    [mark separator].intercalate (parts ++ others) =
      [mark separator].intercalate parts ++ mark separator ::
        [mark separator].intercalate others := by
  induction parts with
  | nil => exact absurd rfl hparts
  | cons first rest ih =>
      cases rest with
      | nil => simp [List.intercalate_cons_of_ne_nil hothers]
      | cons second rest =>
          have hrest := ih (by simp)
          rw [List.cons_append] at hrest
          rw [List.cons_append, List.cons_append, List.intercalate_cons_cons, hrest,
            List.intercalate_cons_cons]
          simp

/-- A name, and others each behind a mark. -/
theorem textOf_segments (separator first : String) (others : List String) :
    textOf (mark first :: (others.map fun name => [mark separator, mark name]).flatten) =
      Text.join separator (first :: others) := by
  have hparts : mark first :: (others.map fun name => [mark separator, mark name]).flatten =
      [mark separator].intercalate ((first :: others).map fun name => [mark name]) := by
    rw [List.map_cons, intercalate_cons, List.map_map]
    rfl
  have htexts : ((first :: others).map fun name => [mark name]).map textOf = first :: others := by
    rw [List.map_map]
    exact (List.map_congr_left fun name _ => by simp).trans (List.map_id _)
  rw [hparts, textOf_intercalate, htexts]

/-- A cursor stands behind pieces that a text begins with. -/
structure Covers (offset : Nat) (text : List Char) (pieces : List Piece) (after : Cursor) :
    Prop where
  text : text = (textOf pieces).toList ++ after.rest
  position : after.position = .inLine (offset + (textOf pieces).utf8ByteSize)
  located : Located offset pieces

theorem Covers.nil (offset : Nat) (text : List Char) :
    Covers offset text [] ⟨.inLine offset, text⟩ :=
  ⟨by simp, by simp, trivial⟩

theorem Covers.append {offset : Nat} {text : List Char} {pieces others : List Piece}
    {between after : Cursor} (hfirst : Covers offset text pieces between)
    (hsecond : Covers (offset + (textOf pieces).utf8ByteSize) between.rest others after) :
    Covers offset text (pieces ++ others) after where
  text := by
    rw [hfirst.text, hsecond.text, textOf_append, String.toList_append, List.append_assoc]
  position := by
    rw [hsecond.position, textOf_append, String.utf8ByteSize_append, Nat.add_assoc]
  located := located_append.2 ⟨hfirst.located, hsecond.located⟩

/-- Where the pieces are cut does not matter for a text that is covered by one piece. -/
theorem Covers.single {offset : Nat} {text : List Char} {pieces : List Piece} {after : Cursor}
    (h : Covers offset text pieces after) {piece : Piece} (htext : piece.text = textOf pieces)
    (hpiece : Located offset [piece]) : Covers offset text [piece] after where
  text := by simpa [htext] using h.text
  position := by simpa [htext] using h.position
  located := hpiece

end Piece

/-! ## Readers -/

namespace Reader

open Piece

variable {α β : Type} {S : α → List Piece → Prop} {T : β → List Piece → Prop}

/-- What the reader takes is a spelling of what it answers. -/
def Spells (read : Reader α) (S : α → List Piece → Prop) : Prop :=
  ∀ offset text value after, read ⟨.inLine offset, text⟩ = .ok (value, after) →
    ∃ pieces, S value pieces ∧ Covers offset text pieces after

theorem spells_pure {a : α} (h : S a []) : (pure a : Reader α).Spells S := by
  intro offset text value after hread
  cases hread
  exact ⟨[], h, .nil offset text⟩

theorem Spells.mono {read : Reader α} {S' : α → List Piece → Prop} (h : read.Spells S)
    (hS : ∀ a pieces, S a pieces → S' a pieces) : read.Spells S' := by
  intro offset text value after hread
  obtain ⟨pieces, hvalue, hcovers⟩ := h offset text value after hread
  exact ⟨pieces, hS value pieces hvalue, hcovers⟩

theorem Spells.and {read : Reader α} {P : α → Prop} (h : read.Spells S) (hP : read.Gives P) :
    read.Spells fun a pieces => P a ∧ S a pieces := by
  intro offset text value after hread
  obtain ⟨pieces, hvalue, hcovers⟩ := h offset text value after hread
  exact ⟨pieces, ⟨hP _ value after hread, hvalue⟩, hcovers⟩

theorem Spells.bind {read : Reader α} {f : α → Reader β} (hread : read.Spells S)
    (hf : ∀ a front, S a front → (f a).Spells fun b pieces => T b (front ++ pieces)) :
    (read >>= f).Spells T := by
  intro offset text value after h
  rw [bind_apply, bind_eq_ok_iff] at h
  obtain ⟨⟨a, between⟩, hfirst, hsecond⟩ := h
  obtain ⟨front, ha, hfront⟩ := hread offset text a between hfirst
  obtain ⟨place, rest⟩ := between
  obtain rfl : place = _ := hfront.position
  obtain ⟨pieces, hvalue, hpieces⟩ := hf a front ha _ rest value after hsecond
  exact ⟨front ++ pieces, hvalue, hfront.append hpieces⟩

theorem Spells.map {read : Reader α} {f : α → β} (h : read.Spells S)
    (hT : ∀ a pieces, S a pieces → T (f a) pieces) :
    (do return f (← read) : Reader β).Spells T :=
  h.bind fun a front ha => spells_pure (by simpa using hT a front ha)

/-- Pieces without a place may be taken for one. -/
theorem Spells.merge {read : Reader α}
    (h : read.Spells fun a pieces => S a [mark (textOf pieces)]) : read.Spells S := by
  intro offset text value after hread
  obtain ⟨pieces, hvalue, hcovers⟩ := h offset text value after hread
  exact ⟨_, hvalue, hcovers.single rfl (located_mark _ _)⟩

/-- The place that is noted in front belongs to everything that is taken behind it. -/
theorem spells_position_bind {f : Position → Reader β}
    (h : ∀ place, (f place).Spells fun b pieces => T b [placed (textOf pieces) place]) :
    (Reader.position >>= f).Spells T := by
  intro offset text value after hread
  obtain ⟨pieces, hvalue, hcovers⟩ := h (.inLine offset) offset text value after hread
  exact ⟨_, hvalue, hcovers.single rfl (located_placed _ _)⟩

/-! ## Characters and words -/

theorem spells_word {text : List Char}
    (htext : text.all (fun c => decide (Text.IsPlain c)) = true) :
    (word text).Spells fun _ pieces => pieces = [mark (String.ofList text)] := by
  intro offset whole value after h
  simp only [word] at h
  split at h
  swap
  · cases h
  rename_i hprefix
  cases h
  obtain ⟨rest, rfl⟩ := List.isPrefixOf_iff_prefix.1 hprefix
  have hplain : ∀ c ∈ text, Text.IsPlain c := by simpa using htext
  refine ⟨_, rfl, by simp, ?_, located_mark _ _⟩
  simpa using Position.foldl_advance_inLine hplain offset

theorem spells_char {c : Char} (hc : Text.IsPlain c) :
    (char c).Spells fun _ pieces => pieces = [mark (String.singleton c)] := by
  intro offset whole value after h
  cases whole with
  | nil => cases h
  | cons d rest =>
      simp only [char] at h
      split at h
      swap
      · cases h
      rename_i hd
      cases h
      refine ⟨_, rfl, by simp [hd], ?_, located_mark _ _⟩
      simpa using Position.advance_inLine hc offset

theorem span_covers {p : Char → Bool} (hp : ∀ c, p c = true → Text.IsPlain c) (offset : Nat)
    (text : List Char) : Covers offset text
      [mark (String.ofList (Cursor.span p (.inLine offset) text).1)]
      (Cursor.span p (.inLine offset) text).2 := by
  induction text generalizing offset with
  | nil => exact ⟨by simp [Cursor.span], by simp [Cursor.span], located_mark _ _⟩
  | cons c rest ih =>
      by_cases hc : p c = true
      · have hplain := hp c hc
        have hrest := ih (offset + c.utf8Size)
        have hfront : Covers offset (c :: rest) [mark (String.singleton c)]
            ⟨.inLine (offset + c.utf8Size), rest⟩ := ⟨by simp, by simp, located_mark _ _⟩
        have hboth := hfront.append (by simpa using hrest)
        rw [Cursor.span, if_pos hc, Position.advance_inLine hplain]
        refine hboth.single ?_ (located_mark _ _)
        rw [← String.toList_inj]
        simp
      · rw [Cursor.span, if_neg hc]
        exact ⟨by simp, by simp, located_mark _ _⟩

theorem spells_run {p : Char → Bool} (hp : ∀ c, p c = true → Text.IsPlain c) :
    (run p).Spells fun front pieces => pieces = [mark (String.ofList front)] := by
  intro offset text value after h
  have hcovers := span_covers hp offset text
  simp only [run, Except.ok.injEq] at h
  rw [h] at hcovers
  exact ⟨_, rfl, hcovers⟩

theorem spells_run1 {p : Char → Bool} (hp : ∀ c, p c = true → Text.IsPlain c) :
    (run1 p).Spells fun front pieces => pieces = [mark (String.ofList front)] := by
  intro offset text value after h
  have hcovers := span_covers hp offset text
  simp only [run1] at h
  split at h
  · cases h
  · cases h
    exact ⟨_, rfl, hcovers⟩

theorem spells_atElementEnd : atElementEnd.Spells fun _ pieces => pieces = [] := by
  intro offset text value after h
  simp only [atElementEnd] at h
  split at h
  · cases h
    exact ⟨[], rfl, .nil offset _⟩
  · split at h
    · cases h
      exact ⟨[], rfl, .nil offset _⟩
    · cases h

/-! ## Alternatives and repetition -/

theorem Spells.orElse {first second : Reader α} (hfirst : first.Spells S)
    (hsecond : second.Spells S) : (Reader.orElse first second).Spells S := by
  intro offset text value after h
  simp only [Reader.orElse] at h
  split at h
  · exact hsecond offset text value after h
  · exact hfirst offset text value after h

theorem Spells.optional {read : Reader α} (h : read.Spells S) :
    (Reader.optional read).Spells fun answer pieces =>
      (answer = none ∧ pieces = []) ∨ ∃ a, answer = some a ∧ S a pieces := by
  intro offset text answer after hread
  simp only [Reader.optional] at hread
  split at hread
  · rename_i value last hvalue
    cases hread
    obtain ⟨pieces, hpieces, hcovers⟩ := h offset text value after hvalue
    exact ⟨pieces, .inr ⟨value, rfl, hpieces⟩, hcovers⟩
  · cases hread
    exact ⟨[], .inl ⟨rfl, rfl⟩, .nil offset text⟩
  · cases hread

/-- Parts that are determined by the values they belong to. -/
theorem forall₂_eq_map_iff {P : α → Prop} {f : α → List Piece} {values : List α}
    {parts : List (List Piece)} :
    List.Forall₂ (fun a part => P a ∧ part = f a) values parts ↔
      (∀ a ∈ values, P a) ∧ parts = values.map f := by
  have hmap : List.Forall₂ (fun a part => part = f a) values parts ↔ parts = values.map f := by
    rw [← List.forall₂_eq_eq_eq (α := List Piece), List.forall₂_map_right_iff]
    exact ⟨List.Forall₂.flip, List.Forall₂.flip⟩
  rw [List.forall₂_and_left, hmap]

/-- The spelling of each value, one behind the other. -/
def Chain (S : α → List Piece → Prop) (values : List α) (pieces : List Piece) : Prop :=
  ∃ parts, List.Forall₂ S values parts ∧ pieces = parts.flatten

theorem Spells.many {read : Reader α} (h : read.Spells S) :
    Spells (Reader.many read : Reader (List α)) (Chain S) := by
  intro offset text values after hmany
  generalize hcursor : (⟨.inLine offset, text⟩ : Cursor) = cursor at hmany
  fun_induction Reader.many read cursor generalizing offset text values with
  | case1 cursor place hread =>
      cases hmany
      cases hcursor
      exact ⟨[], ⟨[], .nil, rfl⟩, .nil offset text⟩
  | case2 cursor place hread => cases hmany
  | case3 cursor value between hread hshorter ih =>
      obtain ⟨⟨others, last⟩, hothers, heq⟩ := map_eq_ok_iff.1 hmany
      cases heq
      cases hcursor
      obtain ⟨front, hvalue, hfront⟩ := h offset text value between hread
      obtain ⟨place, rest⟩ := between
      obtain rfl : place = _ := hfront.position
      obtain ⟨pieces, ⟨parts, hparts, rfl⟩, hpieces⟩ := ih _ rest others rfl hothers
      exact ⟨front ++ parts.flatten, ⟨front :: parts, .cons hvalue hparts, by simp⟩,
        hfront.append hpieces⟩
  | case4 cursor value between hread hlonger => cases hmany

/-- The spelling of each value, with a mark between them. -/
def Listed (separator : String) (S : α → List Piece → Prop) (values : List α)
    (pieces : List Piece) : Prop :=
  ∃ parts, List.Forall₂ S values parts ∧ pieces = [mark separator].intercalate parts

theorem Spells.separated1 {read : Reader α} {separator : Char} (hplain : Text.IsPlain separator)
    (h : read.Spells S) : (Reader.separated1 separator read).Spells fun values pieces =>
      values ≠ [] ∧ Listed (String.singleton separator) S values pieces := by
  refine h.bind fun first front hfirst => ?_
  have hnext : (do char separator; read : Reader α).Spells fun value pieces =>
      ∃ part, S value part ∧ pieces = mark (String.singleton separator) :: part := by
    refine (spells_char hplain).bind ?_
    rintro _ _ rfl
    exact h.mono fun value part hvalue => ⟨part, hvalue, rfl⟩
  refine hnext.many.map ?_
  rintro others pieces ⟨parts, hparts, rfl⟩
  refine ⟨by simp, ?_⟩
  -- each part opens with the separator
  have hbare : ∃ bare, List.Forall₂ S others bare ∧
      parts = bare.map fun part => mark (String.singleton separator) :: part := by
    clear hfirst
    induction hparts with
    | nil => exact ⟨[], .nil, rfl⟩
    | cons hvalue _ ih =>
        obtain ⟨part, hpart, rfl⟩ := hvalue
        obtain ⟨bare, hbare, rfl⟩ := ih
        exact ⟨part :: bare, .cons hpart hbare, rfl⟩
  obtain ⟨bare, hbare, rfl⟩ := hbare
  exact ⟨front :: bare, .cons hfirst hbare, (intercalate_cons _ front bare).symm⟩

theorem Spells.separated {read : Reader α} {separator : Char} (hplain : Text.IsPlain separator)
    (h : read.Spells S) :
    (Reader.separated separator read).Spells (Listed (String.singleton separator) S) := by
  refine (h.separated1 hplain).optional.map ?_
  rintro _ pieces (⟨rfl, rfl⟩ | ⟨values, rfl, -, hvalues⟩)
  · exact ⟨[], .nil, rfl⟩
  · exact hvalues

/-! ## Names -/

theorem spells_identifier : identifier.Spells fun name pieces =>
    Text.isIdentifier name.toList = true ∧ pieces = [mark name] := by
  refine Spells.and (Spells.merge ?_) gives_identifier
  have hpart : ∀ c, Text.isIdentifierPart c = true → Text.IsPlain c :=
    fun c => Text.isPlain_of_isIdentifierPart
  refine (spells_run1 fun c hc =>
    hpart c (Text.isIdentifierPart_of_isIdentifierStart hc)).bind ?_
  rintro front _ rfl
  refine (spells_run hpart).map ?_
  rintro others _ rfl
  simp

/-- Names of certain characters, each behind a separator. -/
theorem spells_segments {separator : Char} (hplain : Text.IsPlain separator) {p : Char → Bool}
    (hp : ∀ c, p c = true → Text.IsPlain c) :
    Spells (Reader.many (do char separator; run1 p) : Reader (List (List Char)))
      fun names pieces => (∀ name ∈ names, name ≠ [] ∧ ∀ c ∈ name, p c = true) ∧
        pieces = (names.map fun name =>
          [mark (String.singleton separator), mark (String.ofList name)]).flatten := by
  have hnext : (do char separator; run1 p : Reader (List Char)).Spells fun name pieces =>
      pieces = [mark (String.singleton separator), mark (String.ofList name)] := by
    refine (spells_char hplain).bind ?_
    rintro _ _ rfl
    refine (spells_run1 hp).mono ?_
    rintro name _ rfl
    rfl
  have hgives : (do char separator; run1 p : Reader (List Char)).Gives fun name =>
      name ≠ [] ∧ ∀ c ∈ name, p c = true := Gives.bind (gives_true _) fun _ _ => gives_run1 p
  refine (hnext.and hgives).many.mono ?_
  rintro names _ ⟨parts, hparts, rfl⟩
  obtain ⟨hnames, rfl⟩ := forall₂_eq_map_iff.1 hparts
  exact ⟨hnames, rfl⟩

/-! ## Whole texts -/

/-- A text that is read is a spelling of what it was read as. -/
theorem Spells.of_readAll {read : Reader α} (h : read.Spells S) {what text : String} {value : α}
    (hread : readAll what read text = .ok value) :
    ∃ pieces, S value pieces ∧ textOf pieces = text ∧ Located 0 pieces := by
  unfold readAll at hread
  split at hread
  swap
  · cases hread
  rename_i answer last hanswer
  cases hread
  obtain ⟨⟨a, after⟩, hvalue, hend⟩ := bind_eq_ok_iff.1 hanswer
  obtain ⟨⟨_, behind⟩, hatEnd, hpure⟩ := bind_eq_ok_iff.1 hend
  cases hpure
  obtain ⟨pieces, hpieces, hcovers⟩ := h 0 text.toList value after hvalue
  refine ⟨pieces, hpieces, ?_, hcovers.located⟩
  -- nothing is left behind the last piece
  have hnothing : after.rest = [] := by
    simp only [atEnd] at hatEnd
    split at hatEnd
    · rename_i hempty
      simpa using hempty
    · cases hatEnd
  rw [← String.toList_inj, hcovers.text, hnothing, List.append_nil]

end Reader

end ResourceQuery
