import Mathlib.Data.List.Forall2
import Mathlib.Data.List.TakeWhile
import ResourceQuery.Proofs.Outcome
import ResourceQuery.Query.Reader
import ResourceQuery.Text.Piece
/-!
# What readers take and give

`Takes` says that a reader takes a piece from the front of a text and leaves the rest, wherever the
text stands; `Misses`, that it finds nothing. `Gives` bounds the values a reader can answer with, and
`Advances` says that it leaves the end of its text. Each combinator has a lemma for each of them.
-/

namespace ResourceQuery

theorem Text.toList_join_cons (separator first : String) (others : List String) :
    (join separator (first :: others)).toList =
      first.toList ++ others.flatMap fun piece => separator.toList ++ piece.toList := by
  induction others generalizing first with
  | nil => simp [join]
  | cons second rest ih =>
      rw [join, String.toList_append, String.toList_append, ih]
      · simp
      · simp

namespace Reader

variable {α β : Type}

/-- The reader takes a piece in front of a text that goes on with `rest`. -/
def Takes (read : Reader α) (front rest : List Char) (P : α → Prop) : Prop :=
  ∀ position, ∃ value after, read ⟨position, front ++ rest⟩ = .ok (value, after) ∧
    after.rest = rest ∧ P value

/-- The reader does not find its piece. -/
def Misses (read : Reader α) (text : List Char) : Prop :=
  ∀ position, ∃ place, read ⟨position, text⟩ = .error (.absent place)

/-- All values that the reader answers with. -/
def Gives (read : Reader α) (P : α → Prop) : Prop :=
  ∀ cursor value after, read cursor = .ok (value, after) → P value

/-! ## Chains -/

theorem bind_apply (read : Reader α) (f : α → Reader β) (cursor : Cursor) :
    (read >>= f) cursor = (read cursor >>= fun answer => f answer.1 answer.2) := rfl

theorem Takes.mono {read : Reader α} {front rest : List Char} {P Q : α → Prop}
    (h : read.Takes front rest P) (hPQ : ∀ a, P a → Q a) : read.Takes front rest Q := by
  intro position
  obtain ⟨value, after, hread, hafter, hvalue⟩ := h position
  exact ⟨value, after, hread, hafter, hPQ value hvalue⟩

theorem Takes.bind {read : Reader α} {f : α → Reader β} {front middle rest : List Char}
    {P : α → Prop} {Q : β → Prop} (hread : read.Takes front (middle ++ rest) P)
    (hf : ∀ a, P a → (f a).Takes middle rest Q) :
    (read >>= f).Takes (front ++ middle) rest Q := by
  intro position
  obtain ⟨a, ⟨between, text⟩, hfirst, rfl, ha⟩ := hread position
  obtain ⟨b, after, hsecond, hafter, hb⟩ := hf a ha between
  refine ⟨b, after, ?_, hafter, hb⟩
  rw [List.append_assoc, bind_apply, hfirst, ok_bind]
  exact hsecond

theorem takes_pure (a : α) (rest : List Char) :
    (pure a : Reader α).Takes [] rest fun b => b = a := by
  intro position
  exact ⟨a, ⟨position, rest⟩, rfl, rfl, rfl⟩

theorem takes_position (rest : List Char) : Reader.position.Takes [] rest fun _ => True := by
  intro position
  exact ⟨position, ⟨position, rest⟩, rfl, rfl, trivial⟩

/-- Noting the place in front takes nothing. -/
theorem takes_position_bind {f : Position → Reader β} {front rest : List Char} {Q : β → Prop}
    (h : ∀ position, (f position).Takes front rest Q) :
    (Reader.position >>= f).Takes front rest Q :=
  (takes_position _).bind fun position _ => h position

/-- A reader that takes nothing leaves the text to what comes behind it. -/
theorem Takes.before {read : Reader α} {f : α → Reader β} {text rest : List Char} {P : α → Prop}
    {Q : β → Prop} (hread : read.Takes [] (text ++ rest) P)
    (hf : ∀ a, P a → (f a).Takes text rest Q) : (read >>= f).Takes text rest Q :=
  Takes.bind hread hf

/-- A reader of one character comes before the reader of the others. -/
theorem Takes.cons {read : Reader α} {f : α → Reader β} {c : Char} {text rest : List Char}
    {P : α → Prop} {Q : β → Prop} (hread : read.Takes [c] (text ++ rest) P)
    (hf : ∀ a, P a → (f a).Takes text rest Q) : (read >>= f).Takes (c :: text) rest Q :=
  Takes.bind hread hf

/-- What comes behind a reader may take nothing. -/
theorem Takes.finish {read : Reader α} {f : α → Reader β} {front rest : List Char} {P : α → Prop}
    {Q : β → Prop} (hread : read.Takes front rest P) (hf : ∀ a, P a → (f a).Takes [] rest Q) :
    (read >>= f).Takes front rest Q := by
  rw [← List.append_nil front]
  exact Takes.bind (by simpa using hread) hf

theorem Takes.map {read : Reader α} {f : α → β} {front rest : List Char} {P : α → Prop}
    {Q : β → Prop} (h : read.Takes front rest P) (hPQ : ∀ a, P a → Q (f a)) :
    (do return f (← read) : Reader β).Takes front rest Q := by
  refine h.finish fun a ha => (takes_pure (f a) rest).mono ?_
  rintro _ rfl
  exact hPQ a ha

theorem Misses.bind {read : Reader α} {f : α → Reader β} {text : List Char}
    (h : read.Misses text) : (read >>= f).Misses text := by
  intro position
  obtain ⟨place, hread⟩ := h position
  exact ⟨place, by rw [bind_apply, hread, error_bind]⟩

theorem misses_position_bind {f : Position → Reader β} {text : List Char}
    (h : ∀ position, (f position).Misses text) : (Reader.position >>= f).Misses text := by
  intro position
  obtain ⟨place, hread⟩ := h position position
  exact ⟨place, hread⟩

theorem Gives.bind {read : Reader α} {f : α → Reader β} {P : α → Prop} {Q : β → Prop}
    (hread : read.Gives P) (hf : ∀ a, P a → (f a).Gives Q) : (read >>= f).Gives Q := by
  intro cursor value after h
  rw [bind_apply, bind_eq_ok_iff] at h
  obtain ⟨⟨a, between⟩, hfirst, hsecond⟩ := h
  exact hf a (hread cursor a between hfirst) between value after hsecond

theorem gives_true (read : Reader α) : read.Gives fun _ => True := fun _ _ _ _ => trivial

theorem gives_pure {a : α} {P : α → Prop} (h : P a) : (pure a : Reader α).Gives P := by
  intro cursor value after hread
  cases hread
  exact h

/-! ## Characters -/

theorem takes_char (c : Char) (rest : List Char) : (char c).Takes [c] rest fun _ => True := by
  intro position
  refine ⟨(), ⟨position.advance c, rest⟩, ?_, rfl, trivial⟩
  simp only [char, List.cons_append, List.nil_append, if_true]

theorem misses_char {c : Char} {text : List Char} (h : text.head? ≠ some c) :
    (char c).Misses text := by
  intro position
  refine ⟨position, ?_⟩
  cases text with
  | nil => rfl
  | cons d rest =>
      have hne : d ≠ c := by simpa using h
      simp only [char, if_neg hne]

/-- The text goes on with something else than a character of a run. -/
def Ends (p : Char → Bool) (text : List Char) : Prop := ∀ c ∈ text.head?, p c = false

theorem span_eq {p : Char → Bool} {front rest : List Char} (hfront : ∀ c ∈ front, p c = true)
    (hrest : Ends p rest) (position : Position) :
    ∃ after, Cursor.span p position (front ++ rest) = (front, after) ∧ after.rest = rest := by
  induction front generalizing position with
  | nil =>
      refine ⟨⟨position, rest⟩, ?_, rfl⟩
      cases rest with
      | nil => rfl
      | cons c others =>
          have hc := hrest c (by simp)
          rw [List.nil_append, Cursor.span, if_neg (by simp [hc])]
  | cons c front ih =>
      obtain ⟨after, hspan, hafter⟩ :=
        ih (fun d hd => hfront d (by simp [hd])) (position.advance c)
      refine ⟨after, ?_, hafter⟩
      rw [List.cons_append, Cursor.span, if_pos (hfront c (by simp)), hspan]

theorem takes_run {p : Char → Bool} {front rest : List Char} (hfront : ∀ c ∈ front, p c = true)
    (hrest : Ends p rest) : (run p).Takes front rest fun value => value = front := by
  intro position
  obtain ⟨after, hspan, hafter⟩ := span_eq hfront hrest position
  exact ⟨front, after, by rw [run, hspan], hafter, rfl⟩

theorem takes_run1 {p : Char → Bool} {front rest : List Char} (hne : front ≠ [])
    (hfront : ∀ c ∈ front, p c = true) (hrest : Ends p rest) :
    (run1 p).Takes front rest fun value => value = front := by
  intro position
  obtain ⟨after, hspan, hafter⟩ := span_eq hfront hrest position
  refine ⟨front, after, ?_, hafter, rfl⟩
  simp only [run1, hspan]
  rw [if_neg (by simpa using hne)]

theorem misses_run1 {p : Char → Bool} {text : List Char} (h : Ends p text) :
    (run1 p).Misses text := by
  intro position
  have hnone : ∀ c ∈ ([] : List Char), p c = true := by simp
  obtain ⟨after, hspan, -⟩ := span_eq hnone h position
  rw [List.nil_append] at hspan
  refine ⟨position, ?_⟩
  simp only [run1, hspan]
  rfl

theorem span_all (p : Char → Bool) (position : Position) (text : List Char) :
    ∀ c ∈ (Cursor.span p position text).1, p c = true := by
  induction text generalizing position with
  | nil => simp [Cursor.span]
  | cons d rest ih =>
      intro c hc
      rw [Cursor.span] at hc
      split at hc
      · rename_i hd
        rcases List.mem_cons.1 hc with rfl | hc
        · exact hd
        · exact ih _ c hc
      · simp at hc

theorem gives_run (p : Char → Bool) : (run p).Gives fun value => ∀ c ∈ value, p c = true := by
  intro cursor value after h
  simp only [run, Except.ok.injEq] at h
  have hvalue : value = (Cursor.span p cursor.position cursor.rest).1 := by rw [h]
  rw [hvalue]
  exact span_all p cursor.position cursor.rest

theorem gives_run1 (p : Char → Bool) :
    (run1 p).Gives fun value => value ≠ [] ∧ ∀ c ∈ value, p c = true := by
  intro cursor value after h
  have hall := span_all p cursor.position cursor.rest
  simp only [run1] at h
  split at h
  · cases h
  · rename_i hne
    cases h
    exact ⟨by simpa using hne, hall⟩

/-! ## Repetition -/

/-- Pieces that each stand in front of something that ends them. -/
theorem takes_many {ι : Type} {read : Reader α} {text : ι → List Char} {P : ι → α → Prop}
    {items : List ι} {rest : List Char} (Ended : List Char → Prop) (hrest : Ended rest)
    (htext : ∀ i more, Ended (text i ++ more)) (hne : ∀ i, text i ≠ [])
    (hread : ∀ i ∈ items, ∀ more, Ended more → read.Takes (text i) more (P i))
    (hmisses : read.Misses rest) :
    Takes (many read : Reader (List α)) (items.flatMap text) rest (List.Forall₂ P items) := by
  induction items with
  | nil =>
      intro position
      obtain ⟨place, hplace⟩ := hmisses position
      refine ⟨[], ⟨position, rest⟩, ?_, rfl, .nil⟩
      rw [List.flatMap_nil, List.nil_append, many, hplace]
  | cons i others ih =>
      intro position
      have hothers := ih fun j hj => hread j (by simp [hj])
      have hended : Ended (others.flatMap text ++ rest) := by
        cases others with
        | nil => exact hrest
        | cons j more =>
            rw [List.flatMap_cons, List.append_assoc]
            exact htext j _
      obtain ⟨value, ⟨between, tail⟩, hfirst, rfl, hvalue⟩ :=
        hread i (by simp) _ hended position
      obtain ⟨values, after, hmany, hafter, hvalues⟩ := hothers between
      refine ⟨value :: values, after, ?_, hafter, .cons hvalue hvalues⟩
      have hshorter : (others.flatMap text ++ rest).length <
          (text i ++ (others.flatMap text ++ rest)).length := by
        have := List.length_pos_iff.2 (hne i)
        simp only [List.length_append]
        omega
      rw [List.flatMap_cons, List.append_assoc, many, hfirst]
      simp only [hmany, if_pos hshorter]
      rfl

theorem gives_many {read : Reader α} {P : α → Prop} (h : read.Gives P) :
    Gives (many read : Reader (List α)) fun values => ∀ value ∈ values, P value := by
  intro cursor values after hmany
  fun_induction many read cursor generalizing values with
  | case1 cursor place hread =>
      cases hmany
      simp
  | case2 cursor position hread => cases hmany
  | case3 cursor value next hread hshorter ih =>
      obtain ⟨⟨others, last⟩, hothers, heq⟩ := map_eq_ok_iff.1 hmany
      cases heq
      intro a ha
      rcases List.mem_cons.1 ha with rfl | ha
      · exact h cursor a next hread
      · exact ih others hothers a ha
  | case4 cursor value next hread hlonger => cases hmany

/-! ## Alternatives -/

theorem Takes.orElse {first : Reader α} {front rest : List Char} {P : α → Prop}
    (h : first.Takes front rest P) (second : Reader α) :
    (Reader.orElse first second).Takes front rest P := by
  intro position
  obtain ⟨value, after, hread, hafter, hvalue⟩ := h position
  refine ⟨value, after, ?_, hafter, hvalue⟩
  simp only [Reader.orElse, hread]

theorem Misses.orElse {first second : Reader α} {front rest : List Char} {P : α → Prop}
    (hfirst : first.Misses (front ++ rest)) (hsecond : second.Takes front rest P) :
    (Reader.orElse first second).Takes front rest P := by
  intro position
  obtain ⟨place, hmiss⟩ := hfirst position
  obtain ⟨value, after, hread, hafter, hvalue⟩ := hsecond position
  refine ⟨value, after, ?_, hafter, hvalue⟩
  simp only [Reader.orElse, hmiss, hread]

theorem Takes.optional {read : Reader α} {front rest : List Char} {P : α → Prop}
    (h : read.Takes front rest P) :
    (Reader.optional read).Takes front rest fun answer => ∃ a, answer = some a ∧ P a := by
  intro position
  obtain ⟨value, after, hread, hafter, hvalue⟩ := h position
  refine ⟨some value, after, ?_, hafter, value, rfl, hvalue⟩
  simp only [Reader.optional, hread]

theorem Misses.optional {read : Reader α} {rest : List Char} (h : read.Misses rest) :
    (Reader.optional read).Takes [] rest fun answer => answer = none := by
  intro position
  obtain ⟨place, hmiss⟩ := h position
  refine ⟨none, ⟨position, rest⟩, ?_, rfl, rfl⟩
  simp only [Reader.optional, List.nil_append, hmiss]

theorem Gives.orElse {first second : Reader α} {P : α → Prop} (hfirst : first.Gives P)
    (hsecond : second.Gives P) : (Reader.orElse first second).Gives P := by
  intro cursor value after h
  simp only [Reader.orElse] at h
  split at h
  · exact hsecond _ _ _ h
  · exact hfirst _ _ _ h

theorem Gives.optional {read : Reader α} {P : α → Prop} (h : read.Gives P) :
    (Reader.optional read).Gives fun answer => ∀ a ∈ answer, P a := by
  intro cursor answer after hread
  simp only [Reader.optional] at hread
  split at hread
  · rename_i value last hvalue
    cases hread
    intro a ha
    cases ha
    exact h cursor value after hvalue
  · cases hread
    simp
  · cases hread

/-! ## Identifiers and lists -/

theorem Ends.mono {p q : Char → Bool} {text : List Char} (h : Ends q text)
    (hpq : ∀ c, p c = true → q c = true) : Ends p text := by
  intro c hc
  have hq := h c hc
  cases hp : p c with
  | false => rfl
  | true =>
      rw [hpq c hp] at hq
      cases hq

theorem takes_identifier {name rest : List Char} (hname : Text.isIdentifier name = true)
    (hrest : Ends Text.isIdentifierPart rest) :
    identifier.Takes name rest fun value => value = String.ofList name := by
  -- the run of characters that may start an identifier, and what is left for the second run
  have hsplit := List.takeWhile_append_dropWhile (p := Text.isIdentifierStart) (l := name)
  have hall := Text.isIdentifierPart_of_mem hname
  have hne : name.takeWhile Text.isIdentifierStart ≠ [] := by
    cases name with
    | nil => simp [Text.isIdentifier] at hname
    | cons c others =>
        simp only [Text.isIdentifier, Bool.and_eq_true] at hname
        simp [hname.1]
  have hends : Ends Text.isIdentifierStart (name.dropWhile Text.isIdentifierStart ++ rest) := by
    cases hdrop : name.dropWhile Text.isIdentifierStart with
    | nil => exact hrest.mono fun c => Text.isIdentifierPart_of_isIdentifierStart
    | cons d others =>
        intro c hc
        obtain rfl : d = c := by simpa using hc
        have hhead := List.head?_dropWhile_not Text.isIdentifierStart name
        rw [hdrop] at hhead
        simpa using hhead
  have hstart := takes_run1 hne (fun c hc => List.mem_takeWhile_imp hc) hends
  have hothers : (run Text.isIdentifierPart).Takes (name.dropWhile Text.isIdentifierStart) rest
      fun value => value = name.dropWhile Text.isIdentifierStart :=
    takes_run (fun c hc => hall c ((List.dropWhile_suffix _).subset hc)) hrest
  have hchain := hstart.bind fun front hfront =>
    hothers.map (f := fun others => String.ofList (front ++ others))
      (Q := fun value => value = String.ofList name) (by
        rintro others rfl
        rw [hfront, hsplit])
  rw [hsplit] at hchain
  exact hchain

theorem misses_identifier {text : List Char} (h : Ends Text.isIdentifierStart text) :
    identifier.Misses text := Misses.bind (misses_run1 h)

theorem gives_identifier :
    identifier.Gives fun name => Text.isIdentifier name.toList = true := by
  refine Gives.bind (gives_run1 _) fun front hfront => ?_
  refine Gives.bind (gives_run _) fun others hothers => ?_
  refine gives_pure ?_
  obtain ⟨hne, hall⟩ := hfront
  cases front with
  | nil => exact absurd rfl hne
  | cons c front =>
      simp only [String.toList_ofList, List.cons_append, Text.isIdentifier, Bool.and_eq_true,
        List.all_eq_true, List.mem_append]
      refine ⟨hall c (by simp), ?_⟩
      rintro d (hd | hd)
      · exact Text.isIdentifierPart_of_isIdentifierStart (hall d (by simp [hd]))
      · exact hothers d hd

theorem takes_separated1 {ι : Type} {read : Reader α} {text : ι → List Char} {P : ι → α → Prop}
    {separator : Char} {first : ι} {others : List ι} {rest : List Char}
    (Ended : List Char → Prop) (hrest : Ended rest) (hseparator : ∀ more, Ended (separator :: more))
    (hread : ∀ i ∈ first :: others, ∀ more, Ended more → read.Takes (text i) more (P i))
    (hmisses : (do char separator; read : Reader α).Misses rest) :
    (separated1 separator read).Takes (text first ++ others.flatMap fun i => separator :: text i)
      rest (List.Forall₂ P (first :: others)) := by
  have hothers : Takes (many (do char separator; read) : Reader (List α))
      (others.flatMap fun i => separator :: text i) rest (List.Forall₂ P others) := by
    refine takes_many Ended hrest (fun i more => hseparator _) (by simp) ?_ hmisses
    intro i hi more hmore
    exact (takes_char separator _).bind fun _ _ => hread i (by simp [hi]) more hmore
  have hended : Ended ((others.flatMap fun i => separator :: text i) ++ rest) := by
    cases others with
    | nil => exact hrest
    | cons i more => exact hseparator _
  refine Takes.bind (hread first (by simp) _ hended) fun value hvalue => ?_
  exact hothers.map fun values hvalues => .cons hvalue hvalues

/-- The separator alone is no further piece. -/
theorem misses_separator {read : Reader α} {separator : Char} {rest : List Char}
    (h : ∀ more, rest = separator :: more → read.Misses more) :
    (do char separator; read : Reader α).Misses rest := by
  by_cases hhead : rest.head? = some separator
  · obtain ⟨more, rfl⟩ := List.head?_eq_some_iff.1 hhead
    intro position
    obtain ⟨place, hread⟩ := h more rfl (position.advance separator)
    refine ⟨place, ?_⟩
    simp only [bind_apply, char, if_true, ok_bind, hread]
  · exact Misses.bind (misses_char hhead)

theorem gives_separated1 {read : Reader α} {P : α → Prop} (separator : Char) (h : read.Gives P) :
    (separated1 separator read).Gives fun values => values ≠ [] ∧ ∀ value ∈ values, P value := by
  refine Gives.bind h fun first hfirst => ?_
  refine Gives.bind (gives_many (Gives.bind (gives_true _) fun _ _ => h)) fun others hothers => ?_
  refine gives_pure ⟨by simp, ?_⟩
  intro value hvalue
  rcases List.mem_cons.1 hvalue with rfl | hvalue
  · exact hfirst
  · exact hothers value hvalue

theorem gives_separated {read : Reader α} {P : α → Prop} (separator : Char) (h : read.Gives P) :
    (separated separator read).Gives fun values => ∀ value ∈ values, P value := by
  refine Gives.bind (gives_separated1 separator h).optional fun answer hanswer => ?_
  refine gives_pure ?_
  cases answer with
  | none => simp
  | some values => exact (hanswer values rfl).2

/-! ## Words -/

theorem takes_word (text rest : List Char) : (word text).Takes text rest fun _ => True := by
  intro position
  refine ⟨(), ⟨text.foldl Position.advance position, rest⟩, ?_, rfl, trivial⟩
  simp [word]

theorem misses_word {text rest : List Char} (h : ¬text <+: rest) : (word text).Misses rest := by
  intro position
  refine ⟨position, ?_⟩
  rw [word, if_neg (by rwa [List.isPrefixOf_iff_prefix])]

/-! ## Lists of elements -/

/-- An element of a list ends here. -/
def ElementEnds (text : List Char) : Prop := ∀ c ∈ text.head?, c = ','

theorem takes_atElementEnd {rest : List Char} (h : ElementEnds rest) :
    atElementEnd.Takes [] rest fun _ => True := by
  intro position
  refine ⟨(), ⟨position, rest⟩, ?_, rfl, trivial⟩
  cases rest with
  | nil => rfl
  | cons c more =>
      obtain rfl : c = ',' := h c rfl
      rfl

/-! ## Whole texts -/

theorem readAll_of_takes {read : Reader α} {text : String} {P : α → Prop} (what : String)
    (h : read.Takes text.toList [] P) : ∃ value, readAll what read text = .ok value ∧ P value := by
  obtain ⟨value, after, hread, hafter, hvalue⟩ := h .start
  rw [List.append_nil] at hread
  refine ⟨value, ?_, hvalue⟩
  have hend : atEnd after = .ok ((), after) := by
    simp only [atEnd, hafter, List.isEmpty_nil, if_true]
  simp only [readAll, bind_apply, Cursor.start, hread, ok_bind, hend]
  rfl

/-- A list of elements that can be read is read, element by element. -/
theorem readAll_separated {ι : Type} {read : Reader α} {text : ι → String} {P : ι → α → Prop}
    {items : List ι} (what : String) (hne : items ≠ [])
    (hread : ∀ i ∈ items, ∀ rest, ElementEnds rest → read.Takes (text i).toList rest (P i)) :
    ∃ values, readAll what (separated ',' read) (Text.join "," (items.map text)) = .ok values ∧
      List.Forall₂ P items values := by
  cases items with
  | nil => exact absurd rfl hne
  | cons first others =>
      have hlast : (do char ','; read : Reader α).Misses [] :=
        Misses.bind (misses_char (by simp))
      have hlist := takes_separated1 ElementEnds (by simp [ElementEnds]) (by simp [ElementEnds])
        hread hlast
      have htext : (Text.join "," ((first :: others).map text)).toList =
          (text first).toList ++ others.flatMap fun i => ',' :: (text i).toList := by
        rw [List.map_cons, Text.toList_join_cons, List.flatMap_map]
        rfl
      apply readAll_of_takes
      rw [htext]
      refine hlist.optional.map fun answer hanswer => ?_
      obtain ⟨values, rfl, hvalues⟩ := hanswer
      exact hvalues

theorem of_readAll {read : Reader α} {what text : String} {value : α} {P : α → Prop}
    (hread : read.Gives P) (h : readAll what read text = .ok value) : P value := by
  have hgives : (do let value ← read; atEnd; return value : Reader α).Gives P :=
    Gives.bind hread fun a ha => Gives.bind (gives_true _) fun _ _ => gives_pure ha
  unfold readAll at h
  split at h
  · rename_i answer after hanswer
    cases h
    exact hgives _ _ _ hanswer
  · cases h

/-! ## What is left -/

/-- What the reader leaves is the end of the text in front of it. -/
def Advances (read : Reader α) : Prop :=
  ∀ cursor value after, read cursor = .ok (value, after) → after.rest <:+ cursor.rest

theorem Advances.bind {read : Reader α} {f : α → Reader β} (hread : read.Advances)
    (hf : ∀ a, (f a).Advances) : (read >>= f).Advances := by
  intro cursor value after h
  rw [bind_apply, bind_eq_ok_iff] at h
  obtain ⟨⟨a, between⟩, hfirst, hsecond⟩ := h
  exact (hf a between value after hsecond).trans (hread cursor a between hfirst)

theorem advances_pure (a : α) : (pure a : Reader α).Advances := by
  intro cursor value after h
  cases h
  exact List.suffix_rfl

theorem advances_char (c : Char) : (char c).Advances := by
  intro cursor value after h
  unfold char at h
  split at h
  · cases h
  · rename_i d rest hrest
    split at h
    · cases h
      rw [hrest]
      exact List.suffix_cons d rest
    · cases h

theorem span_suffix (p : Char → Bool) (position : Position) (text : List Char) :
    (Cursor.span p position text).2.rest <:+ text := by
  induction text generalizing position with
  | nil => exact List.suffix_rfl
  | cons c rest ih =>
      rw [Cursor.span]
      split
      · exact (ih _).trans (List.suffix_cons c rest)
      · exact List.suffix_rfl

theorem advances_run (p : Char → Bool) : (run p).Advances := by
  intro cursor value after h
  simp only [run, Except.ok.injEq] at h
  have hafter : after = (Cursor.span p cursor.position cursor.rest).2 := by rw [h]
  rw [hafter]
  exact span_suffix p cursor.position cursor.rest

theorem advances_run1 (p : Char → Bool) : (run1 p).Advances := by
  intro cursor value after h
  have hsuffix := span_suffix p cursor.position cursor.rest
  simp only [run1] at h
  split at h
  · cases h
  · cases h
    exact hsuffix

theorem advances_many {read : Reader α} (h : read.Advances) :
    Advances (many read : Reader (List α)) := by
  intro cursor values after hmany
  fun_induction many read cursor generalizing values with
  | case1 cursor place hread =>
      cases hmany
      exact List.suffix_rfl
  | case2 cursor position hread => cases hmany
  | case3 cursor value next hread hshorter ih =>
      obtain ⟨⟨others, last⟩, hothers, heq⟩ := map_eq_ok_iff.1 hmany
      cases heq
      exact (ih others hothers).trans (h cursor value next hread)
  | case4 cursor value next hread hlonger => cases hmany

theorem advances_identifier : identifier.Advances :=
  (advances_run1 _).bind fun _ => (advances_run _).bind fun _ => advances_pure _

end Reader

end ResourceQuery
