import ResourceQuery.Proofs.Outcome
import ResourceQuery.Proofs.Query.Grammar
import ResourceQuery.Proofs.Text.Pieces
/-!
# Joined lists

Two texts with a comma between them are read as the elements of the one and then those of the other
(`Grammar.Joins`), up to the places of the elements: no element has a comma in it, so a list is cut
at every comma. The values of a list parameter can therefore be joined (`Grammar.Joins.readAll?_joined`).
-/

namespace ResourceQuery

open Reader Piece

theorem toOption_bind {ε α β : Type} (x : Except ε α) (f : α → Except ε β) :
    (x >>= f).toOption = x.toOption.bind fun a => (f a).toOption := by
  cases x <;> rfl

namespace Grammar

variable {T : Type} {g : Grammar T}

/-- What a text is read as, without its places. -/
def read? (g : Grammar T) (text : String) : Option T := (g.parse text).toOption.map g.unplaced

theorem read?_eq_some_iff {text : String} {tree : T} :
    g.read? text = some tree ↔ ∃ read, g.parse text = .ok read ∧ g.unplaced read = tree := by
  simp only [read?, Option.map_eq_some_iff, toOption_eq_some_iff]

/-! ## Lists cut at their commas -/

/-- Parts whose texts are what a text is cut into make up the text. -/
theorem textOf_of_split {parts : List (List Piece)} {text : String}
    (h : parts.map (fun part => (textOf part).toList) = Text.split ',' text.toList) :
    textOf ([mark ","].intercalate parts) = text := by
  have hjoined := Text.toList_join ',' (parts.map textOf)
  rw [List.map_map, Function.comp_def, h, Text.join_split, String.toList_inj] at hjoined
  rw [textOf_intercalate]
  exact hjoined

/-- Parts without commas are what their text is cut into. -/
theorem split_textOf {parts : List (List Piece)} (hne : parts ≠ [])
    (h : ∀ part ∈ parts, ',' ∉ (textOf part).toList) :
    Text.split ',' (textOf ([mark ","].intercalate parts)).toList =
      parts.map fun part => (textOf part).toList := by
  have hjoined := Text.toList_join ',' (parts.map textOf)
  rw [textOf_intercalate]
  refine (congrArg (Text.split ',') hjoined).trans ?_
  rw [List.map_map, Function.comp_def]
  refine Text.split_joinChars (by simpa using hne) ?_
  rintro _ hpiece
  obtain ⟨part, hpart, rfl⟩ := List.mem_map.1 hpiece
  exact h part hpart

section Lists

variable {parse : String → Except Fault (List T)} {WellFormed : T → Prop}
  {written : T → List Piece} {Spelling : T → List Piece → Prop} {unplaced : T → T} {a b : String}

/-- Two lists that are read are read with a comma between them. -/
theorem Exact.parse_joined (h : (listOf parse WellFormed written Spelling unplaced).Exact)
    (ha : a ≠ "") (hb : b ≠ "") {elements others : List T} (helements : parse a = .ok elements)
    (hothers : parse b = .ok others) : ∃ joined, parse (a ++ "," ++ b) = .ok joined ∧
      joined.map unplaced = elements.map unplaced ++ others.map unplaced := by
  obtain ⟨hformed, _, ⟨parts, hparts, rfl⟩, rfl, -⟩ := h.spelled a elements helements
  obtain ⟨hformed', _, ⟨parts', hparts', rfl⟩, rfl, -⟩ := h.spelled b others hothers
  have hjoined : Listed "," Spelling (elements ++ others)
      ([mark ","].intercalate (parts ++ parts')) := ⟨_, List.rel_append hparts hparts', rfl⟩
  obtain ⟨joined, hread, hunplaced⟩ :=
    h.reads (elements ++ others) _ (List.forall_mem_append.2 ⟨hformed, hformed'⟩) hjoined
  have hne : ∀ {list : List (List Piece)}, textOf ([mark ","].intercalate list) ≠ "" →
      list ≠ [] := by
    rintro _ htext rfl
    exact htext rfl
  rw [intercalate_append "," (hne ha) (hne hb), textOf_append, textOf_cons,
    ← String.append_assoc] at hread
  exact ⟨joined, hread, hunplaced.trans List.map_append⟩

/-- A list with a comma in it is two lists that are read, if its elements have no comma. -/
theorem Exact.parse_cut (h : (listOf parse WellFormed written Spelling unplaced).Exact)
    (hcomma : ∀ element part, WellFormed element → Spelling element part →
      ',' ∉ (textOf part).toList) {joined : List T} (hjoined : parse (a ++ "," ++ b) = .ok joined) :
    ∃ elements others, parse a = .ok elements ∧ parse b = .ok others := by
  obtain ⟨hformed, _, ⟨parts, hparts, rfl⟩, htext, -⟩ := h.spelled _ joined hjoined
  have hne : parts ≠ [] := by
    rintro rfl
    have hempty := congrArg String.toList htext
    simp at hempty
  have hplain : ∀ part ∈ parts, ',' ∉ (textOf part).toList := by
    intro part hpart
    obtain ⟨element, helement, hspelling⟩ := exists_of_forall₂ hparts hpart
    exact hcomma element part (hformed element helement) hspelling
  have hcut := split_textOf hne hplain
  rw [htext] at hcut
  have hchars : (a ++ "," ++ b).toList = a.toList ++ ',' :: b.toList := by simp
  rw [hchars, Text.split_append, eq_comm, List.map_eq_append_iff] at hcut
  obtain ⟨front, back, rfl, hfront, hback⟩ := hcut
  -- the elements are divided as their parts are
  have hread : ∀ {elements : List T} {list : List (List Piece)} {text : String},
      List.Forall₂ Spelling elements list → (∀ element ∈ elements, WellFormed element) →
      list.map (fun part => (textOf part).toList) = Text.split ',' text.toList →
      ∃ read, parse text = .ok read := by
    intro elements list text hspelled hwell hlist
    obtain ⟨read, hread, -⟩ := h.reads elements _ hwell ⟨list, hspelled, rfl⟩
    rw [textOf_of_split hlist] at hread
    exact ⟨read, hread⟩
  obtain ⟨elements, helements⟩ := hread (List.forall₂_take_append _ _ _ hparts)
    (fun element helement => hformed element (List.mem_of_mem_take helement)) hfront
  obtain ⟨others, hothers⟩ := hread (List.forall₂_drop_append _ _ _ hparts)
    (fun element helement => hformed element (List.mem_of_mem_drop helement)) hback
  exact ⟨elements, others, helements, hothers⟩

end Lists

/-- A list and another one with a comma between them are read as the elements of both. -/
def Joins (g : Grammar (List T)) : Prop :=
  ∀ a b : String, a ≠ "" → b ≠ "" →
    g.read? (a ++ "," ++ b) = do return (← g.read? a) ++ (← g.read? b)

theorem listOf_joins {parse : String → Except Fault (List T)} {WellFormed : T → Prop}
    {written : T → List Piece} {Spelling : T → List Piece → Prop} {unplaced : T → T}
    (h : (listOf parse WellFormed written Spelling unplaced).Exact)
    (hcomma : ∀ element part, WellFormed element → Spelling element part →
      ',' ∉ (textOf part).toList) :
    (listOf parse WellFormed written Spelling unplaced).Joins := by
  intro a b ha hb
  simp only [read?, listOf]
  cases hjoined : parse (a ++ "," ++ b) with
  | ok joined =>
      obtain ⟨elements, others, helements, hothers⟩ := h.parse_cut hcomma hjoined
      obtain ⟨again, hagain, hunplaced⟩ := h.parse_joined ha hb helements hothers
      rw [hjoined] at hagain
      cases hagain
      rw [helements, hothers]
      exact congrArg some hunplaced
  | error fault =>
      cases helements : parse a with
      | error fault => rfl
      | ok elements =>
          cases hothers : parse b with
          | error fault => rfl
          | ok others =>
              obtain ⟨joined, hread, -⟩ := h.parse_joined ha hb helements hothers
              rw [hjoined] at hread
              cases hread

/-! ## Values of list parameters -/

/-- The elements of the values of a list parameter, one value after the other. -/
def readAll? (g : Grammar (List T)) (values : List String) : Option (List T) := do
  return (← values.mapM g.read?).flatten

theorem readAll?_cons_eq_some_iff {g : Grammar (List T)} {value : String} {values : List String}
    {elements : List T} : g.readAll? (value :: values) = some elements ↔
      ∃ front back, g.read? value = some front ∧ g.readAll? values = some back ∧
        elements = front ++ back := by
  simp only [readAll?, List.mapM_cons, Option.bind_eq_bind, Option.bind_eq_some_iff, Option.pure_def,
    Option.some.injEq]
  constructor
  · rintro ⟨_, ⟨front, hfront, lists, hlists, rfl⟩, rfl⟩
    exact ⟨front, lists.flatten, hfront, ⟨lists, hlists, rfl⟩, rfl⟩
  · rintro ⟨front, _, hfront, ⟨lists, hlists, rfl⟩, rfl⟩
    exact ⟨front :: lists, ⟨front, hfront, lists, hlists, rfl⟩, rfl⟩

/-- Two values one behind the other are as good as one. -/
theorem Joins.readAll?_joined {g : Grammar (List T)} (h : g.Joins) {a b : String} (ha : a ≠ "")
    (hb : b ≠ "") (front back : List String) :
    g.readAll? (front ++ (a ++ "," ++ b) :: back) = g.readAll? (front ++ a :: b :: back) := by
  simp only [Grammar.readAll?, List.mapM_append, List.mapM_cons, h a b ha hb]
  cases front.mapM g.read? with
  | none => rfl
  | some lists =>
      cases g.read? a with
      | none => rfl
      | some elements =>
          cases g.read? b with
          | none => rfl
          | some others =>
              cases back.mapM g.read? with
              | none => rfl
              | some more => simp

/-- Steps that do not depend on the places of their elements make a run that does not. -/
theorem foldlM_map_unplaced {σ : Type} {unplaced : T → T} {add : σ → T → Except Fault σ}
    (hadd : ∀ state element, (add state (unplaced element)).toOption = (add state element).toOption)
    (elements : List T) (state : σ) :
    ((elements.map unplaced).foldlM add state).toOption = (elements.foldlM add state).toOption := by
  induction elements generalizing state with
  | nil => rfl
  | cons element rest ih =>
      rw [List.map_cons, List.foldlM_cons, List.foldlM_cons, toOption_bind, toOption_bind, hadd]
      exact Option.bind_congr fun next _ => ih next

/-- What is added element by element to a state, wherever the elements stand, is told by the
elements of all values. -/
theorem foldlM_eq_ok_iff {σ : Type} {g : Grammar (List T)} {unplaced : T → T}
    (hunplaced : g.unplaced = List.map unplaced) {add : σ → T → Except Fault σ}
    (hadd : ∀ state element, (add state (unplaced element)).toOption = (add state element).toOption)
    {values : List String} {state final : σ} :
    values.foldlM (fun state value => g.parse value >>= fun elements => elements.foldlM add state)
        state = .ok final ↔
      ∃ elements, g.readAll? values = some elements ∧ elements.foldlM add state = .ok final := by
  have hrun : ∀ (elements : List T) (state next : σ),
      (g.unplaced elements).foldlM add state = .ok next ↔
        elements.foldlM add state = .ok next := by
    intro elements state next
    rw [hunplaced, ← toOption_eq_some_iff, foldlM_map_unplaced hadd, toOption_eq_some_iff]
  induction values generalizing state with
  | nil =>
      constructor
      · exact fun h => ⟨[], rfl, h⟩
      · rintro ⟨elements, helements, h⟩
        cases helements
        exact h
  | cons value rest ih =>
      simp only [List.foldlM_cons, bind_eq_ok_iff, ih, readAll?_cons_eq_some_iff,
        read?_eq_some_iff]
      constructor
      · rintro ⟨next, ⟨read, hread, hfront⟩, back, hback, hrest⟩
        refine ⟨_, ⟨_, back, ⟨read, hread, rfl⟩, hback, rfl⟩, ?_⟩
        rw [List.foldlM_append, bind_eq_ok_iff]
        exact ⟨next, (hrun read state next).2 hfront, hrest⟩
      · rintro ⟨_, ⟨_, back, ⟨read, hread, rfl⟩, hback, rfl⟩, hfinal⟩
        rw [List.foldlM_append, bind_eq_ok_iff] at hfinal
        obtain ⟨next, hfront, hrest⟩ := hfinal
        exact ⟨next, ⟨read, hread, (hrun read state next).1 hfront⟩, back, hback, hrest⟩

/-- The values are read one by one. -/
theorem readAll?_eq (g : Grammar (List T)) (values : List String) :
    g.readAll? values = (values.mapM g.parse).toOption.map fun lists =>
      (lists.map g.unplaced).flatten := by
  have hread : values.mapM g.read? =
      (values.mapM g.parse).toOption.map (List.map g.unplaced) := by
    induction values with
    | nil => rfl
    | cons value rest ih =>
        rw [List.mapM_cons, List.mapM_cons, ih, toOption_bind, read?]
        cases g.parse value with
        | error fault => rfl
        | ok elements => cases rest.mapM g.parse <;> rfl
  rw [readAll?, hread]
  cases values.mapM g.parse <;> rfl

end Grammar

/-! ## Commas -/

theorem Qualifier.comma_notMem {qualifiers : List Qualifier}
    (h : ∀ q ∈ qualifiers, q.WellFormed) : ',' ∉ (textOf (pieces qualifiers)).toList := by
  rw [toList_textOf_pieces, List.mem_flatMap]
  rintro ⟨_, hword, hmem⟩
  obtain ⟨q, hq, rfl⟩ := List.mem_map.1 hword
  rcases List.mem_cons.1 hmem with heq | hmem
  · cases heq
  · refine Text.notMem_join (by decide) ?_ hmem
    intro part hpart
    rcases List.mem_cons.1 hpart with rfl | hparameter
    · exact Text.notMem_of_isIdentifier (by decide) (h q hq).name
    · intro hcomma
      have hchars := ((h q hq).parameters part hparameter).2 ',' hcomma
      revert hchars
      decide

theorem OrderText.joins : grammar.Joins := by
  refine Grammar.listOf_joins grammar_exact ?_
  intro element part helement hpart
  cases element with
  | segment key descending position =>
      obtain ⟨direction, -, rfl⟩ := hpart
      have hkey := Text.notMem_of_isIdentifier (c := ',') (by decide) helement
      have hdirection : ',' ∉ (directionText direction).toList := by
        rcases direction with _ | _ | _ <;> decide
      simp [segmentPiece, hkey, hdirection]
  | property path qualifiers =>
      obtain rfl : part = path.piece :: Qualifier.pieces qualifiers := hpart
      have hpath : ',' ∉ path.path.toList := helement.1.notMem (by decide) (by decide)
      have hqualifiers := Qualifier.comma_notMem helement.2
      rw [textOf_cons, String.toList_append, List.mem_append]
      exact not_or.2 ⟨hpath, hqualifiers⟩

theorem ProjectionText.joins : grammar.Joins := by
  refine Grammar.listOf_joins grammar_exact ?_
  rintro element _ helement rfl
  have hpath : ∀ {path : PathText}, Text.IsDotted path.path → ',' ∉ path.piece.text.toList :=
    fun h => h.notMem (by decide) (by decide)
  cases element with
  | includeAll position => simp [pieces]
  | scopePath path key =>
      have hkey := Text.notMem_of_isIdentifier (c := ',') (by decide) helement.2
      simpa [pieces, hkey] using hpath helement.1
  | _ => simpa [pieces] using hpath helement

theorem PathText.joins : grammar.Joins := by
  refine Grammar.listOf_joins grammar_exact ?_
  rintro path _ hpath rfl
  have hcomma := hpath.notMem (c := ',') (by decide) (by decide)
  simpa [piece] using hcomma

end ResourceQuery
