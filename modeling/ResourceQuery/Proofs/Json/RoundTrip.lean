import ResourceQuery.Proofs.Json.Text
import ResourceQuery.Proofs.Query.Reader
/-!
# Written documents are read

A document of integers, truth values and texts that is not nested too deep is read from both of its
written forms (`Json.Fits.parse?_compact`, `Json.Fits.parse?_indented`). `Json.Reads` is what the
induction carries: the text of a part is read in front of whatever ends it. The two forms differ
only in the white space between the parts (`Json.enclosed`).
-/

namespace ResourceQuery.Json

/-! ## Reading a part -/

/-- A text is read as a document, whatever ends it, if so many levels are left. -/
structure Reads (levels : Nat) (j : Json) (text : List Char) : Prop where
  /-- No white space and no closing bracket stands in front. -/
  begins : ∃ c more, text = c :: more ∧ isSpace c = false ∧ c ≠ ']'
  reads : ∀ fuel depth rest, j.weight ≤ fuel → levels ≤ depth → EndsValue rest →
    readValue fuel depth (text ++ rest) = some (j, rest)
  /-- Every value and every name has a character of its own. -/
  weight : j.weight + 1 ≤ 2 * text.length

theorem endsValue_closing {last : List Char} (h : IsBlank last) {c : Char}
    (hc : c ∈ [']', '\x7d']) (rest : List Char) : EndsValue (last ++ c :: rest) := by
  cases last with
  | nil =>
      intro d hd
      cases hd
      exact .inr (List.mem_cons_of_mem _ hc)
  | cons blank more =>
      intro d hd
      cases hd
      exact .inl (h blank (by simp))

theorem endsValue_comma (rest : List Char) : EndsValue (',' :: rest) := by
  intro c hc
  cases hc
  exact .inr (by simp)

theorem readValue_gap {gap : List Char} (h : IsBlank gap) (fuel depth : Nat) (text : List Char) :
    readValue fuel depth (gap ++ text) = readValue fuel depth text := by
  cases fuel with
  | zero => simp only [readValue]
  | succ fuel => simp only [readValue, skipSpace_append h]

theorem readItems_gap {gap : List Char} (h : IsBlank gap) (fuel depth : Nat) (items : List Json)
    (text : List Char) :
    readItems fuel depth items (gap ++ text) = readItems fuel depth items text := by
  cases fuel with
  | zero => simp only [readItems]
  | succ fuel => simp only [readItems, readValue_gap h]

theorem readMembers_gap {gap : List Char} (h : IsBlank gap) (fuel depth : Nat)
    (members : List (String × Json)) (text : List Char) :
    readMembers fuel depth members (gap ++ text) = readMembers fuel depth members text := by
  cases fuel with
  | zero => simp only [readMembers]
  | succ fuel => simp only [readMembers, skipSpace_append h]

/-! ## Leaves -/

theorem reads_null (levels : Nat) : Reads levels null "null".toList where
  begins := ⟨'n', _, rfl, by decide, by decide⟩
  reads := by
    intro fuel depth rest hfuel _ _
    obtain ⟨steps, rfl⟩ := Nat.exists_eq_add_of_le' hfuel
    rfl
  weight := by decide

theorem reads_bool (levels : Nat) (b : Bool) :
    Reads levels (bool b) (if b then "true" else "false").toList where
  begins := by
    cases b
    · exact ⟨'f', _, rfl, by decide, by decide⟩
    · exact ⟨'t', _, rfl, by decide, by decide⟩
  reads := by
    intro fuel depth rest hfuel _ _
    obtain ⟨steps, rfl⟩ := Nat.exists_eq_add_of_le' hfuel
    cases b <;> rfl
  weight := by cases b <;> decide

theorem reads_string (levels : Nat) (s : String) : Reads levels (string s) (quote s).toList where
  begins := ⟨'"', s.toList.flatMap escape ++ ['"'], by simp [quote], by decide, by decide⟩
  reads := by
    intro fuel depth rest hfuel _ _
    obtain ⟨steps, rfl⟩ := Nat.exists_eq_add_of_le' hfuel
    rw [toList_quote]
    change (readString [] (s.toList.flatMap escape ++ '"' :: rest)).map _ = _
    rw [readString_quote]
    rfl
  weight := by
    have hlength : 2 ≤ (quote s).toList.length := by simp [quote]
    simp only [weight]
    omega

/-- What begins with none of the marks of other values is read as a number. -/
theorem readValue_number {c : Char} (hspace : isSpace c = false)
    (hc : c ∉ ['"', '[', '\x7b', 't', 'f', 'n']) (steps depth : Nat) (text : List Char) :
    readValue (steps + 1) depth (c :: text) =
      (readNumber (c :: text)).map fun (n, rest) => (.number n, rest) := by
  simp only [List.mem_cons, List.not_mem_nil, or_false, not_or] at hc
  obtain ⟨_, _, _, ht, hf, hn⟩ := hc
  simp [readValue, skipSpace_cons hspace, ht, hf, hn]

theorem reads_integer (levels : Nat) {n : Int} (h : InRange n) :
    Reads levels (number (.integer n)) (Numeral.ofInt n).toList := by
  have hlead : ∃ c more, (Numeral.ofInt n).toList = c :: more ∧ (c.isDigit = true ∨ c = '-') := by
    rw [Numeral.ofInt, String.toList_ofList]
    obtain ⟨d, ds, hdigits⟩ := List.exists_cons_of_ne_nil (Numeral.digits_ne_nil n.natAbs)
    have hd := Numeral.isDigit_of_mem_digits (n := n.natAbs) (c := d) (by rw [hdigits]; simp)
    split
    · exact ⟨'-', _, rfl, .inr rfl⟩
    · exact ⟨d, ds, hdigits, .inl hd⟩
  obtain ⟨c, more, htext, hc⟩ := hlead
  have hne : ∀ d : Char, d.isDigit = false → d ≠ '-' → c ≠ d := by
    rintro d hd hminus rfl
    rcases hc with hc | hc
    · rw [hd] at hc
      cases hc
    · exact hminus hc
  have hspace : isSpace c = false := by
    simp [isSpace, hne ' ' (by decide) (by decide), hne '\n' (by decide) (by decide),
      hne '\t' (by decide) (by decide), hne '\r' (by decide) (by decide)]
  refine ⟨⟨c, more, htext, hspace, hne ']' (by decide) (by decide)⟩, ?_, ?_⟩
  · intro fuel depth rest hfuel _ hrest
    obtain ⟨steps, rfl⟩ := Nat.exists_eq_add_of_le' hfuel
    have hnumber := readNumber_ofInt h hrest
    rw [htext, List.cons_append] at hnumber ⊢
    refine (readValue_number hspace ?_ steps depth _).trans (by rw [hnumber]; rfl)
    simp [hne '"' (by decide) (by decide), hne '[' (by decide) (by decide),
      hne '\x7b' (by decide) (by decide), hne 't' (by decide) (by decide),
      hne 'f' (by decide) (by decide), hne 'n' (by decide) (by decide)]
  · rw [htext]
    simp only [weight, List.length_cons]
    omega

/-! ## Arrays and objects -/

/-- The texts of parts between brackets: white space of its own stands in front of each part, and in
front of the closing bracket if there are parts. -/
def enclosed (opening closing : Char) (gap last : List Char) : List (List Char) → List Char
  | [] => [opening, closing]
  | first :: others =>
    opening :: (gap ++ (first ++ ((others.flatMap fun text => ',' :: (gap ++ text)) ++
      (last ++ [closing]))))

section Parts

variable {levels : Nat} {gap last : List Char}

/-- Items are read up to the closing bracket. -/
theorem readItems_parts (hgap : IsBlank gap) (hlast : IsBlank last) {items : List Json}
    {texts : List (List Char)} (h : List.Forall₂ (Reads levels) items texts) {item : Json}
    {text : List Char} (hitem : Reads levels item text) {fuel depth : Nat} (read : List Json)
    (rest : List Char) (hfuel : weightItems (item :: items) ≤ fuel) (hdepth : levels ≤ depth) :
    readItems fuel depth read (text ++ ((texts.flatMap fun text => ',' :: (gap ++ text)) ++
      (last ++ ']' :: rest))) = some (.array (read.reverse ++ item :: items), rest) := by
  induction h generalizing item text fuel read with
  | nil =>
      rw [weightItems, weightItems] at hfuel
      obtain ⟨steps, rfl⟩ : ∃ steps, fuel = steps + 1 := ⟨fuel - 1, by omega⟩
      have hread := hitem.reads steps depth _ (by omega) hdepth
        (endsValue_closing hlast (c := ']') (by simp) rest)
      rw [List.flatMap_nil, List.nil_append, readItems, hread]
      simp [skipSpace_append hlast, skipSpace_cons (c := ']') (by decide)]
  | cons hnext _ ih =>
      rw [weightItems] at hfuel
      obtain ⟨steps, rfl⟩ : ∃ steps, fuel = steps + 1 := ⟨fuel - 1, by omega⟩
      have hread : ∀ more, readValue steps depth (text ++ ',' :: more) = some (item, ',' :: more) :=
        fun more => hitem.reads steps depth _ (by omega) hdepth (endsValue_comma more)
      have hrest := ih hnext (item :: read) (show _ ≤ steps by omega)
      simp only [List.flatMap_cons, List.cons_append, List.append_assoc]
      rw [readItems, hread]
      simp only [Option.bind_eq_bind, Option.bind_some, skipSpace_cons (c := ',') (by decide)]
      rw [readItems_gap hgap, hrest]
      simp

/-- The text of a member; white space may stand behind the colon. -/
def memberText (colon : List Char) (name : String) (text : List Char) : List Char :=
  (quote name).toList ++ ':' :: (colon ++ text)

/-- A member is read where its value is. -/
def ReadsMember (levels : Nat) (colon : List Char) (member : String × Json) (text : List Char) :
    Prop :=
  ∃ value, text = memberText colon member.1 value ∧ Reads levels member.2 value

/-- Behind a member, another one or the closing brace is read. -/
def afterMember (fuel depth : Nat) (members : List (String × Json)) :
    List Char → Option (Json × List Char)
  | ',' :: rest => readMembers fuel depth members rest
  | '\x7d' :: rest => some (.object members.reverse, rest)
  | _ => none

theorem readMembers_member {colon : List Char} (hcolon : IsBlank colon) {member : String × Json}
    {text : List Char} (h : ReadsMember levels colon member text) {steps depth : Nat}
    (hfuel : member.2.weight ≤ steps) (hdepth : levels ≤ depth) (read : List (String × Json))
    {rest : List Char} (hrest : EndsValue rest) :
    readMembers (steps + 1) depth read (text ++ rest) =
      afterMember steps depth (member :: read) (skipSpace rest) := by
  obtain ⟨value, rfl, hvalue⟩ := h
  have hread := hvalue.reads steps depth rest hfuel hdepth hrest
  rw [memberText, List.append_assoc, toList_quote, readMembers,
    skipSpace_cons (c := '"') (by decide)]
  simp only [readString_quote, Option.bind_eq_bind, Option.bind_some, List.cons_append,
    List.append_assoc, skipSpace_cons (c := ':') (by decide), readValue_gap hcolon, hread]
  rfl

/-- Members are read up to the closing brace. -/
theorem readMembers_parts {colon : List Char} (hcolon : IsBlank colon) (hgap : IsBlank gap)
    (hlast : IsBlank last) {members : List (String × Json)} {texts : List (List Char)}
    (h : List.Forall₂ (ReadsMember levels colon) members texts) {member : String × Json}
    {text : List Char} (hmember : ReadsMember levels colon member text) {fuel depth : Nat}
    (read : List (String × Json)) (rest : List Char)
    (hfuel : weightMembers (member :: members) ≤ fuel) (hdepth : levels ≤ depth) :
    readMembers fuel depth read (text ++ ((texts.flatMap fun text => ',' :: (gap ++ text)) ++
      (last ++ '\x7d' :: rest))) = some (.object (read.reverse ++ member :: members), rest) := by
  induction h generalizing member text fuel read with
  | nil =>
      rw [weightMembers, weightMembers] at hfuel
      obtain ⟨steps, rfl⟩ : ∃ steps, fuel = steps + 1 := ⟨fuel - 1, by omega⟩
      have hread := readMembers_member hcolon hmember (show _ ≤ steps by omega) hdepth read
        (endsValue_closing hlast (c := '\x7d') (by simp) rest)
      rw [List.flatMap_nil, List.nil_append, hread, skipSpace_append hlast,
        skipSpace_cons (c := '\x7d') (by decide)]
      simp [afterMember]
  | cons hnext _ ih =>
      rw [weightMembers] at hfuel
      obtain ⟨steps, rfl⟩ : ∃ steps, fuel = steps + 1 := ⟨fuel - 1, by omega⟩
      have hread := fun more => readMembers_member hcolon hmember (show _ ≤ steps by omega) hdepth
        read (endsValue_comma more)
      have hrest := ih hnext (member :: read) (show _ ≤ steps by omega)
      simp only [List.flatMap_cons, List.cons_append, List.append_assoc]
      rw [hread, skipSpace_cons (c := ',') (by decide), afterMember, readMembers_gap hgap, hrest]
      simp

/-- Parts are as long as their texts. -/
theorem weightItems_le (gap : List Char) {items : List Json} {texts : List (List Char)}
    (h : List.Forall₂ (Reads levels) items texts) :
    weightItems items ≤ 2 * (texts.flatMap fun text => ',' :: (gap ++ text)).length := by
  induction h with
  | nil => simp [weightItems]
  | cons hitem _ ih =>
      have hweight := hitem.weight
      simp only [weightItems, List.flatMap_cons, List.length_append, List.length_cons]
      omega

theorem weightMembers_le (gap : List Char) {colon : List Char}
    {members : List (String × Json)} {texts : List (List Char)}
    (h : List.Forall₂ (ReadsMember levels colon) members texts) :
    weightMembers members ≤ 2 * (texts.flatMap fun text => ',' :: (gap ++ text)).length := by
  induction h with
  | nil => simp [weightMembers]
  | cons hmember _ ih =>
      obtain ⟨value, rfl, hvalue⟩ := hmember
      have hweight := hvalue.weight
      simp only [weightMembers, memberText, List.flatMap_cons, List.length_append, List.length_cons]
      omega

theorem reads_array (hgap : IsBlank gap) (hlast : IsBlank last) {items : List Json}
    {texts : List (List Char)} (h : List.Forall₂ (Reads levels) items texts) :
    Reads (levels + 1) (array items) (enclosed '[' ']' gap last texts) where
  begins := by cases h <;> exact ⟨'[', _, rfl, by decide, by decide⟩
  reads := by
    intro fuel depth rest hfuel hdepth _
    obtain ⟨inner, rfl⟩ : ∃ inner, depth = inner + 1 := ⟨depth - 1, by omega⟩
    rw [weight] at hfuel
    obtain ⟨steps, rfl⟩ : ∃ steps, fuel = steps + 1 := ⟨fuel - 1, by omega⟩
    cases h with
    | nil => rfl
    | cons hitem hothers =>
        obtain ⟨c, more, htext, hspace, hc⟩ := hitem.begins
        have hparts := readItems_parts hgap hlast hothers hitem [] rest
          (show _ ≤ steps by omega) (show levels ≤ inner by omega)
        simp only [enclosed, List.cons_append, List.append_assoc, List.nil_append, readValue,
          skipSpace_cons (c := '[') (by decide), skipSpace_append hgap]
        rw [htext, List.cons_append, skipSpace_cons hspace]
        split
        · rename_i heq
          exact absurd (List.cons.inj heq).1 hc
        · rw [← List.cons_append, ← htext]
          exact hparts
  weight := by
    cases h with
    | nil => simp [weight, weightItems, enclosed]
    | cons hitem hothers =>
        have hweight := hitem.weight
        have hle := weightItems_le gap hothers
        simp only [weight, weightItems, enclosed, List.length_append, List.length_cons,
          List.length_nil]
        omega

theorem reads_object {colon : List Char} (hcolon : IsBlank colon) (hgap : IsBlank gap)
    (hlast : IsBlank last) {members : List (String × Json)} {texts : List (List Char)}
    (h : List.Forall₂ (ReadsMember levels colon) members texts) :
    Reads (levels + 1) (object members) (enclosed '\x7b' '\x7d' gap last texts) where
  begins := by cases h <;> exact ⟨'\x7b', _, rfl, by decide, by decide⟩
  reads := by
    intro fuel depth rest hfuel hdepth _
    obtain ⟨inner, rfl⟩ : ∃ inner, depth = inner + 1 := ⟨depth - 1, by omega⟩
    rw [weight] at hfuel
    obtain ⟨steps, rfl⟩ : ∃ steps, fuel = steps + 1 := ⟨fuel - 1, by omega⟩
    cases h with
    | nil => rfl
    | cons hmember hothers =>
        have hparts := readMembers_parts hcolon hgap hlast hothers hmember [] rest
          (show _ ≤ steps by omega) (show levels ≤ inner by omega)
        obtain ⟨value, rfl, -⟩ := hmember
        simp only [enclosed, List.cons_append, List.append_assoc, List.nil_append, readValue,
          skipSpace_cons (c := '\x7b') (by decide), skipSpace_append hgap]
        rw [memberText, List.append_assoc, toList_quote] at hparts ⊢
        rw [skipSpace_cons (c := '"') (by decide)]
        exact hparts
  weight := by
    cases h with
    | nil => simp [weight, weightMembers, enclosed]
    | cons hmember hothers =>
        obtain ⟨value, rfl, hvalue⟩ := hmember
        have hweight := hvalue.weight
        have hle := weightMembers_le gap hothers
        simp only [weight, weightMembers, memberText, enclosed, List.length_append,
          List.length_cons, List.length_nil]
        omega

end Parts

/-! ## Whole documents -/

/-- A document of integers, truth values and texts with at most so many levels of nesting. -/
inductive Fits : Nat → Json → Prop
  | null {levels : Nat} : Fits levels null
  | bool {levels : Nat} (b : Bool) : Fits levels (bool b)
  | integer {levels : Nat} {n : Int} (h : InRange n) : Fits levels (number (.integer n))
  | string {levels : Nat} (s : String) : Fits levels (string s)
  | array {levels : Nat} {items : List Json} (h : ∀ item ∈ items, Fits levels item) :
      Fits (levels + 1) (array items)
  | object {levels : Nat} {members : List (String × Json)}
      (h : ∀ member ∈ members, Fits levels member.2) : Fits (levels + 1) (object members)

theorem compactItems_eq (items : List Json) : compactItems items = items.map compact := by
  induction items with
  | nil => rfl
  | cons item rest ih => rw [compactItems, ih, List.map_cons]

theorem compactMembers_eq (members : List (String × Json)) : compactMembers members =
    members.map fun member => quote member.1 ++ ":" ++ compact member.2 := by
  induction members with
  | nil => rfl
  | cons member rest ih => rw [compactMembers, ih, List.map_cons]

theorem indentedItems_eq (depth : Nat) (items : List Json) :
    indentedItems depth items = items.map (indentedAt depth) := by
  induction items with
  | nil => rfl
  | cons item rest ih => rw [indentedItems, ih, List.map_cons]

theorem indentedMembers_eq (depth : Nat) (members : List (String × Json)) :
    indentedMembers depth members =
      members.map fun member => quote member.1 ++ ": " ++ indentedAt depth member.2 := by
  induction members with
  | nil => rfl
  | cons member rest ih => rw [indentedMembers, ih, List.map_cons]

theorem toList_compact_block (opening closing : Char) (texts : List String) :
    (String.singleton opening ++ Text.join "," texts ++ String.singleton closing).toList =
      enclosed opening closing [] [] (texts.map String.toList) := by
  cases texts with
  | nil => simp [Text.join, enclosed]
  | cons first others =>
      simp [enclosed, Text.toList_join_cons, List.flatMap_map]

theorem toList_block (opening closing : Char) (depth : Nat) (texts : List String) :
    (block (String.singleton opening) (String.singleton closing) depth texts).toList =
      enclosed opening closing (indentation (depth + 1)).toList (indentation depth).toList
        (texts.map String.toList) := by
  cases texts with
  | nil => simp [block, enclosed]
  | cons first others =>
      simp [block, enclosed, Text.toList_join_cons, List.flatMap_map]

theorem toList_compact_array (items : List Json) : (compact (array items)).toList =
    enclosed '[' ']' [] [] (items.map fun item => item.compact.toList) := by
  have htext := toList_compact_block '[' ']' (compactItems items)
  rw [compactItems_eq items, List.map_map] at htext
  rw [compact, compactItems_eq]
  exact htext

theorem toList_compact_object (members : List (String × Json)) :
    (compact (object members)).toList = enclosed '\x7b' '\x7d' [] []
      (members.map fun member => memberText [] member.1 member.2.compact.toList) := by
  have htext := toList_compact_block '\x7b' '\x7d' (compactMembers members)
  rw [compactMembers_eq members, List.map_map] at htext
  rw [compact, compactMembers_eq]
  refine htext.trans (congrArg _ (List.map_congr_left fun member _ => ?_))
  simp [memberText]

theorem toList_indented_array (depth : Nat) (items : List Json) :
    (indentedAt depth (array items)).toList =
      enclosed '[' ']' (indentation (depth + 1)).toList (indentation depth).toList
        (items.map fun item => (indentedAt (depth + 1) item).toList) := by
  have htext := toList_block '[' ']' depth (indentedItems (depth + 1) items)
  rw [indentedItems_eq _ items, List.map_map] at htext
  rw [indentedAt, indentedItems_eq]
  exact htext

theorem toList_indented_object (depth : Nat) (members : List (String × Json)) :
    (indentedAt depth (object members)).toList =
      enclosed '\x7b' '\x7d' (indentation (depth + 1)).toList (indentation depth).toList
        (members.map fun member =>
          memberText [' '] member.1 (indentedAt (depth + 1) member.2).toList) := by
  have htext := toList_block '\x7b' '\x7d' depth (indentedMembers (depth + 1) members)
  rw [indentedMembers_eq _ members, List.map_map] at htext
  rw [indentedAt, indentedMembers_eq]
  refine htext.trans (congrArg _ (List.map_congr_left fun member _ => ?_))
  simp [memberText]

theorem isBlank_nil : IsBlank [] := by simp [IsBlank]

theorem isBlank_indentation (depth : Nat) : IsBlank (indentation depth).toList := by
  intro c hc
  simp only [indentation, String.toList_append, String.toList_ofList, List.mem_append,
    List.mem_replicate] at hc
  rcases hc with hc | ⟨-, rfl⟩
  · obtain rfl : c = '\n' := by simpa using hc
    decide
  · decide

theorem Fits.reads_compact {levels : Nat} {j : Json} (h : Fits levels j) :
    Reads levels j j.compact.toList := by
  induction h with
  | null => exact reads_null _
  | bool b => exact reads_bool _ b
  | integer hn => exact reads_integer _ hn
  | string s => exact reads_string _ s
  | @array _ items _ ih =>
      rw [toList_compact_array]
      refine reads_array isBlank_nil isBlank_nil ?_
      rw [List.forall₂_map_right_iff, List.forall₂_same]
      exact ih
  | @object _ members _ ih =>
      rw [toList_compact_object]
      refine reads_object isBlank_nil isBlank_nil isBlank_nil ?_
      rw [List.forall₂_map_right_iff, List.forall₂_same]
      exact fun member hmember => ⟨_, rfl, ih member hmember⟩

theorem Fits.reads_indented {levels : Nat} {j : Json} (h : Fits levels j) (depth : Nat) :
    Reads levels j (indentedAt depth j).toList := by
  induction h generalizing depth with
  | null => exact reads_null _
  | bool b => exact reads_bool _ b
  | integer hn => exact reads_integer _ hn
  | string s => exact reads_string _ s
  | @array _ items _ ih =>
      rw [toList_indented_array]
      refine reads_array (isBlank_indentation _) (isBlank_indentation _) ?_
      rw [List.forall₂_map_right_iff, List.forall₂_same]
      exact fun item hitem => ih item hitem (depth + 1)
  | @object _ members _ ih =>
      have hcolon : IsBlank [' '] := by simp [IsBlank, isSpace]
      rw [toList_indented_object]
      refine reads_object hcolon (isBlank_indentation _) (isBlank_indentation _) ?_
      rw [List.forall₂_map_right_iff, List.forall₂_same]
      exact fun member hmember => ⟨_, rfl, ih member hmember (depth + 1)⟩

/-- The steps that are granted for a text are enough for all its parts. -/
theorem Reads.parse? {j : Json} {text : String} (h : Reads maxDepth j text.toList) :
    parse? text = some j := by
  have hweight := h.weight
  have hread := h.reads (2 * text.toList.length + 2) maxDepth [] (by omega) (Nat.le_refl _)
    (by simp [EndsValue])
  rw [List.append_nil] at hread
  rw [Json.parse?, hread]
  rfl

/-- What was written without white space is read. -/
theorem Fits.parse?_compact {j : Json} (h : Fits maxDepth j) : parse? j.compact = some j :=
  h.reads_compact.parse?

/-- What was written line by line is read. -/
theorem Fits.parse?_indented {j : Json} (h : Fits maxDepth j) : parse? j.indented = some j :=
  (h.reads_indented 0).parse?

end ResourceQuery.Json
