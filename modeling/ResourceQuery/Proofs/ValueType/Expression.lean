import ResourceQuery.Proofs.Query.Spelling
import ResourceQuery.ValueType.Expression
/-!
# Types and their expressions

The expression of a type is read as the type, whatever identifiers stand in it and however deeply
its collections are nested (`parse_expression`). The alternatives of the reader are told apart by
their openings: none of them starts another one or the name of a kind. What is read has identifiers
only, so it can be written and read once more.
-/

namespace ResourceQuery

namespace Text

theorem isBlank_of_isIdentifierPart {c : Char} (h : isIdentifierPart c = true) :
    isBlank c = false := by
  have hrange : 48 ≤ c.toNat ∧ c.toNat ≤ 122 := by
    rw [isIdentifierPart, Bool.or_eq_true, beq_iff_eq] at h
    rcases h with h | rfl
    · exact range_of_isAlphanum h
    · decide
  simp [isBlank, blankRanges]
  omega

/-- A text without blanks at its ends is what remains of it. -/
theorem trim_eq_self {text : List Char} (hfirst : Reader.Ends isBlank text)
    (hlast : Reader.Ends isBlank text.reverse) : trim text = text := by
  have hdrop : ∀ {chars : List Char}, Reader.Ends isBlank chars →
      chars.dropWhile isBlank = chars := by
    intro chars h
    cases chars with
    | nil => rfl
    | cons c rest => exact List.dropWhile_cons_of_neg (by simp [h c rfl])
  rw [trim, trimStart, hdrop hfirst, hdrop hlast, List.reverse_reverse]

end Text

namespace Reader

variable {α β : Type}

/-- Neither text can stand in front of a text that starts with the other one. -/
def Apart (first second : List Char) : Prop := ¬first <+: second ∧ ¬second <+: first

instance (first second : List Char) : Decidable (Apart first second) :=
  inferInstanceAs (Decidable (_ ∧ _))

theorem Apart.not_isPrefix {opening front : List Char} (h : Apart opening front)
    (rest : List Char) : ¬opening <+: front ++ rest := by
  intro hopening
  rcases List.prefix_or_prefix_of_prefix hopening (List.prefix_append front rest) with hle | hle
  · exact h.1 hle
  · exact h.2 hle

/-- The first alternative that can start a text is the one that takes it. -/
theorem takes_alternative {choices : List (List Char × Reader α)} {last : Reader α}
    {opening front rest : List Char} {read : Reader α} {P : α → Prop}
    (hmisses : ∀ choice ∈ choices, ∀ text, ¬choice.1 <+: text → choice.2.Misses text)
    (hapart : (choices.map Prod.fst).Pairwise Apart) (hmem : (opening, read) ∈ choices)
    (hread : read.Takes (opening ++ front) rest P) :
    ((choices.map Prod.snd).foldr orElse last).Takes (opening ++ front) rest P := by
  induction choices with
  | nil => cases hmem
  | cons choice others ih =>
      rw [List.map_cons, List.pairwise_cons] at hapart
      rw [List.map_cons, List.foldr_cons]
      rcases List.mem_cons.1 hmem with rfl | hmem
      · exact hread.orElse _
      · have hchoice : Apart choice.1 opening :=
          hapart.1 opening (List.mem_map_of_mem hmem)
        have hmiss : choice.2.Misses (opening ++ front ++ rest) := by
          rw [List.append_assoc]
          exact hmisses choice List.mem_cons_self _ (hchoice.not_isPrefix _)
        exact hmiss.orElse
          (ih (fun other hother => hmisses other (List.mem_cons_of_mem _ hother)) hapart.2 hmem)

/-- A text that no alternative can start is left to the last one. -/
theorem takes_last {choices : List (List Char × Reader α)} {last : Reader α}
    {front rest : List Char} {P : α → Prop}
    (hmisses : ∀ choice ∈ choices, ∀ text, ¬choice.1 <+: text → choice.2.Misses text)
    (hapart : ∀ choice ∈ choices, Apart choice.1 front) (hlast : last.Takes front rest P) :
    ((choices.map Prod.snd).foldr orElse last).Takes front rest P := by
  induction choices with
  | nil => exact hlast
  | cons choice others ih =>
      have hmiss := hmisses choice List.mem_cons_self _
        ((hapart choice List.mem_cons_self).not_isPrefix rest)
      exact hmiss.orElse
        (ih (fun other hother => hmisses other (List.mem_cons_of_mem _ hother))
          fun other hother => hapart other (List.mem_cons_of_mem _ hother))

theorem gives_foldr {choices : List (Reader α)} {last : Reader α} {P : α → Prop}
    (hchoices : ∀ read ∈ choices, read.Gives P) (hlast : last.Gives P) :
    (choices.foldr orElse last).Gives P := by
  induction choices with
  | nil => exact hlast
  | cons read others ih =>
      exact (hchoices read List.mem_cons_self).orElse
        (ih fun other hother => hchoices other (List.mem_cons_of_mem _ hother))

end Reader

namespace ValueType

open Reader

/-! ## Names in a type -/

/-- The names in a type, at any depth, can be told apart from what stands around them. -/
def Spelled : ValueType → Prop
  | enum members => members ≠ [] ∧ ∀ member ∈ members, Text.isIdentifier member.toList = true
  | reference target => ∀ name, target = .resource name → Text.isIdentifier name.toList = true
  | object name => Text.isIdentifier name.toList = true
  | list inner | set inner => inner.Spelled
  | map key inner => key.Spelled ∧ inner.Spelled
  | scalar _ | dynamic => True

theorem isIdentifier_kindName (kind : ScalarKind) :
    Text.isIdentifier kind.name.toList = true := by
  cases kind with
  | whole width => cases width <;> decide
  | _ => decide

theorem isIdentifier_dynamic : Text.isIdentifier "dynamic".toList = true := by decide

theorem ofName?_kindName (kind : ScalarKind) :
    kind.name ≠ "dynamic" ∧ ScalarKind.ofName? kind.name = some kind := by
  cases kind with
  | whole width => cases width <;> decide
  | _ => decide

/-! ## Parts of an expression -/

section Parts

variable {α : Type} {read : Reader α} {front rest : List Char} {P : α → Prop}

theorem isBlank_of_isGap {c : Char} (h : isGap c = true) : Text.isBlank c = true := by
  simp only [isGap, Bool.or_eq_true, beq_iff_eq] at h
  rcases h with ((rfl | rfl) | rfl) | rfl <;> decide

theorem takes_gap (h : Ends isGap rest) : (run isGap).Takes [] rest fun _ => True :=
  (takes_run (by simp) h).mono fun _ _ => trivial

theorem takes_spaced (hread : read.Takes front rest P) (hfront : Ends isGap (front ++ rest))
    (hrest : Ends isGap rest) : (spaced read).Takes front rest P := by
  apply (takes_gap hfront).before
  intro _ _
  apply hread.finish
  intro value hvalue
  apply (takes_gap hrest).finish
  intro _ _
  exact (takes_pure value rest).mono (by rintro _ rfl; exact hvalue)

theorem gives_spaced (h : read.Gives P) : (spaced read).Gives P :=
  (gives_true _).bind fun _ _ => h.bind fun _ hvalue => (gives_true _).bind fun _ _ =>
    gives_pure hvalue

theorem takes_enclosed {opening : List Char} {closing : Char}
    (h : read.Takes front (closing :: rest) P) :
    (enclosed opening read closing).Takes (opening ++ (front ++ [closing])) rest P := by
  apply (takes_word opening _).bind
  intro _ _
  apply Takes.bind h
  intro value hvalue
  apply (takes_char closing rest).finish
  intro _ _
  exact (takes_pure value rest).mono (by rintro _ rfl; exact hvalue)

theorem misses_enclosed {opening text : List Char} {closing : Char} (h : ¬opening <+: text) :
    (enclosed opening read closing).Misses text :=
  (misses_word h).bind

theorem gives_enclosed {opening : List Char} {closing : Char} (h : read.Gives P) :
    (enclosed opening read closing).Gives P :=
  (gives_true _).bind fun _ _ => h.bind fun _ hvalue => (gives_true _).bind fun _ _ =>
    gives_pure hvalue

end Parts

/-! ## Alternatives -/

def entryReader (inner : Reader ValueType) : Reader (ValueType × ValueType) := do
  let key ← inner
  Reader.char ','
  return (key, ← inner)

/-- The alternatives with an opening, where collections are of what `inner` reads. -/
def alternatives (inner : Reader ValueType) : List (List Char × Reader ValueType) :=
  [(['l', 'i', 's', 't', '<'], do
      return list (← enclosed ['l', 'i', 's', 't', '<'] inner '>')),
    (['s', 'e', 't', '<'], do return set (← enclosed ['s', 'e', 't', '<'] inner '>')),
    (['m', 'a', 'p', '<'], do
      let (key, value) ← enclosed ['m', 'a', 'p', '<'] (entryReader inner) '>'
      return map key value),
    (['r', 'e', 'f', '('], referenceReader),
    (['o', 'b', 'j', 'e', 'c', 't', '('], objectReader),
    (['e', 'n', 'u', 'm', '('], enumReader)]

def openings : List (List Char) := (alternatives Reader.absent).map Prod.fst

theorem reader_succ (depth : Nat) :
    reader (depth + 1) =
      ((alternatives (spaced (reader depth))).map Prod.snd).foldr Reader.orElse nameReader :=
  rfl

theorem map_fst_alternatives (inner : Reader ValueType) :
    (alternatives inner).map Prod.fst = openings :=
  rfl

theorem misses_alternative {inner : Reader ValueType} {choice : List Char × Reader ValueType}
    (hmem : choice ∈ alternatives inner) {text : List Char} (h : ¬choice.1 <+: text) :
    choice.2.Misses text := by
  simp only [alternatives, List.mem_cons, List.not_mem_nil, or_false] at hmem
  rcases hmem with rfl | rfl | rfl | rfl | rfl | rfl <;> exact (misses_enclosed h).bind

theorem pairwise_openings : openings.Pairwise Apart := by decide

theorem apart_kindName (kind : ScalarKind) :
    ∀ opening ∈ openings, Apart opening kind.name.toList := by
  cases kind with
  | whole width => cases width <;> decide
  | _ => decide

theorem takes_opened {depth : Nat} {opening front rest : List Char} {read : Reader ValueType}
    {P : ValueType → Prop} (hmem : (opening, read) ∈ alternatives (spaced (reader depth)))
    (hread : read.Takes (opening ++ front) rest P) :
    (reader (depth + 1)).Takes (opening ++ front) rest P :=
  takes_alternative (fun _ hchoice _ => misses_alternative hchoice) pairwise_openings hmem hread

theorem takes_named {depth : Nat} {name rest : List Char} {P : ValueType → Prop}
    (hapart : ∀ opening ∈ openings, Apart opening name) (hname : nameReader.Takes name rest P) :
    (reader (depth + 1)).Takes name rest P := by
  rw [← map_fst_alternatives (spaced (reader depth))] at hapart
  apply takes_last (fun _ hchoice _ => misses_alternative hchoice) _ hname
  intro choice hchoice
  exact hapart choice.1 (List.mem_map_of_mem hchoice)

/-! ## What stands at the ends -/

/-- There are no blanks at the ends of a text. -/
structure Tight (text : List Char) : Prop where
  first : Ends Text.isBlank text
  last : Ends Text.isBlank text.reverse

theorem Tight.gap {text : List Char} (h : Tight text) : Ends isGap text :=
  h.first.mono fun _ => isBlank_of_isGap

theorem tight_of_isIdentifier {name : List Char} (h : Text.isIdentifier name = true) :
    Tight name := by
  have hall : ∀ c ∈ name, Text.isBlank c = false := fun c hc =>
    Text.isBlank_of_isIdentifierPart (Text.isIdentifierPart_of_mem h c hc)
  refine ⟨fun c hc => hall c (List.mem_of_head? hc), fun c hc => hall c ?_⟩
  exact List.mem_reverse.1 (List.mem_of_head? hc)

theorem tight_enclosed {c closing : Char} (opening front : List Char)
    (hfirst : Text.isBlank c = false) (hlast : Text.isBlank closing = false) :
    Tight (c :: opening ++ (front ++ [closing])) := by
  constructor
  · intro d hd
    obtain rfl : c = d := by simpa using hd
    exact hfirst
  · intro d hd
    obtain rfl : closing = d := by simpa using hd
    exact hlast

theorem ends_append {p : Char → Bool} {front rest : List Char} (hfront : Ends p front)
    (hrest : Ends p rest) : Ends p (front ++ rest) := by
  cases front with
  | nil => exact hrest
  | cons c front => exact hfront

theorem ends_cons {p : Char → Bool} {c : Char} (h : p c = false) (rest : List Char) :
    Ends p (c :: rest) := by
  intro d hd
  obtain rfl : c = d := by simpa using hd
  exact h

/-! ## Expressions -/

theorem toList_enum (members : List String) : (enum members).expression.toList =
    ['e', 'n', 'u', 'm', '('] ++ ((Text.join "|" members).toList ++ [')']) := by
  simp [expression]

theorem toList_reference (target : Target) : (reference target).expression.toList =
    ['r', 'e', 'f', '('] ++ (target.name.toList ++ [')']) := by
  simp [expression]

theorem toList_object (name : String) : (object name).expression.toList =
    ['o', 'b', 'j', 'e', 'c', 't', '('] ++ (name.toList ++ [')']) := by
  simp [expression]

theorem toList_list (inner : ValueType) : (list inner).expression.toList =
    ['l', 'i', 's', 't', '<'] ++ (inner.expression.toList ++ ['>']) := by
  simp [expression]

theorem toList_set (inner : ValueType) : (set inner).expression.toList =
    ['s', 'e', 't', '<'] ++ (inner.expression.toList ++ ['>']) := by
  simp [expression]

theorem toList_map (key inner : ValueType) : (map key inner).expression.toList =
    ['m', 'a', 'p', '<'] ++
      ((key.expression.toList ++ ',' :: inner.expression.toList) ++ ['>']) := by
  simp [expression]

theorem tight_expression (type : ValueType) : Tight type.expression.toList := by
  cases type with
  | scalar kind => exact tight_of_isIdentifier (isIdentifier_kindName kind)
  | enum members =>
      rw [toList_enum]
      exact tight_enclosed _ _ (by decide) (by decide)
  | reference target =>
      rw [toList_reference]
      exact tight_enclosed _ _ (by decide) (by decide)
  | object name =>
      rw [toList_object]
      exact tight_enclosed _ _ (by decide) (by decide)
  | list inner =>
      rw [toList_list]
      exact tight_enclosed _ _ (by decide) (by decide)
  | set inner =>
      rw [toList_set]
      exact tight_enclosed _ _ (by decide) (by decide)
  | map key inner =>
      rw [toList_map]
      exact tight_enclosed _ _ (by decide) (by decide)
  | dynamic => exact tight_of_isIdentifier isIdentifier_dynamic

/-! ## Leaves -/

section Leaves

variable {rest : List Char}

theorem takes_kind (kind : ScalarKind) (hrest : Ends Text.isIdentifierPart rest) :
    nameReader.Takes kind.name.toList rest fun type => type = scalar kind := by
  intro position
  obtain ⟨hdynamic, hkind⟩ := ofName?_kindName kind
  obtain ⟨value, after, hread, hafter, rfl⟩ :=
    takes_identifier (isIdentifier_kindName kind) hrest position
  refine ⟨scalar kind, after, ?_, hafter, rfl⟩
  rw [String.ofList_toList] at hread
  simp only [nameReader, hread, ok_bind, if_neg hdynamic, hkind]
  rfl

theorem takes_dynamic (hrest : Ends Text.isIdentifierPart rest) :
    nameReader.Takes "dynamic".toList rest fun type => type = dynamic := by
  intro position
  obtain ⟨value, after, hread, hafter, rfl⟩ :=
    takes_identifier isIdentifier_dynamic hrest position
  refine ⟨dynamic, after, ?_, hafter, rfl⟩
  rw [String.ofList_toList] at hread
  simp only [nameReader, hread, ok_bind, if_true]
  rfl

theorem takes_name {name : String} (hname : Text.isIdentifier name.toList = true)
    (hrest : Ends Text.isIdentifierPart rest) (hgap : Ends isGap rest) :
    (spaced Reader.identifier).Takes name.toList rest fun value => value = name := by
  have hread := takes_identifier hname hrest
  rw [String.ofList_toList] at hread
  exact takes_spaced hread (ends_append (tight_of_isIdentifier hname).gap hgap) hgap

theorem takes_target {target : Target} (htarget : (reference target).Spelled)
    (hrest : Ends Text.isIdentifierPart rest) (hgap : Ends isGap rest) :
    (spaced targetReader).Takes target.name.toList rest fun value => value = target := by
  cases target with
  | any =>
      apply takes_spaced _ (ends_cons (c := '*') rfl rest) hgap
      apply Takes.orElse
      apply (takes_char '*' rest).finish
      intro _ _
      exact takes_pure _ rest
  | resource name =>
      have hname : Text.isIdentifier name.toList = true := htarget name rfl
      have hread := takes_identifier hname hrest
      rw [String.ofList_toList] at hread
      have hstar : (name.toList ++ rest).head? ≠ some '*' := by
        intro hhead
        cases hchars : name.toList with
        | nil => rw [hchars] at hname; cases hname
        | cons c others =>
            obtain rfl : c = '*' := by simpa [hchars] using hhead
            rw [hchars, Text.isIdentifier] at hname
            cases hname
      apply takes_spaced _ (ends_append (tight_of_isIdentifier hname).gap hgap) hgap
      exact (misses_char hstar).bind.orElse (hread.map fun _ heq => congrArg Target.resource heq)

theorem takes_members {members : List String} (hne : members ≠ [])
    (hmembers : ∀ member ∈ members, Text.isIdentifier member.toList = true) :
    (separated1 '|' (spaced Reader.identifier)).Takes (Text.join "|" members).toList
      (')' :: rest) fun values => values = members := by
  let Ended (text : List Char) : Prop := Ends Text.isIdentifierPart text ∧ Ends isGap text
  cases members with
  | nil => exact absurd rfl hne
  | cons first others =>
      have hread : ∀ member ∈ first :: others, ∀ more, Ended more →
          (spaced Reader.identifier).Takes member.toList more fun value => member = value :=
        fun member hmember more hmore =>
          (takes_name (hmembers member hmember) hmore.1 hmore.2).mono fun _ => Eq.symm
      have hends : Ended (')' :: rest) := ⟨ends_cons rfl _, ends_cons rfl _⟩
      have hseparator : ∀ more, Ended ('|' :: more) := fun _ =>
        ⟨ends_cons rfl _, ends_cons rfl _⟩
      have hlist := takes_separated1 Ended hends hseparator hread (misses_char (by simp)).bind
      rw [Text.toList_join_cons]
      exact hlist.mono fun values hvalues => (List.forall₂_eq_eq_eq ▸ hvalues).symm

theorem takes_enumReader {members : List String} (h : (enum members).Spelled) :
    enumReader.Takes (['e', 'n', 'u', 'm', '('] ++ ((Text.join "|" members).toList ++ [')']))
      rest fun value => value = enum members :=
  (takes_enclosed (takes_members h.1 h.2)).map fun _ heq => congrArg enum heq

theorem takes_referenceReader {target : Target} (h : (reference target).Spelled) :
    referenceReader.Takes (['r', 'e', 'f', '('] ++ (target.name.toList ++ [')'])) rest
      fun value => value = reference target := by
  have htarget := takes_target h (ends_cons rfl rest) (ends_cons (c := ')') rfl rest)
  exact (takes_enclosed htarget).map fun _ heq => congrArg reference heq

theorem takes_objectReader {name : String} (h : (object name).Spelled) :
    objectReader.Takes (['o', 'b', 'j', 'e', 'c', 't', '('] ++ (name.toList ++ [')'])) rest
      fun value => value = object name := by
  have hname := takes_name h (ends_cons rfl rest) (ends_cons (c := ')') rfl rest)
  exact (takes_enclosed hname).map fun _ heq => congrArg object heq

end Leaves

/-! ## Types -/

/-- At this depth the type is read of its expression, wherever that ends. -/
def ReadAt (depth : Nat) (type : ValueType) : Prop :=
  ∀ rest, Ends Text.isIdentifierPart rest →
    (reader depth).Takes type.expression.toList rest fun value => value = type

/-- What stands in brackets ends in front of a sign that is no part of it. -/
theorem ReadAt.takes_spaced {depth : Nat} {type : ValueType} (h : type.ReadAt depth) {c : Char}
    (hpart : Text.isIdentifierPart c = false) (hgap : isGap c = false) (rest : List Char) :
    (spaced (reader depth)).Takes type.expression.toList (c :: rest) fun value => value = type :=
  ValueType.takes_spaced (h _ (ends_cons hpart rest))
    (ends_append (tight_expression type).gap (ends_cons hgap rest)) (ends_cons hgap rest)

theorem takes_entry {depth : Nat} {key inner : ValueType} (hkey : key.ReadAt depth)
    (hinner : inner.ReadAt depth) (rest : List Char) :
    (entryReader (spaced (reader depth))).Takes
      (key.expression.toList ++ ',' :: inner.expression.toList) ('>' :: rest)
        fun entry => entry = (key, inner) := by
  apply (hkey.takes_spaced (c := ',') rfl rfl _).bind
  rintro _ rfl
  apply (takes_char ',' _).cons
  intro _ _
  exact (hinner.takes_spaced rfl rfl rest).map fun _ heq => congrArg (Prod.mk _) heq

theorem ReadAt.of_lt {type : ValueType}
    (h : ∀ {depth}, type.expression.toList.length ≤ depth → type.ReadAt (depth + 1)) {depth : Nat}
    (hlt : type.expression.toList.length < depth) : type.ReadAt depth := by
  obtain ⟨less, rfl⟩ := Nat.exists_eq_add_one.2 (Nat.zero_lt_of_lt hlt)
  exact h (Nat.le_of_lt_succ hlt)

/-- The expression of a collection is longer than those of what it collects, so its length is depth
enough. -/
theorem readAt_of_length {type : ValueType} (htype : type.Spelled) {depth : Nat}
    (hdepth : type.expression.toList.length ≤ depth) : type.ReadAt (depth + 1) := by
  intro rest hrest
  induction type generalizing depth rest with
  | scalar kind => exact takes_named (apart_kindName kind) (takes_kind kind hrest)
  | dynamic => exact takes_named (by decide) (takes_dynamic hrest)
  | enum members =>
      rw [toList_enum]
      exact takes_opened (by simp [alternatives]) (takes_enumReader htype)
  | reference target =>
      rw [toList_reference]
      exact takes_opened (by simp [alternatives]) (takes_referenceReader htype)
  | object name =>
      rw [toList_object]
      exact takes_opened (by simp [alternatives]) (takes_objectReader htype)
  | list inner ih =>
      rw [toList_list] at hdepth ⊢
      simp only [List.length_append, List.length_cons] at hdepth
      have hinner : inner.ReadAt depth := .of_lt (fun h => ih htype h) (by omega)
      exact takes_opened List.mem_cons_self
        ((takes_enclosed (hinner.takes_spaced rfl rfl _)).map fun _ heq => congrArg list heq)
  | set inner ih =>
      rw [toList_set] at hdepth ⊢
      simp only [List.length_append, List.length_cons] at hdepth
      have hinner : inner.ReadAt depth := .of_lt (fun h => ih htype h) (by omega)
      exact takes_opened (List.mem_cons_of_mem _ List.mem_cons_self)
        ((takes_enclosed (hinner.takes_spaced rfl rfl _)).map fun _ heq => congrArg set heq)
  | map key inner ihkey ih =>
      rw [toList_map] at hdepth ⊢
      simp only [List.length_append, List.length_cons] at hdepth
      have hkey : key.ReadAt depth := .of_lt (fun h => ihkey htype.1 h) (by omega)
      have hinner : inner.ReadAt depth := .of_lt (fun h => ih htype.2 h) (by omega)
      apply takes_opened (List.mem_cons_of_mem _ (List.mem_cons_of_mem _ List.mem_cons_self))
      apply (takes_enclosed (takes_entry hkey hinner rest)).finish
      rintro _ rfl
      exact takes_pure _ rest

/-! ## What is read -/

theorem gives_nameReader : nameReader.Gives Spelled := by
  intro cursor value after h
  obtain ⟨⟨name, rest⟩, -, h⟩ := bind_eq_ok_iff.1 h
  dsimp only at h
  split at h
  · cases h
    exact trivial
  · split at h
    · cases h
      exact trivial
    · cases h

theorem gives_target : targetReader.Gives fun target => (reference target).Spelled := by
  apply Gives.orElse
  · refine (gives_true _).bind fun _ _ => gives_pure ?_
    intro name heq
    cases heq
  · refine gives_identifier.bind fun name hname => gives_pure ?_
    intro other heq
    cases heq
    exact hname

theorem gives_reader (depth : Nat) : (reader depth).Gives Spelled := by
  induction depth with
  | zero =>
      intro cursor value after h
      cases h
  | succ depth ih =>
      have hinner := gives_spaced ih
      have hentry : (entryReader (spaced (reader depth))).Gives
          fun entry => entry.1.Spelled ∧ entry.2.Spelled :=
        hinner.bind fun key hkey => (gives_true _).bind fun _ _ => hinner.bind fun value hvalue =>
          gives_pure ⟨hkey, hvalue⟩
      have hmembers := gives_separated1 '|' (gives_spaced gives_identifier)
      rw [reader_succ]
      apply gives_foldr _ gives_nameReader
      intro read hread
      simp only [alternatives, List.map_cons, List.map_nil, List.mem_cons, List.not_mem_nil,
        or_false] at hread
      rcases hread with rfl | rfl | rfl | rfl | rfl | rfl
      · exact (gives_enclosed hinner).bind fun _ h => gives_pure h
      · exact (gives_enclosed hinner).bind fun _ h => gives_pure h
      · exact (gives_enclosed hentry).bind fun _ h => gives_pure h
      · exact (gives_enclosed (gives_spaced gives_target)).bind fun _ h => gives_pure h
      · exact (gives_enclosed (gives_spaced gives_identifier)).bind fun _ h => gives_pure h
      · exact (gives_enclosed hmembers).bind fun _ h => gives_pure h

theorem parse_expression {type : ValueType} (h : type.Spelled) :
    parse type.expression = .ok type := by
  have htight := tight_expression type
  have htrim : Text.trim type.expression.toList = type.expression.toList :=
    Text.trim_eq_self htight.first htight.last
  have htakes := readAt_of_length h (Nat.le_refl _) [] (by simp [Ends])
  obtain ⟨value, hread, rfl⟩ := readAll_of_takes "type expression" htakes
  rw [parse, htrim, String.ofList_toList]
  exact hread

theorem spelled_of_parse {text : String} {type : ValueType} (h : parse text = .ok type) :
    type.Spelled :=
  of_readAll (gives_reader _) h

/-- A type whose names are identifiers is read of its expression, and so is every type that any text
was read as. -/
theorem expression_roundtrip :
    (∀ type : ValueType, type.Spelled → parse type.expression = .ok type) ∧
      ∀ (text : String) (type : ValueType), parse text = .ok type →
        parse type.expression = .ok type :=
  ⟨fun _ => parse_expression, fun _ _ h => parse_expression (spelled_of_parse h)⟩

/-- Texts by role are read of their expression, and the short form of a kind is read as the kind. -/
theorem expression_roundtrip_roles :
    (map (reference (.resource "Role")) (list string)).Spelled ∧
      parse (map (reference (.resource "Role")) (list string)).expression =
        .ok (map (reference (.resource "Role")) (list string)) ∧
      parse " list< text > " = .ok (list string) ∧
      parse (list string).expression = .ok (list string) := by
  have htype : (map (reference (.resource "Role")) (list string)).Spelled := by
    refine ⟨?_, trivial⟩
    intro name heq
    cases heq
    decide
  have hread : parse " list< text > " = .ok (list string) :=
    toOption_eq_some_iff.1 (by decide +kernel)
  exact ⟨htype, expression_roundtrip.1 _ htype, hread, expression_roundtrip.2 _ _ hread⟩

end ValueType

end ResourceQuery
