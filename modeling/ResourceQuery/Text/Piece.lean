/-!
# Pieces of a text

Cutting a text at a separator and putting pieces together again. `join_split` says that nothing is
lost: the pieces with the separator between them are the text.
-/

namespace ResourceQuery.Text

/-- All pieces between separators; a text without separator is its only piece. -/
def split (separator : Char) : List Char → List (List Char)
  | [] => [[]]
  | c :: rest =>
    if c = separator then [] :: split separator rest
    else match split separator rest with
      | [] => [[c]]
      | piece :: pieces => (c :: piece) :: pieces

/-- The text before and behind the first separator. -/
def splitFirst (separator : Char) : List Char → Option (List Char × List Char)
  | [] => none
  | c :: rest =>
    if c = separator then some ([], rest)
    else (splitFirst separator rest).map fun (before, after) => (c :: before, after)

/-- The text before and behind the last separator. -/
def splitLast (separator : Char) : List Char → Option (List Char × List Char)
  | [] => none
  | c :: rest =>
    match splitLast separator rest with
    | some (before, after) => some (c :: before, after)
    | none => if c = separator then some ([], rest) else none

def joinChars (separator : Char) : List (List Char) → List Char
  | [] => []
  | [piece] => piece
  | piece :: rest => piece ++ separator :: joinChars separator rest

def join (separator : String) : List String → String
  | [] => ""
  | [piece] => piece
  | piece :: rest => piece ++ separator ++ join separator rest

theorem split_ne_nil (separator : Char) (text : List Char) : split separator text ≠ [] := by
  cases text with
  | nil => simp [split]
  | cons c rest =>
    unfold split
    split
    · simp
    · split <;> simp

theorem join_split (separator : Char) (text : List Char) :
    joinChars separator (split separator text) = text := by
  induction text with
  | nil => rfl
  | cons c rest ih =>
    unfold split
    split
    · rename_i h
      cases hs : split separator rest with
      | nil => exact absurd hs (split_ne_nil _ _)
      | cons piece pieces => simp [joinChars, ← hs, ih, h]
    · split
      · rename_i hs
        exact absurd hs (split_ne_nil _ _)
      · rename_i piece pieces hs
        rw [hs] at ih
        cases pieces with
        | nil => simpa [joinChars] using ih
        | cons second more => simpa [joinChars] using ih

/-- The part behind the first separator is shorter than the text. -/
theorem length_of_splitFirst {separator : Char} {text before after : List Char}
    (h : splitFirst separator text = some (before, after)) : after.length < text.length := by
  induction text generalizing before with
  | nil => simp [splitFirst] at h
  | cons c rest ih =>
    unfold splitFirst at h
    split at h
    · simp only [Option.some.injEq, Prod.mk.injEq] at h
      simp [h.2]
    · simp only [Option.map_eq_some_iff, Prod.mk.injEq, Prod.exists] at h
      obtain ⟨b, a, hs, _, rfl⟩ := h
      have := ih hs
      simp only [List.length_cons]
      omega

/-- Blanks behind the text up to a least width. -/
def padRight (width : Nat) (text : String) : String :=
  text ++ String.ofList (List.replicate (width - text.length) ' ')

def startsWith (text start : String) : Bool := start.toList.isPrefixOf text.toList

end ResourceQuery.Text
