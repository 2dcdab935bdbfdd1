import ResourceQuery.Text.Piece
/-!
# Cutting texts

What a text is cut into has no separator, and pieces without one are what the text that they make up
is cut into.
-/

namespace ResourceQuery.Text

theorem not_mem_of_mem_split {separator : Char} {text piece : List Char}
    (h : piece ∈ split separator text) : separator ∉ piece := by
  induction text generalizing piece with
  | nil =>
      obtain rfl : piece = [] := by simpa [split] using h
      simp
  | cons c rest ih =>
      unfold split at h
      split at h
      · rcases List.mem_cons.1 h with rfl | h
        · simp
        · exact ih h
      · rename_i hc
        cases hrest : split separator rest with
        | nil => exact absurd hrest (split_ne_nil _ _)
        | cons first others =>
            simp only [hrest] at h
            rcases List.mem_cons.1 h with rfl | h
            · intro hmem
              rcases List.mem_cons.1 hmem with heq | hmem
              · exact hc heq.symm
              · exact ih (by rw [hrest]; simp) hmem
            · exact ih (by rw [hrest]; simp [h])

/-- Cutting two texts with a separator between them cuts each of them. -/
theorem split_append (separator : Char) (front rest : List Char) :
    split separator (front ++ separator :: rest) =
      split separator front ++ split separator rest := by
  induction front with
  | nil => simp [split]
  | cons c front ih =>
      rw [List.cons_append, split, split, ih]
      by_cases hc : c = separator
      · rw [if_pos hc, if_pos hc, List.cons_append]
      · rw [if_neg hc, if_neg hc]
        cases hfront : split separator front with
        | nil => exact absurd hfront (split_ne_nil _ _)
        | cons piece pieces => rfl

/-- A text put together of others has the characters of the pieces put together. -/
theorem toList_join (separator : Char) (pieces : List String) :
    (join (String.singleton separator) pieces).toList =
      joinChars separator (pieces.map String.toList) := by
  induction pieces with
  | nil => rfl
  | cons piece rest ih =>
      cases rest with
      | nil => rfl
      | cons next rest =>
          simp only [List.map_cons, join, joinChars, String.toList_append] at ih ⊢
          rw [ih]
          simp

theorem split_of_not_mem {separator : Char} {text : List Char} (h : separator ∉ text) :
    split separator text = [text] := by
  induction text with
  | nil => rfl
  | cons c rest ih =>
      rw [List.mem_cons, not_or] at h
      rw [split, if_neg (Ne.symm h.1), ih h.2]

/-- Pieces without a separator are the pieces of the text that they make up. -/
theorem split_joinChars {separator : Char} {pieces : List (List Char)} (hne : pieces ≠ [])
    (h : ∀ piece ∈ pieces, separator ∉ piece) :
    split separator (joinChars separator pieces) = pieces := by
  induction pieces with
  | nil => exact absurd rfl hne
  | cons piece rest ih =>
      have hpiece := split_of_not_mem (h piece (by simp))
      cases rest with
      | nil => exact hpiece
      | cons next rest =>
          have hrest := ih (by simp) fun other hother => h other (List.mem_cons_of_mem _ hother)
          rw [joinChars, split_append, hpiece, hrest, List.singleton_append]
          simp

theorem splitFirst_eq_some {separator : Char} {text before after : List Char}
    (h : splitFirst separator text = some (before, after)) : separator ∉ before := by
  induction text generalizing before with
  | nil => cases h
  | cons c rest ih =>
      rw [splitFirst] at h
      split at h
      · cases h
        simp
      · rename_i hne
        obtain ⟨⟨front, back⟩, hfront, heq⟩ := Option.map_eq_some_iff.1 h
        cases heq
        simp [Ne.symm hne, ih hfront]

theorem splitFirst_append {separator : Char} {before : List Char} (after : List Char)
    (h : separator ∉ before) :
    splitFirst separator (before ++ separator :: after) = some (before, after) := by
  induction before with
  | nil => simp [splitFirst]
  | cons c rest ih =>
      rw [List.mem_cons, not_or] at h
      rw [List.cons_append, splitFirst, if_neg (Ne.symm h.1), ih h.2]
      rfl

theorem splitLast_eq_none {separator : Char} {text : List Char} :
    splitLast separator text = none ↔ separator ∉ text := by
  induction text with
  | nil => simp [splitLast]
  | cons c rest ih =>
      rw [splitLast, List.mem_cons, not_or, ← ih]
      cases splitLast separator rest with
      | some parts => simp
      | none => simp [eq_comm]

/-- The text is put together again, and nothing behind the separator could be cut off. -/
theorem splitLast_eq_some {separator : Char} {text before after : List Char}
    (h : splitLast separator text = some (before, after)) :
    text = before ++ separator :: after ∧ separator ∉ after := by
  induction text generalizing before with
  | nil => cases h
  | cons c rest ih =>
      rw [splitLast] at h
      split at h
      · rename_i front back hrest
        cases h
        obtain ⟨htext, hback⟩ := ih hrest
        exact ⟨by rw [htext, List.cons_append], hback⟩
      · rename_i hnone
        split at h
        · rename_i hc
          cases h
          exact ⟨by rw [hc, List.nil_append], splitLast_eq_none.1 hnone⟩
        · cases h

end ResourceQuery.Text
