import ResourceQuery.Numeral.Decimal
import ResourceQuery.Proofs.Numeral.Digits
/-!
# Texts of decimals

A decimal that was read has a mantissa within its bound, at most 28 places, and no sign if it is
zero. Written, such a decimal reads back, with all its places.
-/

namespace ResourceQuery

namespace Decimal

open Numeral

/-- What holds of a decimal that was read. -/
structure Sound (d : Decimal) : Prop where
  mantissa : d.mantissa < mantissaBound
  scale : d.scale ≤ maxScale
  negative : d.negative = true → d.mantissa ≠ 0

/-! ## Decimals that are read are sound -/

theorem roundAt_bounded {p : Progress} {c : Char} {mantissa scale : Nat}
    (h : roundAt p c = some (mantissa, scale)) (hmantissa : p.mantissa < mantissaBound)
    (hscale : p.scale ≤ maxScale) : mantissa < mantissaBound ∧ scale ≤ maxScale := by
  unfold roundAt at h
  split at h
  · split at h
    · split at h
      · cases h
        rename_i hnext
        exact ⟨hnext, hscale⟩
      · split at h
        · cases h
        · cases h
          unfold mantissaBound maxScale at *
          omega
    · cases h
      exact ⟨hmantissa, hscale⟩
  · split at h
    · cases h
      exact ⟨hmantissa, hscale⟩
    · cases h

theorem readDigits_bounded {p : Progress} {text : List Char} {mantissa scale : Nat}
    (h : readDigits p text = some (mantissa, scale)) (hmantissa : p.mantissa < mantissaBound)
    (hscale : p.scale ≤ maxScale) (hstarted : p.started = false → p.scale = 0) :
    mantissa < mantissaBound ∧ scale ≤ maxScale := by
  induction text generalizing p with
  | nil =>
      rw [readDigits] at h
      split at h
      · cases h
        exact ⟨hmantissa, hscale⟩
      · cases h
  | cons c rest ih =>
      rw [readDigits] at h
      split at h
      · exact roundAt_bounded h hmantissa hscale
      · rename_i hplace
        split at h
        · simp only at h
          split at h
          · rename_i hnext
            refine ih h hnext ?_ (by simp)
            by_cases hpoint : p.point = true
            · by_cases hbegun : p.started = true
              · have hne : p.scale ≠ maxScale := fun heq => hplace ⟨hbegun, hpoint, heq⟩
                simp only [hpoint, if_true]
                omega
              · have hzero := hstarted (by simpa using hbegun)
                simp only [hpoint, if_true, hzero]
                decide
            · simp [hpoint]
          · split at h
            · exact roundAt_bounded h hmantissa hscale
            · cases h
        · split at h
          · exact ih h hmantissa hscale hstarted
          · split at h
            · exact ih h hmantissa hscale hstarted
            · cases h

theorem readPlain_sound {text : List Char} {d : Decimal} (h : readPlain text = some d) :
    d.Sound := by
  unfold readPlain at h
  simp only [Option.map_eq_some_iff] at h
  obtain ⟨⟨mantissa, scale⟩, hread, rfl⟩ := h
  have hbounds := readDigits_bounded hread (by decide) (by decide) (by simp)
  refine ⟨hbounds.1, hbounds.2, ?_⟩
  intro hnegative
  simp only [make, Bool.and_eq_true, bne_iff_ne] at hnegative
  exact hnegative.2

theorem shift_sound {d e : Decimal} {negative : Bool} {places : Nat} (hd : d.Sound)
    (h : shift d negative places = some e) : e.Sound := by
  have hmantissa := hd.mantissa
  have hscale := hd.scale
  unfold shift at h
  split at h
  · split at h
    · cases h
      rename_i hplaces
      exact ⟨hmantissa, hplaces, hd.negative⟩
    · cases h
  · split at h
    · cases h
      exact ⟨hmantissa, by simp only; omega, hd.negative⟩
    · split at h
      · simp only at h
        split at h
        · rename_i hbound
          cases h
          refine ⟨hbound, by simp, ?_⟩
          intro hnegative
          exact Nat.mul_ne_zero (hd.negative hnegative) (by simp)
        · cases h
      · cases h

theorem read?_sound {text : String} {d : Decimal} (h : read? text = some d) : d.Sound := by
  unfold read? at h
  simp only at h
  split at h
  · exact readPlain_sound h
  · simp only [Option.bind_eq_bind, Option.bind_eq_some_iff, Prod.exists] at h
    obtain ⟨base, hbase, negative, places, -, hshift⟩ := h
    exact shift_sound (readPlain_sound hbase) hshift

/-! ## Sound decimals read back -/

theorem readDigits_whole {p : Progress} {ds rest : List Char} (hds : ∀ c ∈ ds, c.isDigit = true)
    (hpoint : p.point = false) (hbound : Nat.ofDigitChars 10 ds p.mantissa < mantissaBound)
    (hne : ds ≠ []) :
    readDigits p (ds ++ rest) =
      readDigits ⟨Nat.ofDigitChars 10 ds p.mantissa, false, 0, true⟩ rest := by
  induction ds generalizing p with
  | nil => exact absurd rfl hne
  | cons c others ih =>
      have hnext := le_ofDigitChars others (10 * p.mantissa + digitValue c)
      have hlt : 10 * p.mantissa + digitValue c < mantissaBound := Nat.lt_of_le_of_lt hnext hbound
      rw [List.cons_append, readDigits, if_neg (by simp [hpoint]), if_pos (hds c (by simp))]
      simp only
      rw [if_pos hlt, hpoint]
      simp only [Bool.false_eq_true, if_false]
      cases others with
      | nil => rfl
      | cons d others =>
          exact ih (p := ⟨10 * p.mantissa + digitValue c, false, 0, true⟩)
            (fun d hd => hds d (List.mem_cons_of_mem _ hd)) rfl hbound (by simp)

theorem readDigits_fraction {p : Progress} {ds : List Char} (hds : ∀ c ∈ ds, c.isDigit = true)
    (hpoint : p.point = true) (hstarted : p.started = true)
    (hbound : Nat.ofDigitChars 10 ds p.mantissa < mantissaBound)
    (hscale : p.scale + ds.length ≤ maxScale) :
    readDigits p ds = some (Nat.ofDigitChars 10 ds p.mantissa, p.scale + ds.length) := by
  induction ds generalizing p with
  | nil =>
      rw [readDigits, if_pos hstarted]
      rfl
  | cons c others ih =>
      have hnext := le_ofDigitChars others (10 * p.mantissa + digitValue c)
      have hlt : 10 * p.mantissa + digitValue c < mantissaBound := Nat.lt_of_le_of_lt hnext hbound
      rw [List.length_cons] at hscale
      have hplace : ¬(p.started ∧ p.point ∧ p.scale = maxScale) := by omega
      rw [readDigits, if_neg hplace, if_pos (hds c (by simp))]
      simp only
      rw [if_pos hlt, if_pos hpoint,
        ih (p := ⟨10 * p.mantissa + digitValue c, p.point, p.scale + 1, true⟩)
          (fun d hd => hds d (List.mem_cons_of_mem _ hd)) hpoint rfl hbound
          (by simp only; omega)]
      rw [List.length_cons]
      simp only [Option.some.injEq, Prod.mk.injEq]
      exact ⟨rfl, by omega⟩

/-- The digits of a decimal with the point at its place. -/
theorem readDigits_body {d : Decimal} (h : d.Sound) :
    readDigits ⟨0, false, 0, false⟩
        ((padded (d.scale + 1) d.mantissa).take
            ((padded (d.scale + 1) d.mantissa).length - d.scale) ++
          (if d.scale = 0 then [] else
            '.' :: (padded (d.scale + 1) d.mantissa).drop
              ((padded (d.scale + 1) d.mantissa).length - d.scale))) =
      some (d.mantissa, d.scale) := by
  have hwidth := width_le_length_padded (d.scale + 1) d.mantissa
  have hdigit : ∀ c ∈ padded (d.scale + 1) d.mantissa, c.isDigit = true :=
    fun c hc => isDigit_of_mem_padded hc
  have hvalue : Nat.ofDigitChars 10 (padded (d.scale + 1) d.mantissa) 0 = d.mantissa :=
    value_padded _ _
  generalize padded (d.scale + 1) d.mantissa = ds at hwidth hdigit hvalue
  have hsplit : ds.take (ds.length - d.scale) ++ ds.drop (ds.length - d.scale) = ds :=
    List.take_append_drop _ _
  have hwhole : ∀ c ∈ ds.take (ds.length - d.scale), c.isDigit = true :=
    fun c hc => hdigit c (List.mem_of_mem_take hc)
  have hne : ds.take (ds.length - d.scale) ≠ [] := by
    apply List.ne_nil_of_length_pos
    rw [List.length_take]
    omega
  rw [← hsplit, Nat.ofDigitChars_append] at hvalue
  have hle := le_ofDigitChars (ds.drop (ds.length - d.scale))
    (Nat.ofDigitChars 10 (ds.take (ds.length - d.scale)) 0)
  rw [hvalue] at hle
  rw [readDigits_whole hwhole rfl (Nat.lt_of_le_of_lt hle h.mantissa) hne]
  by_cases hscale : d.scale = 0
  · rw [if_pos hscale, readDigits, if_pos rfl]
    rw [hscale, Nat.sub_zero, List.drop_length, Nat.ofDigitChars_nil] at hvalue
    simp only [hscale, Nat.sub_zero, hvalue]
  · have hlength : (ds.drop (ds.length - d.scale)).length = d.scale := by
      rw [List.length_drop]
      omega
    rw [if_neg hscale, readDigits, if_neg (by simp), if_neg (by decide), if_pos ⟨rfl, rfl⟩,
      readDigits_fraction (fun c hc => hdigit c (List.mem_of_mem_drop hc)) rfl rfl
        (by simp only; rw [hvalue]; exact h.mantissa)
        (by simp only; rw [hlength, Nat.zero_add]; exact h.scale)]
    simp only [hvalue, hlength, Nat.zero_add]

theorem isExponentMark_of_isDigit {c : Char} (h : c.isDigit = true) : isExponentMark c = false := by
  have he : c ≠ 'e' := ne_of_isDigit h rfl
  have hE : c ≠ 'E' := ne_of_isDigit h rfl
  simp [isExponentMark, he, hE]

theorem readPlain_sign {d : Decimal} {body : List Char} (h : d.Sound)
    (hbody : readDigits ⟨0, false, 0, false⟩ body = some (d.mantissa, d.scale))
    (hfirst : ∀ c ∈ body.head?, c.isDigit = true) :
    readPlain ((if d.negative then ['-'] else []) ++ body) = some d := by
  have hnegative := h.negative
  obtain ⟨negative, mantissa, scale⟩ := d
  unfold readPlain
  cases negative with
  | true => simp [hbody, make, hnegative rfl]
  | false =>
      cases body with
      | nil => cases hbody
      | cons c rest =>
          have hc := hfirst c (by simp)
          have hplus : c ≠ '+' := ne_of_isDigit hc rfl
          have hminus : c ≠ '-' := ne_of_isDigit hc rfl
          simp [hplus, hminus, hbody, make]

/-- A sound decimal reads back. -/
theorem read?_toText {d : Decimal} (h : d.Sound) : read? d.toText = some d := by
  have hbody := readDigits_body h
  have hdigit : ∀ c ∈ padded (d.scale + 1) d.mantissa, c.isDigit = true :=
    fun c hc => isDigit_of_mem_padded hc
  have hwidth := width_le_length_padded (d.scale + 1) d.mantissa
  unfold toText
  simp only
  generalize padded (d.scale + 1) d.mantissa = ds at hbody hdigit hwidth
  have hfirst : ∀ c ∈ (ds.take (ds.length - d.scale) ++
      (if d.scale = 0 then [] else '.' :: ds.drop (ds.length - d.scale))).head?,
      c.isDigit = true := by
    intro c hc
    cases ds with
    | nil => simp at hwidth
    | cons e rest =>
        rw [List.length_cons] at hwidth
        rw [List.length_cons, show rest.length + 1 - d.scale = rest.length - d.scale + 1 by omega,
          List.take_succ_cons] at hc
        obtain rfl : e = c := by simpa using hc
        exact hdigit e (by simp)
  rw [List.append_assoc]
  generalize hrest : ds.take (ds.length - d.scale) ++
    (if d.scale = 0 then [] else '.' :: ds.drop (ds.length - d.scale)) = body at hbody hfirst
  have hmark : ∀ c ∈ (if d.negative then ['-'] else []) ++ body,
      (!isExponentMark c) = true := by
    intro c hc
    have hcases : c = '-' ∨ c = '.' ∨ c ∈ ds := by
      rcases List.mem_append.1 hc with hc | hc
      · split at hc
        · exact .inl (by simpa using hc)
        · simp at hc
      · rw [← hrest] at hc
        rcases List.mem_append.1 hc with hc | hc
        · exact .inr (.inr (List.mem_of_mem_take hc))
        · split at hc
          · simp at hc
          · rcases List.mem_cons.1 hc with rfl | hc
            · exact .inr (.inl rfl)
            · exact .inr (.inr (List.mem_of_mem_drop hc))
    rcases hcases with rfl | rfl | hc
    · decide
    · decide
    · simp [isExponentMark_of_isDigit (hdigit c hc)]
  unfold read?
  have hspan : (((if d.negative then ['-'] else []) ++ body) ++ []).span (!isExponentMark ·) =
      ((if d.negative then ['-'] else []) ++ body, []) := span_append hmark (by simp)
  rw [List.append_nil] at hspan
  rw [String.toList_ofList, hspan]
  exact readPlain_sign h hbody hfirst

end Decimal

end ResourceQuery
