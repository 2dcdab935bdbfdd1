import ResourceQuery.Calendar.Instant
import ResourceQuery.Proofs.Numeral.Digits
/-!
# Texts of instants

An instant that was read lies on a day of the calendar and within its seconds. Written, an instant
of the years 0 to 9999 reads back. The text of any other year does not read at all, so no text that
is written for an instant reads as another one.
-/

namespace ResourceQuery

namespace Date

/-- The month and the day exist. -/
def OnCalendar (d : Date) : Prop :=
  1 ≤ d.month ∧ d.month ≤ 12 ∧ 1 ≤ d.day ∧ d.day ≤ daysIn d.year d.month

theorem daysIn_pos (year : Int) (month : Nat) : 1 ≤ daysIn year month := by
  unfold daysIn
  split
  · split <;> omega
  · split <;> omega

theorem daysIn_le (year : Int) (month : Nat) : daysIn year month ≤ 31 := by
  unfold daysIn
  split
  · split <;> omega
  · split <;> omega

theorem onCalendar_of_isValid {d : Date} (h : d.isValid = true) : d.OnCalendar := by
  simp only [isValid, Bool.and_eq_true, decide_eq_true_eq] at h
  unfold OnCalendar
  omega

theorem onCalendar_next {d : Date} (h : d.OnCalendar) : d.next.OnCalendar := by
  unfold OnCalendar at h
  unfold next
  split
  · unfold OnCalendar
    simp only
    omega
  · split
    · have hpos := daysIn_pos d.year (d.month + 1)
      unfold OnCalendar
      simp only
      omega
    · have hpos := daysIn_pos (d.year + 1) 1
      unfold OnCalendar
      simp only
      omega

theorem onCalendar_previous {d : Date} (h : d.OnCalendar) : d.previous.OnCalendar := by
  unfold OnCalendar at h
  unfold previous
  split
  · unfold OnCalendar
    simp only
    omega
  · split
    · have hpos := daysIn_pos d.year (d.month - 1)
      unfold OnCalendar
      simp only
      omega
    · have hlast : daysIn (d.year - 1) 12 = 31 := rfl
      unfold OnCalendar
      simp only
      omega

end Date

namespace Instant

open Numeral

/-- What holds of an instant that was read. -/
structure Sound (t : Instant) : Prop where
  date : t.date.OnCalendar
  second : t.second < secondsPerDay
  nano : t.nano < 2 * nanosPerSecond
  /-- Only the last second of a minute is a leap second. -/
  leap : nanosPerSecond ≤ t.nano → t.second % 60 = 59

/-! ## Instants that are read are sound -/

theorem readFraction_lt {nano : Nat} {text rest : List Char}
    (h : readFraction text = some (nano, rest)) : nano < nanosPerSecond := by
  unfold readFraction at h
  split at h
  · rename_i tail
    simp only at h
    split at h
    · cases h
    · obtain ⟨rfl, -⟩ := Prod.mk.inj (Option.some.inj h)
      have hdigits : ∀ c ∈ (spanDigits tail).1.take 9, c.isDigit = true := by
        intro c hc
        have hmem := List.mem_of_mem_take hc
        rw [spanDigits, List.span_eq_takeWhile_dropWhile] at hmem
        exact List.mem_takeWhile_imp hmem
      have hlength : ((spanDigits tail).1.take 9).length ≤ 9 := by
        rw [List.length_take]
        omega
      have hvalue := value_lt hdigits
      generalize (spanDigits tail).1.take 9 = kept at hlength hvalue
      calc value kept * 10 ^ (9 - kept.length)
          < 10 ^ kept.length * 10 ^ (9 - kept.length) :=
            Nat.mul_lt_mul_of_pos_right hvalue (Nat.pow_pos (by omega))
        _ = nanosPerSecond := by
            rw [← Nat.pow_add, Nat.add_sub_cancel' hlength]
            rfl
  · obtain ⟨rfl, -⟩ := Prod.mk.inj (Option.some.inj h)
    decide

/-- What comes behind one of two signs. -/
theorem exists_of_sign {p q : Prop} [Decidable p] [Decidable q] {read : Bool → Option α} {a : α}
    (h : (if p then some false >>= read else if q then some true >>= read else none >>= read) =
      some a) : ∃ negative, read negative = some a := by
  split at h
  · exact ⟨false, h⟩
  · split at h
    · exact ⟨true, h⟩
    · cases h

theorem readOffset_bounded {offset : Int} {text : List Char} (h : readOffset text = some offset) :
    -86400 < offset ∧ offset < 86400 ∧ offset % 60 = 0 := by
  unfold readOffset at h
  split at h
  · cases h
    decide
  · cases h
    decide
  · obtain ⟨negative, h⟩ := exists_of_sign h
    obtain ⟨⟨hours, _⟩, -, h⟩ := Option.bind_eq_some_iff.1 h
    obtain ⟨_, -, h⟩ := Option.bind_eq_some_iff.1 h
    obtain ⟨⟨minutes, _⟩, -, h⟩ := Option.bind_eq_some_iff.1 h
    dsimp only at h
    split at h
    · rename_i hbounds
      cases h
      split <;> omega
    · cases h
  · cases h

/-- Moving by full minutes keeps an instant sound. -/
theorem earlier_sound {t : Instant} {offset : Int} (h : t.Sound)
    (hoffset : -86400 < offset ∧ offset < 86400 ∧ offset % 60 = 0) : (t.earlier offset).Sound := by
  have hsecond := h.second
  have hleap := h.leap
  unfold earlier secondsPerDay at *
  simp only
  split
  · refine ⟨Date.onCalendar_previous h.date, ?_, h.nano, fun hnano => ?_⟩
    · simp only [secondsPerDay]
      omega
    · have := hleap hnano
      simp only
      omega
  · split
    · refine ⟨h.date, ?_, h.nano, fun hnano => ?_⟩
      · simp only [secondsPerDay]
        omega
      · have := hleap hnano
        simp only
        omega
    · refine ⟨Date.onCalendar_next h.date, ?_, h.nano, fun hnano => ?_⟩
      · simp only [secondsPerDay]
        omega
      · have := hleap hnano
        simp only
        omega

/-- What comes behind the sign between a day and a time. -/
theorem exists_of_separator {text : List Char} {read : List Char → Option α} {a : α}
    (h : (match text with
      | c :: rest => if c = 'T' ∨ c = 't' ∨ c = ' ' then some rest >>= read else none >>= read
      | [] => none >>= read) = some a) : ∃ rest, read rest = some a := by
  split at h
  · split at h
    · exact ⟨_, h⟩
    · cases h
  · cases h

theorem readTimestamp?_sound {text : String} {t : Instant} (h : readTimestamp? text = some t) :
    t.Sound := by
  -- layer by layer: simp would go through every layer once for each layer around it
  obtain ⟨⟨year, _⟩, -, h⟩ := Option.bind_eq_some_iff.1 h
  obtain ⟨_, -, h⟩ := Option.bind_eq_some_iff.1 h
  obtain ⟨⟨month, _⟩, -, h⟩ := Option.bind_eq_some_iff.1 h
  obtain ⟨_, -, h⟩ := Option.bind_eq_some_iff.1 h
  obtain ⟨⟨day, _⟩, -, h⟩ := Option.bind_eq_some_iff.1 h
  obtain ⟨_, h⟩ := exists_of_separator h
  obtain ⟨⟨hour, _⟩, -, h⟩ := Option.bind_eq_some_iff.1 h
  obtain ⟨_, -, h⟩ := Option.bind_eq_some_iff.1 h
  obtain ⟨⟨minute, _⟩, -, h⟩ := Option.bind_eq_some_iff.1 h
  obtain ⟨_, -, h⟩ := Option.bind_eq_some_iff.1 h
  obtain ⟨⟨second, _⟩, -, h⟩ := Option.bind_eq_some_iff.1 h
  obtain ⟨⟨nano, _⟩, hnano, h⟩ := Option.bind_eq_some_iff.1 h
  obtain ⟨offset, hoffset, h⟩ := Option.bind_eq_some_iff.1 h
  dsimp only at h
  split at h
  · rename_i hvalid
    cases h
    have hlt := readFraction_lt hnano
    unfold nanosPerSecond at hlt
    refine earlier_sound ⟨Date.onCalendar_of_isValid hvalid.1, ?_, ?_, ?_⟩
      (readOffset_bounded hoffset)
    · simp only [secondsPerDay]
      split <;> omega
    · simp only [nanosPerSecond]
      split <;> omega
    · simp only [nanosPerSecond]
      split <;> omega
  · cases h

theorem read?_sound {text : String} {t : Instant} (h : read? text = some t) : t.Sound := by
  unfold read? at h
  cases htimestamp : readTimestamp? text with
  | some u =>
      rw [htimestamp] at h
      cases h
      exact readTimestamp?_sound htimestamp
  | none =>
      rw [htimestamp] at h
      simp only [Option.orElse, readDay?, Option.bind_eq_bind, Option.bind_eq_some_iff,
        Prod.exists] at h
      obtain ⟨year, _, -, _, -, month, _, -, _, -, day, _, -, h⟩ := h
      split at h
      · rename_i hvalid
        cases h
        exact ⟨Date.onCalendar_of_isValid hvalid.2, by simp [midnight, secondsPerDay],
          by simp [midnight, nanosPerSecond], by simp [midnight, nanosPerSecond]⟩
      · cases h

/-! ## Reading what was written -/

theorem takeDigits_padded {count n : Nat} (rest : List Char) (hcount : 0 < count)
    (h : n < 10 ^ count) : takeDigits count (padded count n ++ rest) = some (n, rest) := by
  have hlength := length_padded hcount h
  have htake : (padded count n ++ rest).take count = padded count n := by
    rw [List.take_left' hlength]
  have hdrop : (padded count n ++ rest).drop count = rest := by
    rw [List.drop_left' hlength]
  have hdigits : (padded count n).all Char.isDigit = true := by
    rw [List.all_eq_true]
    exact fun c hc => isDigit_of_mem_padded hc
  unfold takeDigits
  simp only [htake, hdrop]
  rw [if_pos ⟨hlength, hdigits⟩, value_padded]

theorem takeChar_self (c : Char) (rest : List Char) : takeChar c (c :: rest) = some rest := by
  simp [takeChar]

theorem spanDigits_padded {width n : Nat} {c : Char} (rest : List Char) (hc : c.isDigit = false) :
    spanDigits (padded width n ++ c :: rest) = (padded width n, c :: rest) :=
  span_append (fun d hd => isDigit_of_mem_padded hd) (by simpa using hc)

theorem readFraction_padded {width n : Nat} (hwidth : 0 < width ∧ width ≤ 9)
    (h : n < 10 ^ width) :
    readFraction ('.' :: padded width n ++ ['Z']) = some (n * 10 ^ (9 - width), ['Z']) := by
  have hlength := length_padded hwidth.1 h
  have hspan : spanDigits (padded width n ++ ['Z']) = (padded width n, ['Z']) :=
    spanDigits_padded [] rfl
  have hne : (padded width n).isEmpty = false := by
    rw [List.isEmpty_eq_false_iff]
    exact List.ne_nil_of_length_pos (by omega)
  have htake : (padded width n).take 9 = padded width n :=
    List.take_of_length_le (by omega)
  simp only [List.cons_append, readFraction, hspan, hne, htake, hlength, value_padded]
  rfl

/-- As many digits as are needed show the whole fraction. -/
theorem readFraction_fractionText {nano : Nat} (h : nano < nanosPerSecond) :
    readFraction (fractionText nano ++ ['Z']) = some (nano, ['Z']) := by
  unfold nanosPerSecond at h
  unfold fractionText
  split
  · rename_i hzero
    subst hzero
    rfl
  · split
    · rw [readFraction_padded (by omega) (by omega)]
      simp only [Option.some.injEq, Prod.mk.injEq, and_true]
      omega
    · split
      · rw [readFraction_padded (by omega) (by omega)]
        simp only [Option.some.injEq, Prod.mk.injEq, and_true]
        omega
      · rw [readFraction_padded (by omega) (by omega)]
        simp only [Option.some.injEq, Prod.mk.injEq, and_true]
        omega

theorem earlier_zero {t : Instant} (h : t.second < secondsPerDay) : t.earlier 0 = t := by
  unfold earlier
  simp only
  rw [if_neg (by omega), if_pos (by omega)]
  simp

/-- An instant of a year with four digits reads back. -/
theorem readTimestamp?_toText {t : Instant} (h : t.Sound)
    (hyear : 0 ≤ t.date.year ∧ t.date.year ≤ 9999) : readTimestamp? t.toText = some t := by
  obtain ⟨⟨hmonth, hmonths, hday, hdays⟩, hsecond, hnano, hleap⟩ := h
  have hdaysIn := Date.daysIn_le t.date.year t.date.month
  have hfraction := readFraction_fractionText (Nat.mod_lt t.nano (show 0 < nanosPerSecond by decide))
  have hvalid : t.date.isValid = true := by
    simp only [Date.isValid, Bool.and_eq_true, decide_eq_true_eq]
    refine ⟨⟨⟨⟨⟨?_, ?_⟩, hmonth⟩, hmonths⟩, hday⟩, hdays⟩
    · change -262143 ≤ t.date.year
      omega
    · change t.date.year ≤ 262142
      omega
  unfold nanosPerSecond at hnano hleap hfraction
  unfold secondsPerDay at hsecond
  have hyearText : yearText t.date.year = padded 4 t.date.year.toNat := by
    unfold yearText
    rw [if_pos hyear]
  have hyearNat : ((t.date.year.toNat : Nat) : Int) = t.date.year := by omega
  have hdate : (⟨((t.date.year.toNat : Nat) : Int), t.date.month, t.date.day⟩ : Date) = t.date := by
    rw [hyearNat]
  have hclock : t.second / 3600 * 3600 + t.second / 60 % 60 * 60 + t.second % 60 = t.second := by
    omega
  unfold readTimestamp? toText nanosPerSecond
  rw [String.toList_ofList, hyearText]
  simp only [List.append_assoc, List.cons_append]
  apply Option.bind_eq_some_iff.2 ⟨_, takeDigits_padded _ (by omega) (by omega), ?_⟩
  apply Option.bind_eq_some_iff.2 ⟨_, takeChar_self _ _, ?_⟩
  apply Option.bind_eq_some_iff.2 ⟨_, takeDigits_padded _ (by omega) (by omega), ?_⟩
  apply Option.bind_eq_some_iff.2 ⟨_, takeChar_self _ _, ?_⟩
  apply Option.bind_eq_some_iff.2 ⟨_, takeDigits_padded _ (by omega) (by omega), ?_⟩
  apply Option.bind_eq_some_iff.2 ⟨_, takeDigits_padded _ (by omega) (by omega), ?_⟩
  apply Option.bind_eq_some_iff.2 ⟨_, takeChar_self _ _, ?_⟩
  apply Option.bind_eq_some_iff.2 ⟨_, takeDigits_padded _ (by omega) (by omega), ?_⟩
  apply Option.bind_eq_some_iff.2 ⟨_, takeChar_self _ _, ?_⟩
  apply Option.bind_eq_some_iff.2 ⟨_, takeDigits_padded _ (by omega) (by omega), ?_⟩
  apply Option.bind_eq_some_iff.2 ⟨_, hfraction, ?_⟩
  apply Option.bind_eq_some_iff.2 ⟨_, rfl, ?_⟩
  simp only [hdate]
  rw [if_pos ⟨hvalid, by omega, by omega, by omega⟩]
  have hsame : (⟨t.date,
      t.second / 3600 * 3600 + t.second / 60 % 60 * 60 +
        (if t.second % 60 + t.nano / 1000000000 = 60 then 59
          else t.second % 60 + t.nano / 1000000000),
      t.nano % 1000000000 +
        (if t.second % 60 + t.nano / 1000000000 = 60 then 1000000000 else 0)⟩ : Instant) = t := by
    obtain ⟨date, second, nano⟩ := t
    simp only [Instant.mk.injEq, true_and] at *
    by_cases hbeyond : 1000000000 ≤ nano
    · have hlast := hleap hbeyond
      rw [if_pos (by omega), if_pos (by omega)]
      omega
    · rw [if_neg (by omega), if_neg (by omega)]
      omega
  rw [hsame, earlier_zero hsecond]

/-! ## Other years -/

theorem trimStart_of_not_blank {c : Char} (rest : List Char) (h : Text.isBlank c = false) :
    Text.trimStart (c :: rest) = c :: rest := by
  rw [Text.trimStart, List.dropWhile_cons_of_neg (by simp [h])]

theorem isBlank_of_isDigit {c : Char} (h : c.isDigit = true) : Text.isBlank c = false := by
  simp only [Char.isDigit, Bool.and_eq_true, decide_eq_true_eq, ge_iff_le, UInt32.le_iff_toNat_le]
    at h
  have hleast : 48 ≤ c.toNat := h.1
  have hgreatest : c.toNat ≤ 57 := h.2
  simp [Text.isBlank, Text.blankRanges]
  omega

theorem takeNumber_padded {n : Nat} (rest : List Char) (h : n < 100) :
    takeNumber 2 (padded 2 n ++ rest) = some (n, rest) := by
  have hlength : (padded 2 n).length = 2 := length_padded (by omega) (by omega)
  have hdigit : ∀ d ∈ padded 2 n, d.isDigit = true := fun d hd => isDigit_of_mem_padded hd
  have htrim : Text.trimStart (padded 2 n ++ rest) = padded 2 n ++ rest := by
    cases hds : padded 2 n with
    | nil => simp [hds] at hlength
    | cons d others =>
        exact trimStart_of_not_blank _ (isBlank_of_isDigit (hdigit d (by simp [hds])))
  have hfront : ((padded 2 n ++ rest).take 2).takeWhile Char.isDigit = padded 2 n := by
    rw [List.take_left' hlength]
    exact List.takeWhile_eq_self_iff.2 hdigit
  have hne : (padded 2 n).isEmpty = false := by
    rw [List.isEmpty_eq_false_iff]
    exact List.ne_nil_of_length_pos (by omega)
  unfold takeNumber
  simp only [htrim, hfront, hne, value_padded, hlength, List.drop_left' hlength]
  rfl

/-- The text of an instant of another year starts with a sign, so only a day could be read, and
behind the day there is a time. -/
theorem read?_toText_of_signed {t : Instant} (h : t.Sound)
    (hyear : ¬(0 ≤ t.date.year ∧ t.date.year ≤ 9999)) : read? t.toText = none := by
  obtain ⟨⟨hmonth, hmonths, hday, hdays⟩, -, -, -⟩ := h
  have hdaysIn := Date.daysIn_le t.date.year t.date.month
  obtain ⟨sign, hsign, hyearText⟩ : ∃ sign : Char, (sign = '-' ∨ sign = '+') ∧
      yearText t.date.year = sign :: padded 4 t.date.year.natAbs := by
    unfold yearText
    rw [if_neg hyear]
    split
    · exact ⟨'-', .inl rfl, rfl⟩
    · exact ⟨'+', .inr rfl, rfl⟩
  have hdigit : sign.isDigit = false := by
    rcases hsign with rfl | rfl <;> rfl
  have hblank : Text.isBlank sign = false := by
    rcases hsign with rfl | rfl <;> decide
  have htimestamp : readTimestamp? t.toText = none := by
    unfold readTimestamp? toText
    rw [String.toList_ofList, hyearText]
    have hnone : ∀ rest, takeDigits 4 (sign :: rest) = none := by simp [takeDigits, hdigit]
    simp only [List.append_assoc, List.cons_append]
    rw [hnone]
    rfl
  have hne : (padded 4 t.date.year.natAbs).isEmpty = false := by
    have hwidth := width_le_length_padded 4 t.date.year.natAbs
    rw [List.isEmpty_eq_false_iff]
    exact List.ne_nil_of_length_pos (by omega)
  have hday : readDay? t.toText = none := by
    unfold readDay? toText takeYear
    rw [String.toList_ofList, hyearText]
    simp only [List.append_assoc, List.cons_append]
    rw [trimStart_of_not_blank _ hblank]
    simp only [if_pos hsign, spanDigits_padded _ (show '-'.isDigit = false from rfl), hne,
      Option.bind_eq_bind, takeChar]
    change ((takeNumber 2 _).bind _) = none
    rw [takeNumber_padded _ (by omega)]
    simp only [Option.bind_some, if_true]
    rw [takeNumber_padded _ (by omega)]
    simp
  unfold read?
  rw [htimestamp, hday]
  rfl

theorem read?_toText {t : Instant} (h : t.Sound)
    (hyear : 0 ≤ t.date.year ∧ t.date.year ≤ 9999) : read? t.toText = some t := by
  rw [read?, readTimestamp?_toText h hyear]
  rfl

/-- What an instant is written as reads as no other instant. -/
theorem eq_of_read?_toText {t u : Instant} (h : t.Sound) (hu : read? t.toText = some u) : u = t := by
  by_cases hyear : 0 ≤ t.date.year ∧ t.date.year ≤ 9999
  · rw [read?_toText h hyear] at hu
    exact (Option.some.inj hu).symm
  · rw [read?_toText_of_signed h hyear] at hu
    cases hu

end Instant

end ResourceQuery
