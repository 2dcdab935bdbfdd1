import ResourceQuery.Proofs.Session.Conforming
/-!
# Dates

A date has one text, which is written into documents too. It reads back, as a parameter and from a
document, if and only if its year has four digits (`ScalarKind.date_reads_back_iff`). An offset can
carry a timestamp of the years 0 to 9999 out of these years, and a plain day may have any year
behind a sign.
-/

namespace ResourceQuery

namespace Instant

/-- A timestamp has no sign. -/
theorem readTimestamp?_toText_of_signed {t : Instant} (h : t.Sound)
    (hyear : ¬(0 ≤ t.date.year ∧ t.date.year ≤ 9999)) : readTimestamp? t.toText = none := by
  have hread := read?_toText_of_signed h hyear
  unfold read? at hread
  exact (Option.or_eq_none_iff.1 (by simpa using hread)).1

/-- A reader that takes the texts of four-digit years only gives nothing but the instant. -/
theorem reads_iff {read : String → Option Instant} {t u : Instant}
    (hshort : 0 ≤ t.date.year ∧ t.date.year ≤ 9999 → read t.toText = some t)
    (hlong : ¬(0 ≤ t.date.year ∧ t.date.year ≤ 9999) → read t.toText = none) :
    read t.toText = some u ↔ u = t ∧ (Value.date t).FourDigitYears := by
  change _ ↔ u = t ∧ 0 ≤ t.date.year ∧ t.date.year ≤ 9999
  by_cases hyear : 0 ≤ t.date.year ∧ t.date.year ≤ 9999
  · rw [hshort hyear, Option.some.injEq, and_iff_left hyear, eq_comm]
  · rw [hlong hyear]
    exact ⟨fun h => (by cases h), fun h => (hyear h.2).elim⟩

end Instant

/-- Reading a date takes the text that waits, if it is a timestamp. -/
theorem JsonInput.result_readDate {text : String} {input after : JsonInput} {t : Instant}
    (hnext : input.next = some (.string text)) :
    JsonInput.readDate.result input = .ok (t, after) ↔
      Instant.readTimestamp? text = some t ∧ after = { input with next := none } := by
  obtain ⟨next, stack, identities⟩ := input
  obtain rfl : next = some (.string text) := hnext
  have htext : readText.result ⟨some (.string text), stack, identities⟩ =
      .ok (text, ⟨none, stack, identities⟩) := rfl
  rw [readDate, Reading.result_bind, htext, ok_bind]
  cases hread : Instant.readTimestamp? text with
  | none => simp [hread]
  | some read => simp [hread, eq_comm]

theorem ScalarKind.parse_date_eq_ok_iff {text : String} {v : Value} :
    ScalarKind.date.parse text = .ok v ↔ ∃ t, Instant.read? text = some t ∧ v = .date t := by
  simp only [parse]
  cases Instant.read? text with
  | none => simp
  | some t => simp [eq_comm]

/-- The text of a date that was read is what is written of it. No other date is read from it, and
the date itself if and only if its year has four digits. -/
theorem ScalarKind.date_reads_back_iff {text : String} {v : Value}
    (h : ScalarKind.date.parse text = .ok v) :
    ∃ t written, v = .date t ∧ ScalarKind.date.toText v = .ok written ∧
      (∀ w, ScalarKind.date.parse written = .ok w ↔ w = v ∧ v.FourDigitYears) ∧
      JsonOutput.writeLeaf v = JsonOutput.emit (.string written) ∧
      ∀ input : JsonInput, input.next = some (.string written) → ∀ u after,
        JsonInput.readDate.result input = .ok (u, after) ↔
          (u = t ∧ v.FourDigitYears) ∧ after = { input with next := none } := by
  obtain ⟨t, ht, rfl⟩ := parse_date_eq_ok_iff.1 h
  have hsound := Instant.read?_sound ht
  refine ⟨t, t.toText, rfl, rfl, ?_, rfl, ?_⟩
  · intro w
    rw [parse_date_eq_ok_iff]
    have hread : ∀ u, Instant.read? t.toText = some u ↔
        u = t ∧ (Value.date t).FourDigitYears := fun _ =>
      Instant.reads_iff (Instant.read?_toText hsound) (Instant.read?_toText_of_signed hsound)
    simp only [hread]
    constructor
    · rintro ⟨u, ⟨rfl, hyears⟩, rfl⟩
      exact ⟨rfl, hyears⟩
    · rintro ⟨rfl, hyears⟩
      exact ⟨t, ⟨rfl, hyears⟩, rfl⟩
  · intro input hnext u after
    rw [JsonInput.result_readDate hnext, Instant.reads_iff (Instant.readTimestamp?_toText hsound)
      (Instant.readTimestamp?_toText_of_signed hsound)]

/-- A leap second that starts a year in the east is one of the old year. -/
theorem leapSecond_reads_back : ∃ t written,
    ScalarKind.date.parse "2017-01-01T00:59:60.5+01:00" = .ok (.date t) ∧
      ScalarKind.date.toText (.date t) = .ok written ∧ written = "2016-12-31T23:59:60.500Z" ∧
      ScalarKind.date.parse written = .ok (.date t) ∧
      JsonOutput.writeLeaf (.date t) = JsonOutput.emit (.string written) ∧
      JsonInput.readDate.result ⟨some (.string written), [], none⟩ =
        .ok (t, ⟨none, [], none⟩) := by
  have hread : ScalarKind.date.parse "2017-01-01T00:59:60.5+01:00" =
      .ok (.date ⟨⟨2016, 12, 31⟩, 86399, 1500000000⟩) :=
    ScalarKind.parse_date_eq_ok_iff.2 ⟨_, by decide +kernel, rfl⟩
  have hyears : (Value.date ⟨⟨2016, 12, 31⟩, 86399, 1500000000⟩).FourDigitYears := by
    simp [Value.FourDigitYears]
  obtain ⟨t, written, hvalue, hwritten, hagain, hemitted, htaken⟩ :=
    ScalarKind.date_reads_back_iff hread
  have htext : written = "2016-12-31T23:59:60.500Z" :=
    Except.ok.inj (hwritten.symm.trans (toOption_eq_some_iff.1 (by decide +kernel)))
  exact ⟨_, written, hread, hwritten, htext, (hagain _).2 ⟨rfl, hyears⟩, hemitted,
    (htaken _ rfl _ _).2 ⟨⟨Value.date.inj hvalue, hyears⟩, rfl⟩⟩

/-- The last second of the year 9999 in the west is one of the year 10000 and does not read back. -/
theorem lastSecond_reads_never : ∃ v written,
    ScalarKind.date.parse "9999-12-31T23:59:59-01:00" = .ok v ∧
      ScalarKind.date.toText v = .ok written ∧ written = "+10000-01-01T00:59:59Z" ∧
      (∀ w, ScalarKind.date.parse written ≠ .ok w) ∧
      JsonOutput.writeLeaf v = JsonOutput.emit (.string written) ∧
      ∀ t after, JsonInput.readDate.result ⟨some (.string written), [], none⟩ ≠ .ok (t, after) := by
  have hread : ScalarKind.date.parse "9999-12-31T23:59:59-01:00" =
      .ok (.date ⟨⟨10000, 1, 1⟩, 3599, 0⟩) :=
    ScalarKind.parse_date_eq_ok_iff.2 ⟨_, by decide +kernel, rfl⟩
  have hnone : Instant.read? "+10000-01-01T00:59:59Z" = none := by decide +kernel
  have htimestamp : Instant.readTimestamp? "+10000-01-01T00:59:59Z" = none := by decide +kernel
  refine ⟨_, _, hread, toOption_eq_some_iff.1 (by decide +kernel), rfl, ?_, rfl, ?_⟩
  · intro w hw
    obtain ⟨t, ht, -⟩ := ScalarKind.parse_date_eq_ok_iff.1 hw
    rw [hnone] at ht
    cases ht
  · intro t after hafter
    obtain ⟨ht, -⟩ := (JsonInput.result_readDate rfl).1 hafter
    rw [htimestamp] at ht
    cases ht

end ResourceQuery
