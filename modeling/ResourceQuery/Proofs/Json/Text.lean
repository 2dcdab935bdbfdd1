import ResourceQuery.Json.Printer
import ResourceQuery.Json.Reader
import ResourceQuery.Proofs.Numeral.Digits
/-!
# Parts of JSON texts

What is written of a string and of an integer is read again, whatever follows it. `Json.Reads` says
this of a whole document; leaves have it, and arrays and objects have it whatever white space stands
between the texts of their parts.
-/

namespace ResourceQuery.Json

/-! ## White space -/

/-- White space between the parts of a document. -/
def IsBlank (gap : List Char) : Prop := ∀ c ∈ gap, isSpace c = true

theorem skipSpace_append {gap : List Char} (h : IsBlank gap) (rest : List Char) :
    skipSpace (gap ++ rest) = skipSpace rest := List.dropWhile_append_of_pos h

theorem skipSpace_cons {c : Char} (h : isSpace c = false) (rest : List Char) :
    skipSpace (c :: rest) = c :: rest := by
  rw [skipSpace, List.dropWhile_cons_of_neg (by simp [h])]

/-! ## Strings -/

theorem hexUnit_control : ∀ n < 32,
    hexUnit '0' '0' (Nat.digitChar (n / 16)) (Nat.digitChar (n % 16)) = some n := by
  decide

theorem readString_plainEscape {c d : Char} (h : plainEscape d = some c) (hd : d ≠ 'u')
    (read rest : List Char) :
    readString read ('\\' :: d :: rest) = readString (c :: read) rest := by
  simp [readString, h, hd]

/-- Each character is read from its escape. -/
theorem readString_escape (read : List Char) (c : Char) (rest : List Char) :
    readString read (escape c ++ rest) = readString (c :: read) rest := by
  have hcode : ∀ {n : Nat}, c.toNat = n → some (Char.ofNat n) = some c := by
    rintro _ rfl
    rw [Char.ofNat_toNat]
  have hplain : ∀ d : Char, plainEscape d = some c → d ≠ 'u' →
      readString read (['\\', d] ++ rest) = readString (c :: read) rest :=
    fun d h hd => readString_plainEscape h hd read rest
  unfold escape
  split
  · exact hplain '"' (by rename_i h; subst h; rfl) (by decide)
  split
  · exact hplain '\\' (by rename_i h; subst h; rfl) (by decide)
  split
  · exact hplain 'n' (by rename_i h; subst h; rfl) (by decide)
  split
  · exact hplain 'r' (by rename_i h; subst h; rfl) (by decide)
  split
  · exact hplain 't' (by rename_i h; subst h; rfl) (by decide)
  split
  · rename_i h
    exact hplain 'b' (hcode h) (by decide)
  split
  · rename_i h
    exact hplain 'f' (hcode h) (by decide)
  split
  · rename_i h
    have hunit := hexUnit_control c.toNat h
    have hsingle : c.toNat < 0xD800 ∨ 0xE000 ≤ c.toNat := .inl (by omega)
    simp [readString, hunit, hsingle, Char.ofNat_toNat]
  · rename_i hquote hslash _ _ _ _ _ hcontrol
    simp [readString, hslash, hcontrol]

theorem readString_flatMap (text read rest : List Char) :
    readString read (text.flatMap escape ++ '"' :: rest) =
      some (String.ofList (read.reverse ++ text), rest) := by
  induction text generalizing read with
  | nil => simp [readString]
  | cons c text ih =>
      rw [List.flatMap_cons, List.append_assoc, readString_escape, ih]
      simp

theorem toList_quote (s : String) (rest : List Char) :
    (quote s).toList ++ rest = '"' :: (s.toList.flatMap escape ++ '"' :: rest) := by
  simp [quote]

/-- A string is read behind its opening quote. -/
theorem readString_quote (s : String) (rest : List Char) :
    readString [] (s.toList.flatMap escape ++ '"' :: rest) = some (s, rest) := by
  rw [readString_flatMap]
  simp

/-! ## Integers -/

/-- A number ends in front of this text: white space, a comma or a closing bracket follows. -/
def EndsValue (rest : List Char) : Prop :=
  ∀ c ∈ rest.head?, isSpace c = true ∨ c ∈ [',', ']', '\x7d']

theorem EndsValue.not_mem {rest : List Char} (h : EndsValue rest) {c : Char}
    (hspace : isSpace c = false) (hc : c ∉ [',', ']', '\x7d']) : rest.head? ≠ some c := by
  intro hhead
  rcases h c hhead with hblank | hmark
  · rw [hspace] at hblank
    cases hblank
  · exact hc hmark

theorem isDigit_of_endsValue {rest : List Char} (h : EndsValue rest) :
    ∀ c ∈ rest.head?, c.isDigit = false := by
  intro c hc
  rcases h c hc with hblank | hmark
  · simp only [isSpace, Bool.or_eq_true, beq_iff_eq] at hblank
    rcases hblank with ((rfl | rfl) | rfl) | rfl <;> decide
  · simp only [List.mem_cons, List.not_mem_nil, or_false] at hmark
    rcases hmark with rfl | rfl | rfl <;> decide

/-- Only zero is written with a zero in front. -/
theorem head?_digits {n : Nat} (h : 1 < (Numeral.digits n).length) :
    (Numeral.digits n).head? ≠ some '0' := by
  intro hhead
  obtain ⟨rest, hrest⟩ : ∃ rest, Numeral.digits n = '0' :: rest := by
    cases hdigits : Numeral.digits n with
    | nil => exact absurd hdigits (Numeral.digits_ne_nil n)
    | cons c rest =>
        rw [hdigits, List.head?_cons, Option.some.injEq] at hhead
        exact ⟨rest, by rw [hhead]⟩
  rw [hrest, List.length_cons] at h
  have hvalue : n = Numeral.value rest := by
    rw [← Numeral.value_digits n, hrest]
    simp [Numeral.value, Numeral.digitValue]
  have hlt : n < 10 ^ rest.length := by
    rw [hvalue]
    exact Numeral.value_lt fun c hc => Numeral.isDigit_of_mem_digits (by rw [hrest]; simp [hc])
  have hlength := (Numeral.length_digits_le_iff (by omega)).2 hlt
  rw [hrest, List.length_cons] at hlength
  omega

/-- Digits that do not pass the bound are all collected. -/
theorem collect_of_le {digits : List Char} {significand taken : Nat}
    (h : Nat.ofDigitChars 10 digits significand ≤ significandBound) :
    collect significand taken digits =
      (Nat.ofDigitChars 10 digits significand, taken + digits.length, []) := by
  induction digits generalizing significand taken with
  | nil => rfl
  | cons c rest ih =>
      have hnext : 10 * significand + Numeral.digitValue c ≤ significandBound :=
        Nat.le_trans (Numeral.le_ofDigitChars rest _) h
      have hrest := @ih (10 * significand + Numeral.digitValue c) (taken + 1) h
      rw [collect, if_pos hnext, hrest, List.length_cons, Nat.add_assoc, Nat.add_comm 1]
      rfl

theorem collect_digits {m : Nat} (h : m ≤ significandBound) :
    collect 0 0 (Numeral.digits m) = (m, (Numeral.digits m).length, []) := by
  have hvalue : Nat.ofDigitChars 10 (Numeral.digits m) 0 = m := Numeral.value_digits m
  rw [collect_of_le (by rwa [hvalue]), hvalue, Nat.zero_add]

/-- The integers that are written as such and read as such. -/
def InRange (n : Int) : Prop := -0x8000000000000000 ≤ n ∧ n ≤ significandBound

/-- A run of digits is read as a whole number, behind a sign too. -/
theorem readNumber_digits {m : Nat} (h : m ≤ significandBound) {rest : List Char}
    (hrest : EndsValue rest) :
    readNumber (Numeral.digits m ++ rest) = some (.integer m, rest) ∧
      (m ≠ 0 → m ≤ 0x8000000000000000 →
        readNumber ('-' :: (Numeral.digits m ++ rest)) = some (.integer (-m), rest)) := by
  have hspan : Numeral.spanDigits (Numeral.digits m ++ rest) = (Numeral.digits m, rest) :=
    span_append (fun c => Numeral.isDigit_of_mem_digits) (isDigit_of_endsValue hrest)
  have hnonempty : (Numeral.digits m).isEmpty = false := by
    simpa using Numeral.digits_ne_nil m
  have hzero : ¬(1 < (Numeral.digits m).length ∧ (Numeral.digits m).head? = some '0') :=
    fun hdigits => head?_digits hdigits.1 hdigits.2
  have hpoint := hrest.not_mem (c := '.') (by decide) (by decide)
  have hsmall := hrest.not_mem (c := 'e') (by decide) (by decide)
  have hcapital := hrest.not_mem (c := 'E') (by decide) (by decide)
  constructor
  · unfold readNumber
    split
    rename_i negative text hsign
    split at hsign
    · rename_i minus
      obtain ⟨d, ds, hdigits⟩ := List.exists_cons_of_ne_nil (Numeral.digits_ne_nil m)
      rw [hdigits, List.cons_append, List.cons.injEq] at minus
      have hd := Numeral.isDigit_of_mem_digits (n := m) (c := d) (by rw [hdigits]; simp)
      exact absurd minus.1 (Numeral.ne_of_isDigit hd (by decide))
    · cases hsign
      simp only [hspan, collect_digits h, hnonempty, hzero]
      cases rest with
      | nil => simp
      | cons c more =>
          simp only [List.head?_cons, ne_eq, Option.some.injEq] at hpoint hsmall hcapital
          simp [hpoint, hsmall, hcapital]
  · intro hne hle
    unfold readNumber
    simp only [hspan, collect_digits h, hnonempty, hzero]
    cases rest with
    | nil => simp [hne, hle]
    | cons c more =>
        simp only [List.head?_cons, ne_eq, Option.some.injEq] at hpoint hsmall hcapital
        simp [hpoint, hsmall, hcapital, hne, hle]

theorem readNumber_ofInt {n : Int} (h : InRange n) {rest : List Char} (hrest : EndsValue rest) :
    readNumber ((Numeral.ofInt n).toList ++ rest) = some (.integer n, rest) := by
  have hbound : significandBound = 0xffffffffffffffff := rfl
  obtain ⟨hleast, hgreatest⟩ := h
  have hm : n.natAbs ≤ significandBound := by omega
  rw [Numeral.ofInt, String.toList_ofList]
  by_cases hn : n < 0
  · rw [if_pos hn]
    have hread := (readNumber_digits hm hrest).2 (by omega) (by omega)
    rw [Int.ofNat_natAbs_of_nonpos (by omega), Int.neg_neg] at hread
    exact hread
  · rw [if_neg hn]
    have hread := (readNumber_digits hm hrest).1
    rw [Int.natAbs_of_nonneg (by omega)] at hread
    exact hread

end ResourceQuery.Json
