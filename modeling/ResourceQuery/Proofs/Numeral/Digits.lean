import Mathlib.Data.List.TakeDrop
import Mathlib.Data.List.TakeWhile
import ResourceQuery.Numeral.Whole
import ResourceQuery.Proofs.Outcome
/-!
# Digits read back

The digits of a natural number stand for it, with any zeros in front. What a whole number is written
as is read as the same number.
-/

namespace ResourceQuery

/-- The longest run in front of a text that goes on with something else. -/
theorem span_append {p : Char → Bool} {front rest : List Char} (hfront : ∀ c ∈ front, p c = true)
    (hrest : ∀ c ∈ rest.head?, p c = false) : (front ++ rest).span p = (front, rest) := by
  rw [List.span_eq_takeWhile_dropWhile, List.takeWhile_append_of_pos hfront,
    List.dropWhile_append_of_pos hfront]
  cases rest with
  | nil => simp
  | cons c others =>
      have hc := hrest c (by simp)
      simp [hc]

namespace Numeral

theorem spanDigits_self {ds : List Char} (h : ∀ c ∈ ds, c.isDigit = true) :
    spanDigits ds = (ds, []) := by
  have hspan : (ds ++ []).span Char.isDigit = (ds, []) := span_append h (by simp)
  rw [List.append_nil] at hspan
  exact hspan

theorem value_append (front back : List Char) :
    value (front ++ back) = 10 ^ back.length * value front + value back := by
  change Nat.ofDigitChars 10 (front ++ back) 0 = _
  rw [Nat.ofDigitChars_append, Nat.ofDigitChars_eq_ofDigitChars_zero]
  rfl

theorem value_digits (n : Nat) : value (digits n) = n := Nat.ofDigitChars_ten_toDigits

theorem ofNat_injective {n m : Nat} (h : ofNat n = ofNat m) : n = m := by
  have hdigits : digits n = digits m := String.ofList_injective h
  rw [← value_digits n, hdigits, value_digits]

theorem value_replicate_zero (count : Nat) : value (List.replicate count '0') = 0 := by
  change Nat.ofDigitChars 10 _ 0 = 0
  rw [Nat.ofDigitChars_replicate_zero, Nat.mul_zero]

theorem digits_ne_nil (n : Nat) : digits n ≠ [] := Nat.toDigits_ne_nil

theorem isDigit_of_mem_digits {n : Nat} {c : Char} (h : c ∈ digits n) : c.isDigit = true :=
  Nat.isDigit_of_mem_toDigits (by omega) (by omega) h

theorem length_digits_le_iff {n width : Nat} (h : 0 < width) :
    (digits n).length ≤ width ↔ n < 10 ^ width :=
  Nat.length_toDigits_le_iff (by omega) h

theorem value_padded (width n : Nat) : value (padded width n) = n := by
  unfold padded
  rw [value_append, value_replicate_zero, value_digits, Nat.mul_zero, Nat.zero_add]

theorem isDigit_of_mem_padded {width n : Nat} {c : Char} (h : c ∈ padded width n) :
    c.isDigit = true := by
  rcases List.mem_append.1 h with h | h
  · rw [(List.mem_replicate.1 h).2]
    rfl
  · exact isDigit_of_mem_digits h

theorem length_padded {width n : Nat} (hwidth : 0 < width) (h : n < 10 ^ width) :
    (padded width n).length = width := by
  have hle := (length_digits_le_iff hwidth).2 h
  unfold padded
  rw [List.length_append, List.length_replicate]
  omega

theorem width_le_length_padded (width n : Nat) : width ≤ (padded width n).length := by
  unfold padded
  rw [List.length_append, List.length_replicate]
  omega

theorem digitValue_lt {c : Char} (h : c.isDigit = true) : digitValue c < 10 := by
  simp only [Char.isDigit, Bool.and_eq_true, decide_eq_true_eq, ge_iff_le, UInt32.le_iff_toNat_le]
    at h
  have hc : c.toNat ≤ 57 := h.2
  unfold digitValue
  omega

theorem value_lt {ds : List Char} (h : ∀ c ∈ ds, c.isDigit = true) : value ds < 10 ^ ds.length := by
  induction ds with
  | nil => decide
  | cons c rest ih =>
      have hc := digitValue_lt (h c (by simp))
      have hrest := ih fun d hd => h d (by simp [hd])
      have hcons := value_append [c] rest
      have hone : value [c] = digitValue c := by simp [value]
      rw [List.singleton_append, hone] at hcons
      rw [hcons, List.length_cons, Nat.pow_succ]
      have hmul : 10 ^ rest.length * digitValue c ≤ 10 ^ rest.length * 9 :=
        Nat.mul_le_mul_left _ (by omega)
      omega

/-- A sign is no digit. -/
theorem ne_of_isDigit {c d : Char} (hc : c.isDigit = true) (hd : d.isDigit = false) : c ≠ d := by
  rintro rfl
  rw [hc] at hd
  cases hd

/-- A number that starts with some digits is at least the number of these digits. -/
theorem le_ofDigitChars (ds : List Char) (n : Nat) : n ≤ Nat.ofDigitChars 10 ds n := by
  rw [Nat.ofDigitChars_eq_ofDigitChars_zero]
  have hpos : 0 < 10 ^ ds.length := Nat.pow_pos (by omega)
  have := Nat.le_mul_of_pos_left n hpos
  omega

end Numeral

namespace Whole

open Numeral

theorem readDigits_eq {bound n : Nat} {beyond : Flaw} {ds : List Char}
    (hds : ∀ c ∈ ds, c.isDigit = true) (h : Nat.ofDigitChars 10 ds n ≤ bound) :
    readDigits bound beyond n ds = .ok (Nat.ofDigitChars 10 ds n) := by
  induction ds generalizing n with
  | nil => rfl
  | cons c rest ih =>
      have hnext := le_ofDigitChars rest (10 * n + digitValue c)
      have hle : 10 * n + digitValue c ≤ bound := Nat.le_trans hnext h
      rw [readDigits, if_pos (hds c (by simp))]
      simp only
      rw [if_pos hle]
      exact ih (fun d hd => hds d (by simp [hd])) h

theorem readDigits_digits {bound n : Nat} (beyond : Flaw) (h : n ≤ bound) :
    readDigits bound beyond 0 (digits n) = .ok n := by
  have hvalue : Nat.ofDigitChars 10 (digits n) 0 = n := value_digits n
  rw [readDigits_eq (fun c hc => isDigit_of_mem_digits hc) (by rw [hvalue]; exact h), hvalue]

theorem le_of_readDigits {bound : Nat} {beyond : Flaw} {n m : Nat} {text : List Char}
    (hn : n ≤ bound) (h : readDigits bound beyond n text = .ok m) : m ≤ bound := by
  induction text generalizing n with
  | nil =>
      cases h
      exact hn
  | cons c rest ih =>
      rw [readDigits] at h
      split at h
      · simp only at h
        split at h
        · rename_i hle
          exact ih hle h
        · cases h
      · cases h

/-- The digits of a number without a sign. -/
theorem readSigned_digits {greatest below n : Nat} (h : n ≤ greatest) :
    readSigned greatest below (digits n) = .ok n := by
  have hread := readDigits_digits .tooLarge h
  cases hds : digits n with
  | nil => exact absurd hds (digits_ne_nil n)
  | cons c rest =>
      have hc : c.isDigit = true := isDigit_of_mem_digits (by rw [hds]; simp)
      have hplus : c ≠ '+' := ne_of_isDigit hc rfl
      have hminus : c ≠ '-' := ne_of_isDigit hc rfl
      rw [hds] at hread
      unfold readSigned
      split
      · contradiction
      · simp_all
      · simp_all
      · simp_all
      · simp_all
      · rw [hread]
        rfl

theorem readSigned_minus_digits {greatest below n : Nat} (h : n ≤ below) :
    readSigned greatest below ('-' :: digits n) = .ok (-(n : Int)) := by
  have hread := readDigits_digits .tooSmall h
  cases hds : digits n with
  | nil => exact absurd hds (digits_ne_nil n)
  | cons c rest =>
      rw [hds] at hread
      simp only [readSigned, hread]
      rfl

/-- A whole number reads back. -/
theorem read_toText {w : Width} (n : Whole w) : read w n.toText = .ok n := by
  have hsigned : readSigned w.greatest.toNat (-w.least).toNat n.toText.toList = .ok n.value := by
    have hrange := n.inRange
    unfold toText ofInt
    rw [String.toList_ofList]
    by_cases hneg : n.value < 0
    · rw [if_pos hneg]
      have hbelow : n.value.natAbs ≤ (-w.least).toNat := by omega
      have hvalue : -(n.value.natAbs : Int) = n.value := by omega
      exact (readSigned_minus_digits hbelow).trans (by rw [hvalue])
    · rw [if_neg hneg]
      have hgreatest : n.value.natAbs ≤ w.greatest.toNat := by omega
      have hvalue : (n.value.natAbs : Int) = n.value := by omega
      exact (readSigned_digits hgreatest).trans (by rw [hvalue])
  unfold read
  rw [hsigned]
  simp only [ok_bind, ofInt?_value]

end Whole

/-- A natural number up to the bound reads back. -/
theorem Numeral.readNat?_ofNat {bound n : Nat} (h : n ≤ bound) :
    readNat? bound (ofNat n) = some n := by
  have hread := Whole.readDigits_digits .tooLarge h
  unfold readNat? ofNat
  rw [String.toList_ofList]
  cases hds : digits n with
  | nil => exact absurd hds (digits_ne_nil n)
  | cons c rest =>
      have hc : c.isDigit = true := isDigit_of_mem_digits (by rw [hds]; simp)
      have hplus : c ≠ '+' := ne_of_isDigit hc rfl
      rw [hds] at hread
      split
      · contradiction
      · simp_all
      · simp_all
      · rw [hread]
        rfl

theorem Numeral.le_of_readNat? {bound n : Nat} {text : String} (h : readNat? bound text = some n) :
    n ≤ bound := by
  have hread : ∀ {rest : List Char},
      (Whole.readDigits bound .tooLarge 0 rest).toOption = some n → n ≤ bound := fun hrest =>
    Whole.le_of_readDigits (Nat.zero_le bound) (toOption_eq_some_iff.1 hrest)
  unfold readNat? at h
  split at h
  · cases h
  · cases h
  · exact hread h
  · exact hread h

end ResourceQuery
