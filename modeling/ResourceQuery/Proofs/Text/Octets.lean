import Mathlib.Tactic.IntervalCases
import ResourceQuery.Text.Octets
/-!
# Texts in octets

Octets that a text is written as are read back as the text (`ofOctets_toOctets`). The first octet
of a character tells how many follow, and bounds the second one: neither an overlong form nor half
of a surrogate pair nor a number beyond the last character is a character. A character itself keeps
within these bounds, as it is none of the numbers that they leave out.
-/

namespace ResourceQuery.Text

/-! ## Single octets -/

theorem toNat_ofNat {n : Nat} (h : n < 256) : (UInt8.ofNat n).toNat = n :=
  UInt8.toNat_ofNat_of_lt' h

theorem le_ofNat_iff {m n : Nat} (hm : m < 256) (hn : n < 256) :
    UInt8.ofNat m ≤ UInt8.ofNat n ↔ m ≤ n := by
  rw [UInt8.le_iff_toNat_le, toNat_ofNat hm, toNat_ofNat hn]

theorem lt_ofNat_iff {m n : Nat} (hm : m < 256) (hn : n < 256) :
    UInt8.ofNat m < UInt8.ofNat n ↔ m < n := by
  rw [UInt8.lt_iff_toNat_lt, toNat_ofNat hm, toNat_ofNat hn]

theorem lead_two {n : Nat} (hleast : 2 ≤ n) (hn : n < 32) :
    lead (UInt8.ofNat (n + 192)) = some (0x80, 0xBF, 2) := by
  interval_cases n <;> rfl

theorem lead_three {n : Nat} (hn : n < 16) :
    lead (UInt8.ofNat (n + 224)) =
      some (UInt8.ofNat (if n = 0 then 160 else 128),
        UInt8.ofNat (if n = 13 then 159 else 191), 3) := by
  interval_cases n <;> rfl

theorem lead_four {n : Nat} (hn : n < 5) :
    lead (UInt8.ofNat (n + 240)) =
      some (UInt8.ofNat (if n = 0 then 144 else 128),
        UInt8.ofNat (if n = 4 then 143 else 191), 4) := by
  interval_cases n <;> rfl

theorem isContinuation_ofNat (n : Nat) : isContinuation (UInt8.ofNat (n % 64 + 128)) = true := by
  have hleast : UInt8.ofNat 128 ≤ UInt8.ofNat (n % 64 + 128) :=
    (le_ofNat_iff (by omega) (by omega)).2 (by omega)
  have hgreatest : UInt8.ofNat (n % 64 + 128) ≤ UInt8.ofNat 191 :=
    (le_ofNat_iff (by omega) (by omega)).2 (by omega)
  rw [isContinuation, Bool.and_eq_true, decide_eq_true_eq, decide_eq_true_eq]
  exact ⟨hleast, hgreatest⟩

/-- The bits of a character in an octet are those below the mark of the octet. -/
theorem low_ofNat {n mark mask : Nat} (hn : n < mask) (hmark : mark % mask = 0)
    (hsum : n + mark < 256) : low (UInt8.ofNat (n + mark)) mask = n := by
  rw [low, toNat_ofNat hsum, Nat.add_mod, hmark, Nat.add_zero, Nat.mod_mod, Nat.mod_eq_of_lt hn]

/-! ## Characters by the number of their octets -/

variable {n : Nat} (rest : List UInt8)

theorem ofOctets_one (h : n < 128) :
    ofOctets (UInt8.ofNat n :: rest) = Char.ofNat n :: ofOctets rest := by
  have hone : UInt8.ofNat n < 0x80 := (lt_ofNat_iff (n := 128) (by omega) (by omega)).2 h
  rw [ofOctets, if_pos hone, toNat_ofNat (by omega)]

theorem not_one (hleast : 128 ≤ n) (h : n < 256) : ¬UInt8.ofNat n < 0x80 := by
  intro hone
  have := (lt_ofNat_iff (n := 128) h (by omega)).1 hone
  omega

theorem ofOctets_two (hleast : 128 ≤ n) (h : n < 2048) :
    ofOctets (UInt8.ofNat (n / 64 + 192) :: UInt8.ofNat (n % 64 + 128) :: rest) =
      Char.ofNat n :: ofOctets rest := by
  have hfirst : low (UInt8.ofNat (n / 64 + 192)) 0x20 = n / 64 :=
    low_ofNat (by omega) rfl (by omega)
  have hsecond : low (UInt8.ofNat (n % 64 + 128)) 0x40 = n % 64 :=
    low_ofNat (by omega) rfl (by omega)
  have hnumber : n / 64 * 0x40 + n % 64 = n := by omega
  have hrange := isContinuation_ofNat n
  rw [isContinuation, Bool.and_eq_true, decide_eq_true_eq, decide_eq_true_eq] at hrange
  rw [ofOctets, if_neg (not_one (by omega) (by omega)), lead_two (by omega) (by omega)]
  simp only [if_pos hrange, if_true, hfirst, hsecond, hnumber]

/-- Behind the first of three octets, the second one is in its range: the number is neither one that
two octets are enough for nor half of a surrogate pair. -/
theorem ofOctets_three (hleast : 2048 ≤ n) (h : n < 65536) (hvalid : n < 0xD800 ∨ 0xDFFF < n) :
    ofOctets (UInt8.ofNat (n / 4096 + 224) :: UInt8.ofNat (n / 64 % 64 + 128) ::
        UInt8.ofNat (n % 64 + 128) :: rest) =
      Char.ofNat n :: ofOctets rest := by
  have hfirst : low (UInt8.ofNat (n / 4096 + 224)) 0x10 = n / 4096 :=
    low_ofNat (by omega) rfl (by omega)
  have hsecond : low (UInt8.ofNat (n / 64 % 64 + 128)) 0x40 = n / 64 % 64 :=
    low_ofNat (by omega) rfl (by omega)
  have hthird : low (UInt8.ofNat (n % 64 + 128)) 0x40 = n % 64 :=
    low_ofNat (by omega) rfl (by omega)
  have hnumber : n / 4096 * 0x1000 + n / 64 % 64 * 0x40 + n % 64 = n := by omega
  have hlow : UInt8.ofNat (if n / 4096 = 0 then 160 else 128) ≤
      UInt8.ofNat (n / 64 % 64 + 128) := by
    apply (le_ofNat_iff (by split <;> omega) (by omega)).2
    split <;> omega
  have hhigh : UInt8.ofNat (n / 64 % 64 + 128) ≤
      UInt8.ofNat (if n / 4096 = 13 then 159 else 191) := by
    apply (le_ofNat_iff (by omega) (by split <;> omega)).2
    split <;> omega
  rw [ofOctets, if_neg (not_one (by omega) (by omega)), lead_three (by omega)]
  simp only [if_pos (And.intro hlow hhigh), isContinuation_ofNat, Nat.reduceEqDiff, if_true,
    if_false, hfirst, hsecond, hthird, hnumber]

/-- Behind the first of four octets, the second one is in its range: the number is neither one that
three octets are enough for nor beyond the last character. -/
theorem ofOctets_four (hleast : 65536 ≤ n) (h : n < 0x110000) :
    ofOctets (UInt8.ofNat (n / 262144 + 240) :: UInt8.ofNat (n / 4096 % 64 + 128) ::
        UInt8.ofNat (n / 64 % 64 + 128) :: UInt8.ofNat (n % 64 + 128) :: rest) =
      Char.ofNat n :: ofOctets rest := by
  have hfirst : low (UInt8.ofNat (n / 262144 + 240)) 0x08 = n / 262144 :=
    low_ofNat (by omega) rfl (by omega)
  have hsecond : low (UInt8.ofNat (n / 4096 % 64 + 128)) 0x40 = n / 4096 % 64 :=
    low_ofNat (by omega) rfl (by omega)
  have hthird : low (UInt8.ofNat (n / 64 % 64 + 128)) 0x40 = n / 64 % 64 :=
    low_ofNat (by omega) rfl (by omega)
  have hfourth : low (UInt8.ofNat (n % 64 + 128)) 0x40 = n % 64 :=
    low_ofNat (by omega) rfl (by omega)
  have hnumber :
      n / 262144 * 0x40000 + n / 4096 % 64 * 0x1000 + n / 64 % 64 * 0x40 + n % 64 = n := by
    omega
  have hlow : UInt8.ofNat (if n / 262144 = 0 then 144 else 128) ≤
      UInt8.ofNat (n / 4096 % 64 + 128) := by
    apply (le_ofNat_iff (by split <;> omega) (by omega)).2
    split <;> omega
  have hhigh : UInt8.ofNat (n / 4096 % 64 + 128) ≤
      UInt8.ofNat (if n / 262144 = 4 then 143 else 191) := by
    apply (le_ofNat_iff (by omega) (by split <;> omega)).2
    split <;> omega
  rw [ofOctets, if_neg (not_one (by omega) (by omega)), lead_four (by omega)]
  simp only [if_pos (And.intro hlow hhigh), isContinuation_ofNat, Nat.reduceEqDiff, if_true,
    if_false, hfirst, hsecond, hthird, hfourth, hnumber]

/-! ## Texts -/

/-- A character is read of its octets, whatever comes behind them. -/
theorem ofOctets_utf8EncodeChar (c : Char) :
    ofOctets (String.utf8EncodeChar c ++ rest) = c :: ofOctets rest := by
  have hvalid : c.toNat < 0xD800 ∨ 0xDFFF < c.toNat ∧ c.toNat < 0x110000 := c.valid
  have hval : c.val.toNat = c.toNat := rfl
  have hsame : Char.ofNat c.toNat = c := Char.ofNat_toNat c
  unfold String.utf8EncodeChar
  simp only [hval]
  generalize c.toNat = n at *
  subst hsame
  split
  · exact ofOctets_one rest (by omega)
  · split
    · rw [show n / 64 % 32 = n / 64 by omega]
      exact ofOctets_two rest (by omega) (by omega)
    · split
      · rw [show n / 4096 % 16 = n / 4096 by omega]
        exact ofOctets_three rest (by omega) (by omega) (by omega)
      · rw [show n / 262144 % 8 = n / 262144 by omega]
        exact ofOctets_four rest (by omega) (by omega)

/-- A text is read of its octets. -/
theorem ofOctets_toOctets (text : List Char) : ofOctets (toOctets text) = text := by
  unfold toOctets
  induction text with
  | nil => rfl
  | cons c text ih => rw [List.flatMap_cons, ofOctets_utf8EncodeChar, ih]

theorem toOctets_injective : Function.Injective toOctets := by
  intro text other h
  rw [← ofOctets_toOctets text, h, ofOctets_toOctets]

end ResourceQuery.Text
