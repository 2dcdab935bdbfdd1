import Mathlib.Tactic.SplitIfs
import ResourceQuery.Numeral.Power
import ResourceQuery.Proofs.Text.Octets
/-!
# The order of texts

Names are kept in the order of their characters, and that is the order of their octets
(`toOctets_lt_iff`): a text that comes first comes first in UTF-8. The octets of a character are the
digits of its number to the base 64, and the mark of the first one grows with their count.
-/

namespace ResourceQuery.Text

theorem cons_ofNat_lt_iff {m n : Nat} (hm : m < 256) (hn : n < 256) {rest more : List UInt8} :
    UInt8.ofNat m :: rest < UInt8.ofNat n :: more ↔ m < n ∨ m = n ∧ rest < more := by
  have heq : UInt8.ofNat m = UInt8.ofNat n ↔ m = n := by
    rw [← UInt8.toNat_inj, toNat_ofNat hm, toNat_ofNat hn]
  rw [List.cons_lt_cons_iff, lt_ofNat_iff hm hn, heq]

/-! ## Digits -/

/-- The digits of a number to the base 64, the first of them with a mark of its own. -/
def digitOctets (mark : Nat) : Nat → Nat → List UInt8
  | 0, n => [UInt8.ofNat (n + mark)]
  | count + 1, n => digitOctets mark count (n / 64) ++ [UInt8.ofNat (n % 64 + 128)]

/-- How many octets follow the first one of a character. -/
def followers (n : Nat) : Nat :=
  if n < 128 then 0 else if n < 2048 then 1 else if n < 65536 then 2 else 3

/-- The mark of the first octet, by the number of those that follow. -/
def leadMark : Nat → Nat
  | 0 => 0
  | 1 => 192
  | 2 => 224
  | _ => 240

theorem digitOctets_eq_cons (mark count n : Nat) :
    ∃ rest, digitOctets mark count n = UInt8.ofNat (n / 64 ^ count + mark) :: rest := by
  induction count generalizing n with
  | zero => exact ⟨[], by rw [digitOctets, Nat.pow_zero, Nat.div_one]⟩
  | succ count ih =>
      obtain ⟨rest, hrest⟩ := ih (n / 64)
      refine ⟨rest ++ [UInt8.ofNat (n % 64 + 128)], ?_⟩
      rw [digitOctets, hrest, Nat.div_div_eq_div_mul, ← Nat.pow_succ', List.cons_append]

/-- Equally many digits are in the order of the numbers: either those in front of the last one
differ, or the last one does. -/
theorem digitOctets_append_lt {mark count m n : Nat} (h : m < n)
    (hlead : n / 64 ^ count + mark < 256) (rest more : List UInt8) :
    digitOctets mark count m ++ rest < digitOctets mark count n ++ more := by
  induction count generalizing m n rest more with
  | zero =>
      rw [Nat.pow_zero, Nat.div_one] at hlead
      exact (cons_ofNat_lt_iff (by omega) hlead).2 (.inl (by omega))
  | succ count ih =>
      rw [digitOctets, digitOctets, List.append_assoc, List.append_assoc]
      have hle : m / 64 ≤ n / 64 := Nat.div_le_div_right (Nat.le_of_lt h)
      rcases Nat.lt_or_eq_of_le hle with hfront | hfront
      · exact ih hfront (by rwa [Nat.div_div_eq_div_mul, ← Nat.pow_succ']) _ _
      · rw [hfront]
        exact List.append_left_lt ((cons_ofNat_lt_iff (by omega) (by omega)).2 (.inl (by omega)))

/-! ## Characters -/

theorem utf8EncodeChar_eq (c : Char) : String.utf8EncodeChar c =
    digitOctets (leadMark (followers c.toNat)) (followers c.toNat) c.toNat := by
  have hval : c.val.toNat = c.toNat := rfl
  have hvalid : c.toNat < 0xD800 ∨ 0xDFFF < c.toNat ∧ c.toNat < 0x110000 := c.valid
  unfold String.utf8EncodeChar followers
  simp only [hval]
  generalize c.toNat = n at *
  by_cases hone : n < 128
  · rw [if_pos (show n ≤ 127 by omega), if_pos hone]
    rfl
  rw [if_neg (show ¬n ≤ 127 by omega), if_neg hone]
  by_cases htwo : n < 2048
  · rw [if_pos (show n ≤ 2047 by omega), if_pos htwo, show n / 64 % 32 = n / 64 by omega]
    rfl
  rw [if_neg (show ¬n ≤ 2047 by omega), if_neg htwo]
  by_cases hthree : n < 65536
  · rw [if_pos (show n ≤ 65535 by omega), if_pos hthree,
      show n / 4096 % 16 = n / 64 / 64 by omega]
    rfl
  · rw [if_neg (show ¬n ≤ 65535 by omega), if_neg hthree,
      show n / 262144 % 8 = n / 64 / 64 / 64 by omega, show n / 4096 = n / 64 / 64 by omega]
    rfl

theorem followers_mono {m n : Nat} (h : m ≤ n) : followers m ≤ followers n := by
  unfold followers
  split_ifs <;> omega

theorem lead_lt_256 {n : Nat} (hn : n < 0x110000) :
    n / 64 ^ followers n + leadMark (followers n) < 256 := by
  unfold followers
  split_ifs <;> simp only [leadMark] <;> omega

/-- The first octet tells how many follow. -/
theorem lead_lt {m n : Nat} (h : followers m < followers n) :
    m / 64 ^ followers m + leadMark (followers m) <
      n / 64 ^ followers n + leadMark (followers n) := by
  unfold followers at *
  split_ifs at * <;> simp only [leadMark] <;> omega

/-- A character that comes first comes first in octets, whatever stands behind them. -/
theorem utf8EncodeChar_append_lt {c d : Char} (h : c < d) (rest more : List UInt8) :
    String.utf8EncodeChar c ++ rest < String.utf8EncodeChar d ++ more := by
  have hless : c.toNat < d.toNat := h
  have hvalid : d.toNat < 0xD800 ∨ 0xDFFF < d.toNat ∧ d.toNat < 0x110000 := d.valid
  have hbound := lead_lt_256 (n := d.toNat) (by omega)
  rw [utf8EncodeChar_eq, utf8EncodeChar_eq]
  -- fewer octets begin with a lesser one; equally many have the same mark, and the digits decide
  rcases Nat.lt_or_eq_of_le (followers_mono (Nat.le_of_lt hless)) with hcount | hcount
  · have hlead := lead_lt hcount
    obtain ⟨front, hfront⟩ := digitOctets_eq_cons (leadMark (followers c.toNat))
      (followers c.toNat) c.toNat
    obtain ⟨other, hother⟩ := digitOctets_eq_cons (leadMark (followers d.toNat))
      (followers d.toNat) d.toNat
    rw [hfront, hother]
    exact (cons_ofNat_lt_iff (by omega) hbound).2 (.inl hlead)
  · rw [hcount]
    exact digitOctets_append_lt hless hbound rest more

/-! ## Texts -/

theorem toOctets_lt {text other : List Char} (h : text < other) :
    toOctets text < toOctets other := by
  induction text generalizing other with
  | nil =>
      cases hoctets : toOctets other with
      | nil =>
          have hother : other = [] := toOctets_injective hoctets
          rw [hother] at h
          exact absurd h (List.lt_irrefl _)
      | cons b octets => exact List.nil_lt_cons b octets
  | cons c text ih =>
      cases other with
      | nil => exact absurd h (List.not_lt_nil _)
      | cons d other =>
          rcases List.cons_lt_cons_iff.1 h with hless | ⟨rfl, hless⟩
          · exact utf8EncodeChar_append_lt hless _ _
          · exact List.append_left_lt (ih hless)

/-- Texts are in the order of their octets. -/
theorem toOctets_lt_iff {text other : List Char} :
    toOctets text < toOctets other ↔ text < other := by
  constructor
  · -- of two texts that differ one comes first, and the octets of that one come first
    intro h
    by_contra hge
    rcases List.le_iff_lt_or_eq.1 (List.not_lt.1 hge) with hless | rfl
    · exact List.lt_asymm h (toOctets_lt hless)
    · exact List.lt_irrefl _ h
  · exact toOctets_lt

end ResourceQuery.Text
