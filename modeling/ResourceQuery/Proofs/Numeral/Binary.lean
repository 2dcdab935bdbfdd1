import Mathlib.Algebra.Order.Field.Power
import Mathlib.Data.Rat.Cast.Order
import Mathlib.Tactic.FieldSimp
import Mathlib.Tactic.Linarith
import Mathlib.Tactic.Positivity
import Mathlib.Tactic.Ring
import ResourceQuery.Numeral.Shortest
/-!
# Rounding to binary numbers

Magnitudes are compared as rationals. A binary number with significand m and exponent e is what every
rational of its interval rounds to (`ofRatio_eq`): from half way to the neighbour below to half way
to the neighbour above. The ends belong to the interval when m is even. Every value that rounding
gives has the one form in which all bits of the precision are in use, as far as the exponent allows.
-/

namespace ResourceQuery

namespace Binary

variable {f : Format}

/-- What is used of a format: numbers of at most 400 decimal places on both sides of the point. -/
structure Format.Proper (f : Format) : Prop where
  precision : 0 < f.precision
  least : -1100 ≤ f.minExponent
  order : f.minExponent ≤ f.maxExponent
  greatest : f.maxExponent + f.precision ≤ 1100

theorem Format.single_proper : Format.single.Proper := ⟨by decide, by decide, by decide, by decide⟩

theorem Format.double_proper : Format.double.Proper := ⟨by decide, by decide, by decide, by decide⟩

/-- All bits of the precision are in use, or the exponent is the least one. -/
structure Normal (f : Format) (m : Nat) (e : Int) : Prop where
  bits : m < 2 ^ f.precision
  least : f.minExponent ≤ e
  greatest : e ≤ f.maxExponent
  full : 2 ^ (f.precision - 1) ≤ m ∨ e = f.minExponent

/-- A finite value is in the form that rounding gives. -/
def Sound : Binary f → Prop
  | finite _ m e => Normal f m e
  | _ => True

/-! ## Quotients to the nearest integer -/

theorem roundQuotient_eq {num den m : Nat} (hden : 0 < den)
    (hlow : 2 * m * den < 2 * num + den ∨ (m % 2 = 0 ∧ 2 * m * den = 2 * num + den))
    (hhigh : 2 * num < 2 * m * den + den ∨ (m % 2 = 0 ∧ 2 * num = 2 * m * den + den)) :
    roundQuotient num den = m := by
  have hnum := Nat.div_add_mod num den
  have hmod := Nat.mod_lt num hden
  unfold roundQuotient
  simp only
  generalize num / den = q at hnum
  generalize num % den = r at hnum hmod
  have hq : q ≤ m := by
    by_contra hlt
    have hmul : (m + 1) * den ≤ q * den := Nat.mul_le_mul_right den (by omega)
    rw [Nat.add_mul, Nat.one_mul] at hmul
    have hcomm := Nat.mul_comm den q
    have hassoc := Nat.mul_assoc 2 m den
    omega
  have hm : m ≤ q + 1 := by
    by_contra hlt
    have hmul : (q + 2) * den ≤ m * den := Nat.mul_le_mul_right den (by omega)
    rw [Nat.add_mul] at hmul
    have hcomm := Nat.mul_comm den q
    have hassoc := Nat.mul_assoc 2 m den
    omega
  have hcomm := Nat.mul_comm den q
  rcases Nat.lt_or_eq_of_le hq with hlt | rfl
  · obtain rfl : m = q + 1 := by omega
    have hmul : 2 * (q + 1) * den = 2 * (q * den) + 2 * den := by
      rw [Nat.mul_assoc, Nat.add_mul, Nat.one_mul, Nat.mul_add]
    rw [hmul] at hlow
    rcases Nat.lt_trichotomy (2 * r) den with hr | hr | hr
    · omega
    · rw [Nat.compare_eq_eq.2 hr]
      simp only
      rw [if_neg (by omega)]
    · rw [Nat.compare_eq_gt.2 hr]
  · have hmul : 2 * q * den = 2 * (q * den) := Nat.mul_assoc 2 q den
    rw [hmul] at hhigh
    rcases Nat.lt_trichotomy (2 * r) den with hr | hr | hr
    · rw [Nat.compare_eq_lt.2 hr]
    · rw [Nat.compare_eq_eq.2 hr]
      simp only
      rw [if_pos (by omega)]
    · omega

theorem roundQuotient_bounds (num den : Nat) :
    num / den ≤ roundQuotient num den ∧ roundQuotient num den ≤ num / den + 1 := by
  unfold roundQuotient
  simp only
  split
  · omega
  · omega
  · split <;> omega

/-! ## The exponent of the last bit -/

theorem scaled_pos {num den : Nat} (e : Int) (hden : 0 < den) : 0 < (scaled num den e).2 :=
  Nat.mul_pos hden (Nat.pow_pos (by omega))

theorem zpow_eq_div (b : Nat) (hb : 0 < b) (e : Int) :
    (b : ℚ) ^ e = (b : ℚ) ^ e.toNat / (b : ℚ) ^ (-e).toNat := by
  have hne : (b : ℚ) ≠ 0 := by positivity
  rw [← zpow_natCast, ← zpow_natCast, ← zpow_sub₀ hne]
  congr 1
  omega

theorem scaled_div (num den : Nat) (e : Int) :
    ((scaled num den e).1 : ℚ) / (scaled num den e).2 = num / den / (2 : ℚ) ^ e := by
  have hpow := zpow_eq_div 2 (by omega) e
  push_cast at hpow
  have hpos : ∀ n : Nat, (2 : ℚ) ^ n ≠ 0 := fun n => by positivity
  have h1 := hpos e.toNat
  have h2 := hpos (-e).toNat
  rw [hpow, scaled]
  push_cast
  by_cases hden : (den : ℚ) = 0
  · simp [hden]
  · field_simp

theorem div_lt_iff_ratio {num den bound : Nat} (hden : 0 < den) :
    num / den < bound ↔ (num : ℚ) / den < bound := by
  have hden' : (0 : ℚ) < den := by exact_mod_cast hden
  rw [Nat.div_lt_iff_lt_mul hden, div_lt_iff₀ hden']
  exact_mod_cast Iff.rfl

theorem log2_bounds {n : Nat} (h : 0 < n) :
    (2 : ℚ) ^ (n.log2 : Int) ≤ n ∧ (n : ℚ) < 2 ^ ((n.log2 : Int) + 1) := by
  have hlow := Nat.log2_self_le (Nat.pos_iff_ne_zero.1 h)
  have hhigh := Nat.lt_log2_self (n := n)
  constructor
  · rw [zpow_natCast]
    exact_mod_cast hlow
  · have hcast : ((n.log2 : Int) + 1) = ((n.log2 + 1 : Nat) : Int) := by push_cast; ring
    rw [hcast, zpow_natCast]
    exact_mod_cast hhigh

/-- With the exponent of its last bit, a quotient uses all bits of the precision. -/
theorem lastBit_bounds {num den : Nat} (hnum : 0 < num) (hden : 0 < den) :
    (2 : ℚ) ^ (lastBit f num den + f.precision - 1) ≤ num / den ∧
      (num : ℚ) / den < 2 ^ (lastBit f num den + f.precision) := by
  have hn := log2_bounds hnum
  have hd := log2_bounds hden
  have hnum' : (0 : ℚ) < num := by exact_mod_cast hnum
  have hden' : (0 : ℚ) < den := by exact_mod_cast hden
  have htwo : (2 : ℚ) ≠ 0 := by norm_num
  unfold lastBit
  simp only
  generalize hguess : (num.log2 : Int) - den.log2 - f.precision = guess
  have hlow : (2 : ℚ) ^ (guess + f.precision - 1) ≤ num / den := by
    rw [le_div_iff₀ hden']
    calc (2 : ℚ) ^ (guess + f.precision - 1) * den
        ≤ 2 ^ (guess + f.precision - 1) * 2 ^ ((den.log2 : Int) + 1) :=
          mul_le_mul_of_nonneg_left hd.2.le (by positivity)
      _ = 2 ^ (num.log2 : Int) := by
          rw [← zpow_add₀ htwo]
          congr 1
          omega
      _ ≤ num := hn.1
  have hhigh : (num : ℚ) / den < 2 ^ (guess + f.precision + 1) := by
    rw [div_lt_iff₀ hden']
    calc (num : ℚ) < 2 ^ ((num.log2 : Int) + 1) := hn.2
      _ = 2 ^ (guess + f.precision + 1) * 2 ^ (den.log2 : Int) := by
          rw [← zpow_add₀ htwo]
          congr 1
          omega
      _ ≤ 2 ^ (guess + f.precision + 1) * den :=
          mul_le_mul_of_nonneg_left hd.1 (by positivity)
  have hsplit : (scaled num den guess).1 / (scaled num den guess).2 < 2 ^ f.precision ↔
      (num : ℚ) / den < 2 ^ (guess + f.precision) := by
    rw [div_lt_iff_ratio (scaled_pos guess hden), scaled_div, div_lt_iff₀ (by positivity),
      zpow_add₀ htwo, zpow_natCast, mul_comm]
    push_cast
    exact Iff.rfl
  split
  · rename_i hless
    exact ⟨hlow, hsplit.1 hless⟩
  · rename_i hmore
    have hge := not_lt.1 fun h => hmore (hsplit.2 h)
    constructor
    · rw [show guess + 1 + f.precision - 1 = guess + f.precision by ring]
      exact hge
    · rw [show guess + 1 + f.precision = guess + f.precision + 1 by ring]
      exact hhigh

theorem lastBit_le {num den : Nat} (hnum : 0 < num) (hden : 0 < den) {e : Int}
    (h : (num : ℚ) / den < 2 ^ (e + f.precision)) : lastBit f num den ≤ e := by
  have hlow := (lastBit_bounds (f := f) hnum hden).1
  have hlt := (zpow_lt_zpow_iff_right₀ (by norm_num : (1 : ℚ) < 2)).1 (lt_of_le_of_lt hlow h)
  omega

theorem le_lastBit {num den : Nat} (hnum : 0 < num) (hden : 0 < den) {e : Int}
    (h : (2 : ℚ) ^ (e + f.precision - 1) ≤ num / den) : e ≤ lastBit f num den := by
  have hhigh := (lastBit_bounds (f := f) hnum hden).2
  have hlt := (zpow_lt_zpow_iff_right₀ (by norm_num : (1 : ℚ) < 2)).1 (lt_of_le_of_lt h hhigh)
  omega

/-! ## Rounding -/

/-- The rational lies in the interval of a binary number. Below a power of two the neighbour is only
half as far away. -/
def RoundsTo (f : Format) (m : Nat) (e : Int) (x : ℚ) : Prop :=
  let quarter : ℚ := 2 ^ (e - 2)
  let low : ℚ := 4 * m - (if m = 2 ^ (f.precision - 1) ∧ f.minExponent < e then 1 else 2)
  let high : ℚ := 4 * m + 2
  (low * quarter < x ∨ (m % 2 = 0 ∧ low * quarter = x)) ∧
    (x < high * quarter ∨ (m % 2 = 0 ∧ x = high * quarter))

theorem zpow_eq_quarters (e : Int) : (2 : ℚ) ^ e = 4 * 2 ^ (e - 2) := by
  have h := zpow_add₀ (by norm_num : (2 : ℚ) ≠ 0) 2 (e - 2)
  rw [show (2 : Int) + (e - 2) = e by ring] at h
  rw [h]
  norm_num

/-- A magnitude that is scaled to an exponent rounds to the significand around it. -/
theorem roundQuotient_scaled {num den m : Nat} {e : Int} (hden : 0 < den)
    (hlow : (4 * (m : ℚ) - 2) * 2 ^ (e - 2) < num / den ∨
      (m % 2 = 0 ∧ (4 * (m : ℚ) - 2) * 2 ^ (e - 2) = num / den))
    (hhigh : (num : ℚ) / den < (4 * m + 2) * 2 ^ (e - 2) ∨
      (m % 2 = 0 ∧ (num : ℚ) / den = (4 * m + 2) * 2 ^ (e - 2))) :
    roundQuotient (scaled num den e).1 (scaled num den e).2 = m := by
  have hpos : 0 < (scaled num den e).2 := scaled_pos e hden
  have hpos' : (0 : ℚ) < (scaled num den e).2 := by exact_mod_cast hpos
  have hquarter : (0 : ℚ) < 2 ^ (e - 2) := by positivity
  have hvalue : (num : ℚ) / den =
      (scaled num den e).1 / (scaled num den e).2 * (4 * 2 ^ (e - 2)) := by
    rw [scaled_div, ← zpow_eq_quarters]
    field_simp
  rw [hvalue] at hlow hhigh
  generalize (scaled num den e).1 = n at *
  generalize (scaled num den e).2 = d at *
  have hratio : (n : ℚ) = n / d * d := by field_simp
  generalize (n : ℚ) / d = x at *
  refine roundQuotient_eq hpos ?_ ?_
  · rcases hlow with hlow | ⟨heven, hlow⟩
    · left
      have hx : (m : ℚ) - 1 / 2 < x := by nlinarith
      have hcast : 2 * (m : ℚ) * d < 2 * n + d := by
        rw [hratio]
        nlinarith
      exact_mod_cast hcast
    · refine .inr ⟨heven, ?_⟩
      have hx : (m : ℚ) - 1 / 2 = x := by
        have hne := ne_of_gt hquarter
        field_simp at hlow
        linarith
      have hcast : 2 * (m : ℚ) * d = 2 * n + d := by
        rw [hratio, ← hx]
        ring
      exact_mod_cast hcast
  · rcases hhigh with hhigh | ⟨heven, hhigh⟩
    · left
      have hx : x < (m : ℚ) + 1 / 2 := by nlinarith
      have hcast : 2 * (n : ℚ) < 2 * m * d + d := by
        rw [hratio]
        nlinarith
      exact_mod_cast hcast
    · refine .inr ⟨heven, ?_⟩
      have hx : x = (m : ℚ) + 1 / 2 := by
        have hne := ne_of_gt hquarter
        field_simp at hhigh
        linarith
      have hcast : 2 * (n : ℚ) = 2 * m * d + d := by
        rw [hratio, hx]
        ring
      exact_mod_cast hcast

theorem RoundsTo.pos {m : Nat} {e : Int} {x : ℚ} (h : RoundsTo f m e x) (hm : 0 < m) : 0 < x := by
  have hquarter : (0 : ℚ) < 2 ^ (e - 2) := by positivity
  have hm' : (1 : ℚ) ≤ m := by exact_mod_cast hm
  obtain ⟨hlow, -⟩ := h
  have hpos : (0 : ℚ) <
      (4 * m - (if m = 2 ^ (f.precision - 1) ∧ f.minExponent < e then 1 else 2)) * 2 ^ (e - 2) := by
    apply mul_pos _ hquarter
    split <;> linarith
  rcases hlow with hlow | ⟨-, hlow⟩
  · exact lt_trans hpos hlow
  · rw [← hlow]
    exact hpos

theorem two_zpow_add (e : Int) (n : Nat) : (2 : ℚ) ^ (e + n) = 2 ^ n * 2 ^ e := by
  rw [zpow_add₀ (by norm_num), zpow_natCast, mul_comm]

/-- The interval of a binary number ends below the next power of two. -/
theorem RoundsTo.lt {m : Nat} {e : Int} {x : ℚ} (h : RoundsTo f m e x)
    (hbits : m < 2 ^ f.precision) : x < 2 ^ (e + f.precision) := by
  have hquarter : (0 : ℚ) < 2 ^ (e - 2) := by positivity
  have hbits' : (m : ℚ) + 1 ≤ 2 ^ f.precision := by exact_mod_cast hbits
  rw [two_zpow_add, zpow_eq_quarters]
  rcases h.2 with hhigh | ⟨-, hhigh⟩
  · nlinarith
  · rw [hhigh]
    nlinarith

/-- Scaled to the exponent of the number, what lies in its interval rounds to its significand. -/
theorem RoundsTo.roundQuotient_eq {num den m : Nat} {e : Int} (h : RoundsTo f m e (num / den))
    (hden : 0 < den) : roundQuotient (scaled num den e).1 (scaled num den e).2 = m := by
  have hquarter : (0 : ℚ) < 2 ^ (e - 2) := by positivity
  refine roundQuotient_scaled hden ?_ h.2
  rcases h.1 with hlow | ⟨heven, hlow⟩
  · left
    refine lt_of_le_of_lt ?_ hlow
    apply mul_le_mul_of_nonneg_right _ hquarter.le
    split <;> linarith
  · by_cases hnarrow : m = 2 ^ (f.precision - 1) ∧ f.minExponent < e
    · left
      rw [if_pos hnarrow] at hlow
      rw [← hlow]
      nlinarith
    · rw [if_neg hnarrow] at hlow
      exact .inr ⟨heven, hlow⟩

/-- Only a power of two reaches below itself, into the range of the exponent before. -/
theorem RoundsTo.eq_two_pow {m : Nat} {e : Int} {x : ℚ} (h : RoundsTo f m e x)
    (hprecision : 0 < f.precision) (hfull : 2 ^ (f.precision - 1) ≤ m)
    (hless : x < 2 ^ (e + f.precision - 1)) : m = 2 ^ (f.precision - 1) := by
  have hquarter : (0 : ℚ) < 2 ^ (e - 2) := by positivity
  rw [show e + f.precision - 1 = e + ((f.precision - 1 : Nat) : Int) by omega, two_zpow_add,
    zpow_eq_quarters] at hless
  by_contra hne
  have hmore : (2 : ℚ) ^ (f.precision - 1) + 1 ≤ m := by
    exact_mod_cast Nat.lt_of_le_of_ne hfull (Ne.symm hne)
  have hlow := h.1
  rw [if_neg (fun hall => hne hall.1)] at hlow
  rcases hlow with hlow | ⟨-, hlow⟩
  · nlinarith
  · nlinarith

/-- Below a power of two, and no further than a quarter of the last bit, a quotient has the exponent
before, and it rounds up to the power of two. -/
theorem round_below_two_pow {num den : Nat} {e : Int} (hprecision : 0 < f.precision)
    (hnum : 0 < num) (hden : 0 < den)
    (hlow : (4 * 2 ^ (f.precision - 1) - 1) * (2 : ℚ) ^ (e - 2) ≤ num / den)
    (hless : (num : ℚ) / den < 2 ^ (e + f.precision - 1)) :
    lastBit f num den = e - 1 ∧
      roundQuotient (scaled num den (e - 1)).1 (scaled num den (e - 1)).2 = 2 ^ f.precision := by
  have hfirst : (2 : ℚ) ^ (e + f.precision - 1) = 2 ^ (f.precision - 1) * 2 ^ e := by
    rw [show e + f.precision - 1 = e + ((f.precision - 1 : Nat) : Int) by omega, two_zpow_add]
  have hone : (1 : ℚ) ≤ 2 ^ (f.precision - 1) := one_le_pow₀ (by norm_num)
  have hquarter : (0 : ℚ) < 2 ^ (e - 1 - 2) := by positivity
  have hhalf : (2 : ℚ) ^ (e - 2) = 2 * 2 ^ (e - 1 - 2) := by
    rw [show e - 2 = e - 1 - 2 + ((1 : Nat) : Int) by push_cast; ring, two_zpow_add, pow_one]
  have hpower := zpow_eq_quarters e
  constructor
  · apply le_antisymm
    · apply lastBit_le hnum hden
      rw [show e - 1 + f.precision = e + f.precision - 1 by ring]
      exact hless
    · apply le_lastBit hnum hden
      rw [show e - 1 + f.precision - 1 = (e + f.precision - 1) - 1 by ring,
        zpow_sub_one₀ (by norm_num), hfirst, hpower]
      nlinarith
  · have heven : 2 ^ f.precision % 2 = 0 := by
      rw [show f.precision = f.precision - 1 + 1 by omega, Nat.pow_succ]
      omega
    have hdouble : ((2 ^ f.precision : Nat) : ℚ) = 2 * 2 ^ (f.precision - 1) := by
      push_cast
      rw [← pow_succ']
      congr 1
      omega
    rw [hhalf] at hlow
    rw [hfirst, hpower, hhalf] at hless
    refine roundQuotient_scaled hden ?_ ?_
    · rw [hdouble]
      rcases lt_or_eq_of_le hlow with hlow | hlow
      · exact .inl (by nlinarith)
      · exact .inr ⟨heven, by rw [← hlow]; ring⟩
    · rw [hdouble]
      exact .inl (by nlinarith)

/-- What lies in the interval of a binary number rounds to it. -/
theorem ofRatio_eq {negative : Bool} {num den m : Nat} {e : Int} (hf : f.Proper)
    (hnormal : Normal f m e) (hm : 0 < m) (hden : 0 < den)
    (h : RoundsTo f m e (num / den)) :
    (ofRatio negative num den : Binary f) = .finite negative m e := by
  have hnum : 0 < num := by
    have hpos := h.pos hm
    rcases Nat.eq_zero_or_pos num with hzero | hpos
    · rw [hzero] at hpos
      simp at hpos
    · exact hpos
  have hlast := lastBit_le hnum hden (h.lt hnormal.bits)
  have hleast := hnormal.least
  have hgreatest := hnormal.greatest
  unfold ofRatio
  rw [if_neg (by omega)]
  by_cases hreached : e = f.minExponent ∨ (2 : ℚ) ^ (e + f.precision - 1) ≤ num / den
  · -- the quotient has the exponent of the number
    have hexponent : max (lastBit f num den) f.minExponent = e := by
      rcases hreached with rfl | hreached
      · omega
      · have := le_lastBit hnum hden hreached
        omega
    simp only [hexponent, h.roundQuotient_eq hden, if_neg (Nat.ne_of_lt hnormal.bits)]
    rw [if_neg (by omega)]
  · -- the number is a power of two, and the quotient lies just below it
    rw [not_or, not_le] at hreached
    obtain ⟨hmore, hless⟩ := hreached
    have hm' := h.eq_two_pow hf.precision (hnormal.full.resolve_right hmore) hless
    have hlow := h.1
    rw [if_pos ⟨hm', lt_of_le_of_ne hleast (Ne.symm hmore)⟩, hm'] at hlow
    push_cast at hlow
    have hlow := hlow.elim le_of_lt fun heq => heq.2.le
    obtain ⟨hprevious, hround⟩ := round_below_two_pow hf.precision hnum hden hlow hless
    have hmax : max (e - 1) f.minExponent = e - 1 := by omega
    simp only [hprevious, hmax, hround, if_true]
    rw [← hm', if_neg (by omega)]
    congr 1
    omega

theorem zero_sound (hf : f.Proper) (negative : Bool) : (zero negative : Binary f).Sound :=
  ⟨Nat.pow_pos (by omega), le_refl _, hf.order, .inr rfl⟩

/-- Rounding gives the one form of a value. -/
theorem ofRatio_sound (hf : f.Proper) (negative : Bool) {num den : Nat} (hden : 0 < den) :
    (ofRatio negative num den : Binary f).Sound := by
  have hprecision := hf.precision
  unfold ofRatio
  by_cases hnum : num = 0
  · rw [if_pos hnum]
    exact zero_sound hf negative
  · rw [if_neg hnum]
    have hbounds := lastBit_bounds (f := f) (Nat.pos_of_ne_zero hnum) hden
    simp only
    generalize hlast : lastBit f num den = last at hbounds
    have htwo : (2 : ℚ) ≠ 0 := by norm_num
    have hpos : 0 < (scaled num den (max last f.minExponent)).2 := scaled_pos _ hden
    have hvalue := scaled_div num den (max last f.minExponent)
    have hround := roundQuotient_bounds (scaled num den (max last f.minExponent)).1
      (scaled num den (max last f.minExponent)).2
    have hless : (scaled num den (max last f.minExponent)).1 /
        (scaled num den (max last f.minExponent)).2 < 2 ^ f.precision := by
      rw [div_lt_iff_ratio hpos, hvalue, div_lt_iff₀ (by positivity)]
      refine lt_of_lt_of_le hbounds.2 ?_
      push_cast
      rw [← zpow_natCast, ← zpow_add₀ htwo]
      exact zpow_le_zpow_right₀ (by norm_num) (by omega)
    have hmore : f.minExponent ≤ last → 2 ^ (f.precision - 1) ≤
        (scaled num den (max last f.minExponent)).1 /
          (scaled num den (max last f.minExponent)).2 := by
      intro hleast
      rw [← Nat.not_lt, div_lt_iff_ratio hpos, hvalue, not_lt, le_div_iff₀ (by positivity)]
      refine le_trans (le_of_eq ?_) hbounds.1
      push_cast
      rw [← zpow_natCast, ← zpow_add₀ htwo]
      congr 1
      omega
    generalize roundQuotient (scaled num den (max last f.minExponent)).1
      (scaled num den (max last f.minExponent)).2 = m at hround
    by_cases hfull : m = 2 ^ f.precision
    · simp only [if_pos hfull]
      split
      · trivial
      · refine ⟨?_, by omega, by omega, .inl (Nat.le_refl _)⟩
        exact Nat.pow_lt_pow_right (by omega) (by omega)
    · simp only [if_neg hfull]
      split
      · trivial
      · refine ⟨by omega, by omega, by omega, ?_⟩
        by_cases hleast : f.minExponent ≤ last
        · have := hmore hleast
          exact .inl (by omega)
        · exact .inr (by omega)

end Binary

end ResourceQuery
