import ResourceQuery.Numeral.BinaryText
import ResourceQuery.Proofs.Numeral.Binary
import ResourceQuery.Proofs.Numeral.Digits
/-!
# Texts of binary numbers

The shortest decimal of a binary number lies in its interval, so the positional form reads back.
-/

namespace ResourceQuery

namespace Binary

open Numeral

variable {f : Format}

/-- The number that a scientific form stands for. -/
def Scientific.toRat (d : Scientific) : ℚ := d.digits * 10 ^ d.exponent

/-! ## The shortest decimal -/

theorem scaled_cross (a : Nat) (i : Int) (b : Nat) (j : Int) :
    ∃ c : ℚ, 0 < c ∧
      ((a * 10 ^ i.toNat * 2 ^ (-j).toNat : Nat) : ℚ) = a * 10 ^ i * c ∧
      ((b * 2 ^ j.toNat * 10 ^ (-i).toNat : Nat) : ℚ) = b * 2 ^ j * c := by
  refine ⟨10 ^ (-i).toNat * 2 ^ (-j).toNat, by positivity, ?_, ?_⟩
  · have hpow := zpow_eq_div 10 (by omega) i
    push_cast at hpow ⊢
    rw [hpow]
    field_simp
  · have hpow := zpow_eq_div 2 (by omega) j
    push_cast at hpow ⊢
    rw [hpow]
    field_simp

theorem compareScaled_lt {a : Nat} {i : Int} {b : Nat} {j : Int} :
    compareScaled a i b j = .lt ↔ (a : ℚ) * 10 ^ i < b * 2 ^ j := by
  obtain ⟨c, hc, ha, hb⟩ := scaled_cross a i b j
  rw [compareScaled, Nat.compare_eq_lt, ← mul_lt_mul_iff_of_pos_right hc, ← ha, ← hb]
  exact_mod_cast Iff.rfl

theorem compareScaled_gt {a : Nat} {i : Int} {b : Nat} {j : Int} :
    compareScaled a i b j = .gt ↔ (b : ℚ) * 2 ^ j < a * 10 ^ i := by
  obtain ⟨c, hc, ha, hb⟩ := scaled_cross a i b j
  rw [compareScaled, Nat.compare_eq_gt, ← mul_lt_mul_iff_of_pos_right hc, ← ha, ← hb]
  exact_mod_cast Iff.rfl

theorem compareScaled_eq {a : Nat} {i : Int} {b : Nat} {j : Int} :
    compareScaled a i b j = .eq ↔ (a : ℚ) * 10 ^ i = b * 2 ^ j := by
  obtain ⟨c, hc, ha, hb⟩ := scaled_cross a i b j
  rw [compareScaled, Nat.compare_eq_eq, ← mul_left_inj' (ne_of_gt hc), ← ha, ← hb]
  exact_mod_cast Iff.rfl

theorem reads_iff {m : Nat} {e : Int} {d : Scientific} (hm : 0 < m) :
    reads f m e d = true ↔ RoundsTo f m e d.toRat := by
  have hlow : ((4 * m - (if m = 2 ^ (f.precision - 1) ∧ f.minExponent < e then 1 else 2) : Nat) : ℚ) =
      4 * m - (if m = 2 ^ (f.precision - 1) ∧ f.minExponent < e then 1 else 2) := by
    split
    · rw [Nat.cast_sub (by omega)]
      push_cast
      ring
    · rw [Nat.cast_sub (by omega)]
      push_cast
      ring
  have hhigh : ((4 * m + 2 : Nat) : ℚ) = 4 * m + 2 := by push_cast; ring
  unfold RoundsTo Scientific.toRat reads
  simp only [Bool.and_eq_true, Bool.or_eq_true, beq_iff_eq, decide_eq_true_eq, compareScaled_lt,
    compareScaled_gt, compareScaled_eq]
  rw [hlow, hhigh]
  simp only [eq_comm]

theorem onGrid_reads {tie : Tie} {m : Nat} {e k : Int} {d : Scientific}
    (h : onGrid f tie m e k = some d) : reads f m e d = true := by
  unfold onGrid at h
  simp only at h
  split at h
  · rename_i hbelow habove
    rw [Bool.and_eq_true] at hbelow
    split at h
    · cases h
      exact hbelow.2
    · cases h
      exact habove
    · split at h
      · cases h
        exact hbelow.2
      · cases h
        exact habove
  · rename_i hbelow habove
    rw [Bool.and_eq_true] at hbelow
    cases h
    exact hbelow.2
  · rename_i hbelow habove
    cases h
    exact habove
  · cases h

theorem exact_toRat (m : Nat) (e : Int) : (exact m e).toRat = m * 2 ^ e := by
  unfold exact Scientific.toRat
  split
  · rename_i hnonneg
    have hcast : ((e.toNat : Nat) : Int) = e := by omega
    push_cast
    rw [mul_one, ← zpow_natCast, hcast]
  · rename_i hneg
    have hcast : e = -(((-e).toNat : Nat) : Int) := by omega
    push_cast
    generalize (-e).toNat = n at hcast
    rw [hcast, zpow_neg, zpow_neg, zpow_natCast, zpow_natCast,
      show (10 : ℚ) = 5 * 2 by norm_num, mul_pow]
    field_simp

theorem roundsTo_self {m : Nat} (e : Int) : RoundsTo f m e (m * 2 ^ e) := by
  have hquarter : (0 : ℚ) < 2 ^ (e - 2) := by positivity
  have hpower := zpow_eq_quarters e
  refine ⟨.inl ?_, .inl ?_⟩
  · rw [hpower]
    split <;> nlinarith
  · rw [hpower]
    nlinarith

theorem stripZeros_toRat (fuel : Nat) (d : Scientific) : (stripZeros fuel d).toRat = d.toRat := by
  induction fuel generalizing d with
  | zero => rfl
  | succ fuel ih =>
      rw [stripZeros]
      split
      · rename_i hzero
        rw [ih]
        have hdigits : d.digits = d.digits / 10 * 10 := by omega
        have hcast : (d.digits : ℚ) = (d.digits / 10 : Nat) * 10 := by exact_mod_cast hdigits
        unfold Scientific.toRat
        rw [hcast, zpow_add_one₀ (by norm_num : (10 : ℚ) ≠ 0)]
        ring
      · rfl

/-- The shortest decimal of a binary number rounds to it. -/
theorem shortest_roundsTo (tie : Tie) {m : Nat} (e : Int) (hm : 0 < m) :
    RoundsTo f m e (shortest f tie m e).toRat := by
  unfold shortest
  simp only
  rw [stripZeros_toRat]
  cases hfound : (List.range 17).findSome? fun (n : Nat) =>
      onGrid f tie m e (scale m e - 1 - n) with
  | none =>
      rw [Option.getD_none, exact_toRat]
      exact roundsTo_self e
  | some d =>
      obtain ⟨n, -, hgrid⟩ := List.exists_of_findSome?_eq_some hfound
      rw [Option.getD_some]
      exact (reads_iff hm).1 (onGrid_reads hgrid)

/-! ## Reading digits -/

theorem ten_pow_le_digits {n : Nat} (h : 0 < n) : 10 ^ ((digits n).length - 1) ≤ n := by
  by_cases hone : (digits n).length ≤ 1
  · rw [Nat.sub_eq_zero_of_le hone]
    exact h
  · rw [← Nat.not_lt, ← length_digits_le_iff (by omega)]
    omega

/-- A number between the bounds of the format has less than 400 places. -/
theorem lead_bounds (hf : f.Proper) {m D : Nat} {e E : Int} (hnormal : Normal f m e) (hm : 0 < m)
    (hD : 0 < D) (h : RoundsTo f m e (D * 10 ^ E)) :
    -400 ≤ E + (digits D).length ∧ E + (digits D).length ≤ 400 := by
  have hten : (10 : ℚ) ≠ 0 := by norm_num
  have htwo : (2 : ℚ) ≠ 0 := by norm_num
  have hquarter : (0 : ℚ) < 2 ^ (e - 2) := by positivity
  have hm' : (1 : ℚ) ≤ m := by exact_mod_cast hm
  have hbits : (m : ℚ) + 1 ≤ 2 ^ f.precision := by exact_mod_cast hnormal.bits
  have hleast := hnormal.least
  have hgreatest := hnormal.greatest
  have hfleast := hf.least
  have hfgreatest := hf.greatest
  have hlength : 0 < (digits D).length := Nat.length_toDigits_pos
  -- the number lies between two powers of two
  have hlow : (2 : ℚ) ^ (-1200 : Int) ≤ D * 10 ^ E := by
    have hbase : (2 : ℚ) ^ (e - 2) ≤ D * 10 ^ E := by
      rcases h.1 with hlow | ⟨-, hlow⟩
      · refine le_trans ?_ hlow.le
        split <;> nlinarith
      · rw [← hlow]
        split <;> nlinarith
    exact le_trans (zpow_le_zpow_right₀ (by norm_num) (by omega)) hbase
  have hhigh : (D : ℚ) * 10 ^ E ≤ 2 ^ (1200 : Int) := by
    have hbase : (D : ℚ) * 10 ^ E ≤ 2 ^ (e + f.precision) := by
      rw [zpow_add₀ htwo, zpow_natCast, zpow_eq_quarters e]
      rcases h.2 with hhigh | ⟨-, hhigh⟩
      · nlinarith
      · rw [hhigh]
        nlinarith
    exact le_trans hbase (zpow_le_zpow_right₀ (by norm_num) (by omega))
  have hdigitsLow : (10 : ℚ) ^ (E + (digits D).length - 1) ≤ D * 10 ^ E := by
    have hcast : ((10 : ℚ) ^ ((digits D).length - 1 : Nat)) ≤ D := by
      exact_mod_cast ten_pow_le_digits hD
    rw [show E + (digits D).length - 1 = ((digits D).length - 1 : Nat) + E by omega,
      zpow_add₀ hten, zpow_natCast]
    exact mul_le_mul_of_nonneg_right hcast (by positivity)
  have hdigitsHigh : (D : ℚ) * 10 ^ E < 10 ^ (E + (digits D).length) := by
    have hcast : (D : ℚ) < 10 ^ (digits D).length := by
      exact_mod_cast (length_digits_le_iff hlength).1 (Nat.le_refl _)
    rw [add_comm E, zpow_add₀ hten, zpow_natCast]
    exact mul_lt_mul_of_pos_right hcast (by positivity)
  have hpowers : (2 : ℚ) ^ (1200 : Int) < 10 ^ (400 : Int) := by
    rw [show (1200 : Int) = ((3 * 400 : Nat) : Int) by norm_num,
      show (400 : Int) = ((400 : Nat) : Int) by norm_num, zpow_natCast, zpow_natCast, pow_mul]
    exact pow_lt_pow_left₀ (by norm_num) (by norm_num) (by norm_num)
  constructor
  · by_contra hless
    have hsmall : (10 : ℚ) ^ (E + (digits D).length) ≤ 10 ^ (-400 : Int) :=
      zpow_le_zpow_right₀ (by norm_num) (by omega)
    have hlt := lt_of_le_of_lt hlow (lt_of_lt_of_le hdigitsHigh hsmall)
    rw [zpow_neg, zpow_neg, inv_lt_inv₀ (by positivity) (by positivity)] at hlt
    exact lt_asymm hpowers hlt
  · by_contra hmore
    have hlarge : (10 : ℚ) ^ (400 : Int) ≤ 10 ^ (E + (digits D).length - 1) :=
      zpow_le_zpow_right₀ (by norm_num) (by omega)
    exact absurd (le_trans hlarge (le_trans hdigitsLow hhigh)) (not_le.2 hpowers)

/-- Digits in the interval of a binary number are read as it. -/
theorem ofScientific_eq (hf : f.Proper) (negative : Bool) {m D : Nat} {e E : Int}
    (hnormal : Normal f m e) (hm : 0 < m) (h : RoundsTo f m e (D * 10 ^ E)) :
    (ofScientific negative D E : Binary f) = .finite negative m e := by
  have hxpos := h.pos hm
  have hD : 0 < D := by
    rcases Nat.eq_zero_or_pos D with hzero | hpos
    · rw [hzero] at hxpos
      simp at hxpos
    · exact hpos
  have hlead := lead_bounds hf hnormal hm hD h
  unfold ofScientific
  simp only
  rw [if_neg (by omega), if_neg (by omega)]
  refine ofRatio_eq hf hnormal hm (Nat.pow_pos (by omega)) ?_
  have hpow := zpow_eq_div 10 (by omega) E
  push_cast at hpow ⊢
  rw [hpow, ← mul_div_assoc] at h
  exact h

theorem ofScientific_sound (hf : f.Proper) (negative : Bool) (D : Nat) (E : Int) :
    (ofScientific negative D E : Binary f).Sound := by
  unfold ofScientific
  simp only
  split
  · exact zero_sound hf negative
  · split
    · trivial
    · exact ofRatio_sound hf negative (Nat.pow_pos (by omega))

theorem exists_of_readDecimal {negative : Bool} {text : List Char} {x : Binary f}
    (h : readDecimal negative text = some x) : ∃ D E, ofScientific negative D E = x := by
  unfold readDecimal at h
  simp only at h
  -- with a point behind the digits, or without one
  split at h
  all_goals
    split at h
    · cases h
    · split at h
      · exact ⟨_, _, Option.some.inj h⟩
      · split at h
        · obtain ⟨E, -, hx⟩ := Option.bind_eq_some_iff.1 h
          exact ⟨_, _, Option.some.inj hx⟩
        · cases h

theorem read_sound (hf : f.Proper) {text : String} {x : Binary f} (h : read text = .ok x) :
    x.Sound := by
  unfold read at h
  split at h
  · cases h
  · rename_i c rest _
    simp only at h
    generalize (if c = '-' then (true, rest) else if c = '+' then (false, rest) else
      (false, c :: rest)) = signed at h
    split at h
    · cases h
      trivial
    · split at h
      · cases h
        trivial
      · split at h
        · rename_i y hy
          cases h
          obtain ⟨D, E, rfl⟩ := exists_of_readDecimal hy
          exact ofScientific_sound hf _ D E
        · cases h

/-! ## Reading what was written -/

theorem readDecimal_digits {ds : List Char} (negative : Bool) (hds : ∀ c ∈ ds, c.isDigit = true)
    (hne : ds ≠ []) :
    readDecimal negative ds = some (ofScientific negative (value ds) 0 : Binary f) := by
  have hspan := spanDigits_self hds
  have hempty : ds.isEmpty = false := List.isEmpty_eq_false_iff.2 hne
  unfold readDecimal
  simp only [hspan, hempty, Bool.false_and, Bool.false_eq_true, if_false, List.append_nil]
  rfl

theorem readDecimal_point {front back : List Char} (negative : Bool)
    (hfront : ∀ c ∈ front, c.isDigit = true) (hback : ∀ c ∈ back, c.isDigit = true)
    (hne : front ≠ []) :
    readDecimal negative (front ++ '.' :: back) =
      some (ofScientific negative (value (front ++ back)) (-back.length) : Binary f) := by
  have hspan : spanDigits (front ++ '.' :: back) = (front, '.' :: back) :=
    span_append hfront (by simp)
  have hempty : front.isEmpty = false := List.isEmpty_eq_false_iff.2 hne
  unfold readDecimal
  simp only [hspan, spanDigits_self hback, hempty, Bool.false_and, Bool.false_eq_true, if_false]
  change some (ofScientific negative (value (front ++ back)) (0 - back.length)) = _
  rw [Int.zero_sub]

/-- The positional form is a run of digits, maybe with a point, and stands for the same number. -/
theorem readDecimal_positional (negative : Bool) (d : Scientific) :
    ∃ (D : Nat) (E : Int), (D : ℚ) * 10 ^ E = d.toRat ∧
      readDecimal negative d.positional = some (ofScientific negative D E : Binary f) := by
  have hdigits : ∀ c ∈ digits d.digits, c.isDigit = true := fun c hc => isDigit_of_mem_digits hc
  have hzeros : ∀ (count : Nat) (c : Char), c ∈ List.replicate count '0' → c.isDigit = true := by
    intro count c hc
    rw [(List.mem_replicate.1 hc).2]
    rfl
  have hne := digits_ne_nil d.digits
  have hvalue := value_digits d.digits
  unfold Scientific.positional Scientific.toRat
  simp only
  by_cases hexponent : 0 ≤ d.exponent
  · rw [if_pos hexponent]
    have hall : ∀ c ∈ digits d.digits ++ List.replicate d.exponent.toNat '0', c.isDigit = true := by
      intro c hc
      rcases List.mem_append.1 hc with hc | hc
      · exact hdigits c hc
      · exact hzeros _ c hc
    refine ⟨_, _, ?_, readDecimal_digits negative hall (by simp [hne])⟩
    have hcast : ((d.exponent.toNat : Nat) : Int) = d.exponent := by omega
    rw [value_append, value_replicate_zero, hvalue, List.length_replicate]
    push_cast
    rw [mul_one, add_zero, ← zpow_natCast, hcast, mul_comm]
  · rw [if_neg hexponent]
    by_cases hinside : (-d.exponent).toNat < (digits d.digits).length
    · rw [if_pos hinside]
      have hfront : ∀ c ∈ (digits d.digits).take ((digits d.digits).length - (-d.exponent).toNat),
          c.isDigit = true := fun c hc => hdigits c (List.mem_of_mem_take hc)
      have hback : ∀ c ∈ (digits d.digits).drop ((digits d.digits).length - (-d.exponent).toNat),
          c.isDigit = true := fun c hc => hdigits c (List.mem_of_mem_drop hc)
      have hfrontNe : (digits d.digits).take ((digits d.digits).length - (-d.exponent).toNat) ≠ [] := by
        apply List.ne_nil_of_length_pos
        rw [List.length_take]
        omega
      refine ⟨_, _, ?_, readDecimal_point negative hfront hback hfrontNe⟩
      rw [List.take_append_drop, hvalue, List.length_drop]
      congr 2
      omega
    · rw [if_neg hinside]
      have hback : ∀ c ∈ List.replicate ((-d.exponent).toNat - (digits d.digits).length) '0' ++
          digits d.digits, c.isDigit = true := by
        intro c hc
        rcases List.mem_append.1 hc with hc | hc
        · exact hzeros _ c hc
        · exact hdigits c hc
      have hfront : ∀ c ∈ ['0'], c.isDigit = true := by simp
      have hpoint := readDecimal_point (f := f) negative hfront hback (by simp)
      refine ⟨_, _, ?_, hpoint⟩
      have hlength : (List.replicate ((-d.exponent).toNat - (digits d.digits).length) '0' ++
          digits d.digits).length = (-d.exponent).toNat := by
        rw [List.length_append, List.length_replicate]
        omega
      have hzero : value ['0'] = 0 := rfl
      have hcast : -(((-d.exponent).toNat : Nat) : Int) = d.exponent := by omega
      rw [hlength, hcast, value_append, value_append, value_replicate_zero, hvalue, hzero]
      simp

theorem toLower_of_isDigit {c : Char} (h : c.isDigit = true) : c.toLower = c := by
  simp only [Char.isDigit, Bool.and_eq_true, decide_eq_true_eq, ge_iff_le] at h
  unfold Char.toLower
  rw [dif_neg]
  intro hupper
  have hle : c.toNat ≤ 57 := h.2
  have hge : 65 ≤ c.toNat := hupper.1
  omega

/-- What starts with a digit is read as a decimal. -/
theorem read_decimal {negative : Bool} {c : Char} {rest : List Char} {x : Binary f}
    (hc : c.isDigit = true) (h : readDecimal negative (c :: rest) = some x) :
    read (String.ofList (sign negative ++ c :: rest)) = .ok x := by
  have hplus : c ≠ '+' := ne_of_isDigit hc rfl
  have hminus : c ≠ '-' := ne_of_isDigit hc rfl
  have hword : ∀ d tail, d.isDigit = false →
      String.ofList ((c :: rest).map Char.toLower) ≠ String.ofList (d :: tail) := by
    intro d tail hd heq
    have hlist := String.ofList_injective heq
    rw [List.map_cons, toLower_of_isDigit hc] at hlist
    rw [(List.cons.inj hlist).1, hd] at hc
    cases hc
  have hinf : String.ofList ((c :: rest).map Char.toLower) ≠ "inf" := hword 'i' ['n', 'f'] rfl
  have hinfinity : String.ofList ((c :: rest).map Char.toLower) ≠ "infinity" :=
    hword 'i' ['n', 'f', 'i', 'n', 'i', 't', 'y'] rfl
  have hnan : String.ofList ((c :: rest).map Char.toLower) ≠ "nan" := hword 'n' ['a', 'n'] rfl
  unfold read
  rw [String.toList_ofList]
  cases negative with
  | true =>
      simp only [sign, if_true, List.cons_append, List.nil_append, hinf, hinfinity, hnan, or_self,
        if_false, h]
  | false =>
      simp only [sign, Bool.false_eq_true, if_false, List.nil_append, hplus, hminus, hinf,
        hinfinity, hnan, or_self, h]

theorem positional_starts (d : Scientific) :
    ∃ c rest, d.positional = c :: rest ∧ c.isDigit = true := by
  have hdigits : ∀ c ∈ digits d.digits, c.isDigit = true := fun c hc => isDigit_of_mem_digits hc
  have hne := digits_ne_nil d.digits
  unfold Scientific.positional
  simp only
  cases hds : digits d.digits with
  | nil => exact absurd hds hne
  | cons c rest =>
      have hc := hdigits c (by rw [hds]; simp)
      split
      · exact ⟨c, _, rfl, hc⟩
      · split
        · rename_i hinside
          rw [List.length_cons] at hinside ⊢
          rw [show rest.length + 1 - (-d.exponent).toNat =
            rest.length - (-d.exponent).toNat + 1 by omega, List.take_succ_cons]
          exact ⟨c, _, rfl, hc⟩
        · exact ⟨'0', _, rfl, rfl⟩

/-- A binary number reads back from its positional form. -/
theorem read_positional (hf : f.Proper) {x : Binary f} (h : x.Sound) :
    read x.positional = .ok x := by
  cases x with
  | nan =>
      have hword : String.ofList (['N', 'a', 'N'].map Char.toLower) = "nan" := by decide
      have hchars : "NaN".toList = ['N', 'a', 'N'] := by decide
      unfold read positional
      rw [hchars]
      simp only [show 'N' ≠ '-' by decide, show 'N' ≠ '+' by decide, if_false, hword]
      rfl
  | infinite negative => cases negative <;> simp [read, positional, sign]
  | finite negative m e =>
      cases m with
      | zero =>
          have hleast : e = f.minExponent := by
            rcases h.full with hfull | hleast
            · have := Nat.pow_pos (n := f.precision - 1) (show 0 < 2 by omega)
              omega
            · exact hleast
          subst hleast
          have hzero : (ofScientific negative 0 0 : Binary f) = .finite negative 0 f.minExponent := by
            unfold ofScientific
            exact if_pos (.inl rfl)
          have hdigit : ∀ c ∈ ['0'], c.isDigit = true := by simp
          have hread := readDecimal_digits (f := f) negative hdigit (by simp)
          rw [show value ['0'] = 0 from rfl, hzero] at hread
          exact read_decimal rfl hread
      | succ m =>
          have hm : 0 < m + 1 := by omega
          have hrounds := shortest_roundsTo (f := f) .up e hm
          obtain ⟨D, E, hD, hread⟩ :=
            readDecimal_positional (f := f) negative (shortest f .up (m + 1) e)
          obtain ⟨c, rest, hstart, hc⟩ := positional_starts (shortest f .up (m + 1) e)
          rw [← hD] at hrounds
          rw [ofScientific_eq hf negative h hm hrounds, hstart] at hread
          change read (String.ofList (sign negative ++
            (shortest f .up (m + 1) e).positional)) = _
          rw [hstart]
          exact read_decimal hc hread

end Binary

end ResourceQuery
