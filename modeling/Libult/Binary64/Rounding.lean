import Libult.Binary64.Nearest

/-!
# Binary64/Rounding — the rounding of the floating-point model rounds to the nearest

`Float.Model` computes a result as a mantissa with two residual bits, shifts it right until 53 bits
are left, and rounds by the residual bits.  `Stands` says which number a mantissa with its residual
bits stands for; a shift keeps that (`Stands.shiftRight`), and the rounding is `nearestEven`
(`Stands.roundedMantissa_eq`).  So what comes out is `rounded 53` of what goes in
(`holds_roundWithAccuracy`).
-/

namespace Libult.Binary64

open Float.Model UnpackedFloat

/-! ## A mantissa and its residual bits -/

/-- What an accuracy tells of the rest that is cut off. -/
def Tells : Accuracy → ℚ → Prop
  | .exact, r => r = 0
  | .inexact .lt, r => 0 < r ∧ r < 1 / 2
  | .inexact .eq, r => r = 1 / 2
  | .inexact .gt, r => 1 / 2 < r ∧ r < 1

theorem Tells.nonneg {a : Accuracy} {r : ℚ} (h : Tells a r) : 0 ≤ r := by
  match a, h with
  | .exact, h => exact h.ge
  | .inexact .lt, h => exact h.1.le
  | .inexact .eq, h => rw [show r = 1 / 2 from h]; norm_num
  | .inexact .gt, h => linarith [h.1]

theorem Tells.lt_one {a : Accuracy} {r : ℚ} (h : Tells a r) : r < 1 := by
  match a, h with
  | .exact, h => rw [show r = 0 from h]; norm_num
  | .inexact .lt, h => linarith [h.2]
  | .inexact .eq, h => rw [show r = 1 / 2 from h]; norm_num
  | .inexact .gt, h => exact h.2

theorem tells_accuracyOfFraction {num den : ℕ} (h : num < den) :
    Tells (accuracyOfFraction num den) (num / den) := by
  have hd : (0 : ℚ) < den := by exact_mod_cast (Nat.zero_le num).trans_lt h
  unfold accuracyOfFraction
  by_cases h0 : num = 0
  · rw [if_pos h0, h0, Nat.cast_zero, zero_div]
    rfl
  · rw [if_neg h0]
    have hn : (0 : ℚ) < num := by exact_mod_cast Nat.pos_of_ne_zero h0
    rcases lt_trichotomy (2 * num) den with hc | hc | hc
    · rw [compare_lt_iff_lt.mpr hc]
      have : (2 : ℚ) * num < den := by exact_mod_cast hc
      exact ⟨div_pos hn hd, by rw [div_lt_iff₀ hd]; linarith⟩
    · rw [compare_eq_iff_eq.mpr hc]
      have : (2 : ℚ) * num = den := by exact_mod_cast hc
      exact (div_eq_iff hd.ne').mpr (by linarith)
    · rw [compare_gt_iff_gt.mpr hc]
      have : (den : ℚ) < 2 * num := by exact_mod_cast hc
      have : (num : ℚ) < den := by exact_mod_cast h
      exact ⟨by rw [lt_div_iff₀ hd]; linarith, by rw [div_lt_iff₀ hd]; linarith⟩

theorem Tells.roundToNearestEven_eq {a : Accuracy} {r : ℚ} (h : Tells a r) (m : ℕ) :
    (a.roundToNearestEven m : ℤ) = nearestEven (m + r) := by
  have fract : Int.fract ((m : ℚ) + r) = r := by
    rw [Int.fract_natCast_add, Int.fract_eq_self.mpr ⟨h.nonneg, h.lt_one⟩]
  have floor : ⌊(m : ℚ) + r⌋ = m := by
    rw [Int.floor_natCast_add, Int.floor_eq_zero_iff.mpr ⟨h.nonneg, h.lt_one⟩, add_zero]
  match a, h with
  | .exact, h =>
    rw [nearestEven_of_lt (by rw [fract, show r = 0 from h]; norm_num), floor]
    rfl
  | .inexact .lt, h =>
    rw [nearestEven_of_lt (by rw [fract]; exact h.2), floor]
    rfl
  | .inexact .eq, h =>
    rw [nearestEven_of_eq (by rw [fract]; exact h), floor]
    rfl
  | .inexact .gt, h =>
    rw [nearestEven_of_gt (by rw [fract]; exact h.1), floor]
    rfl

/-- The mantissa with its residual bits stands for `x`. -/
def Stands (em : ExtendedMantissa) (x : ℚ) : Prop := Tells em.accuracy (x - em.mantissa)

theorem stands_ofMantissaAndAccuracy {a : Accuracy} {r : ℚ} (h : Tells a r) (m : ℕ) :
    Stands (.ofMantissaAndAccuracy m a) (m + r) := by
  match a, h with
  | .exact, h | .inexact .lt, h | .inexact .eq, h | .inexact .gt, h =>
    simpa [Stands, ExtendedMantissa.ofMantissaAndAccuracy, ExtendedMantissa.accuracy] using h

section

variable {em : ExtendedMantissa} {x : ℚ}

theorem Stands.shiftRightOne (h : Stands em x) : Stands em.shiftRightOne (x / 2) := by
  obtain ⟨m, r, s⟩ := em
  have hm : (m : ℚ) = 2 * (m / 2 : ℕ) + (m % 2 : ℕ) := by
    exact_mod_cast (Nat.div_add_mod m 2).symm
  -- the bit that goes out is the new round bit, and the old one goes into the sticky bit
  rcases Nat.mod_two_eq_zero_or_one m with hb | hb <;> rw [hb] at hm <;> cases r <;> cases s <;>
    simp only [Stands, ExtendedMantissa.shiftRightOne, ExtendedMantissa.accuracy, Tells, hb,
      bne_self_eq_false, show ((1 : ℕ) != 0) = true from rfl, Bool.or_self, Bool.or_false,
      Bool.or_true, Nat.cast_zero, Nat.cast_one] at h hm ⊢ <;>
    first
      | linarith
      | constructor <;> linarith

/-- A shift keeps what the mantissa and its residual bits stand for. -/
theorem Stands.shiftRight (h : Stands em x) (n : ℕ) : Stands (em >>> n) (x / 2 ^ n) := by
  induction n with
  | zero => rwa [pow_zero, div_one]
  | succ n ih =>
    rw [pow_succ, ← div_div]
    exact ih.shiftRightOne

theorem Stands.floor_eq (h : Stands em x) : ⌊x⌋ = em.mantissa := by
  rw [Int.floor_eq_iff]
  have h0 := Tells.nonneg h
  have h1 := Tells.lt_one h
  push_cast
  constructor <;> linarith

theorem Stands.roundedMantissa_eq (h : Stands em x) :
    (em.roundedMantissa : ℤ) = nearestEven x := by
  have := Tells.roundToNearestEven_eq h em.mantissa
  rwa [add_sub_cancel] at this

end

/-! ## The numbers of the format -/

/-- Which number an unpacked one is, where it is zero or positive and normal. -/
inductive Holds : UnpackedFloat → ℚ → Prop
  | zero : Holds (.zero .positive) 0
  | finite (m : ℕ) (e : ℤ) (h : 0 < m) (low : 2 ^ 52 ≤ m) (high : m < 2 ^ 53)
      (emin : -1074 ≤ e) (emax : e ≤ 971) : Holds (.finite .positive m e h) (m * 2 ^ e)

/-- What rounds to a positive normal number. -/
structure InRange (x : ℚ) : Prop where
  low : (2 : ℚ) ^ (-1021 : ℤ) ≤ x
  high : x < (2 : ℚ) ^ (1023 : ℤ)

theorem InRange.pos {x : ℚ} (h : InRange x) : 0 < x := (zpow_pos (by norm_num) _).trans_le h.low

theorem InRange.le_log {x : ℚ} (h : InRange x) : -1021 ≤ Int.log 2 x :=
  (Int.zpow_le_iff_le_log (b := 2) (by norm_num) h.pos).mp (by exact_mod_cast h.low)

theorem InRange.log_lt {x : ℚ} (h : InRange x) : Int.log 2 x < 1023 :=
  (Int.lt_zpow_iff_log_lt (b := 2) (by norm_num) h.pos).mp (by exact_mod_cast h.high)

/-- The power of two under a mantissa with a rest. -/
theorem log_mantissa {m : ℕ} (hm : 0 < m) {r : ℚ} (h0 : 0 ≤ r) (h1 : r < 1) (e : ℤ) :
    Int.log 2 ((m + r) * 2 ^ e) = m.log2 + e := by
  have he : (0 : ℚ) < 2 ^ e := zpow_pos (by norm_num) e
  have hpos : (0 : ℚ) < (m + r) * 2 ^ e :=
    mul_pos (add_pos_of_pos_of_nonneg (by exact_mod_cast hm) h0) he
  have low : (2 : ℚ) ^ m.log2 ≤ m := by exact_mod_cast Nat.log2_self_le hm.ne'
  have high : (m : ℚ) + 1 ≤ 2 ^ (m.log2 + 1) := by exact_mod_cast Nat.lt_log2_self (n := m)
  apply le_antisymm
  · rw [← Int.lt_add_one_iff, ← Int.lt_zpow_iff_log_lt (by norm_num) hpos]
    calc ((m : ℚ) + r) * 2 ^ e < 2 ^ (m.log2 + 1) * 2 ^ e :=
          mul_lt_mul_of_pos_right (by linarith) he
      _ = ((2 : ℕ) : ℚ) ^ ((m.log2 : ℤ) + e + 1) := by
        rw [← zpow_natCast, ← zpow_add₀ (by norm_num)]
        push_cast
        congr 1
        ring
  · rw [← Int.zpow_le_iff_le_log (by norm_num) hpos]
    calc ((2 : ℕ) : ℚ) ^ ((m.log2 : ℤ) + e) = 2 ^ m.log2 * 2 ^ e := by
          rw [Nat.cast_two, zpow_add₀ (by norm_num), zpow_natCast]
      _ ≤ (m + r) * 2 ^ e := mul_le_mul_of_nonneg_right (by linarith) he.le

theorem targetExponent_eq {t : ℤ} (h : -1021 ≤ t) :
    Format.binary64.targetExponent t = t - 53 := by
  have : Format.binary64.minExponent = -1074 := by decide
  rw [Format.targetExponent, this]
  simp only [Format.mantissaBits]
  omega

/-- The shift that leaves 53 bits of a mantissa that has as many. -/
theorem shiftToTargetExponent_eq {m : ℕ} {e : ℤ} {k : ℕ} (a : Accuracy) (hk : m.log2 = 52 + k)
    (h : -1022 ≤ m.log2 + e) :
    shiftToTargetExponent .binary64 m e a
      = (ExtendedMantissa.ofMantissaAndAccuracy m a >>> k, e + (k : ℤ)) := by
  have : (Format.binary64.targetExponent (totalExponent m e) - e).toNat = k := by
    rw [totalExponent, targetExponent_eq (by omega)]
    omega
  simp only [shiftToTargetExponent, shiftToExponent, this]

/-- The last shift of `roundWithAccuracy`, when the mantissa is rounded. -/
def settled (q : ℕ) (t : ℤ) : UnpackedFloat :=
  let (em, e) := shiftToTargetExponent .binary64 q t .exact
  if h : em.mantissa = 0 then .zero .positive
  else .finite .positive em.mantissa e (Nat.pos_of_ne_zero h)

theorem holds_settled {q : ℕ} {t : ℤ} (low : 2 ^ 52 ≤ q) (high : q ≤ 2 ^ 53) (tmin : -1074 ≤ t)
    (tmax : t ≤ 970) : Holds (settled q t) (q * 2 ^ t) := by
  have qpos : 0 < q := lt_of_lt_of_le (by norm_num) low
  rcases high.lt_or_eq with hlt | rfl
  · have hlog : q.log2 = 52 + 0 := (Nat.log2_eq_iff qpos.ne').mpr ⟨low, hlt⟩
    have hmant : (ExtendedMantissa.ofMantissaAndAccuracy q .exact >>> 0).mantissa = q := rfl
    rw [settled, shiftToTargetExponent_eq .exact hlog (by omega)]
    simp only [hmant, dif_neg qpos.ne', Nat.cast_zero, add_zero]
    exact .finite q t qpos low hlt tmin (by omega)
  · -- one bit more, which is zero
    have hlog : (2 ^ 53).log2 = 52 + 1 := Nat.log2_two_pow
    have hmant : (ExtendedMantissa.ofMantissaAndAccuracy (2 ^ 53) .exact >>> 1).mantissa = 2 ^ 52 :=
      rfl
    rw [settled, shiftToTargetExponent_eq .exact hlog (by omega)]
    simp only [hmant, dif_neg (show ¬ 2 ^ 52 = 0 by norm_num)]
    have carried := Holds.finite (2 ^ 52) (t + (1 : ℕ)) (by norm_num) (le_refl _) (by norm_num)
      (by omega) (by omega)
    convert carried using 1
    rw [zpow_add₀ (by norm_num)]
    push_cast
    ring

/-- **What is rounded is rounded to the nearest.** -/
theorem holds_roundWithAccuracy {m : ℕ} {e : ℤ} {a : Accuracy} {r : ℚ} (hm : 2 ^ 52 ≤ m)
    (ha : Tells a r) (hx : InRange ((m + r) * 2 ^ e)) :
    Holds (roundWithAccuracy .binary64 .positive m e a) (rounded 53 ((m + r) * 2 ^ e)) := by
  have hpos : 0 < m := lt_of_lt_of_le (by norm_num) hm
  have hlog := log_mantissa hpos ha.nonneg ha.lt_one e
  have le_log := hx.le_log
  have log_lt := hx.log_lt
  obtain ⟨k, hk⟩ := Nat.exists_eq_add_of_le ((Nat.le_log2 hpos.ne').mpr hm)
  -- what is left of the mantissa is the number of ulps
  have hulp : ulp 53 ((m + r) * 2 ^ e) = 2 ^ (e + k) := by
    rw [ulp, hlog]
    congr 1
    push_cast
    omega
  have ulps : ((m : ℚ) + r) / 2 ^ k = (m + r) * 2 ^ e / ulp 53 ((m + r) * 2 ^ e) := by
    have : (2 : ℚ) ^ e ≠ 0 := (zpow_pos (by norm_num) e).ne'
    rw [hulp, zpow_add₀ (by norm_num), zpow_natCast]
    field_simp
  have near := ((stands_ofMantissaAndAccuracy ha m).shiftRight k).roundedMantissa_eq
  rw [ulps] at near
  have low := two_pow_le_nearestEven hx.pos (show 0 < 53 by norm_num)
  have high := nearestEven_le_two_pow (p := 53) ((m + r) * 2 ^ e)
  have first := shiftToTargetExponent_eq (e := e) a hk (by omega)
  have last : roundWithAccuracy .binary64 .positive m e a
      = settled (ExtendedMantissa.ofMantissaAndAccuracy m a >>> k).roundedMantissa (e + k) := by
    rw [roundWithAccuracy, first]
    rfl
  rw [← near] at low high
  rw [rounded, ← near, hulp, last, Int.cast_natCast]
  exact holds_settled (by exact_mod_cast low) (by exact_mod_cast high) (by omega) (by omega)

end Libult.Binary64
