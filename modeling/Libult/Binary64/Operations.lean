import Libult.Binary64.Rounding

/-!
# Binary64/Operations — conversions, quotients, products and sums

What the operations of `Float.Model` give, as numbers: each is `rounded 53` of the exact result, and
the conversion back cuts off what is behind the point.
-/

namespace Libult.Binary64

open Float.Model UnpackedFloat

/-! ## Packing -/

theorem unpackSign_packComponents (s : Sign) (e : BitVec 11) (m : BitVec 52) :
    unpackSign (packComponents .binary64 s e m) = s.toBitVec := by
  ext i hi
  obtain rfl : i = 0 := Nat.lt_one_iff.mp hi
  change ((s.toBitVec ++ e ++ m).extractLsb 63 63).getLsbD 0 = s.toBitVec.getLsbD 0
  rw [BitVec.getLsbD_extractLsb, BitVec.getLsbD_append, BitVec.getLsbD_append]
  rfl

theorem toNat_implicit {m : ℕ} (low : 2 ^ 52 ≤ m) (high : m < 2 ^ 53) :
    (1#1 ++ BitVec.ofNat 52 m).toNat = m := by
  rw [BitVec.toNat_append, ← Nat.shiftLeft_add_eq_or_of_lt (BitVec.isLt _), BitVec.toNat_ofNat]
  change 1 <<< 52 + m % 2 ^ 52 = m
  rw [Nat.shiftLeft_eq]
  omega

theorem unpack_packComponents {m : ℕ} (hm : 0 < m) (low : 2 ^ 52 ≤ m) (high : m < 2 ^ 53) {b : ℕ}
    (h0 : 0 < b) (h1 : b < 2047) :
    UnpackedFloat.unpack .binary64
        (packComponents .binary64 .positive (BitVec.ofNat 11 b) (BitVec.ofNat 52 m))
      = .finite .positive m (b - 1075) hm := by
  have hnat : (BitVec.ofNat 11 b).toNat = b := by
    rw [BitVec.toNat_ofNat, Nat.mod_eq_of_lt (by omega)]
  have hzero : BitVec.ofNat 11 b ≠ 0#11 := by
    intro h
    have := congrArg BitVec.toNat h
    rw [hnat] at this
    exact h0.ne' this
  have hones : BitVec.ofNat 11 b ≠ -1#11 := by
    intro h
    have := congrArg BitVec.toNat h
    rw [hnat] at this
    exact h1.ne this
  simp only [UnpackedFloat.unpack, unpackMantissa_packComponents, unpackExponent_packComponents,
    unpackSign_packComponents, hones, hzero, if_false, hnat, finite.injEq]
  exact ⟨rfl, toNat_implicit low high, rfl⟩

/-- Packing loses nothing of a number of the format. -/
theorem Holds.unpack_pack {u : UnpackedFloat} {x : ℚ} (h : Holds u x) :
    (Float.Model.pack u).unpack = u := by
  cases h with
  | zero => rfl
  | finite m e h low high emin emax =>
    have hlog : m.log2 = 52 := (Nat.log2_eq_iff h.ne').mpr ⟨low, high⟩
    obtain ⟨b, hb⟩ := Int.eq_ofNat_of_zero_le (show 0 ≤ e + 1075 by omega)
    have packed : UnpackedFloat.pack .binary64 (.finite .positive m e h)
        = packComponents .binary64 .positive (BitVec.ofNat 11 b) (BitVec.ofNat 52 m) := by
      have hbias : (e + (Format.binary64.exponentBias : ℤ) + (52 : ℕ)).toNat = b := by
        change (e + 1023 + 52).toNat = b
        omega
      simp only [UnpackedFloat.pack, hbias, hlog]
      rw [if_neg (by norm_num; omega), if_pos (by rfl)]
    change UnpackedFloat.unpack .binary64 (UnpackedFloat.pack .binary64 _) = _
    rw [packed, unpack_packComponents h low high (by omega) (by omega)]
    congr 1
    omega

/-- `f` is the number `x`, zero or positive and normal. -/
def Represents (f : Float.Model) (x : ℚ) : Prop := Holds f.unpack x

theorem Holds.represents {u : UnpackedFloat} {x : ℚ} (h : Holds u x) :
    Represents (.pack u) x := by
  rw [Represents, h.unpack_pack]
  exact h

/-! ## Conversions -/

theorem holds_roundWithAccuracy_exact {m : ℕ} {e : ℤ} (hm : 2 ^ 52 ≤ m)
    (hx : InRange (m * 2 ^ e)) :
    Holds (roundWithAccuracy .binary64 .positive m e .exact) (rounded 53 (m * 2 ^ e)) := by
  have := holds_roundWithAccuracy (r := 0) hm (show Tells .exact 0 from rfl) (by rwa [add_zero])
  rwa [add_zero] at this

theorem mul_shift (m s : ℕ) (e : ℤ) : ((m <<< s : ℕ) : ℚ) * 2 ^ (e - s) = m * 2 ^ e := by
  rw [Nat.shiftLeft_eq, Nat.cast_mul, Nat.cast_pow, Nat.cast_two, mul_assoc, ← zpow_natCast,
    ← zpow_add₀ (by norm_num), add_sub_cancel]

theorem holds_round {m : ℕ} {e : ℤ} (hm : 0 < m) (hx : InRange (m * 2 ^ e)) :
    Holds (UnpackedFloat.round .binary64 .positive m e) (rounded 53 (m * 2 ^ e)) := by
  have hlog := log_mantissa hm (le_refl 0) zero_lt_one e
  rw [add_zero] at hlog
  have := hx.le_log
  rw [UnpackedFloat.round, totalExponent, targetExponent_eq (by omega)]
  simp only [decreaseExponent]
  rw [← mul_shift m (e - (m.log2 + 1 + e - 53)).toNat e] at hx ⊢
  refine holds_roundWithAccuracy_exact ?_ hx
  -- as many zeros as bits are missing
  calc 2 ^ 52 ≤ 2 ^ (m.log2 + (e - (m.log2 + 1 + e - 53)).toNat) :=
        Nat.pow_le_pow_right (by norm_num) (by omega)
    _ = 2 ^ m.log2 * 2 ^ (e - (m.log2 + 1 + e - 53)).toNat := pow_add ..
    _ ≤ m <<< (e - (m.log2 + 1 + e - 53)).toNat := by
      rw [Nat.shiftLeft_eq]
      exact Nat.mul_le_mul_right _ (Nat.log2_self_le hm.ne')

/-- Zero, or in range. -/
def Fits (x : ℚ) : Prop := x = 0 ∨ InRange x

theorem fits_of_le {x : ℚ} (low : 2 ^ (-64 : ℤ) ≤ x) (high : x ≤ 2 ^ (64 : ℤ)) : Fits x :=
  .inr ⟨le_trans (zpow_le_zpow_right₀ (by norm_num) (by norm_num)) low,
    lt_of_le_of_lt high (zpow_lt_zpow_right₀ (by norm_num) (by norm_num))⟩

theorem fits_natCast {n : ℕ} (h : n ≤ 2 ^ 64) : Fits n := by
  rcases Nat.eq_zero_or_pos n with rfl | hn
  · exact .inl Nat.cast_zero
  · refine fits_of_le ?_ ?_
    · have : (1 : ℚ) ≤ n := by exact_mod_cast hn
      exact le_trans (zpow_le_one_of_nonpos₀ (by norm_num) (by norm_num)) this
    · exact_mod_cast h

theorem holds_normalize {m : ℕ} {e : ℤ} (h : Fits (m * 2 ^ e)) :
    Holds (UnpackedFloat.normalize .binary64 m e .positive) (rounded 53 (m * 2 ^ e)) := by
  rcases Nat.eq_zero_or_pos m with rfl | hm
  · simp only [Nat.cast_zero, zero_mul, rounded_zero]
    exact .zero
  · have he : (0 : ℚ) < 2 ^ e := zpow_pos (by norm_num) e
    have hx := h.resolve_left (mul_pos (by exact_mod_cast hm) he).ne'
    have : compare (m : ℤ) 0 = .gt := compare_gt_iff_gt.mpr (by exact_mod_cast hm)
    simp only [UnpackedFloat.normalize, this, Int.toNat_natCast]
    exact holds_round hm hx

theorem represents_ofInt {n : ℕ} (h : n ≤ 2 ^ 64) :
    Represents (.pack (UnpackedFloat.ofInt .binary64 n)) (rounded 53 n) := by
  have := holds_normalize (m := n) (e := 0) (by rw [zpow_zero, mul_one]; exact fits_natCast h)
  rw [zpow_zero, mul_one] at this
  exact this.represents

/-- A `uint64_t` as a `double`. -/
theorem represents_ofUInt64 (n : UInt64) : Represents (.ofUInt64 n) (rounded 53 n.toNat) :=
  represents_ofInt n.toNat_lt.le

/-- A `time_t` or a `long` that is not negative as a `double`. -/
theorem represents_ofInt64 {n : Int64} {k : ℕ} (h : n.toInt = k) :
    Represents (.ofInt64 n) (rounded 53 k) := by
  have hk : k ≤ 2 ^ 64 := by
    have := n.toInt_lt
    omega
  rw [Float.Model.ofInt64, UnpackedFloat.ofInt64, h]
  exact represents_ofInt hk

/-- What is behind the point is cut off. -/
theorem Holds.toInt_eq {u : UnpackedFloat} {x : ℚ} (h : Holds u x) (a b : ℤ) :
    u.toInt a b = ⌊x⌋ := by
  cases h with
  | zero => simp [UnpackedFloat.toInt]
  | finite m e h low high emin emax =>
    obtain ⟨k, hk⟩ := Int.eq_ofNat_of_zero_le (show 0 ≤ -(e - (e - 0).toNat) by omega)
    have hshift : (0 - (e - (e - 0).toNat)).toNat = k := by omega
    have stands := (stands_ofMantissaAndAccuracy (show Tells .exact 0 from rfl)
      (m <<< (e - 0).toNat)).shiftRight k
    have value : ((m <<< (e - 0).toNat : ℕ) + 0 : ℚ) / 2 ^ k = m * 2 ^ e := by
      rw [add_zero, ← mul_shift m (e - 0).toNat e, div_eq_mul_inv, ← zpow_natCast, ← zpow_neg]
      congr 2
      omega
    rw [value] at stands
    rw [stands.floor_eq]
    simp only [UnpackedFloat.toInt, roundToInt, decreaseExponent, shiftToExponent, hshift]
    rfl

theorem Represents.toUInt64_eq {f : Float.Model} {x : ℚ} (h : Represents f x) {n : ℕ}
    (hx : ⌊x⌋ = n) (hn : n < 2 ^ 64) : f.toUInt64.toNat = n := by
  rw [Float.Model.toUInt64, UnpackedFloat.toUInt64, h.toInt_eq, hx, Int.toNat_natCast,
    UInt64.toNat_ofNatClamp_of_lt hn]

theorem Represents.toInt64_eq {f : Float.Model} {x : ℚ} (h : Represents f x) {n : ℕ}
    (hx : ⌊x⌋ = n) (hn : n < 2 ^ 63) : f.toInt64.toInt = n := by
  have hmin : Int64.minValue.toInt ≤ (n : ℤ) := by
    have : Int64.minValue.toInt = -2 ^ 63 := by decide
    omega
  have hmax : (n : ℤ) ≤ Int64.maxValue.toInt := by
    have : Int64.maxValue.toInt = 2 ^ 63 - 1 := by decide
    omega
  rw [Float.Model.toInt64, UnpackedFloat.toInt64, h.toInt_eq, hx,
    Int64.toInt_ofIntClamp hmin hmax]

/-! ## Arithmetic -/

section

variable {u v : UnpackedFloat} {x y : ℚ}

theorem Holds.mul (hu : Holds u x) (hv : Holds v y) (h : Fits (x * y)) :
    Holds (UnpackedFloat.mul .binary64 u v) (rounded 53 (x * y)) := by
  cases hu with
  | zero =>
    rw [zero_mul, rounded_zero]
    cases hv <;> exact .zero
  | finite m₁ e₁ h₁ low₁ high₁ emin₁ emax₁ =>
    cases hv with
    | zero =>
      rw [mul_zero, rounded_zero]
      exact .zero
    | finite m₂ e₂ h₂ low₂ high₂ emin₂ emax₂ =>
      have value : (m₁ : ℚ) * 2 ^ e₁ * (m₂ * 2 ^ e₂) = (m₁ * m₂ : ℕ) * 2 ^ (e₁ + e₂) := by
        rw [zpow_add₀ (by norm_num)]
        push_cast
        ring
      rw [value] at h ⊢
      have hpos : (0 : ℚ) < (m₁ * m₂ : ℕ) * 2 ^ (e₁ + e₂) :=
        mul_pos (by exact_mod_cast Nat.mul_pos h₁ h₂) (zpow_pos (by norm_num) _)
      exact holds_roundWithAccuracy_exact (low₁.trans (Nat.le_mul_of_pos_right m₁ h₂))
        (h.resolve_left hpos.ne')

theorem Holds.add (hu : Holds u x) (hv : Holds v y) (h : Fits (x + y)) (hx : rounded 53 x = x)
    (hy : rounded 53 y = y) : Holds (UnpackedFloat.add .binary64 u v) (rounded 53 (x + y)) := by
  cases hu with
  | zero =>
    rw [zero_add, hy]
    cases hv with
    | zero => exact .zero
    | finite m₂ e₂ h₂ low₂ high₂ emin₂ emax₂ => exact .finite m₂ e₂ h₂ low₂ high₂ emin₂ emax₂
  | finite m₁ e₁ h₁ low₁ high₁ emin₁ emax₁ =>
    cases hv with
    | zero =>
      rw [add_zero, hx]
      exact .finite m₁ e₁ h₁ low₁ high₁ emin₁ emax₁
    | finite m₂ e₂ h₂ low₂ high₂ emin₂ emax₂ =>
      have value : (m₁ : ℚ) * 2 ^ e₁ + m₂ * 2 ^ e₂
          = (m₁ <<< (e₁ - min e₁ e₂).toNat + m₂ <<< (e₂ - min e₁ e₂).toNat : ℕ)
            * 2 ^ min e₁ e₂ := by
        rw [← mul_shift m₁ (e₁ - min e₁ e₂).toNat, ← mul_shift m₂ (e₂ - min e₁ e₂).toNat,
          show e₁ - (e₁ - min e₁ e₂).toNat = min e₁ e₂ by omega,
          show e₂ - (e₂ - min e₁ e₂).toNat = min e₁ e₂ by omega]
        push_cast
        ring
      rw [value] at h ⊢
      exact holds_normalize h

/-- The quotient of two mantissas, with as many bits as are kept. -/
theorem holds_quotient {m n : ℕ} {e : ℤ} (hn : 0 < n) (low : 2 ^ 52 * n ≤ m)
    (range : InRange (m / n * 2 ^ e)) :
    Holds (roundWithAccuracy .binary64 .positive (m / n) e (accuracyOfFraction (m % n) n))
      (rounded 53 (m / n * 2 ^ e)) := by
  have hpos : (0 : ℚ) < n := by exact_mod_cast hn
  have exact_quotient : ((m / n : ℕ) : ℚ) + ((m % n : ℕ) : ℚ) / n = m / n := by
    have hdiv : (n : ℚ) * (m / n : ℕ) + (m % n : ℕ) = m := by exact_mod_cast Nat.div_add_mod m n
    rw [eq_div_iff hpos.ne', add_mul, div_mul_cancel₀ _ hpos.ne', mul_comm, hdiv]
  rw [← exact_quotient] at range ⊢
  exact holds_roundWithAccuracy ((Nat.le_div_iff_mul_le hn).mpr low)
    (tells_accuracyOfFraction (Nat.mod_lt m hn)) range

theorem Holds.div (hu : Holds u x) (hv : Holds v y) (hy : y ≠ 0) (h : Fits (x / y)) :
    Holds (UnpackedFloat.div .binary64 u v) (rounded 53 (x / y)) := by
  cases hv with
  | zero => exact absurd rfl hy
  | finite m₂ e₂ h₂ low₂ high₂ emin₂ emax₂ =>
    cases hu with
    | zero =>
      rw [zero_div, rounded_zero]
      exact .zero
    | finite m₁ e₁ h₁ low₁ high₁ emin₁ emax₁ =>
      have hm₁ : (0 : ℚ) < m₁ := by exact_mod_cast h₁
      have hm₂ : (0 : ℚ) < m₂ := by exact_mod_cast h₂
      have range := h.resolve_left
        (div_pos (mul_pos hm₁ (zpow_pos (by norm_num) e₁))
          (mul_pos hm₂ (zpow_pos (by norm_num) e₂))).ne'
      have quotient : (m₁ : ℚ) * 2 ^ e₁ / (m₂ * 2 ^ e₂) = m₁ / m₂ * 2 ^ (e₁ - e₂) := by
        rw [zpow_sub₀ (by norm_num), mul_div_mul_comm]
      have hexp : -1021 ≤ e₁ - e₂ := by
        have lt_two : (m₁ : ℚ) / m₂ < 2 := by
          rw [div_lt_iff₀ hm₂]
          have : m₁ < 2 * m₂ := by omega
          exact_mod_cast this
        have : (2 : ℚ) ^ (-1021 : ℤ) < 2 ^ (e₁ - e₂ + 1) := by
          calc (2 : ℚ) ^ (-1021 : ℤ) ≤ m₁ / m₂ * 2 ^ (e₁ - e₂) := quotient ▸ range.low
            _ < 2 * 2 ^ (e₁ - e₂) := mul_lt_mul_of_pos_right lt_two (zpow_pos (by norm_num) _)
            _ = 2 ^ (e₁ - e₂ + 1) := by rw [zpow_add₀ (by norm_num), zpow_one, mul_comm]
        have := (zpow_lt_zpow_iff_right₀ (by norm_num)).mp this
        omega
      have core : divCore .binary64 m₁ e₁ m₂ e₂
          = (m₁ <<< 53 / m₂, e₁ - e₂ - 53, accuracyOfFraction (m₁ <<< 53 % m₂) m₂) := by
        have hlog₁ : m₁.log2 = 52 := (Nat.log2_eq_iff h₁.ne').mpr ⟨low₁, high₁⟩
        have hlog₂ : m₂.log2 = 52 := (Nat.log2_eq_iff h₂.ne').mpr ⟨low₂, high₂⟩
        have htarget : min (e₁ - e₂) (Format.binary64.targetExponent
            (totalExponent m₁ e₁ - totalExponent m₂ e₂)) = e₁ - e₂ - 53 := by
          rw [totalExponent, totalExponent, hlog₁, hlog₂, targetExponent_eq (by omega)]
          omega
        have hshift : (e₁ - e₂ - (e₁ - e₂ - 53)).toNat = 53 := by omega
        simp only [divCore, htarget, hshift]
      have value : m₁ * (2 : ℚ) ^ e₁ / (m₂ * (2 : ℚ) ^ e₂)
          = ((m₁ <<< 53 : ℕ) : ℚ) / m₂ * 2 ^ (e₁ - e₂ - 53) := by
        rw [quotient, div_mul_eq_mul_div, div_mul_eq_mul_div, ← mul_shift m₁ 53 (e₁ - e₂)]
        rfl
      have low : 2 ^ 52 * m₂ ≤ m₁ <<< 53 := by
        rw [Nat.shiftLeft_eq]
        exact Nat.mul_le_mul low₁ high₂.le
      rw [value] at range ⊢
      simp only [UnpackedFloat.div, core]
      exact holds_quotient h₂ low range

variable {f g : Float.Model}

theorem Represents.mul (hf : Represents f x) (hg : Represents g y) (h : Fits (x * y)) :
    Represents (f * g) (rounded 53 (x * y)) :=
  (Holds.mul hf hg h).represents

theorem Represents.add (hf : Represents f x) (hg : Represents g y) (h : Fits (x + y))
    (hx : rounded 53 x = x) (hy : rounded 53 y = y) : Represents (f + g) (rounded 53 (x + y)) :=
  (Holds.add hf hg h hx hy).represents

theorem Represents.div (hf : Represents f x) (hg : Represents g y) (hy : y ≠ 0)
    (h : Fits (x / y)) : Represents (f / g) (rounded 53 (x / y)) :=
  (Holds.div hf hg hy h).represents

end

end Libult.Binary64
