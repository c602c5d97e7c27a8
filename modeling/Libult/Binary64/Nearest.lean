import Mathlib

/-!
# Binary64/Nearest — rounding to the nearest number with so many bits

`nearestEven x` is the integer next to `x`, and `rounded p x` the number of `p` bits next to it: of
two as near, the one that is even.

    2 ^ log x ≤ x < 2 ^ (log x + 1)          the numbers of `p` bits there are the multiples of
    ├──┼──┼──┼──┼─x┼──┼──┤                   `ulp p x`, and no number of `p` bits is nearer
-/

namespace Libult.Binary64

/-! ## To an integer -/

/-- The integer nearest to `x`, of two the even one. -/
def nearestEven (x : ℚ) : ℤ :=
  match compare (Int.fract x) (1 / 2) with
  | .lt => ⌊x⌋
  | .eq => ⌊x⌋ + ⌊x⌋ % 2
  | .gt => ⌊x⌋ + 1

theorem nearestEven_of_lt {x : ℚ} (h : Int.fract x < 1 / 2) : nearestEven x = ⌊x⌋ := by
  simp only [nearestEven, compare_lt_iff_lt.mpr h]

theorem nearestEven_of_eq {x : ℚ} (h : Int.fract x = 1 / 2) :
    nearestEven x = ⌊x⌋ + ⌊x⌋ % 2 := by
  simp only [nearestEven, compare_eq_iff_eq.mpr h]

theorem nearestEven_of_gt {x : ℚ} (h : 1 / 2 < Int.fract x) : nearestEven x = ⌊x⌋ + 1 := by
  simp only [nearestEven, compare_gt_iff_gt.mpr h]

@[simp] theorem nearestEven_intCast (n : ℤ) : nearestEven n = n := by
  rw [nearestEven_of_lt (by simp), Int.floor_intCast]

theorem abs_nearestEven_sub_le_half (x : ℚ) : |(nearestEven x : ℚ) - x| ≤ 1 / 2 := by
  have hx : (⌊x⌋ : ℚ) = x - Int.fract x := by linarith [Int.floor_add_fract x]
  have h0 := Int.fract_nonneg x
  have h1 := Int.fract_lt_one x
  rcases lt_trichotomy (Int.fract x) (1 / 2) with h | h | h
  · rw [nearestEven_of_lt h, abs_le]
    constructor <;> linarith
  · rw [nearestEven_of_eq h, abs_le]
    push_cast
    rcases Int.emod_two_eq_zero_or_one ⌊x⌋ with e | e <;> rw [e] <;> push_cast <;>
      constructor <;> linarith
  · rw [nearestEven_of_gt h, abs_le]
    push_cast
    constructor <;> linarith

/-- No integer is nearer. -/
theorem abs_nearestEven_sub_le (x : ℚ) (n : ℤ) : |(nearestEven x : ℚ) - x| ≤ |(n : ℚ) - x| := by
  by_cases hn : n = nearestEven x
  · rw [hn]
  · have half := abs_nearestEven_sub_le_half x
    have one : (1 : ℚ) ≤ |(n : ℚ) - nearestEven x| := by
      exact_mod_cast Int.one_le_abs (sub_ne_zero.mpr hn)
    have tri := abs_sub_le (n : ℚ) x (nearestEven x)
    rw [abs_sub_comm x] at tri
    linarith

theorem nearestEven_mono : Monotone nearestEven := by
  intro x y hxy
  by_contra hlt
  have hx := (abs_le.mp (abs_nearestEven_sub_le_half x)).2
  have hy := (abs_le.mp (abs_nearestEven_sub_le_half y)).1
  have one : (nearestEven y : ℚ) + 1 ≤ nearestEven x := by exact_mod_cast not_le.mp hlt
  have : x = y := by linarith
  exact hlt (by rw [this])

/-! ## To a number of `p` bits -/

/-- `y` is a number of `p` bits. -/
def HasBits (p : ℕ) (y : ℚ) : Prop := ∃ (m : ℕ) (e : ℤ), m < 2 ^ p ∧ y = m * 2 ^ e

/-- How far the numbers of `p` bits are apart at `x`. -/
def ulp (p : ℕ) (x : ℚ) : ℚ := 2 ^ (Int.log 2 x + 1 - p)

/-- The number of `p` bits nearest to `x`, of two the even one. -/
def rounded (p : ℕ) (x : ℚ) : ℚ := nearestEven (x / ulp p x) * ulp p x

theorem ulp_pos (p : ℕ) (x : ℚ) : 0 < ulp p x := zpow_pos (by norm_num) _

@[simp] theorem rounded_zero (p : ℕ) : rounded p 0 = 0 := by
  have h : nearestEven (0 / ulp p 0) = 0 := by
    rw [zero_div]
    exact nearestEven_intCast 0
  rw [rounded, h, Int.cast_zero, zero_mul]

theorem hasBits_natCast {p n : ℕ} (hn : n < 2 ^ p) : HasBits p n := ⟨n, 0, hn, by simp⟩

theorem hasBits_zpow {p : ℕ} (hp : 0 < p) (e : ℤ) : HasBits p (2 ^ e) :=
  ⟨1, e, Nat.one_lt_two_pow hp.ne', by simp⟩

section

variable {p : ℕ} {x y : ℚ}

theorem two_pow_log_le (hx : 0 < x) : (2 : ℚ) ^ Int.log 2 x ≤ x :=
  Int.zpow_log_le_self (by norm_num) hx

theorem lt_two_pow_log (x : ℚ) : x < (2 : ℚ) ^ (Int.log 2 x + 1) :=
  Int.lt_zpow_succ_log_self (b := 2) (by norm_num) x

/-- What has `p` bits and is not below the power of two under `x` is a multiple of `ulp p x`. -/
theorem exists_mul_ulp (hy : HasBits p y) (h : (2 : ℚ) ^ Int.log 2 x ≤ y) :
    ∃ k : ℤ, y = k * ulp p x := by
  obtain ⟨m, e, hm, rfl⟩ := hy
  have hpow : (2 : ℚ) ^ Int.log 2 x < 2 ^ (e + p) := by
    calc (2 : ℚ) ^ Int.log 2 x ≤ m * 2 ^ e := h
      _ < 2 ^ p * 2 ^ e :=
        mul_lt_mul_of_pos_right (by exact_mod_cast hm) (zpow_pos (by norm_num) e)
      _ = 2 ^ (e + p) := by rw [zpow_add₀ (by norm_num), zpow_natCast, mul_comm]
  have he : Int.log 2 x < e + p := (zpow_lt_zpow_iff_right₀ (by norm_num)).mp hpow
  obtain ⟨k, hk⟩ := Int.eq_ofNat_of_zero_le (show 0 ≤ e - (Int.log 2 x + 1 - p) by omega)
  refine ⟨m * 2 ^ k, ?_⟩
  rw [ulp]
  push_cast
  rw [mul_assoc, ← zpow_natCast, ← zpow_add₀ (by norm_num)]
  congr 2
  omega

/-- **No number of `p` bits is nearer.** -/
theorem abs_rounded_sub_le (hp : 0 < p) (hx : 0 < x) (hy : HasBits p y) :
    |rounded p x - x| ≤ |y - x| := by
  have hu := ulp_pos p x
  -- a multiple of the ulp is no nearer
  have multiple : ∀ k : ℤ, |rounded p x - x| ≤ |k * ulp p x - x| := by
    intro k
    have near := abs_nearestEven_sub_le (x / ulp p x) k
    have scale : ∀ z : ℚ, |z * ulp p x - x| = |z - x / ulp p x| * ulp p x := by
      intro z
      rw [← abs_of_pos hu, ← abs_mul, abs_of_pos hu, sub_mul, div_mul_cancel₀ _ hu.ne']
    rw [rounded, scale, scale]
    exact mul_le_mul_of_nonneg_right near hu.le
  by_cases h : (2 : ℚ) ^ Int.log 2 x ≤ y
  · obtain ⟨k, rfl⟩ := exists_mul_ulp hy h
    exact multiple k
  · -- further down than the power of two, which is a multiple
    obtain ⟨k, hk⟩ := exists_mul_ulp (hasBits_zpow hp (Int.log 2 x)) (le_refl _)
    have hle := two_pow_log_le hx
    calc |rounded p x - x| ≤ |(2 : ℚ) ^ Int.log 2 x - x| := by rw [hk]; exact multiple k
      _ ≤ |y - x| := by
        rw [abs_of_nonpos (by linarith), abs_of_nonpos (by linarith [not_le.mp h])]
        linarith [not_le.mp h]

theorem rounded_of_hasBits (hp : 0 < p) (hx : 0 < x) (h : HasBits p x) : rounded p x = x := by
  have := abs_rounded_sub_le hp hx h
  rw [sub_self, abs_zero] at this
  exact sub_eq_zero.mp (abs_nonpos_iff.mp this)

theorem rounded_natCast {n : ℕ} (hp : 0 < p) (hn : n < 2 ^ p) : rounded p n = n := by
  rcases Nat.eq_zero_or_pos n with rfl | hpos
  · rw [Nat.cast_zero, rounded_zero]
  · exact rounded_of_hasBits hp (by exact_mod_cast hpos) (hasBits_natCast hn)

/-- How many ulps `x` is. -/
theorem two_pow_le_div_ulp (hx : 0 < x) (hp : 0 < p) : (2 : ℚ) ^ (p - 1) ≤ x / ulp p x := by
  rw [le_div_iff₀ (ulp_pos p x), ulp, ← zpow_natCast, ← zpow_add₀ (by norm_num)]
  calc _ = (2 : ℚ) ^ Int.log 2 x := by congr 1; omega
    _ ≤ x := two_pow_log_le hx

theorem div_ulp_lt (x : ℚ) : x / ulp p x < 2 ^ p := by
  rw [div_lt_iff₀ (ulp_pos p x), ulp, ← zpow_natCast, ← zpow_add₀ (by norm_num)]
  calc x < (2 : ℚ) ^ (Int.log 2 x + 1) := lt_two_pow_log x
    _ = _ := by congr 1; omega

theorem two_pow_le_nearestEven (hx : 0 < x) (hp : 0 < p) :
    2 ^ (p - 1) ≤ nearestEven (x / ulp p x) := by
  have h := nearestEven_mono (two_pow_le_div_ulp hx hp)
  have hpow : ((2 : ℚ) ^ (p - 1)) = ((2 ^ (p - 1) : ℤ) : ℚ) := by push_cast; rfl
  rwa [hpow, nearestEven_intCast] at h

theorem nearestEven_le_two_pow (x : ℚ) : nearestEven (x / ulp p x) ≤ 2 ^ p := by
  have h := nearestEven_mono (div_ulp_lt (p := p) x).le
  have hpow : ((2 : ℚ) ^ p) = ((2 ^ p : ℤ) : ℚ) := by push_cast; rfl
  rwa [hpow, nearestEven_intCast] at h

theorem rounded_pos (hp : 0 < p) (hx : 0 < x) : 0 < rounded p x := by
  have h : (0 : ℤ) < nearestEven (x / ulp p x) :=
    lt_of_lt_of_le (by positivity) (two_pow_le_nearestEven hx hp)
  exact mul_pos (by exact_mod_cast h) (ulp_pos p x)

theorem rounded_nonneg (hp : 0 < p) (hx : 0 ≤ x) : 0 ≤ rounded p x := by
  rcases hx.eq_or_lt with rfl | hx
  · exact (rounded_zero p).ge
  · exact (rounded_pos hp hx).le

theorem hasBits_rounded (hp : 0 < p) (hx : 0 < x) : HasBits p (rounded p x) := by
  have low := two_pow_le_nearestEven hx hp
  have high := nearestEven_le_two_pow (p := p) x
  obtain ⟨m, hm⟩ := Int.eq_ofNat_of_zero_le (show 0 ≤ nearestEven (x / ulp p x) by
    linarith [pow_pos (show (0 : ℤ) < 2 by norm_num) (p - 1)])
  rw [rounded, hm]
  rcases high.lt_or_eq with hlt | heq
  · exact ⟨m, _, by exact_mod_cast hm ▸ hlt, by push_cast; rfl⟩
  · -- carried into the next power of two
    refine ⟨1, p + (Int.log 2 x + 1 - p), Nat.one_lt_two_pow hp.ne', ?_⟩
    rw [← hm, heq, ulp, zpow_add₀ (by norm_num)]
    push_cast
    rw [one_mul, zpow_natCast]

theorem rounded_mono (hp : 0 < p) (hx : 0 < x) (hxy : x ≤ y) : rounded p x ≤ rounded p y := by
  have hy : 0 < y := hx.trans_le hxy
  by_contra hlt
  rw [not_le] at hlt
  -- each is at least as near to its own, so `x` and `y` are both in the middle
  have nx := abs_rounded_sub_le hp hx (hasBits_rounded hp hy)
  have ny := abs_rounded_sub_le hp hy (hasBits_rounded hp hx)
  have mx : rounded p x + rounded p y ≤ 2 * x := by
    by_contra h
    rw [abs_of_pos (show 0 < rounded p x - x by linarith)] at nx
    rcases abs_cases (rounded p y - x) with ⟨e, -⟩ | ⟨e, -⟩ <;> linarith
  have my : 2 * y ≤ rounded p x + rounded p y := by
    by_contra h
    rw [abs_sub_comm, abs_of_pos (show 0 < y - rounded p y by linarith)] at ny
    rcases abs_cases (rounded p x - y) with ⟨e, -⟩ | ⟨e, -⟩ <;> linarith
  have : x = y := by linarith
  rw [this] at hlt
  exact lt_irrefl _ hlt

theorem rounded_le (hp : 0 < p) (hx : 0 < x) (hy : HasBits p y) (h : x ≤ y) :
    rounded p x ≤ y := by
  rw [← rounded_of_hasBits hp (hx.trans_le h) hy]
  exact rounded_mono hp hx h

theorem le_rounded (hp : 0 < p) (hy : 0 < y) (hb : HasBits p y) (h : y ≤ x) :
    y ≤ rounded p x := by
  rw [← rounded_of_hasBits hp hy hb]
  exact rounded_mono hp hy h

end

end Libult.Binary64
