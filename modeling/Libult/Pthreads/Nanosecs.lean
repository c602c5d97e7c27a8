import Libult.Binary64.Operations

/-!
# Pthreads/Nanosecs — nanoseconds through a `double`

`threads_pthreads_yield.c` goes from a count of nanoseconds to a `struct timespec` and back through a
`double`.  The way there is a quotient that is rounded and cut off, so it gives a second too many
where the rounding reaches the next whole second; the rest is then negative (`ofNanosecs_sum`).

    nanosecs ─ rounded ─▸ double ─ / 1E9, rounded ─▸ quotient ─ cut off ─▸ tv_sec
-/

namespace Libult.Pthreads

open Binary64

/-! ## The code -/

/-- `struct timespec`, where `time_t` and `long` have 64 bits. -/
@[ext] structure Timespec where
  tv_sec : Int64
  tv_nsec : Int64
  deriving DecidableEq, Repr

/-- `1E9`. -/
def billion : Float.Model := .ofScientific 1 9

/-- `(yield_nsleep_time.tv_sec * 1E9) + yield_nsleep_time.tv_nsec`, as a `uint64_t`. -/
def Timespec.nanosecs (t : Timespec) : UInt64 :=
  (Float.Model.ofInt64 t.tv_sec * billion + Float.Model.ofInt64 t.tv_nsec).toUInt64

/-- `yield_nsleep_nanosecs / 1E9`, as a `time_t`. -/
def seconds (nanosecs : UInt64) : Int64 := (Float.Model.ofUInt64 nanosecs / billion).toInt64

/-- `yield_nsleep_nanosecs - (uint64_t)(yield_nsleep_time.tv_sec * 1E9)`, as a `long`. -/
def remainder (nanosecs : UInt64) (tv_sec : Int64) : Int64 :=
  (nanosecs - (Float.Model.ofInt64 tv_sec * billion).toUInt64).toInt64

/-- `yield_nsleep_time`, from `yield_nsleep_nanosecs`. -/
def Timespec.ofNanosecs (nanosecs : UInt64) : Timespec :=
  ⟨seconds nanosecs, remainder nanosecs (seconds nanosecs)⟩

/-! ## A time in two parts -/

/-- The seconds and the nanoseconds of `n` nanoseconds. -/
structure Timespec.Is (t : Timespec) (n : ℕ) : Prop where
  sec : t.tv_sec.toInt = (n / 10 ^ 9 : ℕ)
  nsec : t.tv_nsec.toInt = (n % 10 ^ 9 : ℕ)

/-- What `nanosleep` takes. -/
structure Timespec.Valid (t : Timespec) : Prop where
  sec_nonneg : 0 ≤ t.tv_sec.toInt
  nsec_nonneg : 0 ≤ t.tv_nsec.toInt
  nsec_lt : t.tv_nsec.toInt < 10 ^ 9

theorem Timespec.Is.valid {t : Timespec} {n : ℕ} (h : t.Is n) : t.Valid := by
  obtain ⟨hsec, hnsec⟩ := h
  exact ⟨by omega, by omega, by omega⟩

theorem represents_billion : Represents billion (10 ^ 9) := by
  have hu : billion.unpack = .finite .positive (10 ^ 9 * 2 ^ 23) (-23) (by norm_num) := rfl
  have h := Holds.finite (10 ^ 9 * 2 ^ 23) (-23) (by norm_num) (by norm_num) (by norm_num)
    (by norm_num) (by norm_num)
  rw [Represents, hu]
  convert h using 1
  norm_num

/-- So many whole seconds have 53 bits, in nanoseconds: `10 ^ 9` is `5 ^ 9` shifted by nine. -/
theorem hasBits_seconds {k : ℕ} (h : k * 5 ^ 9 < 2 ^ 53) : HasBits 53 (k * 10 ^ 9) := by
  refine ⟨k * 5 ^ 9, 9, h, ?_⟩
  push_cast
  norm_num
  ring

/-- The quotient that `seconds` cuts off. -/
def quotient (n : ℕ) : ℚ := rounded 53 (rounded 53 n / 10 ^ 9)

section

variable {n k : ℕ}

theorem le_quotient (hk : k * 5 ^ 9 < 2 ^ 53) (h : k * 10 ^ 9 ≤ n) : (k : ℚ) ≤ quotient n := by
  rcases Nat.eq_zero_or_pos k with rfl | hpos
  · rw [Nat.cast_zero]
    exact rounded_nonneg (by norm_num)
      (div_nonneg (rounded_nonneg (by norm_num) (Nat.cast_nonneg n)) (by norm_num))
  · have hkq : (0 : ℚ) < k := by exact_mod_cast hpos
    have whole : (k : ℚ) * 10 ^ 9 ≤ rounded 53 n :=
      le_rounded (by norm_num) (by positivity) (hasBits_seconds hk) (by exact_mod_cast h)
    exact le_rounded (by norm_num) hkq (hasBits_natCast (by omega))
      ((le_div_iff₀ (by norm_num)).mpr whole)

theorem quotient_le (hk : k * 5 ^ 9 < 2 ^ 53) (hn : 0 < n) (h : n ≤ k * 10 ^ 9) :
    quotient n ≤ k := by
  have hnq : (0 : ℚ) < n := by exact_mod_cast hn
  have whole : rounded 53 n ≤ (k : ℚ) * 10 ^ 9 :=
    rounded_le (by norm_num) hnq (hasBits_seconds hk) (by exact_mod_cast h)
  exact rounded_le (by norm_num) (div_pos (rounded_pos (by norm_num) hnq) (by norm_num))
    (hasBits_natCast (by omega)) ((div_le_iff₀ (by norm_num)).mpr whole)

/-- A nanosecond short of `k` seconds is nearer to the number before `k` than to `k`, while these
are at most `2 ^ (-29)` apart. -/
theorem quotient_lt (hk : k ≤ 2 ^ 24) (hn : 0 < n) (h : rounded 53 n ≤ k * 10 ^ 9 - 1) :
    quotient n < k := by
  have hnq : (0 : ℚ) < n := by exact_mod_cast hn
  have hpos : 0 < rounded 53 (n : ℚ) / 10 ^ 9 :=
    div_pos (rounded_pos (by norm_num) hnq) (by norm_num)
  have short : rounded 53 (n : ℚ) / 10 ^ 9 ≤ k - 1 / 10 ^ 9 := by
    rw [div_le_iff₀ (by norm_num)]
    linarith
  have hk1 : 1 ≤ k := by
    by_contra h0
    obtain rfl : k = 0 := by omega
    norm_num at short
    linarith
  have before : HasBits 53 ((k : ℚ) - 1 / 2 ^ 29) := by
    refine ⟨k * 2 ^ 29 - 1, -29, by omega, ?_⟩
    rw [Nat.cast_sub (by omega)]
    push_cast
    norm_num
    ring
  have near := abs_rounded_sub_le (by norm_num) hpos before
  by_contra hle
  rw [not_lt, quotient] at hle
  rw [abs_of_pos (by linarith)] at near
  rcases abs_cases ((k : ℚ) - 1 / 2 ^ 29 - rounded 53 n / 10 ^ 9) with ⟨e, -⟩ | ⟨e, -⟩ <;>
    rw [e] at near <;> norm_num at short near <;> linarith

end

theorem fits_quotient (n : UInt64) : Fits (rounded 53 n.toNat / 10 ^ 9) := by
  rcases Nat.eq_zero_or_pos n.toNat with h0 | hpos
  · rw [h0]
    exact .inl (by simp)
  · have one : (1 : ℚ) ≤ n.toNat := by exact_mod_cast hpos
    have low : (1 : ℚ) ≤ rounded 53 n.toNat :=
      le_rounded (by norm_num) (by norm_num) (hasBits_zpow (by norm_num) 0) one
    have high : rounded 53 n.toNat ≤ (2 : ℚ) ^ (64 : ℤ) :=
      rounded_le (by norm_num) (by linarith) (hasBits_zpow (by norm_num) 64)
        (by exact_mod_cast n.toNat_lt.le)
    refine fits_of_le ?_ ?_
    · rw [le_div_iff₀ (by norm_num)]
      norm_num
      linarith
    · rw [div_le_iff₀ (by norm_num)]
      norm_num at high ⊢
      linarith

theorem represents_quotient (n : UInt64) :
    Represents (.ofUInt64 n / billion) (quotient n.toNat) :=
  (represents_ofUInt64 n).div represents_billion (by norm_num) (fits_quotient n)

theorem toInt_seconds {n : UInt64} {k : ℕ} (hk : k < 2 ^ 63) (low : (k : ℚ) ≤ quotient n.toNat)
    (high : quotient n.toNat < k + 1) : (seconds n).toInt = k :=
  (represents_quotient n).toInt64_eq (Int.floor_eq_iff.mpr ⟨by exact_mod_cast low,
    by exact_mod_cast high⟩) hk

/-- Whole seconds, in nanoseconds. -/
theorem represents_nanosecs {s : Int64} {k : ℕ} (hs : s.toInt = k) (hk : k * 5 ^ 9 < 2 ^ 53) :
    Represents (.ofInt64 s * billion) (k * 10 ^ 9) := by
  have hs' := represents_ofInt64 hs
  rw [rounded_natCast (by norm_num) (by omega)] at hs'
  have hfits := fits_natCast (n := k * 10 ^ 9) (by omega)
  push_cast at hfits
  have h := hs'.mul represents_billion hfits
  rcases Nat.eq_zero_or_pos k with rfl | hpos
  · simpa using h
  · have hkq : (0 : ℚ) < k := by exact_mod_cast hpos
    rwa [rounded_of_hasBits (by norm_num) (by positivity) (hasBits_seconds hk)] at h

theorem toInt_toInt64_sub {a b : UInt64} (low : -2 ^ 63 ≤ (a.toNat : ℤ) - b.toNat)
    (high : (a.toNat : ℤ) - b.toNat < 2 ^ 63) :
    (a - b).toInt64.toInt = (a.toNat : ℤ) - b.toNat := by
  rw [← Int64.toInt_toBitVec, UInt64.toBitVec_toInt64, BitVec.toInt_eq_toNat_bmod]
  change Int.bmod ((a - b).toNat : ℤ) (2 ^ 64) = _
  have ha := a.toNat_lt
  have hb := b.toNat_lt
  rw [UInt64.toNat_sub, Int.bmod_def]
  omega

theorem toInt_remainder {n : UInt64} {s : Int64} {k : ℕ} (hs : s.toInt = k)
    (hk : k * 5 ^ 9 < 2 ^ 53) (low : -2 ^ 63 ≤ (n.toNat : ℤ) - k * 10 ^ 9)
    (high : (n.toNat : ℤ) - k * 10 ^ 9 < 2 ^ 63) :
    (remainder n s).toInt = (n.toNat : ℤ) - k * 10 ^ 9 := by
  have hlt : k * 10 ^ 9 < 2 ^ 64 :=
    lt_of_le_of_lt (show k * 10 ^ 9 ≤ 2 ^ 63 by omega) (by norm_num)
  have hw : (Float.Model.ofInt64 s * billion).toUInt64.toNat = k * 10 ^ 9 := by
    have h := represents_nanosecs hs hk
    have value : (k : ℚ) * 10 ^ 9 = ((k * 10 ^ 9 : ℕ) : ℚ) := by norm_num
    rw [value] at h
    exact h.toUInt64_eq (Int.floor_natCast _) hlt
  rw [remainder, toInt_toInt64_sub (by rw [hw]; push_cast; exact low)
    (by rw [hw]; push_cast; exact high), hw]
  push_cast
  rfl

/-- **The way back.** -/
theorem Timespec.Is.toNat_nanosecs {t : Timespec} {n : ℕ} (h : t.Is n) (hn : n < 2 ^ 53) :
    t.nanosecs.toNat = n := by
  have hsec := represents_nanosecs h.sec (by omega)
  have hnsec := represents_ofInt64 h.nsec
  have hsmall : n % 10 ^ 9 < 2 ^ 53 := by omega
  have hwhole : n / 10 ^ 9 * 10 ^ 9 < 2 ^ 53 := by omega
  have hsum : ((n / 10 ^ 9 : ℕ) : ℚ) * 10 ^ 9 + (n % 10 ^ 9 : ℕ) = n := by
    exact_mod_cast (by omega : n / 10 ^ 9 * 10 ^ 9 + n % 10 ^ 9 = n)
  rw [rounded_natCast (by norm_num) hsmall] at hnsec
  have h := hsec.add hnsec (by rw [hsum]; exact fits_natCast (by omega))
    (by exact_mod_cast rounded_natCast (p := 53) (by norm_num) hwhole)
    (rounded_natCast (by norm_num) hsmall)
  rw [hsum, rounded_natCast (by norm_num) hn] at h
  exact h.toUInt64_eq (Int.floor_natCast n) (by omega)

/-! ## What is set is slept, up to where the quotient is rounded to a whole second -/

theorem toInt_ofNanosecs {n : UInt64} {k : ℕ} (hk : k * 5 ^ 9 < 2 ^ 53)
    (low : (k : ℚ) ≤ quotient n.toNat) (high : quotient n.toNat < k + 1)
    (near : -10 ^ 9 ≤ (n.toNat : ℤ) - k * 10 ^ 9) (near' : (n.toNat : ℤ) - k * 10 ^ 9 < 10 ^ 9) :
    (Timespec.ofNanosecs n).tv_sec.toInt = k ∧
      (Timespec.ofNanosecs n).tv_nsec.toInt = (n.toNat : ℤ) - k * 10 ^ 9 := by
  have hsec := toInt_seconds (by omega) low high
  exact ⟨hsec, toInt_remainder hsec hk (by omega) (by omega)⟩

/-- A time is a nanosecond short of the next whole second as a double too: from `2 ^ 53` on only the
even ones are doubles, and the last of them is two short. -/
theorem rounded_short {n : ℕ} (hpos : 0 < n) (hn : n < 9007199999999999) :
    rounded 53 n ≤ ((n / 10 ^ 9 + 1 : ℕ) : ℚ) * 10 ^ 9 - 1 := by
  by_cases hexact : n < 2 ^ 53
  · rw [rounded_natCast (by norm_num) hexact, le_sub_iff_add_le]
    exact_mod_cast (by omega : n + 1 ≤ (n / 10 ^ 9 + 1) * 10 ^ 9)
  · have last : HasBits 53 (9007199999999998 : ℕ) :=
      ⟨4503599999999999, 1, by norm_num, by norm_num⟩
    have h := rounded_le (by norm_num) (show (0 : ℚ) < n by exact_mod_cast hpos) last
      (by exact_mod_cast (by omega : n ≤ 9007199999999998))
    rw [show n / 10 ^ 9 = 9007199 by omega]
    norm_num at h ⊢
    linarith

/-- **The time as a `timespec`** is the time, up to where a nanosecond short of a second is no
longer told from the second. -/
theorem is_ofNanosecs {n : UInt64} (hn : n.toNat < 9007199999999999) :
    (Timespec.ofNanosecs n).Is n.toNat := by
  have low := le_quotient (n := n.toNat) (k := n.toNat / 10 ^ 9) (by omega) (by omega)
  have high : quotient n.toNat < (n.toNat / 10 ^ 9 : ℕ) + 1 := by
    rcases Nat.eq_zero_or_pos n.toNat with h0 | hpos
    · rw [h0]
      norm_num [quotient]
    · exact_mod_cast quotient_lt (by omega) hpos (rounded_short hpos hn)
  obtain ⟨hsec, hnsec⟩ := toInt_ofNanosecs (by omega) low high (by omega) (by omega)
  exact ⟨hsec, by rw [hnsec]; omega⟩

/-- **No time is lost** beyond, but it may be a second and a negative rest. -/
theorem ofNanosecs_sum {n : UInt64} (hn : n.toNat < 2 ^ 61) :
    (Timespec.ofNanosecs n).tv_sec.toInt * 10 ^ 9 + (Timespec.ofNanosecs n).tv_nsec.toInt
      = n.toNat := by
  rcases Nat.eq_zero_or_pos n.toNat with h0 | hpos
  · obtain ⟨hsec, hnsec⟩ := is_ofNanosecs (n := n) (by omega)
    omega
  have low := le_quotient (n := n.toNat) (k := n.toNat / 10 ^ 9) (by omega) (by omega)
  have high := quotient_le (n := n.toNat) (k := n.toNat / 10 ^ 9 + 1) (by omega) hpos (by omega)
  rcases high.lt_or_eq with hlt | heq
  · obtain ⟨hsec, hnsec⟩ := toInt_ofNanosecs (by omega) low (by exact_mod_cast hlt) (by omega)
      (by omega)
    omega
  · obtain ⟨hsec, hnsec⟩ := toInt_ofNanosecs (k := n.toNat / 10 ^ 9 + 1) (by omega) heq.ge
      (by rw [heq]; linarith) (by omega) (by omega)
    omega

end Libult.Pthreads
