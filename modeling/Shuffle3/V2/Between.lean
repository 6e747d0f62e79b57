import Shuffle3.V2.Ranges

/-!
# Draws between two bounds

`RNG::next_int(min, max)` and `RNG::next_long(min, max)` scale a sample to the
difference of the bounds and add the lower one, the difference and the sum in the
width of the bounds. For samples below one neither the conversion of the difference
to `double` nor the rounding of the product reaches the upper bound. The difference
is negative where it overflows, and from there only a zero draws between the bounds.

## What is proved

* `inside_iff` — which offsets from the lower bound are between the bounds.
* `nextBetween_eq_of_lt` — what a sample of 53 bits draws.
* `between_inside_iff` — where it is between the bounds.
* `next_inside` — a draw with one bound always is.
-/

namespace Shuffle3.V2

open Foundations Floating

/-! ### Words -/

section Words

variable {w : ℕ} {min max : BitVec w}

theorem two_pow_width (hw : 0 < w) : ((2 ^ w : ℕ) : ℤ) = 2 * 2 ^ (w - 1) := by
  rw [Nat.cast_pow, ← pow_succ', Nat.sub_add_cancel hw]
  rfl

/-- The difference of two words, as its width has it. -/
theorem toInt_sub_eq (hw : 0 < w) (h : min.toInt < max.toInt) :
    (max - min).toInt = if max.toInt - min.toInt < 2 ^ (w - 1) then max.toInt - min.toInt
      else max.toInt - min.toInt - 2 * 2 ^ (w - 1) := by
  have hpow := two_pow_width hw
  have hmin := BitVec.le_toInt (x := min)
  have hmax := BitVec.toInt_lt (x := max)
  rw [BitVec.toInt_sub]
  split_ifs with hlt
  · exact Int.bmod_eq_of_le_mul_two (by omega) (by omega)
  · rw [← hpow, ← Int.sub_bmod_right]
    exact Int.bmod_eq_of_le_mul_two (by omega) (by omega)

/-- **Where an offset takes the lower bound.** An offset between zero and the difference stays
between the bounds where the difference does not overflow, and where it does only zero does. -/
theorem inside_iff (hw : 0 < w) (h : min.toInt < max.toInt) {f : ℤ}
    (hpos : 0 < (max - min).toInt → 0 ≤ f ∧ f < (max - min).toInt)
    (hneg : (max - min).toInt < 0 → (max - min).toInt ≤ f ∧ f ≤ 0) :
    (min.toInt ≤ (BitVec.ofInt w f + min).toInt ∧ (BitVec.ofInt w f + min).toInt < max.toInt) ↔
      f = 0 ∨ max.toInt - min.toInt < 2 ^ (w - 1) := by
  have hpow := two_pow_width hw
  have hmin := BitVec.le_toInt (x := min)
  have hmax := BitVec.toInt_lt (x := max)
  have hsum : (BitVec.ofInt w f + min).toInt = (f + min.toInt).bmod (2 ^ w) := by
    rw [BitVec.toInt_add, BitVec.toInt_ofInt, Int.bmod_add_bmod]
  rw [toInt_sub_eq hw h] at hpos hneg
  rw [hsum]
  split_ifs at hpos hneg with hlt
  · -- the sum does not wrap
    obtain ⟨h0, hd⟩ := hpos (by omega)
    rw [Int.bmod_eq_of_le_mul_two (by omega) (by omega)]
    omega
  · obtain ⟨hd, h0⟩ := hneg (by omega)
    rcases le_or_gt (-2 ^ (w - 1)) (f + min.toInt) with hge | hbelow
    · rw [Int.bmod_eq_of_le_mul_two (by omega) (by omega)]
      omega
    · -- the sum wraps, to the upper bound or above it
      rw [← Int.add_bmod_right, Int.bmod_eq_of_le_mul_two (by omega) (by omega)]
      omega

end Words

/-! ### The offset from the lower bound -/

section Offset

variable {q : ℚ} {d : ℤ}

/-- An integer other than zero is rounded to a number from one on. -/
theorem one_le_rnd {n : ℕ} (hn : 0 < n) : 1 ≤ binary64.rnd n := by
  have h := binary64.rnd_mono zero_le_one (Nat.one_le_cast.mpr hn)
  have h1 := rnd_natCast (n := 1) (by norm_num)
  rw [Nat.cast_one] at h1
  rwa [h1] at h

/-- **A sample below one makes a product below the difference**, however it is rounded. -/
theorem rnd_sample_lt {n : ℕ} (hq : 0 ≤ q) (hq1 : q ≤ 1 - 2 ^ (-53 : ℤ)) (hn : 0 < n) :
    binary64.rnd (q * binary64.rnd n) < n :=
  binary64.rnd_mul_rnd_lt hq hq1 (Nat.cast_nonneg n)
    (normal_lt_one.trans_le (one_le_rnd hn))

theorem offset_of_pos {n : ℕ} (hq : 0 ≤ q) : offset q n = ⌊binary64.rnd (q * binary64.rnd n)⌋ := by
  have hn := binary64.rnd_nonneg (Nat.cast_nonneg n)
  rw [offset, Int.cast_natCast, Format.near_of_nonneg (Nat.cast_nonneg n),
    Format.near_of_nonneg (mul_nonneg hq hn)]

theorem offset_of_neg {n : ℕ} (hq : 0 ≤ q) :
    offset q (-n) = -⌈binary64.rnd (q * binary64.rnd n)⌉ := by
  have hn := binary64.rnd_nonneg (Nat.cast_nonneg n)
  rw [offset, Int.cast_neg, Int.cast_natCast, Format.near_neg, Format.near_of_nonneg (Nat.cast_nonneg n),
    mul_neg, Format.near_neg, Format.near_of_nonneg (mul_nonneg hq hn), Int.floor_neg]

/-- A positive difference has its offsets below it. -/
theorem offset_lt (hq : 0 ≤ q) (hq1 : q ≤ 1 - 2 ^ (-53 : ℤ)) (hd : 0 < d) :
    0 ≤ offset q d ∧ offset q d < d := by
  obtain ⟨n, rfl⟩ := Int.eq_ofNat_of_zero_le hd.le
  have hpos := mul_nonneg hq (binary64.rnd_nonneg (Nat.cast_nonneg n))
  rw [offset_of_pos hq]
  exact ⟨Int.floor_nonneg.mpr (binary64.rnd_nonneg hpos),
    Int.floor_lt.mpr (by exact_mod_cast rnd_sample_lt hq hq1 (by omega))⟩

/-- A negative difference has its offsets from it on. -/
theorem le_offset (hq : 0 ≤ q) (hq1 : q ≤ 1 - 2 ^ (-53 : ℤ)) (hd : d < 0) :
    d ≤ offset q d ∧ offset q d ≤ 0 := by
  obtain ⟨n, rfl⟩ := Int.exists_eq_neg_ofNat hd.le
  have hpos := mul_nonneg hq (binary64.rnd_nonneg (Nat.cast_nonneg n))
  rw [offset_of_neg hq]
  exact ⟨neg_le_neg (Int.ceil_le.mpr (by exact_mod_cast (rnd_sample_lt hq hq1 (by omega)).le)),
    neg_nonpos.mpr (Int.ceil_nonneg (binary64.rnd_nonneg hpos))⟩

/-- A negative difference has an offset of zero only for a sample of zero. -/
theorem offset_eq_zero_iff {k : ℕ} (hk : k < 2 ^ 53) (hd : d < 0) :
    offset (k / 2 ^ 53) d = 0 ↔ k = 0 := by
  obtain ⟨n, rfl⟩ := Int.exists_eq_neg_ofNat hd.le
  constructor
  · intro h
    by_contra! hne
    rw [offset_of_neg (by positivity), neg_eq_zero, Int.ceil_eq_zero_iff] at h
    have hone := one_le_rnd (n := n) (by omega)
    have hk1 : (1 : ℚ) ≤ k := by exact_mod_cast Nat.one_le_iff_ne_zero.mpr hne
    have hle : ((1 : ℕ) : ℚ) * 2 ^ (-53 : ℤ) ≤ k / 2 ^ 53 * binary64.rnd n := by
      rw [Nat.cast_one, one_mul, zpow_neg, div_eq_mul_inv, mul_right_comm]
      exact le_mul_of_one_le_left (by positivity) (one_le_mul_of_one_le_of_one_le hk1 hone)
    have hrnd := binary64.le_rnd (by decide) (by decide) hle
    have hpos : (0 : ℚ) < (1 : ℕ) * 2 ^ (-53 : ℤ) := by positivity
    exact absurd (hpos.trans_le hrnd) (not_lt.mpr h.2)
  · rintro rfl
    rw [Nat.cast_zero, zero_div, offset_zero_left]

end Offset

/-! ### A draw -/

section Draw

variable {σ : Type} {sample : Sample σ} {s : σ} {k w : ℕ}

/-- The offset fits where the difference does. -/
theorem offset_mem {q : ℚ} {d : ℤ} (hq : 0 ≤ q) (hq1 : q ≤ 1 - 2 ^ (-53 : ℤ))
    (hlo : -2 ^ (w - 1) ≤ d) (hhi : d < 2 ^ (w - 1)) :
    -2 ^ (w - 1) ≤ offset q d ∧ offset q d < 2 ^ (w - 1) := by
  rcases lt_trichotomy d 0 with hd | rfl | hd
  · have := le_offset hq hq1 hd
    omega
  · rw [offset_zero_right]
    omega
  · have := offset_lt hq hq1 hd
    omega

/-- **What a sample of 53 bits draws** between two bounds. -/
theorem nextBetween_eq_of_lt (hw : w ≤ 64) (hk : k < 2 ^ 53) (hfin : (sample s).1.finite)
    (hval : (sample s).1.val = k / 2 ^ 53) (min max : BitVec w) :
    nextBetween w sample min max s =
      some (BitVec.ofInt w (offset (k / 2 ^ 53) (max - min).toInt) + min, (sample s).2) := by
  have hq : (0 : ℚ) ≤ k / 2 ^ 53 := by positivity
  have hq1 := sample_le hk
  obtain ⟨hlo, hhi⟩ :=
    offset_mem hq hq1 (BitVec.le_toInt (x := max - min)) (BitVec.toInt_lt (x := max - min))
  rw [← hval] at hq hq1 hlo hhi ⊢
  exact nextBetween_eq hw ⟨hfin, hq, hq1.trans (by norm_num)⟩ hlo hhi

/-- What is drawn is between the bounds. -/
def Inside (min max : BitVec w) (drawn : Option (BitVec w × σ)) : Prop :=
  ∃ j s, drawn = some (j, s) ∧ min.toInt ≤ j.toInt ∧ j.toInt < max.toInt

/-- A draw is between the bounds unless their difference overflows, and then for a sample of
zero alone. -/
theorem nextBetween_inside_iff (hpos : 0 < w) (hw : w ≤ 64) (hk : k < 2 ^ 53)
    (hfin : (sample s).1.finite) (hval : (sample s).1.val = k / 2 ^ 53) {min max : BitVec w}
    (h : min.toInt < max.toInt) :
    Inside min max (nextBetween w sample min max s) ↔
      k = 0 ∨ max.toInt - min.toInt < 2 ^ (w - 1) := by
  have hq : (0 : ℚ) ≤ k / 2 ^ 53 := by positivity
  have hq1 := sample_le hk
  have hinside := inside_iff hpos h (fun hd => offset_lt hq hq1 hd) fun hd => le_offset hq hq1 hd
  rw [nextBetween_eq_of_lt hw hk hfin hval]
  constructor
  · rintro ⟨_, _, heq, hj⟩
    cases heq
    refine (or_congr_left' fun hge => ?_).mp (hinside.mp hj)
    refine offset_eq_zero_iff hk ?_
    have hsub := toInt_sub_eq hpos h
    rw [if_neg hge] at hsub
    have hmin := BitVec.le_toInt (x := min)
    have hmax := BitVec.toInt_lt (x := max)
    omega
  · intro hor
    refine ⟨_, _, rfl, hinside.mpr (hor.imp_left ?_)⟩
    rintro rfl
    rw [Nat.cast_zero, zero_div, offset_zero_left]

/-- **A draw with one bound is below it**: from zero the difference does not overflow. -/
theorem next_inside (hk : k < 2 ^ 53) (hfin : (sample s).1.finite)
    (hval : (sample s).1.val = k / 2 ^ 53) :
    (∀ max : BitVec 32, 0 < max.toInt → Inside 0#32 max (nextInt sample max s)) ∧
    ∀ i : ℕ, 0 < i → i < 2 ^ 63 → Inside 0#64 (BitVec.ofNat 64 i) (nextLong sample i s) := by
  refine ⟨fun max h => ?_, fun i hpos hi => ?_⟩
  · refine (nextBetween_inside_iff (by norm_num) (by norm_num) hk hfin hval (by simpa using h)).mpr
      (.inr ?_)
    simpa using BitVec.toInt_lt (x := max)
  · have hint : (BitVec.ofNat 64 i).toInt = i := by
      rw [BitVec.toInt_ofNat', Int.bmod_eq_of_le] <;> omega
    rw [nextLong, nextLongBetween_eq]
    refine (nextBetween_inside_iff (by norm_num) le_rfl hk hfin hval ?_).mpr (.inr ?_) <;>
    · rw [hint, BitVec.toInt_zero]
      omega

/-- A draw that is outside of the bounds. -/
theorem not_inside {min max j : BitVec w} {drawn : Option (BitVec w × σ)}
    (h : drawn.map Prod.fst = some j) (hj : j.toInt < min.toInt ∨ max.toInt ≤ j.toInt) :
    ¬ Inside min max drawn := by
  rintro ⟨j', s, rfl, hlo, hhi⟩
  obtain rfl : j' = j := Option.some.inj h
  omega

/-- **A draw of `next_int` or `next_long` is between its bounds** exactly where their difference
does not overflow or the sample is zero. -/
theorem between_inside_iff (hk : k < 2 ^ 53) (hfin : (sample s).1.finite)
    (hval : (sample s).1.val = k / 2 ^ 53) :
    (∀ min max : BitVec 32, min.toInt < max.toInt →
      (Inside min max (nextIntBetween sample min max s) ↔ k = 0 ∨ max.toInt - min.toInt < 2 ^ 31)) ∧
    ∀ min max : BitVec 64, min.toInt < max.toInt →
      (Inside min max (nextLongBetween sample min max s) ↔ k = 0 ∨ max.toInt - min.toInt < 2 ^ 63) := by
  refine ⟨fun min max h => ?_, fun min max h => ?_⟩
  · exact nextBetween_inside_iff (by norm_num) (by norm_num) hk hfin hval h
  · rw [nextLongBetween_eq]
    exact nextBetween_inside_iff (by norm_num) le_rfl hk hfin hval h

end Draw

namespace Xoroshiro128plus

/-- A state with the sample `1/2`. -/
def half : Xoroshiro128plus := ⟨1#64 <<< 52, 0⟩

theorem sample_half :
    (sample half).1.finite ∧ (sample half).1.val = ((2 ^ 52 : ℕ) : ℚ) / 2 ^ 53 := by
  have hbits : lowBits (next half).1 = 2 ^ 52 := by decide
  have h := sample_eq half
  rwa [hbits] at h

/-- Half of the way from -10 to 10, and half of the way from the least to the greatest word. -/
theorem between_inside_iff_half :
    Inside (-10) 10 (nextLongBetween sample (-10) 10 half) ∧
    ¬ Inside (BitVec.intMin 32) (BitVec.intMax 32)
      (nextIntBetween sample (BitVec.intMin 32) (BitVec.intMax 32) half) := by
  obtain ⟨hfin, hval⟩ := sample_half
  obtain ⟨hint, hlong⟩ := between_inside_iff (by norm_num) hfin hval
  exact ⟨(hlong (-10) 10 (by decide)).mpr (.inr (by decide)),
    mt (hint (BitVec.intMin 32) (BitVec.intMax 32) (by decide)).mp (by decide)⟩

/-- With the sample `1/2` `next_int` draws -2147483648 between two billion either side of zero, and
`next_long` the least word between six quintillion either side. -/
theorem not_inside_wide :
    ((sample half).1.finite ∧ (sample half).1.val = ((2 ^ 52 : ℕ) : ℚ) / 2 ^ 53) ∧
    ((nextIntBetween sample (-2000000000) 2000000000 half).map Prod.fst = some (-2147483648) ∧
      ¬ Inside (-2000000000) 2000000000 (nextIntBetween sample (-2000000000) 2000000000 half)) ∧
    (nextLongBetween sample (-6000000000000000000) 6000000000000000000 half).map Prod.fst =
        some (-9223372036854775808) ∧
      ¬ Inside (-6000000000000000000) 6000000000000000000
        (nextLongBetween sample (-6000000000000000000) 6000000000000000000 half) := by
  have hint : (nextIntBetween sample (-2000000000) 2000000000 half).map Prod.fst =
      some (-2147483648) := by decide +kernel
  have hlong : (nextLongBetween sample (-6000000000000000000) 6000000000000000000 half).map Prod.fst =
      some (-9223372036854775808) := by decide +kernel
  exact ⟨sample_half, ⟨hint, not_inside hint (.inl (by decide))⟩, hlong,
    not_inside hlong (.inl (by decide))⟩

end Xoroshiro128plus

end Shuffle3.V2
