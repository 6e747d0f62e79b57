import Mathlib.Algebra.Order.Floor.Semifield
import Mathlib.Data.Nat.Log
import Shuffle3.Foundations.Counts
import Shuffle3.V2.Draws
import Shuffle3.V2.FullRange
import Shuffle3.V2.Methods
import Shuffle3.V2.Period

/-!
# How often xoroshiro128plus draws a number

In a period the low bits of the output take every value of 53 bits equally often. A draw is
monotone in them, so the values that make one draw lie between two thresholds. The rounded
product moves a threshold by less than one value, and so the number of values that make a
draw is within two of what it would be if all draws were alike.

## What is proved

* `threshold_near` — where the threshold of a draw is.
* `draws_fair` — how often a number is drawn in a period.
* `chance_frequency` — how often a chance is true.
* `bytes_spread` — which bytes are drawn, and how often.
-/

namespace Shuffle3.V2.Xoroshiro128plus

open Foundations Floating Counts Function

variable {s : Xoroshiro128plus} {i j n T : ℕ}

/-! ### Thresholds -/

/-- The powers of two around a number. -/
theorem exists_two_pow (hn : 0 < n) : ∃ e : ℕ, n ≤ 2 ^ e ∧ 2 ^ e < 2 * n := by
  rcases Nat.lt_or_ge 1 n with h1 | h1
  · obtain ⟨e, he⟩ := Nat.exists_eq_succ_of_ne_zero (Nat.clog_pos (b := 2) (by norm_num) h1).ne'
    have hpred := Nat.pow_pred_clog_lt_self (b := 2) (by norm_num) h1
    refine ⟨Nat.clog 2 n, Nat.le_pow_clog (by norm_num) n, ?_⟩
    rw [he, Nat.pred_succ] at hpred
    rw [he, Nat.pow_succ]
    omega
  · exact ⟨0, by omega, by omega⟩

/-- A draw from a number on comes of a value that is near the number or above it. -/
theorem le_threshold (hn : 0 < n) (h : n ≤ scaled (T / 2 ^ 53) i) : n * 2 ^ 53 ≤ T * i + n := by
  obtain ⟨e, hup, hdown⟩ := exists_two_pow hn
  have hnear := le_mul_of_le_scaled (e := e) (by positivity) (by exact_mod_cast hup)
    (by change (-1074 + 53 : ℤ) ≤ e; omega) h
  -- half the spacing below the number
  have hhalf : (2 : ℚ) ^ (e - binary64.prec - 1 : ℤ) * 2 ^ 53 * 2 = 2 ^ e := by
    rw [← zpow_natCast, ← zpow_natCast, ← zpow_add₀ (by norm_num), ← zpow_add_one₀ (by norm_num)]
    congr 1
    change (e - 53 - 1 + 53 + 1 : ℤ) = e
    ring
  have hdown' : (2 : ℚ) ^ e < 2 * n := by exact_mod_cast hdown
  have hprod : (n : ℚ) * 2 ^ 53 ≤ T * i + n := by
    rw [div_mul_eq_mul_div, le_div_iff₀ (by norm_num), sub_mul] at hnear
    linarith
  exact_mod_cast hprod

/-- A draw below a number comes of a value below it. -/
theorem threshold_lt (hn : n ≤ 2 ^ 53) {r : ℕ} (h : scaled (r / 2 ^ 53) i < n) : r * i < n * 2 ^ 53 := by
  have hprod := mul_lt_of_scaled_lt hn h
  rw [div_mul_eq_mul_div, div_lt_iff₀ (by norm_num)] at hprod
  exact_mod_cast hprod

/-- **The threshold of a draw is within one value of where exact products have it.** -/
theorem threshold_near (hpos : 0 < i) (hi : i ≤ 2 ^ 53) (hn : n ≤ i) (hT : T ≤ 2 ^ 53)
    (hiff : ∀ r : ℕ, r < 2 ^ 53 → (scaled (r / 2 ^ 53) i < n ↔ r < T)) :
    n * 2 ^ 53 ≤ T * i + n ∧ T * i < n * 2 ^ 53 + i := by
  refine ⟨?_, ?_⟩
  · rcases Nat.eq_zero_or_pos n with rfl | hn0
    · rw [Nat.zero_mul]
      exact Nat.zero_le _
    rcases hT.lt_or_eq with hlt | rfl
    · exact le_threshold hn0 (not_lt.mp fun h => lt_irrefl T ((hiff T hlt).mp h))
    · nlinarith
  · rcases Nat.eq_zero_or_pos T with rfl | hT0
    · omega
    · obtain ⟨r, rfl⟩ := Nat.exists_eq_succ_of_ne_zero hT0.ne'
      have hlt := threshold_lt (hn.trans hi) ((hiff r (by omega)).mpr (Nat.lt_succ_self r))
      rw [Nat.succ_mul]
      omega

theorem scaled_unit_mono (i : ℕ) : Monotone fun r : ℕ => scaled (r / 2 ^ 53) i := fun r t h =>
  scaled_mono (by positivity) (div_le_div_of_nonneg_right (by exact_mod_cast h) (by norm_num)) i

/-- How many values of 53 bits make a draw. -/
theorem card_scaled (hi : i ≤ 2 ^ 53) (hj : j < i) :
    2 ^ 53 < Nat.card { r // r < 2 ^ 53 ∧ scaled ((r : ℕ) / 2 ^ 53) i = j } * i + 2 * i ∧
      Nat.card { r // r < 2 ^ 53 ∧ scaled ((r : ℕ) / 2 ^ 53) i = j } * i < 2 ^ 53 + 2 * i := by
  obtain ⟨T, hT, hiff⟩ := exists_threshold (scaled_unit_mono i) (2 ^ 53) j
  obtain ⟨T', hT', hiff'⟩ := exists_threshold (scaled_unit_mono i) (2 ^ 53) (j + 1)
  obtain ⟨hlo, hhi⟩ := threshold_near (by omega) hi hj.le hT hiff
  obtain ⟨hlo', hhi'⟩ := threshold_near (by omega) hi hj hT' hiff'
  rw [card_eq_sub hiff hiff' hT', Nat.sub_mul]
  omega

/-- Where the bound divides the number of values, each draw is made by as many. -/
theorem card_scaled_of_dvd (hi : i ∣ 2 ^ 53) (hj : j < i) :
    Nat.card { r // r < 2 ^ 53 ∧ scaled ((r : ℕ) / 2 ^ 53) i = j } * i = 2 ^ 53 := by
  obtain ⟨k, hk, rfl⟩ := (Nat.dvd_prime_pow Nat.prime_two).mp hi
  have hpow : 2 ^ (53 - k) * 2 ^ k = 2 ^ 53 := by rw [← pow_add, Nat.sub_add_cancel hk]
  -- the product is exact
  have hscaled : ∀ r : ℕ, r < 2 ^ 53 → scaled (r / 2 ^ 53) (2 ^ k) = r / 2 ^ (53 - k) := by
    intro r hr
    have hself := binary64.rnd_natCast_mul_zpow (m := r) (e := k - 53) hr (by change (-1074 : ℤ) ≤ k - 53; omega)
    have hprod : (r : ℚ) / 2 ^ 53 * (2 ^ k : ℕ) = r * 2 ^ (k - 53 : ℤ) := by
      rw [zpow_sub₀ (by norm_num), zpow_natCast, div_mul_eq_mul_div, mul_div_assoc]
      push_cast
      norm_num
    have hquot : (r : ℚ) * 2 ^ (k - 53 : ℤ) = r / (2 ^ (53 - k) : ℕ) := by
      rw [← neg_sub, zpow_neg, ← div_eq_mul_inv]
      congr 1
      push_cast
      rw [← zpow_natCast, Nat.cast_sub hk]
      norm_num
    rw [scaled, hprod, hself, hquot, Nat.floor_div_natCast, Nat.floor_natCast]
  have hcard : Nat.card { r // r < 2 ^ 53 ∧ scaled ((r : ℕ) / 2 ^ 53) (2 ^ k) = j } =
      (j + 1) * 2 ^ (53 - k) - j * 2 ^ (53 - k) := by
    refine card_of_iff (fun r hr => ?_) ?_
    · rw [hscaled r hr, ← Nat.le_div_iff_mul_le (by positivity), ← Nat.div_lt_iff_lt_mul (by positivity)]
      omega
    · calc (j + 1) * 2 ^ (53 - k) ≤ 2 ^ k * 2 ^ (53 - k) := Nat.mul_le_mul_right _ hj
        _ = 2 ^ 53 := by rw [mul_comm, hpow]
  rw [hcard, Nat.succ_mul, Nat.add_sub_cancel_left, hpow]

/-! ### In a period -/

theorem scaled_zero (i : ℕ) : scaled 0 i = 0 := by simp [scaled]

/-- How often the samples of a period make a draw. -/
theorem card_scaled_steps (h : s ≠ 0) (i j : ℕ) :
    Nat.card { n // n < 2 ^ 128 - 1 ∧ scaled (lowBits (next (step^[n] s)).1 / 2 ^ 53) i = j } =
      Nat.card { r // r < 2 ^ 53 ∧ scaled ((r : ℕ) / 2 ^ 53) i = j } * 2 ^ 75 - if j = 0 then 1 else 0 := by
  rw [card_steps h fun r => scaled (r / 2 ^ 53) i = j]
  simp only [Nat.cast_zero, zero_div, scaled_zero, eq_comm]

/-- **In a period the draws for a bound are almost evenly spread.** Each number below the
bound is drawn by as many values of the low bits as there would be in an even spread, give or
take less than two; where the bound is a power of two the spread is even. Each value is met
`2 ^ 75` times, but for the state `(0, 0)`, which would draw zero. -/
theorem draws_fair (h : s ≠ 0) (hi : i ≤ 2 ^ 53) (hj : j < i) : ∃ c, 2 ^ 53 < c * i + 2 * i ∧
    c * i < 2 ^ 53 + 2 * i ∧ (i ∣ 2 ^ 53 → c * i = 2 ^ 53) ∧
    Nat.card { n // n < 2 ^ 128 - 1 ∧
      (nextLong sample i (step^[n] s)).map Prod.fst = some (BitVec.ofNat 64 j) } =
        c * 2 ^ 75 - if j = 0 then 1 else 0 := by
  obtain ⟨hlo, hhi⟩ := card_scaled hi hj
  refine ⟨_, hlo, hhi, fun hdvd => card_scaled_of_dvd hdvd hj, ?_⟩
  rw [← card_scaled_steps h]
  have hdraw : ∀ t, (nextLong sample i t).map Prod.fst = some (BitVec.ofNat 64 j) ↔
      scaled (lowBits (next t).1 / 2 ^ 53) i = j := by
    intro t
    have hlt : outputDraw i (next t).1 < i := outputDraw_lt (by omega) _
    rw [nextLong_eq_outputDraw hi, Option.map_some, Option.some.injEq]
    refine ⟨fun he => ?_, fun he => congrArg (BitVec.ofNat 64) he⟩
    have hval := congrArg BitVec.toNat he
    rw [BitVec.toNat_ofNat, BitVec.toNat_ofNat, Nat.mod_eq_of_lt (by omega), Nat.mod_eq_of_lt (by omega)] at hval
    exact hval
  simp only [hdraw]

/-- Draws for a bound of three. -/
theorem draws_fair_three : ∃ c, 2 ^ 53 < c * 3 + 2 * 3 ∧ c * 3 < 2 ^ 53 + 2 * 3 ∧ (3 ∣ 2 ^ 53 → c * 3 = 2 ^ 53) ∧
    Nat.card { n // n < 2 ^ 128 - 1 ∧
      (nextLong sample 3 (step^[n] ⟨1, 0⟩)).map Prod.fst = some (BitVec.ofNat 64 2) } =
        c * 2 ^ 75 - if 2 = 0 then 1 else 0 :=
  draws_fair (by decide) (by norm_num) (by norm_num)

/-- A chance is true for the samples up to it. -/
theorem chance_eq_true_iff {d : Double} (hd : d.finite) (hpos : 0 < d.val) (t : Xoroshiro128plus) :
    (chance sample d t).1 = true ↔ lowBits (next t).1 < ⌊d.val * 2 ^ 53⌋₊ + 1 := by
  obtain ⟨hzfin, hzval⟩ := ofInt_exact (k := 0) (by norm_num)
  push_cast at hzfin hzval
  obtain ⟨hfin, hval⟩ := sample_eq t
  have hle : d.le (ofInt binary64 0) = false := by
    rw [Bool.eq_false_iff, ne_eq, le_iff_val hd hzfin, hzval]
    exact not_le.mpr hpos
  have hchance : (chance sample d t).1 = (sample t).1.le d := by rw [chance, hle]; rfl
  rw [hchance, le_iff_val hfin hd, hval, div_le_iff₀ (by norm_num), Nat.lt_succ_iff,
    Nat.le_floor_iff (by positivity)]

/-- **How often a chance is true in a period.** The sample zero is below every chance and a
sample can be equal to it, so that a chance of a half is true a little more often than not.
A chance of zero or less, minus infinity too, is never true, and draws nothing. -/
theorem chance_frequency (h : s ≠ 0) :
    (∀ d : Double, d.finite → 0 < d.val →
      Nat.card { n // n < 2 ^ 128 - 1 ∧ (chance sample d (step^[n] s)).1 = true } =
        min (2 ^ 53) (⌊d.val * 2 ^ 53⌋₊ + 1) * 2 ^ 75 - 1) ∧
    (∀ d : Double, d = .inf true ∨ d.finite ∧ d.val ≤ 0 → ∀ t, chance sample d t = (false, t)) ∧
    Nat.card { n // n < 2 ^ 128 - 1 ∧ (chanceHalf sample (step^[n] s)).1 = true } = (2 ^ 52 + 1) * 2 ^ 75 - 1 := by
  have hfrequency : ∀ d : Double, d.finite → 0 < d.val →
      Nat.card { n // n < 2 ^ 128 - 1 ∧ (chance sample d (step^[n] s)).1 = true } =
        min (2 ^ 53) (⌊d.val * 2 ^ 53⌋₊ + 1) * 2 ^ 75 - 1 := by
    intro d hd hpos
    have hcount : Nat.card { r // r < 2 ^ 53 ∧ r < ⌊d.val * 2 ^ 53⌋₊ + 1 } =
        min (2 ^ 53) (⌊d.val * 2 ^ 53⌋₊ + 1) := by
      have hmem : ∀ r < 2 ^ 53, r < ⌊d.val * 2 ^ 53⌋₊ + 1 ↔
          0 ≤ r ∧ r < min (2 ^ 53) (⌊d.val * 2 ^ 53⌋₊ + 1) := fun r hr => by omega
      rw [card_of_iff hmem (min_le_left _ _), Nat.sub_zero]
    simp only [chance_eq_true_iff hd hpos]
    rw [card_steps h fun r => r < ⌊d.val * 2 ^ 53⌋₊ + 1, hcount, if_pos (Nat.succ_pos _)]
  refine ⟨hfrequency, fun d hd t => ?_, ?_⟩
  · obtain ⟨hzfin, hzval⟩ := ofInt_exact (k := 0) (by norm_num)
    push_cast at hzfin hzval
    have hzero : d.le (ofInt binary64 0) = true := by
      rcases hd with rfl | ⟨hfin, hle⟩
      · exact inf_le_of_finite hzfin
      · exact (le_iff_val hfin hzfin).mpr (by rwa [hzval])
    rw [chance, hzero]
    rfl
  · obtain ⟨hfin, hval⟩ := half_exact
    have hhalf := hfrequency _ hfin (by rw [hval]; norm_num)
    rw [hval] at hhalf
    have hfloor : ⌊(5 / 10 : ℚ) * 2 ^ 53⌋₊ = 2 ^ 52 := by
      have hq : (5 / 10 : ℚ) * 2 ^ 53 = (2 ^ 52 : ℕ) := by norm_num
      rw [hq, Nat.floor_natCast]
    rw [hfloor, min_eq_right (by norm_num)] at hhalf
    exact hhalf

theorem chance_frequency_one :
    (∀ d : Double, d.finite → 0 < d.val →
      Nat.card { n // n < 2 ^ 128 - 1 ∧ (chance sample d (step^[n] ⟨1, 0⟩)).1 = true } =
        min (2 ^ 53) (⌊d.val * 2 ^ 53⌋₊ + 1) * 2 ^ 75 - 1) ∧
    (∀ d : Double, d = .inf true ∨ d.finite ∧ d.val ≤ 0 → ∀ t, chance sample d t = (false, t)) ∧
    Nat.card { n // n < 2 ^ 128 - 1 ∧ (chanceHalf sample (step^[n] ⟨1, 0⟩)).1 = true } =
      (2 ^ 52 + 1) * 2 ^ 75 - 1 :=
  chance_frequency (by decide)

/-- **Bytes are any but the greatest.** A byte is a draw for the bound 255, so that runs of
bytes never have the byte 255; in a period the others are spread as draws are. -/
theorem bytes_spread (h : s ≠ 0) :
    (∀ (len : ℕ) (t : Xoroshiro128plus), ∃ bs, bytes sample len t = some (bs, step^[len] t) ∧
      bs.length = len ∧ 255#8 ∉ bs) ∧
    ∀ b < 255, ∃ c, 2 ^ 53 < c * 255 + 2 * 255 ∧ c * 255 < 2 ^ 53 + 2 * 255 ∧
      Nat.card { n // n < 2 ^ 128 - 1 ∧ (byte sample (step^[n] s)).map Prod.fst = some (BitVec.ofNat 8 b) } =
        c * 2 ^ 75 - if b = 0 then 1 else 0 := by
  have hbyte : ∀ t, scaled (sample t).1.val 255 < 255 := fun t => by
    obtain ⟨-, h0, h1⟩ := sample_below t
    exact scaled_lt h0 h1 (by norm_num)
  refine ⟨fun len t => ⟨_, bytes_eq (P := fun _ => True) (fun t _ =>
    ⟨sample_between t, trivial⟩) len trivial, ?_, ?_⟩,
    fun b hb => ?_⟩
  · rw [List.length_map, List.length_range]
  · simp only [List.mem_map, not_exists, not_and]
    intro n _ he
    have hval := congrArg BitVec.toNat he
    have hlt := hbyte (after sample n t)
    rw [BitVec.toNat_ofNat, BitVec.toNat_ofNat] at hval
    omega
  · obtain ⟨hlo, hhi⟩ := card_scaled (i := 255) (by norm_num) hb
    refine ⟨_, hlo, hhi, ?_⟩
    rw [← card_scaled_steps h]
    have hdraw : ∀ t, (byte sample t).map Prod.fst = some (BitVec.ofNat 8 b) ↔
        scaled (lowBits (next t).1 / 2 ^ 53) 255 = b := by
      intro t
      have hlt := hbyte t
      rw [byte_eq (sample_between t), Option.map_some, Option.some.injEq, ← (sample_eq t).2]
      refine ⟨fun he => ?_, fun he => congrArg (BitVec.ofNat 8) he⟩
      have hval := congrArg BitVec.toNat he
      rw [BitVec.toNat_ofNat, BitVec.toNat_ofNat] at hval
      omega
    simp only [hdraw]

theorem bytes_spread_one :
    (∀ (len : ℕ) (t : Xoroshiro128plus), ∃ bs, bytes sample len t = some (bs, step^[len] t) ∧
      bs.length = len ∧ 255#8 ∉ bs) ∧
    ∀ b < 255, ∃ c, 2 ^ 53 < c * 255 + 2 * 255 ∧ c * 255 < 2 ^ 53 + 2 * 255 ∧
      Nat.card { n // n < 2 ^ 128 - 1 ∧ (byte sample (step^[n] ⟨1, 0⟩)).map Prod.fst = some (BitVec.ofNat 8 b) } =
        c * 2 ^ 75 - if b = 0 then 1 else 0 :=
  bytes_spread (by decide)

end Shuffle3.V2.Xoroshiro128plus
