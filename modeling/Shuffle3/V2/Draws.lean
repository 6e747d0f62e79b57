import Mathlib.Tactic.IntervalCases
import Shuffle3.V2.Ranges

/-!
# The draws of `drng`

A draw of `drng` is a value of `rand_r` over `RAND_MAX`, scaled to the bound and rounded
down. `RAND_MAX` is one less than a power of two, so the bits of the quotient are those of
the value, twice over, and the sample is known exactly (`randSample_eq`). What the second
rounding does is said by two tests in whole numbers: a draw is a number at least, or less,
only if the product is near it or far from it by half the spacing there.

## What is proved

* `Drng.nextLong_eq` — the draw that a value of `rand_r` makes.
* `randSample_eq`, `randSample_eq_of_le` — the sample of a value.
* `le_add_of_le_randDraw`, `add_le_of_randDraw_lt` — the two tests of a draw.
-/

namespace Shuffle3.V2

open Foundations Floating

/-! ### The draw of a value -/

/-- The sample that `drng` makes of a value of `rand_r`. -/
def randSample (v : ℕ) : ℚ := binary64.rnd (v / (2 ^ 31 - 1))

/-- The draw that a value of `rand_r` makes for the bound `i`. -/
def randDraw (i v : ℕ) : ℕ := scaled (randSample v) i

theorem randMax_toInt : randMax.toInt = ((2 ^ 31 - 1 : ℕ) : ℤ) := by decide

/-- **What `drng` draws with a value of `rand_r`.** -/
theorem Drng.nextLong_eq {L : Libc} {s : Drng} {i v : ℕ} (hv : v ≤ 2 ^ 31 - 1)
    (hval : (L.randR s.state).1 = BitVec.ofNat 32 v) (hi : i ≤ 2 ^ 53) :
    (nextLong (Drng.sample L) i s).map Prod.fst = some (BitVec.ofNat 64 (randDraw i v)) := by
  have hint : (L.randR s.state).1.toInt = v := by
    rw [hval, BitVec.toInt_ofNat', Int.bmod_eq_of_le] <;> omega
  have hs : Between 0 1 (Drng.sample L s).1 := between_randMax (by rw [hint]; omega)
  obtain ⟨hvfin, hvval⟩ := ofInt_exact (k := v) (by omega)
  obtain ⟨hmfin, hmval⟩ := ofInt_exact (k := 2 ^ 31 - 1) (by norm_num)
  have hm : (((2 ^ 31 - 1 : ℕ) : ℕ) : ℚ) = 2 ^ 31 - 1 := by norm_num
  have hdiv := rounds_div hvfin hmfin (by rw [hmval, hm]; norm_num)
  rw [hvval, hmval, hm] at hdiv
  have hsample : (Drng.sample L s).1 = (ofInt binary64 v).div (ofInt binary64 (2 ^ 31 - 1 : ℕ)) := by
    rw [← hint, ← randMax_toInt]
    rfl
  have hq : (Drng.sample L s).1.val = randSample v := by
    rw [hsample] at hs ⊢
    exact hdiv.val_eq (by positivity) hs.1
  rw [V2.nextLong_eq hs hi, hq]
  rfl

/-! ### Samples -/

theorem randSample_mono : Monotone randSample := fun v w h =>
  binary64.rnd_mono (by positivity) (div_le_div_of_nonneg_right (by exact_mod_cast h) (by norm_num))

theorem randSample_zero : randSample 0 = 0 := by simp [randSample]

theorem randSample_max : randSample (2 ^ 31 - 1) = 1 := by
  have h1 := has_one.1
  have hq : (((2 ^ 31 - 1 : ℕ) : ℚ) / (2 ^ 31 - 1)) = 1 := by norm_num
  rw [abs_one] at h1
  rw [randSample, hq, h1]

theorem randSample_nonneg (v : ℕ) : 0 ≤ randSample v := binary64.rnd_nonneg (by positivity)

theorem randSample_le_one {v : ℕ} (hv : v ≤ 2 ^ 31 - 1) : randSample v ≤ 1 :=
  randSample_max ▸ randSample_mono hv

/-- How far a sample is from the quotient. -/
theorem abs_randSample_sub_le {v : ℕ} (hv : v ≤ 2 ^ 31 - 1) :
    |randSample v - v / (2 ^ 31 - 1)| ≤ 2 ^ (-54 : ℤ) := by
  rcases hv.lt_or_eq with hlt | rfl
  · have hq : (v : ℚ) / (2 ^ 31 - 1) < 2 ^ (0 : ℤ) := by
      have hv' : (v : ℚ) < ((2 ^ 31 - 1 : ℕ) : ℚ) := by exact_mod_cast hlt
      rw [zpow_zero, div_lt_one (by norm_num)]
      exact hv'.trans_eq (by norm_num)
    have herr := binary64.abs_rnd_sub_le (by positivity) hq (by decide)
    have hexp : (0 : ℤ) - binary64.prec - 1 = -54 := rfl
    rwa [hexp] at herr
  · rw [randSample_max]
    norm_num

/-! ### Samples, exactly -/

/-- The sample of a value between two powers of two is the number of units that is nearest. -/
theorem randSample_eq_div {m p v k : ℕ} (hmp : m + p = 83) (hlo : 2 ^ m ≤ v) (hhi : v < 2 ^ (m + 1))
    (hv : v < 2 ^ 31 - 1) (hup : 2 * (v * 2 ^ p) < (2 ^ 31 - 1) * (2 * k + 1))
    (hdown : (2 ^ 31 - 1) * (2 * k) < 2 * (v * 2 ^ p) + (2 ^ 31 - 1)) :
    randSample v = (k : ℚ) / 2 ^ p := by
  have hm : m ≤ 30 := by
    by_contra! h
    have hle : 2 ^ 31 ≤ 2 ^ m := Nat.pow_le_pow_right (by norm_num) h
    omega
  have hpow : (2 : ℚ) ^ (m - 31 : ℤ) = 2 ^ m / 2 ^ 31 := by
    rw [zpow_sub₀ (by norm_num), zpow_natCast]
    norm_num
  have hlow : (2 : ℚ) ^ (m - 31 : ℤ) ≤ v / (2 ^ 31 - 1) := by
    have h : (2 : ℚ) ^ m ≤ v := by exact_mod_cast hlo
    rw [hpow, div_le_div_iff₀ (by norm_num) (by norm_num)]
    linarith [pow_pos (by norm_num : (0 : ℚ) < 2) m]
  have hhigh : (v : ℚ) / (2 ^ 31 - 1) < 2 ^ (m - 31 + 1 : ℤ) := by
    have h : v * 2 ^ 30 < 2 ^ m * (2 ^ 31 - 1) := by
      have hle : 2 ^ m ≤ 2 ^ 30 := Nat.pow_le_pow_right (by norm_num) hm
      rw [pow_succ] at hhi
      omega
    have h' := (Nat.cast_lt (α := ℚ)).mpr h
    push_cast at h'
    rw [zpow_add_one₀ (by norm_num), hpow, div_lt_iff₀ (by norm_num)]
    linarith
  have hexp : (2 : ℚ) ^ (m - 31 - (binary64.prec - 1) : ℤ) = 1 / 2 ^ p := by
    rw [one_div, ← zpow_natCast, ← zpow_neg]
    congr 1
    change (m - 31 - (53 - 1) : ℤ) = _
    omega
  have hnear : |(v : ℚ) / (2 ^ 31 - 1) / 2 ^ (m - 31 - (binary64.prec - 1) : ℤ) - (k : ℤ)| < 1 / 2 := by
    have h1 := (Nat.cast_lt (α := ℚ)).mpr hup
    have h2 := (Nat.cast_lt (α := ℚ)).mpr hdown
    push_cast at h1 h2
    have hdiff : (v : ℚ) / (2 ^ 31 - 1) / (1 / 2 ^ p) = v * 2 ^ p / (2 ^ 31 - 1) := by field_simp
    rw [hexp, hdiff, Int.cast_natCast, abs_lt, lt_sub_iff_add_lt, sub_lt_iff_lt_add, lt_div_iff₀ (by norm_num),
      div_lt_iff₀ (by norm_num)]
    constructor <;> linarith
  have hrnd := binary64.rnd_eq hlow hhigh (by change (-1074 : ℤ) ≤ m - 31 - (53 - 1); omega) hnear
  rw [randSample, hrnd, hexp, mul_one_div, Int.cast_natCast]

/-- The numerator of the sample of a value between `2 ^ (22 + s)` and `2 ^ (23 + s)`: the value
moved up `30 - s` bits, and its bits above the lowest `s + 1`, rounded. -/
def numerator (s v : ℕ) : ℕ := v * 2 ^ (30 - s) + (v + 2 ^ s) / 2 ^ (s + 1)

theorem randSample_eq_of_lt {s v : ℕ} (hs : s ≤ 8) (hlo : 2 ^ (22 + s) ≤ v) (hhi : v < 2 ^ (23 + s))
    (hv : v < 2 ^ 31 - 1) : randSample v = (numerator s v : ℚ) / 2 ^ (61 - s) := by
  refine randSample_eq_div (m := 22 + s) (by omega) hlo (by rwa [Nat.add_right_comm]) hv ?_ ?_ <;>
  · unfold numerator
    interval_cases s <;> omega

/-- **The sample of a value from `2 ^ 22` on, exactly.** -/
theorem randSample_eq {s v : ℕ} (hs : s ≤ 8) (hlo : 2 ^ (22 + s) ≤ v) (hhi : v ≤ 2 ^ (23 + s))
    (hv : v ≤ 2 ^ 31 - 1) : randSample v = (numerator s v : ℚ) / 2 ^ (61 - s) := by
  rcases hv.lt_or_eq with hlt | rfl
  · rcases hhi.lt_or_eq with hbelow | rfl
    · exact randSample_eq_of_lt hs hlo hbelow hlt
    · -- a power of two, where the next numerator says the same
      have hs' : s ≤ 7 := by
        by_contra! h
        obtain rfl : s = 8 := by omega
        omega
      rw [randSample_eq_of_lt (s := s + 1) (by omega) (by rw [← Nat.add_assoc, Nat.add_right_comm])
        (Nat.pow_lt_pow_right (by norm_num) (by omega)) hlt]
      interval_cases s <;> norm_num [numerator]
  · obtain rfl : s = 8 := by
      by_contra! h
      have hle : 2 ^ (23 + s) ≤ 2 ^ 30 := Nat.pow_le_pow_right (by norm_num) (by omega)
      omega
    rw [randSample_max]
    norm_num [numerator]

/-- Small values have no bits to round. -/
theorem randSample_eq_of_le {v : ℕ} (hv : v ≤ 2 ^ 22) :
    randSample v = ((v * (2 ^ 31 + 1) : ℕ) : ℚ) / 2 ^ 62 := by
  rcases hv.lt_or_eq with hlt | rfl
  · rcases Nat.eq_zero_or_pos v with rfl | hpos
    · rw [randSample_zero, Nat.zero_mul, Nat.cast_zero, zero_div]
    · obtain ⟨m, t, hmt, hlo, hhi⟩ : ∃ m t, m + t = 21 ∧ 2 ^ m ≤ v ∧ v < 2 ^ (m + 1) := by
        have hlog : Nat.log 2 v < 22 := Nat.log_lt_of_lt_pow hpos.ne' hlt
        exact ⟨Nat.log 2 v, 21 - Nat.log 2 v, by omega, Nat.pow_log_le_self 2 hpos.ne',
          Nat.lt_pow_succ_log_self (by norm_num) v⟩
      have hvt : v * 2 ^ t < 2 ^ 22 := by
        calc v * 2 ^ t < 2 ^ (m + 1) * 2 ^ t := Nat.mul_lt_mul_of_pos_right hhi (by positivity)
          _ = 2 ^ 22 := by rw [← pow_add, add_right_comm, hmt]
      have hp : v * 2 ^ (62 + t) = 2 ^ 62 * (v * 2 ^ t) := by ring
      rw [randSample_eq_div (p := 62 + t) (k := v * 2 ^ t * (2 ^ 31 + 1)) (by omega) hlo hhi (by omega)
        (by rw [hp]; omega) (by rw [hp]; omega)]
      push_cast
      rw [pow_add]
      field_simp
  · rw [randSample_eq (s := 0) (by norm_num) (by norm_num) (by norm_num) (by norm_num)]
    norm_num [numerator]

/-! ### Draws -/

/-- A draw below a number comes of a product below it. -/
theorem mul_lt_of_scaled_lt {q : ℚ} {i n : ℕ} (hn : n ≤ 2 ^ 53) (h : scaled q i < n) :
    q * i < n := by
  by_contra! hle
  have hrnd := binary64.rnd_mono (Nat.cast_nonneg n) hle
  rw [rnd_natCast hn] at hrnd
  exact absurd (Nat.le_floor hrnd) (not_le.mpr h)

/-- A draw from a number on comes of a product that is below it by half the spacing there at most. -/
theorem le_mul_of_le_scaled {q : ℚ} {i n : ℕ} {e : ℤ} (hq : 0 ≤ q) (hn : (n : ℚ) ≤ 2 ^ e)
    (he : binary64.emin + binary64.prec ≤ e) (h : n ≤ scaled q i) :
    (n : ℚ) - 2 ^ (e - binary64.prec - 1 : ℤ) ≤ q * i := by
  have hq' : 0 ≤ q * i := mul_nonneg hq (Nat.cast_nonneg i)
  have hpos : (0 : ℚ) < 2 ^ (e - binary64.prec - 1 : ℤ) := by positivity
  rcases le_or_gt (n : ℚ) (q * i) with hle | hlt
  · linarith
  · have hrnd : (n : ℚ) ≤ binary64.rnd (q * i) :=
      le_trans (by exact_mod_cast h) (Nat.floor_le (binary64.rnd_nonneg hq'))
    have hnear := abs_le.mp (binary64.abs_rnd_sub_le hq' (hlt.trans_le hn) he)
    linarith [hnear.2]

theorem randDraw_mono (i : ℕ) : Monotone (randDraw i) := fun v _ h =>
  scaled_mono (randSample_nonneg v) (randSample_mono h) i

theorem randDraw_zero (i : ℕ) : randDraw i 0 = 0 := by
  have h := scaled_le_of_mul_le (q := randSample 0) (i := i) (n := 0) (randSample_nonneg 0) (by norm_num)
    (by rw [randSample_zero, zero_mul, Nat.cast_zero])
  exact Nat.le_zero.mp h

/-- The greatest value draws the bound itself. -/
theorem randDraw_max {i : ℕ} (hi : i ≤ 2 ^ 53) : randDraw i (2 ^ 31 - 1) = i := by
  rw [randDraw, randSample_max, scaled, one_mul, rnd_natCast hi, Nat.floor_natCast]

/-! ### Tests of a draw -/

/-- A draw from a number on comes of a product that is below it by half the spacing there at most. -/
theorem le_add_of_le_randDraw {i v n a e p h : ℕ} (hq : randSample v = (a : ℚ) / 2 ^ p)
    (hp : e + p = h + 54) (hhi : n ≤ 2 ^ e) (hle : n ≤ randDraw i v) :
    n * 2 ^ p ≤ a * i + 2 ^ h := by
  have hnear := le_mul_of_le_scaled (e := e) (randSample_nonneg v) (by exact_mod_cast hhi)
    (by change (-1074 + 53 : ℤ) ≤ e; omega) hle
  have hpos : (0 : ℚ) < 2 ^ p := by positivity
  have hexp : (2 : ℚ) ^ (e - binary64.prec - 1 : ℤ) * 2 ^ p = 2 ^ h := by
    rw [← zpow_natCast, ← zpow_natCast, ← zpow_add₀ (by norm_num)]
    congr 1
    change (e - 53 - 1 + p : ℤ) = h
    omega
  rw [hq] at hnear
  have hmul := mul_le_mul_of_nonneg_right hnear hpos.le
  rw [sub_mul, hexp, div_mul_eq_mul_div, div_mul_cancel₀ _ hpos.ne', sub_le_iff_le_add] at hmul
  exact_mod_cast hmul

/-- A draw below a number comes of a product that is below it by half the spacing there at least. -/
theorem add_le_of_randDraw_lt {i v n a e p h : ℕ} (hq : randSample v = (a : ℚ) / 2 ^ p)
    (hp : e + p = h + 54) (he : e ≤ 53) (hlo : 2 ^ e < 2 * n) (hhi : n ≤ 2 ^ e)
    (hlt : randDraw i v < n) : a * i + 2 ^ h ≤ n * 2 ^ p := by
  by_contra! hnear
  refine absurd hlt (not_lt.mpr (Nat.le_floor ?_))
  have hpow : 2 ^ e * 2 ^ (53 - e) = 2 ^ 53 := by rw [← pow_add, Nat.add_sub_cancel' he]
  have hunit : ((2 ^ (53 - e) : ℕ) : ℚ) * 2 ^ (e - binary64.prec : ℤ) = 1 := by
    rw [Nat.cast_pow, Nat.cast_ofNat, ← zpow_natCast, ← zpow_add₀ (by norm_num), Nat.cast_sub he]
    change (2 : ℚ) ^ ((53 : ℕ) - e + (e - 53) : ℤ) = 1
    rw [Nat.cast_ofNat, sub_add_sub_cancel, sub_self, zpow_zero]
  have hhalf : (1 / 2 : ℚ) * 2 ^ (e - binary64.prec : ℤ) * 2 ^ p = 2 ^ h := by
    rw [one_div, ← zpow_neg_one, ← zpow_natCast, ← zpow_natCast, ← zpow_add₀ (by norm_num),
      ← zpow_add₀ (by norm_num)]
    congr 1
    change (-1 + (e - 53) + p : ℤ) = h
    omega
  have hnum : (((n * 2 ^ (53 - e) : ℕ) : ℤ) : ℚ) * 2 ^ (e - binary64.prec : ℤ) = n := by
    rw [Int.cast_natCast, Nat.cast_mul, mul_assoc, hunit, mul_one]
  rw [← hnum]
  refine binary64.le_rnd_of_near ?_ ?_ (by change (-1074 + 53 : ℤ) ≤ e; omega) ?_
  · change ((2 ^ 53 : ℕ) : ℤ) < _
    rw [← hpow]
    push_cast
    nlinarith
  · change _ ≤ ((2 ^ 53 : ℕ) : ℤ)
    rw [← hpow]
    exact_mod_cast Nat.mul_le_mul_right _ hhi
  · rw [sub_mul, hnum, hq, sub_lt_iff_lt_add]
    have hpos : (0 : ℚ) < 2 ^ p := by positivity
    have hcast : (n * 2 ^ p : ℚ) < a * i + 2 ^ h := by exact_mod_cast hnear
    refine lt_of_mul_lt_mul_right ?_ hpos.le
    rw [add_mul, hhalf, div_mul_eq_mul_div, div_mul_cancel₀ _ hpos.ne']
    exact hcast

end Shuffle3.V2
