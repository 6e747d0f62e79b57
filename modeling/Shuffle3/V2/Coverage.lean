import Mathlib.Tactic.IntervalCases
import Mathlib.Tactic.LinearCombination
import Shuffle3.Foundations.Inverses
import Shuffle3.V2.Draws

/-!
# What the byte pass can draw

Greater values draw later positions, so every position is drawn as long as no value draws
two positions more than the one before it. Two roundings can make that happen only for
bounds near `RAND_MAX`. Let the bound be `RAND_MAX - d`. Within a power of two a position
is skipped only where a bit is carried into the sample, and there only if the value is
`512 * k + 255` where `2 * k + 1` is an inverse of `d` modulo `2 ^ 23`, and a small one; at
the power of two itself, where the spacing of the products doubles, only for three bounds.

## What is proved

* `skips_of_skip`, `exists_skip` — the bounds that skip a position are those of `Skips`.
* `randDraw_succ_le` — for the others the next value draws the next position at most.
* `reached_of_lt` — every position is drawn for every bound below 2147483220.
* `reached_all_iff` — the bounds for which every position is drawn.
* `not_reached_gap` — for the bound 2147483220 a position is skipped.
-/

namespace Shuffle3.V2

open Foundations Floating

/-! ### The bounds that skip a position -/

/-- The bounds `RAND_MAX - d` for which a position is skipped: at a power of two for three of
them, and elsewhere where `d` has an inverse modulo `2 ^ 23` that is in the upper half
and small beside `d`. -/
def Skips (d : ℕ) : Prop :=
  d = 16 ∨ d = 18 ∨ d = 20 ∨ ∃ x, 2 ^ 22 < x ∧ x < 2 ^ 23 ∧ d * x % 2 ^ 23 = 1 ∧ (d + 1) * (x + 1) ≤ 2 ^ 31

/-- Only odd numbers have an inverse. -/
theorem odd_of_inverse {d x : ℕ} (hone : d * x % 2 ^ 23 = 1) : x % 2 = 1 := by
  by_contra heven
  obtain ⟨y, rfl⟩ : 2 ∣ x := by omega
  rw [mul_left_comm] at hone
  omega

/-- The inverse is computed. -/
theorem skips_iff (d : ℕ) :
    Skips d ↔ d = 16 ∨ d = 18 ∨ d = 20 ∨ d % 2 = 1 ∧ 2 ^ 22 < inverseIter 23 d 3 ∧
    (d + 1) * (inverseIter 23 d 3 + 1) ≤ 2 ^ 31 := by
  refine or_congr_right (or_congr_right (or_congr_right ⟨?_, ?_⟩))
  · rintro ⟨x, hlo, hhi, hone, hsmall⟩
    have hodd : d % 2 = 1 := odd_of_inverse (mul_comm d x ▸ hone)
    obtain rfl := eq_inverseIter (m := 23) (j := 3) (by norm_num) hodd hhi hone
    exact ⟨hodd, hlo, hsmall⟩
  · rintro ⟨hodd, hlo, hsmall⟩
    exact ⟨_, hlo, inverseIter_lt 23 d 3, mul_inverseIter hodd (by norm_num), hsmall⟩

instance : DecidablePred Skips := fun d => decidable_of_iff' _ (skips_iff d)

/-- From 428 on there are none. -/
theorem not_skips {d : ℕ} (hd : 428 ≤ d) : ¬ Skips d := by
  intro h
  have hlt : d < 511 := by
    rcases h with rfl | rfl | rfl | ⟨x, hlo, -, -, hsmall⟩
    · omega
    · omega
    · omega
    · nlinarith
  exact (by decide +kernel : ∀ d ∈ List.range' 428 83, ¬ Skips d) d
    (List.mem_range'_1.mpr ⟨hd, by omega⟩) h

example : ((List.range 428).filter (Skips ·)).length = 94 := by decide +kernel

/-! ### Bounds far from `RAND_MAX`, and small values -/

/-- **For bounds not near `RAND_MAX` the roundings do not make up a step**: the samples are
near their quotients, and the products off by half their spacing at most. -/
theorem no_skip_of_le {i v n : ℕ} (hi : i ≤ 2 ^ 31 - 769) (hv : v + 1 ≤ 2 ^ 31 - 1)
    (hlo : randDraw i v < n) (hhi : n + 1 ≤ randDraw i (v + 1)) (hn : n + 1 ≤ 2 ^ 31) : False := by
  have h1 := mul_lt_of_scaled_lt (by omega) hlo
  have h2 :=
    le_mul_of_le_scaled (e := 31) (randSample_nonneg _) (by exact_mod_cast hn) (by decide) hhi
  have hexp : (2 : ℚ) ^ (31 - binary64.prec - 1 : ℤ) = 1 / 2 ^ 23 := by norm_num [binary64]
  rw [hexp, Nat.cast_add, Nat.cast_one] at h2
  have hgap : 1 - 1 / 2 ^ 23 < (randSample (v + 1) - randSample v) * i := by linarith
  have hdiff : randSample (v + 1) - randSample v ≤ 1 / (2 ^ 31 - 1) + 2 * 2 ^ (-54 : ℤ) := by
    have hdown := (abs_le.mp (abs_randSample_sub_le (v := v) (by omega))).1
    have hup := (abs_le.mp (abs_randSample_sub_le hv)).2
    have hstep : ((v + 1 : ℕ) : ℚ) / (2 ^ 31 - 1) = v / (2 ^ 31 - 1) + 1 / (2 ^ 31 - 1) := by
      push_cast
      ring
    rw [hstep] at hup
    linarith
  have hi' : (i : ℚ) ≤ 2147482879 := by exact_mod_cast hi
  have hprod := mul_le_mul hdiff hi' (Nat.cast_nonneg i) (by positivity)
  norm_num at hgap hprod
  linarith

theorem two_pow_clog_lt {n : ℕ} (hn : 0 < n) : 2 ^ Nat.clog 2 n < 2 * n := by
  rcases Nat.eq_or_lt_of_le hn with rfl | hgt
  · norm_num
  · have hpred := Nat.pow_pred_clog_lt_self (b := 2) (by norm_num) hgt
    obtain ⟨e, he⟩ := Nat.exists_eq_succ_of_ne_zero (Nat.clog_pos (b := 2) (by norm_num) hgt).ne'
    rw [he, Nat.pred_succ] at hpred
    rw [he, pow_succ]
    omega

/-- **Small values skip nothing**: their samples are in proportion. -/
theorem no_skip_of_small {i v n : ℕ} (hi : i ≤ 2 ^ 31 - 1) (hv : v + 1 ≤ 2 ^ 22)
    (hlo : randDraw i v < n) (hhi : n + 1 ≤ randDraw i (v + 1)) : False := by
  have hsample := randSample_eq_of_le (v := v) (by omega)
  have hsample' := randSample_eq_of_le hv
  have hle : randDraw i (v + 1) ≤ v + 1 := by
    refine scaled_le_of_mul_le (randSample_nonneg _) (by omega) ?_
    have hmul : (v + 1) * (2 ^ 31 + 1) * i ≤ (v + 1) * 2 ^ 62 := by
      rw [mul_assoc]
      exact Nat.mul_le_mul_left _ (by omega)
    rw [hsample', div_mul_eq_mul_div, div_le_iff₀ (by norm_num)]
    exact_mod_cast hmul
  have hn : 0 < n := Nat.pos_of_ne_zero (by rintro rfl; exact Nat.not_lt_zero _ hlo)
  have hclog : Nat.clog 2 n ≤ 22 := Nat.clog_le_of_le_pow (by omega)
  have h1 := add_le_of_randDraw_lt (e := Nat.clog 2 n) (h := Nat.clog 2 n + 8) hsample (by omega) (by omega)
    (two_pow_clog_lt hn) (Nat.le_pow_clog (by norm_num) n) hlo
  have h2 := le_add_of_le_randDraw (e := 22) (h := 30) hsample' (by norm_num) (by omega) hhi
  have hle' : n ≤ 2 ^ Nat.clog 2 n := Nat.le_pow_clog (by norm_num) n
  rw [pow_add] at h1
  have hi' : i = 2 ^ 31 - 1 := by
    have hx : (v + 1) * (2 ^ 31 + 1) * i = (2 ^ 31 + 1) * (v * i) + (2 ^ 31 + 1) * i := by ring
    have hy : v * (2 ^ 31 + 1) * i = (2 ^ 31 + 1) * (v * i) := by ring
    rw [hx] at h2
    rw [hy] at h1
    omega
  subst hi'
  omega

/-! ### Where a bit is carried into the sample -/

/-- A numerator moves with the value, and a unit more where the bit that is rounded is carried. -/
theorem numerator_succ {s : ℕ} (hs : s ≤ 8) (v : ℕ) :
    (numerator s (v + 1) = numerator s v + 2 ^ (30 - s)) ∨
      ∃ k, v + 1 = 2 * 2 ^ s * k + 2 ^ s ∧ numerator s v = v * 2 ^ (30 - s) + k ∧
        numerator s (v + 1) = (v + 1) * 2 ^ (30 - s) + k + 1 := by
  unfold numerator
  rcases Nat.eq_zero_or_pos ((v + 1 + 2 ^ s) % (2 * 2 ^ s)) with h | h
  · refine .inr ⟨(v + 2 ^ s) / 2 ^ (s + 1), ?_, rfl, ?_⟩ <;> interval_cases s <;> omega
  · left
    interval_cases s <;> omega

theorem two_pow_units {s : ℕ} (hs : s ≤ 8) : (2 ^ s : ℤ) * 2 ^ (30 - s) = 2 ^ 30 ∧
    (2 : ℤ) ^ (30 - s) = 2 ^ 22 * 2 ^ (8 - s) ∧ (2 : ℤ) ^ (61 - s) = 2 ^ 31 * 2 ^ (30 - s) := by
  interval_cases s <;> norm_num

theorem two_pow_le_unit {s : ℕ} (hs : s ≤ 8) :
    (2 : ℤ) ^ 22 ≤ 2 ^ (30 - s) ∧ (2 : ℤ) ^ (30 - s) ≤ 2 ^ 30 := by
  interval_cases s <;> norm_num

/-- A value from which the sample is carried lies at the middle of its lowest bits. -/
theorem carry_mul {w u : ℤ} (hwu : w * u = 2 ^ 30) (k : ℤ) :
    (2 * w * k + w) * u = 2 ^ 31 * k + 2 ^ 30 := by
  linear_combination (2 * k + 1) * hwu

/-- Where a bit is carried, a skip makes `2 * k + 1` an inverse of `c - 1`, and a small one. -/
theorem inverse_of_carry {c k n w u : ℤ} (hwu : w * u = 2 ^ 30) (hc : 1 ≤ c) (hk : 0 ≤ k)
    (hku : k < u) (h1 : ((2 * w * k + w - 1) * u + k) * (2 ^ 31 - c) + 2 ^ 30 ≤ n * (2 ^ 31 * u))
    (h2 : (n + 1) * (2 ^ 31 * u) ≤ ((2 * w * k + w) * u + k + 1) * (2 ^ 31 - c) + 2 ^ 30) :
    (c - 1) * (2 * k + 1) = 2 * u * (2 * w * k + w - 1 - n) + 1 ∧ (k + 1) * c ≤ 2 ^ 30 := by
  have hvu := carry_mul hwu k
  rw [sub_mul, hvu, one_mul] at h1
  rw [hvu] at h2
  generalize hq : 2 * w * k + w - 1 - n = q
  have hnu : n * u = 2 ^ 31 * k + 2 ^ 30 - u - q * u := by linear_combination hvu - u * hq
  generalize hm : u * q - (c - 1) * k = m
  have hcu : c * k + c ≤ c * u := by nlinarith
  have hck : 0 ≤ c * k := by positivity
  -- modulo `2 ^ 31` little is left of the products
  have hup : 2 ^ 31 * m ≤ c * k + c * 2 ^ 30 - 2 ^ 30 - c * u := by
    subst hm
    linarith
  have hdown : c * 2 ^ 30 + c * k + c - 3 * 2 ^ 30 ≤ 2 ^ 31 * m := by
    subst hm
    linarith
  have heq : 2 * m = c - 2 := by omega
  constructor
  · linear_combination -heq - 2 * hm
  · linarith

/-- Below the power of two a carry makes no skip: the draw would be too far from its value. -/
theorem no_carry_below {c k n w u : ℤ} (hwu : w * u = 2 ^ 30) (hu : 2 ^ 22 ≤ u) (hc : 1 ≤ c)
    (hk : 2 ^ 21 ≤ k) (hn : n + 1 ≤ 2 ^ 22 * w)
    (h1 : ((2 * w * k + w - 1) * u + k) * (2 ^ 31 - c) + 2 ^ 29 ≤ n * (2 ^ 31 * u))
    (h2 : (n + 1) * (2 ^ 31 * u) ≤ ((2 * w * k + w) * u + k + 1) * (2 ^ 31 - c) + 2 ^ 29) :
    False := by
  have hvu := carry_mul hwu k
  rw [sub_mul, hvu, one_mul] at h1
  rw [hvu] at h2
  have hnu : (n + 1) * u ≤ 2 ^ 52 := by
    have h := mul_le_mul_of_nonneg_right hn (by omega : 0 ≤ u)
    rw [mul_assoc, hwu] at h
    exact h
  have hcu : c * u + c ≤ 2 ^ 31 := by linarith
  have hc' : c ≤ 511 := by nlinarith
  have hck : c * k ≤ 511 * k := by nlinarith
  have hcu' : 0 ≤ c * u := by nlinarith
  linarith

/-- The power of two itself, from where the spacing of the products is wider, is skipped without
a carry for three bounds. -/
theorem of_skip_power {c a b r w : ℤ} (hwr : w * r = 2 ^ 8) (hr : 1 ≤ r) (hc : 1 ≤ c) (ha : 0 ≤ a)
    (hb : 0 ≤ b) (hba : 2 * w * b ≤ a + w)
    (h1 : (2 ^ 52 + a * (2 ^ 22 * r) + 2 ^ 21 + b) * (2 ^ 31 - c) + 2 ^ 29 ≤ 2 ^ 83)
    (h2 : 2 ^ 83 + 2 ^ 53 * r ≤ (2 ^ 52 + (a + 1) * (2 ^ 22 * r) + 2 ^ 21 + b) * (2 ^ 31 - c) + 2 ^ 30) :
    c = 17 ∨ c = 19 ∨ c = 21 := by
  have hw : 0 < w := by nlinarith
  have hcr : c * r ≤ 128 := by linarith
  have hcr' : c ≤ c * r := by nlinarith
  have hc' : c ≤ 128 := by linarith
  have hy : 0 ≤ a * r := by positivity
  have hcy : c * (a * r) ≤ 128 * (a * r) := mul_le_mul_of_nonneg_right hc' hy
  have hcb : c * b ≤ 128 * b := mul_le_mul_of_nonneg_right hc' hb
  have hy' : a * r ≤ 63 := by linarith
  -- the sample is not carried before `w` values
  obtain rfl : b = 0 := by
    by_contra hne
    have hwb : w * 1 ≤ w * b := mul_le_mul_of_nonneg_left (by omega) hw.le
    have hwa : w ≤ a := by linarith
    have hra : w * r ≤ a * r := mul_le_mul_of_nonneg_right hwa (by omega)
    linarith
  have hcy' : 0 ≤ c * (a * r) := by positivity
  have heq : c = 2 * (a * r) + 1 := by
    generalize hx : c * (a * r) = x at hcy hcy'
    have h1' : 2 ^ 53 * (a * r) + 2 ^ 52 + 2 ^ 29 ≤ c * 2 ^ 52 + 2 ^ 22 * x + c * 2 ^ 21 := by
      linarith
    have h2' : c * 2 ^ 52 + 2 ^ 22 * x + c * 2 ^ 21 ≤ 2 ^ 53 * (a * r) + 2 ^ 52 + 2 ^ 30 := by
      linarith
    omega
  have hlo : 2 ^ 8 ≤ c * c := by nlinarith
  have hhi : c * c + 2 * c ≤ 2 ^ 9 := by nlinarith
  have hlo' : 16 ≤ c := by nlinarith
  have hhi' : c ≤ 21 := by nlinarith
  omega

/-- There a carry makes no skip. -/
theorem no_carry_power {s : ℕ} (hs : s ≤ 8) {c b : ℤ} (hc : 1 ≤ c) (hb : 0 ≤ b)
    (h1 : (2 ^ 52 + 2 ^ 31 * b + 2 ^ 30 - 2 ^ (30 - s) + 2 ^ 21 + b) * (2 ^ 31 - c) + 2 ^ 29 ≤ 2 ^ 83)
    (h2 : 2 ^ 83 + 2 ^ (61 - s) ≤ (2 ^ 52 + 2 ^ 31 * b + 2 ^ 30 + 2 ^ 21 + b + 1) * (2 ^ 31 - c) + 2 ^ 30) :
    False := by
  have hcb : 0 ≤ c * b := by positivity
  obtain ⟨hu, hu'⟩ := two_pow_le_unit hs
  have hpu := (two_pow_units hs).2.2
  rw [hpu] at h2
  have hcu : c * 2 ^ (30 - s) + c ≤ 2 ^ 31 + 2 ^ 29 := by linarith
  have hc' : c ≤ 639 := by nlinarith
  have hcb' : c * b ≤ 639 * b := mul_le_mul_of_nonneg_right hc' hb
  have h1' : 2 ^ 31 * (2 ^ 31 * b + 2 ^ 30 - 2 ^ (30 - s)) + 2 ^ 52 + 2 ^ 31 * b + 2 ^ 29 ≤
      c * 2 ^ 52 + 2 ^ 31 * (c * b) + c * 2 ^ 30 - c * 2 ^ (30 - s) + c * 2 ^ 21 + c * b := by
        linarith
  have h2' : c * 2 ^ 52 + 2 ^ 31 * (c * b) + c * 2 ^ 30 + c * 2 ^ 21 + c * b + c ≤
      2 ^ 31 * (2 ^ 31 * b + 2 ^ 30 - 2 ^ (30 - s)) + 2 ^ 52 + 2 ^ 31 * b + 2 ^ 31 + 2 ^ 30 := by
        linarith
  have hcu' : 0 ≤ c * 2 ^ (30 - s) := by positivity
  obtain rfl : b = 0 := by linarith
  rw [mul_zero] at h1' h2'
  clear h1 h2 hu hu' hpu hcb hcb' hcu'
  interval_cases s <;> omega

/-! ### A skip is one of those bounds -/

section Skip

variable {i v n s : ℕ}

theorem randDraw_le_two_pow (hs : s ≤ 8) (hlo : 2 ^ (22 + s) ≤ v) (hhi : v ≤ 2 ^ (23 + s))
    (hv : v ≤ 2 ^ 31 - 1) (hi : i ≤ 2 ^ 31 - 1) : randDraw i v ≤ 2 ^ (23 + s) := by
  refine scaled_le_of_mul_le (randSample_nonneg _)
    (Nat.pow_le_pow_right (by norm_num) (by omega)) ?_
  have hnum : numerator s v ≤ 2 ^ 53 + 2 ^ 22 := by
    unfold numerator
    interval_cases s <;> omega
  have hpow : 2 ^ (23 + s) * 2 ^ (61 - s) = 2 ^ 84 := by
    rw [← pow_add]
    congr 1
    omega
  have hmul : numerator s v * i ≤ 2 ^ (23 + s) * 2 ^ (61 - s) := by
    rw [hpow]
    exact (Nat.mul_le_mul hnum hi).trans (by norm_num)
  rw [randSample_eq hs hlo hhi hv, div_mul_eq_mul_div, div_le_iff₀ (by positivity)]
  exact_mod_cast hmul

/-- Near `RAND_MAX` a draw is near its value. -/
theorem lt_two_mul_of_randDraw_lt (hs : s ≤ 8) (hlo : 2 ^ (22 + s) ≤ v) (hhi : v ≤ 2 ^ (23 + s))
    (hv : v ≤ 2 ^ 31 - 1) (hi : 2 ^ 30 ≤ i) (hn : n ≤ 2 ^ 53) (hlt : randDraw i v < n) :
    2 ^ (22 + s) < 2 * n := by
  have hprod := mul_lt_of_scaled_lt hn hlt
  rw [randSample_eq hs hlo hhi hv, div_mul_eq_mul_div, div_lt_iff₀ (by positivity)] at hprod
  have hprod' : numerator s v * i < n * 2 ^ (61 - s) := by exact_mod_cast hprod
  have hnum : 2 ^ 52 ≤ numerator s v := by
    unfold numerator
    interval_cases s <;> omega
  have hmul := (Nat.mul_le_mul hnum hi).trans_lt hprod'
  interval_cases s <;> omega

/-- Where the sample is not carried, the spacing of the products is not the same. -/
theorem lt_of_numerator_eq {h h' : ℕ} (hs : s ≤ 8) (hi : i ≤ 2 ^ 31 - 1)
    (heq : numerator s (v + 1) = numerator s v + 2 ^ (30 - s))
    (h1 : numerator s v * i + 2 ^ h ≤ n * 2 ^ (61 - s))
    (h2 : (n + 1) * 2 ^ (61 - s) ≤ numerator s (v + 1) * i + 2 ^ h') : h < h' := by
  by_contra! hle
  have hpow : (2 : ℕ) ^ h' ≤ 2 ^ h := Nat.pow_le_pow_right (by norm_num) hle
  have hu : 2 ^ (61 - s) = 2 ^ (30 - s) * 2 ^ 31 := by
    rw [← pow_add]
    congr 1
    omega
  have hmul : 2 ^ (30 - s) * i < 2 ^ (30 - s) * 2 ^ 31 :=
    Nat.mul_lt_mul_of_pos_left (by omega) (by positivity)
  rw [add_one_mul, heq, add_mul, hu] at h2
  rw [hu] at h1
  omega

variable {d : ℕ}

/-- Where a sample is carried, in integers. -/
theorem carry_bounds {k : ℕ} (hs : s ≤ 8) (hlo : 2 ^ (22 + s) ≤ v) (hhi : v < 2 ^ (23 + s))
    (hk : v + 1 = 2 * 2 ^ s * k + 2 ^ s) :
    2 ^ 21 ≤ k ∧ k < 2 ^ 22 ∧ (v : ℤ) = 2 * 2 ^ s * k + 2 ^ s - 1 := by
  have hk' : (v + 1 : ℤ) = 2 * 2 ^ s * k + 2 ^ s := by exact_mod_cast hk
  refine ⟨?_, ?_, by linarith⟩ <;> interval_cases s <;> omega

/-- Nothing is skipped below the power of two. -/
theorem no_skip_below (hs : s ≤ 8) (hlo : 2 ^ (22 + s) ≤ v) (hhi : v < 2 ^ (23 + s))
    (hd : i + d = 2 ^ 31 - 1) (hn : n < 2 ^ (22 + s))
    (h1 : numerator s v * i + 2 ^ 29 ≤ n * 2 ^ (61 - s))
    (h2 : (n + 1) * 2 ^ (61 - s) ≤ numerator s (v + 1) * i + 2 ^ 29) : False := by
  obtain ⟨hwu, -, hpu⟩ := two_pow_units hs
  have hid : (i : ℤ) = 2 ^ 31 - (d + 1) := by omega
  rcases numerator_succ hs v with heq | ⟨k, hk, hnum, hnum'⟩
  · exact absurd (lt_of_numerator_eq hs (by omega) heq h1 h2) (lt_irrefl _)
  · obtain ⟨hk1, -, hvk⟩ := carry_bounds hs hlo hhi hk
    rw [hnum] at h1
    rw [hnum'] at h2
    zify at h1 h2 hn hk1
    rw [hid, hpu, hvk] at h1 h2
    rw [sub_add_cancel] at h2
    rw [pow_add] at hn
    exact no_carry_below hwu (two_pow_le_unit hs).1 (by omega) hk1 hn h1 h2

/-- Above it, a skip makes an inverse of `d`. -/
theorem skips_of_skip_above (hs : s ≤ 8) (hlo : 2 ^ (22 + s) ≤ v) (hhi : v < 2 ^ (23 + s))
    (hd : i + d = 2 ^ 31 - 1) (h1 : numerator s v * i + 2 ^ 30 ≤ n * 2 ^ (61 - s))
    (h2 : (n + 1) * 2 ^ (61 - s) ≤ numerator s (v + 1) * i + 2 ^ 30) : Skips d := by
  obtain ⟨hwu, hur, hpu⟩ := two_pow_units hs
  have hu := (two_pow_le_unit hs).1
  have hid : (i : ℤ) = 2 ^ 31 - (d + 1) := by omega
  rcases numerator_succ hs v with heq | ⟨k, hk, hnum, hnum'⟩
  · exact absurd (lt_of_numerator_eq hs (by omega) heq h1 h2) (lt_irrefl _)
  · obtain ⟨hk1, hk2, hvk⟩ := carry_bounds hs hlo hhi hk
    rw [hnum] at h1
    rw [hnum'] at h2
    zify at h1 h2
    rw [hid, hpu, hvk] at h1 h2
    rw [sub_add_cancel] at h2
    obtain ⟨hinv, hsmall⟩ := inverse_of_carry hwu (by omega) (by omega) (by omega) h1 h2
    refine .inr (.inr (.inr ⟨2 * k + 1, by omega, by omega, ?_, ?_⟩))
    · generalize 2 * 2 ^ s * (k : ℤ) + 2 ^ s - 1 - n = q at hinv
      have hdk : (d : ℤ) * (2 * k + 1) = 1 + 2 ^ 23 * (2 ^ (8 - s) * q) := by
        rw [add_sub_cancel_right, hur] at hinv
        linarith
      zify
      rw [hdk, Int.add_mul_emod_self_left]
      rfl
    · zify
      linarith

/-- At the power of two itself a skip needs one of three bounds. -/
theorem skips_of_skip_power (hs : s ≤ 8) (hlo : 2 ^ (22 + s) ≤ v) (hhi : v < 2 ^ (23 + s))
    (hd : i + d = 2 ^ 31 - 1) (h1 : numerator s v * i + 2 ^ 29 ≤ 2 ^ (22 + s) * 2 ^ (61 - s))
    (h2 : (2 ^ (22 + s) + 1) * 2 ^ (61 - s) ≤ numerator s (v + 1) * i + 2 ^ 30) : Skips d := by
  obtain ⟨hwu, hur, hpu⟩ := two_pow_units hs
  have hid : (i : ℤ) = 2 ^ 31 - (d + 1) := by omega
  have htop : (2 : ℤ) ^ (22 + s) * 2 ^ (61 - s) = 2 ^ 83 := by
    rw [← pow_add]
    congr 1
    omega
  rcases numerator_succ hs v with heq | ⟨k, hk, hnum, hnum'⟩
  · obtain ⟨a, rfl⟩ := Nat.exists_eq_add_of_le hlo
    obtain ⟨b, hb, hba⟩ : ∃ b, numerator s (2 ^ (22 + s) + a) = 2 ^ 52 + a * 2 ^ (30 - s) + 2 ^ 21 + b ∧
        2 * 2 ^ s * b ≤ a + 2 ^ s := by
      unfold numerator
      refine ⟨(2 ^ (22 + s) + a + 2 ^ s) / 2 ^ (s + 1) - 2 ^ 21, ?_⟩
      interval_cases s <;> omega
    have hwr : (2 ^ s : ℤ) * 2 ^ (8 - s) = 2 ^ 8 := by rw [← pow_add, Nat.add_sub_cancel' hs]
    rw [hb] at h1
    rw [heq, hb] at h2
    zify at h1 h2 hba
    rw [hid, htop, hur] at h1
    rw [hid, add_one_mul, htop, hpu, hur] at h2
    have hcases := of_skip_power hwr (one_le_pow₀ (by norm_num)) (by omega) (by omega)
      (by omega) hba h1 (by linarith)
    unfold Skips
    omega
  · obtain ⟨hk1, hk2, hvk⟩ := carry_bounds hs hlo hhi hk
    rw [hnum] at h1
    rw [hnum'] at h2
    zify at h1 h2 hk1
    rw [hid, hvk, htop] at h1
    rw [hid, hvk, add_one_mul, htop, sub_add_cancel] at h2
    have hvu := carry_mul hwu k
    rw [sub_mul, hvu] at h1
    rw [hvu] at h2
    refine (no_carry_power (c := d + 1) (b := k - 2 ^ 21) hs (by omega) (by omega) ?_ ?_).elim
    · linarith
    · linarith

/-- **A skip is one of those bounds.** -/
theorem skips_of_skip (hd : i + d = 2 ^ 31 - 1) (hi : 2 ^ 30 ≤ i) (hv : v + 1 ≤ 2 ^ 31 - 1)
    (hlo : randDraw i v < n) (hhi : n + 1 ≤ randDraw i (v + 1)) : Skips d := by
  rcases Nat.lt_or_ge v (2 ^ 22) with hsmall | hlarge
  · exact (no_skip_of_small (by omega) (by omega) hlo hhi).elim
  obtain ⟨s, hs, hdown, hup⟩ : ∃ s ≤ 8, 2 ^ (22 + s) ≤ v ∧ v < 2 ^ (23 + s) := by
    have hlog : Nat.log 2 v < 31 := Nat.log_lt_of_lt_pow (by omega) (by omega)
    have hlog' : 22 ≤ Nat.log 2 v := Nat.le_log_of_pow_le (by norm_num) hlarge
    refine ⟨Nat.log 2 v - 22, by omega, ?_, ?_⟩
    · rw [Nat.add_sub_cancel' hlog']
      exact Nat.pow_log_le_self 2 (by omega)
    · rw [show 23 + (Nat.log 2 v - 22) = Nat.log 2 v + 1 by omega]
      exact Nat.lt_pow_succ_log_self (by norm_num) v
  have hsample := randSample_eq hs hdown hup.le (by omega)
  have hsample' := randSample_eq hs (hdown.trans v.le_succ) hup hv
  have hn : n + 1 ≤ 2 ^ (23 + s) :=
    hhi.trans (randDraw_le_two_pow hs (hdown.trans v.le_succ) hup hv (by omega))
  have htop : 2 ^ (23 + s) = 2 * 2 ^ (22 + s) := by rw [← pow_succ', Nat.add_right_comm]
  have hle : 2 ^ (23 + s) ≤ 2 ^ 53 := Nat.pow_le_pow_right (by norm_num) (by omega)
  rcases Nat.lt_trichotomy n (2 ^ (22 + s)) with hbelow | rfl | habove
  · have hnear := lt_two_mul_of_randDraw_lt hs hdown hup.le (by omega) hi (by omega) hlo
    have h1 := add_le_of_randDraw_lt (e := 22 + s) (h := 29) hsample (by omega)
      (by omega) hnear hbelow.le hlo
    have h2 := le_add_of_le_randDraw (e := 22 + s) (h := 29) hsample' (by omega) hbelow hhi
    exact (no_skip_below hs hdown hup hd hbelow h1 h2).elim
  · have h1 := add_le_of_randDraw_lt (e := 22 + s) (h := 29) hsample (by omega) (by omega)
      (by omega) le_rfl hlo
    have h2 := le_add_of_le_randDraw (e := 23 + s) (h := 30) hsample' (by omega) hn hhi
    exact skips_of_skip_power hs hdown hup hd h1 h2
  · have h1 := add_le_of_randDraw_lt (e := 23 + s) (h := 30) hsample (by omega) (by omega)
      (by omega) (by omega) hlo
    have h2 := le_add_of_le_randDraw (e := 23 + s) (h := 30) hsample' (by omega) hn hhi
    exact skips_of_skip_above hs hdown hup hd h1 h2

end Skip

/-! ### Those bounds skip -/

/-- The two sides of the last condition are never the same. -/
theorem ne_of_inverse {d x : ℕ} (hlo : 2 ^ 22 < x) (hhi : x < 2 ^ 23) (hone : d * x % 2 ^ 23 = 1) :
    (d + 1) * (x + 1) ≠ 2 ^ 31 := by
  intro h
  have hd : d < 511 := by nlinarith
  have hsum : d * x + d + x + 1 = 2 ^ 31 := by linarith
  have hx : d + x + 2 = 2 ^ 23 := by
    generalize d * x = p at hone hsum
    omega
  obtain rfl : x = 2 ^ 23 - 2 - d := by omega
  rcases Nat.lt_trichotomy d 255 with hd' | rfl | hd'
  · have h' : (d + 1) * (2 ^ 23 - 2 - d + 1) ≤ 255 * 2 ^ 23 := Nat.mul_le_mul (by omega) (by omega)
    omega
  · omega
  · have h' : 257 * (2 ^ 23 - 512) ≤ (d + 1) * (2 ^ 23 - 2 - d + 1) :=
      Nat.mul_le_mul (by omega) (by omega)
    omega

/-- The middle of the positions is skipped between two values if its product and the next one are
on the far sides of the spacing's halves. -/
theorem skip_middle {i a : ℕ} (ha : a < 255) (h1 : numerator 8 (2 ^ 30 + a) * i + 2 ^ 29 < 2 ^ 83)
    (h2 : (2 ^ 30 + 1) * 2 ^ 53 < numerator 8 (2 ^ 30 + a + 1) * i + 2 ^ 30) :
    ∃ v n, v + 1 ≤ 2 ^ 31 - 1 ∧ randDraw i v < n ∧ n + 1 ≤ randDraw i (v + 1) := by
  refine ⟨2 ^ 30 + a, 2 ^ 30, by omega, ?_, ?_⟩
  · have hsample := randSample_eq (s := 8) (v := 2 ^ 30 + a) le_rfl (by omega) (by omega) (by omega)
    by_contra! hle
    have h := le_add_of_le_randDraw (e := 30) (h := 29) hsample (by norm_num) le_rfl hle
    omega
  · have hsample :=
      randSample_eq (s := 8) (v := 2 ^ 30 + a + 1) le_rfl (by omega) (by omega) (by omega)
    by_contra! hlt
    have h := add_le_of_randDraw_lt (e := 31) (h := 30) hsample (by norm_num) (by norm_num)
      (by norm_num) (by norm_num) hlt
    omega

/-- **For each of those bounds a position is skipped.** -/
theorem exists_skip {i d : ℕ} (hd : i + d = 2 ^ 31 - 1) (h : Skips d) :
    ∃ v n, v + 1 ≤ 2 ^ 31 - 1 ∧ randDraw i v < n ∧ n + 1 ≤ randDraw i (v + 1) := by
  rcases h with rfl | rfl | rfl | ⟨x, hlo, hhi, hone, hsmall⟩
  · obtain rfl : i = 2147483631 := by omega
    exact skip_middle (a := 8) (by norm_num) (by decide) (by decide)
  · obtain rfl : i = 2147483629 := by omega
    exact skip_middle (a := 9) (by norm_num) (by decide) (by decide)
  · obtain rfl : i = 2147483627 := by omega
    exact skip_middle (a := 10) (by norm_num) (by decide) (by decide)
  · have hne := ne_of_inverse hlo hhi hone
    obtain ⟨k, rfl⟩ : ∃ k, x = 2 * k + 1 := ⟨x / 2, by have := odd_of_inverse hone; omega⟩
    obtain ⟨q, hq⟩ : ∃ q, d * (2 * k + 1) = 2 ^ 23 * q + 1 := ⟨d * (2 * k + 1) / 2 ^ 23, by omega⟩
    have hck : (d + 1) * (k + 1) < 2 ^ 30 := by
      have hlt := lt_of_le_of_ne hsmall hne
      linarith
    have hq' : q ≤ 255 := by nlinarith
    have hnum : numerator 8 (512 * k + 255) = (512 * k + 255) * 2 ^ 22 + k := by
      unfold numerator
      omega
    have hnum' : numerator 8 (512 * k + 255 + 1) = (512 * k + 256) * 2 ^ 22 + k + 1 := by
      unfold numerator
      omega
    have hsample : randSample (512 * k + 255) = (numerator 8 (512 * k + 255) : ℚ) / 2 ^ 53 :=
      randSample_eq le_rfl (by omega) (by omega) (by omega)
    have hsample' : randSample (512 * k + 255 + 1) = (numerator 8 (512 * k + 255 + 1) : ℚ) / 2 ^ 53 :=
      randSample_eq le_rfl (by omega) (by omega) (by omega)
    have hid : (i : ℤ) = 2 ^ 31 - (d + 1) := by omega
    have hqd : (2 ^ 23 * q : ℤ) = d * (2 * k + 1) - 1 := by
      zify at hq
      linarith
    have hfar : (d + 1 : ℤ) * (2 ^ 22 - k) ≤ (d + 1) * (k + 1) :=
      mul_le_mul_of_nonneg_left (by omega) (by omega)
    refine ⟨512 * k + 255, 512 * k + 255 - q, by omega, ?_, ?_⟩
    · by_contra! hle
      have h1 := le_add_of_le_randDraw (e := 31) (h := 30) hsample (by norm_num) (by omega) hle
      rw [hnum] at h1
      zify [show q ≤ 512 * k + 255 by omega] at h1 hck
      rw [hid] at h1
      linarith
    · by_contra! hlt
      have h2 := add_le_of_randDraw_lt (e := 31) (h := 30) hsample' (by norm_num) (by norm_num)
        (by omega) (by omega) hlt
      rw [hnum'] at h2
      zify [show q ≤ 512 * k + 255 by omega] at h2 hck
      rw [hid] at h2
      linarith

/-- **The next value draws the next position at most**, unless the bound skips one. -/
theorem randDraw_succ_le {i v d : ℕ} (hd : i + d = 2 ^ 31 - 1) (hskips : ¬ Skips d)
    (hv : v + 1 ≤ 2 ^ 31 - 1) :
    randDraw i (v + 1) ≤ randDraw i v + 1 := by
  by_contra! hskip
  have hlo : randDraw i v < randDraw i v + 1 := Nat.lt_succ_self _
  have hle : randDraw i (v + 1) ≤ i :=
    scaled_le (randSample_nonneg _) (randSample_le_one hv) (by omega)
  rcases Nat.lt_or_ge i (2 ^ 31 - 768) with hsmall | hnear
  · exact no_skip_of_le (by omega) hv hlo hskip (by omega)
  · exact hskips (skips_of_skip hd (by omega) hv hlo hskip)

/-! ### Which positions are drawn -/

/-- Some value of `rand_r` makes `drng` draw the position `j` for the bound `i`. -/
def Reached (i j : ℕ) : Prop := ∃ v : BitVec 32, 0 ≤ v.toInt ∧ v.toInt ≤ randMax.toInt ∧
  ∀ (L : Libc) (s : Drng), (L.randR s.state).1 = v →
    (nextLong (Drng.sample L) i s).map Prod.fst = some (BitVec.ofNat 64 j)

theorem reached_iff {i j : ℕ} (hi : i ≤ 2 ^ 53) (hj : j ≤ i) :
    Reached i j ↔ ∃ v ≤ 2 ^ 31 - 1, randDraw i v = j := by
  constructor
  · rintro ⟨v, h0, -, hv⟩
    obtain ⟨n, hn⟩ := Int.eq_ofNat_of_zero_le h0
    have hlt := BitVec.toInt_lt (x := v)
    have hvn : v = BitVec.ofNat 32 n := by
      rw [← BitVec.ofInt_toInt (x := v), hn, BitVec.ofInt_natCast]
    have hdraw :=
      Drng.nextLong_eq (L := ⟨id, fun s => (v, s)⟩) (s := ⟨0⟩) (v := n) (by omega) hvn hi
    have hle : randDraw i n ≤ i := scaled_le (randSample_nonneg n) (randSample_le_one (by omega)) hi
    have hsame := Option.some.inj ((hv _ _ rfl).symm.trans hdraw)
    refine ⟨n, by omega, ?_⟩
    have hnat := congrArg BitVec.toNat hsame
    rw [BitVec.toNat_ofNat, BitVec.toNat_ofNat, Nat.mod_eq_of_lt (by omega), Nat.mod_eq_of_lt (by omega)] at hnat
    exact hnat.symm
  · rintro ⟨v, hv, rfl⟩
    have hint : (BitVec.ofNat 32 v).toInt = v := by
      rw [BitVec.toInt_ofNat', Int.bmod_eq_of_le] <;> omega
    refine ⟨BitVec.ofNat 32 v, by omega, by rw [hint, randMax_toInt]; omega, fun L s hs => ?_⟩
    exact Drng.nextLong_eq hv hs hi

/-- The least value that draws a position or a later one draws that position. -/
theorem exists_randDraw {i j d : ℕ} (hd : i + d = 2 ^ 31 - 1) (hskips : ¬ Skips d) (hj : j < i) :
    ∃ v ≤ 2 ^ 31 - 1, randDraw i v = j := by
  have hex : ∃ v, j ≤ randDraw i v := ⟨2 ^ 31 - 1, by rw [randDraw_max (by omega)]; omega⟩
  have hmax : Nat.find hex ≤ 2 ^ 31 - 1 :=
    Nat.find_min' hex (by rw [randDraw_max (by omega)]; omega)
  refine ⟨Nat.find hex, hmax, le_antisymm ?_ (Nat.find_spec hex)⟩
  cases hv : Nat.find hex with
  | zero => rw [randDraw_zero]; exact Nat.zero_le j
  | succ v =>
    have hbelow := Nat.find_min hex (hv.symm ▸ Nat.lt_succ_self v : v < Nat.find hex)
    have hstep := randDraw_succ_le hd hskips (hv ▸ hmax)
    omega

/-- A position that is skipped is drawn by no value. -/
theorem not_reached_of_skip {i v n : ℕ} (hi : i ≤ 2 ^ 53) (hn : n ≤ i) (hlo : randDraw i v < n)
    (hhi : n + 1 ≤ randDraw i (v + 1)) : ¬ Reached i n := by
  intro h
  obtain ⟨w, -, hw⟩ := (reached_iff hi hn).mp h
  rcases Nat.lt_or_ge v w with hlt | hge
  · have hmono := randDraw_mono i (Nat.succ_le_of_lt hlt)
    rw [hw] at hmono
    exact absurd (hhi.trans hmono) (Nat.not_succ_le_self n)
  · have hmono := randDraw_mono i hge
    rw [hw] at hmono
    exact absurd (hmono.trans_lt hlo) (lt_irrefl _)

/-- From the bound `2 ^ 31` on there are more positions than values that draw one of them. -/
theorem exists_not_reached {i : ℕ} (hi : 2 ^ 31 ≤ i) (hi' : i ≤ 2 ^ 53) :
    ∃ j < i, ¬ Reached i j := by
  by_contra! hall
  have hvalue : ∀ j : Fin i, ∃ v : Fin (2 ^ 31 - 1), randDraw i v = j := by
    intro j
    obtain ⟨v, hv, hdraw⟩ := (reached_iff hi' j.isLt.le).mp (hall j j.isLt)
    -- the greatest value draws the bound, which is no position
    have hne : v ≠ 2 ^ 31 - 1 := by
      rintro rfl
      rw [randDraw_max hi'] at hdraw
      exact absurd hdraw j.isLt.ne'
    exact ⟨⟨v, by omega⟩, hdraw⟩
  choose f hf using hvalue
  have hinj : Function.Injective f := fun j k h =>
    Fin.ext ((hf j).symm.trans ((congrArg _ (congrArg _ h)).trans (hf k)))
  have hcard := Fintype.card_le_of_injective f hinj
  rw [Fintype.card_fin, Fintype.card_fin] at hcard
  omega

/-- **For every bound below 2147483220 the byte pass can draw every position.** -/
theorem reached_of_lt {i j : ℕ} (hi : i < 2147483220) (hj : j < i) : Reached i j :=
  (reached_iff (by omega) hj.le).mpr (exists_randDraw (d := 2 ^ 31 - 1 - i) (by omega) (not_skips (by omega)) hj)

/-- **The bounds for which the byte pass can draw every position** are those up to `RAND_MAX` that
do not skip one. -/
theorem reached_all_iff {i : ℕ} (hi : i < 2 ^ 47) :
    (∀ j < i, Reached i j) ↔ i < 2 ^ 31 ∧ ¬ Skips (2 ^ 31 - 1 - i) := by
  constructor
  · intro h
    have hlt : i < 2 ^ 31 := by
      by_contra! hle
      obtain ⟨j, hj, hne⟩ := exists_not_reached hle (by omega)
      exact hne (h j hj)
    refine ⟨hlt, fun hskips => ?_⟩
    obtain ⟨v, n, hv, hlo, hhi⟩ := exists_skip (i := i) (by omega) hskips
    have hle : randDraw i (v + 1) ≤ i :=
      scaled_le (randSample_nonneg _) (randSample_le_one hv) (by omega)
    exact not_reached_of_skip (by omega) (by omega) hlo hhi (h n (by omega))
  · rintro ⟨hlt, hskips⟩ j hj
    exact (reached_iff (by omega) hj.le).mpr (exists_randDraw (by omega) hskips hj)

/-- The least bound that is left out. -/
theorem reached_all_iff_least :
    (∀ j < 2147483220, Reached 2147483220 j) ↔ 2147483220 < 2 ^ 31 ∧ ¬ Skips 427 :=
  reached_all_iff (by norm_num)

/-- For the bound 2147483220 no value draws the position 1257308677. -/
theorem not_reached_gap :
    1257308677 < 2147483220 ∧ 2147483220 < 2 ^ 47 ∧ ¬ Reached 2147483220 1257308677 := by
  refine ⟨by norm_num, by norm_num, not_reached_of_skip (v := 1257308927) (by norm_num) (by norm_num) ?_ ?_⟩
  · have hsample :=
      randSample_eq (s := 8) (v := 1257308927) le_rfl (by norm_num) (by norm_num) (by norm_num)
    by_contra! hle
    have h := le_add_of_le_randDraw (e := 31) (h := 30) hsample (by norm_num) (by norm_num) hle
    revert h
    decide
  · have hsample :=
      randSample_eq (s := 8) (v := 1257308928) le_rfl (by norm_num) (by norm_num) (by norm_num)
    by_contra! hlt
    have h := add_le_of_randDraw_lt (e := 31) (h := 30) hsample (by norm_num) (by norm_num) (by norm_num)
      (by norm_num) hlt
    revert h
    decide

end Shuffle3.V2
