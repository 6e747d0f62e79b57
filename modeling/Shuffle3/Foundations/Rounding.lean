import Mathlib.Data.Int.Log
import Mathlib.Data.Rat.Floor
import Mathlib.Tactic.Linarith
import Mathlib.Tactic.Positivity
import Mathlib.Algebra.Order.Field.Power

/-!
# Rounding to a binary format

A binary format keeps `p` significant bits, with a least exponent below which
the spacing of its numbers no longer shrinks. A nonnegative rational is rounded
to the nearest number of the format, and to the one with an even significand
when two are equally near, as if the exponent had no upper limit; overflow is
left to the user of the format.

## What is proved

* `roundEven_mono`, `rnd_mono` — rounding is monotone.
* `rnd_natCast_mul_zpow` — a number of the format is rounded to itself.
* `le_rnd` — rounding does not come below a number of the format.
* `abs_rnd_sub_le` — how far rounding moves a number.
* `rnd_mul_lt`, `rnd_mul_rnd_lt` — a product with a factor below one stays below.
* `le_rnd_of_near` — rounding comes up to a number that is near.
-/

namespace Shuffle3.Foundations

/-! ### To an integer -/

/-- The nearest integer, the even one when two are equally near. -/
def roundEven (q : ℚ) : ℤ :=
  if q - ⌊q⌋ < 1 / 2 then ⌊q⌋
  else if 1 / 2 < q - ⌊q⌋ then ⌊q⌋ + 1
  else if ⌊q⌋ % 2 = 0 then ⌊q⌋ else ⌊q⌋ + 1

theorem floor_le_roundEven (q : ℚ) : ⌊q⌋ ≤ roundEven q := by
  unfold roundEven
  split_ifs <;> omega

theorem roundEven_le_floor_add_one (q : ℚ) : roundEven q ≤ ⌊q⌋ + 1 := by
  unfold roundEven
  split_ifs <;> omega

@[simp] theorem roundEven_intCast (k : ℤ) : roundEven k = k := by simp [roundEven]

theorem roundEven_nonneg {q : ℚ} (h : 0 ≤ q) : 0 ≤ roundEven q :=
  le_trans (Int.floor_nonneg.mpr h) (floor_le_roundEven q)

/-- **Rounding to an integer is monotone.** -/
theorem roundEven_mono {q r : ℚ} (h : q ≤ r) : roundEven q ≤ roundEven r := by
  rcases (Int.floor_mono h).lt_or_eq with hlt | heq
  · exact le_trans (roundEven_le_floor_add_one q) (le_trans hlt (floor_le_roundEven r))
  · -- within one unit the fractions decide
    have hfrac : q - ⌊q⌋ ≤ r - ⌊r⌋ := by rw [heq]; linarith
    unfold roundEven
    rw [heq] at hfrac ⊢
    split_ifs <;> first | omega | (exfalso; linarith)

/-- Rounding to an integer moves a number by a half at most. -/
theorem abs_roundEven_sub_le (q : ℚ) : |(roundEven q : ℚ) - q| ≤ 1 / 2 := by
  have h0 := Int.floor_le q
  have h1 := Int.lt_floor_add_one q
  rw [abs_le]
  unfold roundEven
  split_ifs
  · constructor <;> linarith
  · push_cast
    constructor <;> linarith
  · constructor <;> linarith
  · push_cast
    constructor <;> linarith

/-- A number less than a half away from an integer is rounded to it. -/
theorem roundEven_eq {q : ℚ} {k : ℤ} (h : |q - k| < 1 / 2) : roundEven q = k := by
  have hq := abs_le.mp (abs_roundEven_sub_le q)
  have hk := abs_lt.mp h
  have hlo : ((k - 1 : ℤ) : ℚ) < roundEven q := by push_cast; linarith
  have hhi : (roundEven q : ℚ) < ((k + 1 : ℤ) : ℚ) := by push_cast; linarith
  have hlo' : k - 1 < roundEven q := by exact_mod_cast hlo
  have hhi' : roundEven q < k + 1 := by exact_mod_cast hhi
  omega

/-! ### To a format -/

/-- A binary format. -/
structure Format where
  /-- How many significant bits. -/
  prec : ℕ
  /-- The exponent of the least spacing. -/
  emin : ℤ
  /-- Numbers from `2 ^ emax` on overflow. -/
  emax : ℕ
  /-- There is a significant bit. -/
  prec_pos : 0 < prec

namespace Format

variable (F : Format)

/-- The exponent of the spacing of the format's numbers around `q`. -/
def spacing (q : ℚ) : ℤ := max (Int.log 2 q - (F.prec - 1)) F.emin

/-- `q` rounded to the nearest number of the format. -/
def rnd (q : ℚ) : ℚ := roundEven (q / 2 ^ F.spacing q) * 2 ^ F.spacing q

/-- The spacing from `2 ^ e` up to the next power of two. -/
theorem spacing_eq {q : ℚ} {e : ℤ} (hlo : 2 ^ e ≤ q) (hhi : q < 2 ^ (e + 1))
    (he : F.emin ≤ e - (F.prec - 1)) :
    F.spacing q = e - (F.prec - 1) := by
  have hpos : 0 < q := lt_of_lt_of_le (by positivity) hlo
  have hdown : e ≤ Int.log 2 q :=
    (Int.zpow_le_iff_le_log (by norm_num) hpos).mp (by exact_mod_cast hlo)
  have hup : Int.log 2 q < e + 1 :=
    (Int.lt_zpow_iff_log_lt (by norm_num) hpos).mp (by exact_mod_cast hhi)
  unfold spacing
  omega

/-- The number of the format that is nearest. -/
theorem rnd_eq {q : ℚ} {e k : ℤ} (hlo : 2 ^ e ≤ q) (hhi : q < 2 ^ (e + 1))
    (he : F.emin ≤ e - (F.prec - 1)) (hk : |q / 2 ^ (e - (F.prec - 1) : ℤ) - k| < 1 / 2) :
    F.rnd q = k * 2 ^ (e - (F.prec - 1) : ℤ) := by
  rw [rnd, F.spacing_eq hlo hhi he, roundEven_eq hk]

theorem spacing_mono {q r : ℚ} (hq : 0 < q) (h : q ≤ r) : F.spacing q ≤ F.spacing r :=
  max_le_max (sub_le_sub_right (Int.log_mono_right hq h) _) le_rfl

@[simp] theorem rnd_zero : F.rnd 0 = 0 := by
  have h0 : roundEven 0 = 0 := by simpa using roundEven_intCast 0
  simp [rnd, h0]

theorem rnd_nonneg {q : ℚ} (h : 0 ≤ q) : 0 ≤ F.rnd q :=
  mul_nonneg (by exact_mod_cast roundEven_nonneg (by positivity)) (by positivity)

/-- Rounding does not come below a multiple of the spacing that is below. -/
theorem mul_le_rnd {q : ℚ} {k : ℤ} (h : k * 2 ^ F.spacing q ≤ q) :
    k * 2 ^ F.spacing q ≤ F.rnd q := by
  have hk : k ≤ roundEven (q / 2 ^ F.spacing q) := by
    rw [← roundEven_intCast k]
    exact roundEven_mono ((le_div_iff₀ (by positivity)).mpr h)
  exact mul_le_mul_of_nonneg_right (by exact_mod_cast hk) (by positivity)

/-- Rounding does not go above a multiple of the spacing that is above. -/
theorem rnd_le_mul {q : ℚ} {k : ℤ} (h : q ≤ k * 2 ^ F.spacing q) :
    F.rnd q ≤ k * 2 ^ F.spacing q := by
  have hk : roundEven (q / 2 ^ F.spacing q) ≤ k := by
    rw [← roundEven_intCast k]
    exact roundEven_mono ((div_le_iff₀ (by positivity)).mpr h)
  exact mul_le_mul_of_nonneg_right (by exact_mod_cast hk) (by positivity)

/-- A multiple of a wider spacing is one of a narrower. -/
theorem exists_mul_zpow (k : ℤ) {s e : ℤ} (h : s ≤ e) : ∃ l : ℤ, (k * 2 ^ e : ℚ) = l * 2 ^ s := by
  obtain ⟨d, rfl⟩ := Int.le.dest h
  refine ⟨k * 2 ^ d, ?_⟩
  rw [add_comm, zpow_add₀ (by norm_num), zpow_natCast]
  push_cast
  ring

/-- **A number of the format is rounded to itself.** -/
theorem rnd_natCast_mul_zpow {m : ℕ} {e : ℤ} (hm : m < 2 ^ F.prec) (he : F.emin ≤ e) :
    F.rnd (m * 2 ^ e) = m * 2 ^ e := by
  rcases Nat.eq_zero_or_pos m with rfl | hpos
  · simp
  -- the spacing there is at most `2 ^ e`, so the number is a multiple of it
  have hq : (0 : ℚ) < m * 2 ^ e := by positivity
  have hlog : Int.log 2 ((m : ℚ) * 2 ^ e) < e + F.prec := by
    rw [← Int.lt_zpow_iff_log_lt (by norm_num) hq, Nat.cast_ofNat, zpow_add₀ (by norm_num), mul_comm,
      zpow_natCast]
    exact mul_lt_mul_of_pos_left (by exact_mod_cast hm) (by positivity)
  have hs : F.spacing ((m : ℚ) * 2 ^ e) ≤ e := by
    unfold spacing
    omega
  obtain ⟨l, hl⟩ := exists_mul_zpow m hs
  rw [Int.cast_natCast] at hl
  exact le_antisymm (le_trans (F.rnd_le_mul hl.le) hl.ge) (le_trans hl.le (F.mul_le_rnd hl.ge))

/-- **Rounding is monotone.** -/
theorem rnd_mono {q r : ℚ} (hq : 0 ≤ q) (h : q ≤ r) : F.rnd q ≤ F.rnd r := by
  rcases hq.eq_or_lt with rfl | hq
  · rw [rnd_zero]; exact F.rnd_nonneg h
  rcases (F.spacing_mono hq h).lt_or_eq with hlt | heq
  · -- the power of two at the bottom of `r`'s binade separates the two
    have hr : 0 < r := lt_of_lt_of_le hq h
    have hp := F.prec_pos
    have hlog : Int.log 2 q < Int.log 2 r := by
      unfold spacing at hlt
      omega
    have hsq : F.spacing q ≤ Int.log 2 r := by unfold spacing at hlt ⊢; omega
    have hsr : F.spacing r ≤ Int.log 2 r := by unfold spacing at hlt ⊢; omega
    have hup : q ≤ 2 ^ Int.log 2 r := by
      have := (Int.lt_zpow_iff_log_lt (by norm_num) hq).mpr hlog
      exact_mod_cast this.le
    have hdown : (2 : ℚ) ^ Int.log 2 r ≤ r := by
      have := Int.zpow_log_le_self (b := 2) (by norm_num) hr
      exact_mod_cast this
    obtain ⟨k, hk⟩ := exists_mul_zpow 1 hsq
    obtain ⟨l, hl⟩ := exists_mul_zpow 1 hsr
    rw [Int.cast_one, one_mul] at hk hl
    calc F.rnd q ≤ k * 2 ^ F.spacing q := F.rnd_le_mul (hk ▸ hup)
      _ = 2 ^ Int.log 2 r := hk.symm
      _ = l * 2 ^ F.spacing r := hl
      _ ≤ F.rnd r := F.mul_le_rnd (hl ▸ hdown)
  · unfold rnd
    rw [← heq]
    refine mul_le_mul_of_nonneg_right ?_ (by positivity)
    exact_mod_cast roundEven_mono (div_le_div_of_nonneg_right h (by positivity))

/-- What is rounded is a number of the format already. -/
theorem rnd_rnd {q : ℚ} (hq : 0 ≤ q) : F.rnd (F.rnd q) = F.rnd q := by
  rcases hq.eq_or_lt with rfl | hq
  · simp
  have hbound : q < 2 ^ (F.spacing q + F.prec) := by
    have hlog := Int.lt_zpow_succ_log_self (b := 2) (by norm_num) q
    refine lt_of_lt_of_le (by exact_mod_cast hlog) (zpow_le_zpow_right₀ (by norm_num) ?_)
    unfold spacing
    omega
  obtain ⟨m, hm⟩ :=
    Int.eq_ofNat_of_zero_le (roundEven_nonneg (q := q / 2 ^ F.spacing q) (by positivity))
  have hle : m ≤ 2 ^ F.prec := by
    have : roundEven (q / 2 ^ F.spacing q) ≤ roundEven ((2 ^ F.prec : ℕ) : ℤ) := by
      refine roundEven_mono ?_
      rw [div_le_iff₀ (by positivity)]
      push_cast
      rw [← zpow_natCast, ← zpow_add₀ (by norm_num), add_comm]
      exact hbound.le
    rw [roundEven_intCast, hm] at this
    exact_mod_cast this
  have hemin : F.emin ≤ F.spacing q := le_max_right _ _
  have hrnd : F.rnd q = m * 2 ^ F.spacing q := by rw [rnd, hm]; simp
  rw [hrnd]
  rcases hle.lt_or_eq with hlt | rfl
  · exact F.rnd_natCast_mul_zpow hlt hemin
  · -- the significand has grown a bit: the number is a power of two
    have h1 := F.rnd_natCast_mul_zpow (m := 1) (e := F.spacing q + F.prec) (Nat.one_lt_two_pow F.prec_pos.ne')
      (by omega)
    have hpow : ((2 ^ F.prec : ℕ) : ℚ) * 2 ^ F.spacing q = (1 : ℕ) * 2 ^ (F.spacing q + F.prec) := by
      push_cast
      rw [zpow_add₀ (by norm_num), zpow_natCast]
      ring
    rw [hpow, h1]

/-- Rounding does not come below a number of the format that is below. -/
theorem le_rnd {q : ℚ} {m : ℕ} {e : ℤ} (hm : m < 2 ^ F.prec) (he : F.emin ≤ e) (h : m * 2 ^ e ≤ q) :
    m * 2 ^ e ≤ F.rnd q :=
  F.rnd_natCast_mul_zpow hm he ▸ F.rnd_mono (by positivity) h

/-- **Rounding moves a number below `2 ^ e` by half the spacing there at most.** -/
theorem abs_rnd_sub_le {q : ℚ} {e : ℤ} (hq : 0 ≤ q) (hlt : q < 2 ^ e) (he : F.emin + F.prec ≤ e) :
    |F.rnd q - q| ≤ 2 ^ (e - F.prec - 1) := by
  rcases hq.eq_or_lt with rfl | hpos
  · rw [rnd_zero, sub_zero, abs_zero]
    positivity
  have hlog : Int.log 2 q < e :=
    (Int.lt_zpow_iff_log_lt (by norm_num) hpos).mp (by exact_mod_cast hlt)
  have hs : F.spacing q ≤ e - F.prec := by unfold spacing; omega
  have hspos : (0 : ℚ) < 2 ^ F.spacing q := by positivity
  have hunit : F.rnd q - q = (roundEven (q / 2 ^ F.spacing q) - q / 2 ^ F.spacing q) * 2 ^ F.spacing q := by
    rw [rnd, sub_mul, div_mul_cancel₀ q hspos.ne']
  calc |F.rnd q - q| = |(roundEven (q / 2 ^ F.spacing q) : ℚ) - q / 2 ^ F.spacing q| * 2 ^ F.spacing q := by
        rw [hunit, abs_mul, abs_of_pos hspos]
    _ ≤ 1 / 2 * 2 ^ (e - F.prec) :=
        mul_le_mul (abs_roundEven_sub_le _) (zpow_le_zpow_right₀ (by norm_num) hs) (by positivity) (by norm_num)
    _ = 2 ^ (e - F.prec - 1) := by
        rw [zpow_sub_one₀ (by norm_num)]
        ring

/-- **A factor below one keeps a product strictly below**, rounding included: the distance to
go is more than half the spacing. -/
theorem rnd_mul_lt {q r : ℚ} (hq : 0 ≤ q) (hq1 : q ≤ 1 - 2 ^ (-F.prec : ℤ))
    (hr : 2 ^ (F.emin + F.prec - 1 : ℤ) < r) : F.rnd (q * r) < r := by
  have hpos : 0 < r := lt_trans (by positivity) hr
  -- the powers of two around `r`
  obtain ⟨e, hlo, hhi⟩ : ∃ e : ℤ, (2 : ℚ) ^ (e - 1) < r ∧ r ≤ 2 ^ e := by
    refine ⟨Int.clog 2 r, ?_, ?_⟩
    · exact_mod_cast Int.zpow_pred_clog_lt_self (b := 2) (by norm_num) hpos
    · exact_mod_cast Int.self_le_zpow_clog (b := 2) (by norm_num) r
  have he : F.emin + F.prec ≤ e := by
    have h := (zpow_lt_zpow_iff_right₀ (by norm_num : (1 : ℚ) < 2)).mp (hr.trans_le hhi)
    omega
  have hhalf : (2 : ℚ) ^ (e - F.prec - 1 : ℤ) = 2 ^ (-F.prec : ℤ) * 2 ^ (e - 1) := by
    rw [← zpow_add₀ (by norm_num)]
    congr 1
    ring
  have hunit : (0 : ℚ) < 2 ^ (-F.prec : ℤ) := by positivity
  have hprod : q * r ≤ r - 2 ^ (-F.prec : ℤ) * r := by
    linarith [mul_le_mul_of_nonneg_right hq1 hpos.le]
  have hgap : (2 : ℚ) ^ (-F.prec : ℤ) * 2 ^ (e - 1) < 2 ^ (-F.prec : ℤ) * r :=
    mul_lt_mul_of_pos_left hlo hunit
  have hnear := abs_le.mp (F.abs_rnd_sub_le (mul_nonneg hq hpos.le)
    (lt_of_lt_of_le (by linarith [mul_pos hunit hpos]) hhi) he)
  rw [hhalf] at hnear
  linarith [hnear.2]

/-- The same where the other factor is itself rounded, and may have been rounded up. -/
theorem rnd_mul_rnd_lt {q r : ℚ} (hq : 0 ≤ q) (hq1 : q ≤ 1 - 2 ^ (-F.prec : ℤ)) (hr : 0 ≤ r)
    (hrnd : 2 ^ (F.emin + F.prec - 1 : ℤ) < F.rnd r) : F.rnd (q * F.rnd r) < r := by
  by_contra! hle
  -- rounding again would give a number at least `F.rnd r`
  have h := F.rnd_mono hr hle
  rw [F.rnd_rnd (mul_nonneg hq (F.rnd_nonneg hr))] at h
  exact absurd (F.rnd_mul_lt hq hq1 hrnd) (not_lt.mpr h)
/-- **Rounding comes up to a number of the format** from less than half the spacing below it. -/
theorem le_rnd_of_near {q : ℚ} {e k : ℤ} (hlo : 2 ^ F.prec < 2 * k) (hhi : k ≤ 2 ^ F.prec)
    (he : F.emin + F.prec ≤ e) (h : (k - 1 / 2) * 2 ^ (e - F.prec : ℤ) < q) :
    k * 2 ^ (e - F.prec : ℤ) ≤ F.rnd q := by
  have hlo' : (2 ^ F.prec : ℚ) + 1 ≤ 2 * k := by exact_mod_cast hlo
  have hhi' : (k : ℚ) ≤ 2 ^ F.prec := by exact_mod_cast hhi
  have hexp : e - 1 - (F.prec - 1 : ℤ) = e - F.prec := by ring
  have htop : (2 : ℚ) ^ e = 2 ^ F.prec * 2 ^ (e - F.prec : ℤ) := by
    rw [← zpow_natCast, ← zpow_add₀ (by norm_num), add_sub_cancel]
  have hhalf : (2 : ℚ) ^ (e - 1) = 2 ^ e / 2 := by rw [zpow_sub_one₀ (by norm_num), div_eq_mul_inv]
  generalize hu : (2 : ℚ) ^ (e - F.prec : ℤ) = u at h htop ⊢
  have hpos : 0 < u := hu ▸ by positivity
  -- a number below both
  have hmin : (k - 1 / 2) * u < min q ((k - 1 / 4) * u) := lt_min h (by nlinarith)
  have hle : min q ((k - 1 / 4) * u) ≤ (k - 1 / 4) * u := min_le_right _ _
  generalize hr : min q ((k - 1 / 4) * u) = r at hmin hle
  have hrnd := F.rnd_eq (q := r) (e := e - 1) (k := k) (by rw [hhalf, htop]; nlinarith)
    (by rw [sub_add_cancel, htop]; nlinarith) (by omega) (by
      rw [hexp, hu, abs_lt, lt_sub_iff_add_lt, sub_lt_iff_lt_add, lt_div_iff₀ hpos, div_lt_iff₀ hpos]
      constructor <;> linarith)
  rw [hexp, hu] at hrnd
  exact hrnd ▸ F.rnd_mono (by nlinarith) (hr ▸ min_le_left _ _)

/-! ### With a sign -/

/-- A number rounded with its sign. -/
def near (q : ℚ) : ℚ := if q < 0 then -F.rnd (-q) else F.rnd q

variable {F} in
theorem near_of_nonneg {q : ℚ} (h : 0 ≤ q) : F.near q = F.rnd q := if_neg (not_lt.mpr h)

theorem near_neg (q : ℚ) : F.near (-q) = -F.near q := by
  rcases lt_trichotomy q 0 with h | rfl | h
  · rw [near_of_nonneg (neg_nonneg.mpr h.le), near, if_pos h, neg_neg]
  · simp [near]
  · rw [near_of_nonneg h.le, near, if_pos (neg_neg_of_pos h), neg_neg]

end Format

end Shuffle3.Foundations
