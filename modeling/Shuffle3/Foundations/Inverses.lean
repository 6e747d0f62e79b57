import Mathlib.NumberTheory.Multiplicity

/-!
# Inverses modulo a power of two

An odd number is its own inverse modulo 8, and a step of Newton's iteration doubles the
number of bits that an inverse is right to. So a few steps compute the inverse of an
odd number modulo any power of two, and it is the only one.

## What is proved

* `sub_mul_inverseIter` — what the error is after so many steps.
* `mul_inverseIter` — after enough of them there is none.
* `eq_inverseIter` — the inverse that is computed is the only one.
-/

namespace Shuffle3.Foundations

/-- One step of Newton's iteration for the inverse of `d` modulo `m`. -/
def inverseStep (m d x : ℕ) : ℕ := x * (m + 2 - d * x % m) % m

/-- So many steps from `d` itself, modulo `2 ^ m`. -/
def inverseIter (m d : ℕ) : ℕ → ℕ
  | 0 => d % 2 ^ m
  | j + 1 => inverseStep (2 ^ m) d (inverseIter m d j)

variable {m d j x : ℕ}

theorem inverseIter_lt (m d j : ℕ) : inverseIter m d j < 2 ^ m := by
  cases j <;> exact Nat.mod_lt _ (by positivity)

/-- A step squares the error. -/
theorem sub_mul_inverseStep (hm : 0 < m) (d x : ℕ) :
    1 - (d : ℤ) * inverseStep m d x ≡ (1 - d * x) ^ 2 [ZMOD m] := by
  have hle : d * x % m ≤ m + 2 := (Nat.mod_lt _ hm).le.trans (by omega)
  have hmod : ((d * x % m : ℕ) : ℤ) ≡ d * x [ZMOD m] := by
    rw [Int.natCast_mod, Nat.cast_mul]
    exact Int.mod_modEq _ _
  have hself : (m : ℤ) ≡ 0 [ZMOD m] := Int.modEq_zero_iff_dvd.mpr dvd_rfl
  have hstep : (inverseStep m d x : ℤ) ≡ x * (0 + 2 - d * x) [ZMOD m] := by
    rw [inverseStep, Int.natCast_mod, Nat.cast_mul, Nat.cast_sub hle, Nat.cast_add, Nat.cast_ofNat]
    exact (Int.mod_modEq _ _).trans (((hself.add_right 2).sub hmod).mul_left _)
  calc 1 - (d : ℤ) * inverseStep m d x
      ≡ 1 - d * (x * (0 + 2 - d * x)) [ZMOD m] := (hstep.mul_left _).sub_left 1
    _ = (1 - d * x) ^ 2 := by ring

/-- The error after so many steps. -/
theorem sub_mul_inverseIter (m d j : ℕ) :
    1 - (d : ℤ) * inverseIter m d j ≡ (1 - d * d) ^ 2 ^ j [ZMOD (2 ^ m : ℕ)] := by
  induction j with
  | zero =>
    have hmod : ((d % 2 ^ m : ℕ) : ℤ) ≡ d [ZMOD (2 ^ m : ℕ)] := by
      rw [Int.natCast_mod]
      exact Int.mod_modEq _ _
    rw [inverseIter, pow_zero, pow_one]
    exact (hmod.mul_left _).sub_left 1
  | succ j ih =>
    rw [pow_succ, pow_mul]
    exact (sub_mul_inverseStep (by positivity) d _).trans (ih.pow 2)

/-- **The inverse of an odd number.** -/
theorem mul_inverseIter (hd : d % 2 = 1) (hm : m ≤ 3 * 2 ^ j) :
    d * inverseIter m d j ≡ 1 [MOD 2 ^ m] := by
  have h8 : (2 : ℤ) ^ 3 ∣ 1 - d * d := by
    have hsq := Int.eight_dvd_sq_sub_one_of_odd (k := d) (by exact_mod_cast Nat.odd_iff.mpr hd)
    rw [← dvd_neg, neg_sub, ← sq]
    exact hsq
  have hpow : ((2 ^ m : ℕ) : ℤ) ∣ (1 - d * d) ^ 2 ^ j := by
    rw [Nat.cast_pow, Nat.cast_ofNat]
    exact (pow_dvd_pow 2 hm).trans (by rw [pow_mul]; exact pow_dvd_pow_of_dvd h8 _)
  have herr := (sub_mul_inverseIter m d j).trans (Int.modEq_zero_iff_dvd.mpr hpow)
  rw [← Int.natCast_modEq_iff, Nat.cast_mul, Nat.cast_one]
  have hadd := herr.add_right (d * inverseIter m d j : ℤ)
  rw [sub_add_cancel, zero_add] at hadd
  exact hadd.symm

theorem eq_inverseIter (hm : m ≤ 3 * 2 ^ j) (hd : d % 2 = 1) (hx : x < 2 ^ m)
    (h : d * x ≡ 1 [MOD 2 ^ m]) :
    x = inverseIter m d j := by
  refine Nat.ModEq.eq_of_lt_of_lt ?_ hx (inverseIter_lt m d j)
  calc x = x * 1 := (mul_one x).symm
    _ ≡ x * (d * inverseIter m d j) [MOD 2 ^ m] := (mul_inverseIter hd hm).symm.mul_left x
    _ = d * x * inverseIter m d j := by ring
    _ ≡ 1 * inverseIter m d j [MOD 2 ^ m] := h.mul_right _
    _ = inverseIter m d j := one_mul _

end Shuffle3.Foundations
