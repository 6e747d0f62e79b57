import Shuffle3.Foundations.Floating
import Mathlib.Tactic.NormNum

/-!
# Single-precision bit patterns

The 32-bit patterns that single-precision numbers are kept in: a sign bit, eight
bits of exponent and 23 of fraction. Copying a pattern keeps a NaN's payload,
which the number it stands for does not have.

## What is proved

* `Single.abs_val_le` — the finite patterns lie between the greatest finite
  number and its negation.
* `Single.finite_iff_tests` — three comparisons tell them from the special values.
-/

namespace Shuffle3.Foundations

/-- A single-precision bit pattern. -/
@[ext]
structure Single where
  /-- The pattern. -/
  bits : BitVec 32
  deriving DecidableEq

namespace Single

/-- The sign bit. -/
def sign (f : Single) : Bool := 2 ^ 31 ≤ f.bits.toNat

/-- The biased exponent. -/
def exponent (f : Single) : ℕ := f.bits.toNat / 2 ^ 23 % 2 ^ 8

/-- The fraction bits. -/
def fraction (f : Single) : ℕ := f.bits.toNat % 2 ^ 23

/-- The significand, with its leading bit unless the exponent is `0`. -/
def significand (f : Single) : ℕ := if f.exponent = 0 then f.fraction else 2 ^ 23 + f.fraction

/-- The exponent of the significand's last bit. -/
def scale (f : Single) : ℤ := max f.exponent 1 - 150

theorem significand_lt (f : Single) : f.significand < 2 ^ 24 := by
  have : f.fraction < 2 ^ 23 := Nat.mod_lt _ (by decide)
  unfold significand
  split_ifs <;> omega

theorem le_scale (f : Single) : -149 ≤ f.scale := by
  unfold scale
  omega

theorem scale_le {f : Single} (h : f.exponent ≠ 255) : f.scale ≤ 104 := by
  have : f.exponent < 2 ^ 8 := Nat.mod_lt _ (by decide)
  unfold scale
  omega

theorem num_le {f : Single} (h : f.exponent ≠ 255) :
    (f.significand : ℚ) * 2 ^ f.scale ≤ (2 ^ 24 - 1) * 2 ^ 104 := by
  have hs : (f.significand : ℚ) ≤ 2 ^ 24 - 1 := by
    have := f.significand_lt
    rw [le_sub_iff_add_le]
    exact_mod_cast this
  have he : (2 : ℚ) ^ f.scale ≤ 2 ^ 104 := by
    rw [← zpow_natCast]
    exact zpow_le_zpow_right₀ (by norm_num) (scale_le h)
  exact mul_le_mul hs he (by positivity) (by norm_num)

/-- The magnitude of a finite pattern. -/
def magnitude (f : Single) (h : f.exponent ≠ 255) : Magnitude binary32 where
  num := f.significand * 2 ^ f.scale
  nonneg := by positivity
  fits := binary32.rnd_natCast_mul_zpow f.significand_lt f.le_scale
  lt := lt_of_le_of_lt (num_le h) (by norm_num [binary32])

/-- The number a pattern stands for. -/
def toFloating (f : Single) : Floating binary32 :=
  if h : f.exponent = 255 then if f.fraction = 0 then .inf f.sign else .nan
  else .fin f.sign (f.magnitude h)

/-- `-f`. -/
def neg (f : Single) : Single := ⟨f.bits ^^^ 0x80000000#32⟩

instance : LT Single := ⟨fun f g => f.toFloating.lt g.toFloating⟩

instance : DecidableLT Single :=
  fun f g => inferInstanceAs (Decidable (f.toFloating.lt g.toFloating = true))

/-- `f == g`. -/
def eq (f g : Single) : Bool := f.toFloating.eq g.toFloating

theorem lt_def {f g : Single} : f < g ↔ f.toFloating.lt g.toFloating = true := Iff.rfl

/-- The greatest finite number. -/
def max : Single := ⟨0x7f7fffff#32⟩

/-- The value of a finite pattern. -/
def val (f : Single) : ℚ := f.toFloating.val

/-- Neither a NaN nor an infinity. -/
def finite (f : Single) : Bool := f.toFloating.finite

theorem toFloating_of_ne {f : Single} (h : f.exponent ≠ 255) :
    f.toFloating = .fin f.sign (f.magnitude h) := dif_neg h

theorem finite_iff {f : Single} : f.finite ↔ f.exponent ≠ 255 := by
  unfold finite toFloating
  by_cases h : f.exponent = 255
  · by_cases h0 : f.fraction = 0 <;> simp [h, h0, Floating.finite]
  · simp [h, Floating.finite]

theorem lt_iff_val {f g : Single} (hf : f.finite) (hg : g.finite) : f < g ↔ f.val < g.val :=
  lt_def.trans (Floating.lt_iff_val hf hg)

theorem eq_iff_val {f g : Single} (hf : f.finite) (hg : g.finite) : f.eq g ↔ f.val = g.val :=
  Floating.eq_iff_val hf hg

theorem finite_max : max.finite := finite_iff.mpr (by decide)

theorem finite_neg_max : max.neg.finite := finite_iff.mpr (by decide)

theorem val_max : max.val = (2 ^ 24 - 1) * 2 ^ 104 := by
  have hs : max.significand = 2 ^ 24 - 1 := by decide
  have he : max.scale = (104 : ℕ) := by decide
  rw [val, toFloating_of_ne (by decide), show max.sign = false by decide]
  simp only [Floating.val, magnitude, hs, he, zpow_natCast]
  norm_num

theorem val_neg_max : max.neg.val = -((2 ^ 24 - 1) * 2 ^ 104) := by
  have hs : max.neg.significand = 2 ^ 24 - 1 := by decide
  have he : max.neg.scale = (104 : ℕ) := by decide
  rw [val, toFloating_of_ne (by decide), show max.neg.sign = true by decide]
  simp only [Floating.val, magnitude, hs, he, zpow_natCast]
  norm_num

theorem abs_val_le {f : Single} (h : f.finite) : |f.val| ≤ (2 ^ 24 - 1) * 2 ^ 104 := by
  have hne := finite_iff.mp h
  have hle := num_le hne
  have hnn : (0 : ℚ) ≤ f.significand * 2 ^ f.scale := by positivity
  rw [val, toFloating_of_ne hne]
  cases f.sign <;> simp only [Floating.val, magnitude, abs_neg] <;> rwa [abs_of_nonneg hnn]

/-- **Testing for a NaN and against the greatest finite number leaves out exactly
the special values.** -/
theorem finite_iff_tests {f : Single} : f.finite ↔ f.eq f ∧ ¬ f < max.neg ∧ ¬ max < f := by
  constructor
  · intro h
    have habs := abs_le.mp (abs_val_le h)
    refine ⟨(eq_iff_val h h).mpr rfl, ?_, ?_⟩
    · rw [lt_iff_val h finite_neg_max, val_neg_max, not_lt]
      exact habs.1
    · rw [lt_iff_val finite_max h, val_max, not_lt]
      exact habs.2
  · rintro ⟨heq, hlo, hhi⟩
    by_contra h
    rw [finite_iff, not_not] at h
    rw [lt_def, toFloating_of_ne (show max.neg.exponent ≠ 255 by decide)] at hlo
    rw [lt_def, toFloating_of_ne (show max.exponent ≠ 255 by decide)] at hhi
    rw [eq] at heq
    -- an infinity is beyond one of the bounds, a NaN is not equal to itself
    unfold toFloating at heq hlo hhi
    by_cases h0 : f.fraction = 0
    · cases hs : f.sign <;> simp [h, h0, hs, Floating.lt] at hlo hhi
    · simp [h, h0, Floating.eq] at heq

end Single

end Shuffle3.Foundations
