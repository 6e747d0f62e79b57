import Shuffle3.V2.Ranges

/-!
# The values that xoroshiro128plus draws

A sample of `xoroshiro128plus` is the low 53 bits of the output, a whole number of
units of `2⁻⁵³`. For a bound up to `2⁵²` one unit more of the sample is half a unit
more of the product at most, so above every value below the bound there is a product
within half a unit of it, which rounding leaves below the next value.

## What is proved

* `exists_scaled` — every value below the bound has a sample that draws it.
* `nextLong_range` — the draws for a bound are the values below it.
-/

namespace Shuffle3.V2

open Foundations Floating

/-! ### A sample for a value -/

/-- The least product of `i` that is `j` units of `2⁻⁵³` or more. -/
theorem exists_product {i j : ℕ} (hi : i ≤ 2 ^ 53) (hj : j < i) :
    ∃ r : ℕ, r < 2 ^ 53 ∧ j * 2 ^ 53 ≤ r * i ∧ r * i < j * 2 ^ 53 + i := by
  have hpos : 0 < i := by omega
  have hlo := Nat.lt_div_mul_add (a := j * 2 ^ 53 + (i - 1)) hpos
  have hhi := Nat.div_mul_le_self (j * 2 ^ 53 + (i - 1)) i
  generalize (j * 2 ^ 53 + (i - 1)) / i = r at hlo hhi
  have hr : r * i < 2 ^ 53 * i := by omega
  exact ⟨r, lt_of_mul_lt_mul_right hr i.zero_le, by omega, by omega⟩

/-- **Every value below the bound has a sample that draws it.** -/
theorem exists_scaled {i j : ℕ} (hi : i ≤ 2 ^ 52) (hj : j < i) :
    ∃ r : ℕ, r < 2 ^ 53 ∧ scaled (r / 2 ^ 53) i = j := by
  obtain ⟨r, hr, hlo, hhi⟩ := exists_product (hi.trans (by norm_num)) hj
  refine ⟨r, hr, ?_⟩
  have hprod : (r / 2 ^ 53 * i : ℚ) = (r * i : ℕ) / 2 ^ 53 := by
    push_cast
    ring
  have hlo' : (j : ℚ) ≤ (r * i : ℕ) / 2 ^ 53 := by
    rw [le_div_iff₀ (by norm_num)]
    exact_mod_cast hlo
  have hhi' : ((r * i : ℕ) : ℚ) / 2 ^ 53 < j + 1 / 2 := by
    have h : 2 * (r * i) < 2 * j * 2 ^ 53 + 2 ^ 53 := by omega
    have h' : (2 * (r * i : ℕ) : ℚ) < 2 * j * 2 ^ 53 + 2 ^ 53 := by exact_mod_cast h
    rw [div_lt_iff₀ (by norm_num)]
    linarith
  have hnext : (j : ℚ) + 1 ≤ 2 ^ 52 := by exact_mod_cast (show j + 1 ≤ 2 ^ 52 by omega)
  have hq : (0 : ℚ) ≤ (r * i : ℕ) / 2 ^ 53 := by positivity
  -- rounding does not come below the value, nor up to the next
  have hdown := binary64.rnd_mono (Nat.cast_nonneg j) hlo'
  rw [rnd_natCast (by omega)] at hdown
  have hnear := abs_le.mp
    (binary64.abs_rnd_sub_le (e := (52 : ℕ)) hq (by rw [zpow_natCast]; linarith) (by decide))
  have hquarter : (2 : ℚ) ^ ((52 : ℕ) - binary64.prec - 1 : ℤ) = 1 / 4 := by
    have hexp : ((52 : ℕ) - binary64.prec - 1 : ℤ) = -2 := by decide
    rw [hexp]
    norm_num
  rw [hquarter] at hnear
  rw [scaled, hprod]
  exact (Nat.floor_eq_iff (binary64.rnd_nonneg hq)).mpr ⟨hdown, by linarith [hnear.2]⟩

namespace Xoroshiro128plus

/-! ### The draw of an output -/

/-- The draw for the bound `i` that an output of the generator makes. -/
def outputDraw (i : ℕ) (v : BitVec 64) : ℕ := scaled (lowBits v / 2 ^ 53) i

/-- Every number of 64 bits is the output of a state. -/
theorem next_surjective (v : BitVec 64) : ∃ s, (next s).1 = v := ⟨⟨v, 0⟩, BitVec.add_zero v⟩

theorem nextLong_eq_outputDraw {i : ℕ} (hi : i ≤ 2 ^ 53) (s : Xoroshiro128plus) :
    nextLong sample i s = some (BitVec.ofNat 64 (outputDraw i (next s).1), (sample s).2) := by
  rw [nextLong_eq (sample_between s) hi, (sample_eq s).2]
  rfl

theorem outputDraw_lt {i : ℕ} (hi : 0 < i) (v : BitVec 64) : outputDraw i v < i :=
  scaled_lt (by positivity) (sample_le (lowBits_lt v)) hi

/-- More in the low bits does not draw less. -/
theorem outputDraw_mono (i : ℕ) {v w : BitVec 64} (h : lowBits v ≤ lowBits w) :
    outputDraw i v ≤ outputDraw i w :=
  scaled_mono (by positivity) (div_le_div_of_nonneg_right (by exact_mod_cast h) (by norm_num)) i

theorem exists_outputDraw {i j : ℕ} (hi : i ≤ 2 ^ 52) (hj : j < i) : ∃ v, outputDraw i v = j := by
  obtain ⟨r, hr, hdraw⟩ := exists_scaled hi hj
  have hbits : lowBits (BitVec.ofNat 64 r) = r := by
    rw [lowBits_eq, BitVec.toNat_ofNat]
    omega
  exact ⟨BitVec.ofNat 64 r, by rw [outputDraw, hbits, hdraw]⟩

/-- **The draws for a bound are the values below it.** The output of the generator takes every
value of 64 bits, a draw depends on it through its low 53 bits, in which it is monotone, its
product is not rounded up to the bound, and each value below the bound is drawn. -/
theorem nextLong_range {i : ℕ} (hpos : 1 ≤ i) (hi : i ≤ 2 ^ 52) :
    (∀ v, ∃ s, (next s).1 = v) ∧
    (∀ s, ∃ j, nextLong sample i s = some (j, (next s).2) ∧ j.toNat = outputDraw i (next s).1) ∧
    Set.range (outputDraw i) = Set.Iio i ∧
    (∀ v, binary64.rnd (lowBits v / 2 ^ 53 * i) < i) ∧
    ∀ v w, lowBits v ≤ lowBits w → outputDraw i v ≤ outputDraw i w := by
  refine ⟨next_surjective, fun s => ?_, ?_, fun v => ?_, fun v w => outputDraw_mono i⟩
  · have hlt := outputDraw_lt hpos (next s).1
    refine ⟨_, nextLong_eq_outputDraw (by omega) s, ?_⟩
    rw [BitVec.toNat_ofNat, Nat.mod_eq_of_lt (by omega)]
  · ext j
    constructor
    · rintro ⟨v, rfl⟩
      exact outputDraw_lt hpos v
    · exact exists_outputDraw hi
  · exact (Nat.floor_lt (binary64.rnd_nonneg (by positivity))).mp (outputDraw_lt hpos v)

/-- The draws for a bound of three. -/
theorem nextLong_range_three : Set.range (outputDraw 3) = Set.Iio 3 :=
  (nextLong_range (i := 3) (by norm_num) (by norm_num)).2.2.1

end Xoroshiro128plus

end Shuffle3.V2
