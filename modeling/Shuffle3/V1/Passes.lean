import Shuffle3.Foundations.Single
import Shuffle3.V1.Rng

/-!
# The passes of the first version

`shuffle3` and `unshuffle3`: three passes over one array, seen as elements of eight
bytes, of four and of one. A pass scans the array for its seeds, seeds a generator
and shuffles or unshuffles with it. The indices are of type `int`.

The scans start from sentinels, and test an element for the maximum and for the
minimum, each time reading it anew.

## Honest scope

What is printed is left out. An array of `rng_values` of no items, or of fewer, is
empty. A shift of a negative number is that of its bits.
-/

namespace Shuffle3.V1

open Foundations

variable {L : Libc} {S : Type}

/-! ### Shuffling -/

/-- The conversion of a `long` to `int`. -/
def toInt (k : ℤ) : ℤ := (BitVec.ofInt 32 k).toInt

/-- The loop of `shuffle`, from index `i` down to 1. -/
def shuffleLoop (rng : RngAlgo L S) : ℕ → Statics L → ArrayT → Option (Statics L × ArrayT)
  | 0, t, data => some (t, data)
  | i + 1, t, data => do
    let (j, t) ← rngNextInt rng (i + 1 : ℕ) t
    let data ← arSwap data (i + 1 : ℕ) j.toInt
    shuffleLoop rng i t data

/-- `shuffle`. -/
def shuffle (rng : RngAlgo L S) (t : Statics L) (data : ArrayT) : Option (Statics L × ArrayT) :=
  shuffleLoop rng (toInt (data.size - 1)).toNat t data

/-- The first loop of `unshuffle`, from index `i` down to 1. The last draw is first. -/
def drawLoop (rng : RngAlgo L S) : ℕ → List Int32 → Statics L → Option (List Int32 × Statics L)
  | 0, rngValues, t => some (rngValues, t)
  | i + 1, rngValues, t => do
    let (j, t) ← rngNextInt rng (i + 1 : ℕ) t
    drawLoop rng i (j :: rngValues) t

/-- The second loop of `unshuffle`, `k` rounds from index `i` up. Its index is
undefined past the largest `int`, as is a draw that was not made. -/
def swapLoop : ℕ → ℕ → List Int32 → ArrayT → Option ArrayT
  | 0, _, _, data => some data
  | _ + 1, _, [], _ => none
  | k + 1, i, j :: rngValues, data => do
    let data ← arSwap data i j.toInt
    if i < intMax then swapLoop k (i + 1) rngValues data else none

/-- `unshuffle`. -/
def unshuffle (rng : RngAlgo L S) (t : Statics L) (data : ArrayT) :
    Option (Statics L × ArrayT) := do
  let (rngValues, t) ← drawLoop rng (toInt (data.size - 1)).toNat [] t
  let data ← swapLoop (data.size - 1) 1 rngValues data
  some (t, data)

/-- `unshuffle` when `un`, and else `shuffle`. -/
def shuffleOr (un : Bool) (rng : RngAlgo L S) (t : Statics L) (data : ArrayT) :
    Option (Statics L × ArrayT) :=
  if un then unshuffle rng t data else shuffle rng t data

/-! ### Scanning -/

section Scan

variable (τ : Type) [Layout τ]

/-- A variable of a scan takes the element at `i` on a condition. -/
def assignIf (c : Bool) (i : ℕ) (var : τ) (data : ArrayT) : Option (τ × ArrayT) :=
  if c then arGetV τ data i else some (var, data)

/-- The tests of a scan for the element at `i`, with the minimum, the maximum and the
array before and after. -/
def minmaxTests [LT τ] [DecidableLT τ] (i : ℕ) (p : τ × τ × ArrayT) : Option (τ × τ × ArrayT) := do
  let (min, max, data) := p
  let (x, data) ← arGetV τ data i
  let (max, data) ← assignIf τ (x > max) i max data
  let (x, data) ← arGetV τ data i
  let (min, data) ← assignIf τ (x < min) i min data
  some (min, max, data)

end Scan

/-- The loop of a scan, `k` rounds from index `i` up. Its index is undefined past the
largest `int`. -/
def scanLoop {σ : Type} (body : ℕ → σ → Option σ) : ℕ → ℕ → σ → Option σ
  | 0, _, p => some p
  | k + 1, i, p => do
    let p ← body i p
    if i < intMax then scanLoop body k (i + 1) p else none

/-- `minmax_int64_ts`. -/
def minmaxInt64Ts (min max : Int64) (data : ArrayT) : Option (Int64 × Int64 × ArrayT) :=
  scanLoop (minmaxTests Int64) data.size 0 (min, max, data)

/-- `valid_float`. -/
def validFloat (f : Single) : Bool := !(!f.eq f || (f < Single.max.neg || f > Single.max))

/-- The tests of `minmax_floats` for the element at `i`. -/
def floatTests (i : ℕ) (p : Single × Single × ArrayT) : Option (Single × Single × ArrayT) := do
  let (min, max, data) := p
  let (x, data) ← arGetV Single data i
  if !validFloat x then some (min, max, data) else minmaxTests Single i (min, max, data)

/-- `minmax_floats`. -/
def minmaxFloats (min max : Single) (data : ArrayT) : Option (Single × Single × ArrayT) :=
  scanLoop floatTests data.size 0 (min, max, data)

/-- `minmax_sbytes`. -/
def minmaxSbytes (min max : Int8) (data : ArrayT) : Option (Int8 × Int8 × ArrayT) :=
  scanLoop (minmaxTests Int8) data.size 0 (min, max, data)

/-! ### The passes -/

/-- The pass over elements of type `int64_t`. -/
def xoroPass (L : Libc) (un : Bool) (t : Statics L) (data : ArrayT) :
    Option (Statics L × ArrayT) := do
  let (min, max, data) ← minmaxInt64Ts Int64.maxValue Int64.minValue data
  shuffleOr un (xoroshiro128plus L) (rngSeed (xoroshiro128plus L) (min.toBitVec, max.toBitVec) t) data

/-- `(float)DBL_MAX`, which rounds to infinity. -/
def floatDblMax : Single := ⟨0x7f800000#32⟩

theorem floatDblMax_eq :
    floatDblMax.toFloating = Floating.ofRat binary32 ((2 ^ 53 - 1) * 2 ^ 971) := by
  have hinf : floatDblMax.toFloating = .inf false := by decide
  have hpos : (0 : ℚ) ≤ (2 ^ 53 - 1) * 2 ^ 971 := mul_nonneg (by norm_num) (by positivity)
  have hle : (2 : ℚ) ^ 128 ≤ (2 ^ 53 - 1) * 2 ^ 971 := by
    calc (2 : ℚ) ^ 128 ≤ 2 ^ 971 := pow_le_pow_right₀ (by norm_num) (by norm_num)
      _ ≤ (2 ^ 53 - 1) * 2 ^ 971 := le_mul_of_one_le_left (by positivity) (by norm_num)
  have hlarge : (2 : ℚ) ^ binary32.emax ≤ binary32.rnd |(2 ^ 53 - 1) * 2 ^ 971| := by
    have h := binary32.le_rnd (m := 1) (e := (128 : ℕ)) (q := |(2 ^ 53 - 1) * 2 ^ 971|) (by decide) (by decide)
      (by rwa [Nat.cast_one, one_mul, zpow_natCast, abs_of_nonneg hpos])
    rwa [Nat.cast_one, one_mul, zpow_natCast] at h
  rw [hinf, Floating.ofRat, Floating.round, dif_neg (not_lt.mpr hlarge), decide_eq_false (not_lt.mpr hpos)]

/-- The pass over elements of type `float`. -/
def floatPass (L : Libc) (un : Bool) (t : Statics L) (data : ArrayT) :
    Option (Statics L × ArrayT) := do
  let (fmin, fmax, data) ← minmaxFloats floatDblMax floatDblMax.neg data
  let fseed : V2.Double × V2.Double :=
    (fmin.toFloating.convert binary64, fmax.toFloating.convert binary64)
  shuffleOr un (frng L) (rngSeed (frng L) fseed t) data

/-- The pass over elements of type `int8_t`. -/
def bytePass (L : Libc) (un : Bool) (t : Statics L) (data : ArrayT) :
    Option (Statics L × ArrayT) := do
  let (bmin, bmax, data) ← minmaxSbytes Int8.maxValue Int8.minValue data
  let seed :=
    (0xfffa#32 <<< 16) ||| (bmin.toBitVec.signExtend 32 <<< 8) ||| bmax.toBitVec.signExtend 32
  shuffleOr un (drng L) (rngSeed (drng L) seed t) data

/-- `shuffle3` up to the end of its first pass. -/
def shuffle3Xoro (L : Libc) (t : Statics L) (data : ArrayT) : Option (Statics L × ArrayT) :=
  xoroPass L false t (if data.element ≠ 8 then arReinterpret data 8 else data)

/-- `shuffle3` up to the end of its second pass. -/
def shuffle3Float (L : Libc) (t : Statics L) (data : ArrayT) : Option (Statics L × ArrayT) := do
  let (t, data) ← shuffle3Xoro L t data
  floatPass L false t (arReinterpret data 4)

/-- `shuffle3`. -/
def shuffle3 (L : Libc) (t : Statics L) (data : ArrayT) : Option (Statics L × ArrayT) := do
  let (t, data) ← shuffle3Float L t data
  bytePass L false t (arReinterpret data 1)

/-- `unshuffle3` up to the end of its second pass. -/
def unshuffle3Float (L : Libc) (t : Statics L) (data : ArrayT) : Option (Statics L × ArrayT) := do
  let (t, data) ← bytePass L true t (if data.element ≠ 1 then arReinterpret data 1 else data)
  floatPass L true t (arReinterpret data 4)

/-- `unshuffle3`. -/
def unshuffle3 (L : Libc) (t : Statics L) (data : ArrayT) : Option (Statics L × ArrayT) := do
  let (t, data) ← unshuffle3Float L t data
  xoroPass L true t (arReinterpret data 8)

end Shuffle3.V1
