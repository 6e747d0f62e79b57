import Shuffle3.Foundations.Floating

/-!
# The generators

The three generators of the second version and the draw all three inherit,
`RNG::next_long`: a sample scaled to the bound and rounded down. Each `double`
operation rounds on its own.

## What is proved

* `Frng.sample_congr` — the samples of `frng` do not see the sign of a zero seed.
-/

namespace Shuffle3.V2

open Foundations Floating

/-- A `double`. -/
abbrev Double := Floating binary64

/-- The functions of the C library that the generators call. -/
structure Libc where
  /-- `sin`. -/
  sin : Double → Double
  /-- `rand_r`: the value, and the state it leaves. -/
  randR : BitVec 32 → BitVec 32 × BitVec 32

/-- `RAND_MAX`. -/
def randMax : BitVec 32 := 0x7fffffff#32

/-! ### Draws -/

/-- `sample()` of a generator with states in `σ`: the sample, and the state it leaves. -/
abbrev Sample (σ : Type) := σ → Double × σ

/-- What a span is indexed by. -/
class Index (δ : Type) where
  /-- The index it is converted to. -/
  toNat : δ → ℕ

instance : Index ℕ := ⟨id⟩

instance : Index (BitVec 64) := ⟨BitVec.toNat⟩

/-- A draw up to a bound: `next_long(i)`, or any function in its place. -/
abbrev NextLong (δ σ : Type) := ℕ → σ → Option (δ × σ)

/-- The conversion of a `double` to `int64_t`, undefined where the integer part
does not fit. -/
def toInt64? (x : Double) : Option (BitVec 64) :=
  x.toInt?.bind fun k => if -2 ^ 63 ≤ k ∧ k < 2 ^ 63 then some (BitVec.ofInt 64 k) else none

variable {σ : Type}

/-- `RNG::next_long(min, max)`. -/
def nextLongBetween (sample : Sample σ) (min max : BitVec 64) (s : σ) : Option (BitVec 64 × σ) :=
  let (x, s) := sample s
  (toInt64? (x.mul (ofInt binary64 (max - min).toInt)).floor).map fun k => (k + min, s)

/-- The conversion of a `double` to a signed integer of `w` bits, undefined where the
integer part does not fit. -/
def toSigned? (w : ℕ) (x : Double) : Option (BitVec w) :=
  x.toInt?.bind fun k => if -2 ^ (w - 1) ≤ k ∧ k < 2 ^ (w - 1) then some (BitVec.ofInt w k) else none

/-- A draw between two bounds in the width of the bounds, in which the difference and
the sum wrap around. -/
def nextBetween (w : ℕ) (sample : Sample σ) (min max : BitVec w) (s : σ) : Option (BitVec w × σ) :=
  let (x, s) := sample s
  (toSigned? w (x.mul (ofInt binary64 (max - min).toInt)).floor).map fun k => (k + min, s)

/-- `RNG::next_int(min, max)`. -/
def nextIntBetween (sample : Sample σ) : BitVec 32 → BitVec 32 → σ → Option (BitVec 32 × σ) :=
  nextBetween 32 sample

/-- `RNG::next_int(max)`. -/
def nextInt (sample : Sample σ) (max : BitVec 32) : σ → Option (BitVec 32 × σ) :=
  nextIntBetween sample 0#32 max

/-- `RNG::next_long(max)`. -/
def nextLong (sample : Sample σ) : NextLong (BitVec 64) σ := fun max =>
  nextLongBetween sample 0#64 (BitVec.ofNat 64 max)

/-! ### xoroshiro128plus -/

/-- The state of `xoroshiro128plus`. -/
@[ext]
structure Xoroshiro128plus where
  s0 : BitVec 64
  s1 : BitVec 64
  deriving DecidableEq

namespace Xoroshiro128plus

/-- `rotl`. -/
def rotl (x : BitVec 64) (k : ℕ) : BitVec 64 := (x <<< k) ||| (x >>> (64 - k))

/-- `next`. -/
def next (s : Xoroshiro128plus) : BitVec 64 × Xoroshiro128plus :=
  let result := s.s0 + s.s1
  let s1 := s.s1 ^^^ s.s0
  (result, ⟨rotl s.s0 24 ^^^ s1 ^^^ (s1 <<< 16), rotl s1 37⟩)

/-- `xoroshiro128plus::sample`. -/
def sample : Sample Xoroshiro128plus := fun s =>
  let (r, s) := next s
  ((ofInt binary64 (r &&& (1#64 <<< 53) - 1).toNat).mul ((ofInt binary64 1).div (ofInt binary64 (2 ^ 53))), s)

end Xoroshiro128plus

/-! ### frng -/

/-- The state of `frng`. -/
@[ext]
structure Frng where
  s0 : Double
  s1 : Double
  deriving DecidableEq

namespace Frng

/-- `dot`. -/
def dot (v u : List Double) : Double :=
  (v.zip u).foldl (fun res (a, b) => res.add (a.mul b)) (zero binary64 false)

/-- `fract`. -/
def fract (x : Double) : Double := x.sub x.floor

/-- `vec2`. -/
def vec2 : List Double := [ofRat binary64 (129898 / 10000), ofRat binary64 (78223 / 1000)]

/-- `sample_double`. -/
def sampleDouble (L : Libc) (state : Frng) : Double :=
  fract ((L.sin (dot [state.s0, state.s1] vec2)).mul (ofRat binary64 (437585453 / 10000)))

/-- `update_state`. -/
def updateState (L : Libc) (state : Frng) (r : Double) : Frng :=
  let v1 : Floating binary32 := state.s0.convert binary32
  let v2 : Floating binary32 := state.s1.convert binary32
  ⟨sampleDouble L ⟨r, v2.convert binary64⟩, sampleDouble L ⟨r, v1.convert binary64⟩⟩

/-- `frng::sample`. -/
def sample (L : Libc) : Sample Frng := fun state =>
  let res := sampleDouble L state
  (res, updateState L state res)

end Frng

/-! ### drng -/

/-- The state of `drng`. -/
structure Drng where
  state : BitVec 32
  deriving DecidableEq

/-- `drng::sample`. -/
def Drng.sample (L : Libc) : Sample Drng := fun s =>
  let (val, state) := L.randR s.state
  ((ofInt binary64 val.toInt).div (ofInt binary64 randMax.toInt), ⟨state⟩)

/-! ### Seeds that compare equal -/

namespace Frng

/-- The same seeds but for the signs of zeros. -/
def Alike (s t : Frng) : Prop := Floating.Alike s.s0 t.s0 ∧ Floating.Alike s.s1 t.s1

/-- The dot product starts from a positive zero, so it does not see the sign of a
zero added to it. -/
theorem sampleDouble_congr {s t : Frng} (L : Libc) (h : Alike s t) :
    sampleDouble L s = sampleDouble L t := by
  have hdot : dot [s.s0, s.s1] vec2 = dot [t.s0, t.s1] vec2 := by
    have hzero : zero binary64 false ≠ zero binary64 true := by
      obtain ⟨m, hm, -⟩ := zero_eq_fin binary64 false
      obtain ⟨n, hn, -⟩ := zero_eq_fin binary64 true
      rw [hm, hn]
      simp
    simp only [dot, vec2, List.zip_cons_cons, List.zip_nil_right, List.foldl_cons, List.foldl_nil]
    rw [add_alike hzero h.1.mul, add_alike (zero_add_ne _) h.2.mul]
  rw [sampleDouble, sampleDouble, hdot]

/-- **Seeds that differ in the sign of a zero give the same sample and the same state.** -/
theorem sample_congr {s t : Frng} (L : Libc) (h : Alike s t) : sample L s = sample L t := by
  have hr := sampleDouble_congr L h
  have h0 := h.1.convert binary32
  have h1 := h.2.convert binary32
  simp only [sample, updateState, hr, Prod.mk.injEq, true_and]
  exact Frng.ext (sampleDouble_congr L ⟨.inl rfl, h1.convert binary64⟩)
    (sampleDouble_congr L ⟨.inl rfl, h0.convert binary64⟩)

end Frng

/-- A draw depends on the state through its sample. -/
theorem nextLong_congr {sample : Sample σ} {s t : σ} (h : sample s = sample t) (i : ℕ) :
    nextLong sample i s = nextLong sample i t := by
  simp only [nextLong, nextLongBetween, h]

end Shuffle3.V2
