import Shuffle3.V2.Rng
import Shuffle3.V1.Array

/-!
# The generators of the first version

They keep their state in static variables, so there is one of each kind, and
seeding it starts it again.

## What is proved

* `xoroshiro_sample`, `frng_sample` — two of them sample as the generators of the
  second version do, each from its own variables.

## Honest scope

`rand` and its state are the C library's.
-/

namespace Shuffle3.V1

open Foundations Floating
open V2 (Double randMax)

/-- The functions of the C library that the generators call. -/
structure Libc where
  /-- The states of `rand`. -/
  {ρ : Type}
  /-- `sin`. -/
  sin : Double → Double
  /-- `srand`. -/
  srand : BitVec 32 → ρ
  /-- `rand`: the value, and the state it leaves. -/
  rand : ρ → BitVec 32 × ρ

/-- The static variables of the generators, and that of the C library. -/
@[ext]
structure Statics (L : Libc) where
  s : BitVec 64 × BitVec 64
  vec : Double × Double
  rand : L.ρ

/-- What they hold when the program starts. -/
def Statics.initial (L : Libc) : Statics L :=
  ⟨(0#64, 0#64), (zero binary64 false, zero binary64 false), L.srand 1#32⟩

/-- `struct rng_algo`, with seeds in `S`. -/
structure RngAlgo (L : Libc) (S : Type) where
  seed : S → Statics L → Statics L
  sample : Statics L → Double × Statics L

variable {L : Libc} {S : Type}

/-- `rng_seed`. -/
def rngSeed (algo : RngAlgo L S) (seed : S) (t : Statics L) : Statics L := algo.seed seed t

/-- The conversion of a `double` to `int`, undefined where the integer part does not fit. -/
def toInt32? (x : Double) : Option Int32 :=
  x.toInt?.bind fun k => if -2 ^ 31 ≤ k ∧ k < 2 ^ 31 then some (Int32.ofInt k) else none

/-- `rng_next_int`. -/
def rngNextInt (algo : RngAlgo L S) (max : ℤ) (t : Statics L) : Option (Int32 × Statics L) :=
  let (sample, t) := algo.sample t
  (toInt32? (sample.mul (ofInt binary64 max)).floor).map fun k => (k, t)

/-! ### xoroshiro -/

namespace Xoroshiro

/-- `rotl`. -/
def rotl (x : BitVec 64) (k : ℕ) : BitVec 64 := (x <<< k) ||| (x >>> (64 - k))

/-- `next`. -/
def next (s : BitVec 64 × BitVec 64) : BitVec 64 × (BitVec 64 × BitVec 64) :=
  let s0 := s.1
  let s1 := s.2
  let result := s0 + s1
  let s1 := s1 ^^^ s0
  (result, rotl s0 24 ^^^ s1 ^^^ (s1 <<< 16), rotl s1 37)

end Xoroshiro

/-- `xoroshiro128plus`. -/
def xoroshiro128plus (L : Libc) : RngAlgo L (BitVec 64 × BitVec 64) where
  seed src t := { t with s := src }
  sample t :=
    let (r, s) := Xoroshiro.next t.s
    ((ofInt binary64 (r &&& (1#64 <<< 53) - 1).toNat).mul ((ofInt binary64 1).div (ofInt binary64 (2 ^ 53))),
      { t with s := s })

/-! ### frng -/

namespace Frng

/-- `fract`. -/
def fract (x : Double) : Double := x.sub x.floor

/-- `dot`. -/
def dot (v u : List Double) (n : ℕ) : Double :=
  ((v.zip u).take n).foldl (fun res (a, b) => res.add (a.mul b)) (zero binary64 false)

/-- `vec2`. -/
def vec2 : List Double := [ofRat binary64 (129898 / 10000), ofRat binary64 (78223 / 1000)]

/-- `sample_double`. -/
def sampleDouble (L : Libc) (vec : Double × Double) : Double :=
  fract ((L.sin (dot [vec.1, vec.2] vec2 2)).mul (ofRat binary64 (437585453 / 10000)))

/-- `next`. -/
def next (L : Libc) (r : Double) (vec : Double × Double) : Double × Double :=
  let v1 : Floating binary32 := vec.1.convert binary32
  let v2 : Floating binary32 := vec.2.convert binary32
  (sampleDouble L (r, v2.convert binary64), sampleDouble L (r, v1.convert binary64))

end Frng

/-- `frng`. -/
def frng (L : Libc) : RngAlgo L (Double × Double) where
  seed src t := { t with vec := src }
  sample t :=
    let res := Frng.sampleDouble L t.vec
    (res, { t with vec := Frng.next L res t.vec })

/-! ### drng -/

/-- `drng`. -/
def drng (L : Libc) : RngAlgo L (BitVec 32) where
  seed seed t := { t with rand := L.srand seed }
  sample t :=
    let (val, rand) := L.rand t.rand
    ((ofInt binary64 val.toInt).div (ofInt binary64 randMax.toInt), { t with rand := rand })

/-! ### The generators of the second version -/

/-- The state of the second version's generator that these variables are. -/
def Statics.xoroshiro (t : Statics L) : V2.Xoroshiro128plus := ⟨t.s.1, t.s.2⟩

/-- The state of the second version's generator that these variables are. -/
def Statics.frng (t : Statics L) : V2.Frng := ⟨t.vec.1, t.vec.2⟩

theorem xoroshiro_sample (t : Statics L) :
    ((xoroshiro128plus L).sample t).1 = (V2.Xoroshiro128plus.sample t.xoroshiro).1 ∧
      ((xoroshiro128plus L).sample t).2.xoroshiro = (V2.Xoroshiro128plus.sample t.xoroshiro).2 :=
  ⟨rfl, rfl⟩

theorem frng_sample {L' : V2.Libc} (hsin : L.sin = L'.sin) (t : Statics L) :
    ((frng L).sample t).1 = (V2.Frng.sample L' t.frng).1 ∧
      ((frng L).sample t).2.frng = (V2.Frng.sample L' t.frng).2 := by
  have hsample (vec : Double × Double) : Frng.sampleDouble L vec = V2.Frng.sampleDouble L' ⟨vec.1, vec.2⟩ := by
    rw [Frng.sampleDouble, V2.Frng.sampleDouble, hsin]
    rfl
  constructor
  · exact hsample t.vec
  · apply V2.Frng.ext
    · simp only [frng, Statics.frng, Frng.next, V2.Frng.sample, V2.Frng.updateState, hsample]
    · simp only [frng, Statics.frng, Frng.next, V2.Frng.sample, V2.Frng.updateState, hsample]

end Shuffle3.V1
