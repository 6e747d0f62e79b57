import Shuffle3.Foundations.Bytes
import Shuffle3.V2.Ranges

/-!
# The other methods of a generator

Every generator inherits from `RNG` what it makes of its samples besides the draws of a
shuffle: a chance, bytes, and numbers of either sign. A number of either sign is a product
of a sign and a sample, and the language does not say which of the two is drawn first.

## What is proved

* `nextInt_eq`, `byte_eq` — what a sample in `[0, 1]` draws in 32 bits, and as a byte.
* `bytes_eq` — a run of bytes.
* `nextSigned_spec` — the numbers of either sign, which in 64 bits are undefined where a
  sample is one.
-/

namespace Shuffle3.V2

open Foundations Floating

variable {σ : Type}

/-! ### The methods -/

/-- `RNG::chance(double)`. A chance of zero draws no sample. -/
def chance (sample : Sample σ) (d : Double) (s : σ) : Bool × σ :=
  if d.le (ofInt binary64 0) then (false, s)
  else
    let (x, s) := sample s
    (x.le d, s)

/-- `RNG::chance()`. -/
def chanceHalf (sample : Sample σ) : σ → Bool × σ := chance sample (ofRat binary64 (5 / 10))

/-- `RNG::byte`. -/
def byte (sample : Sample σ) (s : σ) : Option (Byte × σ) :=
  (nextInt sample 255#32 s).map fun p => (p.1.setWidth 8, p.2)

/-- `RNG::bytes`: what is written to `ptr[0]`, …, `ptr[len - 1]`. -/
def bytes (sample : Sample σ) : ℕ → σ → Option (List Byte × σ)
  | 0, s => some ([], s)
  | len + 1, s => do
    let (b, s) ← byte sample s
    let (bs, s) ← bytes sample len s
    pure (b :: bs, s)

/-- The factor that a chance stands for. -/
def signOf (w : ℕ) (heads : Bool) : BitVec w := if heads then 1 else -1

/-- `RNG::next_int()` in 32 bits and `RNG::next_long()` in 64: a sign, times a sample scaled
to the greatest number of the width. The sign is drawn first or last. -/
def nextSigned (w : ℕ) (signFirst : Bool) (sample : Sample σ) (s : σ) : Option (BitVec w × σ) :=
  if signFirst then
    let (heads, s) := chanceHalf sample s
    let (x, s) := sample s
    (toSigned? w (x.mul (ofInt binary64 (2 ^ (w - 1) - 1))).floor).map fun k => (signOf w heads * k, s)
  else
    let (x, s) := sample s
    let (heads, s) := chanceHalf sample s
    (toSigned? w (x.mul (ofInt binary64 (2 ^ (w - 1) - 1))).floor).map fun k => (signOf w heads * k, s)

/-! ### Bytes -/

section Bytes

variable {sample : Sample σ}

/-- **A sample in `[0, 1]` draws in 32 bits what it draws in 64.** -/
theorem nextInt_eq {s : σ} {i : ℕ} (hs : Between 0 1 (sample s).1) (hi : i < 2 ^ 31) :
    nextInt sample (BitVec.ofNat 32 i) s = some (BitVec.ofNat 32 (scaled (sample s).1.val i), (sample s).2) := by
  have hbound : (BitVec.ofNat 32 i - 0#32).toInt = i := by
    rw [BitVec.sub_zero, BitVec.toInt_ofNat', Int.bmod_eq_of_le] <;> omega
  have hoffset := offset_natCast hs.2.1 (i := i) (by omega)
  have hle := scaled_le hs.2.1 hs.2.2 (i := i) (by omega)
  have hdraw : nextBetween 32 sample 0#32 (BitVec.ofNat 32 i) s = _ :=
    nextBetween_eq (by decide) hs (by rw [hbound, hoffset]; omega) (by rw [hbound, hoffset]; omega)
  rw [nextInt, nextIntBetween, hdraw, hbound, hoffset, BitVec.ofInt_natCast, BitVec.add_zero]

theorem byte_eq {s : σ} (hs : Between 0 1 (sample s).1) :
    byte sample s = some (BitVec.ofNat 8 (scaled (sample s).1.val 255), (sample s).2) := by
  have hle := scaled_le hs.2.1 hs.2.2 (i := 255) (by norm_num)
  rw [byte, nextInt_eq hs (by norm_num), Option.map_some]
  congr 2
  exact BitVec.eq_of_toNat_eq (by simp only [BitVec.toNat_setWidth, BitVec.toNat_ofNat]; omega)

/-- The state after some samples. -/
def after (sample : Sample σ) (n : ℕ) (s : σ) : σ := (fun s => (sample s).2)^[n] s

theorem after_succ (n : ℕ) (s : σ) : after sample (n + 1) s = after sample n (sample s).2 := rfl

/-- **A run of bytes**: one sample for each, scaled to 255. -/
theorem bytes_eq {P : σ → Prop} (hP : ∀ s, P s → Between 0 1 (sample s).1 ∧ P (sample s).2) (len : ℕ) :
    ∀ {s : σ}, P s → bytes sample len s =
      some ((List.range len).map fun n => BitVec.ofNat 8 (scaled (sample (after sample n s)).1.val 255),
        after sample len s) := by
  induction len with
  | zero => intro s _; rfl
  | succ len ih =>
    intro s hs
    obtain ⟨hunit, hnext⟩ := hP s hs
    simp only [bytes, byte_eq hunit, ih hnext, Option.bind_eq_bind, Option.bind_some, Option.pure_def,
      List.range_succ_eq_map, List.map_cons, List.map_map, after_succ]
    rfl

end Bytes

/-! ### Numbers of either sign -/

/-- The greatest number of a format below one. -/
theorem le_of_has_of_lt_one {q : ℚ} (hq : binary64.Has q) (h0 : 0 ≤ q) (h1 : q < 1) :
    q ≤ 1 - 2 ^ (-53 : ℤ) := by
  by_contra! hlt
  have hspacing : binary64.spacing q = -53 :=
    binary64.spacing_eq (e := -1) (by norm_num at hlt ⊢; linarith) (by norm_num; exact h1) (by decide)
  have hself : binary64.rnd q = q := by
    have hrnd := hq.1
    rwa [abs_of_nonneg h0] at hrnd
  rw [Format.rnd, hspacing] at hself
  generalize roundEven (q / 2 ^ (-53 : ℤ)) = k at hself
  -- it would be a number of units between two that are next to each other
  have hlo : (2 ^ 53 - 1 : ℤ) < k := by
    have h : ((2 ^ 53 - 1 : ℤ) : ℚ) * 2 ^ (-53 : ℤ) < k * 2 ^ (-53 : ℤ) := by
      rw [hself]
      refine lt_of_eq_of_lt ?_ hlt
      norm_num
    exact_mod_cast lt_of_mul_lt_mul_right h (by positivity)
  have hhi : k < (2 ^ 53 : ℤ) := by
    have h : (k : ℚ) * 2 ^ (-53 : ℤ) < ((2 ^ 53 : ℤ) : ℚ) * 2 ^ (-53 : ℤ) := by
      rw [hself]
      refine lt_of_lt_of_eq h1 ?_
      norm_num
    exact_mod_cast lt_of_mul_lt_mul_right h (by positivity)
  omega

/-- A sample scaled to a number that the format has. -/
theorem toSigned?_scaled {w i : ℕ} {x c : Double} (hx : Between 0 1 x) (hc : c.finite) (hval : c.val = i)
    (hi : i ≤ 2 ^ 63) : toSigned? w (x.mul c).floor =
      if scaled x.val i < 2 ^ (w - 1) then some (BitVec.ofNat w (scaled x.val i)) else none := by
  obtain ⟨hfin, h0, h1⟩ := hx
  have hprod := rounds_mul hfin hc
  have hpos : 0 ≤ x.val * i := mul_nonneg h0 (Nat.cast_nonneg i)
  have hle : x.val * i ≤ 2 ^ 63 :=
    (mul_le_of_le_one_left (Nat.cast_nonneg i) h1).trans (by exact_mod_cast hi)
  rw [hval] at hprod
  obtain ⟨hpfin, -, -⟩ := hprod.between (Format.has_zero _) (has_two_pow64 (k := 63) (by norm_num)) hpos hle
  have hpval := hprod.val_eq hpos hpfin
  obtain ⟨hffin, hfval⟩ := floor_exact (by decide) (by decide) hpfin
  rw [hpval, ← Int.natCast_floor_eq_floor (binary64.rnd_nonneg hpos)] at hfval
  have hint := toInt?_of_val hffin hfval
  have hscaled : ⌊binary64.rnd (x.val * i)⌋₊ = scaled x.val i := rfl
  rw [hscaled] at hint
  have hcast : ((2 ^ (w - 1) : ℕ) : ℤ) = 2 ^ (w - 1) := by push_cast; rfl
  rw [toSigned?, hint, Option.bind_some, ← hcast]
  by_cases hlt : scaled x.val i < 2 ^ (w - 1)
  · rw [if_pos hlt, if_pos ⟨by omega, by omega⟩, BitVec.ofInt_natCast]
  · rw [if_neg hlt, if_neg (by omega)]

/-- A half is exact. -/
theorem half_exact : (ofRat binary64 (5 / 10)).finite ∧ (ofRat binary64 (5 / 10)).val = 5 / 10 := by
  have h := has_natCast_div (k := 2 ^ 52) (by norm_num)
  have hq : ((2 ^ 52 : ℕ) : ℚ) / 2 ^ 53 = 5 / 10 := by norm_num
  rw [hq] at h
  exact (rounds_ofRat (F := binary64) (5 / 10)).exact h

section Signed

variable {sample : Sample σ} {P : σ → Prop}

theorem chanceHalf_snd (s : σ) : (chanceHalf sample s).2 = (sample s).2 := by
  obtain ⟨hfin, hval⟩ := half_exact
  obtain ⟨hzfin, hzval⟩ := ofInt_exact (k := 0) (by norm_num)
  push_cast at hzfin hzval
  have hlt : (ofRat binary64 (5 / 10)).le (ofInt binary64 0) = false := by
    rw [Bool.eq_false_iff, ne_eq, le_iff_val hfin hzfin, hval, hzval]
    norm_num
  rw [chanceHalf, chance, hlt]
  rfl

/-- The sign that is drawn, and the sample that it multiplies. -/
def signAndSample (signFirst : Bool) (sample : Sample σ) (s : σ) : Bool × Double :=
  if signFirst then ((chanceHalf sample s).1, (sample (sample s).2).1)
  else ((chanceHalf sample (sample s).2).1, (sample s).1)

theorem nextSigned_eq_map (w : ℕ) (signFirst : Bool) (s : σ) : nextSigned w signFirst sample s =
    (toSigned? w ((signAndSample signFirst sample s).2.mul (ofInt binary64 (2 ^ (w - 1) - 1))).floor).map
      fun k => (signOf w (signAndSample signFirst sample s).1 * k, after sample 2 s) := by
  cases signFirst with
  | false => simp only [nextSigned, signAndSample, Bool.false_eq_true, if_false, chanceHalf_snd]; rfl
  | true => simp only [nextSigned, signAndSample, if_true, chanceHalf_snd]; rfl

theorem between_signAndSample (hP : ∀ s, P s → Between 0 1 (sample s).1 ∧ P (sample s).2)
    (signFirst : Bool) {s : σ} (hs : P s) : Between 0 1 (signAndSample signFirst sample s).2 := by
  cases signFirst with
  | false => exact (hP s hs).1
  | true => exact (hP _ (hP s hs).2).1

theorem ofInt_intMax : (ofInt binary64 (2 ^ (32 - 1) - 1)).finite ∧
    (ofInt binary64 (2 ^ (32 - 1) - 1)).val = (2 ^ 31 - 1 : ℕ) := by
  have h := ofInt_exact (k := 2 ^ 31 - 1) (by norm_num)
  norm_num at h ⊢
  exact h

/-- The greatest `int64_t` is converted to the number after it. -/
theorem ofInt_longMax : (ofInt binary64 (2 ^ (64 - 1) - 1)).finite ∧
    (ofInt binary64 (2 ^ (64 - 1) - 1)).val = (2 ^ 63 : ℕ) := by
  have h63 := has_two_pow64 (k := 63) (by norm_num)
  have hnear := binary64.rnd_eq (q := 2 ^ 63 - 1) (e := 62) (k := 2 ^ 53) (by norm_num) (by norm_num)
    (by decide) (by
      have hexp : ((62 : ℤ) - (binary64.prec - 1)) = 10 := by decide
      rw [hexp]
      norm_num [abs_lt])
  have hexp : ((62 : ℤ) - (binary64.prec - 1)) = 10 := by decide
  rw [hexp] at hnear
  have hcast : (((2 ^ (64 - 1) - 1 : ℤ) : ℤ) : ℚ) = 2 ^ 63 - 1 := by norm_num
  have hrounds := rounds_ofRat (F := binary64) (2 ^ 63 - 1)
  obtain ⟨hfin, -, -⟩ := hrounds.between (Format.has_zero _) h63 (by norm_num) (by norm_num)
  have hval := hrounds.val_eq (by norm_num) hfin
  rw [ofInt, hcast]
  refine ⟨hfin, ?_⟩
  rw [hval, hnear]
  norm_num

theorem toInt_signOf_mul {w k : ℕ} (heads : Bool) (hk : k < 2 ^ (w - 1)) :
    (signOf w heads * BitVec.ofNat w k).toInt = if heads then (k : ℤ) else -k := by
  have hw : (2 ^ w : ℕ) = 2 * 2 ^ (w - 1) ∨ w = 0 := by
    cases w with
    | zero => exact .inr rfl
    | succ w => exact .inl (by rw [Nat.pow_succ']; rfl)
  rcases hw with hw | rfl
  · have hpos : (BitVec.ofNat w k).toInt = k := by
      rw [BitVec.toInt_ofNat', Int.bmod_eq_of_le] <;> omega
    cases heads with
    | true =>
      show (1#w * BitVec.ofNat w k).toInt = k
      rw [BitVec.one_mul, hpos]
    | false =>
      show (-1#w * BitVec.ofNat w k).toInt = -k
      rw [BitVec.neg_mul, BitVec.one_mul, BitVec.toInt_neg, hpos]
      exact Int.bmod_eq_of_le_mul_two (by omega) (by omega)
  · obtain rfl : k = 0 := by simpa using hk
    cases heads <;> rfl

/-- The samples below one scaled to `2 ^ 63`. -/
theorem scaled_two_pow_le {q : ℚ} (h0 : 0 ≤ q) (h1 : q ≤ 1 - 2 ^ (-53 : ℤ)) :
    scaled q (2 ^ 63) ≤ 2 ^ 63 - 2 ^ 10 := by
  have hself := binary64.rnd_natCast_mul_zpow (m := 2 ^ 53 - 1) (e := 10) (by decide) (by decide)
  have htop : ((2 ^ 53 - 1 : ℕ) : ℚ) * 2 ^ (10 : ℤ) = ((2 ^ 63 - 2 ^ 10 : ℕ) : ℚ) := by norm_num
  have hprod : q * (2 ^ 63 : ℕ) ≤ ((2 ^ 63 - 2 ^ 10 : ℕ) : ℚ) := by
    refine (mul_le_mul_of_nonneg_right h1 (Nat.cast_nonneg _)).trans ?_
    norm_num
  have hrnd := binary64.rnd_mono (mul_nonneg h0 (Nat.cast_nonneg _)) hprod
  rw [htop] at hself
  rw [hself] at hrnd
  exact (Nat.floor_mono hrnd).trans (Nat.floor_natCast _).le

theorem scaled_one_two_pow : scaled 1 (2 ^ 63) = 2 ^ 63 := by
  have hself := (has_two_pow64 (k := 63) (by norm_num)).1
  rw [abs_of_nonneg (by positivity)] at hself
  rw [scaled, one_mul, Nat.cast_pow, Nat.cast_ofNat, hself]
  exact_mod_cast Nat.floor_natCast (R := ℚ) (2 ^ 63)

/-- **What the numbers of either sign are**, whichever factor is drawn first. In 32 bits they
are defined and never the least number. In 64 bits the greatest number is rounded up to one
that the width does not have, so that a sample of one makes the conversion undefined; the
others stay 1024 short of both ends. -/
theorem nextSigned_spec (hP : ∀ s, P s → Between 0 1 (sample s).1 ∧ P (sample s).2) (signFirst : Bool)
    {s : σ} (hs : P s) :
    (∃ v, nextSigned 32 signFirst sample s = some (v, after sample 2 s) ∧ v ≠ BitVec.intMin 32) ∧
    (nextSigned 64 signFirst sample s = none ↔ (signAndSample signFirst sample s).2.val = 1) ∧
    ∀ v t, nextSigned 64 signFirst sample s = some (v, t) →
      t = after sample 2 s ∧ |v.toInt| ≤ 2 ^ 63 - 2 ^ 10 := by
  have hx := between_signAndSample hP signFirst hs
  rw [nextSigned_eq_map, nextSigned_eq_map, toSigned?_scaled hx ofInt_intMax.1 ofInt_intMax.2 (by norm_num),
    toSigned?_scaled hx ofInt_longMax.1 ofInt_longMax.2 (by norm_num)]
  generalize signAndSample signFirst sample s = c at hx ⊢
  obtain ⟨heads, x⟩ := c
  obtain ⟨hfin, h0, h1⟩ := hx
  refine ⟨?_, ?_⟩
  · have hle := scaled_le (i := 2 ^ 31 - 1) h0 h1 (by norm_num)
    rw [if_pos (by omega)]
    refine ⟨_, rfl, fun hmin => ?_⟩
    have hint := congrArg BitVec.toInt hmin
    rw [toInt_signOf_mul heads (by omega)] at hint
    have hleast : (BitVec.intMin 32).toInt = -2 ^ 31 := by decide
    rw [hleast] at hint
    split_ifs at hint <;> omega
  · rcases h1.lt_or_eq with hlt | hone
    · have hle := scaled_two_pow_le h0 (le_of_has_of_lt_one (has_val hfin) h0 hlt)
      rw [if_pos (by omega)]
      refine ⟨⟨fun hnone => ?_, fun hone => absurd hone hlt.ne⟩, fun v t h => ?_⟩
      · cases hnone
      · cases h
        refine ⟨rfl, ?_⟩
        rw [toInt_signOf_mul heads (by omega), abs_le]
        split_ifs <;> constructor <;> omega
    · rw [hone, scaled_one_two_pow, if_neg (by norm_num)]
      exact ⟨⟨fun _ => rfl, fun _ => rfl⟩, fun v t h => nomatch h⟩

end Signed

/-- The numbers of either sign that `xoroshiro128plus` would inherit. -/
theorem nextSigned_spec_one :
    (∃ v, nextSigned 32 true Xoroshiro128plus.sample ⟨1, 0⟩ =
      some (v, after Xoroshiro128plus.sample 2 ⟨1, 0⟩) ∧ v ≠ BitVec.intMin 32) ∧
    (nextSigned 64 true Xoroshiro128plus.sample ⟨1, 0⟩ = none ↔
      (signAndSample true Xoroshiro128plus.sample ⟨1, 0⟩).2.val = 1) ∧
    ∀ v t, nextSigned 64 true Xoroshiro128plus.sample ⟨1, 0⟩ = some (v, t) →
      t = after Xoroshiro128plus.sample 2 ⟨1, 0⟩ ∧ |v.toInt| ≤ 2 ^ 63 - 2 ^ 10 :=
  nextSigned_spec (P := fun _ => True) (fun s _ => ⟨Xoroshiro128plus.sample_between s, trivial⟩) true trivial

end Shuffle3.V2
