import Shuffle3.Foundations.Bounds
import Shuffle3.Foundations.Single
import Shuffle3.V2.Shuffle

/-!
# Draws in range

A sample in `[0, 1]` makes a draw in range for every bound that a `double` has
exactly, and the three generators give such samples where `sin` and `rand_r` do
as they are documented to.

## What is proved

* `nextLong_eq`, `nextLong_le`, `scaled_lt` — what a sample in `[0, 1]` draws, which is
  at most the bound, and below it for a sample below one.
* `Xoroshiro128plus.sample_eq` — the sample that an output makes.
* `Xoroshiro128plus.inRange`, `Frng.inRange`, `Drng.inRange` — the draws of the
  three generators.
-/

namespace Shuffle3.V2

open Foundations Floating

/-! ### Numbers that a format has -/

theorem has_natCast64 {k : ℕ} (hk : k ≤ 2 ^ 53) : binary64.Has k :=
  Format.has_natCast (by decide) (by decide) hk

theorem has_two_pow64 {k : ℕ} (hk : k < 1024) : binary64.Has (2 ^ k) :=
  Format.has_two_pow (by decide) hk

/-- A sample of 53 bits. -/
theorem has_natCast_div {k : ℕ} (hk : k < 2 ^ 53) : binary64.Has (k / 2 ^ 53) := by
  have hlt : (k : ℚ) / 2 ^ 53 < 1 := (div_lt_one (by norm_num)).mpr (by exact_mod_cast hk)
  have h := Format.has_natCast_mul_zpow (F := binary64) (m := k) (e := -53) hk (by decide)
    (by rw [zpow_neg, ← div_eq_mul_inv]; exact lt_of_lt_of_le hlt (one_le_pow₀ (by norm_num)))
  rwa [zpow_neg, ← div_eq_mul_inv] at h

/-- A sample of 53 bits is below one by the least of them. -/
theorem sample_le {k : ℕ} (hk : k < 2 ^ 53) : (k : ℚ) / 2 ^ 53 ≤ 1 - 2 ^ (-53 : ℤ) := by
  have hk' : (k : ℚ) + 1 ≤ 2 ^ 53 := by exact_mod_cast hk
  rw [zpow_neg, div_le_iff₀ (by norm_num)]
  norm_num
  linarith

/-- An integer up to `2 ^ 53` is converted exactly. -/
theorem ofInt_exact {k : ℕ} (hk : k ≤ 2 ^ 53) :
    (ofInt binary64 k).finite ∧ (ofInt binary64 k).val = k := by
  have h := (rounds_ofRat (F := binary64) ((k : ℤ) : ℚ)).exact (by exact_mod_cast has_natCast64 hk)
  exact_mod_cast h

theorem has_intCast64 {k : ℤ} (hk : k.natAbs ≤ 2 ^ 53) : binary64.Has k :=
  Format.has_intCast (by decide) (by decide) hk

/-! ### One draw -/

section Draw

variable {σ : Type} {sample : Sample σ} {w : ℕ}

/-- What a sample `q` draws for the bound `i`: the product rounded, and rounded down. -/
def scaled (q : ℚ) (i : ℕ) : ℕ := ⌊binary64.rnd (q * i)⌋₊

theorem rnd_natCast {n : ℕ} (hn : n ≤ 2 ^ 53) : binary64.rnd n = n := by
  have h := (has_natCast64 hn).1
  rwa [abs_of_nonneg (Nat.cast_nonneg n)] at h

/-- A product up to a number draws up to the number. -/
theorem scaled_le_of_mul_le {q : ℚ} {i n : ℕ} (hq : 0 ≤ q) (hn : n ≤ 2 ^ 53) (h : q * i ≤ n) :
    scaled q i ≤ n := by
  have hrnd := binary64.rnd_mono (mul_nonneg hq (Nat.cast_nonneg i)) h
  rw [rnd_natCast hn] at hrnd
  exact (Nat.floor_mono hrnd).trans (Nat.floor_natCast n).le

theorem scaled_le {q : ℚ} {i : ℕ} (hq0 : 0 ≤ q) (hq1 : q ≤ 1) (hi : i ≤ 2 ^ 53) : scaled q i ≤ i :=
  scaled_le_of_mul_le hq0 hi (mul_le_of_le_one_left (Nat.cast_nonneg i) hq1)

theorem scaled_mono {q r : ℚ} (hq : 0 ≤ q) (h : q ≤ r) (i : ℕ) : scaled q i ≤ scaled r i :=
  Nat.floor_mono (binary64.rnd_mono (mul_nonneg hq (Nat.cast_nonneg i))
    (mul_le_mul_of_nonneg_right h (Nat.cast_nonneg i)))

/-- Numbers from one on have all the significant bits. -/
theorem normal_lt_one : (2 : ℚ) ^ (binary64.emin + binary64.prec - 1 : ℤ) < 1 :=
  zpow_lt_one_of_neg₀ (by norm_num) (by decide)

/-- **A sample below one draws below the bound**, however the product is rounded. -/
theorem scaled_lt {q : ℚ} {i : ℕ} (hq : 0 ≤ q) (hq1 : q ≤ 1 - 2 ^ (-53 : ℤ)) (hi : 0 < i) :
    scaled q i < i := by
  have hone : (1 : ℚ) ≤ i := by exact_mod_cast hi
  exact (Nat.floor_lt (binary64.rnd_nonneg (mul_nonneg hq (Nat.cast_nonneg i)))).mpr
    (binary64.rnd_mul_lt hq hq1 (normal_lt_one.trans_le hone))

/-- The offset that a sample `q` makes of a difference: the difference rounded, the
product rounded, and rounded down. -/
def offset (q : ℚ) (d : ℤ) : ℤ := ⌊binary64.near (q * binary64.near d)⌋

@[simp] theorem near_zero : binary64.near 0 = 0 := by
  rw [Format.near_of_nonneg le_rfl, Format.rnd_zero]

theorem offset_zero_left (d : ℤ) : offset 0 d = 0 := by simp [offset]

theorem offset_zero_right (q : ℚ) : offset q 0 = 0 := by simp [offset]

/-- From zero the offset is what is drawn. -/
theorem offset_natCast {q : ℚ} {i : ℕ} (hq : 0 ≤ q) (hi : i ≤ 2 ^ 53) :
    offset q i = scaled q i := by
  have hprod : 0 ≤ q * i := mul_nonneg hq (Nat.cast_nonneg i)
  rw [offset, Int.cast_natCast, Format.near_of_nonneg (Nat.cast_nonneg i), rnd_natCast hi,
    Format.near_of_nonneg hprod, scaled, Int.natCast_floor_eq_floor (binary64.rnd_nonneg hprod)]

theorem toSigned?_of_val {x : Double} {f : ℤ} (hx : x.finite) (hf : x.val = f)
    (hlo : -2 ^ (w - 1) ≤ f) (hhi : f < 2 ^ (w - 1)) : toSigned? w x = some (BitVec.ofInt w f) := by
  rw [toSigned?, toInt?_of_val hx hf, Option.bind_some, if_pos ⟨hlo, hhi⟩]

/-- A word is converted to a finite number. -/
theorem between_ofInt (hw : w ≤ 64) (x : BitVec w) :
    Between (-2 ^ 63) (2 ^ 63) (ofInt binary64 x.toInt) := by
  have hhas := has_two_pow64 (k := 63) (by norm_num)
  have hpow : (2 : ℤ) ^ (w - 1) ≤ 2 ^ 63 := pow_le_pow_right₀ (by norm_num) (by omega)
  have hlo : (-2 ^ 63 : ℤ) ≤ x.toInt := by linarith [BitVec.le_toInt (x := x)]
  have hhi : x.toInt ≤ (2 ^ 63 : ℤ) := by linarith [BitVec.toInt_lt (x := x)]
  exact (rounds_ofRat _).between hhas.neg hhas (by exact_mod_cast hlo) (by exact_mod_cast hhi)

/-- **What a draw between two bounds is** for a sample in `[0, 1]`, where the offset fits. -/
theorem nextBetween_eq (hw : w ≤ 64) {s : σ} (hs : Between 0 1 (sample s).1)
    {min max : BitVec w} (hlo : -2 ^ (w - 1) ≤ offset (sample s).1.val (max - min).toInt)
    (hhi : offset (sample s).1.val (max - min).toInt < 2 ^ (w - 1)) :
    nextBetween w sample min max s =
      some (BitVec.ofInt w (offset (sample s).1.val (max - min).toInt) + min, (sample s).2) := by
  obtain ⟨hsfin, hs0, hs1⟩ := hs
  obtain ⟨hdfin, hdlo, hdhi⟩ := between_ofInt hw (max - min)
  have hdval : (ofInt binary64 (max - min).toInt).val = binary64.near (max - min).toInt :=
    (rounds_ofRat _).val_near hdfin
  have hprod := rounds_mul hsfin hdfin
  -- the product is no larger than the difference
  have hhas := has_two_pow64 (k := 63) (by norm_num)
  have habs : |(sample s).1.val * (ofInt binary64 (max - min).toInt).val| ≤ 2 ^ 63 := by
    rw [abs_mul, abs_of_nonneg hs0]
    calc (sample s).1.val * |(ofInt binary64 (max - min).toInt).val| ≤ 1 * 2 ^ 63 :=
          mul_le_mul hs1 (abs_le.mpr ⟨hdlo, hdhi⟩) (abs_nonneg _) zero_le_one
      _ = 2 ^ 63 := one_mul _
  obtain ⟨hpfin, -, -⟩ := hprod.between hhas.neg hhas (abs_le.mp habs).1 (abs_le.mp habs).2
  have hpval := hprod.val_near hpfin
  rw [hdval] at hpval
  obtain ⟨hffin, hfval⟩ := floor_exact (by decide) (by decide) hpfin
  rw [hpval] at hfval
  have hint := toSigned?_of_val hffin hfval hlo hhi
  simp only [nextBetween, hint, Option.map_some]
  rfl

theorem nextLongBetween_eq : nextLongBetween sample = nextBetween 64 sample := rfl

/-- **A sample in `[0, 1]` draws the product, rounded and rounded down.** -/
theorem nextLong_eq {s : σ} {i : ℕ} (hs : Between 0 1 (sample s).1) (hi : i ≤ 2 ^ 53) :
    nextLong sample i s = some (BitVec.ofNat 64 (scaled (sample s).1.val i), (sample s).2) := by
  have hbound : (BitVec.ofNat 64 i - 0#64).toInt = i := by
    rw [BitVec.sub_zero, BitVec.toInt_ofNat', Int.bmod_eq_of_le] <;> omega
  have hoffset := offset_natCast hs.2.1 hi
  have hle := scaled_le hs.2.1 hs.2.2 hi
  have hdraw : nextBetween 64 sample 0#64 (BitVec.ofNat 64 i) s = _ :=
    nextBetween_eq le_rfl hs (by rw [hbound, hoffset]; omega) (by rw [hbound, hoffset]; omega)
  rw [nextLong, nextLongBetween_eq, hdraw, hbound, hoffset, BitVec.ofInt_natCast, BitVec.add_zero]

/-- **A sample in `[0, 1]` makes a draw at most its bound.** -/
theorem nextLong_le {s : σ} {i : ℕ} (hs : Between 0 1 (sample s).1) (hi : i ≤ 2 ^ 53) :
    ∃ j, nextLong sample i s = some (j, (sample s).2) ∧ j.toNat ≤ i := by
  refine ⟨_, nextLong_eq hs hi, ?_⟩
  have hle := scaled_le hs.2.1 hs.2.2 hi
  rw [BitVec.toNat_ofNat, Nat.mod_eq_of_lt (by omega)]
  exact hle

/-- A generator whose samples are in `[0, 1]` makes all its draws in range. -/
theorem inRange_of_between {P : σ → Prop}
    (hP : ∀ s, P s → Between 0 1 (sample s).1 ∧ P (sample s).2) {i : ℕ} (hi : i ≤ 2 ^ 53) :
    ∀ {s : σ}, P s → InRange (nextLong sample) i s := by
  induction i with
  | zero => intro s _; trivial
  | succ i ih =>
    intro s hs
    obtain ⟨hb, hnext⟩ := hP s hs
    obtain ⟨j, hj, hle⟩ := nextLong_le hb hi
    exact ⟨j, _, hj, hle, ih (by omega) hnext⟩

end Draw

theorem has_one : binary64.Has 1 := by exact_mod_cast has_natCast64 (k := 1) (by norm_num)

/-! ### xoroshiro128plus -/

namespace Xoroshiro128plus

/-- The bits of the output that a sample is made of. -/
def lowBits (v : BitVec 64) : ℕ := (v &&& (1#64 <<< 53) - 1).toNat

theorem lowBits_eq (v : BitVec 64) : lowBits v = v.toNat % 2 ^ 53 := by
  have hmask : ((1#64 <<< 53) - 1).toNat = 2 ^ 53 - 1 := by decide
  rw [lowBits, BitVec.toNat_and, hmask, Nat.and_two_pow_sub_one_eq_mod]

theorem lowBits_lt (v : BitVec 64) : lowBits v < 2 ^ 53 :=
  lowBits_eq v ▸ Nat.mod_lt _ (by norm_num)

/-- **A sample of `xoroshiro128plus` is exact.** -/
theorem sample_eq (s : Xoroshiro128plus) :
    (sample s).1.finite ∧ (sample s).1.val = lowBits (next s).1 / 2 ^ 53 := by
  have hsample : (sample s).1 = (ofInt binary64 (lowBits (next s).1)).mul
      ((ofInt binary64 1).div (ofInt binary64 (2 ^ 53))) := rfl
  have hlt := lowBits_lt (next s).1
  generalize lowBits (next s).1 = r at hsample hlt ⊢
  obtain ⟨hrfin, hrval⟩ := ofInt_exact hlt.le
  obtain ⟨h1fin, h1val⟩ := ofInt_exact (k := 1) (by norm_num)
  obtain ⟨hdfin, hdval⟩ := ofInt_exact (k := 2 ^ 53) le_rfl
  push_cast at h1fin h1val hdfin hdval
  have hunit := rounds_div h1fin hdfin (by rw [hdval]; norm_num)
  rw [h1val, hdval] at hunit
  obtain ⟨hufin, huval⟩ := hunit.exact (by exact_mod_cast has_natCast_div (k := 1) (by norm_num))
  have hprod := rounds_mul hrfin hufin
  rw [hrval, huval, mul_one_div] at hprod
  rw [hsample]
  exact hprod.exact (has_natCast_div hlt)

/-- The samples of `xoroshiro128plus` are in `[0, 1]`. -/
theorem sample_between (s : Xoroshiro128plus) : Between 0 1 (sample s).1 := by
  obtain ⟨hfin, hval⟩ := sample_eq s
  have hlt : (lowBits (next s).1 : ℚ) ≤ 2 ^ 53 := by exact_mod_cast (lowBits_lt _).le
  rw [Between, hval]
  exact ⟨hfin, by positivity, (div_le_one (by norm_num)).mpr hlt⟩

/-- The samples of `xoroshiro128plus` stay below one. -/
theorem sample_below (s : Xoroshiro128plus) :
    Between 0 (1 - 2 ^ (-53 : ℤ)) (sample s).1 := by
  obtain ⟨hfin, hval⟩ := sample_eq s
  rw [Between, hval]
  exact ⟨hfin, by positivity, sample_le (lowBits_lt _)⟩

theorem inRange {i : ℕ} (hi : i ≤ 2 ^ 53) (s : Xoroshiro128plus) :
    InRange (nextLong sample) i s :=
  inRange_of_between (P := fun _ => True) (fun s _ => ⟨sample_between s, trivial⟩) hi trivial

end Xoroshiro128plus

/-! ### drng -/

/-- A number in `[0, RAND_MAX]` over `RAND_MAX`. -/
theorem between_randMax {val : BitVec 32} (h : 0 ≤ val.toInt) :
    Between 0 1 ((ofInt binary64 val.toInt).div (ofInt binary64 randMax.toInt)) := by
  obtain ⟨v, hv⟩ := Int.eq_ofNat_of_zero_le h
  have hlt : v ≤ 2 ^ 31 - 1 := by
    have := BitVec.toInt_lt (x := val)
    omega
  have hmax : randMax.toInt = ((2 ^ 31 - 1 : ℕ) : ℤ) := by decide
  obtain ⟨hvfin, hvval⟩ := ofInt_exact (k := v) (by omega)
  obtain ⟨hmfin, hmval⟩ := ofInt_exact (k := 2 ^ 31 - 1) (by norm_num)
  have hm : (0 : ℚ) < ((2 ^ 31 - 1 : ℕ) : ℚ) := by norm_num
  rw [hmax, hv]
  refine (rounds_div hvfin hmfin (by rw [hmval]; exact hm.ne')).between
    (Format.has_zero _) has_one ?_ ?_
  · rw [hvval, hmval]; positivity
  · rw [hvval, hmval]
    exact (div_le_one hm).mpr (by exact_mod_cast hlt)

/-- The samples of `drng` are in `[0, 1]`, where `rand_r` is in `[0, RAND_MAX]`. -/
theorem Drng.sample_between {L : Libc} (hL : ∀ s, 0 ≤ (L.randR s).1.toInt) (s : Drng) :
    Between 0 1 (sample L s).1 := between_randMax (hL s.state)

theorem Drng.inRange {L : Libc} (hL : ∀ s, 0 ≤ (L.randR s).1.toInt) {i : ℕ} (hi : i ≤ 2 ^ 53)
    (s : Drng) :
    InRange (nextLong (sample L)) i s :=
  inRange_of_between (P := fun _ => True) (fun s _ => ⟨sample_between hL s, trivial⟩) hi trivial

/-! ### frng -/

theorem has_maxFloat {F : Format} (hp : 24 ≤ F.prec) (hm : F.emin ≤ 0) (hM : 128 ≤ F.emax) :
    F.Has ((2 ^ 24 - 1) * 2 ^ 104) := by
  have hlt : ((2 ^ 24 - 1 : ℕ) * 2 ^ ((104 : ℕ) : ℤ) : ℚ) < 2 ^ F.emax := by
    calc ((2 ^ 24 - 1 : ℕ) * 2 ^ ((104 : ℕ) : ℤ) : ℚ) < 2 ^ 128 := by norm_num
      _ ≤ 2 ^ F.emax := pow_le_pow_right₀ (by norm_num) hM
  have h := Format.has_natCast_mul_zpow (F := F) (m := 2 ^ 24 - 1) (e := (104 : ℕ))
    (lt_of_lt_of_le (by norm_num) (Nat.pow_le_pow_right (by norm_num) hp)) (by omega) hlt
  rw [zpow_natCast] at h
  norm_num at h ⊢
  exact h

namespace Frng

/-- Numbers that `float` has room for. -/
def Fits (x : Double) : Prop := Between (-((2 ^ 24 - 1) * 2 ^ 104)) ((2 ^ 24 - 1) * 2 ^ 104) x

theorem fits_of_unit {x : Double} (h : Between 0 1 x) : Fits x := h.mono (by norm_num) (by norm_num)

/-- Converting to `float` and back stays in the room of `float`. -/
theorem fits_convert {x : Double} (h : Fits x) : Fits ((x.convert binary32).convert binary64) := by
  have h32 := has_maxFloat (F := binary32) (by decide) (by decide) (by decide)
  have h64 := has_maxFloat (F := binary64) (by decide) (by decide) (by decide)
  obtain ⟨hfin, hlo, hhi⟩ := (rounds_convert binary32 h.1).between h32.neg h32 h.2.1 h.2.2
  exact (rounds_convert binary64 hfin).between h64.neg h64 hlo hhi

/-- A term of the dot product. -/
theorem mul_between {x c : Double} (hx : Fits x) (hc : Between 0 128 c) :
    Between (-2 ^ 135) (2 ^ 135) (x.mul c) := by
  have habs : |x.val * c.val| ≤ 2 ^ 135 := by
    rw [abs_mul]
    have h1 : |x.val| ≤ 2 ^ 128 := abs_le.mpr
      ⟨le_trans (by norm_num) hx.2.1, le_trans hx.2.2 (by norm_num)⟩
    have h2 : |c.val| ≤ 2 ^ 7 :=
      abs_le.mpr ⟨le_trans (by norm_num) hc.2.1, le_trans hc.2.2 (by norm_num)⟩
    calc |x.val| * |c.val| ≤ 2 ^ 128 * 2 ^ 7 := mul_le_mul h1 h2 (abs_nonneg _) (by positivity)
      _ = 2 ^ 135 := by norm_num
  have hhas := has_two_pow64 (k := 135) (by norm_num)
  exact (rounds_mul hx.1 hc.1).between hhas.neg hhas (abs_le.mp habs).1 (abs_le.mp habs).2

theorem finite_dot {x y : Double} (hx : Fits x) (hy : Fits y) : (dot [x, y] vec2).finite := by
  have h128 := has_two_pow64 (k := 7) (by norm_num)
  have hc0 : Between 0 128 (ofRat binary64 (129898 / 10000)) :=
    (rounds_ofRat _).between (Format.has_zero _) (by norm_num at h128 ⊢; exact h128) (by norm_num) (by norm_num)
  have hc1 : Between 0 128 (ofRat binary64 (78223 / 1000)) :=
    (rounds_ofRat _).between (Format.has_zero _) (by norm_num at h128 ⊢; exact h128) (by norm_num) (by norm_num)
  have hzero : (zero binary64 false).finite := by
    obtain ⟨m, hm, -⟩ := zero_eq_fin binary64 false
    rw [hm]; rfl
  obtain ⟨hp0, hp0l, hp0h⟩ := mul_between hx hc0
  obtain ⟨hp1, hp1l, hp1h⟩ := mul_between hy hc1
  have hhas := has_two_pow64 (k := 135) (by norm_num)
  have hhas' := has_two_pow64 (k := 136) (by norm_num)
  obtain ⟨hs0, hs0l, hs0h⟩ := (rounds_add hzero hp0).between hhas.neg hhas
    (by rw [val_zero, zero_add]; exact hp0l) (by rw [val_zero, zero_add]; exact hp0h)
  exact ((rounds_add hs0 hp1).between hhas'.neg hhas' (by norm_num; linarith) (by norm_num; linarith)).1

/-- The fraction of a number that is not large. -/
theorem fract_between {x : Double} (h : Between (-43759) 43759 x) : Between 0 1 (fract x) := by
  obtain ⟨hfin, hlo, hhi⟩ := h
  have hfl : (-43759 : ℤ) ≤ ⌊x.val⌋ := Int.le_floor.mpr (by exact_mod_cast hlo)
  have hfh : ⌊x.val⌋ ≤ 43759 := by
    have := (Int.floor_le x.val).trans hhi
    exact_mod_cast this
  obtain ⟨hffin, hfval⟩ := (rounds_floor hfin).exact (has_intCast64 (by omega))
  refine (rounds_sub hfin hffin).between (Format.has_zero _) has_one ?_ ?_
  · rw [hfval]; exact sub_nonneg.mpr (Int.floor_le _)
  · rw [hfval]; linarith [Int.lt_floor_add_one x.val]

/-- `sin` of a finite number is in `[-1, 1]`. -/
def SinBounded (L : Libc) : Prop := ∀ x : Double, x.finite → Between (-1) 1 (L.sin x)

theorem sampleDouble_between {L : Libc} (hL : SinBounded L) {s : Frng} (h0 : Fits s.s0)
    (h1 : Fits s.s1) :
    Between 0 1 (sampleDouble L s) := by
  obtain ⟨hfin, hlo, hhi⟩ := hL _ (finite_dot h0 h1)
  have hhas : binary64.Has 43759 := by exact_mod_cast has_natCast64 (k := 43759) (by norm_num)
  obtain ⟨hcfin, hclo, hchi⟩ := (rounds_ofRat (437585453 / 10000)).between (Format.has_zero _) hhas
    (by norm_num) (by norm_num)
  have habs : |(L.sin (dot [s.s0, s.s1] vec2)).val * (ofRat binary64 (437585453 / 10000)).val| ≤ 43759 := by
    rw [abs_mul]
    calc _ ≤ 1 * (43759 : ℚ) :=
          mul_le_mul (abs_le.mpr ⟨hlo, hhi⟩) (abs_le.mpr ⟨by linarith, hchi⟩) (abs_nonneg _) zero_le_one
      _ = 43759 := one_mul _
  exact fract_between
    ((rounds_mul hfin hcfin).between hhas.neg hhas (abs_le.mp habs).1 (abs_le.mp habs).2)

/-- The samples of `frng` are in `[0, 1]`, and so is the state they leave. -/
theorem sample_between {L : Libc} (hL : SinBounded L) {s : Frng} (h0 : Fits s.s0) (h1 : Fits s.s1) :
    Between 0 1 (sample L s).1 ∧ Fits (sample L s).2.s0 ∧ Fits (sample L s).2.s1 := by
  have hr := sampleDouble_between hL h0 h1
  exact ⟨hr, fits_of_unit (sampleDouble_between hL (fits_of_unit hr) (fits_convert h1)),
    fits_of_unit (sampleDouble_between hL (fits_of_unit hr) (fits_convert h0))⟩

theorem inRange {L : Libc} (hL : SinBounded L) {i : ℕ} (hi : i ≤ 2 ^ 53) {s : Frng} (h0 : Fits s.s0)
    (h1 : Fits s.s1) : InRange (nextLong (sample L)) i s :=
  inRange_of_between (P := fun s => Fits s.s0 ∧ Fits s.s1) (fun _ h => sample_between hL h.1 h.2) hi ⟨h0, h1⟩

/-- A finite `float` seed has room. -/
theorem fits_single {f : Single} (hf : f.finite) : Fits (f.toFloating.convert binary64) := by
  have habs := abs_le.mp (Single.abs_val_le hf)
  have h64 := has_maxFloat (F := binary64) (by decide) (by decide) (by decide)
  exact (rounds_convert binary64 hf).between h64.neg h64 habs.1 habs.2

end Frng

end Shuffle3.V2
