import Mathlib.Data.BitVec
import Mathlib.NumberTheory.LucasPrimality
import Mathlib.Tactic.NormNum.Prime
import Mathlib.Tactic.ReduceModChar
import Shuffle3.Foundations.BitPowers
import Shuffle3.Foundations.Periods
import Shuffle3.V2.Jump

/-!
# The period of xoroshiro128plus

From every state but `(0, 0)` the generator meets all the others before it comes back. The
period divides `2 ^ 128 - 1`, and for each of the nine primes of that number the power of
the step that leaves the prime out is shown to fix nothing, by a polynomial that is
inverse to what it adds to the identity.

## What is proved

* `minimalPeriod_step` — the period of every state but `(0, 0)` is `2 ^ 128 - 1`.
* `runs_through` — every state but `(0, 0)` is met once in a period.
* `streams_apart` — generators that are jumped apart meet no state in common.
* `sample_equidistributed` — how often a sample is met in a period.
-/

namespace Shuffle3.V2.Xoroshiro128plus

open Foundations BitPolynomials Periods Function

/-! ### The primes of the period -/

theorem prime_greatest : Nat.Prime 67280421310721 := by
  refine lucas_primality _ 3 (by reduce_mod_char) fun q hq hdvd => ?_
  have hfactors : (67280421310721 - 1 : ℕ) = [2 ^ 8, 5, 47, 373, 2998279].prod := by norm_num
  have hne : ∀ p, p.Prime → q ∣ p → (3 : ZMod 67280421310721) ^ ((67280421310721 - 1) / p) ≠ 1 →
      (3 : ZMod 67280421310721) ^ ((67280421310721 - 1) / q) ≠ 1 := by
    intro p hp hqp h
    rwa [(Nat.prime_dvd_prime_iff_eq hq hp).mp hqp]
  rw [hfactors, hq.prime.dvd_prod_iff] at hdvd
  obtain ⟨a, ha, hqa⟩ := hdvd
  simp only [List.mem_cons, List.not_mem_nil, or_false] at ha
  rcases ha with rfl | rfl | rfl | rfl | rfl
  · exact hne 2 Nat.prime_two (hq.dvd_of_dvd_pow hqa) (by norm_num; reduce_mod_char; decide)
  · exact hne 5 (by norm_num) hqa (by norm_num; reduce_mod_char; decide)
  · exact hne 47 (by norm_num) hqa (by norm_num; reduce_mod_char; decide)
  · exact hne 373 (by norm_num) hqa (by norm_num; reduce_mod_char; decide)
  · exact hne 2998279 (by norm_num) hqa (by norm_num; reduce_mod_char; decide)

/-- The primes of `2 ^ 128 - 1`. -/
def periodPrimes : List ℕ := [274177, 67280421310721, 641, 6700417, 65537, 257, 17, 5, 3]

theorem prime_of_mem_periodPrimes : ∀ p ∈ periodPrimes, p.Prime := by
  simp only [periodPrimes, List.forall_mem_cons]
  refine ⟨by norm_num, prime_greatest, ?_⟩
  norm_num

theorem mem_periodPrimes {q : ℕ} (hq : q.Prime) (h : q ∣ 2 ^ 128 - 1) : q ∈ periodPrimes := by
  have hprod : 2 ^ 128 - 1 = periodPrimes.prod := by
    simp only [periodPrimes, List.prod_cons, List.prod_nil]
    norm_num
  rw [hprod, hq.prime.dvd_prod_iff] at h
  obtain ⟨p, hp, hqp⟩ := h
  rwa [(Nat.prime_dvd_prime_iff_eq hq (prime_of_mem_periodPrimes p hp)).mp hqp]

/-! ### The certificates -/

/-- The levels of the step, with the inverses for the primes. -/
def periodCertificates : List Certificate :=
  [⟨64, 2, 0x170865df4b3201fcdf900294d8f554a5,
      [(67280421310721, 46, 0x8300c1c766c69e25d0d7083a7bc94593),
        (274177, 19, 0xd7badc69e2abb72c9098eb3809592545)]⟩,
    ⟨32, 0x2e10cbbe966403f9bf200529b1eaa94a, 0xaf49adeeb4b15afd5082abd1afc41cbf,
      [(6700417, 23, 0xade01d016825c7b89ff9880fc378ebe4), (641, 10, 0x93147927010ca73313a74f8e2dbff15e)]⟩,
    ⟨16, 0x9e82bab17ffd0910c0294ba5dd55ed85, 0x2beda3ad3fdf02ebad015e03d43dd64f,
      [(1, 1, 0x19c7f37c933343af3919afdec56834e)]⟩,
    ⟨8, 0x4b83ed5974e9f80fa625a55c50e48799, 0xb7fd5ec9e1bcc8495cf8ba3de08e9a2c,
      [(1, 1, 0x23ae165e587ba525e44794a23f68ba61)]⟩,
    ⟨4, 0xbce39248afe091e5c60e0f9e8dcc6156, 0x944ebebb4f7d14151a4efbff5f0ea68e,
      [(1, 1, 0x28ad2cf3e09d85f0dc40f461d2c2c7d9)]⟩,
    ⟨2, 0xbe5308ec69514dc2ca8939e8bb7cc7f3, 0xbe5308ec69514dc2ca8939e8bb7cc7f2, [(1, 1, 1)]⟩,
    ⟨1, 0x28ad2cf3e09d85f0dc40f461d2c2c7d8, 0x28ad2cf3e09d85f0dc40f461d2c2c7d9, [(1, 1, 1)]⟩]

theorem check_periodCertificates : check 128 modulus periodCertificates := by decide +kernel

/-- The first level is `JUMP`. -/
theorem level_jump : Level stepHom 128 1 64 2 0x170865df4b3201fcdf900294d8f554a5 where
  base := by rw [eval_two (by decide), pow_one]
  top := by
    have hwords : ofWords jumpConstants = 0x170865df4b3201fcdf900294d8f554a5 := by decide
    rw [one_mul, stepHom_pow_jump, hwords]

/-- The exponents of the certificates are those that leave out one prime. -/
theorem mem_exponents {q : ℕ} (hq : q ∈ periodPrimes) :
    (2 ^ 128 - 1) / q ∈ exponents 1 periodCertificates := by
  revert q
  decide

/-- **`2 ^ 128 - 1` steps lead back**, and the power that leaves out a prime fixes only `(0, 0)`. -/
theorem stepHom_pow_period : stepHom ^ (2 ^ 128 - 1) = 1 ∧
    ∀ q ∈ periodPrimes, ∀ s, (stepHom ^ ((2 ^ 128 - 1) / q)) s = s → s = 0 := by
  obtain ⟨hfixed, hwhole⟩ :=
    check_sound annihilates_modulus (by decide) level_jump check_periodCertificates
  exact ⟨hwhole, fun q hq s hs => hfixed _ (mem_exponents hq) s hs⟩

/-- After `2 ^ 128 - 1` steps every state is back. -/
theorem step_iterate_period (s : Xoroshiro128plus) : step^[2 ^ 128 - 1] s = s := by
  have hpow := stepHom_pow (2 ^ 128 - 1) s
  rw [stepHom_pow_period.1] at hpow
  exact hpow.symm

/-- **The period of every state but `(0, 0)` is `2 ^ 128 - 1`.** -/
theorem minimalPeriod_step {s : Xoroshiro128plus} (h : s ≠ 0) :
    minimalPeriod step s = 2 ^ 128 - 1 := by
  refine minimalPeriod_eq_of_prime (step_iterate_period s) fun q hq hdvd hfix => h ?_
  exact stepHom_pow_period.2 q (mem_periodPrimes hq hdvd) s ((stepHom_pow _ s).trans hfix)

/-! ### All the states -/

/-- A state told by its first word and its output. -/
def outputEquiv : Xoroshiro128plus ≃ BitVec 64 × BitVec 64 where
  toFun s := (s.s0, (next s).1)
  invFun p := ⟨p.1, p.2 - p.1⟩
  left_inv s := Xoroshiro128plus.ext rfl (by
    show s.s0 + s.s1 - s.s0 = s.s1
    rw [BitVec.add_comm, BitVec.add_sub_cancel])
  right_inv p :=
    Prod.ext rfl (by show p.1 + (p.2 - p.1) = p.2; rw [BitVec.add_comm, BitVec.sub_add_cancel])

theorem card_words (w : ℕ) : Nat.card (BitVec w) = 2 ^ w := by
  rw [Nat.card_congr BitVec.equivFin.toEquiv, Nat.card_fin]

instance : Finite Xoroshiro128plus :=
  have (w : ℕ) : Finite (BitVec w) := Finite.of_equiv _ BitVec.equivFin.toEquiv.symm
  Finite.of_equiv _ outputEquiv.symm

/-- The states but `(0, 0)`. -/
def live : Set Xoroshiro128plus := {0}ᶜ

theorem card_live : Nat.card live = 2 ^ 128 - 1 := by
  have hstates : Nat.card Xoroshiro128plus = 2 ^ 128 := by
    rw [Nat.card_congr outputEquiv, Nat.card_prod, card_words, ← pow_add]
  rw [live, Nat.card_coe_set_eq, Set.ncard_compl, hstates, Set.ncard_singleton]

variable {s t : Xoroshiro128plus}

theorem mapsTo_live : Set.MapsTo step live live := fun s h => iterate_step_ne_zero (s := s) h 1

theorem card_live_eq (h : s ≠ 0) : Nat.card live = minimalPeriod step s := by
  rw [card_live, minimalPeriod_step h]

theorem minimalPeriod_step_pos (h : s ≠ 0) : 0 < minimalPeriod step s := by
  rw [minimalPeriod_step h]
  norm_num

/-- **The generator runs through all its states.** From a state other than `(0, 0)` as
many steps lead back as `2 ^ 128 - 1` divides, and every other such state is met once
before. -/
theorem runs_through (h : s ≠ 0) :
    (∀ n, step^[n] s = s ↔ 2 ^ 128 - 1 ∣ n) ∧ ∀ t ≠ 0, ∃! n, n < 2 ^ 128 - 1 ∧ step^[n] s = t := by
  rw [← minimalPeriod_step h]
  exact ⟨fun n => isPeriodicPt_iff_minimalPeriod_dvd,
    fun t ht => existsUnique_iterate (card_live_eq h) (minimalPeriod_step_pos h) mapsTo_live h ht⟩

theorem runs_through_one :
    (⟨1, 0⟩ : Xoroshiro128plus) ≠ 0 ∧ (∀ n, step^[n] ⟨1, 0⟩ = ⟨1, 0⟩ ↔ 2 ^ 128 - 1 ∣ n) ∧
      ∀ t ≠ 0, ∃! n, n < 2 ^ 128 - 1 ∧ step^[n] ⟨1, 0⟩ = t :=
  ⟨by decide, runs_through (by decide)⟩

/-! ### Streams -/

theorem jump_eq_step : jump = step^[2 ^ 64] := by
  funext s
  have hpow := stepHom_pow (2 ^ 64) s
  rw [stepHom_pow_jump] at hpow
  rw [jump, jumpLoop_snd]
  exact hpow

theorem longJump_eq_step : longJump = step^[2 ^ 96] := by
  funext s
  have hpow := stepHom_pow (2 ^ 96) s
  rw [stepHom_pow_longJump] at hpow
  rw [longJump, jumpLoop_snd]
  exact hpow

theorem iterate_jump (i : ℕ) : jump^[i] = step^[2 ^ 64 * i] := by rw [jump_eq_step, ← iterate_mul]

/-- **Generators that are jumped apart meet no state in common**: after different numbers
of jumps, fewer than `2 ^ 64 - 1`, the next `2 ^ 64` states are different ones. As many
jumps as make a `long_jump` are one, and `2 ^ 64` of them are one step. -/
theorem streams_apart (h : s ≠ 0) :
    (∀ i j a b, i < 2 ^ 64 - 1 → j < 2 ^ 64 - 1 → a < 2 ^ 64 → b < 2 ^ 64 →
      (step^[a] (jump^[i] s) = step^[b] (jump^[j] s) ↔ i = j ∧ a = b)) ∧
      jump^[2 ^ 32] s = longJump s ∧ jump^[2 ^ 64] s = step s := by
  refine ⟨fun i j a b hi hj ha hb => ?_, ?_, ?_⟩
  · have hperiod := minimalPeriod_step h
    rw [iterate_jump, iterate_jump, ← iterate_add_apply, ← iterate_add_apply,
      iterate_eq_iterate_iff_of_lt_minimalPeriod (by omega) (by omega)]
    omega
  · rw [iterate_jump, longJump_eq_step, ← pow_add]
  · have hexp : 2 ^ 64 * 2 ^ 64 = 1 + (2 ^ 128 - 1) := by norm_num
    rw [iterate_jump, hexp, iterate_add_apply, step_iterate_period]
    rfl

theorem streams_apart_one :
    (∀ i j a b, i < 2 ^ 64 - 1 → j < 2 ^ 64 - 1 → a < 2 ^ 64 → b < 2 ^ 64 →
      (step^[a] (jump^[i] ⟨1, 0⟩) = step^[b] (jump^[j] ⟨1, 0⟩) ↔ i = j ∧ a = b)) ∧
      jump^[2 ^ 32] ⟨1, 0⟩ = longJump ⟨1, 0⟩ ∧ jump^[2 ^ 64] ⟨1, 0⟩ = step ⟨1, 0⟩ :=
  streams_apart (by decide)

/-! ### Samples in a period -/

/-- The outputs with these low bits. -/
theorem card_lowBits {r : ℕ} (hr : r < 2 ^ 53) :
    Nat.card { v : BitVec 64 // lowBits v = r } = 2 ^ 11 := by
  rw [← Nat.card_fin (2 ^ 11)]
  refine Nat.card_eq_of_bijective (fun v => ⟨v.1.toNat / 2 ^ 53, by have := v.1.isLt; omega⟩)
    ⟨fun v w h => ?_, fun k => ?_⟩
  · have hv := v.2
    have hw := w.2
    rw [lowBits_eq] at hv hw
    have hdiv : v.1.toNat / 2 ^ 53 = w.1.toNat / 2 ^ 53 := Fin.ext_iff.mp h
    exact Subtype.ext (BitVec.eq_of_toNat_eq (by omega))
  · have hk := k.2
    have hval : (BitVec.ofNat 64 (r + 2 ^ 53 * k)).toNat = r + 2 ^ 53 * k := by
      rw [BitVec.toNat_ofNat]
      omega
    refine ⟨⟨BitVec.ofNat 64 (r + 2 ^ 53 * k), by rw [lowBits_eq, hval]; omega⟩, Fin.ext ?_⟩
    show (BitVec.ofNat 64 (r + 2 ^ 53 * k)).toNat / 2 ^ 53 = k
    omega

theorem card_outputs {r : ℕ} (hr : r < 2 ^ 53) :
    Nat.card { s : Xoroshiro128plus // lowBits (next s).1 = r } = 2 ^ 75 := by
  have hequiv : { s : Xoroshiro128plus // lowBits (next s).1 = r } ≃
      BitVec 64 × { v : BitVec 64 // lowBits v = r } :=
    { toFun := fun s => (s.1.s0, ⟨(next s.1).1, s.2⟩)
      invFun := fun p => ⟨outputEquiv.symm (p.1, p.2.1), by
        have hout := congrArg Prod.snd (outputEquiv.apply_symm_apply (p.1, p.2.1))
        exact (congrArg lowBits hout).trans p.2.2⟩
      left_inv := fun s => Subtype.ext (outputEquiv.symm_apply_apply s.1)
      right_inv := fun p =>
        Prod.ext rfl (Subtype.ext (congrArg Prod.snd (outputEquiv.apply_symm_apply (p.1, p.2.1)))) }
  rw [Nat.card_congr hequiv, Nat.card_prod, card_words, card_lowBits hr, ← pow_add]

/-- The states whose output has low bits with a property. -/
theorem card_states (p : ℕ → Prop) :
    Nat.card { t : Xoroshiro128plus // p (lowBits (next t).1) } =
      Nat.card { r // r < 2 ^ 53 ∧ p r } * 2 ^ 75 := by
  have : Finite { r // r < 2 ^ 53 ∧ p r } := (Set.finite_Iio (2 ^ 53)).subset fun r h => h.1
  have : Fintype { r // r < 2 ^ 53 ∧ p r } := Fintype.ofFinite _
  let low : { t : Xoroshiro128plus // p (lowBits (next t).1) } → { r // r < 2 ^ 53 ∧ p r } :=
    fun t => ⟨lowBits (next t.1).1, lowBits_lt _, t.2⟩
  have hfiber : ∀ r, Nat.card { t // low t = r } = 2 ^ 75 := fun r => by
    rw [← card_outputs r.2.1]
    exact Nat.card_congr
      { toFun := fun t => ⟨t.1.1, congrArg Subtype.val t.2⟩
        invFun := fun t => ⟨⟨t.1, by rw [t.2]; exact r.2.2⟩, Subtype.ext t.2⟩
        left_inv := fun _ => rfl
        right_inv := fun _ => rfl }
  rw [← Nat.card_congr (Equiv.sigmaFiberEquiv low), Nat.card_sigma, Finset.sum_congr rfl fun r _ => hfiber r,
    Finset.sum_const, Finset.card_univ, Nat.card_eq_fintype_card, smul_eq_mul]

/-- **How often the low bits have a property in a period**: as many numbers of 53 bits as
have it, `2 ^ 75` times each, but for the state `(0, 0)`, which is not met. -/
theorem card_steps (h : s ≠ 0) (p : ℕ → Prop) [Decidable (p 0)] :
    Nat.card { n // n < 2 ^ 128 - 1 ∧ p (lowBits (next (step^[n] s)).1) } =
      Nat.card { r // r < 2 ^ 53 ∧ p r } * 2 ^ 75 - if p 0 then 1 else 0 := by
  have hcount := card_iterate (card_live_eq h) (minimalPeriod_step_pos h) mapsTo_live h fun t =>
    p (lowBits (next t).1)
  rw [minimalPeriod_step h] at hcount
  rw [hcount, ← card_states]
  have hlive : { t | t ∈ live ∧ p (lowBits (next t).1) } = { t | p (lowBits (next t).1) } \ {0} := by
    ext t
    simp only [Set.mem_ofPred_eq, Set.mem_sdiff, live, Set.mem_compl_iff, and_comm]
  have hzero : lowBits (next 0).1 = 0 := by decide
  show ({ t | t ∈ live ∧ p (lowBits (next t).1) } : Set Xoroshiro128plus).ncard =
    ({ t | p (lowBits (next t).1) } : Set Xoroshiro128plus).ncard - _
  rw [hlive]
  split_ifs with h0
  · exact Set.ncard_sdiff_singleton_of_mem (by show p (lowBits (next 0).1); rwa [hzero])
  · have hnot : (0 : Xoroshiro128plus) ∉ { t : Xoroshiro128plus | p (lowBits (next t).1) } :=
      fun hmem => h0 (hzero ▸ hmem)
    rw [Set.sdiff_singleton_eq_self hnot, Nat.sub_zero]

/-- **Every sample is met equally often in a period**, `2 ^ 75` times, but for zero, which
is met once less. -/
theorem sample_equidistributed (h : s ≠ 0) {r : ℕ} (hr : r < 2 ^ 53) :
    Nat.card { n // n < 2 ^ 128 - 1 ∧ (sample (step^[n] s)).1.val = r / 2 ^ 53 } =
      2 ^ 75 - if r = 0 then 1 else 0 := by
  have hval : ∀ t, (sample t).1.val = r / 2 ^ 53 ↔ lowBits (next t).1 = r := fun t => by
    rw [(sample_eq t).2, div_left_inj' (by norm_num)]
    norm_cast
  have hone : Nat.card { r' // r' < 2 ^ 53 ∧ r' = r } = 1 :=
    Nat.subtype_card {r} fun r' => by rw [Finset.mem_singleton]; exact ⟨fun e => ⟨e ▸ hr, e⟩, And.right⟩
  simp only [hval]
  rw [card_steps h (· = r), hone, one_mul]
  simp only [eq_comm]

theorem sample_equidistributed_zero :
    Nat.card { n // n < 2 ^ 128 - 1 ∧ (sample (step^[n] ⟨1, 0⟩)).1.val = (0 : ℕ) / 2 ^ 53 } =
      2 ^ 75 - if (0 : ℕ) = 0 then 1 else 0 :=
  sample_equidistributed (by decide) (by norm_num)

end Shuffle3.V2.Xoroshiro128plus
