import Mathlib.Algebra.BigOperators.Group.Finset.Basic
import Mathlib.Algebra.BigOperators.Ring.Finset
import Mathlib.Algebra.CharP.Two
import Mathlib.Algebra.Module.Equiv.Basic
import Mathlib.Data.Nat.Bitwise

/-!
# Polynomials over two elements, as bits

A polynomial with coefficients 0 and 1 is a number: bit `i` is the coefficient of
`x ^ i`. Its value is taken in any ring in which `1 + 1 = 0`, and of such a ring
nothing else is asked: the maps of a group of words to itself that respect the
exclusive or are one, and need not commute.

Modulo a polynomial that is zero at `t`, the powers of `t` with exponent `2 ^ e`
are `e` squarings away from `t`.

## What is proved

* `eval_squarings` — squaring modulo `C` is squaring of the value, at a `t` where
  the value of `C` is zero.
* `foldl_addRound` — a loop that steps a state and adds it where the polynomial has
  a coefficient computes the value of the polynomial at the step.
* `eq_zero_of_bits` — an additive map of words is zero when it is zero on the bits.
-/

namespace Shuffle3.Foundations.BitPolynomials

universe u

/-! ### Values -/

section Values

variable {R : Type u} [Ring R] {t : R} {k m C : ℕ}

/-- The value at `t` of the polynomial whose coefficients are the first `k` bits of `p`. -/
def eval (t : R) (k p : ℕ) : R := ∑ i ∈ Finset.range k, if p.testBit i then t ^ i else 0

/-- The leading term apart. -/
theorem eval_succ_top (t : R) (k p : ℕ) :
    eval t (k + 1) p = eval t k p + if p.testBit k then t ^ k else 0 :=
  Finset.sum_range_succ _ k

theorem eval_succ_of_not_testBit {p : ℕ} (h : p.testBit k = false) :
    eval t (k + 1) p = eval t k p := by
  rw [eval_succ_top, h, if_neg Bool.false_ne_true, add_zero]

theorem eval_two (hk : 1 < k) : eval t k 2 = t := by
  have htest : ∀ i, (2 : ℕ).testBit i = decide (1 = i) := fun i => Nat.testBit_two_pow (n := 1)
  rw [eval, Finset.sum_eq_single 1]
  · simp [htest]
  · intro i _ hi
    rw [htest, decide_eq_false (Ne.symm hi), if_neg Bool.false_ne_true]
  · intro h
    exact absurd (Finset.mem_range.mpr hk) h

/-- The constant term apart. -/
theorem eval_succ (t : R) (k p : ℕ) :
    eval t (k + 1) p = (if p.testBit 0 then 1 else 0) + t * eval t k (p / 2) := by
  rw [eval, Finset.sum_range_succ', add_comm, eval, Finset.mul_sum, pow_zero]
  congr 1
  refine Finset.sum_congr rfl fun i _ => ?_
  rw [Nat.testBit_succ, mul_ite, mul_zero, pow_succ']

theorem eval_two_mul (t : R) (k p : ℕ) : eval t (k + 1) (2 * p) = t * eval t k p := by
  have hbit : (2 * p).testBit 0 = false := by simp [Nat.testBit_zero]
  rw [eval_succ, hbit, if_neg Bool.false_ne_true, zero_add, Nat.mul_div_cancel_left p (by decide)]

/-- The coefficients from `k` on apart. -/
theorem eval_add_width (t : R) (k m p : ℕ) :
    eval t (k + m) p = eval t k p + t ^ k * eval t m (p / 2 ^ k) := by
  rw [eval, Finset.sum_range_add, eval, eval, Finset.mul_sum]
  congr 1
  refine Finset.sum_congr rfl fun i _ => ?_
  rw [Nat.testBit_div_two_pow, mul_ite, mul_zero, pow_add, Nat.add_comm k i]

theorem eval_mod (t : R) (k p : ℕ) : eval t k (p % 2 ^ k) = eval t k p := by
  refine Finset.sum_congr rfl fun i hi => ?_
  rw [Nat.testBit_mod_two_pow, decide_eq_true (Finset.mem_range.mp hi), Bool.true_and]

theorem eval_mod_two (hk : 0 < k) (t : R) (p : ℕ) :
    eval t k (p % 2) = if p.testBit 0 then 1 else 0 := by
  obtain ⟨j, rfl⟩ := Nat.exists_eq_add_of_lt hk
  have hrest : eval t (0 + j) (p % 2 / 2) = 0 := by
    rw [Nat.div_eq_of_lt (Nat.mod_lt p (by decide)), eval]
    simp
  rw [eval_succ, hrest, mul_zero, add_zero, Nat.testBit_zero, Nat.testBit_zero, Nat.mod_mod]

theorem commute_eval (t : R) (k p : ℕ) : Commute t (eval t k p) := by
  refine Commute.sum_right _ _ _ fun i _ => ?_
  split_ifs
  · exact Commute.self_pow t i
  · exact Commute.zero_right t

variable [CharP R 2]

theorem eval_xor (t : R) (k p q : ℕ) : eval t k (p ^^^ q) = eval t k p + eval t k q := by
  rw [eval, eval, eval, ← Finset.sum_add_distrib]
  refine Finset.sum_congr rfl fun i _ => ?_
  rw [Nat.testBit_xor]
  cases p.testBit i <;> cases q.testBit i <;> simp [CharTwo.add_self_eq_zero]

/-! ### Squaring modulo a polynomial -/

/-- `x * p` modulo the polynomial `C` of degree `k`. -/
def mulX (k C p : ℕ) : ℕ := if (2 * p).testBit k then (2 * p) ^^^ C else 2 * p

/-- The square modulo `C` of the polynomial with the first `j` bits of `p`. -/
def square (k C : ℕ) : ℕ → ℕ → ℕ
  | 0, _ => 0
  | j + 1, p => mulX k C (mulX k C (square k C j (p / 2))) ^^^ (p % 2)

/-- `e` squarings modulo `C`. The square of zero is zero, and telling the two cases
apart makes evaluation go on from a number. -/
def squarings (k C : ℕ) : ℕ → ℕ → ℕ
  | 0, p => p
  | _ + 1, 0 => 0
  | e + 1, p + 1 => squarings k C e (square k C k (p + 1))

/-- `C` has degree `k`, and is zero at `t`. -/
structure Annihilates (t : R) (k C : ℕ) : Prop where
  lead : C.testBit k
  zero : eval t (k + 1) C = 0

namespace Annihilates

theorem eval_mulX (h : Annihilates t k C) (p : ℕ) : eval t k (mulX k C p) = t * eval t k p := by
  rw [mulX, ← eval_two_mul]
  split_ifs with hbit
  · -- the leading coefficients cancel
    have hlead : (2 * p ^^^ C).testBit k = false := by
      rw [Nat.testBit_xor, hbit, h.lead, Bool.xor_self]
    rw [← eval_succ_of_not_testBit hlead, eval_xor, h.zero, add_zero]
  · rw [eval_succ_of_not_testBit (Bool.eq_false_iff.mpr hbit)]

/-- **Squaring modulo `C` is squaring of the value**: the mixed terms cancel. -/
theorem eval_square (h : Annihilates t k C) (hk : 0 < k) (j p : ℕ) :
    eval t k (square k C j p) = eval t j p ^ 2 := by
  induction j generalizing p with
  | zero => simp [square, eval]
  | succ j ih =>
    have hc := (commute_eval t j (p / 2)).eq
    rw [square, eval_xor, h.eval_mulX, h.eval_mulX, ih, eval_mod_two hk, eval_succ]
    generalize eval t j (p / 2) = e at hc ⊢
    have hsq : (t * e) ^ 2 = t * (t * e ^ 2) := by
      rw [pow_two, pow_two, mul_assoc, ← mul_assoc e t e, ← hc, mul_assoc]
    split_ifs
    · rw [pow_two (1 + t * e), mul_add, add_mul, add_mul, one_mul, one_mul, mul_one, ← pow_two, hsq]
      rw [add_assoc, ← add_assoc (t * e), CharTwo.add_self_eq_zero, zero_add, add_comm]
    · rw [zero_add, add_zero, hsq]

/-- **`e` squarings raise the value to the power `2 ^ e`.** -/
theorem eval_squarings (h : Annihilates t k C) (hk : 0 < k) (e p : ℕ) :
    eval t k (squarings k C e p) = eval t k p ^ 2 ^ e := by
  induction e generalizing p with
  | zero => rw [squarings, pow_zero, pow_one]
  | succ e ih =>
    cases p with
    | zero => simp [squarings, eval]
    | succ p => rw [squarings, ih, h.eval_square hk, ← pow_mul, ← pow_succ']

/-- **A power of `t` with exponent `2 ^ e` is the value of a polynomial** that `e` squarings of `x` reach. -/
theorem pow_eq_eval (h : Annihilates t k C) (hk : 1 < k) {e p : ℕ} (hp : squarings k C e 2 = p) :
    t ^ 2 ^ e = eval t k p := by
  rw [← hp, h.eval_squarings (by omega), eval_two hk]

end Annihilates

end Values

/-! ### The value by running -/

section Running

variable {S : Type u} [AddCommGroup S]

/-- One round: the state takes a step, after it is added to the sum where the coefficient is 1. -/
def addRound (step : S → S) (p : S × S) (b : Bool) : S × S :=
  (step p.1, if b then p.2 + p.1 else p.2)

/-- **Running the rounds adds the value of the polynomial at the step**, applied to the state. -/
theorem foldl_addRound (T : AddMonoid.End S) (p k : ℕ) (s a : S) :
    ((List.range k).map p.testBit).foldl (addRound T) (s, a) = ((T ^ k) s, a + eval T k p s) := by
  induction k with
  | zero => simp [eval]
  | succ k ih =>
    rw [List.range_succ, List.map_append, List.foldl_append, ih, eval_succ_top]
    simp only [List.map_cons, List.map_nil, List.foldl_cons, List.foldl_nil, addRound]
    have hadd : ∀ f g : AddMonoid.End S, (f + g) s = f s + g s := fun _ _ => rfl
    refine Prod.ext ?_ ?_
    · rw [pow_succ']
      rfl
    · rw [hadd]
      cases p.testBit k with
      | false => simp
      | true => exact add_assoc _ _ _

/-- The maps of a group in which every element is its own opposite. -/
theorem charTwo_end (hne : ∃ s : S, s ≠ 0) (h : ∀ s : S, s + s = 0) :
    CharP (AddMonoid.End S) 2 := by
  refine CharTwo.of_one_ne_zero_of_two_eq_zero ?_ ?_
  · obtain ⟨s, hs⟩ := hne
    intro h1
    exact hs (DFunLike.congr_fun h1 s)
  · rw [← one_add_one_eq_two]
    exact AddMonoidHom.ext fun s => h s

/-- **A map of words that respects the exclusive or is zero when it is zero on the bits.** -/
theorem eq_zero_of_bits {w : ℕ} {f : BitVec w → S} (hf : ∀ x y, f (x ^^^ y) = f x + f y)
    (hbit : ∀ i < w, f (1#w <<< i) = 0) (x : BitVec w) : f x = 0 := by
  have hzero : f 0#w = 0 := by
    have h := hf 0#w 0#w
    rw [BitVec.xor_self] at h
    exact left_eq_add.mp h
  have key : ∀ k ≤ w, ∀ n < 2 ^ k, f (BitVec.ofNat w n) = 0 := by
    intro k
    induction k with
    | zero =>
      intro _ n hn
      rw [pow_zero, Nat.lt_one_iff] at hn
      rw [hn, hzero]
    | succ k ih =>
      intro hk n hn
      cases hnk : n.testBit k with
      | false =>
        refine ih (by omega) n (Nat.lt_pow_two_of_testBit n fun i hi => ?_)
        rcases hi.eq_or_lt with rfl | hlt
        · exact hnk
        · exact Nat.testBit_lt_two_pow (hn.trans_le (Nat.pow_le_pow_right (by decide) hlt))
      | true =>
        -- without its top bit the number is shorter
        have hlt : n ^^^ 2 ^ k < 2 ^ k := by
          refine Nat.lt_pow_two_of_testBit _ fun i hi => ?_
          rw [Nat.testBit_xor, Nat.testBit_two_pow]
          rcases hi.eq_or_lt with rfl | hlt
          · simp [hnk]
          · rw [Nat.testBit_lt_two_pow (hn.trans_le (Nat.pow_le_pow_right (by decide) hlt))]
            simp [Nat.ne_of_lt hlt]
        have hsplit : BitVec.ofNat w n = BitVec.ofNat w (n ^^^ 2 ^ k) ^^^ 1#w <<< k := by
          have hone : (1#w <<< k) = BitVec.ofNat w (2 ^ k) := by
            apply BitVec.eq_of_toNat_eq
            rw [BitVec.toNat_shiftLeft, BitVec.toNat_ofNat, BitVec.toNat_ofNat, Nat.shiftLeft_eq,
              Nat.mod_mul_mod, one_mul]
          rw [hone, ← BitVec.ofNat_xor, Nat.xor_assoc, Nat.xor_self, Nat.xor_zero]
        rw [hsplit, hf, ih (by omega) _ hlt, hbit k (by omega), add_zero]
  have hx := key w le_rfl x.toNat x.isLt
  rwa [BitVec.ofNat_toNat, BitVec.setWidth_eq] at hx

end Running

end Shuffle3.Foundations.BitPolynomials
