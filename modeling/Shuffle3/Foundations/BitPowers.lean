import Mathlib.Tactic.Ring
import Shuffle3.Foundations.BitPolynomials

/-!
# Powers modulo a polynomial over two elements

Products and powers of polynomials as bits, modulo a polynomial that is zero at `t`, and
with them a way to see that a power of `t` moves everything: where a product with some
polynomial is 1, nothing but zero is sent to zero.

The exponents in question divide a number of the form `2 ^ 2 ^ n - 1`. It splits in halves,
`2 ^ (2 * j) - 1` into `2 ^ j - 1` and `2 ^ j + 1`, and `Level` goes down these.

## What is proved

* `Annihilates.eval_mul`, `Annihilates.eval_power` — products and powers modulo `C` are
  those of the values.
* `Level.next` — from a level to the one of half the size.
* `Level.eq_zero_of_fixed` — a power of `t` that an inverse belongs to fixes only zero.
* `check_sound` — a list of such inverses, down all the levels, that the kernel can check at once.
-/

namespace Shuffle3.Foundations.BitPolynomials

universe u

section Values

variable {R : Type u} [Ring R] {t : R} {k C : ℕ}

/-- The product modulo `C` of `p` and the polynomial with the first `j` bits of `q`. -/
def mul (k C p : ℕ) : ℕ → ℕ → ℕ
  | 0, _ => 0
  | j + 1, q => mulX k C (mul k C p j (q / 2)) ^^^ (p * (q % 2))

/-- From `a`, a squaring for each of the first `j` bits of `e` from the top, and a product with
`p` where the bit is 1. Zero is told apart as in `squarings`. -/
def power (k C p e : ℕ) : ℕ → ℕ → ℕ
  | 0, a => a
  | _ + 1, 0 => 0
  | j + 1, a + 1 =>
    if e.testBit j then power k C p e j (mul k C p k (mul k C (a + 1) k (a + 1)))
    else power k C p e j (mul k C (a + 1) k (a + 1))

@[simp] theorem eval_zero (t : R) (k : ℕ) : eval t k 0 = 0 := by simp [eval]

theorem eval_one (hk : 0 < k) (t : R) : eval t k 1 = 1 := by
  have h := eval_mod_two hk t 1
  simpa using h

theorem commute_eval_eval (t : R) (k p j q : ℕ) : Commute (eval t k p) (eval t j q) := by
  refine Commute.sum_left _ _ _ fun i _ => ?_
  split_ifs
  · exact (commute_eval t j q).pow_left i
  · exact Commute.zero_left _

variable [CharP R 2]

/-- **Products modulo `C` are products of the values.** -/
theorem Annihilates.eval_mul (h : Annihilates t k C) (p j q : ℕ) :
    eval t k (mul k C p j q) = eval t k p * eval t j q := by
  induction j generalizing q with
  | zero => simp [mul, eval]
  | succ j ih =>
    have hcomm := (commute_eval t k p).eq
    have hlow : eval t k (p * (q % 2)) = eval t k p * if q.testBit 0 then 1 else 0 := by
      rw [Nat.testBit_zero]
      rcases Nat.mod_two_eq_zero_or_one q with h0 | h1
      · simp [h0]
      · simp [h1]
    rw [mul, eval_xor, h.eval_mulX, ih, hlow, eval_succ, mul_add, ← mul_assoc, hcomm, mul_assoc, add_comm]

/-- **Powers modulo `C` are powers of the values.** -/
theorem Annihilates.eval_power (h : Annihilates t k C) (p e j a : ℕ) :
    eval t k (power k C p e j a) = eval t k a ^ 2 ^ j * eval t k p ^ (e % 2 ^ j) := by
  induction j generalizing a with
  | zero => rw [power, pow_zero, pow_one, Nat.mod_one, pow_zero, mul_one]
  | succ j ih =>
    cases a with
    | zero => simp [power]
    | succ a =>
      have hsq : eval t k (mul k C (a + 1) k (a + 1)) = eval t k (a + 1) ^ 2 := by
        rw [h.eval_mul, pow_two]
      rw [power, Nat.mod_pow_succ, pow_succ' 2 j, pow_mul, hsq.symm]
      split_ifs with htest
      · -- the product with `p` is made once for each of the squarings that follow
        have hbit : e / 2 ^ j % 2 = 1 := by simpa [Nat.testBit_eq_decide_div_mod_eq] using htest
        have hcomm := commute_eval_eval t k p k (mul k C (a + 1) k (a + 1))
        rw [ih, h.eval_mul, hcomm.mul_pow, hbit, mul_one, (hcomm.pow_pow _ _).eq, mul_assoc,
          ← pow_add, Nat.add_comm (2 ^ j)]
      · have hbit : e / 2 ^ j % 2 = 0 := by simpa [Nat.testBit_eq_decide_div_mod_eq] using htest
        rw [ih, hbit, mul_zero, add_zero]

/-- A power whose exponent has at most `j` bits. -/
theorem Annihilates.eval_power_one (h : Annihilates t k C) (hk : 0 < k) (p : ℕ) {e j : ℕ}
    (he : e < 2 ^ j) :
    eval t k (power k C p e j 1) = eval t k p ^ e := by
  rw [h.eval_power, eval_one hk, one_pow, one_mul, Nat.mod_eq_of_lt he]

/-! ### Down the halves of an exponent -/

/-- The polynomials that are `t ^ M` and `t ^ (M * 2 ^ j)`. -/
structure Level (t : R) (k M j b c : ℕ) : Prop where
  base : eval t k b = t ^ M
  top : eval t k c = t ^ (M * 2 ^ j)

/-- **The level of half the size**: its base is the product of the two polynomials. -/
theorem Level.next {M j i b c b' c' : ℕ} (hC : Annihilates t k C) (hk : 0 < k)
    (h : Level t k M j b c) (hb : mul k C b k c = b') (hc : squarings k C i b' = c') :
    Level t k (M * (2 ^ j + 1)) i b' c' := by
  have hbase : eval t k b' = t ^ (M * (2 ^ j + 1)) := by
    rw [← hb, hC.eval_mul, h.base, h.top, ← pow_add, Nat.mul_succ, Nat.add_comm]
  exact ⟨hbase, by rw [← hc, hC.eval_squarings hk, hbase, ← pow_mul]⟩

end Values

section Fixed

variable {S : Type u} [AddCommGroup S] [CharP (AddMonoid.End S) 2] {T : AddMonoid.End S} {k C : ℕ}

/-- **A power that an inverse belongs to fixes only zero**: where `T ^ M` and `T ^ (M * 2 ^ j)`
to the power `m` differ by something that has an inverse modulo `C`. -/
theorem Level.eq_zero_of_fixed {M j b c m i r : ℕ} (hC : Annihilates T k C) (hk : 0 < k)
    (h : Level T k M j b c) (hm : m < 2 ^ i)
    (hr : mul k C r k (power k C c m i 1 ^^^ power k C b m i 1) = 1) {s : S}
    (hs : (T ^ (M * (2 ^ j - 1) * m)) s = s) : s = 0 := by
  have hinv : eval T k r * (T ^ (M * 2 ^ j * m) + T ^ (M * m)) = 1 := by
    rw [← eval_one hk T, ← hr, hC.eval_mul, eval_xor, hC.eval_power_one hk c hm, hC.eval_power_one hk b hm, h.base,
      h.top, ← pow_mul, ← pow_mul]
  have happly : ∀ f g : AddMonoid.End S, (f * g) s = f (g s) := fun _ _ => rfl
  -- the larger power is the smaller one after a power that fixes `s`
  have hexp : M * 2 ^ j * m = M * m + M * (2 ^ j - 1) * m := by
    obtain ⟨e, he⟩ : ∃ e, 2 ^ j = e + 1 := ⟨2 ^ j - 1, (Nat.sub_add_cancel Nat.one_le_two_pow).symm⟩
    rw [he, Nat.add_sub_cancel]
    ring
  have hsum : (T ^ (M * 2 ^ j * m) + T ^ (M * m)) s = 0 := by
    have hchar : (T ^ (M * m)) s + (T ^ (M * m)) s = 0 :=
      DFunLike.congr_fun (CharTwo.add_self_eq_zero (T ^ (M * m))) s
    have hlarge : (T ^ (M * 2 ^ j * m)) s = (T ^ (M * m)) s := by
      rw [hexp, pow_add, happly, hs]
    show (T ^ (M * 2 ^ j * m)) s + (T ^ (M * m)) s = 0
    rw [hlarge, hchar]
  have key := DFunLike.congr_fun hinv s
  rw [happly, hsum, map_zero] at key
  exact key.symm

/-! ### Certificates -/

/-- A level, and for some factors `m` of its exponents the number of bits of `m` and an inverse. -/
structure Certificate where
  size : ℕ
  base : ℕ
  top : ℕ
  inverses : List (ℕ × ℕ × ℕ)

/-- The inverses are such. -/
def Certificate.holds (k C : ℕ) (c : Certificate) : Bool :=
  c.inverses.all fun v => v.1 < 2 ^ v.2.1 &&
    mul k C v.2.2 k (power k C c.top v.1 v.2.1 1 ^^^ power k C c.base v.1 v.2.1 1) == 1

/-- Levels that follow from each other down to the one whose product is 1. -/
def check (k C : ℕ) : List Certificate → Bool
  | [] => true
  | [c] => c.holds k C && mul k C c.base k c.top == 1
  | c :: d :: cs =>
    c.holds k C && (mul k C c.base k c.top == d.base && squarings k C d.size d.base == d.top) &&
      check k C (d :: cs)

/-- The exponents of the powers that the certificates are about, from a level with base `t ^ M`. -/
def exponents (M : ℕ) : List Certificate → List ℕ
  | [] => []
  | c :: cs => c.inverses.map (fun v => M * (2 ^ c.size - 1) * v.1) ++ exponents (M * (2 ^ c.size + 1)) cs

/-- The exponent of the last product. -/
def whole (M : ℕ) : List Certificate → ℕ
  | [] => M
  | c :: cs => whole (M * (2 ^ c.size + 1)) cs

theorem Certificate.eq_zero_of_fixed {M : ℕ} {c : Certificate} (hC : Annihilates T k C) (hk : 0 < k)
    (h : Level T k M c.size c.base c.top) (hc : c.holds k C) {e : ℕ}
    (he : e ∈ c.inverses.map fun v => M * (2 ^ c.size - 1) * v.1) {s : S} (hs : (T ^ e) s = s) :
    s = 0 := by
  obtain ⟨v, hv, rfl⟩ := List.mem_map.mp he
  have hholds := List.all_eq_true.mp hc v hv
  rw [Bool.and_eq_true, decide_eq_true_eq, beq_iff_eq] at hholds
  exact h.eq_zero_of_fixed hC hk hholds.1 hholds.2 hs

/-- **What checked certificates prove**: every power that they are about fixes only zero,
and the power of the last product is the identity. -/
theorem check_sound {cs : List Certificate} (hC : Annihilates T k C) (hk : 0 < k) :
    ∀ {M : ℕ} {c : Certificate}, Level T k M c.size c.base c.top → check k C (c :: cs) →
      (∀ e ∈ exponents M (c :: cs), ∀ s, (T ^ e) s = s → s = 0) ∧ T ^ whole M (c :: cs) = 1 := by
  induction cs with
  | nil =>
    intro M c h hcheck
    rw [check, Bool.and_eq_true, beq_iff_eq] at hcheck
    refine ⟨fun e he s hs => ?_, ?_⟩
    · rw [exponents, exponents, List.append_nil] at he
      exact c.eq_zero_of_fixed hC hk h hcheck.1 he hs
    · have hlast := h.next (i := 0) hC hk hcheck.2 rfl
      rw [whole, whole, ← hlast.base, eval_one hk]
  | cons d cs ih =>
    intro M c h hcheck
    rw [check, Bool.and_eq_true, Bool.and_eq_true, Bool.and_eq_true, beq_iff_eq, beq_iff_eq] at hcheck
    obtain ⟨⟨hholds, hbase, htop⟩, hrest⟩ := hcheck
    obtain ⟨hfixed, hwhole⟩ := ih (h.next hC hk hbase htop) hrest
    refine ⟨fun e he s hs => ?_, hwhole⟩
    rw [exponents, List.mem_append] at he
    rcases he with he | he
    · exact c.eq_zero_of_fixed hC hk h hholds he hs
    · exact hfixed e he s hs

end Fixed

end Shuffle3.Foundations.BitPolynomials
