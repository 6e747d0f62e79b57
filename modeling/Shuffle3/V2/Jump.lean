import Shuffle3.V2.Xoroshiro

/-!
# Skipping ahead

`jump` and `long_jump` of `xoroshiro128plus`. Both run one loop, which steps the
state once for every bit of some constants and adds up the states that it finds
where a bit is set. The step is linear, so the loop computes the value of a
polynomial at the step, and the polynomial is a power of `x` modulo one that is
zero at the step.

## What is proved

* `jumpLoop_eq` — what the loop computes.
* `annihilates_modulus` — a polynomial of degree 128 that is zero at the step.
* `jump_eq_iterate` — the jumps are `2 ^ 64` and `2 ^ 96` steps.
-/

namespace Shuffle3.V2.Xoroshiro128plus

open Foundations BitPolynomials

/-! ### The program -/

/-- `JUMP`. -/
def jumpConstants : List (BitVec 64) := [0xdf900294d8f554a5, 0x170865df4b3201fc]

/-- `LONG_JUMP`. -/
def longJumpConstants : List (BitVec 64) := [0xd2a98b26625eee7b, 0xdddf9b1090aa7ac1]

/-- One round of the loop: the state, and the sum, where bit `b` of a constant decides. -/
def jumpRound (word : BitVec 64) (p : Xoroshiro128plus × Xoroshiro128plus) (b : ℕ) :
    Xoroshiro128plus × Xoroshiro128plus :=
  let (s, sum) := p
  ((next s).2, if word &&& (1#64 <<< b) ≠ 0 then ⟨sum.s0 ^^^ s.s0, sum.s1 ^^^ s.s1⟩ else sum)

/-- The loop over the constants and their bits. -/
def jumpLoop (constants : List (BitVec 64)) (p : Xoroshiro128plus × Xoroshiro128plus) :
    Xoroshiro128plus × Xoroshiro128plus :=
  constants.foldl (fun p word => (List.range 64).foldl (jumpRound word) p) p

/-- `xo_jump`. -/
def jump (s : Xoroshiro128plus) : Xoroshiro128plus := (jumpLoop jumpConstants (s, ⟨0, 0⟩)).2

/-- `xo_long_jump`. -/
def longJump (s : Xoroshiro128plus) : Xoroshiro128plus := (jumpLoop longJumpConstants (s, ⟨0, 0⟩)).2

/-! ### What the loop computes -/

/-- The step, as a map of the group of the states. -/
def stepHom : AddMonoid.End Xoroshiro128plus where
  toFun := step
  map_zero' := step_zero
  map_add' := next_add

instance : CharP (AddMonoid.End Xoroshiro128plus) 2 := charTwo_end ⟨⟨1, 0⟩, by decide⟩ add_self

/-- The polynomial whose coefficients are the bits of the constants, the first constant lowest. -/
def ofWords : List (BitVec 64) → ℕ
  | [] => 0
  | word :: words => word.toNat + 2 ^ 64 * ofWords words

theorem jumpRound_eq (word : BitVec 64) (p : Xoroshiro128plus × Xoroshiro128plus) {b : ℕ}
    (hb : b < 64) :
    jumpRound word p b = addRound stepHom p (word.toNat.testBit b) := by
  have hbit : word &&& (1#64 <<< b) ≠ 0 ↔ word.toNat.testBit b := by
    rw [← BitVec.twoPow_eq, BitVec.and_twoPow, ← BitVec.testBit_toNat]
    cases word.toNat.testBit b with
    | false => simp
    | true =>
      have hne : BitVec.twoPow 64 b ≠ 0 := by
        intro h
        have hbit := congrArg (fun x => x.getLsbD b) h
        simp [hb] at hbit
      simpa using hne
  rw [jumpRound, addRound, if_congr hbit rfl rfl]
  rfl

theorem foldl_jumpRound (word : BitVec 64) (s a : Xoroshiro128plus) :
    (List.range 64).foldl (jumpRound word) (s, a) =
      ((stepHom ^ 64) s, a + eval stepHom 64 word.toNat s) := by
  rw [← foldl_addRound, List.foldl_map]
  exact List.foldl_ext _ _ _ fun p b hb => jumpRound_eq word p (List.mem_range.mp hb)

/-- **The loop computes the value of a polynomial at the step.** -/
theorem jumpLoop_eq (words : List (BitVec 64)) (s a : Xoroshiro128plus) :
    jumpLoop words (s, a) =
      ((stepHom ^ (64 * words.length)) s, a + eval stepHom (64 * words.length) (ofWords words) s) := by
  induction words generalizing s a with
  | nil => simp [jumpLoop, eval]
  | cons word words ih =>
    have hlow : (word.toNat + 2 ^ 64 * ofWords words) % 2 ^ 64 = word.toNat := by
      rw [Nat.add_mul_mod_self_left, Nat.mod_eq_of_lt word.isLt]
    have hhigh : (word.toNat + 2 ^ 64 * ofWords words) / 2 ^ 64 = ofWords words := by
      rw [Nat.add_mul_div_left _ _ (by norm_num), Nat.div_eq_of_lt word.isLt, zero_add]
    have hloop : jumpLoop (word :: words) (s, a) =
        jumpLoop words ((List.range 64).foldl (jumpRound word) (s, a)) := rfl
    have hcomm := ((commute_eval stepHom (64 * words.length) (ofWords words)).pow_left 64).eq
    have heval : eval stepHom 64 (word.toNat + 2 ^ 64 * ofWords words) = eval stepHom 64 word.toNat := by
      rw [← eval_mod, hlow]
    rw [hloop, foldl_jumpRound, ih, List.length_cons, Nat.mul_succ, Nat.add_comm _ 64, ofWords, eval_add_width]
    rw [heval, hhigh, hcomm, pow_add, (Commute.pow_pow_self stepHom _ _).eq, add_assoc]
    rfl

theorem jumpLoop_snd (words : List (BitVec 64)) (s : Xoroshiro128plus) :
    (jumpLoop words (s, ⟨0, 0⟩)).2 = eval stepHom (64 * words.length) (ofWords words) s := by
  rw [← zero_def, jumpLoop_eq, zero_add]

/-! ### A polynomial that is zero at the step -/

/-- The coefficients of the modulus below the leading one. -/
def modulusWords : List (BitVec 64) := [0x095b8f76579aa001, 0x0008828e513b43d5]

/-- The modulus, of degree 128. -/
def modulus : ℕ := 2 ^ 128 + ofWords modulusWords

/-- The loop with the modulus ends with sum and state alike, from every state of one bit. -/
theorem jumpLoop_modulus_s0 : ∀ i < 64,
    (jumpLoop modulusWords (⟨1#64 <<< i, 0⟩, ⟨0, 0⟩)).1 =
      (jumpLoop modulusWords (⟨1#64 <<< i, 0⟩, ⟨0, 0⟩)).2 := by
  decide +kernel

theorem jumpLoop_modulus_s1 : ∀ i < 64,
    (jumpLoop modulusWords (⟨0, 1#64 <<< i⟩, ⟨0, 0⟩)).1 =
      (jumpLoop modulusWords (⟨0, 1#64 <<< i⟩, ⟨0, 0⟩)).2 := by
  decide +kernel

/-- The value of the modulus is what the loop ends with, state and sum added. -/
theorem eval_modulus (s : Xoroshiro128plus) : eval stepHom 129 modulus s =
    (jumpLoop modulusWords (s, ⟨0, 0⟩)).2 + (jumpLoop modulusWords (s, ⟨0, 0⟩)).1 := by
  have hlead : modulus.testBit 128 = true := by decide +kernel
  have hlow : modulus % 2 ^ 128 = ofWords modulusWords % 2 ^ 128 := Nat.add_mod_left _ _
  have hlength : 64 * modulusWords.length = 128 := rfl
  have hadd : ∀ f g : AddMonoid.End Xoroshiro128plus, (f + g) s = f s + g s := fun _ _ => rfl
  rw [eval_succ_top, hlead, if_pos rfl, hadd, ← eval_mod, hlow, eval_mod, ← zero_def, jumpLoop_eq,
    hlength, zero_add]

/-- A linear map of the states is zero when it is zero at the states of one bit. -/
theorem eq_zero_of_one_bit {f : AddMonoid.End Xoroshiro128plus}
    (h0 : ∀ i < 64, f ⟨1#64 <<< i, 0⟩ = 0) (h1 : ∀ i < 64, f ⟨0, 1#64 <<< i⟩ = 0) : f = 0 := by
  have hadd (s t : Xoroshiro128plus) : f (s + t) = f s + f t := map_add f s t
  have hs0 (x : BitVec 64) : f ⟨x, 0⟩ = 0 := by
    refine eq_zero_of_bits (f := fun x => f ⟨x, 0⟩) (fun x y => ?_) h0 x
    rw [← hadd, add_def, BitVec.xor_self]
    rfl
  have hs1 (x : BitVec 64) : f ⟨0, x⟩ = 0 := by
    refine eq_zero_of_bits (f := fun x => f ⟨0, x⟩) (fun x y => ?_) h1 x
    rw [← hadd, add_def, BitVec.xor_self]
    rfl
  refine AddMonoidHom.ext fun s => ?_
  have hsplit : s = ⟨s.s0, 0⟩ + ⟨0, s.s1⟩ :=
    Xoroshiro128plus.ext BitVec.xor_zero.symm BitVec.zero_xor.symm
  show f s = 0
  rw [hsplit, hadd, hs0, hs1, add_zero]

/-- **The modulus is zero at the step**: it is so at the states of one bit. -/
theorem annihilates_modulus : Annihilates stepHom 128 modulus where
  lead := by decide +kernel
  zero := by
    refine eq_zero_of_one_bit (fun i hi => ?_) fun i hi => ?_
    · rw [eval_modulus, jumpLoop_modulus_s0 i hi, add_self]
    · rw [eval_modulus, jumpLoop_modulus_s1 i hi, add_self]

/-! ### The jumps -/

/-- Sixty-four squarings of `x` reach the polynomial of `JUMP`. -/
theorem squarings_jump : squarings 128 modulus 64 2 = ofWords jumpConstants := by decide +kernel

/-- Thirty-two more reach that of `LONG_JUMP`. -/
theorem squarings_longJump :
    squarings 128 modulus 32 (ofWords jumpConstants) = ofWords longJumpConstants := by
  decide +kernel

theorem stepHom_pow_jump : stepHom ^ 2 ^ 64 = eval stepHom 128 (ofWords jumpConstants) :=
  annihilates_modulus.pow_eq_eval (by decide) squarings_jump

theorem stepHom_pow_longJump : stepHom ^ 2 ^ 96 = eval stepHom 128 (ofWords longJumpConstants) := by
  have hexp : 2 ^ 96 = 2 ^ 64 * 2 ^ 32 := by norm_num
  rw [← squarings_longJump, annihilates_modulus.eval_squarings (by decide), ← stepHom_pow_jump, ← pow_mul, hexp]

theorem stepHom_pow (n : ℕ) (s : Xoroshiro128plus) :
    (stepHom ^ n) s = (fun s => (next s).2)^[n] s := by
  rw [AddMonoid.End.coe_pow]
  rfl

/-- **The jumps skip ahead**: from every state, `jump` leaves the state that `2 ^ 64`
steps leave, and `long_jump` the one that `2 ^ 96` do. -/
theorem jump_eq_iterate (s : Xoroshiro128plus) :
    jump s = (fun s => (next s).2)^[2 ^ 64] s ∧ longJump s = (fun s => (next s).2)^[2 ^ 96] s := by
  constructor
  · rw [← stepHom_pow, stepHom_pow_jump, jump, jumpLoop_snd]
    rfl
  · rw [← stepHom_pow, stepHom_pow_longJump, longJump, jumpLoop_snd]
    rfl

end Shuffle3.V2.Xoroshiro128plus
