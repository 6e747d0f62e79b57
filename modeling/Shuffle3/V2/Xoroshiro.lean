import Shuffle3.Foundations.BitPolynomials
import Shuffle3.V2.Between
import Shuffle3.V2.Work

/-!
# The states of xoroshiro128plus

The step of the generator respects the exclusive or of states, and can be undone.
It fixes the state `(0, 0)`, from which every draw is zero, and reaches that state
from no other.

## What is proved

* `next_add` — the step is linear.
* `leftInverse_undo`, `rightInverse_undo` — what undoes the step.
* `xorng_alive` — the long pass seeds the generator with `(0, 0)` only where it has
  nothing to do.
-/

namespace Shuffle3.V2

open Foundations Floating

namespace Xoroshiro128plus

/-! ### The group of the states -/

instance : Zero Xoroshiro128plus := ⟨⟨0, 0⟩⟩

/-- The exclusive or of the words. -/
instance : Add Xoroshiro128plus := ⟨fun s t => ⟨s.s0 ^^^ t.s0, s.s1 ^^^ t.s1⟩⟩

instance : Neg Xoroshiro128plus := ⟨id⟩

instance : AddCommGroup Xoroshiro128plus where
  add_assoc s t r := Xoroshiro128plus.ext (BitVec.xor_assoc ..) (BitVec.xor_assoc ..)
  zero_add s := Xoroshiro128plus.ext BitVec.zero_xor BitVec.zero_xor
  add_zero s := Xoroshiro128plus.ext BitVec.xor_zero BitVec.xor_zero
  add_comm s t := Xoroshiro128plus.ext (BitVec.xor_comm ..) (BitVec.xor_comm ..)
  neg_add_cancel s := Xoroshiro128plus.ext BitVec.xor_self BitVec.xor_self
  nsmul := nsmulRec
  zsmul := zsmulRec

theorem add_def (s t : Xoroshiro128plus) : s + t = ⟨s.s0 ^^^ t.s0, s.s1 ^^^ t.s1⟩ := rfl

theorem zero_def : (0 : Xoroshiro128plus) = ⟨0, 0⟩ := rfl

theorem add_self (s : Xoroshiro128plus) : s + s = 0 := neg_add_cancel s

/-! ### The step -/

/-- The bit that a rotation brings to a place. -/
theorem getElem_rotl (x : BitVec 64) (k : ℕ) {i : ℕ} (hi : i < 64) :
    (rotl x k)[i] = x.getLsbD (if i < k then 64 - k + i else i - k) := by
  rw [rotl, BitVec.getElem_or, BitVec.getElem_shiftLeft, BitVec.getElem_ushiftRight]
  split_ifs with h
  · simp [h]
  · have hout : x.getLsbD (64 - k + i) = false := BitVec.getLsbD_of_ge x _ (by omega)
    simp [h, hout, ← BitVec.getLsbD_eq_getElem]

theorem rotl_xor (x y : BitVec 64) (k : ℕ) : rotl (x ^^^ y) k = rotl x k ^^^ rotl y k := by
  apply BitVec.eq_of_getElem_eq
  intro i hi
  rw [BitVec.getElem_xor, getElem_rotl, getElem_rotl, getElem_rotl, BitVec.getLsbD_xor]

/-- Two rotations that together turn the word once. -/
theorem rotl_rotl (x : BitVec 64) {a b : ℕ} (ha : 0 < a) (hb : 0 < b) (h : a + b = 64) :
    rotl (rotl x a) b = x := by
  apply BitVec.eq_of_getElem_eq
  intro i hi
  have hat : (if i < b then 64 - b + i else i - b) < 64 := by split_ifs <;> omega
  rw [getElem_rotl, BitVec.getLsbD_eq_getElem hat, getElem_rotl, ← BitVec.getLsbD_eq_getElem hi]
  congr 1
  split_ifs <;> omega

/-- The state that `next` leaves. -/
def step (s : Xoroshiro128plus) : Xoroshiro128plus := (next s).2

/-- The state that `next` came from. -/
def undo (t : Xoroshiro128plus) : Xoroshiro128plus :=
  let s1 := rotl t.s1 27
  let s0 := rotl (t.s0 ^^^ s1 ^^^ (s1 <<< 16)) 40
  ⟨s0, s1 ^^^ s0⟩

theorem xor_xor_xor (a b c d e f : BitVec 64) :
    (a ^^^ b) ^^^ (c ^^^ d) ^^^ (e ^^^ f) = (a ^^^ c ^^^ e) ^^^ (b ^^^ d ^^^ f) := by
  ac_rfl

/-- **The step is linear.** -/
theorem next_add (s t : Xoroshiro128plus) : step (s + t) = step s + step t := by
  have hmid : (s.s1 ^^^ t.s1) ^^^ (s.s0 ^^^ t.s0) = (s.s1 ^^^ s.s0) ^^^ (t.s1 ^^^ t.s0) := by ac_rfl
  refine Xoroshiro128plus.ext ?_ ?_
  · show rotl (s.s0 ^^^ t.s0) 24 ^^^ ((s.s1 ^^^ t.s1) ^^^ (s.s0 ^^^ t.s0)) ^^^
      (((s.s1 ^^^ t.s1) ^^^ (s.s0 ^^^ t.s0)) <<< 16) = (step s).s0 ^^^ (step t).s0
    rw [hmid, rotl_xor, BitVec.shiftLeft_xor_distrib]
    exact xor_xor_xor _ _ _ _ _ _
  · show rotl ((s.s1 ^^^ t.s1) ^^^ (s.s0 ^^^ t.s0)) 37 = (step s).s1 ^^^ (step t).s1
    rw [hmid, rotl_xor]
    rfl

theorem step_zero : step 0 = 0 := by decide

theorem xor_xor_cancel (x y : BitVec 64) : x ^^^ y ^^^ y = x := by
  rw [BitVec.xor_assoc, BitVec.xor_self, BitVec.xor_zero]

/-- The two words that are added to the first one are known, and so taken off again. -/
theorem xor_cancel_pair (x y z : BitVec 64) : x ^^^ y ^^^ z ^^^ y ^^^ z = x := by
  calc x ^^^ y ^^^ z ^^^ y ^^^ z = x ^^^ y ^^^ y ^^^ z ^^^ z := by ac_rfl
    _ = x := by rw [xor_xor_cancel, xor_xor_cancel]

theorem leftInverse_undo : Function.LeftInverse undo step := by
  intro s
  have h1 : rotl (rotl (s.s1 ^^^ s.s0) 37) 27 = s.s1 ^^^ s.s0 :=
    rotl_rotl _ (by decide) (by decide) rfl
  have h0 : rotl (rotl s.s0 24) 40 = s.s0 := rotl_rotl _ (by decide) (by decide) rfl
  simp only [step, next, undo, h1, xor_cancel_pair, h0, xor_xor_cancel]

theorem rightInverse_undo : Function.RightInverse undo step := by
  intro t
  have h0 (x : BitVec 64) : rotl (rotl x 40) 24 = x := rotl_rotl _ (by decide) (by decide) rfl
  have h1 : rotl (rotl t.s1 27) 37 = t.s1 := rotl_rotl _ (by decide) (by decide) rfl
  simp only [step, next, undo, xor_xor_cancel, xor_cancel_pair, h0, h1]

theorem iterate_step_ne_zero {s : Xoroshiro128plus} (h : s ≠ 0) (m : ℕ) : step^[m] s ≠ 0 := by
  have hinj : Function.Injective (step^[m]) := leftInverse_undo.injective.iterate m
  have hfix : step^[m] 0 = 0 := Function.iterate_fixed step_zero m
  exact fun hm => h (hinj (hm.trans hfix.symm))

/-! ### Draws -/

/-- The state after draws for these bounds. -/
def afterDraws : List ℕ → Xoroshiro128plus → Option Xoroshiro128plus
  | [], s => some s
  | i :: is, s => (nextLong sample i s).bind fun p => afterDraws is p.2

/-- A draw takes one step. -/
theorem step_of_nextLong {i : ℕ} {s : Xoroshiro128plus} {p : BitVec 64 × Xoroshiro128plus}
    (h : nextLong sample i s = some p) : p.2 = step s := by
  obtain ⟨k, -, rfl⟩ := Option.map_eq_some_iff.mp h
  rfl

theorem afterDraws_eq {is : List ℕ} {s s' : Xoroshiro128plus} (h : afterDraws is s = some s') :
    s' = step^[is.length] s := by
  induction is generalizing s with
  | nil => exact (Option.some.inj h).symm
  | cons i is ih =>
    obtain ⟨p, hp, h⟩ := Option.bind_eq_some_iff.mp h
    rw [ih h, step_of_nextLong hp, List.length_cons, Function.iterate_succ_apply]

/-- The draws of a pass are for the bounds `n`, …, 1. -/
theorem map_draws (n : ℕ) (s : Xoroshiro128plus) :
    (draws (nextLong sample) n s).map Prod.snd = afterDraws ((List.range' 1 n).reverse) s := by
  induction n generalizing s with
  | zero => rfl
  | succ n ih =>
    rw [List.range'_1_concat, List.reverse_append, List.reverse_singleton, List.singleton_append, Nat.add_comm 1 n]
    show Option.map Prod.snd ((nextLong sample (n + 1) s).bind fun p =>
      (draws (nextLong sample) n p.2).bind fun q => some (p.1 :: q.1, q.2)) = _
    rw [Option.map_bind, afterDraws]
    refine Option.bind_congr fun p _ => ?_
    rw [← ih, Function.comp_apply]
    cases draws (nextLong sample) n p.2 <;> rfl

/-- From the state `(0, 0)` every sample is zero. -/
theorem sample_zero : (sample 0).1.finite ∧ (sample 0).1.val = ((0 : ℕ) : ℚ) / 2 ^ 53 := by
  have hbits : lowBits (next 0).1 = 0 := by decide
  have h := sample_eq 0
  rwa [hbits] at h

/-- **From the state `(0, 0)` every draw is zero**, whatever the bound. -/
theorem nextLong_zero (i : ℕ) : nextLong sample i 0 = some (0#64, 0) := by
  obtain ⟨hfin, hval⟩ := sample_zero
  have hstep : (sample 0).2 = 0 := step_zero
  rw [nextLong, nextLongBetween_eq, nextBetween_eq_of_lt le_rfl (by norm_num) hfin hval, Nat.cast_zero, zero_div,
    offset_zero_left, hstep]
  rfl

end Xoroshiro128plus

/-! ### The long pass -/

section Pass

open Xoroshiro128plus

variable {file : List Byte}

/-- The state that the seeds make. -/
def seedState (seeds : Int64 × Int64) : Xoroshiro128plus := (xorng seeds).state

theorem seedState_eq_zero_iff (seeds : Int64 × Int64) : seedState seeds = 0 ↔ seeds = (0, 0) := by
  constructor
  · intro h
    have h0 : seeds.1.toBitVec = (0 : Int64).toBitVec := congrArg Xoroshiro128plus.s0 h
    have h1 : seeds.2.toBitVec = (0 : Int64).toBitVec := congrArg Xoroshiro128plus.s1 h
    exact Prod.ext (Int64.toBitVec_inj.mp h0) (Int64.toBitVec_inj.mp h1)
  · rintro rfl
    rfl

/-- **The least and the greatest of some integers are both zero exactly when all are.** -/
theorem longSeeds_eq_zero_iff (u : Int64 × Int64) (hne : elements Int64 file ≠ []) :
    longSeeds u file = (0, 0) ↔ ∀ a ∈ elements Int64 file, a = 0 := by
  have hlt (a b : Int64) : a < b ↔ a.toInt < b.toInt := Int64.lt_iff_toInt_lt
  obtain ⟨a, ha⟩ := List.exists_mem_of_ne_nil _ hne
  have hkeep (a b : Int64) (_ : keepAll a) (_ : keepAll b) : a < b ↔ a.toInt < b.toInt := hlt a b
  obtain ⟨hlo, hhi, hall⟩ := minmaxT_spec hkeep ⟨a, ha, rfl⟩ u.1 u.2
  constructor
  · intro h b hb
    obtain ⟨h1, h2⟩ := hall b hb rfl
    rw [longSeeds] at h
    rw [h] at h1 h2
    exact Int64.toInt.inj (le_antisymm h2 h1)
  · intro h
    exact Prod.ext (h _ hlo.1) (h _ hhi.1)

/-- A view of zeros is left as it is. -/
theorem stage_zeros (un : Bool) (u : Int64 × Int64) (h : ∀ a ∈ elements Int64 file, a = 0) :
    stage un 8 (xorng (longSeeds u file)) file = some file := by
  have hzeros : InRange (nextLong sample) (file.length / 8 - 1) 0 := by
    generalize file.length / 8 - 1 = n
    induction n with
    | zero => trivial
    | succ n ih => exact ⟨0#64, 0, nextLong_zero _, Nat.zero_le _, ih⟩
  have hrange : (xorng (longSeeds u file)).InRange (file.length / 8) := by
    rcases eq_or_ne (elements Int64 file) [] with hnil | hne
    · -- no element, no draw
      have h0 : file.length / 8 = 0 := by
        have hlen := length_elements Int64 file
        rw [hnil] at hlen
        exact hlen.symm
      rw [h0]
      trivial
    · have hseed := (seedState_eq_zero_iff _).mpr ((longSeeds_eq_zero_iff u hne).mpr h)
      show InRange (nextLong sample) (file.length / 8 - 1) (seedState (longSeeds u file))
      rw [hseed]
      exact hzeros
  obtain ⟨out, hout⟩ := exists_stage (by decide) un hrange
  obtain ⟨hblocks, hrest, -⟩ := stage_preserves (by decide) hout
  have hsame : blocks 8 file = List.replicate (blocks 8 file).length (toBlock 8 (0#64)) := by
    refine List.eq_replicate_of_mem fun b hb => ?_
    have hb0 : ofBlock 64 b = 0 := congrArg Int64.toBitVec (h _ (List.mem_map_of_mem hb))
    rw [← toBlock_ofBlock (n := 64) (by decide) b, hb0]
    rfl
  have heq : blocks 8 out = blocks 8 file := by
    rw [hsame] at hblocks ⊢
    exact List.perm_replicate.mp hblocks
  rw [hout, ← join_blocks_append_rest 8 out, heq, hrest, join_blocks_append_rest]

/-- **The long pass never runs on a dead generator.** The step of the generator has a
two-sided inverse and fixes `(0, 0)`. A draw is a step, so from a view with an element
other than zero the seeds make a state other than `(0, 0)`, and no draws for any bounds
reach that state. From a view of zeros they make `(0, 0)`, where there is an element at
all, and the pass leaves the file as it is. -/
theorem xorng_alive :
    (Function.LeftInverse undo step ∧ Function.RightInverse undo step ∧ Function.Bijective step ∧
      step ⟨0, 0⟩ = ⟨0, 0⟩) ∧
    (∀ n s, (draws (nextLong sample) n s).map Prod.snd = afterDraws ((List.range' 1 n).reverse) s) ∧
    (∀ (u : Int64 × Int64) (file : List Byte), (∃ a ∈ elements Int64 file, a ≠ 0) →
      seedState (longSeeds u file) ≠ ⟨0, 0⟩ ∧ (∀ m, step^[m] (seedState (longSeeds u file)) ≠ ⟨0, 0⟩) ∧
        ∀ is s', afterDraws is (seedState (longSeeds u file)) = some s' → s' ≠ ⟨0, 0⟩) ∧
    ∀ (u : Int64 × Int64) (file : List Byte), (∀ a ∈ elements Int64 file, a = 0) →
      (elements Int64 file ≠ [] → seedState (longSeeds u file) = ⟨0, 0⟩) ∧
        ∀ un, stage un 8 (xorng (longSeeds u file)) file = some file := by
  refine ⟨⟨leftInverse_undo, rightInverse_undo, ?_, step_zero⟩, map_draws, fun u file hex => ?_,
    fun u file hall => ?_⟩
  · exact ⟨leftInverse_undo.injective, rightInverse_undo.surjective⟩
  · obtain ⟨a, ha, hne⟩ := hex
    have hseed : seedState (longSeeds u file) ≠ 0 := fun h =>
      hne ((longSeeds_eq_zero_iff u (List.ne_nil_of_mem ha)).mp ((seedState_eq_zero_iff _).mp h) a ha)
    refine ⟨hseed, iterate_step_ne_zero hseed, fun is s' h => ?_⟩
    rw [afterDraws_eq h]
    exact iterate_step_ne_zero hseed _
  · exact ⟨fun hne => (seedState_eq_zero_iff _).mpr ((longSeeds_eq_zero_iff u hne).mpr hall),
      fun un => stage_zeros un u hall⟩

end Pass

end Shuffle3.V2
