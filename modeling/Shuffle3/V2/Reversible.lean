import Shuffle3.V2.Ranges
import Shuffle3.V2.Seeding

/-!
# Shuffling a file is reversible

Unshuffling never sees the seeds of the shuffle: it makes them again, stage by
stage in the other order, from what it finds. A stage permutes its elements, so
the scan finds the same extremes in them before and after.

## What is proved

* `xshuffleIp_not` — from what one direction leaves the other leads back.
* `xshuffleIp_reversible` — the two directions are inverse bijections of the files
  of a length.
-/

namespace Shuffle3.V2

open Foundations

variable {L : Libc} {un : Bool} {u u' : Locals} {x y : List Byte} {n : ℕ}

/-- **From what one direction leaves the other leads back**, from the same entry
values or where the scan of the floats does not hand them on. -/
theorem xshuffleIp_not (h : u'.float = u.float ∨ ∀ z, contentsAt L un u 4 x = some z → FloatsSeed z)
    (hrun : xshuffleIp L un u x = some y) : xshuffleIp L (!un) u' y = some x := by
  have hlen := (xshuffleIp_perm hrun).length_eq
  unfold xshuffleIp at hrun ⊢
  split_ifs at hrun with hx
  have hy : y ≠ [] := fun e => hx (List.length_eq_zero_iff.mp (by rw [← hlen, e]; rfl))
  rw [if_neg hy]
  have hleft : (xshufflePairs L un u u').map StagePair.left = xshuffleStages L un u :=
    map_left_xshufflePairs
  rw [← hleft] at hrun
  have hback := inTurn_not pos_of_mem_xshufflePairs (redrawn_xshufflePairs h) hrun
  rwa [map_right_xshufflePairs, reverse_xshuffleStages] at hback

/-- The scan of the floats finds finite seeds when it starts from them. -/
theorem floatSeeds_finite {s : Single × Single} (h₁ : s.1.finite) (h₂ : s.2.finite)
    (x : List Byte) :
    (floatSeeds s x).1.finite ∧ (floatSeeds s x).2.finite := by
  by_cases hfin : ∃ f ∈ elements Single x, f.finite
  · obtain ⟨⟨-, hlo⟩, ⟨-, hhi⟩, -⟩ := minmaxT_float (exists_keepFloat hfin) s.1 s.2
    exact ⟨keepFloat_iff.mp hlo, keepFloat_iff.mp hhi⟩
  · rw [floatSeeds_of_not_finite hfin]
    exact ⟨h₁, h₂⟩

/-- The generators draw in range for a file of `n` bytes, from every seeds that a
scan can find. -/
structure DrawsInRange (L : Libc) (n : ℕ) : Prop where
  long : ∀ seeds, (xorng seeds).InRange (n / 8)
  float : ∀ seeds : Single × Single, seeds.1.finite → seeds.2.finite → (frng L seeds).InRange (n / 4)
  byte : ∀ seeds, (drng L seeds).InRange (n / 1)

/-- The functions of the C library do as they are documented to: `sin` of a finite
number is in `[-1, 1]`, and `rand_r` in `[0, RAND_MAX]`. -/
structure Libc.Documented (L : Libc) : Prop where
  sin : Frng.SinBounded L
  randR : ∀ s, 0 ≤ (L.randR s).1.toInt

/-- They then do for every file up to `2 ^ 53` bytes. -/
theorem drawsInRange_of_documented (hL : L.Documented) (hn : n ≤ 2 ^ 53) : DrawsInRange L n where
  long seeds := Xoroshiro128plus.inRange (by omega) _
  float seeds h₁ h₂ := Frng.inRange hL.sin (by omega) (Frng.fits_single h₁) (Frng.fits_single h₂)
  byte seeds := Drng.inRange hL.randR (by omega) _

/-- **Each direction runs to its end** in the `DEBUG` build. -/
theorem exists_xshuffleIp (h : DrawsInRange L n) (hn : 1 ≤ n) (hx : x.length = n) (un : Bool) :
    ∃ y, y.length = n ∧ xshuffleIp L un .debug x = some y := by
  have hzero : (⟨0⟩ : Single).finite := Single.finite_iff.mpr (by decide)
  have hstages : ∀ s ∈ xshuffleStages L un .debug, ∀ z : List Byte, z.length = n → (s.2 z).InRange (n / s.1) := by
    intro s hs z _
    have hmem : s ∈ xshuffleStages L false .debug := by
      cases un with
      | false => exact hs
      | true => rwa [← List.mem_reverse, reverse_xshuffleStages] at hs
    simp only [xshuffleStages, stages, Bool.false_eq_true, if_false, List.mem_cons, List.not_mem_nil,
      or_false] at hmem
    rcases hmem with rfl | rfl | rfl
    · exact h.long _
    · have hseeds := floatSeeds_finite (s := Locals.debug.float) hzero hzero z
      exact h.float _ hseeds.1 hseeds.2
    · exact h.byte _
  obtain ⟨y, hy⟩ := exists_inTurn un pos_of_mem_stages hstages hx
  have hne : x ≠ [] := by rintro rfl; simp at hx; omega
  exact ⟨y, (inTurn_perm pos_of_mem_stages hy).length_eq.trans hx, by rw [xshuffleIp, if_neg hne]; exact hy⟩

/-- **Shuffling a file in place is reversible.** In the `DEBUG` build the two
directions are inverse bijections of the files of a length. In the release build,
from any values in the variables of the scans of either run, each direction
leads back from what the other leaves, where the float stage of the first finds
seeds or draws nothing. -/
theorem xshuffleIp_reversible (L : Libc) {n : ℕ} (hn : 1 ≤ n) (h : DrawsInRange L n) :
    (∃ e : Equiv.Perm { x : List Byte // x.length = n }, ∀ x,
      xshuffleIp L false .debug x.val = some (e x).val ∧ xshuffleIp L true .debug x.val = some (e.symm x).val) ∧
    ∀ (un : Bool) (u u' : Locals) (x : List Byte), x.length = n →
      (∀ z, contentsAt L un u 4 x = some z → FloatsSeed z) →
      ∃ y, xshuffleIp L un u x = some y ∧ xshuffleIp L (!un) u' y = some x := by
  constructor
  · have hrun : ∀ (un : Bool) (x : { x : List Byte // x.length = n }),
        ∃ y : { y : List Byte // y.length = n }, xshuffleIp L un .debug x.val = some y.val :=
          fun un x =>
      let ⟨y, hlen, hy⟩ := exists_xshuffleIp h hn x.2 un
      ⟨⟨y, hlen⟩, hy⟩
    choose run hrun using hrun
    have hinv : ∀ un x, run (!un) (run un x) = x := fun un x =>
      Subtype.ext (Option.some.inj ((hrun (!un) (run un x)).symm.trans (xshuffleIp_not (.inl rfl) (hrun un x))))
    exact ⟨⟨run false, run true, hinv false, hinv true⟩, fun x => ⟨hrun false x, hrun true x⟩⟩
  · intro un u u' x hx hseed
    obtain ⟨y, -, hy⟩ := exists_xshuffleIp h hn hx un
    have hu : xshuffleIp L un u x = some y := (xshuffleIp_congr (.inr hseed)).trans hy
    exact ⟨y, hu, xshuffleIp_not (.inr hseed) hu⟩

/-- A `rand_r`: three steps of a linear congruence give eleven bits and twice ten. -/
def randR (s : BitVec 32) : BitVec 32 × BitVec 32 :=
  let next (s : BitVec 32) : BitVec 32 := s * 1103515245#32 + 12345#32
  let bits (s m : BitVec 32) : BitVec 32 := s / 65536#32 % m
  let s₁ := next s
  let s₂ := next s₁
  let s₃ := next s₂
  ((((bits s₁ 2048#32 <<< 10) ^^^ bits s₂ 1024#32) <<< 10) ^^^ bits s₃ 1024#32, s₃)

theorem shiftLeft_xor_lt {a b : BitVec 32} {k : ℕ} (ha : a.toNat < 2 ^ k) (hb : b.toNat < 2 ^ 10)
    (hk : k + 10 < 32) : ((a <<< 10) ^^^ b).toNat < 2 ^ (k + 10) := by
  rw [BitVec.toNat_xor]
  refine Nat.xor_lt_two_pow ?_ (lt_of_lt_of_le hb (Nat.pow_le_pow_right (by decide) (by omega)))
  rw [BitVec.toNat_shiftLeft, Nat.shiftLeft_eq, pow_add]
  exact lt_of_le_of_lt (Nat.mod_le _ _) (Nat.mul_lt_mul_of_pos_right ha (by decide))

theorem randR_nonneg (s : BitVec 32) : 0 ≤ (randR s).1.toInt := by
  have hbits : ∀ s m : BitVec 32, 0 < m.toNat → (s / 65536#32 % m).toNat < m.toNat :=
    fun s m hm => by
    rw [BitVec.toNat_umod]
    exact Nat.mod_lt _ hm
  have h₁ := hbits (s * 1103515245#32 + 12345#32) 2048#32 (by decide)
  have h₂ := fun s => hbits s 1024#32 (by decide)
  have h : (randR s).1.toNat < 2 ^ 31 :=
    shiftLeft_xor_lt (k := 21) (shiftLeft_xor_lt (k := 11) h₁ (h₂ _) (by decide)) (h₂ _) (by decide)
  rw [BitVec.toInt_eq_toNat_of_lt (by omega)]
  exact Int.natCast_nonneg _

/-- `sin` where it is its argument, which is rounded to it; further out it is zero. -/
def sinTiny (x : Double) : Double :=
  if |x.val| ≤ 1 / 2 ^ 27 then x else Floating.zero binary64 false

theorem sinBounded_sinTiny (randR : BitVec 32 → BitVec 32 × BitVec 32) :
    Frng.SinBounded ⟨sinTiny, randR⟩ := by
  intro x hx
  show Floating.Between (-1) 1 (sinTiny x)
  rw [sinTiny]
  split_ifs with h
  · have habs := abs_le.mp (h.trans (by norm_num : (1 : ℚ) / 2 ^ 27 ≤ 1))
    exact ⟨hx, habs.1, habs.2⟩
  · obtain ⟨m, hm, -⟩ := Floating.zero_eq_fin binary64 false
    refine ⟨by rw [hm]; rfl, ?_, ?_⟩
    · rw [Floating.val_zero]
      norm_num
    · rw [Floating.val_zero]
      norm_num

/-- A C library with it. -/
def tinyLibc : Libc := ⟨sinTiny, randR⟩

theorem documented_tinyLibc : tinyLibc.Documented := ⟨sinBounded_sinTiny randR, randR_nonneg⟩

/-- Files of sixteen bytes: two integers, four floats, and every stage draws. -/
theorem xshuffleIp_reversible_sixteen :
    (∃ e : Equiv.Perm { x : List Byte // x.length = 16 }, ∀ x,
      xshuffleIp tinyLibc false .debug x.val = some (e x).val ∧
        xshuffleIp tinyLibc true .debug x.val = some (e.symm x).val) ∧
    ∀ (un : Bool) (u u' : Locals) (x : List Byte), x.length = 16 →
      (∀ z, contentsAt tinyLibc un u 4 x = some z → FloatsSeed z) →
      ∃ y, xshuffleIp tinyLibc un u x = some y ∧ xshuffleIp tinyLibc (!un) u' y = some x :=
  xshuffleIp_reversible tinyLibc (by decide) (drawsInRange_of_documented documented_tinyLibc (by decide))

/-- Sixteen different bytes, of which the last of each float is small. -/
def sixteenBytes : List Byte := [5, 6, 7, 1, 8, 9, 10, 2, 11, 12, 13, 3, 14, 15, 16, 4]

end Shuffle3.V2
