import Shuffle3.Foundations.Single
import Shuffle3.Foundations.Blocks

/-!
# Values as bytes

Bytes, little-endian numbers, and the bytes in which the values of a type lie in
memory.

## What is proved

* `leNat_leBytes` — a number is read back from its bytes.
* `leBytes_leNat` — and the bytes are written back from it.
* `ofBlock_toBlock`, `toBlock_ofBlock` — and so is a pattern of bits that fits.
-/

namespace Shuffle3.Foundations

/-- A byte. -/
abbrev Byte := BitVec 8

/-- The number whose little-endian bytes these are. -/
def leNat : List Byte → ℕ
  | [] => 0
  | b :: bs => b.toNat + 256 * leNat bs

/-- The `w` little-endian bytes of a number. -/
def leBytes : ℕ → ℕ → List Byte
  | 0, _ => []
  | w + 1, v => BitVec.ofNat 8 v :: leBytes w (v / 256)

@[simp] theorem length_leBytes (w v : ℕ) : (leBytes w v).length = w := by
  induction w generalizing v with
  | zero => rfl
  | succ w ih => simp [leBytes, ih]

/-- **A number is read back from its bytes.** -/
theorem leNat_leBytes {w v : ℕ} (h : v < 256 ^ w) : leNat (leBytes w v) = v := by
  induction w generalizing v with
  | zero => simp [leBytes, leNat]; omega
  | succ w ih =>
    have hdiv : v / 256 < 256 ^ w := Nat.div_lt_of_lt_mul (by rwa [pow_succ'] at h)
    rw [leBytes, leNat, ih hdiv, BitVec.toNat_ofNat]
    omega

theorem leNat_lt (bs : List Byte) : leNat bs < 256 ^ bs.length := by
  induction bs with
  | nil => exact Nat.one_pos
  | cons b bs ih =>
    have hb := b.isLt
    rw [leNat, List.length_cons, pow_succ']
    omega

/-- **Bytes are written back from the number they make.** -/
theorem leBytes_leNat (bs : List Byte) : leBytes bs.length (leNat bs) = bs := by
  induction bs with
  | nil => rfl
  | cons b bs ih =>
    have hb := b.isLt
    have hlow : BitVec.ofNat 8 (b.toNat + 256 * leNat bs) = b := by
      apply BitVec.eq_of_toNat_eq
      rw [BitVec.toNat_ofNat]
      omega
    have hhigh : (b.toNat + 256 * leNat bs) / 256 = leNat bs := by omega
    rw [List.length_cons, leNat, leBytes, hlow, hhigh, ih]

/-- How the values of a type lie in memory. -/
class Layout (τ : Type) where
  /-- How many bytes a value takes. -/
  sizeof : ℕ
  sizeof_pos : 0 < sizeof
  /-- The bytes of a value. -/
  toBytes : τ → Block Byte sizeof
  /-- The value of some bytes. -/
  ofBytes : Block Byte sizeof → τ
  ofBytes_toBytes : ∀ a, ofBytes (toBytes a) = a

/-! ### Patterns of bits -/

variable {w n : ℕ}

/-- The bytes of a pattern, least significant first. -/
def toBlock (w : ℕ) (v : BitVec n) : Block Byte w := ⟨leBytes w v.toNat, length_leBytes w v.toNat⟩

/-- The pattern whose bytes these are. -/
def ofBlock (n : ℕ) (b : Block Byte w) : BitVec n := BitVec.ofNat n (leNat b.val)

theorem ofBlock_toBlock (h : n ≤ 8 * w) (v : BitVec n) : ofBlock n (toBlock w v) = v := by
  have hv : v.toNat < 256 ^ w := by
    calc v.toNat < 2 ^ n := v.isLt
      _ ≤ 2 ^ (8 * w) := Nat.pow_le_pow_right (by decide) h
      _ = 256 ^ w := by rw [pow_mul]; rfl
  simp only [ofBlock, toBlock, leNat_leBytes hv, BitVec.ofNat_toNat, BitVec.setWidth_eq]

theorem toBlock_ofBlock (h : 8 * w ≤ n) (b : Block Byte w) : toBlock w (ofBlock n b) = b := by
  obtain ⟨bs, rfl⟩ := b
  have hlt : leNat bs < 2 ^ n := by
    calc leNat bs < 256 ^ bs.length := leNat_lt bs
      _ = 2 ^ (8 * bs.length) := by rw [pow_mul]; rfl
      _ ≤ 2 ^ n := Nat.pow_le_pow_right (by decide) h
  refine Subtype.ext ?_
  simp only [toBlock, ofBlock, BitVec.toNat_ofNat, Nat.mod_eq_of_lt hlt, leBytes_leNat]

instance : Layout (BitVec 64) where
  sizeof := 8
  sizeof_pos := by decide
  toBytes := toBlock 8
  ofBytes := ofBlock 64
  ofBytes_toBytes := ofBlock_toBlock (by decide)

instance : Layout Int64 where
  sizeof := 8
  sizeof_pos := by decide
  toBytes k := toBlock 8 k.toBitVec
  ofBytes b := Int64.ofBitVec (ofBlock 64 b)
  ofBytes_toBytes k := by rw [ofBlock_toBlock (by decide), Int64.ofBitVec_toBitVec]

instance : Layout Single where
  sizeof := 4
  sizeof_pos := by decide
  toBytes f := toBlock 4 f.bits
  ofBytes b := ⟨ofBlock 32 b⟩
  ofBytes_toBytes f := by rw [ofBlock_toBlock (by decide)]

instance : Layout Int8 where
  sizeof := 1
  sizeof_pos := by decide
  toBytes k := toBlock 1 k.toBitVec
  ofBytes b := Int8.ofBitVec (ofBlock 8 b)
  ofBytes_toBytes k := by rw [ofBlock_toBlock (by decide), Int8.ofBitVec_toBitVec]

end Shuffle3.Foundations
