import Shuffle3.Foundations.Swaps

/-!
# Blocks of a flat list

A flat list read as consecutive blocks of `w` items, with the fewer than `w`
items that are left over at the end. An `Overlay w` is the flat list as an
indexed memory of its blocks: reading block `i` slices the flat list, writing it
overwrites the slice in place. A program that moves blocks of one width about in
a memory that others read at another width is a program on overlays.

## What is proved

* `join_blocks_append_rest` and `blocks_join_append` — a flat list is its blocks
  followed by the rest, in one way.
* `holds_overlay` — reading and writing an overlay is reading and writing the
  list of its blocks; the rest is untouched.
* `blocks_perm_of_dvd` and `perm_of_blocks_perm` — a permutation of wide blocks
  is one of the narrower blocks they are made of, and of the items.
-/

namespace Shuffle3.Foundations

universe u

variable {α : Type u} {w : ℕ}

/-! ### Slices -/

/-- `n` items from position `a`. -/
def slice (x : List α) (a n : ℕ) : List α := (x.drop a).take n

/-- The list with `b` written over it from position `a`. -/
def splice (x : List α) (a : ℕ) (b : List α) : List α := x.take a ++ b ++ x.drop (a + b.length)

theorem length_slice {x : List α} {a n : ℕ} (h : a + n ≤ x.length) : (slice x a n).length = n := by
  simp [slice]; omega

theorem length_splice {x : List α} {a : ℕ} {b : List α} (h : a + b.length ≤ x.length) :
    (splice x a b).length = x.length := by
  simp [splice]; omega

theorem slice_append (p b q : List α) : slice (p ++ b ++ q) p.length b.length = b := by
  simp [slice]

theorem splice_append (p b c q : List α) (h : c.length = b.length) :
    splice (p ++ b ++ q) p.length c = p ++ c ++ q := by
  rw [splice, h, ← List.length_append, List.drop_left, List.append_assoc p b q, List.take_left]

/-- Two slices that meet are one. -/
theorem slice_add (x : List α) (a m n : ℕ) :
    slice x a m ++ slice x (a + m) n = slice x a (m + n) := by
  rw [slice, slice, slice, List.take_add, List.drop_drop]

/-! ### Blocks -/

/-- A block of `w` items. -/
abbrev Block (α : Type u) (w : ℕ) : Type u := { b : List α // b.length = w }

/-- Blocks laid end to end. -/
def join (bs : List (Block α w)) : List α := (bs.map Subtype.val).flatten

@[simp] theorem join_nil : join ([] : List (Block α w)) = [] := rfl

@[simp] theorem join_cons (b : Block α w) (bs : List (Block α w)) : join (b :: bs) = b.val ++ join bs := rfl

@[simp] theorem join_append (bs cs : List (Block α w)) : join (bs ++ cs) = join bs ++ join cs := by
  simp [join]

@[simp] theorem length_join (bs : List (Block α w)) : (join bs).length = bs.length * w := by
  induction bs with
  | nil => simp
  | cons b bs ih => rw [join_cons, List.length_append, ih, b.2, List.length_cons, Nat.succ_mul, Nat.add_comm]

theorem join_perm {bs cs : List (Block α w)} (h : bs.Perm cs) : (join bs).Perm (join cs) :=
  (h.map Subtype.val).flatten

theorem mul_add_le_of_lt_div {i n : ℕ} (h : i < n / w) : i * w + w ≤ n := by
  have := Nat.mul_le_of_le_div w (i + 1) n h
  rwa [Nat.succ_mul] at this

/-- The block at index `i`. -/
def blockAt (w : ℕ) (x : List α) (i : ℕ) (h : i < x.length / w) : Block α w :=
  ⟨slice x (i * w) w, length_slice (mul_add_le_of_lt_div h)⟩

/-- The blocks of a flat list. -/
def blocks (w : ℕ) (x : List α) : List (Block α w) :=
  List.ofFn fun i : Fin (x.length / w) => blockAt w x i i.2

/-- The items left over after the blocks. -/
def rest (w : ℕ) (x : List α) : List α := x.drop (x.length / w * w)

@[simp] theorem length_blocks (w : ℕ) (x : List α) : (blocks w x).length = x.length / w := by
  simp [blocks]

theorem length_rest (w : ℕ) (x : List α) : (rest w x).length = x.length % w := by
  have := Nat.div_add_mod x.length w
  rw [Nat.mul_comm] at this
  simp only [rest, List.length_drop]
  omega

theorem length_rest_lt (hw : 0 < w) (x : List α) : (rest w x).length < w :=
  length_rest w x ▸ Nat.mod_lt _ hw

theorem take_append_slice (x : List α) (a n : ℕ) : x.take a ++ slice x a n = x.take (a + n) :=
  List.take_add.symm

theorem join_ofFn_slice (x : List α) {k : ℕ} (hk : k * w ≤ x.length) :
    join (List.ofFn fun i : Fin k => (⟨slice x (i * w) w, length_slice (by
      have := Nat.mul_le_mul_right w (show (i : ℕ) + 1 ≤ k from i.2)
      rw [Nat.succ_mul] at this; omega)⟩ : Block α w)) = x.take (k * w) := by
  induction k with
  | zero => simp
  | succ k ih =>
    rw [List.ofFn_succ_last, join_append, join_cons, join_nil, List.append_nil]
    have hk' : k * w ≤ x.length := by rw [Nat.succ_mul] at hk; omega
    simp only [Fin.val_castSucc, Fin.val_last, ih hk']
    rw [take_append_slice, Nat.succ_mul]

/-- **A flat list is its blocks followed by the rest.** -/
theorem join_blocks_append_rest (w : ℕ) (x : List α) : join (blocks w x) ++ rest w x = x := by
  have h := join_ofFn_slice (w := w) x (Nat.div_mul_le_self x.length w)
  rw [show join (blocks w x) = x.take (x.length / w * w) from h, rest, List.take_append_drop]

/-- Where every block has an item of a kind, there are as many of them as blocks, or more. -/
theorem length_le_countP_join {p : α → Bool} {bs : List (Block α w)} (h : ∀ b ∈ bs, ∃ c ∈ b.val, p c) :
    bs.length ≤ (join bs).countP p := by
  induction bs with
  | nil => exact Nat.zero_le _
  | cons b bs ih =>
    have hb : 0 < b.val.countP p := List.countP_pos_iff.mpr (h b List.mem_cons_self)
    have hbs := ih fun c hc => h c (List.mem_cons_of_mem _ hc)
    rw [join_cons, List.countP_append, List.length_cons]
    omega

theorem div_le_countP {p : α → Bool} {x : List α} (h : ∀ b ∈ blocks w x, ∃ c ∈ b.val, p c) :
    x.length / w ≤ x.countP p := by
  have hsum := congrArg (List.countP p) (join_blocks_append_rest w x)
  have hle := length_le_countP_join h
  rw [List.countP_append] at hsum
  rw [length_blocks] at hle
  omega

theorem slice_join {bs : List (Block α w)} {t : List α} {i : ℕ} (h : i < bs.length) :
    slice (join bs ++ t) (i * w) w = bs[i].val := by
  have hsplit : join bs ++ t = join (bs.take i) ++ bs[i].val ++ (join (bs.drop (i + 1)) ++ t) := by
    conv_lhs => rw [← List.take_append_drop i bs, List.drop_eq_getElem_cons h, join_append, join_cons]
    simp only [List.append_assoc]
  have hlen : (join (bs.take i)).length = i * w := by simp [Nat.min_eq_left h.le]
  have := slice_append (join (bs.take i)) bs[i].val (join (bs.drop (i + 1)) ++ t)
  rwa [← hsplit, hlen, bs[i].2] at this

theorem splice_join {bs : List (Block α w)} {t : List α} {i : ℕ} (h : i < bs.length)
    (b : Block α w) :
    splice (join bs ++ t) (i * w) b.val = join (bs.set i b) ++ t := by
  have hsplit : join bs ++ t = join (bs.take i) ++ bs[i].val ++ (join (bs.drop (i + 1)) ++ t) := by
    conv_lhs => rw [← List.take_append_drop i bs, List.drop_eq_getElem_cons h, join_append, join_cons]
    simp only [List.append_assoc]
  have hlen : (join (bs.take i)).length = i * w := by simp [Nat.min_eq_left h.le]
  have := splice_append (join (bs.take i)) bs[i].val b.val (join (bs.drop (i + 1)) ++ t)
    (b.2.trans bs[i].2.symm)
  rw [← hsplit, hlen] at this
  rw [this, List.set_eq_take_append_cons_drop, if_pos h, join_append, join_cons]
  simp only [List.append_assoc]

theorem length_join_append_div {bs : List (Block α w)} {t : List α} (ht : t.length < w) :
    (join bs ++ t).length / w = bs.length := by
  rw [List.length_append, length_join, Nat.add_comm, Nat.add_mul_div_right _ _ (by omega),
    Nat.div_eq_of_lt ht, Nat.zero_add]

/-- **In one way**: the blocks and the rest of blocks laid end to end before a
short rest are those. -/
theorem blocks_join_append {bs : List (Block α w)} {t : List α} (ht : t.length < w) :
    blocks w (join bs ++ t) = bs := by
  refine List.ext_getElem (by rw [length_blocks, length_join_append_div ht]) fun i hi hi' => ?_
  apply Subtype.ext
  simp only [blocks, List.getElem_ofFn, blockAt]
  exact slice_join hi'

theorem rest_join_append {bs : List (Block α w)} {t : List α} (ht : t.length < w) :
    rest w (join bs ++ t) = t := by
  rw [rest, length_join_append_div ht, ← length_join bs, List.drop_left]

/-! ### Overlays -/

/-- A flat list as a memory of its blocks of width `w`. -/
structure Overlay (α : Type u) (w : ℕ) where
  /-- The flat list. -/
  flat : List α

instance : Indexed (Overlay α w) (Block α w) where
  size m := m.flat.length / w
  get m i := if h : i < m.flat.length / w then some (blockAt w m.flat i h) else none
  set m i b := if i < m.flat.length / w then some ⟨splice m.flat (i * w) b.val⟩ else none

/-- The overlay holds the blocks `bs`, with `t` left over. -/
def Overlay.Has (t : List α) (m : Overlay α w) (bs : List (Block α w)) : Prop :=
  m.flat = join bs ++ t

theorem Overlay.has_blocks (x : List α) : Overlay.Has (rest w x) ⟨x⟩ (blocks w x) :=
  (join_blocks_append_rest w x).symm

/-- **Reading and writing an overlay is reading and writing the list of its blocks.** -/
theorem holds_overlay {t : List α} (ht : t.length < w) : Holds (Overlay.Has (w := w) t) where
  size := by
    rintro ⟨x⟩ bs rfl
    exact length_join_append_div ht
  get := by
    rintro ⟨x⟩ bs rfl i
    simp only [Indexed.get, length_join_append_div ht]
    by_cases h : i < bs.length
    · rw [dif_pos h, List.getElem?_eq_getElem h]
      exact congrArg some (Subtype.ext (slice_join h))
    · rw [dif_neg h, List.getElem?_eq_none (Nat.le_of_not_lt h)]
  set := by
    rintro ⟨x⟩ bs rfl i b
    simp only [Indexed.set, length_join_append_div ht]
    by_cases h : i < bs.length
    · rw [if_pos h, if_pos h]
      exact .some (splice_join h b)
    · rw [if_neg h, if_neg h]
      exact .none

/-! ### Wide blocks and narrow ones -/

/-- The narrower blocks of a wide block. -/
def refine (v : ℕ) (b : Block α w) : List (Block α v) := blocks v b.val

theorem join_flatMap_refine {v : ℕ} (h : v ∣ w) (bs : List (Block α w)) :
    join (bs.flatMap (refine v)) = join bs := by
  induction bs with
  | nil => rfl
  | cons b bs ih =>
    rw [List.flatMap_cons, join_append, ih, join_cons]
    congr 1
    conv_rhs => rw [← join_blocks_append_rest v b.val]
    have hrest : rest v b.val = [] := by
      rw [← List.length_eq_zero_iff, length_rest, b.2]
      exact Nat.mod_eq_zero_of_dvd h
    rw [hrest, List.append_nil]
    rfl

/-- The narrow blocks of a flat list are those of its wide blocks, then those of the rest. -/
theorem blocks_of_dvd {v : ℕ} (hv : 0 < v) (h : v ∣ w) (bs : List (Block α w)) (t : List α) :
    blocks v (join bs ++ t) = bs.flatMap (refine v) ++ blocks v t := by
  have key : blocks v (join (bs.flatMap (refine v) ++ blocks v t) ++ rest v t) = _ :=
    blocks_join_append (length_rest_lt hv t)
  rwa [join_append, join_flatMap_refine h, List.append_assoc, join_blocks_append_rest] at key

/-- **A permutation of wide blocks permutes the narrow ones.** -/
theorem blocks_perm_of_dvd {v : ℕ} (hv : 0 < v) (h : v ∣ w) {x y : List α}
    (hb : (blocks w x).Perm (blocks w y)) (hr : rest w x = rest w y) :
    (blocks v x).Perm (blocks v y) := by
  rw [← join_blocks_append_rest w x, ← join_blocks_append_rest w y, blocks_of_dvd hv h,
    blocks_of_dvd hv h, hr]
  exact (hb.flatMap_right _).append_right _

/-- A permutation of blocks permutes the items. -/
theorem perm_of_blocks_perm {x y : List α} (hb : (blocks w x).Perm (blocks w y))
    (hr : rest w x = rest w y) : x.Perm y := by
  rw [← join_blocks_append_rest w x, ← join_blocks_append_rest w y, hr]
  exact (join_perm hb).append_right _

end Shuffle3.Foundations
