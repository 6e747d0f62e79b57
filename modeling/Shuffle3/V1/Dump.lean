import Shuffle3.V1.Array

/-!
# Dumping into a buffer

`ar_ndump` copies a range of elements into a buffer of a given size. From memory it
makes one copy of what fits; from a file it copies element by element, and tests
before each whether the buffer is full, so that the last one may run over its end.

## What is proved

* `respects_memory_iff`, `respects_file_iff` — when the dump of either kind of array
  keeps to its buffer and its range.
* `respects_iff` — when both do, and answer the same.
* `not_respects_overrun` — an element that is wider than the buffer.

## Honest scope

Bytes of the buffer that are not written are left out. A `long` counts the bytes of an
array, as `ftell` and `ar_full_size` return them.
-/

namespace Shuffle3.V1

open Foundations

variable {f : Bool} {w : ℕ} {a b : ArrayT} {x : List Byte} {bufsize offset count : ℕ}

/-! ### What a dump is for -/

/-- The bytes of the elements of a range that are in the array. -/
def rangeBytes (w : ℕ) (x : List Byte) (offset count : ℕ) : List Byte :=
  slice (x.take (x.length / w * w)) (offset * w) (count * w)

/-- A dump respects its buffer: it writes no more than fits, and a prefix of the
elements of the range; it succeeds if and only if the whole range is in the array and
fits, and then all of it is written. -/
def Respects (a : ArrayT) (w : ℕ) (x : List Byte) (bufsize offset count : ℕ) : Prop :=
  ∃ ok buf a', arNdump a bufsize offset count = some (ok, buf, a') ∧ buf.length ≤ bufsize ∧
    buf <+: rangeBytes w x offset count ∧ (ok = true ↔ offset + count ≤ x.length / w ∧ count * w ≤ bufsize) ∧
    (ok = true → buf.length = count * w)

theorem rangeBytes_eq (w : ℕ) (x : List Byte) (offset count : ℕ) :
    rangeBytes w x offset count =
      (x.drop (offset * w)).take (min (count * w) (x.length / w * w - offset * w)) := by
  rw [rangeBytes, slice, List.drop_take, List.take_take]

/-- What is written is a prefix of the range if it is in the range, or nothing. -/
theorem slice_prefix_rangeBytes {l : ℕ} (hl : l ≤ count * w)
    (h : offset * w + l ≤ x.length / w * w ∨ l = 0) :
    slice x (offset * w) l <+: rangeBytes w x offset count := by
  rw [rangeBytes_eq]
  refine List.take_prefix_take_left ?_
  omega

/-- A prefix of the range that is not empty is in the array. -/
theorem add_le_of_prefix_rangeBytes {buf : List Byte} (h : buf <+: rangeBytes w x offset count)
    (hne : buf.length ≠ 0) :
    offset * w + buf.length ≤ x.length / w * w := by
  have hlen := h.length_le
  rw [rangeBytes_eq, List.length_take] at hlen
  omega

/-! ### From memory -/

/-- The sum of offset and count does not wrap, or to more than the size; or it does, and
the bytes copied are in the array all the same and fewer than the product wraps to. -/
def CopyFits (w : ℕ) (x : List Byte) (bufsize offset count : ℕ) : Prop :=
  offset + count < 2 ^ 64 ∨ x.length / w < (offset + count) % 2 ^ 64 ∨
    bufsize < count * w % 2 ^ 64 ∧
      (offset * w + bufsize ≤ x.length / w * w ∨ bufsize = 0 ∧ offset * w % 2 ^ 64 ≤ x.length)

/-- The dump from memory, over the bytes that the array holds. -/
theorem Views.ndump_memory (h : Views false w a x) (bufsize offset count : ℕ) :
    ∃ r : Option (Bool × List Byte), arNdump a bufsize offset count =
      r.map (fun r => (r.1, r.2, a)) ∧
      r = if x.length / w < (offset + count) % 2 ^ 64 then some (false, [])
        else if offset * w % 2 ^ 64 + min (count * w % 2 ^ 64) bufsize ≤ x.length then
          some (decide (count * w % 2 ^ 64 ≤ bufsize),
            slice x (offset * w % 2 ^ 64) (min (count * w % 2 ^ 64) bufsize))
        else none := by
  obtain ⟨hcontents, hfile, helement, hsize, -⟩ := h
  cases hstore : a.store with
  | file state =>
    rw [hstore] at hfile
    cases hfile
  | memory data =>
    rw [hstore] at hcontents
    obtain rfl : data = x := hcontents
    refine ⟨arMemoryDump a data bufsize offset count, by rw [arNdump, hstore], ?_⟩
    have hwsz : (if count * w % 2 ^ 64 < bufsize then count * w % 2 ^ 64 else bufsize) =
        min (count * w % 2 ^ 64) bufsize := by
      split_ifs <;> omega
    have hok : decide (min (count * w % 2 ^ 64) bufsize = count * w % 2 ^ 64) =
        decide (count * w % 2 ^ 64 ≤ bufsize) := by
      rw [decide_eq_decide]
      exact min_eq_left_iff
    simp only [arMemoryDump, hsize, helement, gt_iff_lt, hwsz, hok]

/-- A range in the array is copied without wrapping. -/
theorem range_in (h : offset + count ≤ x.length / w) :
    offset * w + count * w ≤ x.length / w * w ∧ x.length / w * w ≤ x.length := by
  refine ⟨?_, Nat.div_mul_le_self _ _⟩
  rw [← Nat.add_mul]
  exact Nat.mul_le_mul_right w h

/-- **The dump from memory** respects its buffer if and only if what is copied fits. -/
theorem respects_memory_iff (h : Views false w a x) (hx : x.length < 2 ^ 63) :
    Respects a w x bufsize offset count ↔ CopyFits w x bufsize offset count := by
  obtain ⟨r, hr, hcase⟩ := h.ndump_memory bufsize offset count
  rcases Nat.lt_or_ge (x.length / w) ((offset + count) % 2 ^ 64) with hpast | hin
  · -- the sum is past the size: nothing is written
    refine iff_of_true ⟨false, [], a, ?_, Nat.zero_le _, List.nil_prefix, ?_, nofun⟩
      (.inr (.inl hpast))
    · rw [hr, hcase, if_pos hpast, Option.map_some]
    · refine iff_of_false Bool.false_ne_true fun hfits => ?_
      have hle := hpast.trans_le (Nat.mod_le _ _)
      omega
  rw [if_neg (Nat.not_lt.mpr hin)] at hcase
  by_cases hwrap : offset + count < 2 ^ 64
  · -- the range is in the array
    rw [Nat.mod_eq_of_lt hwrap] at hin
    obtain ⟨hend, hall⟩ := range_in hin
    have hstart : offset * w % 2 ^ 64 = offset * w := Nat.mod_eq_of_lt (by omega)
    have hsize : count * w % 2 ^ 64 = count * w := Nat.mod_eq_of_lt (by omega)
    rw [hstart, hsize, if_pos (by omega)] at hcase
    refine iff_of_true ⟨_, _, a, by rw [hr, hcase, Option.map_some], ?_, ?_, ?_, ?_⟩ (.inl hwrap)
    · rw [length_slice (by omega)]
      exact min_le_right _ _
    · exact slice_prefix_rangeBytes (min_le_left _ _) (.inl (by omega))
    · rw [decide_eq_true_iff]
      exact (and_iff_right hin).symm
    · intro hok
      rw [decide_eq_true_iff] at hok
      rw [length_slice (by omega)]
      exact min_eq_left hok
  · -- the sum wraps into the array: the range is not in it
    have hout : ¬ offset + count ≤ x.length / w := by
      have := Nat.div_le_self x.length w
      omega
    rw [CopyFits, or_iff_right hwrap, or_iff_right (Nat.not_lt.mpr hin)]
    constructor
    · rintro ⟨ok, buf, a', hdump, -, hbegins, hok, -⟩
      rw [hr, hcase] at hdump
      split_ifs at hdump with hdefined
      swap
      · cases hdump
      cases hdump
      have hshort : bufsize < count * w % 2 ^ 64 := by
        by_contra hge
        exact hout (hok.mp (decide_eq_true (Nat.not_lt.mp hge))).1
      rw [min_eq_right hshort.le] at hdefined hbegins
      refine ⟨hshort, ?_⟩
      by_cases hzero : bufsize = 0
      · exact .inr ⟨hzero, by omega⟩
      · have hbuf := add_le_of_prefix_rangeBytes hbegins
        rw [length_slice hdefined] at hbuf
        exact .inl (hbuf hzero)
    · rintro ⟨hshort, hfits⟩
      have hall : x.length / w * w ≤ x.length := Nat.div_mul_le_self _ _
      have hdefined : offset * w % 2 ^ 64 + bufsize ≤ x.length ∧
          slice x (offset * w % 2 ^ 64) bufsize <+: rangeBytes w x offset count := by
        rcases hfits with hfits | ⟨rfl, hfits⟩
        · rw [Nat.mod_eq_of_lt (a := offset * w) (by omega)]
          exact ⟨by omega, slice_prefix_rangeBytes (hshort.le.trans (Nat.mod_le _ _)) (.inl hfits)⟩
        · exact ⟨hfits, List.nil_prefix⟩
      rw [min_eq_right hshort.le, if_pos hdefined.1, decide_eq_false (Nat.not_le.mpr hshort)] at hcase
      refine ⟨false, _, a, by rw [hr, hcase, Option.map_some], ?_, hdefined.2,
        iff_of_false Bool.false_ne_true fun hfits => hout hfits.1, nofun⟩
      rw [length_slice hdefined.1]

/-! ### From a file -/

theorem toLong_of_lt {n : ℕ} (h : n < 2 ^ 63) : toLong n = n := by
  have hlt : n % 2 ^ 64 = n := Nat.mod_eq_of_lt (by omega)
  rw [toLong, BitVec.toInt_eq_toNat_of_lt (by rw [BitVec.toNat_ofNat, hlt]; omega), BitVec.toNat_ofNat, hlt]

/-- A `size_t` past the largest `long` is negative. -/
theorem toLong_neg {n : ℕ} (h : 2 ^ 63 ≤ n) (hn : n < 2 ^ 64) : toLong n < 0 := by
  have hlt : n % 2 ^ 64 = n := Nat.mod_eq_of_lt hn
  rw [toLong, BitVec.toInt_eq_toNat_cond, BitVec.toNat_ofNat, hlt, if_neg (by omega)]
  omega

/-- How many elements start within `bufsize` bytes. -/
def starts (w bufsize : ℕ) : ℕ := (bufsize + w - 1) / w

theorem lt_starts_iff (hw : 0 < w) {i : ℕ} : i < starts w bufsize ↔ i * w < bufsize := by
  rw [starts, Nat.lt_iff_add_one_le, Nat.le_div_iff_mul_le hw, Nat.add_one_mul]
  omega

/-- One more starts than fits, unless the elements fill the buffer. -/
theorem starts_eq (bufsize : ℕ) (hw : 0 < w) :
    starts w bufsize = if w ∣ bufsize then bufsize / w else bufsize / w + 1 := by
  split_ifs with hdvd
  · obtain ⟨q, rfl⟩ := hdvd
    rw [Nat.mul_div_cancel_left q hw, starts, Nat.add_sub_assoc hw, Nat.mul_add_div hw,
      Nat.div_eq_of_lt (by omega), Nat.add_zero]
  · have hmod : bufsize % w ≠ 0 := fun h => hdvd (Nat.dvd_of_mod_eq_zero h)
    have hlt := Nat.mod_lt bufsize hw
    have hsplit := Nat.div_add_mod bufsize w
    have hsum : bufsize + w - 1 = w * (bufsize / w + 1) + (bufsize % w - 1) := by
      rw [Nat.mul_add_one]
      omega
    have hsmall : (bufsize % w - 1) / w = 0 := Nat.div_eq_of_lt (by omega)
    rw [starts, hsum, Nat.mul_add_div hw, hsmall, Nat.add_zero]

/-- The element of a round, if the round reaches one. -/
theorem Views.get_round (h : Views f w a x) (hx : x.length < 2 ^ 63) (hoffset : offset < 2 ^ 64)
    {i : ℕ} (hi : i = 0 ∨ offset + i ≤ x.length / w) :
    if offset + i < x.length / w then
      ∃ a', arGet a (toLong (offset + i)) = (some (slice x ((offset + i) * w) w), a') ∧ Views f w a' x
    else arGet a (toLong (offset + i)) = (none, a) := by
  have hdiv := Nat.div_le_self x.length w
  split_ifs with hlt
  · rw [toLong_of_lt (by omega)]
    exact h.get hlt
  · apply h.get_none
    rcases Nat.lt_or_ge (offset + i) (2 ^ 63) with hsmall | hlarge
    · rw [toLong_of_lt hsmall]
      omega
    · exact .inl (toLong_neg hlarge (by omega))

/-- How many elements of the file are copied before the buffer or the array ends. -/
def copies (w : ℕ) (x : List Byte) (bufsize offset : ℕ) : ℕ :=
  min (starts w bufsize) (x.length / w - offset)

theorem length_slice_elements {i : ℕ} (hi : i ≤ x.length / w - offset) :
    (slice x (offset * w) (i * w)).length = i * w := by
  rcases Nat.eq_zero_or_pos i with rfl | hpos
  · rw [Nat.zero_mul, slice, List.take_zero, List.length_nil]
  · obtain ⟨hend, hall⟩ := range_in (w := w) (x := x) (show offset + i ≤ x.length / w by omega)
    exact length_slice (hend.trans hall)

/-- **The loop**, from a round that is reached: it makes the copies that are left, and
is undefined when an `int` cannot count it. -/
theorem Views.dumpLoop (bufsize : ℕ) (hw : 0 < w) (hx : x.length < 2 ^ 63)
    (hoffset : offset < 2 ^ 64) (k i : ℕ) (h : Views f w a x) (hi : i ≤ copies w x bufsize offset)
    (hint : i ≤ intMax) :
    ∃ a', arDumpLoop bufsize offset k i (slice x (offset * w) (i * w)) a =
      if min (i + k) (copies w x bufsize offset) ≤ intMax then
        some (decide (i + k ≤ copies w x bufsize offset),
          slice x (offset * w) (min (i + k) (copies w x bufsize offset) * w), a')
      else none := by
  induction k generalizing i a with
  | zero =>
    refine ⟨a, ?_⟩
    rw [arDumpLoop, Nat.add_zero, min_eq_left hi, if_pos hint, decide_eq_true hi]
  | succ k ih =>
    obtain ⟨hstarts, hend⟩ := le_min_iff.mp hi
    have hround := h.get_round hx hoffset (i := i) (by omega)
    have hlen := length_slice_elements hend
    by_cases hroom : i < copies w x bufsize offset
    · -- an element is copied
      obtain ⟨hstart, hin⟩ := lt_min_iff.mp hroom
      rw [if_pos (by omega)] at hround
      obtain ⟨a₁, hget, h₁⟩ := hround
      have hfull : ¬ i * w ≥ bufsize := Nat.not_le.mpr ((lt_starts_iff hw).mp hstart)
      rw [arDumpLoop, hlen, if_neg hfull, hget]
      by_cases hcount : i < intMax
      · obtain ⟨a', ha'⟩ := ih (i + 1) h₁ hroom hcount
        refine ⟨a', ?_⟩
        rw [← Nat.add_assoc i k 1, Nat.add_right_comm i k 1, ← ha', Nat.add_mul offset,
          Nat.add_one_mul, ← slice_add]
        exact if_pos hcount
      · refine ⟨a, ?_⟩
        rw [if_neg (by omega)]
        exact if_neg hcount
    · -- the buffer is full, or the array ends
      obtain rfl : i = copies w x bufsize offset := le_antisymm hi (Nat.not_lt.mp hroom)
      refine ⟨a, ?_⟩
      rw [min_eq_right (Nat.le_add_right _ _), if_pos hint, decide_eq_false (by omega), arDumpLoop, hlen]
      by_cases hfull : copies w x bufsize offset * w ≥ bufsize
      · rw [if_pos hfull]
      · have hlast : copies w x bufsize offset < starts w bufsize :=
          (lt_starts_iff hw).mpr (Nat.not_le.mp hfull)
        have hout : ¬ offset + copies w x bufsize offset < x.length / w := by
          unfold copies at hlast ⊢
          omega
        rw [if_neg hout] at hround
        rw [if_neg hfull, hround]

/-- The dump from a file. -/
theorem Views.ndump_file (bufsize count : ℕ) (h : Views true w a x) (hw : 0 < w)
    (hx : x.length < 2 ^ 63) (hoffset : offset < 2 ^ 64) :
    ∃ a', arNdump a bufsize offset count =
      if min count (copies w x bufsize offset) ≤ intMax then
        some (decide (count ≤ copies w x bufsize offset),
          slice x (offset * w) (min count (copies w x bufsize offset) * w), a')
      else none := by
  have hloop := h.dumpLoop bufsize hw hx hoffset count 0 (Nat.zero_le _) (Nat.zero_le _)
  simp only [Nat.zero_mul, Nat.zero_add] at hloop
  have hstart : slice x (offset * w) 0 = [] := List.take_zero
  rw [hstart] at hloop
  have hfile := h.inFile
  cases hstore : a.store with
  | memory data =>
    rw [hstore] at hfile
    cases hfile
  | file state =>
    obtain ⟨a', ha'⟩ := hloop
    exact ⟨a', by rw [← ha', arNdump, hstore]⟩

/-- The elements fill the buffer, or it ends no earlier than the range does in the
array; an `int` can count what is copied; and an empty range starts in the array. -/
def LoopFits (w : ℕ) (x : List Byte) (bufsize offset count : ℕ) : Prop :=
  (w ∣ bufsize ∨ min count (x.length / w - offset) ≤ bufsize / w) ∧
    min count (min (bufsize / w) (x.length / w - offset)) ≤ intMax ∧ (count = 0 → offset ≤ x.length / w)

/-- **The dump from a file** respects its buffer if and only if its loop fits. -/
theorem respects_file_iff (h : Views true w a x) (hw : 0 < w) (hx : x.length < 2 ^ 63)
    (hoffset : offset < 2 ^ 64) :
    Respects a w x bufsize offset count ↔ LoopFits w x bufsize offset count := by
  obtain ⟨a₁, hdump⟩ := h.ndump_file bufsize count hw hx hoffset
  have hlen : (slice x (offset * w) (min count (copies w x bufsize offset) * w)).length =
      min count (copies w x bufsize offset) * w :=
    length_slice_elements ((min_le_right _ _).trans (min_le_right _ _))
  have hroom : copies w x bufsize offset = min (starts w bufsize) (x.length / w - offset) := rfl
  have hstarts := starts_eq bufsize hw
  constructor
  · rintro ⟨ok, buf, a', hres, hle, -, hok, -⟩
    rw [hdump] at hres
    split_ifs at hres with hcount
    cases hres
    rw [hlen, ← Nat.le_div_iff_mul_le hw] at hle
    rw [decide_eq_true_iff] at hok
    refine ⟨?_, ?_, ?_⟩
    · by_cases hdvd : w ∣ bufsize
      · exact .inl hdvd
      · rw [if_neg hdvd] at hstarts
        omega
    · split_ifs at hstarts <;> omega
    · rintro rfl
      exact (hok.mp (Nat.zero_le _)).1
  · rintro ⟨hfits, hcount, hempty⟩
    have hmin : min count (copies w x bufsize offset) = min count (min (bufsize / w) (x.length / w - offset)) := by
      split_ifs at hstarts with hdvd
      · rw [hroom, hstarts]
      · rw [or_iff_right hdvd] at hfits
        omega
    have hdiv : min count (copies w x bufsize offset) * w ≤ bufsize := by
      rw [← Nat.le_div_iff_mul_le hw, hmin]
      omega
    refine ⟨_, _, a₁, by rw [hdump, if_pos (hmin ▸ hcount)], by rwa [hlen], ?_, ?_, ?_⟩
    · refine slice_prefix_rangeBytes (Nat.mul_le_mul_right w (min_le_left _ _)) ?_
      rcases Nat.eq_zero_or_pos (min count (copies w x bufsize offset)) with hzero | hpos
      · exact .inr (by rw [hzero, Nat.zero_mul])
      · exact .inl (range_in (by omega)).1
    · rw [decide_eq_true_iff, ← Nat.le_div_iff_mul_le hw]
      omega
    · intro hok
      rw [decide_eq_true_iff] at hok
      rw [hlen, min_eq_left hok]

/-! ### Both -/

/-- Two dumps that respect their buffers succeed together. -/
theorem respects_agree (ha : Respects a w x bufsize offset count)
    (hb : Respects b w x bufsize offset count) :
    (arNdump a bufsize offset count).map Prod.fst =
      (arNdump b bufsize offset count).map Prod.fst := by
  obtain ⟨ok, buf, a', hdump, -, -, hok, -⟩ := ha
  obtain ⟨ok', buf', b', hdump', -, -, hok', -⟩ := hb
  rw [hdump, hdump', Option.map_some, Option.map_some, Bool.eq_iff_iff.mpr (hok.trans hok'.symm)]

/-- **Dumps of the same bytes respect their buffers and answer the same**, from memory
and from a file, if and only if the copy and the loop fit. -/
theorem respects_iff (ha : Views false w a x) (hb : Views true w b x) (hw : 0 < w)
    (hx : x.length < 2 ^ 63) (hoffset : offset < 2 ^ 64) :
    (Respects a w x bufsize offset count ∧ Respects b w x bufsize offset count ∧
      (arNdump a bufsize offset count).map Prod.fst = (arNdump b bufsize offset count).map Prod.fst) ↔
      CopyFits w x bufsize offset count ∧ LoopFits w x bufsize offset count := by
  rw [← respects_memory_iff ha hx, ← respects_file_iff hb hw hx hoffset]
  exact and_congr_right fun ha => and_iff_left_of_imp fun hb => respects_agree ha hb

/-- Two bytes, and a buffer for the second of them. -/
theorem respects_iff_two :
    (Respects (arCreateMemoryFrom [7, 8] 1 2) 1 [7, 8] 1 1 1 ∧
      Respects (arCreateFile (.opened [7, 8]) 1) 1 [7, 8] 1 1 1 ∧
      (arNdump (arCreateMemoryFrom [7, 8] 1 2) 1 1 1).map Prod.fst =
        (arNdump (arCreateFile (.opened [7, 8]) 1) 1 1 1).map Prod.fst) ↔
      CopyFits 1 [7, 8] 1 1 1 ∧ LoopFits 1 [7, 8] 1 1 1 :=
  respects_iff (views_memory [7, 8]) (views_file [7, 8]) (by decide) (by decide) (by decide)

/-- An element of two bytes is copied into a buffer of one. -/
theorem not_respects_overrun :
    ¬ ∀ (w : ℕ) (a : ArrayT) (x : List Byte) (bufsize offset count : ℕ), Views true w a x → 0 < w →
      x.length < 2 ^ 63 → offset < 2 ^ 64 → Respects a w x bufsize offset count := by
  intro h
  obtain ⟨ok, buf, a', hdump, hle, -⟩ :=
    h 2 (arCreateFile (.opened [7, 8]) 2) [7, 8] 1 0 1 ⟨rfl, rfl, rfl, rfl, rfl⟩
    (by decide) (by decide) (by decide)
  cases hdump
  exact absurd hle (by decide)

end Shuffle3.V1
