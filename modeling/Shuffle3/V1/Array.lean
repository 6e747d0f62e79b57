import Shuffle3.Foundations.Streams

/-!
# Arrays in memory and in files

The arrays of the first version: one interface to elements of a width that can be
changed, over bytes that are in memory or in a file. The element of a file is read
into a buffer behind a seek, and written behind another.

## What is proved

* `Views.get`, `Views.set`, `Views.swap` — over either store, reading, writing and
  swapping elements are those of the bytes the array holds.
* `Views.reinterpret` — the other widths are views of the same bytes.

## Honest scope

The calls of the C library succeed. An item that cannot be read is `none`, and
what uses it is undefined. Copying an item onto itself leaves it.
-/

namespace Shuffle3.V1

open Foundations

/-! ### The array -/

/-- Where the bytes of an array are. -/
inductive Store where
  /-- In memory. -/
  | memory (data : List Byte)
  /-- In a file. -/
  | file (state : Stream)

/-- The bytes of a store, when what is in its stream's buffer has been written. -/
def Store.contents : Store → List Byte
  | .memory data => data
  | .file state => state.fclose

/-- Whether they are in a file. -/
def Store.inFile : Store → Bool
  | .memory _ => false
  | .file _ => true

/-- `struct array`. -/
structure ArrayT where
  size : ℕ
  element : ℕ
  fullSize : ℕ
  store : Store

/-- `ar_create_memory_from`. -/
def arCreateMemoryFrom (src : List Byte) (elementSize count : ℕ) : ArrayT :=
  ⟨count, elementSize, elementSize * count, .memory (src.take (elementSize * count))⟩

/-- `ar_create_file`. `filesize` leaves the stream where it was. -/
def arCreateFile (src : Stream) (elementSize : ℕ) : ArrayT :=
  ⟨src.flush.file.length / elementSize, elementSize, src.flush.file.length, .file src.flush⟩

/-- `ar_get`: the item, and the array that reading it leaves. -/
def arGet (ar : ArrayT) (i : ℤ) : Option (List Byte) × ArrayT :=
  if i < 0 ∨ i ≥ ar.size then (none, ar)
  else match ar.store with
    | .memory data => (some (slice data (i.toNat * ar.element) ar.element), ar)
    | .file state =>
      let (buffer, state) := (state.fseekSet (i.toNat * ar.element)).fread ar.element
      (if buffer.length = ar.element then some buffer else none, { ar with store := .file state })

/-- `ar_set`. -/
def arSet (ar : ArrayT) (i : ℤ) (item : Option (List Byte)) : Option ArrayT :=
  if i < 0 ∨ i ≥ ar.size then some ar
  else item.map fun item => match ar.store with
    | .memory data => { ar with store := .memory (splice data (i.toNat * ar.element) item) }
    | .file state => { ar with store := .file ((state.fseekSet (i.toNat * ar.element)).fwrite item) }

/-- `ar_swap`. -/
def arSwap (ar : ArrayT) (i j : ℤ) : Option ArrayT := do
  let (temp, ar) := arGet ar i
  let (item, ar) := arGet ar j
  let ar ← arSet ar i item
  arSet ar j temp

/-- `ar_reinterpret`. -/
def arReinterpret (ar : ArrayT) (element : ℕ) : ArrayT :=
  { ar with element := element, size := ar.fullSize / element }

/-- `ar_get_v`: the item read as a value. -/
def arGetV (τ : Type) [Layout τ] (ar : ArrayT) (i : ℤ) : Option (τ × ArrayT) :=
  let (item, ar) := arGet ar i
  item.bind fun item =>
    if h : (item.take (Layout.sizeof τ)).length = Layout.sizeof τ then
      some (Layout.ofBytes ⟨item.take (Layout.sizeof τ), h⟩, ar)
    else none

/-- The largest `int`. -/
def intMax : ℕ := 2 ^ 31 - 1

/-- A `size_t` as a `long`. -/
def toLong (n : ℕ) : ℤ := (BitVec.ofNat 64 n).toInt

/-- `_ar_memory_dump`: whether it succeeds, and the bytes it writes from the start of
the buffer. Sums and products are those of `size_t`, and what is copied has to be in
the array. -/
def arMemoryDump (ar : ArrayT) (data : List Byte) (bufsize offset count : ℕ) :
    Option (Bool × List Byte) :=
  if (offset + count) % 2 ^ 64 > ar.size then some (false, [])
  else
    let fsz := count * ar.element % 2 ^ 64
    let wsz := if fsz < bufsize then fsz else bufsize
    let start := offset * ar.element % 2 ^ 64
    if start + wsz ≤ data.length then some (wsz = fsz, slice data start wsz) else none

/-- The loop of `ar_ndump` with `k` rounds to go, when the bytes `buf` are written.
Its index is an `int`, and undefined past the largest. -/
def arDumpLoop (bufsize offset : ℕ) :
    ℕ → ℕ → List Byte → ArrayT → Option (Bool × List Byte × ArrayT)
  | 0, _, buf, ar => some (true, buf, ar)
  | k + 1, i, buf, ar =>
    if buf.length ≥ bufsize then some (false, buf, ar)
    else match arGet ar (toLong (offset + i)) with
      | (none, ar) => some (false, buf, ar)
      | (some item, ar) => if i < intMax then arDumpLoop bufsize offset k (i + 1) (buf ++ item) ar else none

/-- `ar_ndump`: whether it succeeds, the bytes it writes from the start of the
buffer, and the array it leaves. -/
def arNdump (ar : ArrayT) (bufsize offset count : ℕ) : Option (Bool × List Byte × ArrayT) :=
  match ar.store with
  | .memory data => (arMemoryDump ar data bufsize offset count).map fun r => (r.1, r.2, ar)
  | .file _ => arDumpLoop bufsize offset count 0 [] ar

/-! ### What the array holds -/

/-- The array holds the bytes `x`, in a file or not, seen as elements of `w` bytes. -/
structure Views (inFile : Bool) (w : ℕ) (a : ArrayT) (x : List Byte) : Prop where
  contents : a.store.contents = x
  inFile : a.store.inFile = inFile
  element : a.element = w
  size : a.size = x.length / w
  fullSize : a.fullSize = x.length

variable {f : Bool} {w : ℕ} {a : ArrayT} {x : List Byte}

theorem views_memory (x : List Byte) : Views false 1 (arCreateMemoryFrom x 1 x.length) x where
  contents := by simp [arCreateMemoryFrom, Store.contents]
  inFile := rfl
  element := rfl
  size := (Nat.div_one _).symm
  fullSize := Nat.one_mul _

theorem views_file (x : List Byte) : Views true 1 (arCreateFile (.opened x) 1) x :=
  ⟨rfl, rfl, rfl, rfl, rfl⟩

/-- **The other widths are views of the same bytes.** -/
theorem Views.reinterpret (h : Views f w a x) (v : ℕ) : Views f v (arReinterpret a v) x :=
  ⟨h.contents, h.inFile, rfl, congrArg (· / v) h.fullSize, h.fullSize⟩

/-- There is no item outside the array. -/
theorem Views.get_none (h : Views f w a x) {i : ℤ} (hi : i < 0 ∨ (x.length / w : ℕ) ≤ i) :
    arGet a i = (none, a) := by
  rw [← h.size] at hi
  rw [arGet, if_pos hi]

theorem not_outside {i n : ℕ} (hi : i < n) : ¬ ((i : ℤ) < 0 ∨ (i : ℤ) ≥ n) := by omega

/-- **Reading an element** is reading a slice of the bytes. -/
theorem Views.get (h : Views f w a x) {i : ℕ} (hi : i < x.length / w) :
    ∃ a', arGet a i = (some (slice x (i * w) w), a') ∧ Views f w a' x := by
  obtain ⟨hcontents, hfile, helement, hsize, hfull⟩ := h
  have hlen : (slice x (i * w) w).length = w := length_slice (mul_add_le_of_lt_div hi)
  rw [arGet, if_neg (hsize ▸ not_outside hi), helement, Int.toNat_natCast]
  cases hstore : a.store with
  | memory data =>
    rw [hstore] at hcontents
    obtain rfl : data = x := hcontents
    exact ⟨a, rfl, by rw [hstore]; rfl, hfile, helement, hsize, hfull⟩
  | file state =>
    rw [hstore] at hcontents
    have hread : (state.fseekSet (i * w)).fread w =
        (slice x (i * w) w, ⟨x, i * w + (slice x (i * w) w).length, []⟩) := by
      rw [← hcontents]
      rfl
    simp only [hread, if_pos hlen]
    exact ⟨_, rfl, rfl, by rw [← hfile, hstore]; rfl, rfl, hsize, hfull⟩

/-- **Writing an element** is writing over a slice of the bytes. -/
theorem Views.set (h : Views f w a x) {i : ℕ} (hi : i < x.length / w) {item : List Byte}
    (hitem : item.length = w) :
    ∃ a', arSet a i (some item) = some a' ∧ Views f w a' (splice x (i * w) item) := by
  obtain ⟨hcontents, hfile, helement, hsize, hfull⟩ := h
  have hle : i * w + item.length ≤ x.length := by
    rw [hitem]
    exact mul_add_le_of_lt_div hi
  have hlen := length_splice hle
  rw [arSet, if_neg (hsize ▸ not_outside hi), helement, Int.toNat_natCast, Option.map_some]
  cases hstore : a.store with
  | memory data =>
    rw [hstore] at hcontents
    obtain rfl : data = x := hcontents
    exact ⟨_, rfl, rfl, by rw [← hfile, hstore]; rfl, rfl, by rw [hlen]; exact hsize, by rw [hlen]; exact hfull⟩
  | file state =>
    rw [hstore] at hcontents
    refine ⟨_, rfl, ?_, by rw [← hfile, hstore]; rfl, rfl, by rw [hlen]; exact hsize, by rw [hlen]; exact hfull⟩
    rw [← writeAt_of_le hle, ← hcontents]
    rfl

/-- **Swapping two elements** is exchanging two blocks of the bytes. -/
theorem Views.swap (h : Views f w a x) {i j : ℕ} (hi : i < x.length / w) (hj : j < x.length / w) :
    ∃ a' m, arSwap a i j = some a' ∧ exchange (⟨x⟩ : Overlay Byte w) i j = some m ∧
      Views f w a' m.flat ∧
      m.flat.length = x.length := by
  have hleni : (slice x (i * w) w).length = w := length_slice (mul_add_le_of_lt_div hi)
  have hlenj : (slice x (j * w) w).length = w := length_slice (mul_add_le_of_lt_div hj)
  obtain ⟨a₁, hget₁, h₁⟩ := h.get hi
  obtain ⟨a₂, hget₂, h₂⟩ := h₁.get hj
  obtain ⟨a₃, hset₁, h₃⟩ := h₂.set hi hlenj
  have hlen : (splice x (i * w) (slice x (j * w) w)).length = x.length :=
    length_splice (by rw [hlenj]; exact mul_add_le_of_lt_div hi)
  have hj' : j < (splice x (i * w) (slice x (j * w) w)).length / w := by rwa [hlen]
  obtain ⟨a₄, hset₂, h₄⟩ := h₃.set hj' hleni
  refine ⟨a₄, ⟨splice (splice x (i * w) (slice x (j * w) w)) (j * w) (slice x (i * w) w)⟩, ?_, ?_, h₄, ?_⟩
  · simp only [arSwap, hget₁, hget₂, hset₁, Option.bind_eq_bind, Option.bind_some, hset₂]
  · simp only [exchange, Indexed.get, Indexed.set, dif_pos hi, dif_pos hj, Option.bind_some, if_pos hi,
      blockAt, if_pos hj']
  · exact (length_splice (by rw [hleni]; exact mul_add_le_of_lt_div hj')).trans hlen

/-- Swapping an element with one that is outside is undefined. -/
theorem Views.swap_none (h : Views f w a x) {i : ℕ} (hi : i < x.length / w) {j : ℤ}
    (hj : j < 0 ∨ (x.length / w : ℕ) ≤ j) : arSwap a i j = none := by
  obtain ⟨a₁, hget₁, h₁⟩ := h.get hi
  have hset : arSet a₁ i none = none := by
    rw [arSet, if_neg (h₁.size ▸ not_outside hi), Option.map_none]
  simp only [arSwap, hget₁, h₁.get_none hj, hset, Option.bind_eq_bind, Option.bind_none]

/-- The elements of the bytes, read as values, are those of the array. -/
theorem Views.getV {τ : Type} [Layout τ] (h : Views f (Layout.sizeof τ) a x) {i : ℕ}
    (hi : i < x.length / Layout.sizeof τ) :
    ∃ a', arGetV τ a i = some (Layout.ofBytes (blockAt (Layout.sizeof τ) x i hi), a') ∧
      Views f (Layout.sizeof τ) a' x := by
  have hlen : (slice x (i * Layout.sizeof τ) (Layout.sizeof τ)).length = Layout.sizeof τ :=
    length_slice (mul_add_le_of_lt_div hi)
  have htake : (slice x (i * Layout.sizeof τ) (Layout.sizeof τ)).take (Layout.sizeof τ) =
      slice x (i * Layout.sizeof τ) (Layout.sizeof τ) := List.take_of_length_le hlen.le
  obtain ⟨a', hget, h'⟩ := h.get hi
  refine ⟨a', ?_, h'⟩
  simp only [arGetV, hget, Option.bind_some, htake, dif_pos hlen, blockAt]

/-- **The dump of all the elements** of an array in memory leaves out the bytes after
the last of them. -/
theorem Views.ndump (h : Views false w a x) (hx : x.length < 2 ^ 64) :
    arNdump a a.fullSize 0 a.size = some (true, x.take (x.length / w * w), a) := by
  obtain ⟨hcontents, hfile, helement, hsize, hfull⟩ := h
  have hle : x.length / w * w ≤ x.length := Nat.div_mul_le_self _ _
  have hdiv : x.length / w ≤ x.length := Nat.div_le_self _ _
  rw [arNdump]
  cases hstore : a.store with
  | memory data =>
    rw [hstore] at hcontents
    obtain rfl : data = x := hcontents
    have hmin : (if data.length / w * w < data.length then data.length / w * w else data.length) =
        data.length / w * w := by
      split_ifs <;> omega
    simp only [arMemoryDump, hsize, helement, hfull, Nat.zero_add, Nat.mod_eq_of_lt (hdiv.trans_lt hx),
      Nat.mod_eq_of_lt (hle.trans_lt hx), gt_iff_lt, lt_irrefl, if_false, hmin, slice, Nat.zero_mul, Nat.zero_mod,
      if_pos hle, List.drop_zero, decide_true, Option.map_some]
  | file state =>
    rw [hstore] at hfile
    cases hfile

end Shuffle3.V1
