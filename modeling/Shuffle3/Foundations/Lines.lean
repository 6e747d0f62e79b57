import Shuffle3.Foundations.Bytes

/-!
# Lines and C strings

Cells of memory, some of them not initialised, the C strings that lie in them, and
`fgets`, which reads up to the end of a line into them.

## What is proved

* `cstring_append` — the string that ends at the first zero.
* `Line.eof_iff` — when reading a line meets the end of the input.
* `fgets_spec` — what is read is put behind what is there, as one string.

## Honest scope

A call that reads nothing at the end of the input leaves the cells as they are, as the
standard has it.
-/

namespace Shuffle3.Foundations

/-! ### Strings -/

/-- The C string from the first cell on. It is not defined where a cell is not
initialised, or where no cell is zero. -/
def cstring : List (Option Byte) → Option (List Byte)
  | [] => none
  | none :: _ => none
  | some c :: cs => if c = 0#8 then some [] else (cstring cs).map (c :: ·)

theorem cstring_append {b : List Byte} (hb : 0#8 ∉ b) (cs : List (Option Byte)) :
    cstring (b.map some ++ some 0#8 :: cs) = some b := by
  induction b with
  | nil => rfl
  | cons c b ih =>
    rw [List.mem_cons, not_or] at hb
    rw [List.map_cons, List.cons_append, cstring, if_neg (Ne.symm hb.1), ih hb.2, Option.map_some]

/-! ### Lines -/

/-- The end of a line. -/
def newline : Byte := 10#8

/-- What is read of an input, what is left, and whether its end was met. -/
structure Line where
  bytes : List Byte
  rest : List Byte
  eof : Bool

/-- At most `m` bytes, and none after the end of a line. -/
def readLine : ℕ → List Byte → Line
  | 0, x => ⟨[], x, false⟩
  | _ + 1, [] => ⟨[], [], true⟩
  | m + 1, c :: x =>
    if c = newline then ⟨[c], x, false⟩
    else ⟨c :: (readLine m x).bytes, (readLine m x).rest, (readLine m x).eof⟩

namespace Line

variable {m : ℕ} {x : List Byte}

/-- What is read and what is left are the input. -/
theorem bytes_append_rest (m : ℕ) (x : List Byte) :
    (readLine m x).bytes ++ (readLine m x).rest = x := by
  induction m generalizing x with
  | zero => rfl
  | succ m ih =>
    cases x with
    | nil => rfl
    | cons c x =>
      rw [readLine]
      split_ifs
      · rfl
      · exact congrArg (c :: ·) (ih x)

theorem mem_of_mem_bytes {c : Byte} (h : c ∈ (readLine m x).bytes) : c ∈ x :=
  bytes_append_rest m x ▸ List.mem_append_left _ h

theorem mem_of_mem_rest {c : Byte} (h : c ∈ (readLine m x).rest) : c ∈ x :=
  bytes_append_rest m x ▸ List.mem_append_right _ h

theorem length_bytes_le (m : ℕ) (x : List Byte) : (readLine m x).bytes.length ≤ m := by
  induction m generalizing x with
  | zero => exact le_rfl
  | succ m ih =>
    cases x with
    | nil => exact Nat.zero_le _
    | cons c x =>
      rw [readLine]
      split_ifs
      · exact Nat.le_add_left 1 m
      · exact Nat.succ_le_succ (ih x)

/-- **The end of the input is met** when no line ends in it and it has fewer than `m` bytes. -/
theorem eof_iff : (readLine m x).eof = true ↔ newline ∉ x ∧ x.length < m := by
  induction m generalizing x with
  | zero => simp [readLine]
  | succ m ih =>
    cases x with
    | nil => simp [readLine]
    | cons c x =>
      rw [readLine]
      split_ifs with hc
      · simp [hc]
      · rw [ih, List.mem_cons, not_or, List.length_cons, Nat.succ_lt_succ_iff, and_iff_right (Ne.symm hc)]

theorem rest_of_eof (h : (readLine m x).eof = true) : (readLine m x).rest = [] := by
  induction m generalizing x with
  | zero => cases h
  | succ m ih =>
    cases x with
    | nil => rfl
    | cons c x =>
      rw [readLine] at h ⊢
      split_ifs at h ⊢
      exact ih h

/-- Where the end is not met, something is read. -/
theorem bytes_ne_nil (hm : 0 < m) (h : (readLine m x).eof ≠ true) : (readLine m x).bytes ≠ [] := by
  cases m with
  | zero => exact absurd hm (Nat.lt_irrefl 0)
  | succ m =>
    cases x with
    | nil => exact absurd rfl h
    | cons c x =>
      rw [readLine]
      split_ifs <;> exact List.cons_ne_nil _ _

end Line

/-! ### Reading into cells -/

/-- `fgets`, with room for `n` cells from cell `p`: the cells, what is left of the input,
and whether its end was met. -/
def fgets (cells : List (Option Byte)) (p n : ℕ) (x : List Byte) :
    List (Option Byte) × List Byte × Bool :=
  let line := readLine (n - 1) x
  if line.bytes = [] ∧ line.eof = true then (cells, line.rest, line.eof)
  else (splice cells p (line.bytes.map some ++ [some 0#8]), line.rest, line.eof)

/-- **What is read is put behind the string** that is there. -/
theorem fgets_spec {cells tail : List (Option Byte)} {y x : List Byte} {n : ℕ}
    (hcells : cells = y.map some ++ some 0#8 :: tail) (hn : 0 < n)
    (hlen : y.length + n ≤ cells.length) :
    ∃ cells' tail', fgets cells y.length n x =
      (cells', (readLine (n - 1) x).rest, (readLine (n - 1) x).eof) ∧
      cells' = (y ++ (readLine (n - 1) x).bytes).map some ++ some 0#8 :: tail' ∧
      cells'.length = cells.length := by
  simp only [fgets]
  split_ifs with hnone
  · exact ⟨cells, tail, rfl, by rw [hnone.1, List.append_nil, hcells], rfl⟩
  · have hle := Line.length_bytes_le (n - 1) x
    refine ⟨_, cells.drop (y.length + ((readLine (n - 1) x).bytes.length + 1)), rfl, ?_, ?_⟩
    · have htake : cells.take y.length = y.map some := by
        rw [hcells]
        exact List.take_left' (List.length_map _)
      simp only [splice, htake, List.length_append, List.length_map, List.length_singleton, List.map_append,
        List.append_assoc, List.singleton_append]
    · refine length_splice ?_
      rw [List.length_append, List.length_map, List.length_singleton]
      omega

end Shuffle3.Foundations
