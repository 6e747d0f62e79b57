import Shuffle3.Foundations.Bytes

/-!
# Streams on files

A stream as the C library has it on a regular file: the bytes of the file, a
position, and a buffer of bytes that have been written to the stream and not yet
to the file. Seeking writes the buffer out; cutting the file through its
descriptor passes the stream by.

## What is proved

* `Stream.flush_of_nil`, `Stream.flush_of_end` — what writing the buffer out does
  when there is nothing in it, and at the end of the file.
* `Stream.fread_fseekEnd` — the last bytes are read from the end.

## Honest scope

Every call succeeds that the arguments allow. The buffer has no size limit: it is
written out when the stream is repositioned or closed, and not before.
-/

namespace Shuffle3.Foundations

/-- The file with `b` written from position `p`. A gap before it is filled with zeros. -/
def writeAt (file : List Byte) (p : ℕ) (b : List Byte) : List Byte :=
  if b = [] then file else splice (file ++ List.replicate (p - file.length) 0#8) p b

@[simp] theorem writeAt_nil (file : List Byte) (p : ℕ) : writeAt file p [] = file := rfl

/-- At the end of the file the buffer is added to it. -/
theorem writeAt_length (file b : List Byte) : writeAt file file.length b = file ++ b := by
  unfold writeAt
  split_ifs with hb
  · rw [hb, List.append_nil]
  · rw [Nat.sub_self, List.replicate_zero, List.append_nil, splice, List.take_length,
      List.drop_eq_nil_of_le (Nat.le_add_right _ _), List.append_nil]

/-- Within the file a write of as many bytes replaces them. -/
theorem writeAt_of_le {file b : List Byte} {p : ℕ} (h : p + b.length ≤ file.length) :
    writeAt file p b = splice file p b := by
  unfold writeAt
  split_ifs with hb
  · rw [hb, splice, List.length_nil, Nat.add_zero, List.append_nil, List.take_append_drop]
  · rw [Nat.sub_eq_zero_of_le (by omega), List.replicate_zero, List.append_nil]

/-- A write reaches as far as its last byte. -/
theorem le_length_writeAt_end (file : List Byte) (p : ℕ) {b : List Byte} (hb : b ≠ []) :
    p + b.length ≤ (writeAt file p b).length := by
  rw [writeAt, if_neg hb]
  simp only [splice, List.length_append, List.length_take, List.length_drop, List.length_replicate]
  omega

/-- The file is at least as long after a write. -/
theorem le_length_writeAt (file : List Byte) (p : ℕ) (b : List Byte) :
    file.length ≤ (writeAt file p b).length := by
  unfold writeAt
  split_ifs
  · exact le_rfl
  · simp only [splice, List.length_append, List.length_take, List.length_drop, List.length_replicate]
    omega

/-- A stream on a file. -/
@[ext]
structure Stream where
  /-- The bytes of the file. -/
  file : List Byte
  /-- The position from which the buffer will be written, or the next byte read. -/
  pos : ℕ
  /-- Bytes written to the stream and not yet to the file. -/
  pending : List Byte
  deriving DecidableEq

namespace Stream

/-- A stream just opened on a file. -/
def opened (file : List Byte) : Stream := ⟨file, 0, []⟩

/-- Write the buffer out. -/
def flush (s : Stream) : Stream := ⟨writeAt s.file s.pos s.pending, s.pos + s.pending.length, []⟩

/-- `fwrite`. -/
def fwrite (s : Stream) (b : List Byte) : Stream := { s with pending := s.pending ++ b }

/-- `fseek(p, SEEK_SET)`. -/
def fseekSet (s : Stream) (p : ℕ) : Stream := { s.flush with pos := p }

/-- `fseek(-k, SEEK_END)`. It fails before the start of the file. -/
def fseekEnd (s : Stream) (k : ℕ) : Option Stream :=
  if k ≤ s.flush.file.length then some { s.flush with pos := s.flush.file.length - k } else none

/-- `fread` of `n` bytes, or as many as there are. -/
def fread (s : Stream) (n : ℕ) : List Byte × Stream :=
  let b := slice s.file s.pos n
  (b, { s with pos := s.pos + b.length })

/-- `ftruncate` through the descriptor. -/
def ftruncate (s : Stream) (n : ℕ) : Stream :=
  { s with file := s.file.take n ++ List.replicate (n - s.file.length) 0#8 }

/-- What is in the file after `fclose`. -/
def fclose (s : Stream) : List Byte := s.flush.file

@[simp] theorem pending_flush (s : Stream) : s.flush.pending = [] := rfl

/-- With nothing in the buffer there is nothing to write out. -/
theorem flush_of_nil {s : Stream} (h : s.pending = []) : s.flush = s := by
  rw [flush, h, writeAt_nil]
  exact Stream.ext rfl rfl h.symm

theorem flush_of_end {s : Stream} (h : s.pos = s.file.length) :
    s.flush = ⟨s.file ++ s.pending, (s.file ++ s.pending).length, []⟩ := by
  rw [flush, h, writeAt_length, List.length_append]

/-- **The last bytes of the file are read from the end.** -/
theorem fread_fseekEnd {s : Stream} {x b : List Byte} (h : s.flush.file = x ++ b) :
    ∃ t, s.fseekEnd b.length = some t ∧
      t.fread b.length = (b, ⟨x ++ b, (x ++ b).length, []⟩) := by
  have hle : b.length ≤ s.flush.file.length := by rw [h, List.length_append]; omega
  refine ⟨_, if_pos hle, ?_⟩
  have hslice : slice (x ++ b) x.length b.length = b := by simpa using slice_append x b []
  simp only [fread, h, List.length_append, pending_flush, Nat.add_sub_cancel, hslice]

end Stream

end Shuffle3.Foundations
