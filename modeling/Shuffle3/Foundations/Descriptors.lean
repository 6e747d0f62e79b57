import Mathlib.Logic.Function.Basic
import Shuffle3.Foundations.Bytes

/-!
# Open files

A process has a table of descriptors, each of them free or open on a file, and
mappings of files. The calls below are those that open, measure, cut, map and close.
A call that opens takes the lowest free descriptor. Each call that can fail is given
whether it does, and a call that fails changes nothing.

## What is proved

* `State.Installed.descriptors_close` — closing the descriptor just opened leaves the
  table as it was.
* `resize_eq_self_iff` — when cutting a file changes nothing.

## Honest scope

The mode that a file is opened in, and the place where it is read, are left out. The
address of a mapping is chosen outside.
-/

namespace Shuffle3.Foundations.Descriptors

/-- A mapping of a file into memory. -/
structure Mapping where
  addr : ℕ
  len : ℕ
  file : ℕ
  isWritable : Bool
  isPrivate : Bool
  deriving DecidableEq

/-- What a process and its files are. -/
structure State where
  /-- The file that a name stands for. -/
  names : String → Option ℕ
  /-- The bytes of each file. -/
  files : ℕ → List Byte
  /-- The number that the next new file gets. -/
  next : ℕ
  /-- The file that each descriptor is open on. -/
  descriptors : List (Option ℕ)
  mappings : List Mapping

/-- A file cut to `n` bytes, or continued with zeros. -/
def resize (n : ℕ) (b : List Byte) : List Byte := b.take n ++ List.replicate (n - b.length) 0#8

@[simp] theorem length_resize (n : ℕ) (b : List Byte) : (resize n b).length = n := by
  simp only [resize, List.length_append, List.length_take, List.length_replicate]
  omega

/-- Only the length that it has leaves a file as it is. -/
theorem resize_eq_self_iff {n : ℕ} {b : List Byte} : resize n b = b ↔ n = b.length := by
  constructor
  · intro h
    rw [← h, length_resize]
  · rintro rfl
    rw [resize, List.take_length, Nat.sub_self, List.replicate_zero, List.append_nil]

namespace State

variable {s t : State} {fd : ℤ} {i : ℕ}

/-- The file that a descriptor is open on. -/
def file (s : State) : ℤ → Option ℕ
  | .ofNat fd => s.descriptors[fd]?.join
  | .negSucc _ => none

/-- A descriptor for a file. -/
def install (s : State) (i : ℕ) : Option (ℤ × State) :=
  (s.descriptors.findIdx? Option.isNone).map fun (fd : ℕ) =>
    (fd, { s with descriptors := s.descriptors.set fd (some i) })

/-- `open`, of a file that exists. -/
def openFile (s : State) (name : String) (succeeds : Bool) : Option (ℤ × State) :=
  if succeeds then (s.names name).bind s.install else none

/-- A new file, which is empty. -/
def create (s : State) (name : String) : State :=
  { s with
    names := Function.update s.names name (some s.next)
    files := Function.update s.files s.next []
    next := s.next + 1 }

/-- `open` with `O_CREAT`. -/
def openCreate (s : State) (name : String) (succeeds : Bool) : Option (ℤ × State) :=
  if succeeds then
    match s.names name with
    | some i => s.install i
    | none => (s.create name).install s.next
  else none

/-- `dup`. -/
def dup (s : State) (fd : ℤ) (succeeds : Bool) : Option (ℤ × State) :=
  if succeeds then (s.file fd).bind s.install else none

/-- `close`. -/
def close (s : State) : ℤ → State
  | .ofNat fd => { s with descriptors := s.descriptors.set fd none }
  | .negSucc _ => s

/-- `fstat`: the length of the file. -/
def fstat (s : State) (fd : ℤ) (succeeds : Bool) : Option ℕ :=
  if succeeds then (s.file fd).map fun i => (s.files i).length else none

/-- One file cut or continued to `n` bytes. -/
def setLength (s : State) (i n : ℕ) : State :=
  { s with files := Function.update s.files i (resize n (s.files i)) }

/-- `ftruncate`. -/
def ftruncate (s : State) (fd : ℤ) (n : ℕ) (succeeds : Bool) : Option State :=
  if succeeds then (s.file fd).map fun i => s.setLength i n else none

/-- `mmap`, at the address chosen. -/
def mmap (s : State) (fd : ℤ) (len : ℕ) (isWritable isPrivate : Bool) (addr : Option ℕ) :
    Option (ℕ × State) :=
  addr.bind fun p => (s.file fd).map fun i =>
    (p, { s with mappings := s.mappings ++ [⟨p, len, i, isWritable, isPrivate⟩] })

@[simp] theorem file_setLength (s : State) (i n : ℕ) : (s.setLength i n).file = s.file := by
  funext fd
  cases fd <;> rfl

@[simp] theorem files_close (s : State) (fd : ℤ) : (s.close fd).files = s.files := by
  cases fd <;> rfl

@[simp] theorem names_close (s : State) (fd : ℤ) : (s.close fd).names = s.names := by
  cases fd <;> rfl

@[simp] theorem mappings_close (s : State) (fd : ℤ) : (s.close fd).mappings = s.mappings := by
  cases fd <;> rfl

/-- One free descriptor is open on a file in the new table, and nothing else differs. -/
def Adds (s : State) (i : ℕ) (fd : ℤ) (descriptors : List (Option ℕ)) : Prop :=
  ∃ n : ℕ, fd = n ∧ s.descriptors[n]? = some none ∧ descriptors = s.descriptors.set n (some i)

/-- What opening does: one descriptor is added. -/
structure Installed (s : State) (i : ℕ) (fd : ℤ) (t : State) : Prop where
  adds : s.Adds i fd t.descriptors
  files : t.files = s.files
  names : t.names = s.names
  mappings : t.mappings = s.mappings

theorem install_eq_some (h : s.install i = some (fd, t)) : s.Installed i fd t := by
  obtain ⟨n, hn, he⟩ := Option.map_eq_some_iff.mp h
  obtain ⟨hlt, hnone, -⟩ := List.findIdx?_eq_some_iff_getElem.mp hn
  cases he
  refine ⟨⟨n, rfl, ?_, rfl⟩, rfl, rfl, rfl⟩
  rw [List.getElem?_eq_getElem hlt, Option.isNone_iff_eq_none.mp hnone]

/-- **Closing the descriptor just opened** leaves the table as it was, whatever else
has happened between. -/
theorem Installed.descriptors_close (h : s.Installed i fd t) {u : State}
    (hu : u.descriptors = t.descriptors) :
    (u.close fd).descriptors = s.descriptors := by
  obtain ⟨n, rfl, hfree, hset⟩ := h.adds
  show u.descriptors.set n none = s.descriptors
  rw [hu, hset, List.set_set]
  obtain ⟨hlt, hget⟩ := List.getElem?_eq_some_iff.mp hfree
  rw [← hget, List.set_getElem_self hlt]

end State

end Shuffle3.Foundations.Descriptors
