import Shuffle3.Foundations.Ownership

/-!
# Who closes a backing store

The classes of the second version that own an opened file or a mapping, seen as
objects that own resources: their constructors, their move constructors, and what
their destructors close. A `file_back_buffer` that is moved from keeps a null
pointer, which its destructor dereferences; a `mm::mmap` keeps one that its
destructor tests.

## What is proved

* `released_iff_no_buffer_moved` — when every store is closed once, by its last owner.
* `not_released_moved` — a move of one buffer, and the two destructors.

## Honest scope

The members that own nothing that has to be closed are left out where no
constructor reads them, and the temporary files, whose destructor tests for a name.
A constructor that fails panics, so the ones here succeed. A `shunt` makes its own
store only over a `file_vector`: the default constructor of a `mapped_vector` panics.
-/

namespace Shuffle3.V2.BackingStores

open Foundations.Ownership

/-! ### Buffers on files -/

/-- `file_back_buffer::impl`, with the `fvec_t` that it has opened. -/
structure Impl where
  cap : ℕ
  backing : ℕ
  deriving DecidableEq

/-- `file_back_buffer`: `inner` is a `unique_ptr`. -/
structure FileBackBuffer where
  inner : Option Impl
  deriving DecidableEq

/-- `DEFAULT_CAP`. -/
def defaultCap : ℕ := 1024

namespace FileBackBuffer

/-- `file_back_buffer(cap)`. -/
def construct (cap r : ℕ) : FileBackBuffer := ⟨some ⟨cap, r⟩⟩

/-- `file_back_buffer(file_back_buffer&&)`: the new object, and the other one after. -/
def move (m : FileBackBuffer) : FileBackBuffer × FileBackBuffer := (⟨m.inner⟩, ⟨none⟩)

/-- `~file_back_buffer()` closes `inner->backing`. -/
def destroy (m : FileBackBuffer) : Option (List ℕ) := m.inner.map fun i => [i.backing]

end FileBackBuffer

/-- `file_vector<T>`. -/
structure FileVector where
  inserter : FileBackBuffer
  len : ℕ
  deriving DecidableEq

namespace FileVector

/-- `file_vector(cap)`. -/
def construct (cap r : ℕ) : FileVector := ⟨.construct cap r, 0⟩

/-- `file_vector(file_vector&&)`. -/
def move (m : FileVector) : FileVector × FileVector :=
  let (inserter, left) := m.inserter.move
  (⟨inserter, m.len⟩, ⟨left, m.len⟩)

/-- `~file_vector()`, which the compiler writes. -/
def destroy (m : FileVector) : Option (List ℕ) := m.inserter.destroy

end FileVector

/-- `fixed_spill_vector<T, Spill>`. -/
structure FixedSpillVector where
  memFillPtr : ℤ
  fil : FileVector
  deriving DecidableEq

namespace FixedSpillVector

/-- `fixed_spill_vector()`. -/
def construct (r : ℕ) : FixedSpillVector := ⟨-1, .construct defaultCap r⟩

/-- `fixed_spill_vector(fixed_spill_vector&&)`. -/
def move (m : FixedSpillVector) : FixedSpillVector × FixedSpillVector :=
  let (fil, left) := m.fil.move
  (⟨m.memFillPtr, fil⟩, ⟨m.memFillPtr, left⟩)

/-- `~fixed_spill_vector()`, the default. -/
def destroy (m : FixedSpillVector) : Option (List ℕ) := m.fil.destroy

end FixedSpillVector

/-! ### Mappings -/

/-- `mm::mmap`, whose `ptr` is null or leads to a mapping. -/
structure Mmap where
  fd : ℤ
  ptr : Option ℕ
  len : ℕ
  deriving DecidableEq

namespace Mmap

/-- `mmap(raw)`, and the constructors that make the mapping themselves. -/
def construct (fd : ℤ) (len r : ℕ) : Mmap := ⟨fd, some r, len⟩

/-- `mmap(mmap&&)`. -/
def move (m : Mmap) : Mmap × Mmap := (m, { m with ptr := none })

/-- `~mmap()`. -/
def destroy (m : Mmap) : Option (List ℕ) :=
  match m.ptr with
  | some r => some [r]
  | none => some []

end Mmap

/-- `mapped_vector<T>`. -/
structure MappedVector where
  sz : ℕ
  fillPtr : ℤ
  map : Mmap
  deriving DecidableEq

namespace MappedVector

/-- `mapped_vector(file, sz)`, with elements of `w` bytes. -/
def construct (w sz : ℕ) (fd : ℤ) (r : ℕ) : MappedVector := ⟨sz, -1, .construct fd (sz * w) r⟩

/-- `mapped_vector(mapped_vector&&)`. -/
def move (m : MappedVector) : MappedVector × MappedVector :=
  let (map, left) := m.map.move
  (⟨m.sz, m.fillPtr, map⟩, ⟨m.sz, m.fillPtr, left⟩)

/-- `~mapped_vector()`, which the compiler writes. -/
def destroy (m : MappedVector) : Option (List ℕ) := m.map.destroy

end MappedVector

/-- `shunt<T, Shunt>`: `fil` is a `unique_ptr`. -/
structure Shunt (ι : Type) where
  spillAt : ℕ
  fil : Option ι
  deriving DecidableEq

namespace Shunt

variable {ι : Type}

/-- `shunt(cap, spill)`. -/
def construct (spill : ℕ) : Shunt ι := ⟨spill, none⟩

/-- `shunt(cap, spill, into)`, which moves `into`. -/
def given (spill : ℕ) (into : ι × ι) : Shunt ι × ι := (⟨spill, some into.1⟩, into.2)

/-- `shunt(shunt&&)`. -/
def move (m : Shunt ι) : Shunt ι × Shunt ι := (m, { m with fil := none })

/-- `~shunt()`, which the compiler writes. -/
def destroy (store : ι → Option (List ℕ)) (m : Shunt ι) : Option (List ℕ) :=
  match m.fil with
  | some v => store v
  | none => some []

end Shunt

/-! ### All the classes -/

/-- An object of one of the classes. -/
inductive Object where
  | fileBackBuffer (m : FileBackBuffer)
  | fileVector (m : FileVector)
  | fixedSpillVector (m : FixedSpillVector)
  | mmap (m : Mmap)
  | mappedVector (m : MappedVector)
  | dynamicSpillVector (m : Shunt FileVector)
  | mappedSpillVector (m : Shunt MappedVector)
  deriving DecidableEq

/-- A constructor that takes from no other object. -/
inductive Constructor where
  | fileBackBuffer (cap : ℕ)
  | fileVector (cap : ℕ)
  | fixedSpillVector
  | mmap (fd : ℤ) (len : ℕ)
  | mappedVector (w sz : ℕ) (fd : ℤ)
  | dynamicSpillVector (spill : ℕ)
  | mappedSpillVector (spill : ℕ)
  deriving DecidableEq

/-- A constructor that takes from another object. -/
inductive Transfer where
  /-- The move constructor of the object's class. -/
  | move
  /-- The constructor of a `shunt` from its store. -/
  | shunt (spill : ℕ)
  deriving DecidableEq

/-- Whether a constructor opens a file or makes a mapping. -/
def opens : Constructor → Bool
  | .dynamicSpillVector _ | .mappedSpillVector _ => false
  | _ => true

def construct : Constructor → ℕ → Object
  | .fileBackBuffer cap, r => .fileBackBuffer (.construct cap r)
  | .fileVector cap, r => .fileVector (.construct cap r)
  | .fixedSpillVector, r => .fixedSpillVector (.construct r)
  | .mmap fd len, r => .mmap (.construct fd len r)
  | .mappedVector w sz fd, r => .mappedVector (.construct w sz fd r)
  | .dynamicSpillVector spill, _ => .dynamicSpillVector (.construct spill)
  | .mappedSpillVector spill, _ => .mappedSpillVector (.construct spill)

def take : Transfer → Object → Option (Object × Object)
  | .move, .fileBackBuffer m => some (m.move.map .fileBackBuffer .fileBackBuffer)
  | .move, .fileVector m => some (m.move.map .fileVector .fileVector)
  | .move, .fixedSpillVector m => some (m.move.map .fixedSpillVector .fixedSpillVector)
  | .move, .mmap m => some (m.move.map .mmap .mmap)
  | .move, .mappedVector m => some (m.move.map .mappedVector .mappedVector)
  | .move, .dynamicSpillVector m => some (m.move.map .dynamicSpillVector .dynamicSpillVector)
  | .move, .mappedSpillVector m => some (m.move.map .mappedSpillVector .mappedSpillVector)
  | .shunt spill, .fileVector m => some ((Shunt.given spill m.move).map .dynamicSpillVector .fileVector)
  | .shunt spill, .mappedVector m => some ((Shunt.given spill m.move).map .mappedSpillVector .mappedVector)
  | .shunt _, _ => none

/-- `spl()` of a full `shunt` without a store makes one. -/
def acquire : Object → ℕ → Option Object
  | .dynamicSpillVector ⟨spill, none⟩, r => some (.dynamicSpillVector ⟨spill, some (.construct defaultCap r)⟩)
  | _, _ => none

def destroy : Object → Option (List ℕ)
  | .fileBackBuffer m => m.destroy
  | .fileVector m => m.destroy
  | .fixedSpillVector m => m.destroy
  | .mmap m => m.destroy
  | .mappedVector m => m.destroy
  | .dynamicSpillVector m => m.destroy FileVector.destroy
  | .mappedSpillVector m => m.destroy MappedVector.destroy

/-- The classes. -/
def classes : Classes Object Constructor Transfer := ⟨opens, construct, take, acquire, destroy⟩

/-! ### What a transfer leaves -/

/-- The object has a `file_back_buffer` in it, which goes with it when it is moved. -/
def Object.holdsBuffer : Object → Bool
  | .fileBackBuffer _ | .fileVector _ | .fixedSpillVector _ => true
  | _ => false

/-- A transfer from an object with no buffer in it. -/
def Clean (_ : Transfer) (o : Object) : Prop := o.holdsBuffer = false

/-- The mappings, and the stores that a `shunt` keeps, recognise that they are empty. -/
theorem keeps : Keeps classes Clean where
  construct k r := by cases k <;> rfl
  take := by
    intro m o new left rs hclean ht hd
    cases o with
    | fileBackBuffer o => cases hclean
    | fileVector o => cases hclean
    | fixedSpillVector o => cases hclean
    | mmap o =>
      cases m with
      | move => cases ht; exact ⟨hd, rfl⟩
      | shunt spill => cases ht
    | mappedVector o =>
      cases m with
      | move => cases ht; exact ⟨hd, rfl⟩
      | shunt spill => cases ht; exact ⟨hd, rfl⟩
    | dynamicSpillVector o =>
      cases m with
      | move => cases ht; exact ⟨hd, rfl⟩
      | shunt spill => cases ht
    | mappedSpillVector o =>
      cases m with
      | move => cases ht; exact ⟨hd, rfl⟩
      | shunt spill => cases ht
  acquire := by
    intro o o' r rs ha hd
    cases o with
    | dynamicSpillVector m =>
      obtain ⟨spill, fil⟩ := m
      cases fil with
      | none => cases ha; cases hd; rfl
      | some v => cases ha
    | fileBackBuffer _ | fileVector _ | fixedSpillVector _ | mmap _ | mappedVector _ | mappedSpillVector _ =>
      cases ha

theorem Mmap.destroy_ne_none (m : Mmap) : m.destroy ≠ none := by
  unfold Mmap.destroy
  split <;> exact Option.some_ne_none _

/-- A destructor that dereferences a null pointer is that of a buffer, or of a `shunt` over one. -/
theorem spoiled_cases {o : Object} (h : classes.destroy o = none) : o.holdsBuffer ∨
    ∃ spill v, o = .dynamicSpillVector ⟨spill, some v⟩ := by
  cases o with
  | fileBackBuffer m => exact .inl rfl
  | fileVector m => exact .inl rfl
  | fixedSpillVector m => exact .inl rfl
  | mmap m => exact absurd h m.destroy_ne_none
  | mappedVector m => exact absurd h m.map.destroy_ne_none
  | dynamicSpillVector m =>
    obtain ⟨spill, fil⟩ := m
    cases fil with
    | none => cases h
    | some v => exact .inr ⟨spill, v, rfl⟩
  | mappedSpillVector m =>
    obtain ⟨spill, fil⟩ := m
    cases fil with
    | none => cases h
    | some v => exact absurd h v.map.destroy_ne_none

/-- A buffer that is moved from does not. -/
theorem destroy_left {m : Transfer} {o new left : Object} (ho : o.holdsBuffer)
    (ht : classes.take m o = some (new, left)) : classes.destroy left = none := by
  cases o with
  | fileBackBuffer o =>
    cases m with
    | move => cases ht; rfl
    | shunt spill => cases ht
  | fileVector o =>
    cases m with
    | move => cases ht; rfl
    | shunt spill => cases ht; rfl
  | fixedSpillVector o =>
    cases m with
    | move => cases ht; rfl
    | shunt spill => cases ht
  | mmap _ | mappedVector _ | dynamicSpillVector _ | mappedSpillVector _ => cases ho

theorem spoils : Spoils classes Clean where
  take hclean ht := destroy_left (by simpa [Clean] using hclean) ht
  take_spoiled := by
    intro m o new left ht hd
    rcases spoiled_cases hd with ho | ⟨spill, v, rfl⟩
    · exact .inr (destroy_left ho ht)
    · -- the new `shunt` has the store
      cases m with
      | move => cases ht; exact .inl hd
      | shunt spill => cases ht
  acquire := by
    intro o o' r ha hd
    rcases spoiled_cases hd with ho | ⟨spill, v, rfl⟩
    · cases o with
      | fileBackBuffer _ | fileVector _ | fixedSpillVector _ => cases ha
      | mmap _ | mappedVector _ | dynamicSpillVector _ | mappedSpillVector _ => cases ho
    · cases ha

/-! ### Runs -/

/-- No `file_back_buffer`, and no vector with one in it, is moved from. -/
def NoBufferMoved (as : List (Action Constructor Transfer)) : Prop :=
  TakesClean classes Clean start as

/-- **Every store is closed once, by the object that owns it last, and no destructor
dereferences a null pointer, exactly when no buffer is moved from**, in every run that
destroys every object. -/
theorem released_iff_no_buffer_moved {as : List (Action Constructor Transfer)} {s : State Object}
    (hrun : run classes start as = some s) (hs : s.Complete) : s.Released ↔ NoBufferMoved as :=
  released_iff keeps spoils hrun hs

/-- A vector on a mapping becomes the store of a `shunt`, which is moved. -/
theorem released_iff_no_buffer_moved_mapping :
    ∃ s : State Object, s.closed = [(2, 0)] ∧ (s.Released ↔ NoBufferMoved [.construct (.mappedVector 8 16 3),
      .take (.shunt 4) 0, .take .move 1, .destroy 0, .destroy 1, .destroy 2]) :=
  ⟨_, rfl, released_iff_no_buffer_moved rfl (by decide)⟩

/-- One buffer is moved, and both are destroyed. -/
theorem not_released_moved : ¬ ∀ s, run classes start
    [.construct (.fileBackBuffer defaultCap), .take .move 0, .destroy 0, .destroy 1] = some s →
    s.Complete → s.Released := by
  intro h
  have hderefs := (h _ rfl (by decide)).1
  cases hderefs

end Shuffle3.V2.BackingStores
