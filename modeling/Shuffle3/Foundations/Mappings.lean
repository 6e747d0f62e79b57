import Shuffle3.Foundations.Descriptors

/-!
# Memory that is mapped

What a process reads and writes through a shared mapping, and how a mapping ends. The
first bytes of the file are what the mapping shows, and a store replaces them.

## What is proved

* `State.close_install` — opening a file and closing it leaves the whole state as it was.
* `State.load_withMapping`, `State.store_withMapping`, `State.munmap_withMapping` — a mapping
  of a whole file shows the file, a store of as many bytes is the file from then on, and
  unmapping ends what mapping began.

## Honest scope

Mappings are shared and writable. One is unmapped whole, and stays where it was placed.
-/

namespace Shuffle3.Foundations.Descriptors

namespace State

variable {s t : State} {fd : ℤ} {i n p : ℕ} {b : List Byte}

/-- The mapping that lies at an address. -/
def mappingAt (s : State) (p : ℕ) : Option Mapping := s.mappings.find? fun m => m.addr == p

/-- The `n` bytes read from an address. -/
def load (s : State) (p n : ℕ) : List Byte :=
  match s.mappingAt p with
  | some m => (s.files m.file).take n
  | none => []

/-- Bytes written to an address. -/
def store (s : State) (p : ℕ) (b : List Byte) : State :=
  match s.mappingAt p with
  | some m => { s with files := Function.update s.files m.file (b ++ (s.files m.file).drop b.length) }
  | none => s

/-- `munmap`. -/
def munmap (s : State) (p : ℕ) (succeeds : Bool) : Option State :=
  if succeeds then some { s with mappings := s.mappings.filter fun m => m.addr != p } else none

/-- A file of no bytes that has no name. -/
def createUnnamed (s : State) : State :=
  { s with files := Function.update s.files s.next [], next := s.next + 1 }

/-- `memfd_create`. -/
def memfdCreate (s : State) (succeeds : Bool) : Option (ℤ × State) :=
  if succeeds then s.createUnnamed.install s.next else none

/-- No mapping lies at an address. -/
def Unmapped (s : State) (p : ℕ) : Prop := ∀ m ∈ s.mappings, m.addr ≠ p

/-- The open descriptors and the mappings are as they were. -/
structure Kept (s t : State) : Prop where
  descriptors : t.descriptors = s.descriptors
  mappings : t.mappings = s.mappings

theorem Kept.refl (s : State) : Kept s s := ⟨rfl, rfl⟩

theorem Kept.trans {u : State} (h : Kept s t) (h' : Kept t u) : Kept s u :=
  ⟨h'.descriptors.trans h.descriptors, h'.mappings.trans h.mappings⟩

theorem Unmapped.kept (h : s.Unmapped p) (hk : Kept s t) : t.Unmapped p := by
  rw [Unmapped, hk.mappings]
  exact h

/-! ### Opening and closing -/

theorem close_eq_self {u : State} (h : u.descriptors.set n none = s.descriptors)
    (hu : u = { s with descriptors := u.descriptors }) : u.close n = s := by
  rw [hu] at h ⊢
  show { s with descriptors := _ } = s
  rw [h]

/-- **Opening a file and closing it** leaves the whole state as it was. -/
theorem close_install (h : s.install i = some (fd, t)) : t.close fd = s := by
  have hinstalled := install_eq_some h
  obtain ⟨n, hn, he⟩ := Option.map_eq_some_iff.mp h
  cases he
  exact close_eq_self (hinstalled.descriptors_close rfl) rfl

/-- The descriptor just opened is open on the file. -/
theorem file_install (h : s.install i = some (fd, t)) : t.file fd = some i := by
  obtain ⟨n, hn, he⟩ := Option.map_eq_some_iff.mp h
  obtain ⟨hlt, -, -⟩ := List.findIdx?_eq_some_iff_getElem.mp hn
  cases he
  show ((s.descriptors.set n (some i))[n]?).join = some i
  rw [List.getElem?_set_self hlt]
  rfl

/-- What opening leaves: one descriptor more, and all else as it was. -/
theorem install_eq (h : s.install i = some (fd, t)) :
    t = { s with descriptors := t.descriptors } := by
  obtain ⟨n, -, he⟩ := Option.map_eq_some_iff.mp h
  cases he
  rfl

theorem file_close_self : (s.close fd).file fd = none := by
  cases fd with
  | ofNat n =>
    show ((s.descriptors.set n none)[n]?).join = none
    rw [List.getElem?_set, if_pos rfl]
    split_ifs <;> rfl
  | negSucc n => rfl

theorem file_close_of_ne {fd' : ℤ} (h : fd' ≠ fd) : (s.close fd).file fd' = s.file fd' := by
  cases fd with
  | negSucc n => rfl
  | ofNat n =>
    cases fd' with
    | negSucc m => rfl
    | ofNat m =>
      show ((s.descriptors.set n none)[m]?).join = (s.descriptors[m]?).join
      rw [List.getElem?_set_ne]
      rintro rfl
      exact h rfl

/-! ### Mapping, reading, writing and unmapping -/

/-- The state with one mapping more, shared and writable. -/
def withMapping (s : State) (p n i : ℕ) : State :=
  { s with mappings := s.mappings ++ [⟨p, n, i, true, false⟩] }

theorem mmap_eq (hfile : s.file fd = some i) :
    s.mmap fd n true false (some p) = some (p, s.withMapping p n i) := by
  rw [mmap, Option.bind_some, hfile, Option.map_some]
  rfl

theorem mappingAt_withMapping (h : s.Unmapped p) :
    (s.withMapping p n i).mappingAt p = some ⟨p, n, i, true, false⟩ := by
  have hnone : s.mappings.find? (fun m => m.addr == p) = none :=
    List.find?_eq_none.mpr fun m hm hp => h m hm (beq_iff_eq.mp hp)
  simp [mappingAt, withMapping, List.find?_append, hnone]

/-- **A mapping of a whole file shows the file.** -/
theorem load_withMapping (h : s.Unmapped p) :
    (s.withMapping p n i).load p (s.files i).length = s.files i := by
  rw [load, mappingAt_withMapping h]
  exact List.take_length

/-- **A store of as many bytes is the file from then on.** -/
theorem store_withMapping (h : s.Unmapped p) (hb : b.length = (s.files i).length) :
    (s.withMapping p n i).store p b =
      ({ s with files := Function.update s.files i b } : State).withMapping p n i := by
  have hrest : (s.files i).drop b.length = [] := by rw [hb, List.drop_length]
  rw [store, mappingAt_withMapping h]
  show ({ s with
    files := Function.update s.files i (b ++ (s.files i).drop b.length)
    mappings := s.mappings ++ [⟨p, n, i, true, false⟩] } : State) = _
  rw [hrest, List.append_nil]
  rfl

/-- **Unmapping ends what mapping began.** -/
theorem munmap_withMapping (h : s.Unmapped p) : (s.withMapping p n i).munmap p true = some s := by
  have hfilter : (s.withMapping p n i).mappings.filter (fun m => m.addr != p) = s.mappings := by
    rw [withMapping, List.filter_append, List.filter_eq_self.mpr fun m hm => bne_iff_ne.mpr (h m hm)]
    simp
  rw [munmap, if_pos rfl, hfilter]
  rfl

end State

end Shuffle3.Foundations.Descriptors
