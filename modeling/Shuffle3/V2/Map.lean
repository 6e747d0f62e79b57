import Shuffle3.Foundations.Descriptors

/-!
# Mapping files

The four functions that map a file: by name, by name and at a length, by descriptor,
and by a copy of a mapping's descriptor. Each makes its calls in order and, when one
fails, closes the descriptor that it had opened. What `ftruncate` has cut or
continued stays so.

## What is proved

* `mapping_leaves` — what each of them leaves behind, whichever of its calls fail.
* `resizedFiles_eq_iff` — when that is as it was.
* `not_mapping_keeps_files` — a file is emptied, and then it cannot be mapped.

## Honest scope

The address space is a list of mappings. What is printed when a call fails is left out.
-/

namespace Shuffle3.V2

open Foundations Foundations.Descriptors

/-! ### The functions -/

/-- `mmap_t`. -/
structure Mmap where
  fd : ℤ
  ptr : ℕ
  len : ℕ
  deriving DecidableEq

/-- Which of the calls succeed, and where `mmap` maps. -/
structure Outcomes where
  opens : Bool
  dups : Bool
  stats : Bool
  truncates : Bool
  maps : Option ℕ

/-- `MMF_PRIVATE`. -/
def mmfPrivate : ℕ := 1

/-- `MMF_READONLY`. -/
def mmfReadonly : ℕ := 2

/-- `_map`, with the descriptor and the length of the map. -/
def map (o : Outcomes) (fd : ℤ) (len : ℕ) (s : State) : Option (Mmap × State) :=
  (s.mmap fd len true false o.maps).map fun (p, s) => (⟨fd, p, len⟩, s)

/-- The length that is asked for, if one is: `sz && ftruncate(fd, *sz)` that does not fail. -/
def truncateTo (o : Outcomes) (fd : ℤ) (sz : Option ℕ) (s : State) : Option State :=
  match sz with
  | some sz => s.ftruncate fd sz o.truncates
  | none => some s

/-- `map_raw_fd`. The file is measured also where it has just been given its length. -/
def mapRawFd (o : Outcomes) (fd : ℤ) (ptr : Mmap) (sz : Option ℕ) (s : State) :
    Bool × Mmap × State :=
  if fd < 0 then (false, ptr, s)
  else match truncateTo o fd sz s with
    | none => (false, ptr, s)
    | some s => match s.fstat fd o.stats with
      | none => (false, ptr, s)
      | some size => match map o fd (sz.getD size) s with
        | none => (false, ptr, s)
        | some (m, s) => (true, m, s)

/-- `open_and_map`. -/
def openAndMap (o : Outcomes) (path : String) (ptr : Mmap) (s : State) : Bool × Mmap × State :=
  match s.openFile path o.opens with
  | none => (false, ptr, s)
  | some (fd, s) => match s.fstat fd o.stats with
    | none => (false, ptr, s.close fd)
    | some size => match map o fd size s with
      | none => (false, ptr, s.close fd)
      | some (m, s) => (true, m, s)

/-- `open_and_alloc`. -/
def openAndAlloc (o : Outcomes) (path : String) (ptr : Mmap) (sz : ℕ) (s : State) :
    Bool × Mmap × State :=
  match s.openCreate path o.opens with
  | none => (false, ptr, s)
  | some (fd, s) => match s.ftruncate fd sz o.truncates with
    | none => (false, ptr, s.close fd)
    | some s => match map o fd sz s with
      | none => (false, ptr, s.close fd)
      | some (m, s) => (true, m, s)

/-- `dup_map`. -/
def dupMap (o : Outcomes) (inp : Mmap) (ptr : Mmap) (newSize : Option ℕ) (flags : ℕ) (s : State) :
    Bool × Mmap × State :=
  match s.dup inp.fd o.dups with
  | none => (false, ptr, s)
  | some (fd, s) => match truncateTo o fd newSize s with
    | none => (false, ptr, s.close fd)
    | some s =>
      let sz := newSize.getD inp.len
      match s.mmap fd sz (flags &&& mmfReadonly == 0) (flags &&& mmfPrivate != 0) o.maps with
      | none => (false, ptr, s.close fd)
      | some (p, s) => (true, ⟨fd, p, sz⟩, s)

/-! ### What they leave behind -/

/-- The resize that is made of a file: to `sz` bytes, if that is asked for. -/
def Outcomes.resized (o : Outcomes) (file sz : Option ℕ) : Option (ℕ × ℕ) :=
  if o.truncates then Option.map₂ Prod.mk file sz else none

/-- The files after a resize, where one was made. -/
def resizedFiles (files : ℕ → List Byte) : Option (ℕ × ℕ) → ℕ → List Byte
  | none => files
  | some (i, n) => Function.update files i (resize n (files i))

/-- Only a resize to the length that it has leaves a file as it was. -/
theorem resizedFiles_eq_iff {files : ℕ → List Byte} {i n : ℕ} :
    resizedFiles files (some (i, n)) = files ↔ n = (files i).length := by
  rw [← resize_eq_self_iff]
  exact Function.update_eq_self_iff

/-- What a call leaves: if it fails, `*ptr`, the descriptors and the mappings are as
they were; if it succeeds, its own descriptor is added, if it opens one. In either
case the files are as the resize has left them. -/
structure Leaves (s : State) (ptr : Mmap) (opened : Option ℕ) (resized : Option (ℕ × ℕ))
    (r : Bool × Mmap × State) : Prop where
  failed : r.1 = false → r.2.1 = ptr ∧ r.2.2.descriptors = s.descriptors ∧ r.2.2.mappings = s.mappings
  mapped : r.1 = true → match opened with
    | none => r.2.2.descriptors = s.descriptors
    | some i => s.Adds i r.2.1.fd r.2.2.descriptors
  files : r.2.2.files = resizedFiles s.files resized
  names : r.2.2.names = s.names

/-- Between the opening and the mapping only files change, as a resize leaves them. -/
structure Resized (s : State) (resized : Option (ℕ × ℕ)) (t : State) : Prop where
  files : t.files = resizedFiles s.files resized
  names : t.names = s.names
  descriptors : t.descriptors = s.descriptors
  mappings : t.mappings = s.mappings

variable {s t u : State} {o : Outcomes} {fd : ℤ} {i : ℕ} {ptr : Mmap} {sz : Option ℕ} {resized : Option (ℕ × ℕ)}

theorem Resized.refl (s : State) : Resized s none s := ⟨rfl, rfl, rfl, rfl⟩

theorem truncateTo_eq_none (h : truncateTo o fd sz s = none) : o.resized (s.file fd) sz = none := by
  cases sz with
  | none => cases h
  | some n =>
    unfold truncateTo State.ftruncate at h
    unfold Outcomes.resized
    cases hfile : s.file fd <;> simp_all

theorem truncateTo_eq_some (h : truncateTo o fd sz s = some t) :
    Resized s (o.resized (s.file fd) sz) t := by
  cases sz with
  | none =>
    cases h
    have hnone : o.resized (s.file fd) none = none := by simp [Outcomes.resized]
    rw [hnone]
    exact Resized.refl s
  | some n =>
    simp only [truncateTo, State.ftruncate] at h
    split at h
    · next htrunc =>
      obtain ⟨i, hi, rfl⟩ := Option.map_eq_some_iff.mp h
      have hsome : o.resized (s.file fd) (some n) = some (i, n) := by
        simp [Outcomes.resized, htrunc, hi]
      rw [hsome]
      exact ⟨rfl, rfl, rfl, rfl⟩
    · cases h

/-- A mapping keeps the files and the descriptors. -/
theorem mmap_eq_some {len p : ℕ} {w v : Bool} {addr : Option ℕ}
    (h : s.mmap fd len w v addr = some (p, t)) :
    t.files = s.files ∧ t.names = s.names ∧ t.descriptors = s.descriptors := by
  obtain ⟨a, -, h⟩ := Option.bind_eq_some_iff.mp h
  obtain ⟨i, -, h⟩ := Option.map_eq_some_iff.mp h
  cases h
  exact ⟨rfl, rfl, rfl⟩

theorem map_eq_some {len : ℕ} {m : Mmap} (h : map o fd len s = some (m, t)) :
    m.fd = fd ∧ t.files = s.files ∧ t.names = s.names ∧ t.descriptors = s.descriptors := by
  obtain ⟨⟨p, v⟩, hp, he⟩ := Option.map_eq_some_iff.mp h
  cases he
  exact ⟨rfl, mmap_eq_some hp⟩

/-- A call that fails before it has opened or cut anything. -/
theorem leaves_nothing (opened : Option ℕ) : Leaves s ptr opened none (false, ptr, s) :=
  ⟨fun _ => ⟨rfl, rfl, rfl⟩, fun h => (Bool.false_ne_true h).elim, rfl, rfl⟩

/-- A call that fails later closes what it has opened. -/
theorem Resized.leaves_closed (hr : Resized t resized u) (ht : s.Installed i fd t) :
    Leaves s ptr (some i) resized (false, ptr, u.close fd) where
  failed _ := ⟨rfl, ht.descriptors_close hr.descriptors, by rw [State.mappings_close, hr.mappings, ht.mappings]⟩
  mapped h := (Bool.false_ne_true h).elim
  files := by rw [State.files_close, hr.files, ht.files]
  names := by rw [State.names_close, hr.names, ht.names]

/-- A call that maps keeps it. -/
theorem Resized.leaves_open (hr : Resized t resized u) (ht : s.Installed i fd t) {m : Mmap}
    {v : State}
    (hm : m.fd = fd ∧ v.files = u.files ∧ v.names = u.names ∧ v.descriptors = u.descriptors) :
    Leaves s ptr (some i) resized (true, m, v) := by
  obtain ⟨rfl, hfiles, hnames, hdescriptors⟩ := hm
  refine ⟨fun h => (Bool.false_ne_true h.symm).elim, fun _ => ?_, ?_, ?_⟩
  · show s.Adds i m.fd v.descriptors
    rw [hdescriptors, hr.descriptors]
    exact ht.adds
  · rw [hfiles, hr.files, ht.files]
  · rw [hnames, hr.names, ht.names]

theorem leaves_openAndMap (o : Outcomes) (path : String) (ptr : Mmap) (s : State) :
    Leaves s ptr (s.names path) none (openAndMap o path ptr s) := by
  unfold openAndMap
  split
  · exact leaves_nothing _
  next fd t hopen =>
  simp only [State.openFile] at hopen
  split_ifs at hopen
  obtain ⟨i, hname, hinstall⟩ := Option.bind_eq_some_iff.mp hopen
  have ht := State.install_eq_some hinstall
  rw [hname]
  split
  · exact (Resized.refl t).leaves_closed ht
  split
  · exact (Resized.refl t).leaves_closed ht
  next m v hmap => exact (Resized.refl t).leaves_open ht (map_eq_some hmap)

/-- `ftruncate` is the length asked for. -/
theorem truncateTo_some (o : Outcomes) (fd : ℤ) (n : ℕ) (s : State) :
    truncateTo o fd (some n) s = s.ftruncate fd n o.truncates := rfl

theorem leaves_openAndAlloc (o : Outcomes) (path : String) (ptr : Mmap) (sz : ℕ) (s : State) {i : ℕ}
    (hname : s.names path = some i) :
    Leaves s ptr (some i) ((s.openCreate path o.opens).bind fun r => o.resized (r.2.file r.1) (some sz))
      (openAndAlloc o path ptr sz s) := by
  unfold openAndAlloc
  split
  next hopen =>
    rw [hopen, Option.bind_none]
    exact leaves_nothing _
  next fd t hopen =>
  have hinstall := hopen
  simp only [State.openCreate, hname] at hinstall
  split_ifs at hinstall
  have ht := State.install_eq_some hinstall
  rw [hopen, Option.bind_some]
  split
  next htrunc =>
    rw [← truncateTo_some] at htrunc
    rw [truncateTo_eq_none htrunc]
    exact (Resized.refl t).leaves_closed ht
  next u htrunc =>
  rw [← truncateTo_some] at htrunc
  have hr := truncateTo_eq_some htrunc
  split
  · exact hr.leaves_closed ht
  next m v hmap => exact hr.leaves_open ht (map_eq_some hmap)

theorem leaves_dupMap (o : Outcomes) (inp ptr : Mmap) (newSize : Option ℕ) (flags : ℕ) (s : State) :
    Leaves s ptr (s.file inp.fd) ((s.dup inp.fd o.dups).bind fun r => o.resized (r.2.file r.1) newSize)
      (dupMap o inp ptr newSize flags s) := by
  unfold dupMap
  split
  next hdup =>
    rw [hdup, Option.bind_none]
    exact leaves_nothing _
  next fd t hdup =>
  have hinstall := hdup
  simp only [State.dup] at hinstall
  split_ifs at hinstall
  obtain ⟨i, hfile, hinstall⟩ := Option.bind_eq_some_iff.mp hinstall
  have ht := State.install_eq_some hinstall
  rw [hdup, Option.bind_some, hfile]
  split
  next htrunc =>
    rw [truncateTo_eq_none htrunc]
    exact (Resized.refl t).leaves_closed ht
  next u htrunc =>
  have hr := truncateTo_eq_some htrunc
  simp only
  split
  · exact hr.leaves_closed ht
  next p v hmap => exact hr.leaves_open ht ⟨rfl, mmap_eq_some hmap⟩

/-- A function that opens nothing leaves the table as it is. -/
theorem Resized.leaves_kept (hr : Resized s resized t) :
    Leaves s ptr none resized (false, ptr, t) :=
  ⟨fun _ => ⟨rfl, hr.descriptors, hr.mappings⟩, fun h => (Bool.false_ne_true h).elim, hr.files, hr.names⟩

theorem leaves_mapRawFd (o : Outcomes) (fd : ℤ) (ptr : Mmap) (sz : Option ℕ) (s : State) :
    Leaves s ptr none (o.resized (s.file fd) sz) (mapRawFd o fd ptr sz s) := by
  unfold mapRawFd
  split_ifs with hneg
  · have hnone : s.file fd = none := by
      obtain ⟨n, rfl⟩ := Int.eq_negSucc_of_lt_zero hneg
      rfl
    have hkept : o.resized none sz = none := by simp [Outcomes.resized]
    rw [hnone, hkept]
    exact leaves_nothing none
  split
  next htrunc =>
    rw [truncateTo_eq_none htrunc]
    exact leaves_nothing none
  next t htrunc =>
  have hr := truncateTo_eq_some htrunc
  split
  · exact hr.leaves_kept
  split
  · exact hr.leaves_kept
  next m v hmap =>
  obtain ⟨-, hfiles, hnames, hdescriptors⟩ := map_eq_some hmap
  exact ⟨fun h => (Bool.false_ne_true h.symm).elim, fun _ => hdescriptors.trans hr.descriptors,
    hfiles.trans hr.files, hnames.trans hr.names⟩

/-- **A failed mapping leaves no trace but the length it gave to the file**: for every
state and whichever calls fail, `*ptr` and the descriptors are as they were unless a
mapping is returned, which adds the function's own descriptor; and the files are as
they were, but for the one that was cut or continued to the length asked for. -/
theorem mapping_leaves (o : Outcomes) (ptr : Mmap) (s : State) :
    (∀ path, Leaves s ptr (s.names path) none (openAndMap o path ptr s)) ∧
    (∀ path sz i, s.names path = some i →
      Leaves s ptr (some i) ((s.openCreate path o.opens).bind fun r => o.resized (r.2.file r.1) (some sz))
        (openAndAlloc o path ptr sz s)) ∧
    (∀ fd sz, Leaves s ptr none (o.resized (s.file fd) sz) (mapRawFd o fd ptr sz s)) ∧
    (∀ inp newSize flags,
      Leaves s ptr (s.file inp.fd) ((s.dup inp.fd o.dups).bind fun r => o.resized (r.2.file r.1) newSize)
        (dupMap o inp ptr newSize flags s)) :=
  ⟨fun path => leaves_openAndMap o path ptr s, fun path sz _ h => leaves_openAndAlloc o path ptr sz s h,
    fun fd sz => leaves_mapRawFd o fd ptr sz s,
    fun inp newSize flags => leaves_dupMap o inp ptr newSize flags s⟩

/-- One descriptor, open on a file of one byte. -/
def oneByte : State := ⟨fun name => if name = "a" then some 0 else none, fun _ => [7], 1, [some 0, none], []⟩

theorem mapping_leaves_oneByte :
    Leaves oneByte ⟨0, 0, 0⟩ (some 0) none
      (openAndAlloc ⟨true, true, true, false, none⟩ "a" ⟨0, 0, 0⟩ 0 oneByte) :=
  (mapping_leaves ⟨true, true, true, false, none⟩ ⟨0, 0, 0⟩ oneByte).2.1 "a" 0 0 rfl

/-- The file is emptied, and an empty file cannot be mapped. -/
theorem not_mapping_keeps_files :
    ¬ ∀ (o : Outcomes) (fd : ℤ) (ptr : Mmap) (sz : Option ℕ) (s : State),
    (mapRawFd o fd ptr sz s).1 = false → (mapRawFd o fd ptr sz s).2.2.files = s.files := by
  intro h
  have hkept := congrFun (h ⟨true, true, true, true, none⟩ 0 ⟨0, 0, 0⟩ (some 0) oneByte rfl) 0
  cases hkept

end Shuffle3.V2
