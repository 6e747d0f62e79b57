import Shuffle3.Foundations.Mappings
import Shuffle3.V2.Map

/-!
# Mappings in a scope

An object `mm::mmap` maps when it is made and unmaps and closes when its scope ends.
`map_and_then` and `map_fd_and_then` make one and hand it to a callback; `vmap` is one
over a file in memory that has no name.

## What is proved

* `mapAndThen_returns` — the callback runs with the mapping there, and afterwards the
  descriptors and the mappings are those of before; `nest_returns` says so of any nest.
* `mapFdAndThen_returns` — the descriptor that the caller gave is closed.
* `vmap_ends` — a `vmap` of no bytes is never made; one of `sz` bytes shows as many
  zeros, and they are in a file that no name stands for.

## Honest scope

A panic ends the process, and with no handler the scopes are not left. `msync` and
`madvise` can only print. What is printed besides the panic is left out.
-/

namespace Shuffle3.V2

open Foundations Foundations.Descriptors

/-- How a call ends: with a value, with a panic and its message, or not as the language
defines. -/
inductive Ending (α : Type) where
  | returns (value : α) (s : State)
  | panics (message : String) (s : State)
  | undefined

namespace Ending

variable {α β : Type}

/-- What comes after a call that returns. -/
def bind : Ending α → (α → State → Ending β) → Ending β
  | returns a s, f => f a s
  | panics message s, _ => panics message s
  | undefined, _ => undefined

@[simp] theorem bind_returns (a : α) (s : State) (f : α → State → Ending β) :
    (returns a s).bind f = f a s := rfl

@[simp] theorem bind_panics (message : String) (s : State) (f : α → State → Ending β) :
    (panics message s).bind f = panics message s := rfl

theorem bind_eq_returns {e : Ending α} {f : α → State → Ending β} {b : β} {t : State} :
    e.bind f = returns b t ↔ ∃ a s, e = returns a s ∧ f a s = returns b t := by
  cases e with
  | returns a s => exact ⟨fun h => ⟨a, s, rfl, h⟩, fun ⟨_, _, he, h⟩ => by cases he; exact h⟩
  | panics message s => exact ⟨fun h => (nomatch h), fun ⟨_, _, he, _⟩ => (nomatch he)⟩
  | undefined => exact ⟨fun h => (nomatch h), fun ⟨_, _, he, _⟩ => (nomatch he)⟩

end Ending

/-- What the kernel does with the calls of a run: which of them succeed, and where it
maps, which is never at the null pointer. -/
structure Kernel where
  outcomes : Outcomes
  unmaps : Bool
  closes : Bool
  placed : ∀ p, outcomes.maps = some p → p ≠ 0

/-- The calls where `n` bytes are mapped: to map none fails. -/
def Kernel.at (k : Kernel) (n : ℕ) : Outcomes :=
  if n = 0 then { k.outcomes with maps := none } else k.outcomes

variable {α : Type} (k : Kernel)

/-! ### The functions -/

/-- The length of the file that a name stands for. -/
def lengthOf (s : State) (path : String) : ℕ := (s.names path).elim 0 fun i => (s.files i).length

/-- The length of the file that a descriptor is open on. -/
def lengthAt (s : State) (fd : ℤ) : ℕ := (s.file fd).elim 0 fun i => (s.files i).length

/-- `unmap_and_close`. A mapping that cannot be unmapped stays, and its descriptor is closed. -/
def unmapAndClose (map : Mmap) (s : State) : Bool × State :=
  let unmapped := s.munmap map.ptr k.unmaps
  (unmapped.isSome && k.closes, (unmapped.getD s).close map.fd)

/-- `create_raw`. -/
def createRaw (path : String) (s : State) : Ending Mmap :=
  match openAndMap (k.at (lengthOf s path)) path ⟨0, 0, 0⟩ s with
  | (true, map, s) => .returns map s
  | (false, _, s) => .panics "Failed to map file" s

/-- `create_raw_fd`, of a descriptor. -/
def createRawFd (fd : ℤ) (s : State) : Ending Mmap :=
  match mapRawFd (k.at (lengthAt s fd)) fd ⟨0, 0, 0⟩ none s with
  | (true, map, s) => .returns map s
  | (false, _, s) => .panics "Failed to map fd" s

/-- `~mmap`. -/
def destroy (map : Mmap) (s : State) : State :=
  if map.ptr = 0 then s else (unmapAndClose k map s).2

/-- `map_and_then`. -/
def mapAndThen (path : String) (callback : Mmap → State → Ending α) (s : State) : Ending α :=
  (createRaw k path s).bind fun map s => (callback map s).bind fun a s => .returns a (destroy k map s)

/-- `map_fd_and_then`. -/
def mapFdAndThen (fd : ℤ) (callback : Mmap → State → Ending α) (s : State) : Ending α :=
  (createRawFd k fd s).bind fun map s => (callback map s).bind fun a s => .returns a (destroy k map s)

/-- `memfd_alloc`. -/
def memfdAlloc (size : ℕ) (s : State) : Ending ℤ :=
  match s.memfdCreate k.outcomes.opens with
  | none => .panics "memfd_create() failed" s
  | some (fd, s) =>
    if size = 0 then .returns fd s
    else match s.ftruncate fd size k.outcomes.truncates with
      | none => .panics "ftruncate() failed" (s.close fd)
      | some s => .returns fd s

/-- `vmap(sz)`, and `vmap()` with no bytes. -/
def vmap (sz : ℕ) (s : State) : Ending Mmap := (memfdAlloc k sz s).bind (createRawFd k)

/-! ### Making an object -/

variable {k} {s t u : State} {fd : ℤ} {path : String} {i p : ℕ} {a : α}
  {callback : Mmap → State → Ending α}

/-- The file that is mapped by name, if every call succeeds. -/
def Kernel.mapped (k : Kernel) (s : State) (path : String) : Option ℕ :=
  (s.names path).bind fun i =>
    if k.outcomes.opens ∧ k.outcomes.stats ∧ k.outcomes.maps.isSome ∧ (s.install i).isSome ∧ s.files i ≠ []
    then some i else none

/-- What an object is made from: the file's descriptor and its mapping. -/
structure Made (k : Kernel) (s : State) (i : ℕ) (map : Mmap) (t : State) : Prop where
  installed : ∃ u, s.install i = some (map.fd, u) ∧ t = u.withMapping map.ptr map.len i
  placed : k.outcomes.maps = some map.ptr
  len : map.len = (s.files i).length

theorem Kernel.at_of_pos {n : ℕ} (h : n ≠ 0) : k.at n = k.outcomes := if_neg h

theorem createRaw_of_mapped (h : k.mapped s path = some i) :
    ∃ map t, createRaw k path s = .returns map t ∧ Made k s i map t := by
  obtain ⟨i', hname, h⟩ := Option.bind_eq_some_iff.mp h
  split_ifs at h with hcalls
  cases h
  obtain ⟨hopens, hstats, hmaps, hinstall, hfile⟩ := hcalls
  obtain ⟨p, hp⟩ := Option.isSome_iff_exists.mp hmaps
  obtain ⟨⟨fd, u⟩, hu⟩ := Option.isSome_iff_exists.mp hinstall
  have hlen : lengthOf s path = (s.files i).length := by rw [lengthOf, hname, Option.elim_some]
  have hpos : (s.files i).length ≠ 0 := fun h0 => hfile (List.length_eq_zero_iff.mp h0)
  have hfd := State.file_install hu
  have hfiles : u.files = s.files := (State.install_eq_some hu).files
  have hopen : s.openFile path k.outcomes.opens = some (fd, u) := by
    rw [State.openFile, if_pos hopens, hname, Option.bind_some, hu]
  have hstat : u.fstat fd k.outcomes.stats = some (s.files i).length := by
    rw [State.fstat, if_pos hstats, hfd, Option.map_some, hfiles]
  have hmap : map k.outcomes fd (s.files i).length u =
      some (⟨fd, p, (s.files i).length⟩, u.withMapping p (s.files i).length i) := by
    rw [map, hp, State.mmap_eq hfd, Option.map_some]
  refine ⟨⟨fd, p, (s.files i).length⟩, u.withMapping p (s.files i).length i, ?_, ⟨u, hu, rfl⟩, hp, rfl⟩
  rw [createRaw, hlen, Kernel.at_of_pos hpos, openAndMap, hopen]
  simp only [hstat, hmap]

/-- Otherwise the constructor panics, with everything as it was. -/
theorem createRaw_of_not_mapped (h : k.mapped s path = none) :
    createRaw k path s = .panics "Failed to map file" s := by
  have hfails : ∀ map : Mmap, openAndMap (k.at (lengthOf s path)) path map s = (false, map, s) := by
    intro m
    unfold openAndMap
    split
    · rfl
    next fd u hopen =>
    simp only [State.openFile] at hopen
    split_ifs at hopen with hopens
    obtain ⟨i, hname, hu⟩ := Option.bind_eq_some_iff.mp hopen
    have hclosed : u.close fd = s := State.close_install hu
    have hfd := State.file_install hu
    have hlen : lengthOf s path = (s.files i).length := by rw [lengthOf, hname, Option.elim_some]
    have hopens' : k.outcomes.opens := by
      unfold Kernel.at at hopens
      split_ifs at hopens <;> exact hopens
    split
    · rw [hclosed]
    next size hstat =>
    have hstats : k.outcomes.stats := by
      simp only [State.fstat, Kernel.at] at hstat
      split_ifs at hstat <;> assumption
    split
    · rw [hclosed]
    next m' v hmap =>
    exfalso
    obtain ⟨⟨p, w⟩, hp, -⟩ := Option.map_eq_some_iff.mp hmap
    obtain ⟨p', hp', -⟩ := Option.bind_eq_some_iff.mp hp
    unfold Kernel.at at hp'
    split_ifs at hp' with h0
    rw [Kernel.mapped, hname, Option.bind_some, if_pos] at h
    · cases h
    · refine ⟨hopens', hstats, by rw [hp']; rfl, by rw [hu]; rfl, fun hnil => h0 ?_⟩
      rw [hlen, hnil, List.length_nil]
  rw [createRaw, hfails]

/-! ### Leaving a scope -/

variable {map : Mmap}

/-- The mapping shows the whole file. -/
theorem Made.load (h : Made k s i map t) (hfree : s.Unmapped map.ptr) :
    t.load map.ptr map.len = s.files i := by
  obtain ⟨u, hu, rfl⟩ := h.installed
  have heq := State.install_eq hu
  have hfree' : u.Unmapped map.ptr := by rw [heq]; exact hfree
  have hfiles : u.files = s.files := by rw [heq]
  rw [h.len, ← hfiles]
  exact State.load_withMapping hfree'

/-- A store of as many bytes through the mapping is a write to the file. -/
theorem Made.store (h : Made k s i map t) (hfree : s.Unmapped map.ptr) {b : List Byte}
    (hb : b.length = (s.files i).length) :
    (t.store map.ptr b).files = Function.update s.files i b ∧ (t.store map.ptr b).names = s.names ∧
      State.Kept t (t.store map.ptr b) := by
  obtain ⟨u, hu, rfl⟩ := h.installed
  have heq := State.install_eq hu
  have hfree' : u.Unmapped map.ptr := by rw [heq]; exact hfree
  have hfiles : u.files = s.files := by rw [heq]
  rw [State.store_withMapping hfree' (by rw [hb, hfiles])]
  exact ⟨by rw [← hfiles]; rfl, by rw [heq]; rfl, ⟨rfl, rfl⟩⟩

/-- Another address that was free still is. -/
theorem Made.unmapped (h : Made k s i map t) (hfree : s.Unmapped p) (hp : map.ptr ≠ p) :
    t.Unmapped p := by
  obtain ⟨u, hu, rfl⟩ := h.installed
  rw [State.install_eq hu]
  intro m hm
  rcases List.mem_append.mp hm with hm | hm
  · exact hfree m hm
  · rw [List.mem_singleton.mp hm]
    exact hp

/-- The destructor leaves the files and the names as they are. -/
theorem files_destroy (k : Kernel) (map : Mmap) (s : State) :
    (destroy k map s).files = s.files ∧ (destroy k map s).names = s.names := by
  unfold destroy unmapAndClose State.munmap
  split_ifs
  · exact ⟨rfl, rfl⟩
  · exact ⟨State.files_close _ _, State.names_close _ _⟩
  · exact ⟨State.files_close _ _, State.names_close _ _⟩

/-- **The destructor undoes the constructor**, whatever has happened to the files between. -/
theorem Made.destroy (h : Made k s i map t) (hfree : s.Unmapped map.ptr) (hunmaps : k.unmaps = true)
    (hk : State.Kept t u) :
    destroy k map u = { u with descriptors := s.descriptors, mappings := s.mappings } := by
  obtain ⟨v, hv, rfl⟩ := h.installed
  obtain ⟨descriptors, mappings⟩ := hk
  have hclose : (u.close map.fd).descriptors = s.descriptors :=
    (State.install_eq_some hv).descriptors_close descriptors
  have hfilter : u.mappings.filter (fun m => m.addr != map.ptr) = s.mappings := by
    have hunmap := State.munmap_withMapping (n := map.len) (i := i) hfree
    rw [State.munmap, if_pos rfl] at hunmap
    rw [mappings, State.install_eq hv]
    exact congrArg State.mappings (Option.some.inj hunmap)
  rw [V2.destroy, if_neg (k.placed _ h.placed), unmapAndClose, State.munmap, if_pos hunmaps, hfilter]
  obtain ⟨n, hn, -, -⟩ := (State.install_eq_some hv).adds
  rw [hn] at hclose ⊢
  show ({ u with descriptors := u.descriptors.set n none, mappings := s.mappings } : State) = _
  rw [show u.descriptors.set n none = s.descriptors from hclose]

/-- **The callback of `map_and_then` runs with the mapping there**, and what it returns
is returned with the descriptors and the mappings of before. -/
theorem mapAndThen_returns (h : Made k s i map t) (hraw : createRaw k path s = .returns map t)
    (hfree : s.Unmapped map.ptr) (hunmaps : k.unmaps = true)
    (hrun : callback map t = .returns a u) (hk : State.Kept t u) :
    mapAndThen k path callback s =
      .returns a { u with descriptors := s.descriptors, mappings := s.mappings } := by
  rw [mapAndThen, hraw, Ending.bind_returns, hrun, Ending.bind_returns, h.destroy hfree hunmaps hk]

/-! ### Scopes inside scopes -/

/-- Calls of `map_and_then`, each inside the callback of the one before, and a callback
that is handed all the mappings. -/
def nest : List (Kernel × String) → (List Mmap → State → Ending α) → State → Ending α
  | [], callback, s => callback [] s
  | (k, path) :: rest, callback, s =>
    mapAndThen k path (fun map => nest rest fun maps => callback (map :: maps)) s

/-- The mappings are placed where none is, and can be unmapped. -/
structure PlacedApart (ks : List (Kernel × String)) (s : State) : Prop where
  free : ∀ c ∈ ks, ∀ p, c.1.outcomes.maps = some p → s.Unmapped p
  distinct : ks.Pairwise fun c d => ∀ p, c.1.outcomes.maps = some p → d.1.outcomes.maps ≠ some p
  unmaps : ∀ c ∈ ks, c.1.unmaps = true

/-- What the innermost callback finds: each mapping shows the file that its name stands for. -/
def Shows (s t : State) (c : Kernel × String) (map : Mmap) : Prop :=
  ∃ i, s.names c.2 = some i ∧ t.load map.ptr map.len = s.files i ∧ (t.mappingAt map.ptr).isSome

theorem exists_made (h : createRaw k path s = .returns map t) :
    ∃ i, s.names path = some i ∧ Made k s i map t := by
  cases hm : k.mapped s path with
  | none => rw [createRaw_of_not_mapped hm] at h; cases h
  | some i =>
    obtain ⟨map', t', hraw, hmade⟩ := createRaw_of_mapped hm
    rw [hraw] at h
    cases h
    obtain ⟨i', hname, hif⟩ := Option.bind_eq_some_iff.mp hm
    split_ifs at hif
    cases hif
    exact ⟨i, hname, hmade⟩

/-- The files, the names and the other addresses, while an object is there. -/
theorem Made.files (h : Made k s i map t) : t.files = s.files ∧ t.names = s.names := by
  obtain ⟨u, hu, rfl⟩ := h.installed
  rw [State.install_eq hu]
  exact ⟨rfl, rfl⟩

theorem Made.mappingAt (h : Made k s i map t) (hfree : s.Unmapped map.ptr) :
    t.mappingAt map.ptr = some ⟨map.ptr, map.len, i, true, false⟩ := by
  obtain ⟨u, hu, rfl⟩ := h.installed
  refine State.mappingAt_withMapping ?_
  rw [State.install_eq hu]
  exact hfree

/-- A mapping that is there stays where it is while another object is made. -/
theorem Made.mappingAt_of_isSome (h : Made k s i map t) (hp : (s.mappingAt p).isSome) :
    t.mappingAt p = s.mappingAt p := by
  obtain ⟨u, hu, rfl⟩ := h.installed
  have hmap : u.mappings = s.mappings := by rw [State.install_eq hu]
  obtain ⟨m, hm⟩ := Option.isSome_iff_exists.mp hp
  rw [hm]
  rw [State.mappingAt] at hm ⊢
  rw [State.withMapping, List.find?_append, hmap, hm, Option.some_or]

theorem PlacedApart.tail {c : Kernel × String} {ks : List (Kernel × String)}
    (h : PlacedApart (c :: ks) s) (hm : Made c.1 s i map t) : PlacedApart ks t where
  free d hd p hp := by
    have hne : map.ptr ≠ p := by
      rintro rfl
      exact (List.pairwise_cons.mp h.distinct).1 d hd _ hm.placed hp
    exact hm.unmapped (h.free d (List.mem_cons_of_mem _ hd) p hp) hne
  distinct := (List.pairwise_cons.mp h.distinct).2
  unmaps d hd := h.unmaps d (List.mem_cons_of_mem _ hd)

/-- A nest runs its callback in a state with the files of before, where what was mapped
still shows what it did. -/
theorem nest_runs {ks : List (Kernel × String)} {callback : List Mmap → State → Ending α}
    (hk : ∀ maps t a u, callback maps t = .returns a u → State.Kept t u) :
    ∀ {s v : State}, PlacedApart ks s → nest ks callback s = .returns a v →
      State.Kept s v ∧ ∃ maps t u, callback maps t = .returns a u ∧ v.files = u.files ∧ v.names = u.names ∧
        t.files = s.files ∧ List.Forall₂ (Shows s t) ks maps ∧
        ∀ p, (s.mappingAt p).isSome → t.mappingAt p = s.mappingAt p := by
  induction ks generalizing callback with
  | nil =>
    intro s v _ h
    exact ⟨hk [] s a v h, [], s, v, h, rfl, rfl, rfl, .nil, fun _ _ => rfl⟩
  | cons c ks ih =>
    obtain ⟨k, path⟩ := c
    intro s v happart h
    obtain ⟨map, t₀, hraw, h⟩ := Ending.bind_eq_returns.mp h
    obtain ⟨b, u₀, hrun, h⟩ := Ending.bind_eq_returns.mp h
    obtain ⟨i, hname, hmade⟩ := exists_made hraw
    have hfree := happart.free _ List.mem_cons_self _ hmade.placed
    have hthere : (t₀.mappingAt map.ptr).isSome := by rw [hmade.mappingAt hfree]; rfl
    cases h
    obtain ⟨hkept, maps, t, u, hcall, hfiles, hnames, hsame, hshows, hold⟩ :=
      ih (fun maps => hk (map :: maps)) (happart.tail hmade) hrun
    rw [hmade.destroy hfree (happart.unmaps _ List.mem_cons_self) hkept]
    have hshows' : List.Forall₂ (Shows s t) ks maps := hshows.imp fun d m ⟨j, hj, hload⟩ =>
      ⟨j, by rw [← hmade.files.2]; exact hj, by rw [← hmade.files.1]; exact hload⟩
    refine ⟨⟨rfl, rfl⟩, map :: maps, t, u, hcall, hfiles, hnames, hsame.trans hmade.files.1,
      .cons ⟨i, hname, ?_, ?_⟩ hshows', fun p hp => ?_⟩
    · have hload : t.load map.ptr map.len = t₀.load map.ptr map.len := by
        rw [State.load, State.load, hold _ hthere, hsame]
      rw [hload, hmade.load hfree]
    · rw [hold _ hthere]
      exact hthere
    · have hp' := hmade.mappingAt_of_isSome hp
      rw [hold p (by rw [hp']; exact hp), hp']

/-- **A nest of scopes leaves the descriptors and the mappings of before**, when its
callback does. The callback finds the files of before, each whole in the mapping made for
it, also a file that is mapped more than once; and what it leaves in the files stays. -/
theorem nest_returns {ks : List (Kernel × String)} {callback : List Mmap → State → Ending α}
    (hk : ∀ maps t a u, callback maps t = .returns a u → State.Kept t u) {s v : State}
    (hplaced : PlacedApart ks s) (h : nest ks callback s = .returns a v) :
    State.Kept s v ∧ ∃ maps t u, callback maps t = .returns a u ∧ v.files = u.files ∧
      v.names = u.names ∧
      t.files = s.files ∧ List.Forall₂ (Shows s t) ks maps := by
  obtain ⟨hkept, maps, t, u, hcall, hfiles, hnames, hsame, hshows, -⟩ := nest_runs hk hplaced h
  exact ⟨hkept, maps, t, u, hcall, hfiles, hnames, hsame, hshows⟩

/-- A kernel with which every call succeeds, and mappings are placed at `p`. -/
def Kernel.willing (p : ℕ) (hp : p ≠ 0) : Kernel where
  outcomes := ⟨true, true, true, true, some p⟩
  unmaps := true
  closes := true
  placed q hq := by cases hq; exact hp

/-- A file of one byte, and no descriptor taken. -/
def twoFree : State := { oneByte with descriptors := [none, none] }

/-- One file mapped twice. -/
theorem nest_returns_twice :
    State.Kept twoFree twoFree ∧ ∃ maps t u, (Ending.returns () t : Ending Unit) = .returns () u ∧
      twoFree.files = u.files ∧ twoFree.names = u.names ∧ t.files = twoFree.files ∧
      List.Forall₂ (Shows twoFree t) [(.willing 1 (by decide), "a"), (.willing 2 (by decide), "a")] maps := by
  have hk : ∀ (maps : List Mmap) (t : State) (a : Unit) (u : State),
      Ending.returns () t = .returns a u → State.Kept t u :=
    fun _ t _ u h => by cases h; exact State.Kept.refl t
  refine nest_returns hk ⟨?_, ?_, by decide⟩ rfl
  · exact fun _ _ p _ m hm => (List.not_mem_nil hm).elim
  · refine List.pairwise_pair.mpr fun p hp hq => ?_
    cases hp
    cases hq

/-! ### Objects over a descriptor -/

theorem Kernel.stats_at (k : Kernel) (n : ℕ) : (k.at n).stats = k.outcomes.stats := by
  unfold Kernel.at
  split_ifs <;> rfl

/-- **An object over an open descriptor**: the constructor returns it when the file can be
measured and mapped, as no empty one can, and else it panics with the descriptor still open. -/
theorem createRawFd_of_open (hfile : s.file fd = some i) : createRawFd k fd s =
    (if s.files i ≠ [] ∧ k.outcomes.stats = true then k.outcomes.maps else none).elim
      (.panics "Failed to map fd" s) fun p =>
        .returns ⟨fd, p, (s.files i).length⟩ (s.withMapping p (s.files i).length i) := by
  have hfd : ¬ fd < 0 := by
    cases fd with
    | ofNat n => exact not_lt.mpr (Int.natCast_nonneg n)
    | negSucc n => cases hfile
  have hlen : lengthAt s fd = (s.files i).length := by rw [lengthAt, hfile, Option.elim_some]
  simp only [createRawFd, mapRawFd, if_neg hfd, truncateTo, hlen, State.fstat, k.stats_at, hfile, Option.map_some,
    Option.getD_none, map]
  by_cases hstats : k.outcomes.stats = true
  · rw [hstats, if_pos rfl]
    by_cases hempty : s.files i = []
    · have hnone : (k.at (s.files i).length).maps = none := by rw [hempty]; rfl
      rw [if_neg fun h => h.1 hempty, hnone]
      rfl
    · have hpos : (s.files i).length ≠ 0 := fun h0 => hempty (List.length_eq_zero_iff.mp h0)
      rw [if_pos ⟨hempty, rfl⟩, Kernel.at_of_pos hpos]
      cases k.outcomes.maps with
      | none => rfl
      | some p =>
        simp only [State.mmap_eq hfile]
        rfl
  · rw [if_neg hstats, if_neg fun h => hstats h.2]
    rfl

theorem createRawFd_of_closed (hfile : s.file fd = none) :
    createRawFd k fd s = .panics "Failed to map fd" s := by
  have hstat : s.fstat fd (k.at (lengthAt s fd)).stats = none := by
    rw [State.fstat, hfile, Option.map_none, ite_self]
  by_cases hfd : fd < 0
  · rw [createRawFd, mapRawFd, if_pos hfd]
  · simp only [createRawFd, mapRawFd, if_neg hfd, truncateTo, hstat]

/-- An object over a descriptor is one mapping more, of the file that it is open on. -/
theorem createRawFd_returns (h : createRawFd k fd s = .returns map t) :
    ∃ i, s.file fd = some i ∧ s.files i ≠ [] ∧ k.outcomes.stats = true ∧ k.outcomes.maps = some map.ptr ∧
      map.fd = fd ∧ map.len = (s.files i).length ∧ t = s.withMapping map.ptr map.len i := by
  cases hfile : s.file fd with
  | none =>
    rw [createRawFd_of_closed hfile] at h
    cases h
  | some i =>
    rw [createRawFd_of_open hfile] at h
    split_ifs at h with hcalls
    · cases hmaps : k.outcomes.maps with
      | none =>
        rw [hmaps] at h
        cases h
      | some p =>
        rw [hmaps] at h
        cases h
        exact ⟨i, rfl, hcalls.1, hcalls.2, rfl, rfl, rfl, rfl⟩
    · cases h

/-- It panics where the file is empty, or cannot be measured or mapped. -/
theorem createRawFd_cases (k : Kernel) (hfile : s.file fd = some i) :
    ((s.files i = [] ∨ k.outcomes.stats = false ∨ k.outcomes.maps = none) ∧
      createRawFd k fd s = .panics "Failed to map fd" s) ∨
    ∃ map t, createRawFd k fd s = .returns map t := by
  rw [createRawFd_of_open hfile]
  split_ifs with hcalls
  · cases hmaps : k.outcomes.maps with
    | none => exact .inl ⟨.inr (.inr rfl), rfl⟩
    | some p => exact .inr ⟨_, _, rfl⟩
  · refine .inl ⟨?_, rfl⟩
    by_cases hempty : s.files i = []
    · exact .inl hempty
    · exact .inr (.inl (Bool.eq_false_iff.mpr fun hstats => hcalls ⟨hempty, hstats⟩))

/-- **`map_fd_and_then` closes the descriptor that it is given.** What its callback
returns is returned; the other descriptors and the mappings are those of before. -/
theorem mapFdAndThen_returns (hfree : ∀ p, k.outcomes.maps = some p → s.Unmapped p)
    (hunmaps : k.unmaps = true) (hk : ∀ map t a u, callback map t = .returns a u → State.Kept t u)
    (h : mapFdAndThen k fd callback s = .returns a t) :
    t.file fd = none ∧ (∀ fd', fd' ≠ fd → t.file fd' = s.file fd') ∧ t.mappings = s.mappings ∧
      ∃ i map u, s.file fd = some i ∧ map.fd = fd ∧
        (s.withMapping map.ptr map.len i).load map.ptr map.len = s.files i ∧
        callback map (s.withMapping map.ptr map.len i) = .returns a u ∧ t.files = u.files ∧ t.names = u.names := by
  obtain ⟨map, v, hraw, h⟩ := Ending.bind_eq_returns.mp h
  obtain ⟨b, u, hrun, h⟩ := Ending.bind_eq_returns.mp h
  cases h
  obtain ⟨i, hfile, -, -, hplaced, rfl, hlen, rfl⟩ := createRawFd_returns hraw
  have hfree' := hfree _ hplaced
  obtain ⟨hdescriptors, hmappings⟩ := hk _ _ _ _ hrun
  have hunmap : u.munmap map.ptr true = some { u with mappings := s.mappings } := by
    have hfilter :=
      congrArg (Option.map State.mappings) (State.munmap_withMapping (n := map.len) (i := i) hfree')
    rw [State.munmap, if_pos rfl] at hfilter ⊢
    rw [hmappings]
    exact congrArg some (congrArg (fun ms => { u with mappings := ms }) (Option.some.inj hfilter))
  have hdestroy : destroy k map u = ({ u with mappings := s.mappings } : State).close map.fd := by
    rw [destroy, if_neg (k.placed _ hplaced), unmapAndClose, hunmaps, hunmap]
    rfl
  have hsame : ({ u with mappings := s.mappings } : State).file = s.file := by
    funext fd
    cases fd with
    | ofNat n =>
      show (u.descriptors[n]?).join = (s.descriptors[n]?).join
      rw [hdescriptors]
      rfl
    | negSucc n => rfl
  rw [hdestroy]
  refine ⟨State.file_close_self, fun fd' hne => ?_, State.mappings_close _ _, i, map, u, hfile, rfl, ?_, hrun,
    State.files_close _ _, State.names_close _ _⟩
  · rw [State.file_close_of_ne hne, hsame]
  · rw [hlen]
    exact State.load_withMapping hfree'

/-- The file of one byte, mapped by its descriptor. -/
theorem mapFdAndThen_returns_oneByte :
    (oneByte.close 0).file 0 = none ∧
      (∀ fd', fd' ≠ 0 → (oneByte.close 0).file fd' = oneByte.file fd') ∧
      (oneByte.close 0).mappings = oneByte.mappings ∧
      ∃ (i : ℕ) (map : Mmap) (u : State), oneByte.file 0 = some i ∧ map.fd = 0 ∧
        (oneByte.withMapping map.ptr map.len i).load map.ptr map.len = oneByte.files i ∧
        (Ending.returns () (oneByte.withMapping map.ptr map.len i) : Ending Unit) = .returns () u ∧
        (oneByte.close 0).files = u.files ∧ (oneByte.close 0).names = u.names := by
  have hk : ∀ (map : Mmap) (t : State) (a : Unit) (u : State),
      Ending.returns () t = .returns a u → State.Kept t u :=
    fun _ t _ u h => by cases h; exact State.Kept.refl t
  exact mapFdAndThen_returns (k := .willing 1 (by decide))
    (fun _ _ _ hm => (List.not_mem_nil hm).elim) rfl hk rfl

/-- The file in memory that is made first: it is empty, and open on one descriptor more. -/
theorem memfdCreate_eq_some {b : Bool} (h : s.memfdCreate b = some (fd, t)) :
    t.file fd = some s.next ∧ t.close fd = s.createUnnamed ∧ s.Adds s.next fd t.descriptors ∧
      t = { s.createUnnamed with descriptors := t.descriptors } := by
  unfold State.memfdCreate at h
  split_ifs at h
  exact ⟨State.file_install h, State.close_install h, (State.install_eq_some h).adds, State.install_eq h⟩

/-- A file in memory can be made: the call succeeds, and a descriptor is free. -/
def Kernel.MakesFile (k : Kernel) (s : State) : Prop := k.outcomes.opens = true ∧ none ∈ s.descriptors

instance (k : Kernel) (s : State) : Decidable (k.MakesFile s) :=
  inferInstanceAs (Decidable (_ ∧ _))

theorem makesFile_iff : k.MakesFile s ↔ ∃ fd t, s.memfdCreate k.outcomes.opens = some (fd, t) := by
  have hfree : (s.descriptors.findIdx? Option.isNone).isSome ↔ none ∈ s.descriptors := by
    rw [List.findIdx?_isSome, List.any_eq_true]
    exact ⟨fun ⟨o, ho, hnone⟩ => Option.isNone_iff_eq_none.mp hnone ▸ ho, fun h => ⟨none, h, rfl⟩⟩
  unfold Kernel.MakesFile State.memfdCreate State.install
  rw [← hfree]
  cases k.outcomes.opens with
  | false => exact iff_of_false (fun h => Bool.false_ne_true h.1) fun ⟨_, _, h⟩ =>
      (Option.some_ne_none _ h.symm).elim
  | true =>
    rw [if_pos rfl, and_iff_right rfl, Option.isSome_iff_exists]
    constructor
    · rintro ⟨n, hn⟩
      exact ⟨_, _, Option.map_eq_some_iff.mpr ⟨n, hn, rfl⟩⟩
    · rintro ⟨_, _, h⟩
      obtain ⟨n, hn, -⟩ := Option.map_eq_some_iff.mp h
      exact ⟨n, hn⟩

/-- How the making of that file ends: it panics, with nothing left open, or the file is of
`size` zeros and open on one descriptor more. -/
theorem memfdAlloc_cases (k : Kernel) (size : ℕ) (s : State) :
    (¬ k.MakesFile s ∧ memfdAlloc k size s = .panics "memfd_create() failed" s) ∨
    (k.MakesFile s ∧ size ≠ 0 ∧ k.outcomes.truncates = false ∧
      ∃ t, memfdAlloc k size s = .panics "ftruncate() failed" t ∧ t.names = s.names ∧
        (∀ i ≠ s.next, t.files i = s.files i) ∧ State.Kept s t) ∨
    (k.MakesFile s ∧ (size = 0 ∨ k.outcomes.truncates = true) ∧
      ∃ fd t, memfdAlloc k size s = .returns fd t ∧ t.file fd = some s.next ∧ t.names = s.names ∧
        t.files = Function.update s.files s.next (List.replicate size 0#8) ∧
        s.Adds s.next fd t.descriptors ∧ t.mappings = s.mappings) := by
  cases hm : s.memfdCreate k.outcomes.opens with
  | none =>
    refine .inl ⟨fun h => ?_, by rw [memfdAlloc, hm]⟩
    obtain ⟨fd, t, hsome⟩ := makesFile_iff.mp h
    rw [hm] at hsome
    cases hsome
  | some r =>
    obtain ⟨fd, t⟩ := r
    have hmakes : k.MakesFile s := makesFile_iff.mpr ⟨fd, t, hm⟩
    obtain ⟨hfile, hclose, hadds, ht⟩ := memfdCreate_eq_some hm
    have hfiles : t.files = Function.update s.files s.next [] := by rw [ht]; rfl
    right
    by_cases hsize : size = 0
    · right
      refine ⟨hmakes, .inl hsize, fd, t, by simp only [memfdAlloc, hm, if_pos hsize], hfile, by rw [ht]; rfl, ?_,
        hadds, by rw [ht]; rfl⟩
      rw [hfiles, hsize, List.replicate_zero]
    cases htruncates : k.outcomes.truncates with
    | false =>
      have htrunc : t.ftruncate fd size false = none := rfl
      refine .inl ⟨hmakes, hsize, rfl, t.close fd,
        by simp only [memfdAlloc, hm, if_neg hsize, htruncates, htrunc], ?_⟩
      rw [hclose]
      exact ⟨rfl, fun i hi => Function.update_of_ne hi _ _, rfl, rfl⟩
    | true =>
      have htrunc : t.ftruncate fd size true = some (t.setLength s.next size) := by
        rw [State.ftruncate, if_pos rfl, hfile, Option.map_some]
      refine .inr ⟨hmakes, .inr rfl, fd, t.setLength s.next size,
        by simp only [memfdAlloc, hm, if_neg hsize, htruncates, htrunc],
        by rw [State.file_setLength, hfile], by rw [ht]; rfl, ?_, hadds, by rw [ht]; rfl⟩
      have hzeros : resize size (t.files s.next) = List.replicate size 0#8 := by
        rw [hfiles, Function.update_self, resize]
        simp
      show Function.update t.files s.next (resize size (t.files s.next)) = _
      rw [hzeros, hfiles, Function.update_idem]

/-- **How the making of a `vmap` ends.** Of no bytes it always panics, with the
descriptor of its file left open unless that could not be made. Of `sz` bytes it panics,
with that descriptor left open where the mapping fails, or it shows `sz` zeros in a file of
its own, where its address was free. No other file is touched, and none gets a name. -/
theorem vmap_ends (k : Kernel) (sz : ℕ) (s : State) :
    (¬ k.MakesFile s ∧ vmap k sz s = .panics "memfd_create() failed" s) ∨
    (k.MakesFile s ∧ ∃ t, t.names = s.names ∧ (∀ i ≠ s.next, t.files i = s.files i) ∧
      ((sz ≠ 0 ∧ k.outcomes.truncates = false ∧ vmap k sz s = .panics "ftruncate() failed" t ∧ State.Kept s t) ∨
      ((sz = 0 ∨ k.outcomes.truncates = true ∧ (k.outcomes.stats = false ∨ k.outcomes.maps = none)) ∧
        ∃ fd, vmap k sz s = .panics "Failed to map fd" t ∧ s.Adds s.next fd t.descriptors ∧
          t.mappings = s.mappings) ∨
      (sz ≠ 0 ∧ k.outcomes.truncates = true ∧ k.outcomes.stats = true ∧ ∃ map, k.outcomes.maps = some map.ptr ∧
        vmap k sz s = .returns map t ∧
        (s.Unmapped map.ptr → t.load map.ptr map.len = List.replicate sz 0#8)))) := by
  unfold vmap
  rcases memfdAlloc_cases k sz s with ⟨hmakes, halloc⟩ | ⟨hmakes, hsz, htrunc, t, halloc, hnames, hfiles, hkept⟩ |
    ⟨hmakes, htrunc, fd, t, halloc, hfile, hnames, hfiles, hadds, hmappings⟩
  · exact .inl ⟨hmakes, by rw [halloc, Ending.bind_panics]⟩
  · exact .inr ⟨hmakes, t, hnames, hfiles, .inl ⟨hsz, htrunc, by rw [halloc, Ending.bind_panics], hkept⟩⟩
  have hzeros : t.files s.next = List.replicate sz 0#8 := by rw [hfiles, Function.update_self]
  have hempty : t.files s.next = [] ↔ sz = 0 := by rw [hzeros, List.replicate_eq_nil_iff]
  have hother : ∀ i ≠ s.next, t.files i = s.files i := fun i hi => by
    rw [hfiles, Function.update_of_ne hi]
  rw [halloc, Ending.bind_returns]
  refine .inr ⟨hmakes, ?_⟩
  rcases createRawFd_cases k hfile with ⟨hfails, hpanics⟩ | ⟨map, v, hreturns⟩
  · refine ⟨t, hnames, hother, .inr (.inl ⟨?_, fd, hpanics, hadds, hmappings⟩)⟩
    by_cases hsz : sz = 0
    · exact .inl hsz
    · exact .inr ⟨htrunc.resolve_left hsz, hfails.resolve_left fun hnil => hsz (hempty.mp hnil)⟩
  obtain ⟨i, hi, hne, hstats, hplaced, -, hlen, rfl⟩ := createRawFd_returns hreturns
  rw [hfile] at hi
  cases hi
  -- a mapping is never of no bytes
  have hsz : sz ≠ 0 := fun h0 => hne (hempty.mpr h0)
  refine ⟨t.withMapping map.ptr map.len s.next, hnames, hother,
    .inr (.inr ⟨hsz, htrunc.resolve_left hsz, hstats, map, hplaced, hreturns, fun hfree => ?_⟩)⟩
  have hfree' : t.Unmapped map.ptr := by rwa [State.Unmapped, hmappings]
  rw [hlen, State.load_withMapping hfree', hzeros]

/-- Where every call succeeds three zeros are shown. -/
theorem vmap_ends_three :
    ∃ t map, vmap (.willing 1 (by decide)) 3 twoFree = .returns map t ∧
      t.load map.ptr map.len = List.replicate 3 0#8 ∧ t.names = twoFree.names ∧
      ∀ i ≠ twoFree.next, t.files i = twoFree.files i := by
  rcases vmap_ends (.willing 1 (by decide)) 3 twoFree with
    ⟨hmakes, -⟩ | ⟨-, t, hnames, hfiles, ⟨-, htrunc, -⟩ | ⟨hfails, -⟩ | ⟨-, -, -, map, -, hreturns, hload⟩⟩
  · exact (hmakes ⟨rfl, List.mem_cons_self⟩).elim
  · exact (Bool.false_ne_true htrunc.symm).elim
  · rcases hfails with h0 | ⟨-, hstats | hmaps⟩
    · exact absurd h0 (by decide)
    · exact (Bool.false_ne_true hstats.symm).elim
    · exact (Option.some_ne_none _ hmaps).elim
  · exact ⟨t, map, hreturns, hload fun _ hm => (List.not_mem_nil hm).elim, hnames, hfiles⟩

end Shuffle3.V2
