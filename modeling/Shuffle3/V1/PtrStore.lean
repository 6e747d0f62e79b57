import Shuffle3.Foundations.Lifecycles

/-!
# The pointer store

The first version keeps the blocks it has to free in a linked list. A link holds a
block or is empty, and a mark says whether the block is an object, whose destructor is
run before it is freed. A new block goes to the first empty link, or to a new one at
the end. A collection releases all blocks and frees all links but the first, and leaves
in the first link the pointers to what it has freed.

## What is proved

* `store_frees_once` — in every run without collections, and the destruction of the
  store after it, each block is freed once, and what the links hold is what is live.
* `orderly_iff_collectsFresh` — when a run with collections frees nothing twice and
  leaves a store that can be used.
* `not_orderly_collected` — a block, a collection, and the destruction of the store.

## Honest scope

Allocations succeed, and a new block is at a pointer where none is live. A pointer that
was returned for a block is not the pointer of a later block at the same place.
Constructors and destructors leave the store alone.
-/

namespace Shuffle3.V1.PtrStore

open Foundations.Lifecycles Foundations.Lifecycles.Blocks

variable {P : Type} [DecidableEq P]

/-! ### The store -/

/-- A `store_t*`: it is null, or points to memory that has been freed, or to a link. -/
inductive StoreT (P : Type) where
  | null
  | freed
  | link (ptr : Option P) (isObj : Bool) (next : StoreT P)
  deriving DecidableEq

/-- `new_store`. -/
def newStore (P : Type) : StoreT P := .link none false .null

/-- `_store_ptr`: the first empty link, or a new one, gets the block, and `mark` is
what the caller does with its `is_obj`. -/
def storePtrWith (mark : Bool → Bool) (heap : P) : StoreT P → Option (StoreT P)
  | .null => none
  | .freed => none
  | .link none isObj next => some (.link (some heap) (mark isObj) next)
  | .link (some p) isObj .null => some (.link (some p) isObj (.link (some heap) (mark false) .null))
  | .link (some p) isObj next => (storePtrWith mark heap next).map (.link (some p) isObj)

/-- `store_malloc`, where `malloc` returns `block`. -/
def storeMalloc (block : P) (s : StoreT P) : Option (StoreT P × List (Event P)) :=
  (storePtrWith id block s).map fun s => (s, [.register block false])

/-- `store_ptr`. -/
def storePtr (heap : P) (s : StoreT P) : Option (StoreT P × List (Event P)) :=
  (storePtrWith id heap s).map fun s => (s, [.register heap false])

/-- `store_object`, where `malloc` returns `obj`. -/
def storeObject (obj : P) (s : StoreT P) : Option (StoreT P × List (Event P)) :=
  (storePtrWith (fun _ => true) obj s).map fun s => (s, [.construct obj, .register obj true])

/-- The destructor, if the link is marked, and `free`. A null pointer can be freed, but
there is no destructor to be read from it. -/
def destructAndFree : Option P → Bool → Option (List (Event P))
  | some p, isObj => some (release p isObj)
  | none, true => none
  | none, false => some []

/-- `store_free`. -/
def storeFree (ptr : Option P) : StoreT P → Option (StoreT P × List (Event P))
  | .null => none
  | .freed => none
  | .link q isObj next =>
    if q = ptr then (destructAndFree q isObj).map fun es => (.link none false next, es)
    else if next = .null then some (.link q isObj next, [])
    else (storeFree ptr next).map fun r => (.link q isObj r.1, r.2)

/-- `free_object`. -/
def freeObject (obj : P) : StoreT P → Option (StoreT P × List (Event P))
  | .null => none
  | .freed => none
  | .link q isObj next =>
    if q = some obj then some (.link none false next, release obj true)
    else if next = .null then some (.link q isObj next, [])
    else (freeObject obj next).map fun r => (.link q isObj r.1, r.2)

/-- The block of a link, if it holds one. -/
def releaseLink (ptr : Option P) (isObj : Bool) : List (Event P) :=
  match ptr with
  | some p => release p isObj
  | none => []

/-- `destroy_store`. -/
def destroyStore : StoreT P → Option (List (Event P))
  | .null => some []
  | .freed => none
  | .link ptr isObj next => (destroyStore next).map fun es => releaseLink ptr isObj ++ es

/-- A pointer to a link after the link is freed. -/
def StoreT.afterFree : StoreT P → StoreT P
  | .null => .null
  | _ => .freed

/-- `store_collect`: what `destroy_store` does, but for the first link, which is not
freed. Its mark is cleared. -/
def storeCollect : StoreT P → Option (StoreT P × List (Event P))
  | .null => some (.null, [])
  | .freed => none
  | .link ptr isObj next =>
    (destroyStore next).map fun es => (.link ptr false next.afterFree, releaseLink ptr isObj ++ es)

/-! ### What the links hold -/

/-- The block of a link with its mark, if the link holds one. -/
def slot (ptr : Option P) (isObj : Bool) : List (P × Bool) :=
  match ptr with
  | some p => [(p, isObj)]
  | none => []

namespace StoreT

/-- The blocks that the links hold, with the marks. -/
def slots : StoreT P → List (P × Bool)
  | .null => []
  | .freed => []
  | .link ptr isObj next => slot ptr isObj ++ next.slots

/-- No link that can be reached has been freed, and empty links are not marked. -/
def Sound : StoreT P → Prop
  | .null => True
  | .freed => False
  | .link ptr isObj next => (ptr = none → isObj = false) ∧ next.Sound

/-- There is a first link. -/
def HasFirst : StoreT P → Prop
  | .link _ _ _ => True
  | _ => False

omit [DecidableEq P] in
theorem Sound.hasFirst {s : StoreT P} (h : s.Sound) (hne : s ≠ .null) : s.HasFirst := by
  cases s with
  | null => exact absurd rfl hne
  | freed => exact h.elim
  | link ptr isObj next => trivial

/-- What a store means for the blocks: it holds exactly those that are live, each once
and with the right mark. -/
structure Holds (s : StoreT P) (σ : P → Status) : Prop where
  sound : s.Sound
  first : s.HasFirst
  live : ∀ p isObj, (p, isObj) ∈ s.slots ↔ σ p = .live isObj
  distinct : (s.slots.map Prod.fst).Nodup

end StoreT

open StoreT

/-- A new block is put into a link. -/
theorem storePtrWith_spec (mark : Bool → Bool) (heap : P) {s : StoreT P} (hs : s.Sound)
    (hfirst : s.HasFirst) :
    ∃ t, storePtrWith mark heap s = some t ∧ t.Sound ∧ t.HasFirst ∧
      t.slots.Perm ((heap, mark false) :: s.slots) := by
  induction s with
  | null => exact hfirst.elim
  | freed => exact hfirst.elim
  | link ptr isObj next ih =>
    obtain ⟨hmark, hnext⟩ := hs
    cases ptr with
    | none =>
      refine ⟨.link (some heap) (mark isObj) next, rfl, ⟨nofun, hnext⟩, trivial, ?_⟩
      rw [hmark rfl]
      exact .refl _
    | some p =>
      by_cases hnull : next = .null
      · subst hnull
        exact ⟨.link (some p) isObj (.link (some heap) (mark false) .null), rfl, ⟨nofun, nofun, trivial⟩, trivial,
          .swap _ _ _⟩
      · obtain ⟨t, ht, hsound, -, hslots⟩ := ih hnext (hnext.hasFirst hnull)
        refine ⟨.link (some p) isObj t, ?_, ⟨nofun, hsound⟩, trivial, ?_⟩
        · rw [storePtrWith, ht, Option.map_some]
          exact hnull
        · exact (hslots.cons _).trans (.swap _ _ _)

/-- What taking a block out does: nothing when no link holds it, and else its release. -/
def TakesOut (ptr : Option P) (ps qs : List (P × Bool)) (es : List (Event P)) : Prop :=
  ((∀ p, ptr = some p → p ∉ ps.map Prod.fst) ∧ qs = ps ∧ es = []) ∨
    ∃ p isObj, ptr = some p ∧ ps.Perm ((p, isObj) :: qs) ∧ es = release p isObj

omit [DecidableEq P] in
/-- Where the first link does not hold the block, it is taken out of the others. -/
theorem TakesOut.link {ptr q : Option P} {ps qs : List (P × Bool)} {es : List (Event P)}
    (h : TakesOut ptr ps qs es) (hq : q ≠ ptr) (isObj : Bool) :
    TakesOut ptr (slot q isObj ++ ps) (slot q isObj ++ qs) es := by
  rcases h with ⟨hnot, rfl, rfl⟩ | ⟨p, k, rfl, hperm, rfl⟩
  · refine .inl ⟨fun p hp => ?_, rfl, rfl⟩
    subst hp
    rw [List.map_append, List.mem_append, not_or]
    refine ⟨?_, hnot p rfl⟩
    cases q with
    | none => exact List.not_mem_nil
    | some r => simpa [slot, eq_comm] using hq
  · exact .inr ⟨p, k, rfl, (hperm.append_left _).trans List.perm_middle, rfl⟩

theorem storeFree_spec (ptr : Option P) {s : StoreT P} (hs : s.Sound) (hfirst : s.HasFirst) :
    ∃ t es, storeFree ptr s = some (t, es) ∧ t.Sound ∧ t.HasFirst ∧
      TakesOut ptr s.slots t.slots es := by
  induction s with
  | null => exact hfirst.elim
  | freed => exact hfirst.elim
  | link q isObj next ih =>
    obtain ⟨hmark, hnext⟩ := hs
    by_cases hq : q = ptr
    · subst hq
      refine ⟨.link none false next, releaseLink q isObj, ?_, ⟨fun _ => rfl, hnext⟩, trivial, ?_⟩
      · cases q with
        | none =>
          rw [storeFree, if_pos rfl, hmark rfl]
          rfl
        | some p =>
          rw [storeFree, if_pos rfl]
          rfl
      · cases q with
        | none => exact .inl ⟨nofun, rfl, rfl⟩
        | some p => exact .inr ⟨p, isObj, rfl, .refl _, rfl⟩
    by_cases hnull : next = .null
    · subst hnull
      have hnone : TakesOut ptr [] [] ([] : List (Event P)) :=
        .inl ⟨fun _ _ => List.not_mem_nil, rfl, rfl⟩
      exact ⟨.link q isObj .null, [], by rw [storeFree, if_neg hq, if_pos rfl], ⟨hmark, hnext⟩, trivial,
        hnone.link hq isObj⟩
    · obtain ⟨t, es, ht, hsound, -, htakes⟩ := ih hnext (hnext.hasFirst hnull)
      exact ⟨.link q isObj t, es, by rw [storeFree, if_neg hq, if_neg hnull, ht, Option.map_some],
        ⟨hmark, hsound⟩, trivial, htakes.link hq isObj⟩

/-- On an object `free_object` does what `store_free` does. -/
theorem freeObject_eq {obj : P} {s : StoreT P}
    (h : ∀ isObj, (obj, isObj) ∈ s.slots → isObj = true) :
    freeObject obj s = storeFree (some obj) s := by
  induction s with
  | null => rfl
  | freed => rfl
  | link q isObj next ih =>
    rw [freeObject, storeFree, ih fun k hk => h k (List.mem_append_right _ hk)]
    split_ifs with hq
    · subst hq
      rw [h isObj (List.mem_append_left _ List.mem_cons_self)]
      rfl
    · rfl
    · rfl

omit [DecidableEq P] in
/-- Destroying a store releases what it holds. -/
theorem destroyStore_spec {s : StoreT P} (hs : s.Sound) :
    destroyStore s = some (releases s.slots) := by
  induction s with
  | null => rfl
  | freed => exact hs.elim
  | link ptr isObj next ih =>
    rw [destroyStore, ih hs.2, Option.map_some]
    cases ptr with
    | none => rfl
    | some p => rfl

variable {σ : P → Status} {s t : StoreT P} {p : P} {isObj : Bool} {es : List (Event P)}

omit [DecidableEq P] in
theorem StoreT.Holds.notMem (h : s.Holds σ) (hp : (σ p).isLive = false) :
    p ∉ s.slots.map Prod.fst := by
  intro hmem
  obtain ⟨⟨q, k⟩, hq, rfl⟩ := List.mem_map.mp hmem
  rw [(h.live q k).mp hq] at hp
  cases hp

/-- A new block is live, and held. -/
theorem StoreT.Holds.register (h : s.Holds σ) (hp : (σ p).isLive = false) (ht : t.Sound)
    (hfirst : t.HasFirst) (hperm : t.slots.Perm ((p, isObj) :: s.slots)) :
    t.Holds (Function.update σ p (.live isObj)) where
  sound := ht
  first := hfirst
  live q k := by
    rw [hperm.mem_iff, List.mem_cons, h.live]
    by_cases hqp : q = p
    · subst hqp
      rw [Function.update_self]
      constructor
      · rintro (he | hlive)
        · rw [(Prod.mk.inj he).2]
        · rw [hlive] at hp
          cases hp
      · intro he
        rw [Status.live.inj he]
        exact .inl rfl
    · rw [Function.update_of_ne hqp]
      exact ⟨fun he => he.resolve_left fun he => hqp (Prod.mk.inj he).1, .inr⟩
  distinct := by
    rw [(hperm.map Prod.fst).nodup_iff, List.map_cons, List.nodup_cons]
    exact ⟨h.notMem hp, h.distinct⟩

/-- A block that is taken out is live no longer, and held no longer. -/
theorem StoreT.Holds.release (h : s.Holds σ) (ht : t.Sound) (hfirst : t.HasFirst)
    (hperm : s.slots.Perm ((p, isObj) :: t.slots)) :
    t.Holds (Function.update σ p (σ p).release) := by
  have hdistinct := h.distinct
  rw [(hperm.map Prod.fst).nodup_iff, List.map_cons, List.nodup_cons] at hdistinct
  refine ⟨ht, hfirst, fun q k => ?_, hdistinct.2⟩
  by_cases hqp : q = p
  · subst hqp
    rw [Function.update_self]
    refine ⟨fun hmem => absurd (List.mem_map.mpr ⟨_, hmem, rfl⟩) hdistinct.1, fun hlive => ?_⟩
    have hno := Status.isLive_release (σ q)
    rw [hlive] at hno
    cases hno
  · rw [Function.update_of_ne hqp, ← h.live, hperm.mem_iff, List.mem_cons]
    exact ⟨.inr, fun he => he.resolve_left fun he => hqp (Prod.mk.inj he).1⟩

/-! ### Calls -/

/-- A call of the store's user, with the new block where one is made. -/
inductive Call (P : Type) where
  | malloc (block : P)
  | ptr (heap : P)
  | object (obj : P)
  | free (ptr : Option P)
  | freeObject (obj : P)
  | collect
  deriving DecidableEq

/-- The function that is called. -/
def Call.exec : Call P → StoreT P → Option (StoreT P × List (Event P))
  | .malloc block => storeMalloc block
  | .ptr heap => storePtr heap
  | .object obj => storeObject obj
  | .free p => storeFree p
  | .freeObject obj => PtrStore.freeObject obj
  | .collect => storeCollect

/-- The calls one after another, and what each does to the blocks. -/
def run : StoreT P → List (Call P) → Option (StoreT P × List (List (Event P)))
  | s, [] => some (s, [])
  | s, c :: cs => (c.exec s).bind fun r => (run r.1 cs).map fun t => (t.1, r.2 :: t.2)

/-- What a call is for: the blocks after it. -/
def Call.effect (σ : P → Status) : Call P → P → Status
  | .malloc p => Function.update σ p (.live false)
  | .ptr p => Function.update σ p (.live false)
  | .object p => Function.update σ p (.live true)
  | .free none => σ
  | .free (some p) => Function.update σ p (σ p).release
  | .freeObject p => Function.update σ p (σ p).release
  | .collect => fun p => (σ p).release

/-- What is promised of the arguments: a new block is at a pointer where none is live,
and `free_object` gets a pointer that `store_object` returned. -/
def Call.Allowed (σ : P → Status) : Call P → Prop
  | .malloc p => (σ p).isLive = false
  | .ptr p => (σ p).isLive = false
  | .object p => (σ p).isLive = false
  | .free _ => True
  | .freeObject p => σ p = .live true ∨ σ p = .freed true
  | .collect => True

/-- The blocks after a run. -/
def effects (σ : P → Status) : List (Call P) → P → Status
  | [] => σ
  | c :: cs => effects (c.effect σ) cs

/-- What is promised of the arguments holds in the whole run. -/
def Allowed (σ : P → Status) : List (Call P) → Prop
  | [] => True
  | c :: cs => c.Allowed σ ∧ Allowed (c.effect σ) cs

/-- What a call may do: register its own block, or free the one it is told to. -/
def Call.Own : Call P → List (Event P) → Prop
  | .malloc p, es => es = [.register p false]
  | .ptr p, es => es = [.register p false]
  | .object p, es => es = [.construct p, .register p true]
  | .free q, es => es = [] ∨ ∃ p isObj, q = some p ∧ es = release p isObj
  | .freeObject p, es => es = [] ∨ es = release p true
  | .collect, _ => True

/-- What one call gives: the store holds the blocks that the call leaves, and its
events account for them. -/
def Does (c : Call P) (s : StoreT P) (σ : P → Status) : Prop :=
  ∃ t es, c.exec s = some (t, es) ∧ t.Holds (c.effect σ) ∧
    account ⟨σ, none⟩ es = some ⟨c.effect σ, none⟩ ∧ c.Own es

theorem malloc_does (h : s.Holds σ) (hp : (σ p).isLive = false) : Does (.malloc p) s σ := by
  obtain ⟨t, ht, hsound, hfirst, hperm⟩ := storePtrWith_spec id p h.sound h.first
  refine ⟨t, _, ?_, h.register hp hsound hfirst hperm, ?_, rfl⟩
  · rw [Call.exec, storeMalloc, ht]
    rfl
  · simp [account, step, hp, Call.effect]

theorem ptr_does (h : s.Holds σ) (hp : (σ p).isLive = false) : Does (.ptr p) s σ := malloc_does h hp

theorem object_does (h : s.Holds σ) (hp : (σ p).isLive = false) : Does (.object p) s σ := by
  obtain ⟨t, ht, hsound, hfirst, hperm⟩ := storePtrWith_spec (fun _ => true) p h.sound h.first
  refine ⟨t, _, ?_, h.register hp hsound hfirst hperm, ?_, rfl⟩
  · rw [Call.exec, storeObject, ht]
    rfl
  · simp [account, step, hp, Call.effect]

/-- A block is freed if it is live, and nothing is done if it is not. -/
theorem storeFree_does (h : s.Holds σ) (q : Option P) :
    ∃ t es, storeFree q s = some (t, es) ∧ t.Holds (Call.effect σ (.free q)) ∧
      account ⟨σ, none⟩ es = some ⟨Call.effect σ (.free q), none⟩ ∧
      (es = [] ∨ ∃ p isObj, q = some p ∧ σ p = .live isObj ∧ es = release p isObj) := by
  obtain ⟨t, es, ht, hsound, hfirst, ⟨hnot, hslots, rfl⟩ | ⟨p, isObj, rfl, hperm, rfl⟩⟩ :=
    storeFree_spec q h.sound h.first
  · -- no live block is at the pointer
    have heffect : Call.effect σ (.free q) = σ := by
      cases q with
      | none => rfl
      | some p =>
        have hdead : (σ p).isLive = false := Status.isLive_eq_false fun k hk =>
          hnot p rfl (List.mem_map.mpr ⟨_, (h.live p k).mpr hk, rfl⟩)
        rw [Call.effect, Status.release_eq_self hdead, Function.update_eq_self]
    rw [heffect]
    exact ⟨t, [], ht, ⟨hsound, hfirst, by rw [hslots]; exact h.live,
      by rw [hslots]; exact h.distinct⟩, rfl, .inl rfl⟩
  · have hlive := (h.live p isObj).mp (hperm.mem_iff.mpr List.mem_cons_self)
    refine ⟨t, _, ht, h.release hsound hfirst hperm, ?_, .inr ⟨p, isObj, rfl, hlive, rfl⟩⟩
    rw [account_release hlive, Call.effect, hlive, Status.release]

theorem free_does (h : s.Holds σ) (q : Option P) : Does (.free q) s σ := by
  obtain ⟨t, es, ht, hholds, haccount, hown⟩ := storeFree_does h q
  exact ⟨t, es, ht, hholds, haccount, hown.imp_right fun ⟨p, k, hq, _, he⟩ => ⟨p, k, hq, he⟩⟩

theorem freeObject_does (h : s.Holds σ) (hp : σ p = .live true ∨ σ p = .freed true) :
    Does (.freeObject p) s σ := by
  have hobj : ∀ k, σ p = .live k → k = true := by
    rintro k hk
    rcases hp with hp | hp <;> rw [hk] at hp
    · exact Status.live.inj hp
    · cases hp
  obtain ⟨t, es, ht, hholds, haccount, hown⟩ := storeFree_does h (some p)
  refine ⟨t, es, ?_, hholds, haccount, ?_⟩
  · rw [Call.exec, freeObject_eq fun k hk => hobj k ((h.live p k).mp hk), ht]
  · rcases hown with rfl | ⟨r, k, hr, hlive, rfl⟩
    · exact .inl rfl
    · cases hr
      rw [hobj k hlive]
      exact .inr rfl

/-- **One call does what it is for.** -/
theorem does_of_allowed {c : Call P} (h : s.Holds σ) (hc : c.Allowed σ) (hcollect : c ≠ .collect) :
    Does c s σ := by
  cases c with
  | malloc p => exact malloc_does h hc
  | ptr p => exact ptr_does h hc
  | object p => exact object_does h hc
  | free q => exact free_does h q
  | freeObject p => exact freeObject_does h hc
  | collect => exact absurd rfl hcollect

omit [DecidableEq P] in
theorem holds_newStore : (newStore P).Holds (start P).status :=
  ⟨⟨fun _ => rfl, trivial⟩, trivial, fun _ _ => by simp [newStore, slots, slot, start], List.nodup_nil⟩

/-- Destroying the store frees every block that is live. -/
theorem destroyStore_does (h : s.Holds σ) :
    ∃ es, destroyStore s = some es ∧ account ⟨σ, none⟩ es = some ⟨fun p => (σ p).release, none⟩ :=
  ⟨_, destroyStore_spec h.sound, account_releases_all h.live h.distinct⟩

/-! ### Runs without collections -/

/-- Each call of a run does what it is for. -/
theorem run_does {cs : List (Call P)} (h : s.Holds σ) (hcs : Allowed σ cs)
    (hcollect : Call.collect ∉ cs) :
    ∃ t ess, run s cs = some (t, ess) ∧ t.Holds (effects σ cs) ∧
      account ⟨σ, none⟩ ess.flatten = some ⟨effects σ cs, none⟩ ∧ List.Forall₂ Call.Own cs ess := by
  induction cs generalizing s σ with
  | nil => exact ⟨s, [], rfl, h, rfl, .nil⟩
  | cons c cs ih =>
    rw [List.mem_cons, not_or] at hcollect
    obtain ⟨t, es, ht, hholds, haccount, hown⟩ := does_of_allowed h hcs.1 (Ne.symm hcollect.1)
    obtain ⟨u, ess, hu, hholds', haccount', howns⟩ := ih hholds hcs.2 hcollect.2
    refine ⟨u, es :: ess, ?_, hholds', ?_, .cons hown howns⟩
    · rw [run, ht, Option.bind_some, hu, Option.map_some]
    · rw [List.flatten_cons, account_append, haccount, Option.bind_some, haccount', effects]

/-- A run and the end of the store: every event is accounted for, and no block is left. -/
theorem account_run_destroy {cs : List (Call P)} (h : Allowed (start P).status cs)
    (hcollect : Call.collect ∉ cs) :
    ∃ t ess es b, run (newStore P) cs = some (t, ess) ∧ destroyStore t = some es ∧
      t.Holds (effects (start P).status cs) ∧ List.Forall₂ Call.Own cs ess ∧
      (start P).account (ess.flatten ++ es) = some b ∧ b.running = none ∧ ∀ p, (b.status p).isLive = false := by
  obtain ⟨t, ess, ht, hholds, haccount, hown⟩ := run_does holds_newStore h hcollect
  obtain ⟨es, hes, haccount'⟩ := destroyStore_does hholds
  refine ⟨t, ess, es, ⟨fun p => (effects (start P).status cs p).release, none⟩, ht, hes, hholds, hown, ?_, rfl,
    fun p => Status.isLive_release _⟩
  rw [account_append]
  exact (congrArg (·.bind fun b => account b es) haccount).trans haccount'

/-- **Each block is freed once**: in every run of calls on a new store, after each of
them the links hold the live blocks, each once and with the right mark; each call frees
nothing but the block that it is told to; and when the store is destroyed each block has
been freed once, and each object right after its destructor was run. -/
theorem store_frees_once {cs : List (Call P)} (h : Allowed (start P).status cs)
    (hcollect : Call.collect ∉ cs) :
    ∃ t ess es, run (newStore P) cs = some (t, ess) ∧ destroyStore t = some es ∧
      t.Holds (effects (start P).status cs) ∧ List.Forall₂ Call.Own cs ess ∧ FreesOnce (ess.flatten ++ es) := by
  obtain ⟨t, ess, es, b, ht, hes, hholds, hown, haccount, hrun, hlive⟩ :=
    account_run_destroy h hcollect
  exact ⟨t, ess, es, ht, hes, hholds, hown, freesOnce_of_account haccount hlive hrun⟩

/-- A link is used for a raw block, and after it for an object at the same pointer. -/
theorem store_frees_once_reused :
    ∃ t ess es, run (newStore ℕ) [.malloc 0, .malloc 1, .free (some 0), .object 0, .freeObject 0] =
      some (t, ess) ∧
      destroyStore t = some es ∧
      t.Holds (effects (start ℕ).status [.malloc 0, .malloc 1, .free (some 0), .object 0, .freeObject 0]) ∧
      List.Forall₂ Call.Own [.malloc 0, .malloc 1, .free (some 0), .object 0, .freeObject 0] ess ∧
      FreesOnce (ess.flatten ++ es) :=
  store_frees_once (by simp [Allowed, Call.Allowed, Call.effect, start, Status.isLive, Status.release]) (by decide)

/-! ### Runs with collections -/

namespace StoreT

/-- No link that can be reached has been freed. -/
def Intact : StoreT P → Prop
  | .null => True
  | .freed => False
  | .link _ _ next => next.Intact

/-- The first link is empty, and there is no other. -/
def IsFresh : StoreT P → Prop
  | .link none _ .null => True
  | _ => False

omit [DecidableEq P] in
theorem isFresh_iff {s : StoreT P} : s.IsFresh ↔ ∃ isObj, s = .link none isObj .null := by
  constructor
  · intro h
    match s, h with
    | .link none isObj .null, _ => exact ⟨isObj, rfl⟩
  · rintro ⟨isObj, rfl⟩
    trivial

omit [DecidableEq P] in
theorem Sound.intact {s : StoreT P} (h : s.Sound) : s.Intact := by
  induction s with
  | null => trivial
  | freed => exact h
  | link ptr isObj next ih => exact ih h.2

/-- A store that can be used: it reaches no freed link and names no freed block, and it
can be destroyed, which frees every block that is left. -/
structure Usable (s : StoreT P) (b : Blocks P) : Prop where
  intact : s.Intact
  live : ∀ p isObj, (p, isObj) ∈ s.slots → (b.status p).isLive = true
  destroyed : ∃ es c, destroyStore s = some es ∧ b.account es = some c ∧ ∀ p, (c.status p).isLive = false

theorem Holds.usable (h : s.Holds σ) : s.Usable ⟨σ, none⟩ where
  intact := h.sound.intact
  live p k hp := by
    show (σ p).isLive = true
    rw [(h.live p k).mp hp, Status.isLive_live]
  destroyed := by
    obtain ⟨es, hes, haccount⟩ := destroyStore_does h
    exact ⟨es, _, hes, haccount, fun p => Status.isLive_release _⟩

end StoreT

/-- **In an orderly run** the store can be used before and after each call, nothing is
freed that is not live, and a collection leaves no block. -/
def Orderly : StoreT P → Blocks P → List (Call P) → Prop
  | s, b, [] => s.Usable b
  | s, b, c :: cs => s.Usable b ∧ ∃ t es b', c.exec s = some (t, es) ∧ b.account es = some b' ∧
      (c = .collect → ∀ p, (b'.status p).isLive = false) ∧ Orderly t b' cs

/-- Every collection of a run finds the first link empty and no other link. -/
def CollectsFresh : StoreT P → List (Call P) → Prop
  | _, [] => True
  | s, c :: cs => (c = .collect → s.IsFresh) ∧ ∀ t es, c.exec s = some (t, es) → CollectsFresh t cs

theorem Orderly.usable {b : Blocks P} {cs : List (Call P)} (h : Orderly s b cs) : s.Usable b := by
  cases cs with
  | nil => exact h
  | cons c cs => exact h.1

/-- After a collection the first link still names its block, and the next link is freed. -/
theorem isFresh_of_usable_collect {b : Blocks P} (h : s.Holds σ)
    (hexec : storeCollect s = some (t, es)) (haccount : account ⟨σ, none⟩ es = some b)
    (ht : t.Usable b) : s.IsFresh := by
  cases s with
  | null => exact h.first.elim
  | freed => exact h.first.elim
  | link ptr isObj next =>
    rw [storeCollect, destroyStore_spec h.sound.2] at hexec
    cases hexec
    cases next with
    | freed => exact ht.intact.elim
    | link ptr' isObj' next' => exact ht.intact.elim
    | null =>
      cases ptr with
      | none => trivial
      | some p =>
        -- the block that it names is freed
        have hlive := (h.live p isObj).mp List.mem_cons_self
        have hfreed : account ⟨σ, none⟩ (release p isObj) = some b := by
          simpa [releaseLink, releases, slots] using haccount
        rw [account_release hlive] at hfreed
        cases hfreed
        have hname := ht.live p false List.mem_cons_self
        simp [Status.isLive] at hname

/-- A collection of a fresh store does what it is for, since there is nothing to do. -/
theorem collect_does (h : s.Holds σ) (hs : s.IsFresh) : Does .collect s σ := by
  obtain ⟨isObj, rfl⟩ := isFresh_iff.mp hs
  have hnone : Call.effect σ .collect = σ := by
    funext p
    exact Status.release_eq_self
      (Status.isLive_eq_false fun k hk => List.not_mem_nil ((h.live p k).mpr hk))
  rw [Does, hnone]
  exact ⟨.link none false .null, [], rfl, ⟨⟨fun _ => rfl, trivial⟩, trivial, h.live, h.distinct⟩, rfl, trivial⟩

/-- One call: a run goes on from what the call is for. -/
theorem orderly_cons_iff {c : Call P} {cs : List (Call P)} (h : s.Holds σ)
    (hexec : c.exec s = some (t, es)) (haccount : account ⟨σ, none⟩ es = some ⟨c.effect σ, none⟩) :
    Orderly s ⟨σ, none⟩ (c :: cs) ↔ Orderly t ⟨c.effect σ, none⟩ cs := by
  constructor
  · rintro ⟨-, t', es', b', hexec', haccount', -, hrest⟩
    rw [hexec] at hexec'
    cases hexec'
    rw [haccount] at haccount'
    cases haccount'
    exact hrest
  · intro hrest
    refine ⟨h.usable, t, es, _, hexec, haccount, ?_, hrest⟩
    rintro rfl p
    exact Status.isLive_release _

theorem collectsFresh_cons_iff {c : Call P} {cs : List (Call P)} (hexec : c.exec s = some (t, es)) :
    CollectsFresh s (c :: cs) ↔ (c = .collect → s.IsFresh) ∧ CollectsFresh t cs := by
  refine and_congr_right fun _ => ⟨fun h => h t es hexec, fun h t' es' hexec' => ?_⟩
  rw [hexec] at hexec'
  cases hexec'
  exact h

/-- From a store that holds the live blocks. -/
theorem orderly_iff {cs : List (Call P)} (h : s.Holds σ) (hcs : Allowed σ cs) :
    Orderly s ⟨σ, none⟩ cs ↔ CollectsFresh s cs := by
  induction cs generalizing s σ with
  | nil => exact iff_of_true h.usable trivial
  | cons c cs ih =>
    by_cases hfresh : c = .collect → s.IsFresh
    · have hdoes : Does c s σ := by
        by_cases hc : c = .collect
        · rw [hc]
          exact collect_does h (hfresh hc)
        · exact does_of_allowed h hcs.1 hc
      obtain ⟨t, es, hexec, hholds, haccount, -⟩ := hdoes
      rw [orderly_cons_iff h hexec haccount, ih hholds hcs.2, collectsFresh_cons_iff hexec]
      exact (and_iff_right hfresh).symm
    · refine iff_of_false ?_ fun hc => hfresh hc.1
      rintro ⟨-, t, es, b, hexec, haccount, -, hrest⟩
      apply hfresh
      rintro rfl
      exact isFresh_of_usable_collect h hexec haccount hrest.usable

/-- **Collections leave a store that can be used** if and only if each of them finds the
first link empty and no other link. -/
theorem orderly_iff_collectsFresh {cs : List (Call P)} (h : Allowed (start P).status cs) :
    Orderly (newStore P) (start P) cs ↔ CollectsFresh (newStore P) cs :=
  orderly_iff holds_newStore h

/-- A block is freed, and what is left is collected. -/
theorem orderly_iff_collectsFresh_freed :
    Orderly (newStore ℕ) (start ℕ) [.malloc 0, .free (some 0), .collect] ↔
      CollectsFresh (newStore ℕ) [.malloc 0, .free (some 0), .collect] :=
  orderly_iff_collectsFresh (by simp [Allowed, Call.Allowed, start, Status.isLive])

/-- A block is collected, and the store still names it: destroying the store frees it again. -/
theorem not_orderly_collected :
    ¬ ∀ cs : List (Call ℕ), Allowed (start ℕ).status cs → Orderly (newStore ℕ) (start ℕ) cs := by
  intro h
  have hrun := h [.malloc 0, .collect] (by simp [Allowed, Call.Allowed, start, Status.isLive])
  obtain ⟨-, t, es, b, hexec, haccount, -, hrun⟩ := hrun
  cases hexec
  cases haccount
  obtain ⟨-, t, es, b, hexec, haccount, -, hrun⟩ := hrun
  cases hexec
  cases haccount
  obtain ⟨es, c, hdestroy, haccount, -⟩ := hrun.destroyed
  cases hdestroy
  cases haccount

end Shuffle3.V1.PtrStore
