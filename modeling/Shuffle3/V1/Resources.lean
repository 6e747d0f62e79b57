import Mathlib.Data.Multiset.Bind
import Mathlib.Tactic.Abel
import Shuffle3.Foundations.Custody
import Shuffle3.V1.PtrStore

/-!
# Scopes and what they release

`MANAGED` makes a pointer store for a scope, and destroys it at the end. Arrays and
generators are objects of a store: each has a block of its own, and an array in a file has
the buffer of its last element and perhaps its stream, and their destructors release these.
Scopes are nested, and a function can be given the store of an outer one.

## What is proved

* `does_of_proper` — one call keeps the account: what the stores, their objects and the
  caller hold is what is open.
* `scopes_orderly` — so do all calls of a run, and a run that leaves all its scopes, and
  releases what it has outside of them, releases everything, once and not too soon.

## Honest scope

Allocations succeed, and the links of a store are not counted as blocks. A block is new
when it is allocated, or was freed just before.
-/

namespace Shuffle3.V1.Resources

open Foundations Foundations.Custody
open PtrStore (StoreT newStore storeMalloc storeObject destroyStore)
open Lifecycles.Blocks (release releases)

/-! ### Objects -/

/-- A block of memory, or a stream. -/
inductive Resource (P F : Type) where
  | block (p : P)
  | stream (f : F)
  deriving DecidableEq

/-- What an object is to its destructor: a `struct array` in memory or in a file, or a
`struct rng_algo`. -/
inductive Data (P F : Type) where
  | memory (this : P)
  | file (this : P) (tlState : Option P) (state : F) (ownsStream : Bool)
  | rng (algo : P)

variable {P F : Type}

/-- The block of an array or of a generator. -/
def Data.this : Data P F → P
  | .memory this => this
  | .file this _ _ _ => this
  | .rng algo => algo

/-- What the destructor releases, in this order. -/
def Data.owned : Data P F → List (Resource P F)
  | .memory this => [.block this]
  | .file this tlState state ownsStream =>
    (tlState.map .block).toList ++ (if ownsStream then [.stream state] else []) ++ [.block this]
  | .rng algo => [.block algo]

/-- What the destructor reads before it releases. -/
def Data.reads : Data P F → List (Resource P F)
  | .memory _ => []
  | .file this _ _ _ => [.block this]
  | .rng algo => [.block algo]

/-- What the destructor leaves open, and the array reads from. -/
def Data.Borrows (r : Resource P F) : Data P F → Prop
  | .file _ _ state ownsStream => ownsStream = false ∧ .stream state = r
  | _ => False

/-- A `struct array`. -/
def Data.IsArray : Data P F → Prop
  | .rng _ => False
  | _ => True

/-- `_ar_memory_destructor`, `_ar_file_destructor` or `_rng_object_destructor`. -/
def destructor (obj : P) : Option (Data P F) → List (Event (Resource P F))
  | none => []
  | some d => .use (.block obj) :: (d.reads.map .use ++ d.owned.map .release)

/-- What the events of a store are for the blocks and streams. -/
def translate (objects : P → Option (Data P F)) : Lifecycles.Event P → List (Event (Resource P F))
  | .construct _ => []
  | .register p _ => [.acquire (.block p)]
  | .destruct p => destructor p (objects p)
  | .free p => [.release (.block p)]

/-! ### Scopes -/

/-- The stores, the innermost first, the objects, and what is open outside of the stores. -/
structure Env (P F : Type) where
  stores : List (StoreT P)
  objects : P → Option (Data P F)
  loose : Multiset (Resource P F)

/-- Before `main`. -/
def Env.start (P F : Type) : Env P F := ⟨[], fun _ => none, 0⟩

/-- A call, with the new blocks where some are made. A store is given by how many scopes
are inside it. -/
inductive Call (P F : Type) where
  | enter
  | leave
  | smalloc (k : ℕ) (block : P)
  | storeFree (k : ℕ) (ptr : Option P)
  | freeObject (k : ℕ) (obj : P)
  | createMemory (k : ℕ) (this obj : P)
  | createFile (k : ℕ) (this obj : P) (src : F) (ownsStream : Bool)
  | rngObject (k : ℕ) (algo obj : P)
  /-- `ar_get` of an item that there is, which is read. -/
  | get (obj buffer : P)
  /-- `ar_set`, with an item that is elsewhere. -/
  | set (obj : P)
  /-- `ar_set`, with the item that `ar_get` has returned last. -/
  | setGot (obj : P)
  /-- `fopen` or `malloc`. -/
  | acquire (r : Resource P F)
  /-- What is read from or written to. -/
  | use (r : Resource P F)
  /-- `fclose` or `free`. -/
  | release (r : Resource P F)

variable [DecidableEq P] [DecidableEq F]

/-- A call of a function of the pointer store. -/
def onStore (k : ℕ) (f : StoreT P → Option (StoreT P × List (Lifecycles.Event P))) (e : Env P F) :
    Option (Env P F × List (Event (Resource P F))) := do
  let s ← e.stores[k]?
  let (t, es) ← f s
  some ({ e with stores := e.stores.set k t }, es.flatMap (translate e.objects))

/-- A block is allocated and made an object. -/
def createObject (k : ℕ) (obj : P) (d : Data P F) (reads : List (Resource P F)) (e : Env P F) :
    Option (Env P F × List (Event (Resource P F))) :=
  (onStore k (storeObject obj) { e with objects := Function.update e.objects obj (some d) }).map fun r =>
    (r.1, .acquire (.block d.this) :: (reads.map .use ++ r.2))

/-- `ar_get`. Of an array in a file the item before is freed. -/
def get (obj buffer : P) (e : Env P F) : Option (Env P F × List (Event (Resource P F))) :=
  match e.objects obj with
  | some (.memory this) => some (e, [.use (.block this)])
  | some (.file this tlState state owns) =>
    some ({ e with objects := Function.update e.objects obj (some (.file this (some buffer) state owns)) },
      .use (.block this) :: .use (.stream state) :: ((tlState.map .block).toList.map .release ++
        [.acquire (.block buffer), .use (.stream state), .use (.block buffer)]))
  | _ => none

/-- `ar_set`, with the item that `got` says. -/
def set (got : Bool) (obj : P) (e : Env P F) : Option (Env P F × List (Event (Resource P F))) :=
  match e.objects obj with
  | some (.memory this) => some (e, [.use (.block this)])
  | some (.file this tlState state _) =>
    some (e, .use (.block this) :: .use (.stream state) ::
      if got then (tlState.map .block).toList.map .use else [])
  | _ => none

/-- The effect of a call on the environment, and the blocks and streams it touches. -/
def Call.exec : Call P F → Env P F → Option (Env P F × List (Event (Resource P F)))
  | .enter, e => some ({ e with stores := newStore P :: e.stores }, [])
  | .leave, e => match e.stores with
    | [] => none
    | s :: ss => (destroyStore s).map fun es => ({ e with stores := ss }, es.flatMap (translate e.objects))
  | .smalloc k p, e => onStore k (storeMalloc p) e
  | .storeFree k p, e => onStore k (PtrStore.storeFree p) e
  | .freeObject k p, e => onStore k (PtrStore.freeObject p) e
  | .createMemory k this obj, e => createObject k obj (.memory this) [] e
  | .createFile k this obj src owns, e => createObject k obj (.file this none src owns) [.stream src]
    { e with loose := if owns then e.loose.erase (.stream src) else e.loose }
  | .rngObject k algo obj, e => createObject k obj (.rng algo) [] e
  | .get obj buffer, e => Resources.get obj buffer e
  | .set obj, e => Resources.set false obj e
  | .setGot obj, e => Resources.set true obj e
  | .acquire r, e => some ({ e with loose := r ::ₘ e.loose }, [.acquire r])
  | .use r, e => some (e, [.use r])
  | .release r, e => some ({ e with loose := e.loose.erase r }, [.release r])

/-- The calls one after another. -/
def run : List (Call P F) → Env P F → Option (Env P F × List (Event (Resource P F)))
  | [], e => some (e, [])
  | c :: cs, e => (c.exec e).bind fun r => (run cs r.1).map fun t => (t.1, r.2 ++ t.2)

/-! ### What is held -/

/-- What a link holds, with what the destructor of its object releases. -/
def slotHeld (objects : P → Option (Data P F)) (x : P × Bool) : List (Resource P F) :=
  (if x.2 then ((objects x.1).map Data.owned).getD [] else []) ++ [.block x.1]

/-- The blocks in the links of all stores. -/
def Env.slots (e : Env P F) : Multiset (P × Bool) :=
  (e.stores.map fun s => (s.slots : Multiset (P × Bool))).sum

/-- The open blocks and streams: what the links of all stores hold, and what is open outside
of the stores. -/
def Env.total (e : Env P F) : Multiset (Resource P F) :=
  e.slots.bind (fun x => (slotHeld e.objects x : Multiset (Resource P F))) + e.loose

/-- An array reads from a stream that it does not own. -/
def Env.Borrows (e : Env P F) (r : Resource P F) : Prop :=
  ∃ x ∈ e.slots, x.2 = true ∧ ∃ d ∈ e.objects x.1, d.Borrows r

/-- The stores can be used, nothing is held twice, and a stream that is borrowed is open. -/
structure Env.Inv (e : Env P F) : Prop where
  sound : ∀ s ∈ e.stores, s.Sound ∧ s.HasFirst
  nodup : e.total.Nodup
  borrowed : ∀ r, e.Borrows r → r ∈ e.loose

/-- The buffer that `ar_get` of an array in a file makes may be where the one before was. -/
def Renews (buffer : P) (total : Multiset (Resource P F)) : Option (Data P F) → Prop
  | some (.file _ tlState _ _) => .block buffer ∈ total → tlState = some buffer
  | _ => True

/-- What `malloc` and `fopen` promise: what they return is not open. -/
def Call.Fresh (e : Env P F) : Call P F → Prop
  | .smalloc _ p => .block p ∉ e.total
  | .createMemory _ this obj => .block this ∉ e.total ∧ .block obj ∉ e.total ∧ this ≠ obj
  | .createFile _ this obj _ _ => .block this ∉ e.total ∧ .block obj ∉ e.total ∧ this ≠ obj
  | .rngObject _ algo obj => .block algo ∉ e.total ∧ .block obj ∉ e.total ∧ algo ≠ obj
  | .get obj buffer => Renews buffer e.total (e.objects obj)
  | .acquire r => r ∉ e.total
  | _ => True

/-- A live array. -/
def Env.IsArray (e : Env P F) (obj : P) : Prop :=
  (obj, true) ∈ e.slots ∧ ∃ d ∈ e.objects obj, d.IsArray

/-- A call that its caller may make: the store is there, an object that is read or written is a
live array and one that is freed is an object, what is used is open, and a stream or block
that is released is outside of the stores and lent to no array. -/
def Call.Proper (e : Env P F) : Call P F → Prop
  | .enter => True
  | .leave => e.stores ≠ []
  | .smalloc k _ => k < e.stores.length
  | .storeFree k _ => k < e.stores.length
  | .freeObject k p => ∃ s ∈ e.stores[k]?, ∀ x ∈ s.slots, x.1 = p → x.2 = true
  | .createMemory k _ _ => k < e.stores.length
  | .createFile k _ _ src owns => k < e.stores.length ∧ .stream src ∈ e.loose ∧
      (owns = true → ¬ e.Borrows (.stream src))
  | .rngObject k _ _ => k < e.stores.length
  | .get obj _ => e.IsArray obj
  | .set obj => e.IsArray obj
  | .setGot obj => e.IsArray obj
  | .acquire _ => True
  | .use r => r ∈ e.total
  | .release r => r ∈ e.loose ∧ ¬ e.Borrows r

instance (buffer : P) (total : Multiset (Resource P F)) (o : Option (Data P F)) :
    Decidable (Renews buffer total o) :=
  match o with
  | none | some (.memory _) | some (.rng _) => isTrue trivial
  | some (.file _ tlState _ _) => inferInstanceAs (Decidable (.block buffer ∈ total → tlState = some buffer))

instance (r : Resource P F) (d : Data P F) : Decidable (d.Borrows r) :=
  match d with
  | .memory _ | .rng _ => isFalse id
  | .file _ _ state ownsStream => inferInstanceAs (Decidable (ownsStream = false ∧ .stream state = r))

instance (e : Env P F) (r : Resource P F) : Decidable (e.Borrows r) :=
  Multiset.decidableExistsMultiset

omit [DecidableEq P] [DecidableEq F] in
instance (d : Data P F) : Decidable d.IsArray :=
  match d with
  | .memory _ | .file .. => isTrue trivial
  | .rng _ => isFalse id

instance (e : Env P F) (obj : P) : Decidable (e.IsArray obj) := inferInstanceAs (Decidable (_ ∧ _))

instance (e : Env P F) (c : Call P F) : Decidable (c.Fresh e) :=
  match c with
  | .smalloc .. | .acquire _ => inferInstanceAs (Decidable (_ ∉ _))
  | .createMemory .. | .createFile .. | .rngObject .. => inferInstanceAs (Decidable (_ ∧ _ ∧ _))
  | .get .. => inferInstanceAs (Decidable (Renews ..))
  | .enter | .leave | .storeFree .. | .freeObject .. | .set _ | .setGot _ | .use _ | .release _ => isTrue trivial

instance (e : Env P F) (c : Call P F) : Decidable (c.Proper e) :=
  match c with
  | .enter | .acquire _ => isTrue trivial
  | .leave => inferInstanceAs (Decidable (_ ≠ _))
  | .smalloc .. | .storeFree .. | .createMemory .. | .rngObject .. => inferInstanceAs (Decidable (_ < _))
  | .freeObject k p => inferInstanceAs (Decidable (∃ s ∈ e.stores[k]?, ∀ x ∈ s.slots, x.1 = p → x.2 = true))
  | .createFile .. => inferInstanceAs (Decidable (_ ∧ _ ∧ _))
  | .get .. | .set _ | .setGot _ => inferInstanceAs (Decidable (e.IsArray _))
  | .use _ => inferInstanceAs (Decidable (_ ∈ _))
  | .release _ => inferInstanceAs (Decidable (_ ∧ _))

/-- What a call does to what is held: it can be made, and the account goes on. -/
def Does (c : Call P F) (e : Env P F) : Prop :=
  ∃ e' es, c.exec e = some (e', es) ∧ e'.Inv ∧ account e.total es = some e'.total

variable {e e' : Env P F} {s t : StoreT P} {p this obj : P} {isObj : Bool} {d : Data P F} {k : ℕ}
  {rest : Multiset (Resource P F)} {objects : P → Option (Data P F)}

/-! ### Releasing -/

omit [DecidableEq P] [DecidableEq F] in
theorem reads_subset_owned (d : Data P F) : ∀ r ∈ d.reads, r ∈ d.owned := by
  cases d <;> simp [Data.reads, Data.owned]

theorem account_uses {rs : List (Resource P F)} (h : ∀ r ∈ rs, r ∈ rest)
    (es : List (Event (Resource P F))) :
    account rest (rs.map .use ++ es) = account rest es := by
  induction rs with
  | nil => rfl
  | cons r rs ih =>
    rw [List.map_cons, List.cons_append, account_use (h r List.mem_cons_self)]
    exact ih fun r' hr' => h r' (List.mem_cons_of_mem _ hr')

/-- The release of a slot releases what it holds. -/
theorem account_slot (p : P) (isObj : Bool) (rest : Multiset (Resource P F)) :
    account ((slotHeld objects (p, isObj) : Multiset (Resource P F)) + rest)
      ((release p isObj).flatMap (translate objects)) = some rest := by
  cases isObj with
  | false => exact account_releases [.block p] rest
  | true =>
    have hall := account_releases (slotHeld objects (p, true)) rest
    show account _ (destructor p (objects p) ++ [.release (.block p)]) = some rest
    cases hd : objects p with
    | none =>
      simp only [slotHeld, hd] at hall ⊢
      exact hall
    | some d =>
      have hheld : slotHeld objects (p, true) = d.owned ++ [.block p] := by simp [slotHeld, hd]
      rw [hheld] at hall ⊢
      rw [destructor, List.cons_append, List.append_assoc, account_use (by simp), account_uses fun r hr => ?_]
      · simpa using hall
      · have := reads_subset_owned d r hr
        simp [this]

theorem account_slots (ps : List (P × Bool)) (rest : Multiset (Resource P F)) :
    account ((ps : Multiset (P × Bool)).bind (fun x => (slotHeld objects x : Multiset (Resource P F))) + rest)
      ((releases ps).flatMap (translate objects)) = some rest := by
  induction ps with
  | nil => rw [Multiset.coe_nil, Multiset.zero_bind, Multiset.zero_add]; rfl
  | cons x ps ih =>
    rw [← Multiset.cons_coe, Multiset.cons_bind, Multiset.add_assoc, releases, List.flatMap_append, account_append,
      account_slot, Option.bind_some, ih]

/-! ### Slots -/

omit [DecidableEq P] [DecidableEq F] in
/-- Replacing a store trades its slots for those of the other. -/
theorem sum_set {ss : List (StoreT P)} (hs : ss[k]? = some s) (t : StoreT P) :
    ((ss.set k t).map fun s => (s.slots : Multiset (P × Bool))).sum + s.slots =
      (ss.map fun s => (s.slots : Multiset (P × Bool))).sum + t.slots := by
  induction ss generalizing k with
  | nil => cases hs
  | cons u ss ih =>
    cases k with
    | zero =>
      obtain rfl : u = s := Option.some.inj hs
      simp only [List.set_cons_zero, List.map_cons, List.sum_cons]
      abel
    | succ k =>
      have hrest := ih (k := k) hs
      simp only [List.set_cons_succ, List.map_cons, List.sum_cons]
      rw [add_assoc, hrest, add_assoc]

omit [DecidableEq P] [DecidableEq F] in
theorem slots_set_cons (hs : e.stores[k]? = some s) (hperm : t.slots.Perm ((p, isObj) :: s.slots)) :
    ({ e with stores := e.stores.set k t } : Env P F).slots = (p, isObj) ::ₘ e.slots := by
  have hsum := sum_set hs t
  rw [Multiset.coe_eq_coe.mpr hperm, ← Multiset.cons_coe, Multiset.add_cons] at hsum
  rw [← Multiset.cons_add] at hsum
  exact add_right_cancel hsum

omit [DecidableEq P] [DecidableEq F] in
theorem slots_set_of_cons (hs : e.stores[k]? = some s)
    (hperm : s.slots.Perm ((p, isObj) :: t.slots)) :
    e.slots = (p, isObj) ::ₘ ({ e with stores := e.stores.set k t } : Env P F).slots := by
  have hsum := sum_set hs t
  rw [Multiset.coe_eq_coe.mpr hperm, ← Multiset.cons_coe, Multiset.add_cons, ← Multiset.cons_add] at hsum
  exact (add_right_cancel hsum).symm

omit [DecidableEq P] [DecidableEq F] in
theorem slots_set_of_perm (hs : e.stores[k]? = some s) (hslots : t.slots = s.slots) :
    ({ e with stores := e.stores.set k t } : Env P F).slots = e.slots := by
  have hsum := sum_set hs t
  rw [hslots] at hsum
  exact add_right_cancel hsum

omit [DecidableEq P] [DecidableEq F] in
/-- A new store holds nothing. -/
theorem slots_enter (e : Env P F) :
    ({ e with stores := newStore P :: e.stores } : Env P F).slots = e.slots := by
  rw [Env.slots, List.map_cons, List.sum_cons]
  exact zero_add _

omit [DecidableEq P] [DecidableEq F] in
theorem mem_slots_of_mem (hs : s ∈ e.stores) {x : P × Bool} (hx : x ∈ s.slots) : x ∈ e.slots := by
  obtain ⟨ss, objects, loose⟩ := e
  induction ss with
  | nil => cases hs
  | cons u ss ih =>
    rw [Env.slots, List.map_cons, List.sum_cons, Multiset.mem_add]
    rcases List.mem_cons.mp hs with rfl | hs
    · exact .inl hx
    · exact .inr (ih hs)

omit [DecidableEq P] [DecidableEq F] in
theorem sound_set (h : ∀ s ∈ e.stores, s.Sound ∧ s.HasFirst) (ht : t.Sound ∧ t.HasFirst) :
    ∀ s ∈ e.stores.set k t, s.Sound ∧ s.HasFirst := by
  intro s hs
  rcases List.mem_or_eq_of_mem_set hs with hs | rfl
  · exact h s hs
  · exact ht

omit [DecidableEq P] [DecidableEq F] in
/-- A block in a link is open. -/
theorem block_mem_total {x : P × Bool} (hx : x ∈ e.slots) : .block x.1 ∈ e.total := by
  refine Multiset.mem_add.mpr (.inl (Multiset.mem_bind.mpr ⟨x, hx, ?_⟩))
  simp [slotHeld]

omit [DecidableEq F] in
/-- The slots of other blocks hold what they did, whatever one object is set to. -/
theorem bind_update {slots : Multiset (P × Bool)} (hp : ∀ x ∈ slots, x.1 ≠ p)
    (o : Option (Data P F)) :
    slots.bind (fun x => (slotHeld (Function.update objects p o) x : Multiset (Resource P F))) =
      slots.bind fun x => (slotHeld objects x : Multiset (Resource P F)) := by
  refine Multiset.bind_congr fun x hx => ?_
  rw [slotHeld, slotHeld, Function.update_of_ne (hp x hx)]

omit [DecidableEq P] [DecidableEq F] in
/-- No two links hold one block. -/
theorem ne_of_slots_cons {slots : Multiset (P × Bool)} (h : e.total.Nodup)
    (hslots : e.slots = (p, isObj) ::ₘ slots) :
    ∀ x ∈ slots, x.1 ≠ p := by
  rintro ⟨q, b⟩ hx rfl
  rw [Env.total, hslots, Multiset.cons_bind, Multiset.add_assoc] at h
  have hdisjoint := (Multiset.nodup_add.mp h).2.2
  have hmem : (.block q : Resource P F) ∈ (slotHeld e.objects (q, isObj) : Multiset (Resource P F)) := by
    simp [slotHeld]
  exact Multiset.disjoint_left.mp hdisjoint hmem
    (Multiset.mem_add.mpr (.inl (Multiset.mem_bind.mpr ⟨_, hx, by simp [slotHeld]⟩)))

omit [DecidableEq F] in
/-- After an object is made or changed, what is borrowed was borrowed before, or is by the object. -/
theorem Env.Borrows.of_update {r : Resource P F} (h : e'.Borrows r)
    (hobjects : e'.objects = Function.update e.objects obj (some d))
    (hslots : ∀ x ∈ e'.slots, x = (obj, true) ∨ x ∈ e.slots) : e.Borrows r ∨ d.Borrows r := by
  obtain ⟨x, hx, hobj, c, hc, hborrows⟩ := h
  rw [hobjects, Option.mem_def] at hc
  by_cases hxo : x.1 = obj
  · rw [hxo, Function.update_self] at hc
    cases hc
    exact .inr hborrows
  · rw [Function.update_of_ne hxo] at hc
    exact .inl ⟨x, (hslots x hx).resolve_left fun heq => hxo (heq ▸ rfl), hobj, c, hc, hborrows⟩

omit [DecidableEq P] [DecidableEq F] in
/-- Where the slots are among those before, and the objects the same, nothing else is borrowed. -/
theorem Env.Borrows.of_slots {r : Resource P F} (h : e'.Borrows r)
    (hobjects : e'.objects = e.objects) (hslots : ∀ x ∈ e'.slots, x.2 = true → x ∈ e.slots) :
    e.Borrows r := by
  obtain ⟨x, hx, hobj, d, hd, hborrows⟩ := h
  exact ⟨x, hslots x hx hobj, hobj, d, hobjects ▸ hd, hborrows⟩

/-! ### Calls -/

omit [DecidableEq P] [DecidableEq F] in
/-- A function that succeeds on a store puts its result in the place of the store. -/
theorem onStore_eq {f : StoreT P → Option (StoreT P × List (Lifecycles.Event P))}
    {es : List (Lifecycles.Event P)} (hs : e.stores[k]? = some s) (hf : f s = some (t, es)) :
    onStore k f e =
      some ({ e with stores := e.stores.set k t }, es.flatMap (translate e.objects)) := by
  simp only [onStore, hs, hf, Option.bind_eq_bind, Option.bind_some]

omit [DecidableEq P] [DecidableEq F] in
theorem exists_store (h : e.Inv) (hk : k < e.stores.length) :
    ∃ s, e.stores[k]? = some s ∧ s.Sound ∧ s.HasFirst :=
  ⟨e.stores[k], List.getElem?_eq_getElem hk, h.sound _ (List.getElem_mem hk)⟩

omit [DecidableEq F] in
theorem smalloc_exec (h : e.Inv) (hk : k < e.stores.length) (p : P) :
    ∃ s t, e.stores[k]? = some s ∧ (t.Sound ∧ t.HasFirst) ∧ t.slots.Perm ((p, false) :: s.slots) ∧
      onStore k (storeMalloc p) e = some ({ e with stores := e.stores.set k t }, [.acquire (.block p)]) := by
  obtain ⟨s, hs, hsound, hfirst⟩ := exists_store h hk
  obtain ⟨t, ht, hsound', hfirst', hperm⟩ := PtrStore.storePtrWith_spec id p hsound hfirst
  have hstore : storeMalloc p s = some (t, [.register p false]) := by
    rw [storeMalloc, ht, Option.map_some]
  exact ⟨s, t, hs, ⟨hsound', hfirst'⟩, hperm, onStore_eq hs hstore⟩

theorem smalloc_does (h : e.Inv) (hk : k < e.stores.length) (hp : .block p ∉ e.total) :
    Does (.smalloc k p) e := by
  obtain ⟨s, t, hs, hsound, hperm, hexec⟩ := smalloc_exec h hk p
  have hslots := slots_set_cons hs hperm
  have htotal : ({ e with stores := e.stores.set k t } : Env P F).total = .block p ::ₘ e.total := by
    rw [Env.total, hslots, Multiset.cons_bind, Multiset.add_assoc]
    exact Multiset.singleton_add _ _
  have haccount : account e.total [.acquire (.block p)] = some (.block p ::ₘ e.total) :=
    account_acquire hp []
  refine ⟨_, _, hexec, ⟨sound_set h.sound hsound, ?_, ?_⟩, ?_⟩
  · rw [htotal]
    exact nodup_account haccount h.nodup
  · refine fun r hr => h.borrowed r (hr.of_slots rfl fun x hx hobj => ?_)
    rw [hslots] at hx
    exact (Multiset.mem_cons.mp hx).resolve_left (by rintro rfl; cases hobj)
  · rw [htotal]
    exact haccount

omit [DecidableEq F] in
theorem createObject_exec (h : e.Inv) (hk : k < e.stores.length) (obj : P) (d : Data P F)
    (reads : List (Resource P F)) (loose : Multiset (Resource P F)) :
    ∃ s t, e.stores[k]? = some s ∧ (t.Sound ∧ t.HasFirst) ∧ t.slots.Perm ((obj, true) :: s.slots) ∧
      createObject k obj d reads { e with loose := loose } =
        some (⟨e.stores.set k t, Function.update e.objects obj (some d), loose⟩,
          .acquire (.block d.this) :: (reads.map .use ++ [.acquire (.block obj)])) := by
  obtain ⟨s, hs, hsound, hfirst⟩ := exists_store h hk
  obtain ⟨t, ht, hsound', hfirst', hperm⟩ :=
    PtrStore.storePtrWith_spec (fun _ => true) obj hsound hfirst
  have hstore : storeObject obj s = some (t, [.construct obj, .register obj true]) := by
    rw [storeObject, ht, Option.map_some]
  refine ⟨s, t, hs, ⟨hsound', hfirst'⟩, hperm, ?_⟩
  rw [createObject, onStore_eq (e := ⟨e.stores, Function.update e.objects obj (some d), loose⟩) hs hstore,
    Option.map_some]
  rfl

/-- Making an object acquires its two blocks, and it owns what has been taken from outside. -/
theorem createObject_does {reads : List (Resource P F)} {loose : Multiset (Resource P F)}
    (h : e.Inv) (hk : k < e.stores.length) (hthis : .block d.this ∉ e.total)
    (hobj : .block obj ∉ e.total) (hne : d.this ≠ obj) (hreads : ∀ r ∈ reads, r ∈ e.loose)
    (hloose : (d.owned : Multiset (Resource P F)) + loose = .block d.this ::ₘ e.loose)
    (hborrowed : ∀ r, (e.Borrows r ∨ d.Borrows r) → r ∈ loose) :
    ∃ e' es, createObject k obj d reads { e with loose := loose } = some (e', es) ∧ e'.Inv ∧
      account e.total es = some e'.total := by
  obtain ⟨s, t, hs, hsound, hperm, hexec⟩ := createObject_exec h hk obj d reads loose
  let objects := Function.update e.objects obj (some d)
  have hslots : (⟨e.stores.set k t, objects, loose⟩ : Env P F).slots = (obj, true) ::ₘ e.slots :=
    slots_set_cons (e := ⟨e.stores, objects, loose⟩) hs hperm
  have hother : ∀ x ∈ e.slots, x.1 ≠ obj := by
    rintro x hx rfl
    exact hobj (block_mem_total hx)
  have htotal : (⟨e.stores.set k t, objects, loose⟩ : Env P F).total =
      .block obj ::ₘ .block d.this ::ₘ e.total := by
    have hheld : slotHeld objects (obj, true) = d.owned ++ [.block obj] := by
      simp [slotHeld, objects]
    rw [Env.total, hslots, Multiset.cons_bind, bind_update hother, hheld, Env.total, ← Multiset.add_cons, ← hloose,
      ← Multiset.coe_add, Multiset.coe_singleton, ← Multiset.singleton_add (Resource.block obj)]
    abel
  have hreads' : ∀ r ∈ reads, r ∈ Resource.block d.this ::ₘ e.total := fun r hr =>
    Multiset.mem_cons_of_mem (Multiset.mem_add.mpr (.inr (hreads r hr)))
  have hobj' : .block obj ∉ Resource.block d.this ::ₘ e.total := by
    rw [Multiset.mem_cons, not_or]
    exact ⟨fun heq => hne (Resource.block.inj heq).symm, hobj⟩
  have haccount : account e.total (.acquire (.block d.this) :: (reads.map .use ++ [.acquire (.block obj)])) =
      some (.block obj ::ₘ .block d.this ::ₘ e.total) := by
    rw [account_acquire hthis, account_uses hreads']
    exact account_acquire hobj' []
  refine ⟨_, _, hexec, ⟨sound_set h.sound hsound, ?_, ?_⟩, ?_⟩
  · rw [htotal]
    exact nodup_account haccount h.nodup
  · exact fun f hf => hborrowed f (hf.of_update rfl fun x hx => Multiset.mem_cons.mp (hslots ▸ hx))
  · rw [htotal]
    exact haccount

/-- Taking a block out of a store releases what its link holds. -/
theorem storeFree_does (h : e.Inv) (hk : k < e.stores.length) (q : Option P) :
    Does (.storeFree k q) e := by
  obtain ⟨s, hs, hsound, hfirst⟩ := exists_store h hk
  obtain ⟨t, es, ht, hsound', hfirst', htakes⟩ := PtrStore.storeFree_spec q hsound hfirst
  refine ⟨_, _, onStore_eq hs ht, ?_⟩
  rcases htakes with ⟨-, hslots, rfl⟩ | ⟨p, isObj, -, hperm, rfl⟩
  · -- no link holds it
    have hsame := slots_set_of_perm hs hslots
    have htotal : ({ e with stores := e.stores.set k t } : Env P F).total = e.total := by
      rw [Env.total, hsame, Env.total]
    refine ⟨⟨sound_set h.sound ⟨hsound', hfirst'⟩, htotal ▸ h.nodup, ?_⟩, by rw [htotal]; rfl⟩
    exact fun r hr => h.borrowed r (hr.of_slots rfl fun x hx _ => hsame ▸ hx)
  · have hslots := slots_set_of_cons hs hperm
    have htotal : e.total = (slotHeld e.objects (p, isObj) : Multiset (Resource P F)) +
        ({ e with stores := e.stores.set k t } : Env P F).total := by
      rw [Env.total, hslots, Multiset.cons_bind, Multiset.add_assoc, Env.total]
    have haccount : account e.total ((release p isObj).flatMap (translate e.objects)) =
        some ({ e with stores := e.stores.set k t } : Env P F).total := by
      rw [htotal]
      exact account_slot p isObj _
    refine ⟨⟨sound_set h.sound ⟨hsound', hfirst'⟩, nodup_account haccount h.nodup, ?_⟩, haccount⟩
    exact fun r hr =>
      h.borrowed r (hr.of_slots rfl fun x hx _ => hslots ▸ Multiset.mem_cons_of_mem hx)

/-- The end of a scope releases all that its store holds. -/
theorem leave_does (h : e.Inv) (hne : e.stores ≠ []) : Does .leave e := by
  obtain ⟨stores, objects, loose⟩ := e
  cases stores with
  | nil => exact absurd rfl hne
  | cons s ss =>
    have hdestroy := PtrStore.destroyStore_spec (h.sound s List.mem_cons_self).1
    have hslots : (⟨s :: ss, objects, loose⟩ : Env P F).slots =
        s.slots + (⟨ss, objects, loose⟩ : Env P F).slots := by
      rw [Env.slots, List.map_cons, List.sum_cons, Env.slots]
    have htotal : (⟨s :: ss, objects, loose⟩ : Env P F).total =
        (s.slots : Multiset (P × Bool)).bind (fun x => (slotHeld objects x : Multiset (Resource P F))) +
          (⟨ss, objects, loose⟩ : Env P F).total := by
      rw [Env.total, hslots, Multiset.add_bind, Multiset.add_assoc, Env.total]
    have haccount : account (⟨s :: ss, objects, loose⟩ : Env P F).total
        ((releases s.slots).flatMap (translate objects)) = some (⟨ss, objects, loose⟩ : Env P F).total := by
      rw [htotal]
      exact account_slots s.slots _
    have hexec : Call.exec .leave (⟨s :: ss, objects, loose⟩ : Env P F) =
        some (⟨ss, objects, loose⟩, (releases s.slots).flatMap (translate objects)) := by
      show (destroyStore s).map _ = _
      rw [hdestroy]
      rfl
    refine ⟨⟨ss, objects, loose⟩, _, hexec, ⟨fun u hu => h.sound u (List.mem_cons_of_mem _ hu),
      nodup_account haccount h.nodup, ?_⟩, haccount⟩
    exact fun r hr =>
      h.borrowed r (hr.of_slots rfl fun x hx _ => hslots ▸ Multiset.mem_add.mpr (.inr hx))

omit [DecidableEq P] [DecidableEq F] in
/-- What a live object owns is open. -/
theorem owned_mem_total (hobj : (obj, true) ∈ e.slots) (hd : e.objects obj = some d)
    {r : Resource P F} (hr : r ∈ d.owned) :
    r ∈ e.total := by
  refine Multiset.mem_add.mpr (.inl (Multiset.mem_bind.mpr ⟨_, hobj, ?_⟩))
  simp [slotHeld, hd, hr]

omit [DecidableEq P] [DecidableEq F] in
/-- The stream of a live array is open, whether it owns it or not. -/
theorem stream_mem_total (h : e.Inv) {tl : Option P} {f : F} {owns : Bool}
    (hobj : (obj, true) ∈ e.slots) (hd : e.objects obj = some (.file this tl f owns)) :
    .stream f ∈ e.total := by
  cases owns with
  | true => exact owned_mem_total hobj hd (by simp [Data.owned])
  | false => exact Multiset.mem_add.mpr (.inr (h.borrowed _ ⟨_, hobj, rfl, _, hd, rfl, rfl⟩))

theorem set_does (h : e.Inv) (harray : e.IsArray obj) (got : Bool) :
    ∃ e' es, Resources.set got obj e = some (e', es) ∧ e'.Inv ∧
      account e.total es = some e'.total := by
  obtain ⟨hobj, d, hd, hrng⟩ := harray
  rw [Option.mem_def] at hd
  cases d with
  | rng algo => exact hrng.elim
  | memory this =>
    have hthis : .block this ∈ e.total := owned_mem_total hobj hd (by simp [Data.owned])
    exact ⟨e, _, by simp only [Resources.set, hd], h, account_use hthis []⟩
  | file this tl f owns =>
    have hthis : .block this ∈ e.total := owned_mem_total hobj hd (by simp [Data.owned])
    have hstream := stream_mem_total h hobj hd
    have htl : ∀ r ∈ (tl.map Resource.block).toList, r ∈ e.total := fun r hr =>
      owned_mem_total hobj hd (by simp [Data.owned, hr])
    refine ⟨e, _, by simp only [Resources.set, hd]; rfl, h, ?_⟩
    rw [account_use hthis, account_use hstream]
    cases got with
    | false => rfl
    | true =>
      have huses := account_uses htl []
      rwa [List.append_nil] at huses

/-- Reading an item frees the buffer of the one before. -/
theorem get_does (h : e.Inv) (harray : e.IsArray obj) {buffer : P}
    (hfresh : (Call.get obj buffer).Fresh e) :
    Does (.get obj buffer) e := by
  obtain ⟨hobj, d, hd, hrng⟩ := harray
  rw [Option.mem_def] at hd
  cases d with
  | rng algo => exact hrng.elim
  | memory this =>
    have hthis : .block this ∈ e.total := owned_mem_total hobj hd (by simp [Data.owned])
    exact ⟨e, _, by simp only [Call.exec, Resources.get, hd], h, account_use hthis []⟩
  | file this tl f owns =>
    have hthis : .block this ∈ e.total := owned_mem_total hobj hd (by simp [Data.owned])
    have hstream := stream_mem_total h hobj hd
    obtain ⟨slots, hslots⟩ := Multiset.exists_cons_of_mem hobj
    have hother := ne_of_slots_cons h.nodup hslots
    -- all that is open but the buffer
    let kept : Multiset (Resource P F) :=
      ((if owns then [.stream f] else []) ++ [.block this, .block obj] : List (Resource P F)) +
      (slots.bind (fun x => (slotHeld e.objects x : Multiset (Resource P F))) + e.loose)
    let e' : Env P F :=
      { e with objects := Function.update e.objects obj (some (.file this (some buffer) f owns)) }
    have htotal : e.total = (((tl.map .block).toList : List (Resource P F)) : Multiset (Resource P F)) + kept := by
      have hheld : slotHeld e.objects (obj, true) = (tl.map .block).toList ++
          ((if owns then [.stream f] else []) ++ [.block this, .block obj]) := by
            simp [slotHeld, hd, Data.owned]
      rw [Env.total, hslots, Multiset.cons_bind, hheld, ← Multiset.coe_add, Multiset.add_assoc, Multiset.add_assoc]
    have htotal' : e'.total = .block buffer ::ₘ kept := by
      have hheld : slotHeld e'.objects (obj, true) = .block buffer ::
          ((if owns then [.stream f] else []) ++ [.block this, .block obj]) := by
            simp [slotHeld, e', Data.owned]
      have hslots' : e'.slots = (obj, true) ::ₘ slots := hslots
      rw [Env.total, hslots', Multiset.cons_bind, hheld, bind_update hother, ← Multiset.cons_coe,
        Multiset.add_assoc,
        Multiset.cons_add]
    have hbuffer : .block buffer ∉ kept := by
      intro hmem
      have hrenews : Renews buffer e.total (e.objects obj) := hfresh
      rw [hd] at hrenews
      obtain rfl := hrenews (htotal ▸ Multiset.mem_add.mpr (.inr hmem))
      have hnodup := htotal ▸ h.nodup
      exact (Multiset.nodup_cons.mp hnodup).1 hmem
    have hstream' : .stream f ∈ kept := by
      rw [htotal] at hstream
      refine (Multiset.mem_add.mp hstream).resolve_left fun hmem => ?_
      cases tl <;> simp at hmem
    have haccount : account e.total (.use (.block this) :: .use (.stream f) ::
      ((tl.map .block).toList.map .release ++
        [.acquire (.block buffer), .use (.stream f), .use (.block buffer)])) = some e'.total := by
      rw [account_use hthis, account_use hstream, account_append, htotal, account_releases, Option.bind_some,
        account_acquire hbuffer, account_use (Multiset.mem_cons_of_mem hstream'), htotal']
      exact account_use (Multiset.mem_cons_self _ _) []
    refine ⟨e', _, by simp only [Call.exec, Resources.get, hd]; rfl,
      ⟨h.sound, nodup_account haccount h.nodup, ?_⟩, haccount⟩
    intro g hg
    rcases hg.of_update rfl fun x hx => .inr hx with hg | hg
    · exact h.borrowed g hg
    · exact h.borrowed g ⟨_, hobj, rfl, _, hd, hg⟩

omit [DecidableEq P] [DecidableEq F] in
theorem erase_add_cons {rest loose : Multiset (Resource P F)} {r : Resource P F}
    [DecidableEq (Resource P F)] (hr : r ∈ loose) :
    rest + loose = r ::ₘ (rest + loose.erase r) := by
  rw [← Multiset.add_cons, Multiset.cons_erase hr]

/-- **One call keeps the account.** -/
theorem does_of_proper {c : Call P F} (h : e.Inv) (hfresh : c.Fresh e) (hproper : c.Proper e) :
    Does c e := by
  cases c with
  | enter =>
    have hslots := slots_enter e
    have htotal : ({ e with stores := newStore P :: e.stores } : Env P F).total = e.total := by
      rw [Env.total, hslots, Env.total]
    refine ⟨_, [], rfl, ⟨?_, htotal ▸ h.nodup, ?_⟩, by rw [htotal]; rfl⟩
    · intro s hs
      rcases List.mem_cons.mp hs with rfl | hs
      · exact ⟨⟨fun _ => rfl, trivial⟩, trivial⟩
      · exact h.sound s hs
    · exact fun r hr => h.borrowed r (hr.of_slots rfl fun x hx _ => hslots ▸ hx)
  | leave => exact leave_does h hproper
  | smalloc k p => exact smalloc_does h hproper hfresh
  | storeFree k q => exact storeFree_does h hproper q
  | freeObject k p =>
    obtain ⟨s, hs, hobj⟩ := hproper
    rw [Option.mem_def] at hs
    have hk : k < e.stores.length := (List.getElem?_eq_some_iff.mp hs).1
    obtain ⟨e', es, hexec, hdoes⟩ := storeFree_does h hk (some p)
    refine ⟨e', es, ?_, hdoes⟩
    rw [← hexec]
    have hfree := PtrStore.freeObject_eq fun isObj hmem => hobj (p, isObj) hmem rfl
    simp only [Call.exec, onStore, hs, Option.bind_eq_bind, Option.bind_some, hfree]
  | createMemory k this obj =>
    refine createObject_does (d := .memory this) h hproper hfresh.1 hfresh.2.1 hfresh.2.2 (by simp)
      (Multiset.singleton_add _ _) ?_
    rintro r (hr | hr)
    · exact h.borrowed r hr
    · exact hr.elim
  | rngObject k algo obj =>
    refine createObject_does (d := .rng algo) h hproper hfresh.1 hfresh.2.1 hfresh.2.2 (by simp)
      (Multiset.singleton_add _ _) ?_
    rintro r (hr | hr)
    · exact h.borrowed r hr
    · exact hr.elim
  | createFile k this obj src owns =>
    obtain ⟨hk, hsrc, howns⟩ := hproper
    refine createObject_does (d := .file this none src owns) h hk hfresh.1 hfresh.2.1 hfresh.2.2
      (by simpa using hsrc) ?_ ?_
    · cases owns with
      | false => exact Multiset.singleton_add _ _
      | true =>
        show (([.stream src, .block this] : List (Resource P F)) : Multiset (Resource P F)) +
          e.loose.erase (.stream src) = _
        rw [← Multiset.cons_coe, Multiset.cons_add, Multiset.coe_singleton, Multiset.singleton_add,
          Multiset.cons_swap,
          Multiset.cons_erase hsrc]
        rfl
    · rintro r (hr | ⟨rfl, rfl⟩)
      · have hloose := h.borrowed r hr
        cases owns with
        | false => exact hloose
        | true =>
          refine (Multiset.mem_erase_of_ne ?_).mpr hloose
          rintro rfl
          exact howns rfl hr
      · exact hsrc
  | get obj buffer => exact get_does h hproper hfresh
  | set obj => exact set_does h hproper false
  | setGot obj => exact set_does h hproper true
  | acquire r =>
    have haccount : account e.total [.acquire r] = some (r ::ₘ e.total) := account_acquire hfresh []
    have htotal : ({ e with loose := r ::ₘ e.loose } : Env P F).total = r ::ₘ e.total :=
      Multiset.add_cons _ _ _
    refine ⟨_, _, rfl, ⟨h.sound, ?_, fun f hf => Multiset.mem_cons_of_mem (h.borrowed f hf)⟩,
      by rw [htotal, haccount]⟩
    rw [htotal]
    exact nodup_account haccount h.nodup
  | use r => exact ⟨e, _, rfl, h, account_use hproper []⟩
  | release r =>
    have htotal : e.total = r ::ₘ ({ e with loose := e.loose.erase r } : Env P F).total :=
      erase_add_cons hproper.1
    have haccount : account e.total [.release r] = some ({ e with loose := e.loose.erase r } : Env P F).total := by
      rw [htotal]
      exact account_release r _ []
    refine ⟨_, _, rfl, ⟨h.sound, nodup_account haccount h.nodup, fun f hf => ?_⟩, haccount⟩
    refine (Multiset.mem_erase_of_ne ?_).mpr (h.borrowed f hf)
    rintro rfl
    exact hproper.2 hf

/-! ### Runs -/

/-- Each call of a run is fresh where it is made. -/
def Fresh : List (Call P F) → Env P F → Prop
  | [], _ => True
  | c :: cs, e => c.Fresh e ∧ ∀ r ∈ c.exec e, Fresh cs r.1

/-- Each call of a run is proper where it is made. -/
def Proper : List (Call P F) → Env P F → Prop
  | [], _ => True
  | c :: cs, e => c.Proper e ∧ ∀ r ∈ c.exec e, Proper cs r.1

instance decidableFresh : ∀ (cs : List (Call P F)) (e : Env P F), Decidable (Fresh cs e)
  | [], _ => isTrue trivial
  | c :: cs, e =>
    have := decidableFresh cs
    inferInstanceAs (Decidable (c.Fresh e ∧ ∀ r ∈ c.exec e, Fresh cs r.1))

instance decidableProper : ∀ (cs : List (Call P F)) (e : Env P F), Decidable (Proper cs e)
  | [], _ => isTrue trivial
  | c :: cs, e =>
    have := decidableProper cs
    inferInstanceAs (Decidable (c.Proper e ∧ ∀ r ∈ c.exec e, Proper cs r.1))

variable {cs ds : List (Call P F)} {es : List (Event (Resource P F))}

/-- **All calls of a run keep the account.** -/
theorem run_account (h : e.Inv) (hfresh : Fresh cs e) (hproper : Proper cs e) :
    ∃ e' es, run cs e = some (e', es) ∧ e'.Inv ∧ account e.total es = some e'.total := by
  induction cs generalizing e with
  | nil => exact ⟨e, [], rfl, h, rfl⟩
  | cons c cs ih =>
    obtain ⟨e₁, es, hexec, hinv, haccount⟩ := does_of_proper h hfresh.1 hproper.1
    obtain ⟨e₂, fs, hrun, hinv', haccount'⟩ := ih hinv (hfresh.2 _ hexec) (hproper.2 _ hexec)
    refine ⟨e₂, es ++ fs, ?_, hinv', ?_⟩
    · rw [run, hexec, Option.bind_some, hrun, Option.map_some]
    · rw [account_append, haccount, Option.bind_some, haccount']

omit [DecidableEq P] [DecidableEq F] in
theorem inv_start : (Env.start P F).Inv :=
  ⟨fun _ hs => (List.not_mem_nil hs).elim, Multiset.nodup_zero, fun _ ⟨_, hx, _⟩ =>
    (Multiset.notMem_zero _ hx).elim⟩

/-- **In every run** of scopes in scopes, with arrays, generators and blocks in the stores of
any of them, nothing is used or released that is not open, and nothing is lost: what has been
acquired and not released is held by the stores that are left, their objects or the callers. -/
theorem scopes_orderly (hfresh : Fresh cs (Env.start P F)) (hproper : Proper cs (Env.start P F)) :
    ∃ e es, run cs (Env.start P F) = some (e, es) ∧ Orderly es ∧
      (∀ r, es.count (.acquire r) = es.count (.release r) + e.total.count r) ∧
      (e.stores = [] → e.loose = 0 → ∀ r, es.count (.release r) = es.count (.acquire r)) := by
  obtain ⟨e, es, hrun, -, haccount⟩ := run_account inv_start hfresh hproper
  have hzero : (Env.start P F).total = 0 := rfl
  rw [hzero] at haccount
  refine ⟨e, es, hrun, orderly_of_account haccount, fun r => ?_, fun hstores hloose r => ?_⟩
  · have hcount := count_account haccount r
    rw [Multiset.count_zero] at hcount
    omega
  · have htotal : e.total = 0 := by
      rw [Env.total, Env.slots, hstores, hloose]
      rfl
    exact released_of_account (htotal ▸ haccount) r

/-- An array in a file and its generator, where the second buffer is at the place of the first. A block
of an inner scope is freed before the scope ends, and its place is taken in the outer one. -/
def nested : List (Call ℕ ℕ) :=
  [.enter, .acquire (.stream 0), .createFile 0 1 2 0 true, .rngObject 0 3 4, .get 2 5, .get 2 5, .setGot 2,
    .enter, .smalloc 0 6, .storeFree 0 (some 6), .createMemory 1 6 7, .leave, .get 7 5, .leave]

theorem scopes_orderly_nested :
    ∃ e es, run nested (Env.start ℕ ℕ) = some (e, es) ∧ Orderly es ∧
      (∀ r, es.count (.acquire r) = es.count (.release r) + e.total.count r) ∧
      (e.stores = [] → e.loose = 0 → ∀ r, es.count (.release r) = es.count (.acquire r)) :=
  scopes_orderly (by decide) (by decide)

end Shuffle3.V1.Resources
