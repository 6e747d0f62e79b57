import Shuffle3.V1.Resources

/-!
# What the program releases

What a function knows about the scopes it is in is how many there are, what is open outside
of them, and some of what they hold. A call leads from what is known before it to what is
known after it, and `main` leads from nothing to nothing.

## What is proved

* `proper_of_leads` — calls that lead from what is known to something are made as the store,
  the arrays and the streams ask for.
* `main_releases` — on each path of `main`, however much is read, drawn and swapped, all is
  released at the end, once, and nothing is used before it is acquired or after it is released.

## Honest scope

Allocations succeed, but for the `realloc` of the standard input. The assertion that a whole
file has been read holds.
-/

namespace Shuffle3.V1.Resources

open Foundations Foundations.Custody

variable {P F : Type}

/-! ### What is known -/

/-- What a caller knows to be in a store. -/
inductive Item (P : Type) where
  | block (p : P)
  | array (obj this : P)
  | generator (obj algo : P)

namespace Item

/-- The slot of the store. -/
def slot : Item P → P × Bool
  | block p => (p, false)
  | array obj _ => (obj, true)
  | generator obj _ => (obj, true)

/-- The destructor finds in the slot what the item says: an array with its block, or a
generator with its block. -/
def Describes : Item P → Option (Data P F) → Prop
  | block _, _ => True
  | array _ this, o => ∃ d ∈ o, d.IsArray ∧ d.this = this
  | generator _ algo, o => o = some (.rng algo)

/-- The block that a caller uses. -/
def content : Item P → P
  | block p => p
  | array _ this => this
  | generator _ algo => algo

end Item

/-- A store holds an item. -/
def Env.Holds (e : Env P F) (k : ℕ) (x : Item P) : Prop :=
  ∃ s, e.stores[k]? = some s ∧ x.slot ∈ s.slots ∧ x.Describes (e.objects x.slot.1)

/-- What a caller knows: how many stores there are, what is open outside of them, and some of
the items in each. -/
structure Known (P F : Type) where
  depth : ℕ
  loose : Multiset (Resource P F)
  items : List (ℕ × Item P)

/-- The environment has as many stores as are known, is open outside of them as known and
holds every known item, and no array reads from a stream that it does not own. -/
structure Known.Of (κ : Known P F) (e : Env P F) : Prop where
  depth : e.stores.length = κ.depth
  loose : e.loose = κ.loose
  items : ∀ x ∈ κ.items, e.Holds x.1 x.2
  owned : ∀ r, ¬ e.Borrows r

/-- The items when a scope is entered: each store has one scope more inside it. -/
def deeper (items : List (ℕ × Item P)) : List (ℕ × Item P) := items.map fun x => (x.1 + 1, x.2)

/-- The rule of each call: what has to be known before it, and what is known after. -/
inductive Leads : Known P F → Call P F → Known P F → Prop
  | enter {n loose items} : Leads ⟨n, loose, items⟩ .enter ⟨n + 1, loose, deeper items⟩
  | leave {n loose items items'} (h : ∀ x ∈ items', (x.1 + 1, x.2) ∈ items) :
    Leads ⟨n + 1, loose, items⟩ .leave ⟨n, loose, items'⟩
  | smalloc {n loose items k p} (hk : k < n) :
    Leads ⟨n, loose, items⟩ (.smalloc k p) ⟨n, loose, (k, .block p) :: items⟩
  | createMemory {n loose items k this obj} (hk : k < n) :
    Leads ⟨n, loose, items⟩ (.createMemory k this obj) ⟨n, loose, (k, .array obj this) :: items⟩
  | createFile {n loose items k this obj src} (hk : k < n) :
    Leads ⟨n, .stream src ::ₘ loose, items⟩ (.createFile k this obj src true)
      ⟨n, loose, (k, .array obj this) :: items⟩
  | rngObject {n loose items k algo obj} (hk : k < n) :
    Leads ⟨n, loose, items⟩ (.rngObject k algo obj) ⟨n, loose, (k, .generator obj algo) :: items⟩
  | get {κ : Known P F} {k obj this} (buffer : P) (h : (k, .array obj this) ∈ κ.items) :
    Leads κ (.get obj buffer) κ
  | set {κ : Known P F} {k obj this} (h : (k, .array obj this) ∈ κ.items) : Leads κ (.set obj) κ
  | setGot {κ : Known P F} {k obj this} (h : (k, .array obj this) ∈ κ.items) : Leads κ (.setGot obj) κ
  | acquire {n loose items} (r : Resource P F) : Leads ⟨n, loose, items⟩ (.acquire r) ⟨n, r ::ₘ loose, items⟩
  | useLoose {κ : Known P F} {r} (h : r ∈ κ.loose) : Leads κ (.use r) κ
  | useItem {κ : Known P F} {k x p} (h : (k, x) ∈ κ.items) (hp : x.content = p) : Leads κ (.use (.block p)) κ
  | release {n loose items} (r : Resource P F) : Leads ⟨n, r ::ₘ loose, items⟩ (.release r) ⟨n, loose, items⟩

/-- The rules of calls one after another. -/
inductive LeadsTo : Known P F → List (Call P F) → Known P F → Prop
  | nil {κ} : LeadsTo κ [] κ
  | cons {κ κ₁ κ₂ c cs} (h : Leads κ c κ₁) (hs : LeadsTo κ₁ cs κ₂) : LeadsTo κ (c :: cs) κ₂

variable {κ κ₁ κ₂ : Known P F} {c : Call P F} {cs ds : List (Call P F)} {e e' : Env P F} {k : ℕ} {x : Item P}

theorem LeadsTo.append (h : LeadsTo κ cs κ₁) (h' : LeadsTo κ₁ ds κ₂) : LeadsTo κ (cs ++ ds) κ₂ := by
  induction h with
  | nil => exact h'
  | cons h _ ih => exact .cons h (ih h')

/-! ### What is known is kept -/

/-- A store may get more slots, and objects that no slot is for may change. -/
theorem holds_set {j : ℕ} {s t : PtrStore.StoreT P} {objects : P → Option (Data P F)}
    {loose : Multiset (Resource P F)} (hs : e.stores[j]? = some s) (ht : ∀ y ∈ s.slots, y ∈ t.slots)
    (hobjects : ∀ y ∈ e.slots, objects y.1 = e.objects y.1) (h : e.Holds k x) :
    (⟨e.stores.set j t, objects, loose⟩ : Env P F).Holds k x := by
  obtain ⟨u, hu, hslot, hdescribes⟩ := h
  have hdescribes' : x.Describes (objects x.slot.1) := by
    rwa [hobjects _ (mem_slots_of_mem (List.mem_of_getElem? hu) hslot)]
  by_cases hjk : j = k
  · subst hjk
    obtain rfl : s = u := Option.some.inj (hs.symm.trans hu)
    refine ⟨t, ?_, ht _ hslot, hdescribes'⟩
    rw [List.getElem?_set_self (List.getElem?_eq_some_iff.mp hs).1]
  · refine ⟨u, ?_, hslot, hdescribes'⟩
    rwa [List.getElem?_set_ne hjk]

/-- A slot put into a store is held. -/
theorem holds_new {s t : PtrStore.StoreT P} {objects : P → Option (Data P F)}
    {loose : Multiset (Resource P F)} (hs : e.stores[k]? = some s) (hslot : x.slot ∈ t.slots)
    (hdescribes : x.Describes (objects x.slot.1)) :
    (⟨e.stores.set k t, objects, loose⟩ : Env P F).Holds k x :=
  ⟨t, List.getElem?_set_self (List.getElem?_eq_some_iff.mp hs).1, hslot, hdescribes⟩

/-- What a caller knows to be an array is one. -/
theorem Env.Holds.isArray {obj this : P} (h : e.Holds k (.array obj this)) : e.IsArray obj := by
  obtain ⟨s, hs, hslot, d, hd, harray, -⟩ := h
  exact ⟨mem_slots_of_mem (List.mem_of_getElem? hs) hslot, d, hd, harray⟩

/-- What a caller knows to be in a store is open. -/
theorem Env.Holds.content_mem (h : e.Holds k x) : .block x.content ∈ e.total := by
  obtain ⟨s, hs, hslot, hdescribes⟩ := h
  have hmem := mem_slots_of_mem (List.mem_of_getElem? hs) hslot
  cases x with
  | block p => exact block_mem_total hmem
  | array obj this =>
    obtain ⟨d, hd, -, rfl⟩ := hdescribes
    refine owned_mem_total hmem hd ?_
    cases d <;> simp [Data.owned, Data.this, Item.content]
  | generator obj algo => exact owned_mem_total hmem hdescribes (by simp [Data.owned, Item.content])

section Kept

variable [DecidableEq P] [DecidableEq F]

/-- A call can be made as the store, the arrays and the streams ask for, and what is known after
it is so. -/
def Makes (c : Call P F) (κ : Known P F) (e : Env P F) : Prop :=
  c.Proper e ∧ ∀ r ∈ c.exec e, κ.Of r.1

theorem makes_of_eq {es : List (Event (Resource P F))} (hproper : c.Proper e)
    (hexec : c.exec e = some (e', es)) (h : κ.Of e') : Makes c κ e := by
  refine ⟨hproper, fun r hr => ?_⟩
  obtain rfl : (e', es) = r := Option.some.inj (hexec.symm.trans hr)
  exact h

/-- Making an object keeps the known items, and the object is one more. -/
theorem createObject_makes {obj : P} {d : Data P F} {n : ℕ} {loose loose' : Multiset (Resource P F)}
    {items : List (ℕ × Item P)} {reads : List (Resource P F)} (hinv : e.Inv)
    (hκ : Known.Of ⟨n, loose, items⟩ e) (hk : k < e.stores.length)
    (hexec : c.exec e = createObject k obj d reads { e with loose := loose' }) (hproper : c.Proper e)
    (hobj : .block obj ∉ e.total) (hslot : x.slot = (obj, true)) (hdescribes : x.Describes (some d))
    (howned : ∀ r, ¬ d.Borrows r) :
    Makes c ⟨n, loose', (k, x) :: items⟩ e := by
  obtain ⟨s, t, hs, -, hperm, hcreate⟩ := createObject_exec hinv hk obj d reads loose'
  have hother : ∀ y ∈ e.slots, y.1 ≠ obj := by
    rintro y hy rfl
    exact hobj (block_mem_total hy)
  have hnew : (obj, true) ∈ t.slots := hperm.mem_iff.mpr List.mem_cons_self
  have hslots :=
    slots_set_cons (e := ⟨e.stores, Function.update e.objects obj (some d), loose'⟩) hs hperm
  refine makes_of_eq hproper (hexec.trans hcreate)
    ⟨(List.length_set ..).trans hκ.depth, rfl, ?_, ?_⟩
  · intro y hy
    rcases List.mem_cons.mp hy with rfl | hy
    · refine holds_new hs (hslot ▸ hnew) ?_
      rw [hslot, Function.update_self]
      exact hdescribes
    · refine holds_set hs (fun z hz => hperm.mem_iff.mpr (List.mem_cons_of_mem _ hz))
        (fun z hz => ?_) (hκ.items y hy)
      rw [Function.update_of_ne (hother z hz)]
  · intro r hr
    rcases hr.of_update rfl fun y hy => Multiset.mem_cons.mp (hslots ▸ hy) with hr | hr
    · exact hκ.owned r hr
    · exact howned r hr

/-- Reading an item leaves the array an array. -/
theorem get_makes {obj this : P} (buffer : P) (hκ : κ.Of e) (h : e.Holds k (.array obj this)) :
    Makes (.get obj buffer) κ e := by
  obtain ⟨hobj, d, hd, harray⟩ := h.isArray
  rw [Option.mem_def] at hd
  cases d with
  | rng algo => exact harray.elim
  | memory this =>
    have hexec : Call.exec (.get obj buffer) e = some (e, [.use (.block this)]) := by
      simp only [Call.exec, Resources.get, hd]
    exact makes_of_eq h.isArray hexec hκ
  | file this tl f owns =>
    let e' : Env P F :=
      { e with objects := Function.update e.objects obj (some (.file this (some buffer) f owns)) }
    have hexec : Call.exec (.get obj buffer) e = some (e', .use (.block this) :: .use (.stream f) ::
        ((tl.map .block).toList.map .release ++ [.acquire (.block buffer), .use (.stream f),
          .use (.block buffer)])) := by
      simp only [Call.exec, Resources.get, hd]
      rfl
    refine makes_of_eq h.isArray hexec ⟨hκ.depth, hκ.loose, ?_, ?_⟩
    · intro y hy
      obtain ⟨s, hs, hslot, hdescribes⟩ := hκ.items y hy
      refine ⟨s, hs, hslot, ?_⟩
      show y.2.Describes (Function.update e.objects obj _ y.2.slot.1)
      by_cases hyo : y.2.slot.1 = obj
      · rw [hyo, Function.update_self]
        rw [hyo, hd] at hdescribes
        -- the array that is read, or a block at its place
        rcases hy2 : y.2 with p | ⟨q, this'⟩ | ⟨q, algo⟩ <;> rw [hy2] at hdescribes
        · trivial
        · obtain ⟨d, hd', -, hthis⟩ := hdescribes
          cases hd'
          exact ⟨_, rfl, trivial, hthis⟩
        · cases hdescribes
      · rw [Function.update_of_ne hyo]
        exact hdescribes
    · intro r hr
      rcases hr.of_update rfl fun x hx => .inr hx with hr | hr
      · exact hκ.owned r hr
      · exact hκ.owned r ⟨_, hobj, rfl, _, hd, hr⟩

omit [DecidableEq P] [DecidableEq F] in
/-- Writing an item changes nothing that is known. -/
theorem set_eq {obj this : P} (got : Bool) (h : e.Holds k (.array obj this)) :
    ∃ es, Resources.set got obj e = some (e, es) := by
  obtain ⟨-, d, hd, harray⟩ := h.isArray
  rw [Option.mem_def] at hd
  cases d with
  | rng algo => exact harray.elim
  | memory this => exact ⟨_, by simp only [Resources.set, hd]; rfl⟩
  | file this tl f owns => exact ⟨_, by simp only [Resources.set, hd]; rfl⟩

/-- **The rules are sound**: a call whose rule applies is proper, and what the rule says is so
after it. -/
theorem makes_of_leads (h : Leads κ c κ₁) (hinv : e.Inv) (hκ : κ.Of e) (hfresh : c.Fresh e) :
    Makes c κ₁ e := by
  cases h with
  | enter =>
    refine makes_of_eq trivial rfl ⟨congrArg (· + 1) hκ.depth, hκ.loose, ?_, ?_⟩
    · intro y hy
      obtain ⟨x, hx, rfl⟩ := List.mem_map.mp hy
      exact hκ.items x hx
    · exact fun r hr => hκ.owned r (hr.of_slots rfl fun x hx _ => slots_enter e ▸ hx)
  | leave h =>
    obtain ⟨stores, objects, loose⟩ := e
    cases stores with
    | nil => exact absurd hκ.depth (by simp)
    | cons s ss =>
      refine ⟨List.cons_ne_nil s ss, fun r hr => ?_⟩
      obtain ⟨es, -, rfl⟩ := Option.mem_map.mp hr
      refine ⟨Nat.succ_injective hκ.depth, hκ.loose, fun y hy => hκ.items _ (h y hy), ?_⟩
      refine fun r hr => hκ.owned r (hr.of_slots rfl fun x hx _ => ?_)
      rw [Env.slots, List.map_cons, List.sum_cons]
      exact Multiset.mem_add.mpr (.inr hx)
  | @smalloc n loose items k p hk =>
    have hk' : k < e.stores.length := hκ.depth ▸ hk
    obtain ⟨s, t, hs, -, hperm, hexec⟩ := smalloc_exec hinv hk' p
    refine makes_of_eq hk' hexec ⟨(List.length_set ..).trans hκ.depth, hκ.loose, ?_, ?_⟩
    · intro y hy
      rcases List.mem_cons.mp hy with rfl | hy
      · exact holds_new hs (hperm.mem_iff.mpr List.mem_cons_self) trivial
      · exact holds_set hs (fun z hz => hperm.mem_iff.mpr (List.mem_cons_of_mem _ hz))
          (fun _ _ => rfl) (hκ.items y hy)
    · refine fun r hr => hκ.owned r (hr.of_slots rfl fun x hx hobj => ?_)
      rw [slots_set_cons hs hperm, Multiset.mem_cons] at hx
      exact hx.resolve_left (by rintro rfl; cases hobj)
  | createMemory hk =>
    have hk' := lt_of_lt_of_eq hk hκ.depth.symm
    obtain rfl : e.loose = _ := hκ.loose
    exact createObject_makes hinv hκ hk' rfl hk' hfresh.2.1 rfl ⟨_, rfl, trivial, rfl⟩
      fun _ => by simp [Data.Borrows]
  | @createFile n loose items k this obj src hk =>
    have hk' := lt_of_lt_of_eq hk hκ.depth.symm
    have hsrc : .stream src ∈ e.loose := hκ.loose ▸ Multiset.mem_cons_self _ _
    have hloose : e.loose.erase (.stream src) = loose := by rw [hκ.loose, Multiset.erase_cons_head]
    have hexec : Call.exec (.createFile k this obj src true) e =
        createObject k obj (.file this none src true) [.stream src] { e with loose := loose } := by
      rw [← hloose]
      rfl
    exact createObject_makes hinv hκ hk' hexec ⟨hk', hsrc, fun _ => hκ.owned _⟩ hfresh.2.1 rfl
      ⟨_, rfl, trivial, rfl⟩
      fun _ => by simp [Data.Borrows]
  | rngObject hk =>
    have hk' := lt_of_lt_of_eq hk hκ.depth.symm
    obtain rfl : e.loose = _ := hκ.loose
    exact createObject_makes hinv hκ hk' rfl hk' hfresh.2.1 rfl rfl fun _ => id
  | get buffer h => exact get_makes buffer hκ (hκ.items _ h)
  | set h =>
    obtain ⟨es, hexec⟩ := set_eq false (hκ.items _ h)
    exact makes_of_eq (hκ.items _ h).isArray hexec hκ
  | setGot h =>
    obtain ⟨es, hexec⟩ := set_eq true (hκ.items _ h)
    exact makes_of_eq (hκ.items _ h).isArray hexec hκ
  | acquire r => exact makes_of_eq trivial rfl ⟨hκ.depth, congrArg _ hκ.loose, hκ.items, hκ.owned⟩
  | useLoose h =>
    refine makes_of_eq (Multiset.mem_add.mpr (.inr ?_)) rfl hκ
    rw [hκ.loose]
    exact h
  | useItem h hp =>
    subst hp
    exact makes_of_eq (hκ.items _ h).content_mem rfl hκ
  | release r =>
    have hr : r ∈ e.loose := hκ.loose ▸ Multiset.mem_cons_self _ _
    refine makes_of_eq ⟨hr, hκ.owned r⟩ rfl ⟨hκ.depth, ?_, hκ.items, hκ.owned⟩
    show e.loose.erase r = _
    rw [hκ.loose, Multiset.erase_cons_head]

/-- Calls that lead from what is known to something are made as they have to be, and what is known
after them is so. -/
theorem proper_of_leads (h : LeadsTo κ cs κ₁) (hinv : e.Inv) (hκ : κ.Of e) (hfresh : Fresh cs e) :
    Proper cs e ∧ ∀ r ∈ run cs e, κ₁.Of r.1 := by
  induction h generalizing e with
  | nil =>
    refine ⟨trivial, fun r hr => ?_⟩
    cases hr
    exact hκ
  | @cons κ κ₁ κ₂ c cs hc _ ih =>
    obtain ⟨hproper, hmakes⟩ := makes_of_leads hc hinv hκ hfresh.1
    obtain ⟨e₁, es, hexec, hinv₁, -⟩ := does_of_proper hinv hfresh.1 hproper
    have hrest := ih hinv₁ (hmakes _ hexec) (hfresh.2 _ hexec)
    refine ⟨⟨hproper, fun r hr => ?_⟩, fun r hr => ?_⟩
    · obtain rfl : (e₁, es) = r := Option.some.inj (hexec.symm.trans hr)
      exact hrest.1
    · rw [run, hexec, Option.bind_some] at hr
      obtain ⟨r', hr', rfl⟩ := Option.mem_map.mp hr
      exact hrest.2 r' hr'

end Kept

/-! ### The functions of `main` -/

/-- The generators of `shuffle3` and `unshuffle3`. -/
inductive Gen where
  | xoro
  | frng
  | drng

/-- What is done with an array and the generators, between their creation and the end of the
scope. -/
inductive Op (P : Type) where
  /-- `ar_size`, `ar_type` or `ar_reinterpret`. -/
  | field
  /-- `ar_get_v`. -/
  | getV (buffer : P)
  /-- `ar_swap`: two items are read, and written. -/
  | swap (buffer₁ buffer₂ : P)
  /-- `rng_seed` or `rng_next_int`. -/
  | rng (i : Gen)

/-- The calls, where `gens` has the block of each generator and its object. -/
def Op.calls (this obj : P) (gens : Gen → P × P) : Op P → List (Call P F)
  | field => [.use (.block this)]
  | getV buffer => [.get obj buffer]
  | swap buffer₁ buffer₂ => [.get obj buffer₁, .get obj buffer₂, .setGot obj, .set obj]
  | rng i => [.use (.block (gens i).1)]

/-- `shuffle3` or `unshuffle3`: its generators, and what it does with them and with its array. -/
structure Shuffling (P : Type) where
  gens : Gen → P × P
  ops : List (Op P)

def Shuffling.calls (s : Shuffling P) (this obj : P) : List (Call P F) :=
  .use (.block this) :: ([.xoro, .frng, .drng].map fun i => .rngObject 0 (s.gens i).1 (s.gens i).2) ++
    s.ops.flatMap (Op.calls this obj s.gens)

/-- `read_whole_file`, with a store for its buffer and the array in the store outside. -/
def readWholeFile (fp : F) (buf this obj : P) (reads : ℕ) : List (Call P F) :=
  [.use (.stream fp), .enter, .smalloc 0 buf] ++
    (List.replicate reads [.use (.stream fp), .use (.block buf)]).flatten ++
    [.createMemory 1 this obj, .use (.block buf), .use (.block this), .leave]

/-- The loop of `read_stdin`. In a round the input is first moved, if it is full: `realloc` frees it
and returns a block that may be at its place. -/
def readStdinLoop : P → List (Option P) → List (Call P F)
  | _, [] => []
  | input, none :: rounds => .use (.block input) :: readStdinLoop input rounds
  | input, some p :: rounds =>
    .release (.block input) :: .acquire (.block p) :: .use (.block p) :: readStdinLoop p rounds

/-- Where the input is after the loop. -/
def lastInput : P → List (Option P) → P
  | input, [] => input
  | input, none :: rounds => lastInput input rounds
  | _, some p :: rounds => lastInput p rounds

/-- `string_shuffle`: the string is shuffled, or it is read from the standard input and shuffled by
another call, or the standard input cannot be read. -/
inductive StringRun (P : Type) where
  | shuffles (this obj : P) (s : Shuffling P)
  | reads (input : P) (rounds : List (Option P)) (rest : StringRun P)
  | fails (input : P) (rounds : List (Option P))

/-- A string in a block is read. An argument of the program is in none. -/
def useString (string : Option P) : List (Call P F) := string.toList.map fun p => .use (.block p)

/-- The calls, for a string that is in a block or is an argument of the program. -/
def StringRun.calls : StringRun P → Option P → List (Call P F)
  | shuffles this obj s, string =>
    useString string ++ .enter :: useString string ++ .createMemory 0 this obj ::
      useString string ++ s.calls this obj ++
      [.leave]
  | reads input rounds rest, string =>
    useString string ++ .acquire (.block input) :: readStdinLoop input rounds ++
      rest.calls (some (lastInput input rounds)) ++ [.release (.block (lastInput input rounds))]
  | fails input rounds, string =>
    useString string ++ .acquire (.block input) :: readStdinLoop input rounds ++
      [.release (.block (lastInput input rounds))]

/-- The paths of `main`, with all that `malloc` and `fopen` return. -/
inductive Path (P F : Type) where
  | usage
  | string (r : StringRun P)
  | notOpened
  | inPlace (infile : F) (this obj : P) (s : Shuffling P)
  | buffered (infile : F) (buf this obj : P) (reads : ℕ) (s : Shuffling P) (written : Option (F × P))

/-- The end of `main` in buffered mode, if `outfile` can be opened. -/
def writeOut (this : P) : Option (F × P) → List (Call P F)
  | none => []
  | some (outfile, wbuf) =>
    [.acquire (.stream outfile), .use (.block this), .smalloc 0 wbuf, .use (.block this), .use (.block wbuf),
      .use (.stream outfile), .release (.stream outfile), .use (.block this)]

/-- The calls of `main`. -/
def Path.calls : Path P F → List (Call P F)
  | usage => []
  | string r => r.calls none
  | notOpened => [.enter, .leave]
  | inPlace infile this obj s =>
    .enter :: .acquire (.stream infile) :: .createFile 0 this obj infile true :: s.calls this obj ++ [.leave]
  | buffered infile buf this obj reads s written =>
    .enter :: .acquire (.stream infile) :: readWholeFile infile buf this obj reads ++
      .release (.stream infile) :: .use (.block this) :: s.calls this obj ++ writeOut this written ++ [.leave]

/-! ### Derivations -/

variable {n : ℕ} {loose : Multiset (Resource P F)} {items : List (ℕ × Item P)} {this obj : P}

theorem op_leads {gens : Gen → P × P} (harray : (k, .array obj this) ∈ κ.items)
    (hgens : ∀ i, (0, .generator (gens i).2 (gens i).1) ∈ κ.items) (op : Op P) :
    LeadsTo κ (op.calls this obj gens) κ := by
  cases op with
  | field => exact .cons (.useItem harray rfl) .nil
  | getV buffer => exact .cons (.get buffer harray) .nil
  | swap buffer₁ buffer₂ =>
    exact .cons (.get buffer₁ harray)
      (.cons (.get buffer₂ harray) (.cons (.setGot harray) (.cons (.set harray) .nil)))
  | rng i => exact .cons (.useItem (hgens i) rfl) .nil

theorem ops_lead {gens : Gen → P × P} (harray : (k, .array obj this) ∈ κ.items)
    (hgens : ∀ i, (0, .generator (gens i).2 (gens i).1) ∈ κ.items) (ops : List (Op P)) :
    LeadsTo κ (ops.flatMap (Op.calls this obj gens)) κ := by
  induction ops with
  | nil => exact .nil
  | cons op ops ih => exact (op_leads harray hgens op).append ih

/-- The known items once the three generators are made. -/
def Shuffling.known (s : Shuffling P) (items : List (ℕ × Item P)) : List (ℕ × Item P) :=
  (0, .generator (s.gens .drng).2 (s.gens .drng).1) :: (0, .generator (s.gens .frng).2 (s.gens .frng).1) ::
    (0, .generator (s.gens .xoro).2 (s.gens .xoro).1) :: items

theorem Shuffling.mem_known (s : Shuffling P) {x : ℕ × Item P} (h : x ∈ items) :
    x ∈ s.known items := by
  simp [Shuffling.known, h]

theorem Shuffling.leads (s : Shuffling P) (harray : (k, .array obj this) ∈ items) :
    LeadsTo ⟨n + 1, loose, items⟩ (s.calls this obj) ⟨n + 1, loose, s.known items⟩ := by
  have hn : 0 < n + 1 := n.succ_pos
  have hgens : ∀ i, (0, .generator (s.gens i).2 (s.gens i).1) ∈ s.known items := by
    intro i
    cases i <;> simp [Shuffling.known]
  have hops : LeadsTo ⟨n + 1, loose, s.known items⟩ (s.ops.flatMap (Op.calls this obj s.gens))
      ⟨n + 1, loose, s.known items⟩ := ops_lead (s.mem_known harray) hgens s.ops
  exact .cons (.useItem harray rfl)
    (.cons (.rngObject hn) (.cons (.rngObject hn) (.cons (.rngObject hn) hops)))

theorem reads_lead {fp : F} {buf : P} (hfp : .stream fp ∈ κ.loose)
    (hbuf : (k, .block buf) ∈ κ.items) (reads : ℕ) :
    LeadsTo κ (List.replicate reads [.use (.stream fp), .use (.block buf)]).flatten κ := by
  induction reads with
  | zero => exact .nil
  | succ reads ih => exact .cons (.useLoose hfp) (.cons (.useItem hbuf rfl) ih)

theorem mem_deeper {x : ℕ × Item P} (h : x ∈ items) : (x.1 + 1, x.2) ∈ deeper items :=
  List.mem_map_of_mem (f := fun x : ℕ × Item P => (x.1 + 1, x.2)) h

theorem readWholeFile_leads {fp : F} (hfp : .stream fp ∈ loose) (buf this obj : P) (reads : ℕ) :
    LeadsTo ⟨n + 1, loose, items⟩ (readWholeFile fp buf this obj reads)
      ⟨n + 1, loose, (0, .array obj this) :: items⟩ := by
  have hbuffer : LeadsTo ⟨n + 1, loose, items⟩ [.use (.stream fp), .enter, .smalloc 0 buf]
      ⟨n + 2, loose, (0, .block buf) :: deeper items⟩ :=
    .cons (.useLoose hfp) (.cons .enter (.cons (.smalloc (by omega)) .nil))
  have hreads : LeadsTo ⟨n + 2, loose, (0, .block buf) :: deeper items⟩
      (List.replicate reads [.use (.stream fp), .use (.block buf)]).flatten
      ⟨n + 2, loose, (0, .block buf) :: deeper items⟩ := reads_lead hfp List.mem_cons_self reads
  -- the array is in the store outside, and is not released with the buffer
  have hleave : ∀ x ∈ (0, .array obj this) :: items,
      (x.1 + 1, x.2) ∈ (1, .array obj this) :: (0, .block buf) :: deeper items := by
    intro x hx
    rcases List.mem_cons.mp hx with rfl | hx
    · exact List.mem_cons_self
    · exact List.mem_cons_of_mem _ (List.mem_cons_of_mem _ (mem_deeper hx))
  have harray : LeadsTo ⟨n + 2, loose, (0, .block buf) :: deeper items⟩
      [.createMemory 1 this obj, .use (.block buf), .use (.block this), .leave]
      ⟨n + 1, loose, (0, .array obj this) :: items⟩ := by
    have hbuf : (0, .block buf) ∈ (1, .array obj this) :: (0, .block buf) :: deeper items :=
      List.mem_cons_of_mem _ List.mem_cons_self
    exact .cons (.createMemory (by omega)) (.cons (.useItem hbuf rfl) (.cons (.useItem List.mem_cons_self rfl)
      (.cons (.leave hleave) .nil)))
  exact (hbuffer.append hreads).append harray

theorem readStdinLoop_leads (input : P) (rounds : List (Option P)) :
    LeadsTo ⟨n, .block input ::ₘ loose, items⟩ (readStdinLoop input rounds)
      ⟨n, .block (lastInput input rounds) ::ₘ loose, items⟩ := by
  induction rounds generalizing input with
  | nil => exact .nil
  | cons round rounds ih =>
    cases round with
    | none => exact .cons (.useLoose (Multiset.mem_cons_self _ _)) (ih input)
    | some p =>
      exact .cons (.release _)
        (.cons (.acquire _) (.cons (.useLoose (Multiset.mem_cons_self _ _)) (ih p)))

theorem useString_leads {string : Option P} (h : ∀ p ∈ string, .block p ∈ κ.loose) :
    LeadsTo κ (useString string) κ := by
  cases string with
  | none => exact .nil
  | some p => exact .cons (.useLoose (h p rfl)) .nil

theorem StringRun.leads (r : StringRun P) {string : Option P} (h : ∀ p ∈ string, .block p ∈ loose) :
    LeadsTo ⟨n, loose, items⟩ (r.calls string) ⟨n, loose, items⟩ := by
  induction r generalizing string loose with
  | shuffles this obj s =>
    have hbefore : LeadsTo ⟨n, loose, items⟩ (useString string ++ .enter :: useString string)
        ⟨n + 1, loose, deeper items⟩ :=
          (useString_leads h).append (.cons .enter (useString_leads h))
    have hcreate : LeadsTo ⟨n + 1, loose, deeper items⟩ (.createMemory 0 this obj :: useString string)
        ⟨n + 1, loose, (0, .array obj this) :: deeper items⟩ :=
          .cons (.createMemory n.succ_pos) (useString_leads h)
    have hshuffle : LeadsTo ⟨n + 1, loose, (0, .array obj this) :: deeper items⟩ (s.calls this obj)
        ⟨n + 1, loose, s.known ((0, .array obj this) :: deeper items)⟩ := s.leads List.mem_cons_self
    have hleave : ∀ x ∈ items, (x.1 + 1, x.2) ∈ s.known ((0, .array obj this) :: deeper items) :=
      fun x hx =>
      s.mem_known (List.mem_cons_of_mem _ (mem_deeper hx))
    have hall := ((hbefore.append hcreate).append hshuffle).append (.cons (.leave hleave) .nil)
    simpa [StringRun.calls] using hall
  | reads input rounds rest ih =>
    have hread : LeadsTo ⟨n, loose, items⟩
      (useString string ++ .acquire (.block input) :: readStdinLoop input rounds)
        ⟨n, .block (lastInput input rounds) ::ₘ loose, items⟩ :=
      (useString_leads h).append (.cons (.acquire _) (readStdinLoop_leads input rounds))
    have hrest : LeadsTo ⟨n, .block (lastInput input rounds) ::ₘ loose, items⟩
      (rest.calls (some (lastInput input rounds)))
        ⟨n, .block (lastInput input rounds) ::ₘ loose, items⟩ := ih (by simp)
    exact (hread.append hrest).append (.cons (.release _) .nil)
  | fails input rounds =>
    have hread : LeadsTo ⟨n, loose, items⟩
      (useString string ++ .acquire (.block input) :: readStdinLoop input rounds)
        ⟨n, .block (lastInput input rounds) ::ₘ loose, items⟩ :=
      (useString_leads h).append (.cons (.acquire _) (readStdinLoop_leads input rounds))
    exact hread.append (.cons (.release _) .nil)

/-- The known items once the output is written: its buffer, if the file could be opened. -/
def written (items : List (ℕ × Item P)) : Option (F × P) → List (ℕ × Item P)
  | none => items
  | some (_, wbuf) => (0, .block wbuf) :: items

theorem writeOut_leads (out : Option (F × P)) (harray : (k, .array obj this) ∈ items) :
    LeadsTo ⟨n + 1, loose, items⟩ (writeOut this out) ⟨n + 1, loose, written items out⟩ := by
  cases out with
  | none => exact .nil
  | some out =>
    have hwbuf : (0, .block out.2) ∈ (0, Item.block out.2) :: items := List.mem_cons_self
    have harray' : (k, .array obj this) ∈ (0, Item.block out.2) :: items :=
      List.mem_cons_of_mem _ harray
    exact .cons (.acquire _) (.cons (.useItem harray rfl) (.cons (.smalloc n.succ_pos)
      (.cons (.useItem harray' rfl)
      (.cons (.useItem hwbuf rfl) (.cons (.useLoose (Multiset.mem_cons_self _ _)) (.cons (.release _)
        (.cons (.useItem harray' rfl) .nil)))))))

/-- **On each path** `main` leads from nothing to nothing. -/
theorem Path.leads (path : Path P F) : LeadsTo ⟨0, 0, []⟩ path.calls ⟨0, 0, []⟩ := by
  have hleave : ∀ {items : List (ℕ × Item P)}, LeadsTo ⟨1, 0, items⟩ [.leave] (⟨0, 0, []⟩ : Known P F) :=
    .cons (.leave (by simp)) .nil
  cases path with
  | usage => exact .nil
  | string r => exact r.leads (by simp)
  | notOpened => exact .cons .enter hleave
  | inPlace infile this obj s =>
    have hopen : LeadsTo ⟨0, 0, []⟩ [.enter, .acquire (.stream infile), .createFile 0 this obj infile true]
        ⟨1, 0, [(0, .array obj this)]⟩ :=
      .cons .enter (.cons (.acquire _) (.cons (.createFile one_pos) .nil))
    exact (hopen.append (s.leads List.mem_cons_self)).append hleave
  | buffered infile buf this obj reads s out =>
    have harray : (0, Item.array obj this) ∈ [(0, Item.array obj this)] := List.mem_cons_self
    have hopen : LeadsTo (⟨0, 0, []⟩ : Known P F) [.enter, .acquire (.stream infile)] ⟨1, {.stream infile}, []⟩ :=
      .cons .enter (.cons (.acquire _) .nil)
    have hread : LeadsTo (⟨1, {.stream infile}, []⟩ : Known P F) (readWholeFile infile buf this obj reads)
        ⟨1, {.stream infile}, [(0, .array obj this)]⟩ :=
      readWholeFile_leads (Multiset.mem_singleton_self _) buf this obj reads
    have hclose : LeadsTo (⟨1, {.stream infile}, [(0, .array obj this)]⟩ : Known P F)
        [.release (.stream infile), .use (.block this)] ⟨1, 0, [(0, .array obj this)]⟩ :=
      .cons (.release _) (.cons (.useItem harray rfl) .nil)
    have hwrite : LeadsTo (⟨1, 0, s.known [(0, .array obj this)]⟩ : Known P F) (writeOut this out)
        ⟨1, 0, written (s.known [(0, .array obj this)]) out⟩ :=
          writeOut_leads out (s.mem_known harray)
    have hall :=
      ((((hopen.append hread).append hclose).append (s.leads harray)).append hwrite).append hleave
    simpa [Path.calls] using hall

/-! ### All is released -/

theorem known_start : Known.Of ⟨0, 0, []⟩ (Env.start P F) :=
  ⟨rfl, rfl, fun _ hx => (List.not_mem_nil hx).elim, fun _ ⟨_, hx, _⟩ => (Multiset.notMem_zero _ hx).elim⟩

variable [DecidableEq P] [DecidableEq F]

/-- **`main` releases all that it acquires**, on each of its paths: the stores of its scopes, the
arrays and generators, the buffers and the streams. Nothing is released twice, or used when it is
not open. -/
theorem main_releases (path : Path P F) (hfresh : Fresh path.calls (Env.start P F)) :
    ∃ e es, run path.calls (Env.start P F) = some (e, es) ∧ e.stores = [] ∧ e.loose = 0 ∧
      Orderly es ∧
      ∀ r, es.count (.release r) = es.count (.acquire r) := by
  obtain ⟨hproper, hend⟩ := proper_of_leads path.leads inv_start known_start hfresh
  obtain ⟨e, es, hrun, -, haccount⟩ := run_account inv_start hfresh hproper
  obtain ⟨hdepth, hloose, -, -⟩ := hend (e, es) hrun
  have hstores : e.stores = [] := List.eq_nil_of_length_eq_zero hdepth
  have htotal : e.total = 0 := by
    rw [Env.total, Env.slots, hstores, hloose]
    rfl
  rw [htotal] at haccount
  exact ⟨e, es, hrun, hstores, hloose, orderly_of_account haccount, released_of_account haccount⟩

/-- Two items of a file are swapped. The buffer of the second is at the place of the one before. -/
def swapped : Path ℕ ℕ :=
  .inPlace 0 1 2 ⟨fun | .xoro => (3, 4) | .frng => (5, 6) | .drng => (7, 8),
    [.getV 9, .rng .xoro, .swap 10 10, .field]⟩

theorem main_releases_swapped :
    ∃ e es, run swapped.calls (Env.start ℕ ℕ) = some (e, es) ∧ e.stores = [] ∧ e.loose = 0 ∧
      Orderly es ∧
      ∀ r, es.count (.release r) = es.count (.acquire r) :=
  main_releases swapped (by decide)

end Shuffle3.V1.Resources
