import Mathlib.Data.List.Basic
import Mathlib.Logic.Function.Basic

/-!
# The lives of blocks

Blocks of memory are registered, raw or as objects, and later freed; the destructor
of an object is run just before. A pointer may come back as the pointer of a new
block once its block has been freed. The events of a run are accounted for one by
one, and an event that does not fit stops the account.

## What is proved

* `Blocks.count_free`, `Blocks.count_destruct` — in an account each block is freed
  once and the destructor of each object run once, but for the blocks still live.
* `Blocks.destruct_then_free` — and right after its destructor an object is freed.
* `Blocks.freesOnce_of_account` — so an account that ends with no live block frees each
  block once.
* `Blocks.account_releases_all` — all live blocks can be released, and then none is live.

## Honest scope

The contents of blocks are left out. An object without a destructor counts as one
whose destructor does nothing.
-/

namespace Shuffle3.Foundations.Lifecycles

/-- What happens to a block. -/
inductive Event (P : Type) where
  /-- The constructor of an object is run. -/
  | construct (p : P)
  /-- A block is registered. -/
  | register (p : P) (isObj : Bool)
  /-- The destructor of an object is run. -/
  | destruct (p : P)
  /-- A block is freed. -/
  | free (p : P)
  deriving DecidableEq

/-- What is known of a pointer: whether its last block is live, and an object. -/
inductive Status where
  | unseen
  | live (isObj : Bool)
  | freed (isObj : Bool)
  deriving DecidableEq

/-- Whether there is a live block. -/
def Status.isLive : Status → Bool
  | .live _ => true
  | _ => false

/-- The block is no longer live. -/
def Status.release : Status → Status
  | .live isObj => .freed isObj
  | s => s

@[simp] theorem Status.isLive_live (isObj : Bool) : (live isObj).isLive = true := rfl

theorem Status.isLive_eq_false {s : Status} (h : ∀ isObj, s ≠ .live isObj) : s.isLive = false := by
  cases s with
  | live isObj => exact absurd rfl (h isObj)
  | unseen => rfl
  | freed isObj => rfl

theorem Status.release_eq_self {s : Status} (h : s.isLive = false) : s.release = s := by
  cases s with
  | live isObj => cases h
  | unseen => rfl
  | freed isObj => rfl

@[simp] theorem Status.isLive_release (s : Status) : s.release.isLive = false := by
  cases s <;> rfl

/-- All blocks, and the object whose destructor has just been run. -/
@[ext]
structure Blocks (P : Type) where
  status : P → Status
  running : Option P

namespace Blocks

variable {P : Type} [DecidableEq P] {b b' : Blocks P} {es fs : List (Event P)} {p : P} {isObj : Bool}

/-- No block at all. -/
def start (P : Type) : Blocks P := ⟨fun _ => .unseen, none⟩

/-- One event, if it fits: a block is registered at a pointer that is not live, a
destructor is run on a live object, and a live block is freed, an object only when its
destructor has just been run. -/
def step (b : Blocks P) : Event P → Option (Blocks P)
  | .construct p => if b.running = none ∧ (b.status p).isLive = false then some b else none
  | .register p isObj =>
    if b.running = none ∧ (b.status p).isLive = false then
      some ⟨Function.update b.status p (.live isObj), none⟩
    else none
  | .destruct p => if b.running = none ∧ b.status p = .live true then some ⟨b.status, some p⟩ else none
  | .free p =>
    if b.status p = .live false ∧ b.running = none ∨ b.status p = .live true ∧ b.running = some p then
      some ⟨Function.update b.status p (b.status p).release, none⟩
    else none

/-- All events of a run. -/
def account (b : Blocks P) : List (Event P) → Option (Blocks P)
  | [] => some b
  | e :: es => (b.step e).bind fun b => b.account es

theorem account_append (b : Blocks P) (es fs : List (Event P)) :
    b.account (es ++ fs) = (b.account es).bind fun b => b.account fs := by
  induction es generalizing b with
  | nil => rfl
  | cons e es ih =>
    rw [List.cons_append, account, account, Option.bind_assoc]
    congr 1
    funext b
    exact ih b

/-- The blocks at a pointer that are still to be freed. -/
def held (b : Blocks P) (p : P) : ℕ := if (b.status p).isLive then 1 else 0

/-- The objects at a pointer whose destructor is still to be run. -/
def due (b : Blocks P) (p : P) : ℕ := if b.status p = .live true ∧ b.running ≠ some p then 1 else 0

omit [DecidableEq P] in
@[simp] theorem held_start (p : P) : (start P).held p = 0 := rfl

@[simp] theorem due_start (p : P) : (start P).due p = 0 := by simp [due, start]

/-- The registrations of a pointer. -/
def registrations (p : P) (es : List (Event P)) : ℕ :=
  es.count (.register p true) + es.count (.register p false)

theorem registrations_cons (p : P) (e : Event P) (es : List (Event P)) :
    registrations p (e :: es) = registrations p [e] + registrations p es := by
  simp only [registrations, List.count_cons, List.count_nil]
  omega

/-- One event frees what it takes from the blocks held. -/
theorem held_step {e : Event P} (h : b.step e = some b') (p : P) :
    [e].count (.free p) + b'.held p = registrations p [e] + b.held p := by
  cases e with
  | construct q =>
    simp only [step] at h
    split_ifs at h
    cases h
    simp [registrations]
  | register q isObj =>
    simp only [step] at h
    split_ifs at h with hq
    cases h
    by_cases hqp : q = p
    · subst hqp
      cases isObj <;> simp [registrations, held, hq.2]
    · simp [registrations, held, Function.update_of_ne (Ne.symm hqp), hqp]
  | destruct q =>
    simp only [step] at h
    split_ifs at h
    cases h
    simp [registrations, held]
  | free q =>
    simp only [step] at h
    split_ifs at h with hq
    cases h
    by_cases hqp : q = p
    · subst hqp
      have hlive : (b.status q).isLive = true := by
        rcases hq with ⟨hq, -⟩ | ⟨hq, -⟩ <;> rw [hq] <;> rfl
      simp [registrations, held, hlive]
    · simp [registrations, held, Function.update_of_ne (Ne.symm hqp), hqp]

/-- One event runs the destructors that it takes from those due. -/
theorem due_step {e : Event P} (h : b.step e = some b') (p : P) :
    [e].count (.destruct p) + b'.due p = [e].count (.register p true) + b.due p := by
  cases e with
  | construct q =>
    simp only [step] at h
    split_ifs at h
    cases h
    simp
  | register q isObj =>
    simp only [step] at h
    split_ifs at h with hq
    cases h
    by_cases hqp : q = p
    · subst hqp
      have hne : b.status q ≠ .live true := by
        intro hlive
        simp [hlive, Status.isLive] at hq
      cases isObj <;> simp [due, hne]
    · simp [due, Function.update_of_ne (Ne.symm hqp), hqp, hq.1]
  | destruct q =>
    simp only [step] at h
    split_ifs at h with hq
    cases h
    by_cases hqp : q = p
    · subst hqp
      simp [due, hq.1, hq.2]
    · simp [due, hq.1, hqp]
  | free q =>
    simp only [step] at h
    split_ifs at h with hq
    cases h
    by_cases hqp : q = p
    · subst hqp
      rcases hq with ⟨hq, hrun⟩ | ⟨hq, hrun⟩ <;> simp [due, hq, hrun, Status.release]
    · rcases hq with ⟨-, hrun⟩ | ⟨-, hrun⟩ <;> simp [due, hrun, Function.update_of_ne (Ne.symm hqp), hqp]

/-- **Each block is freed once**: a pointer is freed as often as it is registered, but
for the blocks still held. -/
theorem count_free (h : b.account es = some b') (p : P) :
    es.count (.free p) + b'.held p = registrations p es + b.held p := by
  induction es generalizing b with
  | nil =>
    cases h
    rfl
  | cons e es ih =>
    obtain ⟨c, hc, h⟩ := Option.bind_eq_some_iff.mp h
    have hstep := held_step hc p
    have hrest := ih h
    rw [registrations_cons]
    simp only [List.count_cons, List.count_nil] at hstep ⊢
    omega

/-- **The destructor of each object is run once**, but for the objects still held. -/
theorem count_destruct (h : b.account es = some b') (p : P) :
    es.count (.destruct p) + b'.due p = es.count (.register p true) + b.due p := by
  induction es generalizing b with
  | nil =>
    cases h
    rfl
  | cons e es ih =>
    obtain ⟨c, hc, h⟩ := Option.bind_eq_some_iff.mp h
    have hstep := due_step hc p
    have hrest := ih h
    simp only [List.count_cons, List.count_nil] at hstep ⊢
    omega

/-- Right after a destructor only the free of its object fits. -/
theorem eq_free_of_running {e : Event P} (hp : b.running = some p) (h : b.step e = some b') :
    e = .free p := by
  cases e with
  | construct q => simp [step, hp] at h
  | register q isObj => simp [step, hp] at h
  | destruct q => simp [step, hp] at h
  | free q =>
    simp only [step, hp, reduceCtorEq, and_false, false_or] at h
    split_ifs at h with hq
    rw [Option.some.inj hq.2]

/-- **Right after its destructor an object is freed.** -/
theorem destruct_then_free (h : b.account (es ++ .destruct p :: fs) = some b')
    (hb : b'.running = none) :
    ∃ gs, fs = .free p :: gs := by
  rw [account_append] at h
  obtain ⟨c, -, h⟩ := Option.bind_eq_some_iff.mp h
  obtain ⟨d, hd, h⟩ := Option.bind_eq_some_iff.mp h
  have hrun : d.running = some p := by
    simp only [step] at hd
    split_ifs at hd
    cases hd
    rfl
  cases fs with
  | nil =>
    cases h
    rw [hrun] at hb
    cases hb
  | cons e fs =>
    obtain ⟨d', hd', -⟩ := Option.bind_eq_some_iff.mp h
    exact ⟨fs, by rw [eq_free_of_running hrun hd']⟩

/-- **What a complete run does**: a block is freed as often as one is registered, and at
no point more often; the same is true of destructors and objects, and right after its
destructor an object is freed. -/
structure FreesOnce (es : List (Event P)) : Prop where
  freed : ∀ p, es.count (.free p) = registrations p es
  freed_le : ∀ p fs, fs <+: es → fs.count (.free p) ≤ registrations p fs
  destructed : ∀ p, es.count (.destruct p) = es.count (.register p true)
  destructed_le : ∀ p fs, fs <+: es → fs.count (.destruct p) ≤ fs.count (.register p true)
  next : ∀ p fs gs, es = fs ++ .destruct p :: gs → ∃ gs', gs = .free p :: gs'

/-- A prefix of an account is one. -/
theorem account_prefix (h : b.account es = some b') (hfs : fs <+: es) :
    ∃ c, b.account fs = some c := by
  obtain ⟨gs, rfl⟩ := hfs
  rw [account_append] at h
  obtain ⟨c, hc, -⟩ := Option.bind_eq_some_iff.mp h
  exact ⟨c, hc⟩

/-- An account from no block to no live block frees each block once. -/
theorem freesOnce_of_account (h : (start P).account es = some b)
    (hlive : ∀ p, (b.status p).isLive = false) (hrun : b.running = none) : FreesOnce es where
  freed p := by
    have hcount := count_free h p
    rw [held_start] at hcount
    have hheld : b.held p = 0 := by simp [held, hlive]
    omega
  freed_le p fs hfs := by
    obtain ⟨c, hc⟩ := account_prefix h hfs
    have hcount := count_free hc p
    rw [held_start] at hcount
    omega
  destructed p := by
    have hcount := count_destruct h p
    rw [due_start] at hcount
    have hdead : b.status p ≠ .live true := by
      intro he
      have hno := hlive p
      rw [he] at hno
      cases hno
    have hdue : b.due p = 0 := by simp [due, hdead]
    omega
  destructed_le p fs hfs := by
    obtain ⟨c, hc⟩ := account_prefix h hfs
    have hcount := count_destruct hc p
    rw [due_start] at hcount
    omega
  next p fs gs he := by
    rw [he] at h
    exact destruct_then_free h hrun

/-! ### Releasing blocks -/

/-- A block is freed, after its destructor if it is an object. -/
def release (p : P) : Bool → List (Event P)
  | true => [.destruct p, .free p]
  | false => [.free p]

/-- The blocks are released, one after another. -/
def releases : List (P × Bool) → List (Event P)
  | [] => []
  | (p, isObj) :: ps => release p isObj ++ releases ps

variable {σ : P → Status} {ps : List (P × Bool)}

theorem account_release (h : σ p = .live isObj) :
    account ⟨σ, none⟩ (release p isObj) = some ⟨Function.update σ p (.freed isObj), none⟩ := by
  cases isObj <;> simp [release, account, step, h, Status.release]

/-- Distinct live blocks can be released, one after another. -/
theorem account_releases (hlive : ∀ p isObj, (p, isObj) ∈ ps → σ p = .live isObj)
    (hps : (ps.map Prod.fst).Nodup) :
    account ⟨σ, none⟩ (releases ps) =
      some ⟨fun p => if p ∈ ps.map Prod.fst then (σ p).release else σ p, none⟩ := by
  induction ps generalizing σ with
  | nil => simp [releases, account]
  | cons q ps ih =>
    obtain ⟨q, isObj⟩ := q
    rw [List.map_cons, List.nodup_cons] at hps
    obtain ⟨hq, hps⟩ := hps
    have hqlive := hlive q isObj List.mem_cons_self
    have hrest : ∀ p k, (p, k) ∈ ps → Function.update σ q (.freed isObj) p = .live k := by
      intro p k hp
      have hne : p ≠ q := by
        rintro rfl
        exact hq (List.mem_map.mpr ⟨_, hp, rfl⟩)
      rw [Function.update_of_ne hne]
      exact hlive p k (List.mem_cons_of_mem _ hp)
    rw [releases, account_append, account_release hqlive, Option.bind_some, ih hrest hps]
    congr 2
    funext p
    by_cases hp : p = q
    · subst hp
      simp [hq, hqlive, Status.release]
    · simp [hp]

/-- **All live blocks are released**, and no block is live. -/
theorem account_releases_all (hall : ∀ p isObj, (p, isObj) ∈ ps ↔ σ p = .live isObj)
    (hps : (ps.map Prod.fst).Nodup) :
    account ⟨σ, none⟩ (releases ps) = some ⟨fun p => (σ p).release, none⟩ := by
  rw [account_releases (fun p k => (hall p k).mp) hps]
  congr 2
  funext p
  split_ifs with hp
  · rfl
  · refine (Status.release_eq_self (Status.isLive_eq_false fun isObj hlive => hp ?_)).symm
    exact List.mem_map.mpr ⟨_, (hall p isObj).mpr hlive, rfl⟩

end Blocks

end Shuffle3.Foundations.Lifecycles
