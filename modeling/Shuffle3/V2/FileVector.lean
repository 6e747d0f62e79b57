import Shuffle3.Foundations.Stacks
import Shuffle3.Foundations.Streams

/-!
# The stack in a file

`fvec_t`, a stack of buffers in a temporary file, and `file_vector`, a stack of
values over it. A push writes to the stream where the stream is; a look at the
last value seeks to the end and reads it, which leaves the stream at the end; a
pop cuts the file and leaves the stream where it is, with what is in its buffer.

So the stream is where a push needs it only after a look or another push, and the
file is what a pop needs only after a look or another pop.

## What is proved

* `stackLike_fileVector` — pushes keep the stream at the end of the file, pops
  keep its buffer empty, and looks do both.
* `fileVector_run` — a stack, in every run in which a look stands between pushes
  and pops.
* `fileVector_size` — the size and the length are right in every run.
* `popsWhole_iff` — when one pop of the C layer does all of what it says or nothing.

## Honest scope

All calls of the C library succeed, but for the `ftruncate` of a pop of the C layer.
-/

namespace Shuffle3.V2

open Foundations

/-! ### The C layer -/

/-- `fvec_t`. -/
structure Fvec where
  backing : Stream
  len : ℕ
  deriving DecidableEq

/-- `fvec_new`: the file is opened with `"w+b"`, so it is empty. -/
def fvecNew : Fvec := ⟨.opened [], 0⟩

/-- Subtraction of `size_t`. -/
def sizeSub (a b : ℕ) : ℕ := if b ≤ a then a - b else a + 2 ^ 64 - b

/-- `fvec_pop_end`, where `truncated` says whether `ftruncate` succeeds. -/
def fvecPopEnd (truncated : Bool) (obj : Fvec) (sz : ℕ) : Bool × Fvec :=
  if obj.len = 0 then (false, obj)
  else
    let len := sizeSub obj.len sz
    if truncated then (true, ⟨obj.backing.ftruncate len, len⟩) else (false, ⟨obj.backing, len⟩)

/-- `fvec_push_whole_buffer`. -/
def fvecPushWholeBuffer (obj : Fvec) (buffer : List Byte) : Fvec :=
  ⟨obj.backing.fwrite buffer, obj.len + buffer.length⟩

/-- `fvec_get_whole_buffer`: the buffer it fills, unless it returns 0. It panics on
a short read. -/
def fvecGetWholeBuffer (obj : Fvec) (sz : ℕ) : Option (Option (List Byte) × Fvec) :=
  if obj.len < sz then some (none, obj)
  else match obj.backing.fseekEnd sz with
    | none => some (none, { obj with backing := obj.backing.flush })
    | some s =>
      let (buffer, s) := s.fread sz
      if buffer.length = sz then some (some buffer, { obj with backing := s }) else none

/-! ### One pop of the C layer -/

/-- A pop of `sz` bytes does all of it or nothing: when it returns 1 the last `sz`
bytes are gone, when it returns 0 nothing changed, and the length never grows. -/
def PopsWhole (truncated : Bool) (obj : Fvec) (sz : ℕ) : Prop :=
  let (popped, obj') := fvecPopEnd truncated obj sz
  (popped = true → sz ≤ obj.len ∧ obj'.len = obj.len - sz ∧
    obj'.backing.file = obj.backing.file.take (obj.len - sz)) ∧
  (popped = false → obj'.len = obj.len ∧ obj'.backing.file = obj.backing.file) ∧ obj'.len ≤ obj.len

theorem sizeSub_of_le {a b : ℕ} (h : b ≤ a) : sizeSub a b = a - b := if_pos h

/-- A length that wraps grows. -/
theorem lt_sizeSub {a b : ℕ} (h : a < b) (hb : b < 2 ^ 64) : a < sizeSub a b := by
  rw [sizeSub, if_neg (Nat.not_le.mpr h)]
  omega

/-- A cut that does not make the file longer keeps its first bytes. -/
theorem ftruncate_file_of_le {s : Stream} {n : ℕ} (h : n ≤ s.file.length) :
    (s.ftruncate n).file = s.file.take n := by
  simp only [Stream.ftruncate, Nat.sub_eq_zero_of_le h, List.replicate_zero, List.append_nil]

theorem fvecPopEnd_empty {obj : Fvec} (h : obj.len = 0) (truncated : Bool) (sz : ℕ) :
    fvecPopEnd truncated obj sz = (false, obj) := if_pos h

/-- The length is changed whether or not the file is cut. -/
theorem fvecPopEnd_len {obj : Fvec} (h : obj.len ≠ 0) (truncated : Bool) (sz : ℕ) :
    (fvecPopEnd truncated obj sz).2.len = sizeSub obj.len sz := by
  cases truncated <;> simp [fvecPopEnd, h]

theorem fvecPopEnd_fst {obj : Fvec} (h : obj.len ≠ 0) (truncated : Bool) (sz : ℕ) :
    (fvecPopEnd truncated obj sz).1 = truncated := by
  cases truncated <;> simp [fvecPopEnd, h]

theorem fvecPopEnd_file {obj : Fvec} (h : obj.len ≠ 0) (truncated : Bool) (sz : ℕ) :
    (fvecPopEnd truncated obj sz).2.backing.file =
      if truncated then (obj.backing.ftruncate (sizeSub obj.len sz)).file else obj.backing.file := by
  cases truncated <;> simp [fvecPopEnd, h]

/-- **A pop does all of it or nothing** if and only if the store is empty, or nothing
is popped, or the store has the bytes and the file can be cut. -/
theorem popsWhole_iff {truncated : Bool} {obj : Fvec} {sz : ℕ}
    (hfile : obj.backing.file.length = obj.len) (hsz : sz < 2 ^ 64) :
    PopsWhole truncated obj sz ↔ obj.len = 0 ∨ sz = 0 ∨ (sz ≤ obj.len ∧ truncated = true) := by
  by_cases hlen : obj.len = 0
  · simp [PopsWhole, fvecPopEnd_empty hlen, hlen]
  simp only [PopsWhole, fvecPopEnd_len hlen, fvecPopEnd_fst hlen, fvecPopEnd_file hlen]
  rcases Nat.lt_or_ge obj.len sz with hlt | hle
  · -- the length wraps, whatever the call returns
    have hgrows := lt_sizeSub hlt hsz
    constructor
    · rintro ⟨-, -, hshrinks⟩
      omega
    · rintro (h | h | h) <;> omega
  · have hcut := ftruncate_file_of_le (s := obj.backing) (n := obj.len - sz) (by omega)
    rw [sizeSub_of_le hle, hcut]
    cases truncated with
    | true => simp [hle]
    | false =>
      have hkept : obj.len - sz = obj.len ↔ sz = 0 := by omega
      simp [hlen, hkept]

/-- The last of two bytes is popped. -/
theorem popsWhole_iff_two :
    PopsWhole true ⟨.opened [7, 8], 2⟩ 1 ↔ (2 = 0 ∨ 1 = 0 ∨ (1 ≤ 2 ∧ true = true)) :=
  popsWhole_iff (show (Fvec.mk (.opened [7, 8]) 2).backing.file.length = 2 from rfl) (by decide)

/-- The file cannot be cut, and its length is taken down all the same. -/
theorem not_popsWhole_failed : ¬ ∀ (truncated : Bool) (obj : Fvec) (sz : ℕ),
    obj.backing.file.length = obj.len → sz < 2 ^ 64 → PopsWhole truncated obj sz := by
  intro h
  have hfailed := (h false ⟨.opened [7], 1⟩ 1 rfl (by decide)).2.1 rfl
  exact absurd hfailed.1 (by decide)

/-! ### The vector -/

variable {τ : Type} [Layout τ]

/-- `file_vector<T>`. -/
structure FileVector (τ : Type) [Layout τ] where
  inserter : Fvec
  len : ℕ
  currentBack : Block Byte (Layout.sizeof τ)

/-- A new `file_vector`. -/
def FileVector.fresh (τ : Type) [Layout τ] : FileVector τ :=
  ⟨fvecNew, 0, ⟨List.replicate (Layout.sizeof τ) 0#8, List.length_replicate⟩⟩

instance : StackOps (FileVector τ) τ where
  size v := v.len
  pushBack v value :=
    some { v with inserter := fvecPushWholeBuffer v.inserter (Layout.toBytes value).val, len := v.len + 1 }
  popBack v :=
    if v.len = 0 then some v
    else match fvecPopEnd true v.inserter (Layout.sizeof τ) with
      | (false, _) => none
      | (true, f) => some { v with inserter := f, len := v.len - 1 }
  back v :=
    if v.len = 0 then none
    else (fvecGetWholeBuffer v.inserter (Layout.sizeof τ)).bind fun (buffer, f) =>
      buffer.bind fun b =>
        if h : b.length = Layout.sizeof τ then
          some (Layout.ofBytes ⟨b, h⟩, { v with inserter := f, currentBack := ⟨b, h⟩ })
        else none

/-- The bytes of the values of a stack, the first pushed first. -/
def encode (xs : List τ) : List Byte := join (xs.reverse.map Layout.toBytes)

@[simp] theorem encode_cons (a : τ) (xs : List τ) : encode (a :: xs) = encode xs ++ (Layout.toBytes a).val := by
  simp [encode]

@[simp] theorem length_encode (xs : List τ) : (encode xs).length = Layout.sizeof τ * xs.length := by
  simp [encode, Nat.mul_comm]

/-- The vector counts its values. -/
def Counts (v : FileVector τ) (n : ℕ) : Prop := v.len = n ∧ v.inserter.len = Layout.sizeof τ * n

/-- Ready for a push: the stream is at the end of the file, and the buffer goes there. -/
def Pushable (v : FileVector τ) (xs : List τ) : Prop :=
  Counts v xs.length ∧ v.inserter.backing.pos = v.inserter.backing.file.length ∧
    v.inserter.backing.file ++ v.inserter.backing.pending = encode xs

/-- Ready for a pop: the values are in the file, and nothing is in the buffer. -/
def Poppable (v : FileVector τ) (xs : List τ) : Prop :=
  Counts v xs.length ∧ v.inserter.backing.file = encode xs ∧ v.inserter.backing.pending = []

/-- In either case writing the buffer out leaves the values in the file. -/
theorem flush_file {v : FileVector τ} {xs : List τ} (h : Pushable v xs ∨ Poppable v xs) :
    v.inserter.backing.flush.file = encode xs := by
  rcases h with ⟨-, hpos, hfile⟩ | ⟨-, hfile, hpend⟩
  · rw [Stream.flush_of_end hpos, hfile]
  · rw [Stream.flush_of_nil hpend, hfile]

theorem push_fileVector {v : FileVector τ} {xs : List τ} (h : Pushable v xs) (a : τ) :
    ∃ v', StackOps.pushBack v a = some v' ∧ Pushable v' (a :: xs) := by
  obtain ⟨⟨hlen, hobj⟩, hpos, hfile⟩ := h
  refine ⟨_, rfl, ⟨congrArg (· + 1) hlen, ?_⟩, hpos, ?_⟩
  · simp only [fvecPushWholeBuffer, hobj, (Layout.toBytes a).2, List.length_cons, Nat.mul_succ]
  · simp only [fvecPushWholeBuffer, Stream.fwrite, encode_cons, ← hfile, List.append_assoc]

/-- **A look returns the last value, and leaves the vector ready for both.** -/
theorem back_fileVector {v : FileVector τ} {a : τ} {xs : List τ}
    (h : Pushable v (a :: xs) ∨ Poppable v (a :: xs)) :
    ∃ v', StackOps.back v = some (a, v') ∧ Pushable v' (a :: xs) ∧ Poppable v' (a :: xs) := by
  have hfile := flush_file h
  have hcounts : Counts v (xs.length + 1) := by rcases h with h | h <;> exact h.1
  obtain ⟨hlen, hobj⟩ := hcounts
  rw [encode_cons] at hfile
  obtain ⟨t, hseek, hread⟩ := Stream.fread_fseekEnd hfile
  rw [(Layout.toBytes a).2] at hseek hread
  have hne : v.len ≠ 0 := by omega
  have hge : ¬ v.inserter.len < Layout.sizeof τ := by
    rw [hobj, Nat.mul_succ]
    omega
  have hval : (⟨(Layout.toBytes a).val, (Layout.toBytes a).2⟩ : Block Byte (Layout.sizeof τ)) =
      Layout.toBytes a := rfl
  refine ⟨⟨⟨⟨encode xs ++ (Layout.toBytes a).val, (encode xs ++ (Layout.toBytes a).val).length, []⟩,
    v.inserter.len⟩, v.len, Layout.toBytes a⟩, ?_, ⟨⟨hlen, hobj⟩, rfl, ?_⟩, ⟨⟨hlen, hobj⟩, ?_, rfl⟩⟩
  · simp only [StackOps.back, if_neg hne, fvecGetWholeBuffer, if_neg hge, hseek, hread,
      (Layout.toBytes a).2, if_true, Option.bind_some, dite_true, hval, Layout.ofBytes_toBytes]
  · rw [encode_cons, List.append_nil]
  · rw [encode_cons]

theorem pop_fileVector {v : FileVector τ} {a : τ} {xs : List τ} (h : Poppable v (a :: xs)) :
    ∃ v', StackOps.popBack v = some v' ∧ Poppable v' xs := by
  obtain ⟨⟨hlen, hobj⟩, hfile, hpend⟩ := h
  rw [List.length_cons] at hlen hobj
  have hne : v.len ≠ 0 := by omega
  have hsub : sizeSub v.inserter.len (Layout.sizeof τ) = (encode xs).length := by
    rw [hobj, Nat.mul_succ, length_encode, sizeSub, if_pos (Nat.le_add_left _ _), Nat.add_sub_cancel]
  have hobj0 : v.inserter.len ≠ 0 := by
    have := Layout.sizeof_pos (τ := τ)
    rw [hobj, Nat.mul_succ]
    omega
  refine ⟨⟨⟨v.inserter.backing.ftruncate (encode xs).length, (encode xs).length⟩, v.len - 1, v.currentBack⟩, ?_,
    ⟨by rw [hlen, Nat.add_sub_cancel], length_encode xs⟩, ?_, hpend⟩
  · simp only [StackOps.popBack, if_neg hne, fvecPopEnd, if_neg hobj0, hsub, if_true]
  · rw [encode_cons] at hfile
    simp only [Stream.ftruncate, hfile, List.take_left, List.length_append]
    rw [Nat.sub_eq_zero_of_le (Nat.le_add_right _ _), List.replicate_zero, List.append_nil]

/-- **The vector stands for a stack that is filled and then emptied**, with a look
before each pop. -/
theorem stackLike_fileVector :
    StackLike ⊤ Pushable (fun v xs => Pushable v xs ∨ Poppable v xs)
      (Poppable : FileVector τ → List τ → Prop) where
  size h := by
    rcases h with (h | h) | h <;> exact h.1.1
  push h _ a := push_fileVector h a
  back h := (back_fileVector h).imp fun _ h => ⟨h.1, h.2.2⟩
  pop h := (pop_fileVector h).imp fun _ h => ⟨h.1, .inr h.2⟩
  drain := .inl
  nil := by
    intro v
    refine ⟨fun h => ?_, .inr⟩
    rcases h with ⟨hc, -, hfile⟩ | h
    · obtain ⟨hf, hp⟩ := List.append_eq_nil_iff.mp hfile
      exact ⟨hc, hf, hp⟩
    · exact h

/-! ### The size in every run -/

/-- What every order of calls keeps: the vector counts its values, and the file with
the buffer in it is long enough for them. -/
def Holding (v : FileVector τ) (n : ℕ) : Prop :=
  Counts v n ∧ v.inserter.len ≤ v.inserter.backing.flush.file.length ∧
    v.inserter.len ≤ v.inserter.backing.pos + v.inserter.backing.pending.length

theorem push_holding {v : FileVector τ} {n : ℕ} (h : Holding v n) (a : τ) :
    ∃ v', StackOps.pushBack v a = some v' ∧ Holding v' (n + 1) := by
  obtain ⟨⟨hlen, hobj⟩, -, hpos⟩ := h
  have hb : v.inserter.backing.pending ++ (Layout.toBytes a).val ≠ [] := by
    intro e
    have hnil := congrArg List.length (List.append_eq_nil_iff.mp e).2
    rw [(Layout.toBytes a).2] at hnil
    exact absurd hnil Layout.sizeof_pos.ne'
  have hwrite := le_length_writeAt_end v.inserter.backing.file v.inserter.backing.pos hb
  rw [List.length_append, (Layout.toBytes a).2] at hwrite
  refine ⟨_, rfl, ⟨congrArg (· + 1) hlen, ?_⟩, ?_, ?_⟩
  · simp only [fvecPushWholeBuffer, hobj, (Layout.toBytes a).2, Nat.mul_succ]
  · simp only [fvecPushWholeBuffer, Stream.fwrite, Stream.flush, (Layout.toBytes a).2]
    omega
  · simp only [fvecPushWholeBuffer, Stream.fwrite, List.length_append, (Layout.toBytes a).2]
    omega

theorem pop_holding {v : FileVector τ} {n : ℕ} (h : Holding v (n + 1)) :
    ∃ v', StackOps.popBack v = some v' ∧ Holding v' n := by
  obtain ⟨⟨hlen, hobj⟩, -, hpos⟩ := h
  have hw := Layout.sizeof_pos (τ := τ)
  rw [Nat.mul_succ] at hobj
  have hne : v.len ≠ 0 := by omega
  have hobj0 : v.inserter.len ≠ 0 := by omega
  have hsub : sizeSub v.inserter.len (Layout.sizeof τ) = Layout.sizeof τ * n := by
    rw [hobj, sizeSub, if_pos (Nat.le_add_left _ _), Nat.add_sub_cancel]
  refine ⟨⟨⟨v.inserter.backing.ftruncate (Layout.sizeof τ * n), Layout.sizeof τ * n⟩,
    v.len - 1, v.currentBack⟩, ?_,
    ⟨by rw [hlen, Nat.add_sub_cancel], rfl⟩, ?_, ?_⟩
  · simp only [StackOps.popBack, if_neg hne, fvecPopEnd, if_neg hobj0, hsub, if_true]
  · -- the cut file is as long as it is cut, whatever is written over it
    refine le_trans (le_of_eq ?_) (le_length_writeAt _ _ _)
    simp only [Stream.ftruncate, List.length_append, List.length_take, List.length_replicate]
    omega
  · simp only [Stream.ftruncate]
    omega

theorem back_holding {v : FileVector τ} {n : ℕ} (h : Holding v (n + 1)) :
    ∃ a v', StackOps.back v = some (a, v') ∧ Holding v' (n + 1) := by
  obtain ⟨⟨hlen, hobj⟩, hfile, -⟩ := h
  have hne : v.len ≠ 0 := by omega
  have hge : Layout.sizeof τ ≤ v.inserter.len := by
    rw [hobj, Nat.mul_succ]
    omega
  have hlast :
      (v.inserter.backing.flush.file.drop (v.inserter.backing.flush.file.length - Layout.sizeof τ)).length =
      Layout.sizeof τ := by
    rw [List.length_drop]
    omega
  obtain ⟨t, hseek, hread⟩ := Stream.fread_fseekEnd (List.take_append_drop
    (v.inserter.backing.flush.file.length - Layout.sizeof τ) v.inserter.backing.flush.file).symm
  rw [hlast] at hseek hread
  rw [List.take_append_drop] at hread
  refine ⟨Layout.ofBytes ⟨_, hlast⟩, ⟨⟨⟨v.inserter.backing.flush.file, v.inserter.backing.flush.file.length, []⟩,
    v.inserter.len⟩, v.len, ⟨_, hlast⟩⟩, ?_, ⟨hlen, hobj⟩, hfile, hfile⟩
  simp only [StackOps.back, if_neg hne, fvecGetWholeBuffer, if_neg (Nat.not_lt.mpr hge), hseek, hread, hlast,
    if_true, Option.bind_some, dite_true]

/-- One call: whatever the vector answers, it counts as the list does. -/
theorem step_holding {v : FileVector τ} {xs : List τ} {c : Call τ} (h : Holding v xs.length)
    {a : Answer τ} {ys : List τ} (hstep : c.step xs = some (a, ys)) :
    ∃ b w, c.step v = some (b, w) ∧ b.forget = a.forget ∧ Holding w ys.length := by
  cases c with
  | pushBack x =>
    cases hstep
    obtain ⟨w, hw, h'⟩ := push_holding h x
    exact ⟨.done, w, by rw [Call.step, hw]; rfl, rfl, h'⟩
  | popBack =>
    cases hstep
    cases xs with
    | nil =>
      have hlen : v.len = 0 := h.1.1
      exact ⟨.done, v, by simp [Call.step, StackOps.popBack, hlen], rfl, h⟩
    | cons x xs =>
      obtain ⟨w, hw, h'⟩ := pop_holding h
      exact ⟨.done, w, by rw [Call.step, hw]; rfl, rfl, h'⟩
  | back =>
    cases xs with
    | nil => cases hstep
    | cons x xs =>
      cases hstep
      obtain ⟨b, w, hw, h'⟩ := back_holding h
      exact ⟨.item b, w, by rw [Call.step, hw]; rfl, rfl, h'⟩
  | size =>
    cases hstep
    exact ⟨.count v.len, v, rfl, congrArg Answer.count h.1.1, h⟩

/-- **The size and the length are right in every run**, and no run fails: only the
values that looks return can be wrong. -/
theorem fileVector_size {v : FileVector τ} {xs : List τ} (h : Holding v xs.length)
    {cs : List (Call τ)} {as : List (Answer τ)} {ys : List τ}
    (hrun : Call.run xs cs = some (as, ys)) :
    ∃ bs w, Call.run v cs = some (bs, w) ∧ List.Forall₂ (fun b a => b.forget = a.forget) bs as ∧
      Holding w ys.length :=
  Call.run_rel (R := fun (v : FileVector τ) (xs : List τ) _ => Holding v xs.length) step_holding h hrun

/-! ### Runs in which looks stand between pushes and pops -/

/-- What was done since the last look. -/
inductive Phase where
  /-- Nothing. -/
  | looked
  /-- Values were pushed. -/
  | pushed
  /-- Values were popped. -/
  | popped
  deriving DecidableEq

/-- From a stack of `n` values, a look stands between every push and the next pop
and between every pop and the next push. A pop of an empty stack does nothing. -/
def LooksBetween : Phase → ℕ → List (Call τ) → Prop
  | _, _, [] => True
  | p, n, .pushBack _ :: cs => p ≠ .popped ∧ LooksBetween .pushed (n + 1) cs
  | p, 0, .popBack :: cs => LooksBetween p 0 cs
  | p, n + 1, .popBack :: cs => p ≠ .pushed ∧ LooksBetween .popped n cs
  | _, n, .back :: cs => LooksBetween .looked n cs
  | p, n, .size :: cs => LooksBetween p n cs

/-- What the vector is ready for in a phase. -/
def Phase.Ready : Phase → FileVector τ → List τ → Prop
  | .looked, v, xs => Pushable v xs ∧ Poppable v xs
  | .pushed, v, xs => Pushable v xs
  | .popped, v, xs => Poppable v xs

theorem Phase.Ready.pushable {p : Phase} {v : FileVector τ} {xs : List τ} (h : p.Ready v xs)
    (hp : p ≠ .popped) :
    Pushable v xs := by
  cases p with
  | looked => exact h.1
  | pushed => exact h
  | popped => exact absurd rfl hp

theorem Phase.Ready.poppable {p : Phase} {v : FileVector τ} {xs : List τ} (h : p.Ready v xs)
    (hp : p ≠ .pushed) :
    Poppable v xs := by
  cases p with
  | looked => exact h.2
  | pushed => exact absurd rfl hp
  | popped => exact h

theorem Phase.Ready.or {p : Phase} {v : FileVector τ} {xs : List τ} (h : p.Ready v xs) :
    Pushable v xs ∨ Poppable v xs := by
  cases p with
  | looked => exact .inl h.1
  | pushed => exact .inl h
  | popped => exact .inr h

theorem Phase.Ready.counts {p : Phase} {v : FileVector τ} {xs : List τ} (h : p.Ready v xs) :
    Counts v xs.length :=
  h.or.elim (·.1) (·.1)

/-- In some phase the vector is ready for what that phase allows, and the calls to
come keep looks between pushes and pops. -/
def ReadyFor (v : FileVector τ) (xs : List τ) (cs : List (Call τ)) : Prop :=
  ∃ p : Phase, p.Ready v xs ∧ LooksBetween p xs.length cs

/-- One call: the vector answers as the list does, and is ready for what comes next. -/
theorem step_readyFor {v : FileVector τ} {xs : List τ} {c : Call τ} {cs : List (Call τ)}
    (h : ReadyFor v xs (c :: cs)) {a : Answer τ} {ys : List τ} (hstep : c.step xs = some (a, ys)) :
    ∃ b w, c.step v = some (b, w) ∧ b = a ∧ ReadyFor w ys cs := by
  obtain ⟨p, h, hb⟩ := h
  cases c with
  | pushBack b =>
    cases hstep
    obtain ⟨w, hw, hready⟩ := push_fileVector (h.pushable hb.1) b
    exact ⟨_, w, by rw [Call.step, hw]; rfl, rfl, .pushed, hready, hb.2⟩
  | popBack =>
    cases hstep
    cases xs with
    | nil =>
      have hlen : v.len = 0 := h.counts.1
      exact ⟨.done, v, by simp [Call.step, StackOps.popBack, hlen], rfl, p, h, hb⟩
    | cons x xs =>
      obtain ⟨w, hw, hready⟩ := pop_fileVector (h.poppable hb.1)
      exact ⟨_, w, by rw [Call.step, hw]; rfl, rfl, .popped, hready, hb.2⟩
  | back =>
    cases xs with
    | nil => cases hstep
    | cons x xs =>
      cases hstep
      obtain ⟨w, hw, hready⟩ := back_fileVector h.or
      exact ⟨_, w, by rw [Call.step, hw]; rfl, rfl, .looked, hready, hb⟩
  | size =>
    cases hstep
    exact ⟨_, v, rfl, congrArg Answer.count h.counts.1, p, h, hb⟩

theorem ready_fresh : Phase.looked.Ready (FileVector.fresh τ) [] :=
  ⟨⟨⟨rfl, rfl⟩, rfl, rfl⟩, ⟨⟨rfl, rfl⟩, rfl, rfl⟩⟩

theorem ReadyFor.counts {v : FileVector τ} {xs : List τ} {cs : List (Call τ)}
    (h : ReadyFor v xs cs) :
    Counts v xs.length := by
  obtain ⟨p, h, -⟩ := h
  exact h.counts

/-- **`file_vector` is a stack in every run in which a look stands between pushes
and pops**: it answers as the plain stack does, and counts its values. -/
theorem fileVector_run (τ : Type) [Layout τ] {cs : List (Call τ)} (h : LooksBetween .looked 0 cs)
    {as : List (Answer τ)} {ys : List τ} (hrun : Call.run ([] : List τ) cs = some (as, ys)) :
    ∃ w : FileVector τ, Call.run (FileVector.fresh τ) cs = some (as, w) ∧
      w.len = ys.length ∧ w.inserter.len = Layout.sizeof τ * ys.length := by
  have hready : ReadyFor (FileVector.fresh τ) [] cs := ⟨.looked, ready_fresh, h⟩
  obtain ⟨bs, w, hw, hA, h'⟩ := Call.run_rel (R := ReadyFor (τ := τ)) step_readyFor hready hrun
  rw [List.forall₂_eq_eq_eq] at hA
  exact ⟨w, hA ▸ hw, h'.counts⟩

/-- Two bytes pushed and looked at, one popped, the other looked at. -/
theorem fileVector_run_bytes :
    ∃ w : FileVector Int8,
      Call.run (FileVector.fresh Int8) [.pushBack 1, .pushBack 2, .back, .popBack, .back] =
        some ([.done, .done, .item 2, .done, .item 1], w) ∧ w.len = 1 ∧ w.inserter.len = 1 := by
  have hlooks : LooksBetween .looked 0 [.pushBack 1, .pushBack 2, .back, .popBack, (.back : Call Int8)] := by
    simp [LooksBetween]
  have hrun : Call.run ([] : List Int8) [.pushBack 1, .pushBack 2, .back, .popBack, .back] =
    some ([.done, .done, .item 2, .done, .item 1], [1]) := rfl
  exact fileVector_run Int8 hlooks hrun

/-- Without the look the pop cuts the file before the two bytes are in it, and they
are both there afterwards. -/
theorem fileVector_pop_unflushed :
    ¬ ∀ (τ : Type) [Layout τ] (cs : List (Call τ)) (as : List (Answer τ)) (ys : List τ),
      Call.run ([] : List τ) cs = some (as, ys) →
        ∃ w : FileVector τ, Call.run (FileVector.fresh τ) cs = some (as, w) ∧
          w.len = ys.length ∧ w.inserter.len = Layout.sizeof τ * ys.length := by
  intro h
  obtain ⟨w, hw, -⟩ :=
    h Int8 [.pushBack 1, .pushBack 2, .popBack, .back] [.done, .done, .done, .item 1] [1] rfl
  have hcode : (Call.run (FileVector.fresh Int8) [.pushBack 1, .pushBack 2, .popBack, .back]).map Prod.fst =
      some [.done, .done, .done, .item 2] := by decide
  rw [hw, Option.map_some] at hcode
  have hanswers : ([.done, .done, .done, .item 1] : List (Answer Int8)) = [.done, .done, .done, .item 2] :=
    Option.some.inj hcode
  exact absurd hanswers (by decide)

end Shuffle3.V2
