import Mathlib.Data.PEquiv
import Mathlib.Algebra.Order.Group.Int
import Mathlib.Logic.Function.Basic

/-!
# Cells that are copied and turned

A store of cells, and moves that each take what is in one cell, apply a partial
equivalence to it or undo it, and put the result into that cell or into another. A ledger
keeps for each cell where its contents come from, and how often they have been turned on
the way.

## What is proved

* `Power.next`, `Power.back` — one turn more, and one less.
* `run_ledger` — after any moves each cell holds what the ledger says.
-/

namespace Shuffle3.Foundations.Ledgers

universe u v

variable {ι : Type u} {α : Type v}

/-! ### Powers -/

/-- `e`, `n` times. -/
def times (e : α ≃. α) : ℕ → α → Option α
  | 0, x => some x
  | n + 1, x => (e x).bind (times e n)

/-- `y` is what `k` times `e` makes of `x`. It undoes `e` where `k` is negative: then `x`
is what `e` makes of `y`. One of the two numbers is zero. -/
def Power (e : α ≃. α) (k : ℤ) (x y : α) : Prop := times e k.toNat x = times e (-k).toNat y

variable {e : α ≃. α} {k : ℤ} {x y z : α}

theorem times_succ (e : α ≃. α) (n : ℕ) (x : α) : times e (n + 1) x = (times e n x).bind e := by
  induction n generalizing x with
  | zero => exact Option.bind_fun_some (e x)
  | succ n ih =>
    rw [times, times, Option.bind_assoc]
    exact congrArg _ (funext ih)

theorem power_zero_iff : Power e 0 x y ↔ x = y := Option.some_inj

/-- **One turn more.** -/
theorem Power.next (h : Power e k x y) (hz : e y = some z) : Power e (k + 1) x z := by
  unfold Power at h ⊢
  rcases lt_or_ge k 0 with hk | hk
  · -- one turn less is undone
    have hneg : (-k).toNat = (-(k + 1)).toNat + 1 := by omega
    have hzero : k.toNat = (k + 1).toNat := by omega
    rw [← hzero, h, hneg, times, hz, Option.bind_some]
  · have hpos : (k + 1).toNat = k.toNat + 1 := by omega
    have hzero : (-k).toNat = 0 := by omega
    have hzero' : (-(k + 1)).toNat = 0 := by omega
    rw [hzero, times] at h
    rw [hpos, hzero', times_succ, h, Option.bind_some, hz, times]

/-- **One turn less.** -/
theorem Power.back (h : Power e k x y) (hz : e.symm y = some z) : Power e (k - 1) x z := by
  have hy : e z = some y := (PEquiv.eq_some_iff e).mp hz
  unfold Power at h ⊢
  rcases lt_or_ge 0 k with hk | hk
  · have hpos : k.toNat = (k - 1).toNat + 1 := by omega
    have hzero : (-k).toNat = 0 := by omega
    have hzero' : (-(k - 1)).toNat = 0 := by omega
    rw [hzero, times, hpos, times_succ] at h
    -- the last turn can be undone in one way only
    obtain ⟨w, hw, hwy⟩ := Option.bind_eq_some_iff.mp h
    rw [hw, hzero', times, PEquiv.inj e hwy hy]
  · have hneg : (-(k - 1)).toNat = (-k).toNat + 1 := by omega
    have hzero : k.toNat = (k - 1).toNat := by omega
    rw [← hzero, h, hneg, times, hy, Option.bind_some]

/-! ### Moves -/

/-- What is in the cell `src`, turned or turned back, is put into the cell `dst`. -/
structure Move (ι : Type u) where
  src : ι
  dst : ι
  back : Bool
  deriving DecidableEq

/-- What a move does to the power of its contents. -/
def Move.power (m : Move ι) : ℤ := if m.back then -1 else 1

/-- `e`, or its inverse. -/
def turnOr (e : α ≃. α) (back : Bool) (x : α) : Option α := if back then e.symm x else e x

theorem Power.turnOr {m : Move ι} (h : Power e k x y) (hz : turnOr e m.back y = some z) :
    Power e (k + m.power) x z := by
  unfold Ledgers.turnOr at hz
  unfold Move.power
  split_ifs at hz ⊢
  · exact h.back hz
  · exact h.next hz

variable [DecidableEq ι]

/-- One move. -/
def apply (e : α ≃. α) (f : ι → α) (m : Move ι) : Option (ι → α) :=
  (turnOr e m.back (f m.src)).map (Function.update f m.dst)

/-- Moves in turn. -/
def run (e : α ≃. α) : List (Move ι) → (ι → α) → Option (ι → α)
  | [], f => some f
  | m :: ms, f => (apply e f m).bind (run e ms)

/-- A move is entered in a ledger. -/
def enter (l : ι → ι × ℤ) (m : Move ι) : ι → ι × ℤ :=
  Function.update l m.dst ((l m.src).1, (l m.src).2 + m.power)

/-- The ledger of some moves: the cell that the contents of a cell come from, and their power. -/
def ledger (ms : List (Move ι)) : ι → ι × ℤ := ms.foldl enter fun i => (i, 0)

/-- The cells `g` hold what the ledger says of the cells `f`. -/
def Agrees (e : α ≃. α) (f : ι → α) (l : ι → ι × ℤ) (g : ι → α) : Prop :=
  ∀ i, Power e (l i).2 (f (l i).1) (g i)

variable {f g g' : ι → α} {l : ι → ι × ℤ} {m : Move ι} {ms : List (Move ι)}

/-- One move keeps the ledger right. -/
theorem Agrees.apply (h : Agrees e f l g) (hm : apply e g m = some g') : Agrees e f (enter l m) g' := by
  obtain ⟨z, hz, rfl⟩ := Option.map_eq_some_iff.mp hm
  intro i
  by_cases hi : i = m.dst
  · subst hi
    rw [enter, Function.update_self, Function.update_self]
    exact (h m.src).turnOr hz
  · rw [enter, Function.update_of_ne hi, Function.update_of_ne hi]
    exact h i

theorem Agrees.run (h : Agrees e f l g) (hms : run e ms g = some g') :
    Agrees e f (ms.foldl enter l) g' := by
  induction ms generalizing l g with
  | nil =>
    cases hms
    exact h
  | cons m ms ih =>
    obtain ⟨g₁, hm, hms⟩ := Option.bind_eq_some_iff.mp hms
    exact ih (h.apply hm) hms

/-- **After any moves each cell holds what the ledger says.** -/
theorem run_ledger (h : run e ms f = some g) (i : ι) :
    Power e (ledger ms i).2 (f (ledger ms i).1) (g i) :=
  Agrees.run (fun _ => power_zero_iff.mpr rfl) h i

theorem run_append (e : α ≃. α) (ms ns : List (Move ι)) (f : ι → α) :
    run e (ms ++ ns) f = (run e ms f).bind (run e ns) := by
  induction ms generalizing f with
  | nil => rfl
  | cons m ms ih =>
    rw [List.cons_append, run, run, Option.bind_assoc]
    exact congrArg _ (funext ih)

end Shuffle3.Foundations.Ledgers
