import Mathlib.Algebra.Group.Action.End
import Mathlib.Data.Int.ModEq
import Mathlib.Dynamics.PeriodicPts.Lemmas

/-!
# Cells that are turned forth and back

A store of cells, and commands that each apply a power of one permutation to one cell.
The powers applied to a cell add up, and nothing else about the commands matters.

## What is proved

* `zpow_invariant` — what a permutation preserves its powers do.
* `run_apply` — after any commands a cell has been turned by its tally.
* `run_perm` — the order of the commands does not matter.
* `zpow_apply_eq_iff` — two powers make the same of a cell if and only if they differ by a
  multiple of its period; `minimalPeriod_le` — which a finite set of its contents bounds.
-/

namespace Shuffle3.Foundations.Tallies

universe u v

variable {ι : Type u} {α : Type v} [DecidableEq ι]

/-- One command: `e ^ k` applied to the cell `i`. -/
def turn (e : Equiv.Perm α) (f : ι → α) (c : ι × ℤ) : ι → α :=
  Function.update f c.1 ((e ^ c.2) (f c.1))

/-- Commands in turn. -/
def run (e : Equiv.Perm α) (cs : List (ι × ℤ)) (f : ι → α) : ι → α := cs.foldl (turn e) f

/-- The sum of the powers applied to a cell. -/
def tally : List (ι × ℤ) → ι → ℤ
  | [], _ => 0
  | c :: cs, i => (if c.1 = i then c.2 else 0) + tally cs i

variable {e : Equiv.Perm α} {f : ι → α} {c : ι × ℤ} {cs ds : List (ι × ℤ)} {i : ι}

theorem tally_perm (h : cs.Perm ds) (i : ι) : tally cs i = tally ds i := by
  induction h with
  | nil => rfl
  | cons c _ ih => rw [tally, tally, ih]
  | swap c d cs => rw [tally, tally, tally, tally, Int.add_left_comm]
  | trans _ _ h₁ h₂ => exact h₁.trans h₂

theorem run_append (e : Equiv.Perm α) (cs ds : List (ι × ℤ)) (f : ι → α) :
    run e (cs ++ ds) f = run e ds (run e cs f) :=
  List.foldl_append

theorem turn_apply (e : Equiv.Perm α) (f : ι → α) (c : ι × ℤ) (i : ι) :
    turn e f c i = (e ^ if c.1 = i then c.2 else 0) (f i) := by
  unfold turn
  split_ifs with h
  · rw [← h, Function.update_self]
  · rw [Function.update_of_ne (Ne.symm h), zpow_zero, Equiv.Perm.one_apply]

/-- What the permutation preserves its powers do. -/
theorem zpow_invariant {γ : Type*} {F : α → γ} (h : ∀ x, F (e x) = F x) (k : ℤ) (x : α) :
    F ((e ^ k) x) = F x := by
  have hinv : ∀ x, F (e⁻¹ x) = F x :=
    fun x => by rw [← h, ← Equiv.Perm.mul_apply, mul_inv_cancel, Equiv.Perm.one_apply]
  induction k using Int.induction_on generalizing x with
  | zero => rfl
  | succ k ih => rw [zpow_add_one, Equiv.Perm.mul_apply, ih, h]
  | pred k ih => rw [zpow_sub_one, Equiv.Perm.mul_apply, ih, hinv]

/-- **After any commands a cell has been turned by its tally.** -/
theorem run_apply (e : Equiv.Perm α) (cs : List (ι × ℤ)) (f : ι → α) (i : ι) :
    run e cs f i = (e ^ tally cs i) (f i) := by
  induction cs generalizing f with
  | nil => rfl
  | cons c cs ih =>
    have hrun : run e (c :: cs) f = run e cs (turn e f c) := rfl
    rw [hrun, ih, turn_apply, ← Equiv.Perm.mul_apply, ← zpow_add, tally, Int.add_comm]

/-- **The order of the commands does not matter.** -/
theorem run_perm (h : cs.Perm ds) (e : Equiv.Perm α) (f : ι → α) : run e cs f = run e ds f := by
  funext i
  rw [run_apply, run_apply, tally_perm h]

/-- **Two powers make the same of a cell** if and only if they are congruent modulo its period. -/
theorem zpow_apply_eq_iff (e : Equiv.Perm α) (x : α) (m n : ℤ) :
    (e ^ m) x = (e ^ n) x ↔ m ≡ n [ZMOD Function.minimalPeriod e x] := by
  have hsplit : (e ^ n) x = (e ^ m) ((e ^ (n - m)) x) := by
    rw [← Equiv.Perm.mul_apply, ← zpow_add, add_sub_cancel]
  have hback : (e ^ m) x = (e ^ n) x ↔ e ^ (n - m) • x = x := by
    rw [hsplit, (e ^ m).injective.eq_iff, Equiv.Perm.smul_def, eq_comm]
  rw [hback, MulAction.zpow_smul_eq_iff_minimalPeriod_dvd, Int.modEq_iff_dvd]
  rfl

/-- Where the contents stay in a finite set, the period is no more than its size. -/
theorem minimalPeriod_le {S : Finset α} (hS : ∀ y ∈ S, e y ∈ S) {x : α} (hx : x ∈ S) :
    0 < Function.minimalPeriod e x ∧ Function.minimalPeriod e x ≤ S.card := by
  let g : S → S := fun y => ⟨e y, hS y y.2⟩
  have hg : Function.Injective g := fun y z h => Subtype.ext (e.injective (Subtype.ext_iff.mp h))
  have hiter : ∀ n (y : S), ((g^[n] y : S) : α) = e^[n] y :=
    fun n => (Function.Semiconj.iterate_right (f := Subtype.val) (fun _ => rfl) n)
  have hperiod : Function.minimalPeriod e x = Function.minimalPeriod g ⟨x, hx⟩ := by
    refine Function.minimalPeriod_eq_minimalPeriod_iff.mpr fun n => ?_
    rw [Function.IsPeriodicPt, Function.IsPeriodicPt, Function.IsFixedPt, Function.IsFixedPt,
      Subtype.ext_iff, hiter]
  rw [hperiod, ← Fintype.card_coe S]
  exact ⟨Function.minimalPeriod_pos_of_mem_periodicPts (hg.mem_periodicPts _), Function.minimalPeriod_le_card⟩

end Shuffle3.Foundations.Tallies
