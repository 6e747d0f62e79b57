import Shuffle3.Foundations.Swaps
import Mathlib.GroupTheory.Perm.Cycle.Basic

/-!
# Runs of exchanges as permutations of the positions

A run of exchanges in lists of `n` items is one permutation of the `n` positions,
whatever the items. An exchange with a position that a cycle does not have puts
that position into the cycle.

## What is proved

* `exchanges_eq_permuted` — the permutation of a run.
* `isCycleOn_swap_mul_iff` — putting a position into a cycle.
* `eq_of_permuted_eq_self` — a list that a full cycle does not change has one
  item everywhere.
-/

namespace Shuffle3.Foundations

open Equiv

universe u

variable {α : Type u} {n : ℕ}

/-! ### The permutation of a run -/

/-- The permutation of the positions that one exchange makes, none when an index is outside. -/
def transposition (n i j : ℕ) : Perm (Fin n) :=
  if h : i < n ∧ j < n then swap ⟨i, h.1⟩ ⟨j, h.2⟩ else 1

/-- The permutation of the positions that a run of exchanges makes. -/
def positions (n : ℕ) : List (ℕ × ℕ) → Perm (Fin n)
  | [] => 1
  | (i, j) :: ss => transposition n i j * positions n ss

theorem positions_cons {i j : ℕ} (hi : i < n) (hj : j < n) (ss : List (ℕ × ℕ)) :
    positions n ((i, j) :: ss) = swap ⟨i, hi⟩ ⟨j, hj⟩ * positions n ss := by
  rw [positions, transposition, dif_pos ⟨hi, hj⟩]

/-- **A run of exchanges inside is one permutation of the positions.** -/
theorem exchanges_eq_permuted {ss : List (ℕ × ℕ)} :
    ∀ {xs : List α} (h : xs.length = n), (∀ s ∈ ss, s.1 < n ∧ s.2 < n) →
      exchanges ss xs = some (permuted xs h (positions n ss)) := by
  induction ss with
  | nil => intro xs h _; rw [positions, permuted_one]; rfl
  | cons s ss ih =>
    intro xs h hin
    have hs := hin s List.mem_cons_self
    have htail : ∀ t ∈ ss, t.1 < n ∧ t.2 < n := fun t ht => hin t (List.mem_cons_of_mem _ ht)
    rw [exchanges, exchange_list h hs.1 hs.2, Option.bind_some, ih (length_permuted xs h _) htail,
      permuted_permuted, positions_cons hs.1 hs.2]

/-! ### Putting a position into a cycle -/

section Cycle

variable {ι : Type u} [DecidableEq ι] {ρ : Perm ι} {a j : ι} {s : Set ι}

theorem swap_mul_apply_of_ne {x : ι} (ha : ρ a = a) (hx : x ≠ a) (h : ρ x ≠ j) :
    (swap a j * ρ) x = ρ x :=
  swap_apply_of_ne_of_ne (fun e => hx (ρ.injective (e.trans ha.symm))) h

/-- Along the cycle of `j` the new one only makes a detour by `a`. -/
theorem sameCycle_swap_mul (ha : ρ a = a) (hja : j ≠ a) (k : ℕ) :
    (swap a j * ρ).SameCycle j ((ρ ^ k) j) := by
  induction k with
  | zero => exact Perm.SameCycle.refl _ _
  | succ k ih =>
    rw [pow_succ', Perm.mul_apply]
    by_cases h : ρ ((ρ ^ k) j) = j
    · rw [h]
    · have hne : (ρ ^ k) j ≠ a := fun e => by
        have hk : (ρ ^ k) a = a := Perm.pow_apply_eq_self_of_apply_eq_self ha k
        exact hja ((ρ ^ k).injective (e.trans hk.symm))
      rw [← swap_mul_apply_of_ne ha hne h]
      exact Perm.sameCycle_apply_right.mpr ih

/-- Without the detour the rest of the cycle is still there. -/
theorem sameCycle_of_swap_mul (ha : ρ a = a) (k : ℕ) (hk : ((swap a j * ρ) ^ k) j ≠ a) :
    ρ.SameCycle j (((swap a j * ρ) ^ k) j) := by
  induction k with
  | zero => exact Perm.SameCycle.refl _ _
  | succ k ih =>
    rw [pow_succ', Perm.mul_apply] at hk ⊢
    generalize ((swap a j * ρ) ^ k) j = y at hk ih ⊢
    by_cases hy : y = a
    · rw [hy, Perm.mul_apply, ha, swap_apply_left]
    · have hne : ρ y ≠ j := fun e => hk (by rw [Perm.mul_apply, e, swap_apply_right])
      rw [swap_mul_apply_of_ne ha hy hne]
      exact Perm.sameCycle_apply_right.mpr (ih hy)

theorem swap_mul_apply_mem_iff (ha : ρ a = a) (has : a ∉ s) (hj : j ∈ s) (x : ι) :
    ((swap a j * ρ) x ∈ insert a s ↔ x ∈ insert a s) ↔ (ρ x ∈ s ↔ x ∈ s) := by
  by_cases hx : x = a
  · subst hx
    simp [ha, hj, has]
  by_cases h : ρ x = j
  · simp [h, hj, hx]
  · have hne : ρ x ≠ a := fun e => hx (ρ.injective (e.trans ha.symm))
    rw [swap_mul_apply_of_ne ha hx h]
    simp [hne, hx]

/-- **An exchange with a position outside a cycle puts it into the cycle**, and so
the other way. -/
theorem isCycleOn_swap_mul_iff [Finite ι] (ha : ρ a = a) (has : a ∉ s) (hj : j ∈ s) :
    (swap a j * ρ).IsCycleOn (insert a s) ↔ ρ.IsCycleOn s := by
  have hja : j ≠ a := fun e => has (e ▸ hj)
  have hmem := fun x => swap_mul_apply_mem_iff (x := x) ha has hj
  constructor
  · intro h
    refine ⟨ρ.bijOn fun x => (hmem x).mp h.apply_mem_iff, fun x hx y hy => ?_⟩
    have key : ∀ z ∈ s, ρ.SameCycle j z := by
      intro z hz
      obtain ⟨k, rfl⟩ := h.exists_pow_eq' (Set.toFinite _) (.inr hj) (.inr hz)
      exact sameCycle_of_swap_mul ha k fun e => has (e ▸ hz)
    exact (key x hx).symm.trans (key y hy)
  · intro h
    refine ⟨(swap a j * ρ).bijOn fun x => (hmem x).mpr h.apply_mem_iff, fun x hx y hy => ?_⟩
    have key : ∀ z ∈ insert a s, (swap a j * ρ).SameCycle j z := by
      intro z hz
      rcases hz with rfl | hz
      · -- the new position leads to `j`
        have hz : (swap z j * ρ) z = j := by rw [Perm.mul_apply, ha, swap_apply_left]
        exact (hz ▸ Perm.sameCycle_apply_right.mpr (Perm.SameCycle.refl _ _)).symm
      · obtain ⟨k, rfl⟩ := h.exists_pow_eq' (Set.toFinite _) hj hz
        exact sameCycle_swap_mul ha hja k
    exact (key x hx).symm.trans (key y hy)

end Cycle

/-- **A list that a full cycle does not change has one item everywhere.** -/
theorem eq_of_permuted_eq_self {xs : List α} {π : Perm (Fin n)} (h : xs.length = n)
    (hπ : π.IsCycleOn Set.univ) (hxs : permuted xs h π = xs) {i j : ℕ} (hi : i < xs.length)
    (hj : j < xs.length) : xs[i] = xs[j] := by
  subst h
  have hstep : ∀ k, xs.get (π k) = xs.get k := by
    intro k
    have hk := getElem_permuted xs rfl π k (by simp)
    exact hk.symm.trans (List.getElem_of_eq hxs _)
  have hpow : ∀ k : ℕ, xs.get ((π ^ k) ⟨i, hi⟩) = xs.get ⟨i, hi⟩ := by
    intro k
    induction k with
    | zero => rfl
    | succ k ih => rw [pow_succ', Perm.mul_apply, hstep, ih]
  obtain ⟨k, hk⟩ := hπ.exists_pow_eq' (Set.toFinite _) (Set.mem_univ ⟨i, hi⟩) (Set.mem_univ ⟨j, hj⟩)
  exact (hk ▸ hpow k).symm

end Shuffle3.Foundations
