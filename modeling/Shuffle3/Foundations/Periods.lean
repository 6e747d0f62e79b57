import Mathlib.Dynamics.PeriodicPts.Lemmas
import Mathlib.SetTheory.Cardinal.Finite

/-!
# A map that runs through all of a set

A generator whose states come back after as many steps as there are states meets all of
them, each once. What a run meets in a period is then counted in the states.

## What is proved

* `minimalPeriod_eq_of_prime` — `n` steps are the period when they lead back and, for no
  prime `q` that divides `n`, a `q`-th of them does.
* `existsUnique_iterate` — from a point whose period is the size of a set, every point of
  the set is met once in the period.
* `card_iterate` — how often a property is met in a period.
-/

namespace Shuffle3.Foundations.Periods

open Function

universe u

variable {α : Type u} {f : α → α} {x y : α} {n : ℕ} {S : Set α}

/-- **The period from its primes.** -/
theorem minimalPeriod_eq_of_prime (hn : f^[n] x = x)
    (h : ∀ q, q.Prime → q ∣ n → f^[n / q] x ≠ x) : minimalPeriod f x = n := by
  obtain ⟨k, hk⟩ : minimalPeriod f x ∣ n := IsPeriodicPt.minimalPeriod_dvd hn
  by_cases h1 : k = 1
  · rw [hk, h1, mul_one]
  obtain ⟨q, hq, j, rfl⟩ := Nat.exists_prime_and_dvd h1
  -- the `q`-th part of the steps is still a multiple of the period
  have hn' : n = q * (minimalPeriod f x * j) := by rw [hk, Nat.mul_left_comm]
  have hdiv : n / q = minimalPeriod f x * j := Nat.div_eq_of_eq_mul_right hq.pos hn'
  have hback : f^[n / q] x = x :=
    isPeriodicPt_iff_minimalPeriod_dvd.mpr (by rw [hdiv]; exact ⟨j, rfl⟩)
  exact absurd hback (h q hq ⟨_, hn'⟩)

section Through

variable (hcard : Nat.card S = minimalPeriod f x) (hpos : 0 < minimalPeriod f x) (hS : Set.MapsTo f S S)
  (hx : x ∈ S)

include hcard hpos hS hx

/-- The points met in a period are those of the set. -/
theorem bijective_iterate :
    Bijective fun i : Fin (minimalPeriod f x) => (⟨f^[i] x, hS.iterate i hx⟩ : S) := by
  have : Finite S := Nat.finite_of_card_ne_zero (by omega)
  refine Injective.bijective_of_nat_card_le (fun i j h => ?_) (by rw [hcard, Nat.card_fin])
  exact Fin.ext ((iterate_eq_iterate_iff_of_lt_minimalPeriod i.2 j.2).mp (Subtype.ext_iff.mp h))

/-- **Every point of the set is met once in the period.** -/
theorem existsUnique_iterate (hy : y ∈ S) : ∃! n, n < minimalPeriod f x ∧ f^[n] x = y := by
  obtain ⟨hinj, hsurj⟩ := bijective_iterate hcard hpos hS hx
  obtain ⟨i, hi⟩ := hsurj ⟨y, hy⟩
  refine ⟨i, ⟨i.2, Subtype.ext_iff.mp hi⟩, fun n ⟨hn, he⟩ => ?_⟩
  have hsame : f^[n] x = f^[i] x := he.trans (Subtype.ext_iff.mp hi).symm
  exact (iterate_eq_iterate_iff_of_lt_minimalPeriod hn i.2).mp hsame

/-- **How often a property is met in a period**: as often as there are points with it. -/
theorem card_iterate (P : α → Prop) :
    Nat.card { n // n < minimalPeriod f x ∧ P (f^[n] x) } = Nat.card { y // y ∈ S ∧ P y } := by
  refine Nat.card_eq_of_bijective (fun n => ⟨f^[n.1] x, hS.iterate _ hx, n.2.2⟩)
    ⟨fun n m h => ?_, fun ⟨y, hy, hP⟩ => ?_⟩
  · exact Subtype.ext
      ((iterate_eq_iterate_iff_of_lt_minimalPeriod n.2.1 m.2.1).mp (Subtype.ext_iff.mp h))
  · obtain ⟨n, ⟨hn, rfl⟩, -⟩ := existsUnique_iterate hcard hpos hS hx hy
    exact ⟨⟨n, hn, hP⟩, rfl⟩

end Through

end Shuffle3.Foundations.Periods
