import Mathlib.Order.Interval.Finset.Nat
import Mathlib.SetTheory.Cardinal.Finite

/-!
# Counting the arguments of a monotone map

The arguments that a monotone map of numbers sends below a number are those below a
threshold, so what it sends to one number lies between two thresholds.

## What is proved

* `exists_threshold` — the threshold of a number.
* `card_eq_sub` — how many arguments there are for a number.
-/

namespace Shuffle3.Foundations.Counts

variable {f : ℕ → ℕ} {N : ℕ}

/-- **What a monotone map sends below a number is below a threshold.** -/
theorem exists_threshold (hf : Monotone f) (N n : ℕ) : ∃ T ≤ N, ∀ r < N, f r < n ↔ r < T := by
  induction N with
  | zero => exact ⟨0, le_rfl, fun r hr => absurd hr (Nat.not_lt_zero r)⟩
  | succ N ih =>
    by_cases hN : f N < n
    · exact ⟨N + 1, le_rfl, fun r hr => ⟨fun _ => hr, fun _ => (hf (Nat.le_of_lt_succ hr)).trans_lt hN⟩⟩
    · obtain ⟨T, hT, hiff⟩ := ih
      refine ⟨T, hT.trans (Nat.le_succ N), fun r hr => ?_⟩
      rcases (Nat.le_of_lt_succ hr).lt_or_eq with hlt | rfl
      · exact hiff r hlt
      · exact ⟨fun h => absurd h hN, fun h => absurd h (not_lt.mpr hT)⟩

/-- The arguments between two thresholds. -/
theorem card_of_iff {p : ℕ → Prop} {T T' : ℕ} (hp : ∀ r < N, p r ↔ T ≤ r ∧ r < T') (hT : T' ≤ N) :
    Nat.card { r // r < N ∧ p r } = T' - T := by
  rw [← Nat.card_Ico]
  refine Nat.subtype_card _ fun r => ?_
  rw [Finset.mem_Ico]
  constructor
  · intro h
    have hr : r < N := h.2.trans_le hT
    exact ⟨hr, (hp r hr).mpr h⟩
  · rintro ⟨hr, h⟩
    exact (hp r hr).mp h

/-- **How many arguments a monotone map sends to a number.** -/
theorem card_eq_sub {n T T' : ℕ} (hT : ∀ r < N, f r < n ↔ r < T) (hT' : ∀ r < N, f r < n + 1 ↔ r < T')
    (hle : T' ≤ N) : Nat.card { r // r < N ∧ f r = n } = T' - T := by
  refine card_of_iff (fun r hr => ?_) hle
  rw [← hT' r hr, ← not_lt, ← hT r hr]
  omega

end Shuffle3.Foundations.Counts
