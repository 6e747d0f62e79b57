import Mathlib.Order.Bounds.Basic
import Mathlib.Data.List.Perm.Basic

/-!
# The extremes of a list

The least and the greatest item of a list, found in one pass that tests an item
for the greatest only when it is not less than the least. The comparison is that
of keys in a linear order, and items with one key may differ.

## What is proved

* `extremes_spec` — the pass finds items between which all the others lie.
* `extremes_perm` — in another order it finds items with the same keys.
* `foldl_stretch` — testing every item for both makes no difference.
-/

namespace Shuffle3.Foundations

universe u v

variable {τ : Type u} {ι : Type v} [LT τ] [DecidableLT τ]

/-- One step of the pass, from the extremes so far. -/
def widen (p : τ × τ) (b : τ) : τ × τ :=
  if b < p.1 then (b, p.2) else if p.2 < b then (p.1, b) else p

/-- The extremes of the list `a :: as`. -/
def extremes (a : τ) (as : List τ) : τ × τ := as.foldl widen (a, a)

variable [LinearOrder ι] {k : τ → ι} {P : τ → Prop}

/-- What one step leaves: the new item lies between the extremes, and the old ones still do. -/
theorem widen_spec (hk : ∀ a b, P a → P b → (a < b ↔ k a < k b)) {p : τ × τ} {b : τ} (h₁ : P p.1)
    (h₂ : P p.2) (hp : k p.1 ≤ k p.2) (hb : P b) :
    (P (widen p b).1 ∧ P (widen p b).2) ∧ ((widen p b).1 = p.1 ∨ (widen p b).1 = b) ∧
      ((widen p b).2 = p.2 ∨ (widen p b).2 = b) ∧ (k (widen p b).1 ≤ k p.1 ∧ k p.2 ≤ k (widen p b).2) ∧
      k (widen p b).1 ≤ k b ∧ k b ≤ k (widen p b).2 := by
  unfold widen
  split_ifs with hlo hhi
  · rw [hk b p.1 hb h₁] at hlo
    exact ⟨⟨hb, h₂⟩, .inr rfl, .inl rfl, ⟨hlo.le, le_rfl⟩, le_rfl, hlo.le.trans hp⟩
  · rw [hk b p.1 hb h₁, not_lt] at hlo
    rw [hk p.2 b h₂ hb] at hhi
    exact ⟨⟨h₁, hb⟩, .inl rfl, .inr rfl, ⟨le_rfl, hhi.le⟩, hlo, le_rfl⟩
  · rw [hk b p.1 hb h₁, not_lt] at hlo
    rw [hk p.2 b h₂ hb, not_lt] at hhi
    exact ⟨⟨h₁, h₂⟩, .inl rfl, .inl rfl, ⟨le_rfl, le_rfl⟩, hlo, hhi⟩

theorem foldl_widen_spec (hk : ∀ a b, P a → P b → (a < b ↔ k a < k b)) {as : List τ} :
    ∀ {p : τ × τ}, P p.1 → P p.2 → k p.1 ≤ k p.2 → (∀ b ∈ as, P b) →
      ((as.foldl widen p).1 = p.1 ∨ (as.foldl widen p).1 ∈ as) ∧
      ((as.foldl widen p).2 = p.2 ∨ (as.foldl widen p).2 ∈ as) ∧
      (k (as.foldl widen p).1 ≤ k p.1 ∧ k p.2 ≤ k (as.foldl widen p).2) ∧
      ∀ b ∈ as, k (as.foldl widen p).1 ≤ k b ∧ k b ≤ k (as.foldl widen p).2 := by
  induction as with
  | nil => intro p _ _ _ _; exact ⟨.inl rfl, .inl rfl, ⟨le_rfl, le_rfl⟩, fun b hb => by cases hb⟩
  | cons b as ih =>
    intro p h₁ h₂ hp has
    obtain ⟨⟨hP₁, hP₂⟩, hlo, hhi, hold, hb⟩ := widen_spec hk h₁ h₂ hp (has b List.mem_cons_self)
    obtain ⟨hlo', hhi', hold', hrest⟩ :=
      ih hP₁ hP₂ (hb.1.trans hb.2) fun c hc => has c (List.mem_cons_of_mem _ hc)
    simp only [List.foldl_cons, List.mem_cons]
    refine ⟨?_, ?_, ⟨hold'.1.trans hold.1, hold.2.trans hold'.2⟩, ?_⟩
    · rcases hlo' with h | h
      · rw [h]; exact hlo.imp_right .inl
      · exact .inr (.inr h)
    · rcases hhi' with h | h
      · rw [h]; exact hhi.imp_right .inl
      · exact .inr (.inr h)
    · rintro c (rfl | hc)
      · exact ⟨hold'.1.trans hb.1, hb.2.trans hold'.2⟩
      · exact hrest c hc

/-- **The pass finds two items of the list between which all of it lies.** -/
theorem extremes_spec (hk : ∀ a b, P a → P b → (a < b ↔ k a < k b)) {a : τ} {as : List τ}
    (hP : ∀ b ∈ a :: as, P b) :
    (extremes a as).1 ∈ a :: as ∧ (extremes a as).2 ∈ a :: as ∧
      ∀ b ∈ a :: as, k (extremes a as).1 ≤ k b ∧ k b ≤ k (extremes a as).2 := by
  have ha := hP a List.mem_cons_self
  obtain ⟨hlo, hhi, hold, hrest⟩ := foldl_widen_spec (p := (a, a)) hk ha ha le_rfl
    fun b hb => hP b (List.mem_cons_of_mem _ hb)
  refine ⟨List.mem_cons.mpr hlo, List.mem_cons.mpr hhi, fun b hb => ?_⟩
  rcases List.mem_cons.mp hb with rfl | hb
  · exact hold
  · exact hrest b hb

/-- **In another order it finds items with the same keys.** -/
theorem extremes_perm (hk : ∀ a b, P a → P b → (a < b ↔ k a < k b)) {a b : τ} {as bs : List τ}
    (hP : ∀ c ∈ a :: as, P c) (h : (a :: as).Perm (b :: bs)) :
    k (extremes a as).1 = k (extremes b bs).1 ∧ k (extremes a as).2 = k (extremes b bs).2 := by
  obtain ⟨hlo, hhi, hle⟩ := extremes_spec hk hP
  obtain ⟨hlo', hhi', hle'⟩ := extremes_spec hk (fun c hc => hP c (h.mem_iff.mpr hc))
  exact ⟨le_antisymm (hle _ (h.mem_iff.mpr hlo')).1 (hle' _ (h.mem_iff.mp hlo)).1,
    le_antisymm (hle' _ (h.mem_iff.mp hhi)).2 (hle _ (h.mem_iff.mpr hhi')).2⟩

/-! ### Two tests for every item -/

/-- One step of the pass that tests an item for the least and for the greatest. -/
def stretch (p : τ × τ) (b : τ) : τ × τ := (if b < p.1 then b else p.1, if p.2 < b then b else p.2)

/-- Between extremes in order an item is not less than the one and greater than the other. -/
theorem stretch_eq_widen (hk : ∀ a b, P a → P b → (a < b ↔ k a < k b)) {p : τ × τ} {b : τ}
    (h₁ : P p.1) (h₂ : P p.2) (hp : k p.1 ≤ k p.2) (hb : P b) : stretch p b = widen p b := by
  unfold stretch widen
  by_cases hlo : b < p.1
  · have hhi : ¬ p.2 < b := by
      rw [hk p.2 b h₂ hb, not_lt]
      exact ((hk b p.1 hb h₁).mp hlo).le.trans hp
    rw [if_pos hlo, if_neg hhi, if_pos hlo]
  · rw [if_neg hlo, if_neg hlo]
    split_ifs <;> rfl

/-- **Testing every item for both makes no difference.** -/
theorem foldl_stretch (hk : ∀ a b, P a → P b → (a < b ↔ k a < k b)) {as : List τ} :
    ∀ {p : τ × τ}, P p.1 → P p.2 → k p.1 ≤ k p.2 → (∀ b ∈ as, P b) →
      as.foldl stretch p = as.foldl widen p := by
  induction as with
  | nil => intro p _ _ _ _; rfl
  | cons b as ih =>
    intro p h₁ h₂ hp has
    have hb := has b List.mem_cons_self
    obtain ⟨⟨hP₁, hP₂⟩, -, -, -, hle⟩ := widen_spec hk h₁ h₂ hp hb
    rw [List.foldl_cons, List.foldl_cons, stretch_eq_widen hk h₁ h₂ hp hb]
    exact ih hP₁ hP₂ (hle.1.trans hle.2) fun c hc => has c (List.mem_cons_of_mem _ hc)

/-- Sentinels beyond all items give way to the first. -/
theorem stretch_of_le (hk : ∀ a b, a < b ↔ k a < k b) (hinj : Function.Injective k) {p : τ × τ}
    {a : τ} (hlo : k a ≤ k p.1) (hhi : k p.2 ≤ k a) : stretch p a = (a, a) := by
  unfold stretch
  refine Prod.ext ?_ ?_
  · rcases hlo.lt_or_eq with h | h
    · exact if_pos ((hk _ _).mpr h)
    · rw [hinj h, ite_self]
  · rcases hhi.lt_or_eq with h | h
    · exact if_pos ((hk _ _).mpr h)
    · rw [hinj h, ite_self]

/-- From sentinels that give way to the first item the pass finds the extremes. -/
theorem foldl_stretch_cons (hk : ∀ a b, P a → P b → (a < b ↔ k a < k b)) {a : τ} {as : List τ}
    {p : τ × τ} (hp : stretch p a = (a, a)) (hP : ∀ b ∈ a :: as, P b) :
    (a :: as).foldl stretch p = extremes a as := by
  have ha := hP a List.mem_cons_self
  rw [List.foldl_cons, hp]
  exact foldl_stretch (p := (a, a)) hk ha ha le_rfl fun b hb => hP b (List.mem_cons_of_mem _ hb)

end Shuffle3.Foundations
