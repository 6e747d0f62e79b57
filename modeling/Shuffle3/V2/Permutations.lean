import Shuffle3.Foundations.Cycles
import Shuffle3.V2.Shuffle

/-!
# The permutations that shuffling makes

The loop of `rng::shuffle` turns a sequence of draws into a permutation of the
positions of the span. The draws are taken in the order in which the loop makes
them, so the one for index `i` comes first in a sequence of length `i`.

## What is proved

* `exists_draws`, `drawPerm_inj` — every permutation comes from one sequence of
  draws that are at most their index.
* `isCycleOn_drawPerm_iff` — it is a single cycle exactly when every draw is below
  its index.
-/

namespace Shuffle3.V2

open Foundations Equiv

variable {n : ℕ}

/-- The generator that gives the draws of a sequence one after the other. -/
def replay : NextLong ℕ (List ℕ)
  | _, [] => none
  | _, j :: js => some (j, js)

/-- Every draw is at most its index. -/
def AtMost : List ℕ → Prop
  | [] => True
  | j :: js => j ≤ js.length + 1 ∧ AtMost js

/-- Every draw is below its index. -/
def Below : List ℕ → Prop
  | [] => True
  | j :: js => j < js.length + 1 ∧ Below js

theorem Below.atMost {js : List ℕ} (h : Below js) : AtMost js := by
  induction js with
  | nil => trivial
  | cons j js ih => exact ⟨h.1.le, ih h.2⟩

/-- The permutation of `n` positions that a sequence of draws asks for. -/
def drawPerm (n : ℕ) (js : List ℕ) : Perm (Fin n) := positions n (steps js)

theorem draws_replay (js : List ℕ) : draws replay js.length js = some (js, []) := by
  induction js with
  | nil => rfl
  | cons j js ih => simp [draws, replay, ih]

theorem steps_lt {js : List ℕ} (h : AtMost js) (hn : js.length < n) :
    ∀ p ∈ steps js, p.1 < n ∧ p.2 < n := by
  induction js with
  | nil => intro p hp; cases hp
  | cons j js ih =>
    have hlen : js.length + 1 < n := hn
    intro p hp
    rcases List.mem_cons.mp hp with rfl | hp
    · exact ⟨hlen, lt_of_le_of_lt h.1 hlen⟩
    · exact ih h.2 (by omega) p hp

/-- The loop makes the permutation of its draws. -/
theorem shuffle_replay {α : Type} {xs : List α} (h : xs.length = n) (hn : 1 ≤ n) {js : List ℕ}
    (hlen : js.length = n - 1) (hjs : AtMost js) :
    shuffle replay xs js = some (permuted xs h (drawPerm n js), []) := by
  have hd : draws replay (Indexed.size xs - 1) js = some (js, []) := by
    rw [size_list, h, ← hlen, draws_replay]
  rw [shuffle_eq, drawAndExchange_eq_some_iff]
  exact ⟨js, hd, exchanges_eq_permuted h (steps_lt hjs (by omega))⟩

/-! ### One sequence of draws for each permutation -/

theorem drawPerm_cons {i j : ℕ} {js : List ℕ} (hlen : js.length = i) (hi : i + 1 < n)
    (hj : j ≤ i + 1) :
    drawPerm n (j :: js) = swap ⟨i + 1, hi⟩ ⟨j, by omega⟩ * drawPerm n js := by
  subst hlen
  exact positions_cons hi (lt_of_le_of_lt hj hi) (steps js)

/-- Positions beyond the draws stay where they are. -/
theorem drawPerm_apply_of_lt {js : List ℕ} (h : AtMost js) (hn : js.length < n) {k : Fin n}
    (hk : js.length < k) : drawPerm n js k = k := by
  induction js with
  | nil => rfl
  | cons j js ih =>
    obtain ⟨hj, htail⟩ := h
    rw [List.length_cons] at hk
    rw [drawPerm_cons rfl hn hj, Perm.mul_apply, ih htail (by omega) (by omega)]
    refine swap_apply_of_ne_of_ne ?_ ?_
    · rintro rfl; simp at hk
    · rintro rfl; simp at hk; omega

/-- The first draw is where the last position is sent. -/
theorem drawPerm_apply_last {i j : ℕ} {js : List ℕ} (hlen : js.length = i) (hi : i + 1 < n)
    (h : AtMost (j :: js)) : (drawPerm n (j :: js) ⟨i + 1, hi⟩ : ℕ) = j := by
  have hj : j ≤ i + 1 := hlen ▸ h.1
  rw [drawPerm_cons hlen hi hj, Perm.mul_apply, drawPerm_apply_of_lt h.2 (by omega) (by simp [hlen]),
    swap_apply_left]

/-- **Different draws make different permutations.** -/
theorem drawPerm_inj {i : ℕ} (hi : i < n) :
    ∀ {js ks : List ℕ}, js.length = i → AtMost js → ks.length = i → AtMost ks →
      drawPerm n js = drawPerm n ks → js = ks := by
  induction i with
  | zero =>
    intro js ks hj _ hk _ _
    rw [List.length_eq_zero_iff.mp hj, List.length_eq_zero_iff.mp hk]
  | succ i ih =>
    rintro (_ | ⟨j, js⟩) (_ | ⟨k, ks⟩) hj hj' hk hk' e
    · rfl
    · cases hj
    · cases hk
    · have hjl : js.length = i := Nat.succ.inj hj
      have hkl : ks.length = i := Nat.succ.inj hk
      obtain rfl : j = k := by
        rw [← drawPerm_apply_last hjl hi hj', ← drawPerm_apply_last hkl hi hk', e]
      rw [drawPerm_cons hjl hi (hjl ▸ hj'.1), drawPerm_cons hkl hi (hkl ▸ hk'.1)] at e
      rw [ih (by omega) hjl hj'.2 hkl hk'.2 (mul_left_cancel e)]

/-- **Every permutation of the first positions comes from some draws.** -/
theorem exists_draws {i : ℕ} (hi : i < n) :
    ∀ {π : Perm (Fin n)}, (∀ k : Fin n, i < k → π k = k) →
      ∃ js : List ℕ, js.length = i ∧ AtMost js ∧ drawPerm n js = π := by
  induction i with
  | zero =>
    intro π hπ
    refine ⟨[], rfl, trivial, (Equiv.ext fun k => ?_).symm⟩
    rcases Nat.eq_zero_or_pos (k : ℕ) with h0 | h0
    · -- all other positions are taken
      by_contra hne
      have hpos : 0 < (π k : ℕ) := Nat.pos_of_ne_zero fun e => hne (Fin.ext (e.trans h0.symm))
      exact hne (π.injective (hπ (π k) hpos))
    · exact hπ k h0
  | succ i ih =>
    intro π hπ
    have hj : (π ⟨i + 1, hi⟩ : ℕ) ≤ i + 1 := by
      by_contra hlt
      have hfix := congrArg Fin.val (π.injective (hπ (π ⟨i + 1, hi⟩) (by omega)))
      simp only at hfix
      omega
    -- undoing the first exchange leaves the last position in place
    have hρ : ∀ k : Fin n, i < k → (swap ⟨i + 1, hi⟩ (π ⟨i + 1, hi⟩) * π) k = k := by
      intro k hk
      rcases (Nat.succ_le_of_lt hk).eq_or_lt with heq | hlt
      · obtain rfl : k = ⟨i + 1, hi⟩ := Fin.ext heq.symm
        rw [Perm.mul_apply, swap_apply_right]
      · rw [Perm.mul_apply, hπ k hlt]
        refine swap_apply_of_ne_of_ne ?_ ?_
        · rintro rfl; simp at hlt
        · rintro rfl; omega
    obtain ⟨js, hlen, hjs, hperm⟩ := ih (by omega) hρ
    refine ⟨(π ⟨i + 1, hi⟩ : ℕ) :: js, by rw [List.length_cons, hlen], ⟨hlen ▸ hj, hjs⟩, ?_⟩
    rw [drawPerm_cons hlen hi hj, hperm, ← mul_assoc, swap_mul_self, one_mul]

/-! ### Single cycles -/

theorem setOf_le_succ {i : ℕ} (hi : i + 1 < n) :
    {k : Fin n | (k : ℕ) ≤ i + 1} = insert ⟨i + 1, hi⟩ {k : Fin n | (k : ℕ) ≤ i} := by
  ext k
  simp only [Set.mem_ofPred_eq, Set.mem_insert_iff, Fin.ext_iff]
  omega

/-- **The first positions form a single cycle exactly when every draw is below its
index**: each exchange then puts one more position into the cycle. -/
theorem isCycleOn_drawPerm_iff {js : List ℕ} (h : AtMost js) (hn : js.length < n) :
    (drawPerm n js).IsCycleOn {k : Fin n | (k : ℕ) ≤ js.length} ↔ Below js := by
  induction js with
  | nil =>
    have hset : {k : Fin n | (k : ℕ) ≤ 0} = {⟨0, hn⟩} := by
      ext k
      simp only [Set.mem_ofPred_eq, Set.mem_singleton_iff, Fin.ext_iff]
      omega
    rw [List.length_nil, hset, Perm.isCycleOn_singleton]
    exact ⟨fun _ => trivial, fun _ => rfl⟩
  | cons j js ih =>
    obtain ⟨hj, hjs⟩ := h
    have hfix := drawPerm_apply_of_lt hjs (by rw [List.length_cons] at hn; omega)
      (show js.length < ((⟨js.length + 1, hn⟩ : Fin n) : ℕ) from Nat.lt_succ_self _)
    rw [List.length_cons, setOf_le_succ hn]
    rcases hj.lt_or_eq with hlt | rfl
    · rw [drawPerm_cons rfl hn hj, isCycleOn_swap_mul_iff hfix (by simp) (Nat.lt_succ_iff.mp hlt),
        ih hjs (by rw [List.length_cons] at hn; omega)]
      exact ⟨fun hb => ⟨hlt, hb⟩, fun hb => hb.2⟩
    · -- the last position stays, and is not alone
      refine ⟨fun hc => ?_, fun hb => absurd hb.1 (lt_irrefl _)⟩
      have hnt : (insert ⟨js.length + 1, hn⟩ {k : Fin n | (k : ℕ) ≤ js.length}).Nontrivial :=
        ⟨⟨js.length + 1, hn⟩, .inl rfl, ⟨0, by omega⟩, .inr (Nat.zero_le _), by simp⟩
      have hlast := drawPerm_apply_last rfl hn ⟨hj, hjs⟩
      exact absurd (Fin.ext hlast) (hc.apply_ne hnt (.inl rfl))

theorem setOf_le_pred (n : ℕ) : {k : Fin n | (k : ℕ) ≤ n - 1} = Set.univ :=
  Set.eq_univ_of_forall fun k => Nat.le_sub_one_of_lt k.2

/-- **Which permutations `rng::shuffle` makes, and from how many sequences of
draws**: each from one; and with every draw below its index exactly those that are
a single cycle, which leave nothing in place. -/
theorem shuffle_permutations (hn : 1 ≤ n) :
    (∀ js : List ℕ, js.length = n - 1 → AtMost js → ∀ (α : Type) (xs : List α) (h : xs.length = n),
      shuffle replay xs js = some (permuted xs h (drawPerm n js), [])) ∧
    Set.BijOn (drawPerm n) {js | js.length = n - 1 ∧ AtMost js} Set.univ ∧
    Set.BijOn (drawPerm n) {js | js.length = n - 1 ∧ Below js} {π | π.IsCycleOn Set.univ} ∧
    (2 ≤ n → ∀ js : List ℕ, js.length = n - 1 → Below js → (∀ k, drawPerm n js k ≠ k) ∧
      ∀ (α : Type) (xs : List α), xs.length = n → ∀ s, shuffle replay xs js = some (xs, s) →
        ∃ a, xs = List.replicate n a) := by
  have hlt : n - 1 < n := by omega
  have hexists : ∀ π : Perm (Fin n), ∃ js : List ℕ, js.length = n - 1 ∧ AtMost js ∧ drawPerm n js = π :=
    fun π => exists_draws hlt fun k hk => absurd k.2 (by omega)
  have hcycle : ∀ {js : List ℕ}, js.length = n - 1 → AtMost js →
      ((drawPerm n js).IsCycleOn Set.univ ↔ Below js) := by
    intro js hlen hjs
    rw [← setOf_le_pred n, ← hlen]
    exact isCycleOn_drawPerm_iff hjs (by omega)
  refine ⟨fun js hlen hjs α xs h => shuffle_replay h hn hlen hjs, ⟨fun _ _ => trivial, ?_, ?_⟩,
    ⟨?_, ?_, ?_⟩, ?_⟩
  · exact fun js hj ks hk e => drawPerm_inj hlt hj.1 hj.2 hk.1 hk.2 e
  · intro π _
    obtain ⟨js, hlen, hjs, hπ⟩ := hexists π
    exact ⟨js, ⟨hlen, hjs⟩, hπ⟩
  · exact fun js hj => (hcycle hj.1 hj.2.atMost).mpr hj.2
  · exact fun js hj ks hk e => drawPerm_inj hlt hj.1 hj.2.atMost hk.1 hk.2.atMost e
  · intro π hπ
    obtain ⟨js, hlen, hjs, rfl⟩ := hexists π
    exact ⟨js, ⟨hlen, (hcycle hlen hjs).mp hπ⟩, rfl⟩
  · intro hn2 js hlen hb
    have hc := (hcycle hlen hb.atMost).mpr hb
    refine ⟨fun k => hc.apply_ne ?_ (Set.mem_univ k), fun α xs h s hs => ?_⟩
    · exact ⟨⟨0, by omega⟩, trivial, ⟨1, by omega⟩, trivial, by simp⟩
    · rw [shuffle_replay h hn hlen hb.atMost] at hs
      have hself := congrArg Prod.fst (Option.some.inj hs)
      have hpos : 0 < xs.length := by omega
      refine ⟨xs[0], List.eq_replicate_iff.mpr ⟨h, fun b hmem => ?_⟩⟩
      obtain ⟨i, hi, rfl⟩ := List.getElem_of_mem hmem
      exact eq_of_permuted_eq_self h hc hself hi (by omega)

/-- Three positions and the draws 1, 0. -/
theorem shuffle_permutations_three :
    shuffle replay ['a', 'b', 'c'] [1, 0] = some (['c', 'a', 'b'], []) ∧
      ∀ k, drawPerm 3 [1, 0] k ≠ k :=
  have h := shuffle_permutations (n := 3) (by decide)
  ⟨(h.1 [1, 0] rfl (by simp [AtMost]) Char ['a', 'b', 'c'] rfl).trans rfl,
    (h.2.2.2 (by decide) [1, 0] rfl (by simp [Below])).1⟩

end Shuffle3.V2
