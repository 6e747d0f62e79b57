import Shuffle3.Foundations.Extremes
import Shuffle3.Foundations.Single

/-!
# The seeds of a stage

`minmax_t`, the scan that finds the seeds of a stage in the elements of a span.
Its variables `lowest` and `highest` have no initial values in the release build,
so the values they hold on entry are arguments here.

## What is proved

* `minmaxT_eq` — the scan finds the extremes of the elements it keeps, and returns
  the entry values when it keeps none.
* `minmaxT_exact` — it is exact, and does not see the order of the elements but for
  the sign of a zero.
-/

namespace Shuffle3.V2

open Foundations

variable {τ : Type} [LT τ] [DecidableLT τ]

/-- The variables of `minmax_t`. -/
structure Scan (τ : Type) where
  init : Bool
  lowest : τ
  highest : τ

/-- One round of the loop of `minmax_t`. -/
def Scan.step (keep : τ → Bool) (s : Scan τ) (item : τ) : Scan τ :=
  if !keep item then s
  else if !s.init then ⟨true, item, item⟩
  else if item < s.lowest then { s with lowest := item }
  else if s.highest < item then { s with highest := item }
  else s

/-- `minmax_t`, where its variables hold `lowest` and `highest` on entry. -/
def minmaxT (keep : τ → Bool) (lowest highest : τ) (array : List τ) : τ × τ :=
  let s := array.foldl (Scan.step keep) ⟨false, lowest, highest⟩
  (s.lowest, s.highest)

/-- The filter of the scans that keep everything. -/
def keepAll (_ : τ) : Bool := true

/-- The filter of the scan of the floats: no NaN and no infinity. -/
def keepFloat (f : Single) : Bool := !(!f.eq f || f < Single.max.neg || Single.max < f)

theorem keepFloat_iff {f : Single} : keepFloat f ↔ f.finite := by
  rw [Single.finite_iff_tests]
  simp [keepFloat, and_assoc]

/-- A finite number is one that a scan keeps. -/
theorem exists_keepFloat {xs : List Single} (h : ∃ f ∈ xs, f.finite) : ∃ f ∈ xs, keepFloat f :=
  h.imp fun _ hf => ⟨hf.1, keepFloat_iff.mpr hf.2⟩

/-! ### The scan finds the extremes -/

theorem step_of_not_keep {keep : τ → Bool} {item : τ} (h : ¬ keep item) (s : Scan τ) :
    s.step keep item = s := by
  simp [Scan.step, h]

/-- Once it has an item, a round is a step of the pass for the extremes. -/
theorem step_of_init {keep : τ → Bool} {item : τ} (h : keep item) (p : τ × τ) :
    Scan.step keep ⟨true, p.1, p.2⟩ item = ⟨true, (widen p item).1, (widen p item).2⟩ := by
  simp only [Scan.step, h, widen, Bool.not_true, Bool.false_eq_true, if_false]
  split_ifs <;> rfl

theorem foldl_step_of_init {keep : τ → Bool} {array : List τ} :
    ∀ p : τ × τ, array.foldl (Scan.step keep) ⟨true, p.1, p.2⟩ =
      let q := (array.filter keep).foldl widen p
      ⟨true, q.1, q.2⟩ := by
  induction array with
  | nil => intro p; rfl
  | cons item array ih =>
    intro p
    rw [List.foldl_cons]
    by_cases h : keep item
    · rw [step_of_init h, ih, List.filter_cons_of_pos h, List.foldl_cons]
    · rw [step_of_not_keep h, ih, List.filter_cons_of_neg h]

/-- **The scan finds the extremes of what it keeps**, and leaves the entry values
when it keeps nothing. -/
theorem minmaxT_eq (keep : τ → Bool) (lowest highest : τ) (array : List τ) :
    minmaxT keep lowest highest array = match array.filter keep with
      | [] => (lowest, highest)
      | a :: as => extremes a as := by
  induction array with
  | nil => rfl
  | cons item array ih =>
    by_cases h : keep item
    · have hstep : Scan.step keep ⟨false, lowest, highest⟩ item = ⟨true, item, item⟩ := by
        simp [Scan.step, h]
      rw [List.filter_cons_of_pos h]
      simp only [minmaxT, List.foldl_cons, hstep]
      rw [foldl_step_of_init (item, item)]
      rfl
    · rw [List.filter_cons_of_neg h, ← ih, minmaxT, minmaxT, List.foldl_cons, step_of_not_keep h]

/-- What the scan returns of elements it keeps does not depend on the entry values. -/
theorem minmaxT_congr {keep : τ → Bool} {array : List τ} (hkept : ∃ a ∈ array, keep a)
    (l h l' h' : τ) :
    minmaxT keep l h array = minmaxT keep l' h' array := by
  rw [minmaxT_eq, minmaxT_eq]
  obtain ⟨a, ha, hk⟩ := hkept
  cases hf : array.filter keep with
  | nil => exact absurd (List.mem_filter.mpr ⟨ha, hk⟩) (by rw [hf]; simp)
  | cons b bs => rfl

section Key

variable {ι : Type} [LinearOrder ι] {k : τ → ι} {keep : τ → Bool} {array : List τ}

/-- **The scan is exact** where the comparison of kept elements is that of their keys. -/
theorem minmaxT_spec (hk : ∀ a b, keep a → keep b → (a < b ↔ k a < k b))
    (hkept : ∃ a ∈ array, keep a) (lowest highest : τ) :
    let r := minmaxT keep lowest highest array
    (r.1 ∈ array ∧ keep r.1) ∧ (r.2 ∈ array ∧ keep r.2) ∧ ∀ a ∈ array, keep a → k r.1 ≤ k a ∧ k a ≤ k r.2 := by
  obtain ⟨a, ha, hka⟩ := hkept
  rw [minmaxT_eq]
  cases hf : array.filter keep with
  | nil => exact absurd (List.mem_filter.mpr ⟨ha, hka⟩) (by rw [hf]; simp)
  | cons b bs =>
    have hmem : ∀ c, c ∈ b :: bs ↔ c ∈ array ∧ keep c := fun c => by rw [← hf, List.mem_filter]
    obtain ⟨hlo, hhi, hle⟩ := extremes_spec (P := fun c => keep c) hk fun c hc => ((hmem c).mp hc).2
    exact ⟨(hmem _).mp hlo, (hmem _).mp hhi, fun c hc hkc => hle c ((hmem c).mpr ⟨hc, hkc⟩)⟩

/-- **It does not see the order**: in another order it finds elements with the same keys. -/
theorem minmaxT_perm (hk : ∀ a b, keep a → keep b → (a < b ↔ k a < k b))
    (hkept : ∃ a ∈ array, keep a) {array' : List τ} (hp : array'.Perm array) (l h l' h' : τ) :
    k (minmaxT keep l' h' array').1 = k (minmaxT keep l h array).1 ∧
      k (minmaxT keep l' h' array').2 = k (minmaxT keep l h array).2 := by
  obtain ⟨a, ha, hka⟩ := hkept
  have hp' := hp.filter keep
  rw [minmaxT_eq, minmaxT_eq]
  cases hf : array.filter keep with
  | nil => exact absurd (List.mem_filter.mpr ⟨ha, hka⟩) (by rw [hf]; simp)
  | cons b bs =>
    cases hf' : array'.filter keep with
    | nil => rw [hf, hf'] at hp'; exact absurd hp'.length_eq (by simp)
    | cons c cs =>
      rw [hf, hf'] at hp'
      refine extremes_perm (P := fun c => keep c) hk (fun d hd => ?_) hp'
      rw [← hf', List.mem_filter] at hd
      exact hd.2

end Key

/-! ### Exactness -/

theorem minmaxT_float {xs : List Single} (hkept : ∃ a ∈ xs, keepFloat a) (l h : Single) :
    let r := minmaxT keepFloat l h xs
    (r.1 ∈ xs ∧ keepFloat r.1) ∧ (r.2 ∈ xs ∧ keepFloat r.2) ∧
      ∀ a ∈ xs, keepFloat a → r.1.val ≤ a.val ∧ a.val ≤ r.2.val :=
  minmaxT_spec (fun _ _ ha hb => Single.lt_iff_val (keepFloat_iff.mp ha) (keepFloat_iff.mp hb)) hkept l h

/-- On another order of the floats the scan finds the same numbers. -/
theorem minmaxT_float_val_perm {xs ys : List Single} (hkept : ∃ a ∈ xs, keepFloat a)
    (hp : ys.Perm xs) (l h l' h' : Single) :
    (minmaxT keepFloat l' h' ys).1.val = (minmaxT keepFloat l h xs).1.val ∧
      (minmaxT keepFloat l' h' ys).2.val = (minmaxT keepFloat l h xs).2.val :=
  minmaxT_perm (k := Single.val)
    (fun _ _ ha hb => Single.lt_iff_val (keepFloat_iff.mp ha) (keepFloat_iff.mp hb)) hkept hp l h l' h'

/-- They are the same floats but for the sign of a zero. -/
theorem minmaxT_float_perm {xs ys : List Single} (hkept : ∃ a ∈ xs, keepFloat a) (hp : ys.Perm xs)
    (l h l' h' : Single) :
    Floating.Alike (minmaxT keepFloat l' h' ys).1.toFloating (minmaxT keepFloat l h xs).1.toFloating ∧
      Floating.Alike (minmaxT keepFloat l' h' ys).2.toFloating (minmaxT keepFloat l h xs).2.toFloating := by
  have hkept' : ∃ a ∈ ys, keepFloat a := hkept.imp fun a ha => ⟨hp.mem_iff.mpr ha.1, ha.2⟩
  obtain ⟨⟨-, hlo⟩, ⟨-, hhi⟩, -⟩ := minmaxT_float hkept l h
  obtain ⟨⟨-, hlo'⟩, ⟨-, hhi'⟩, -⟩ := minmaxT_float hkept' l' h'
  have hval := minmaxT_float_val_perm hkept hp l h l' h'
  exact ⟨Floating.alike_of_val (keepFloat_iff.mp hlo') (keepFloat_iff.mp hlo) hval.1,
    Floating.alike_of_val (keepFloat_iff.mp hhi') (keepFloat_iff.mp hhi) hval.2⟩

/-- **`minmax_t` is exact and does not see the order.** Over a linear order it
returns the least and the greatest element that it keeps, on every order of the
elements. Over the floats it returns two kept elements between which all the kept
ones lie, and on another order two that compare equal to them. -/
theorem minmaxT_exact :
    (∀ (τ : Type) [LinearOrder τ] (keep : τ → Bool) (xs : List τ), (∃ a ∈ xs, keep a) → ∀ l h : τ,
      IsLeast {a | a ∈ xs ∧ keep a} (minmaxT keep l h xs).1 ∧
      IsGreatest {a | a ∈ xs ∧ keep a} (minmaxT keep l h xs).2 ∧
      ∀ ys, ys.Perm xs → ∀ l' h', minmaxT keep l' h' ys = minmaxT keep l h xs) ∧
    ∀ xs : List Single, (∃ a ∈ xs, keepFloat a) → ∀ l h : Single,
      ((minmaxT keepFloat l h xs).1 ∈ xs ∧ keepFloat (minmaxT keepFloat l h xs).1) ∧
      ((minmaxT keepFloat l h xs).2 ∈ xs ∧ keepFloat (minmaxT keepFloat l h xs).2) ∧
      (∀ a ∈ xs, keepFloat a → ((minmaxT keepFloat l h xs).1 < a ∨ (minmaxT keepFloat l h xs).1.eq a) ∧
        (a < (minmaxT keepFloat l h xs).2 ∨ a.eq (minmaxT keepFloat l h xs).2)) ∧
      ∀ ys, ys.Perm xs → ∀ l' h',
        ((minmaxT keepFloat l' h' ys).1.eq (minmaxT keepFloat l h xs).1 ∧
          (minmaxT keepFloat l' h' ys).2.eq (minmaxT keepFloat l h xs).2) ∧
        Floating.Alike (minmaxT keepFloat l' h' ys).1.toFloating (minmaxT keepFloat l h xs).1.toFloating ∧
        Floating.Alike (minmaxT keepFloat l' h' ys).2.toFloating (minmaxT keepFloat l h xs).2.toFloating := by
  refine ⟨fun τ _ keep xs hkept l h => ?_, fun xs hkept l h => ?_⟩
  · obtain ⟨hlo, hhi, hle⟩ := minmaxT_spec (k := id) (fun _ _ _ _ => Iff.rfl) hkept l h
    refine ⟨⟨hlo, fun a ha => (hle a ha.1 ha.2).1⟩, ⟨hhi, fun a ha => (hle a ha.1 ha.2).2⟩, ?_⟩
    intro ys hp l' h'
    have hperm := minmaxT_perm (k := id) (fun _ _ _ _ => Iff.rfl) hkept hp l h l' h'
    exact Prod.ext hperm.1 hperm.2
  · obtain ⟨hlo, hhi, hle⟩ := minmaxT_float hkept l h
    have hflo := keepFloat_iff.mp hlo.2
    have hfhi := keepFloat_iff.mp hhi.2
    refine ⟨hlo, hhi, fun a ha hka => ?_, fun ys hp l' h' => ⟨?_, minmaxT_float_perm hkept hp l h l' h'⟩⟩
    · have hfa := keepFloat_iff.mp hka
      rw [Single.lt_iff_val hflo hfa, Single.eq_iff_val hflo hfa, Single.lt_iff_val hfa hfhi,
        Single.eq_iff_val hfa hfhi]
      exact ⟨(hle a ha hka).1.lt_or_eq, (hle a ha hka).2.lt_or_eq⟩
    · have hkept' : ∃ a ∈ ys, keepFloat a := hkept.imp fun a ha => ⟨hp.mem_iff.mpr ha.1, ha.2⟩
      obtain ⟨hlo', hhi', -⟩ := minmaxT_float hkept' l' h'
      have hval := minmaxT_float_val_perm hkept hp l h l' h'
      rw [Single.eq_iff_val (keepFloat_iff.mp hlo'.2) hflo, Single.eq_iff_val (keepFloat_iff.mp hhi'.2) hfhi]
      exact hval

end Shuffle3.V2
