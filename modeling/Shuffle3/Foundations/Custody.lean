import Mathlib.Data.Multiset.AddSub
import Mathlib.Data.Multiset.Count
import Mathlib.Data.Multiset.UnionInter

/-!
# Resources that are acquired, used and released

The events of a run are accounted for one by one against what is open: a resource is
acquired that is not open, and used or released where it is. An event that does not fit
stops the account.

## What is proved

* `account_releases` — what is open can be released.
* `count_account` — what is open has been acquired once more than released.
* `orderly_of_account` — in an account from nothing no resource is released too soon or
  twice, or used but in between; `released_of_account` — and in one that ends with nothing
  each is released as often as it is acquired.
-/

namespace Shuffle3.Foundations.Custody

universe u

/-- What happens to a resource. -/
inductive Event (R : Type u) where
  | acquire (r : R)
  | use (r : R)
  | release (r : R)
  deriving DecidableEq

variable {R : Type u} [DecidableEq R] {s t : Multiset R} {r : R} {e : Event R} {es fs : List (Event R)}

/-- One event, if it fits. -/
def step (s : Multiset R) : Event R → Option (Multiset R)
  | .acquire r => if r ∈ s then none else some (r ::ₘ s)
  | .use r => if r ∈ s then some s else none
  | .release r => if r ∈ s then some (s.erase r) else none

/-- All events of a run. -/
def account (s : Multiset R) : List (Event R) → Option (Multiset R)
  | [] => some s
  | e :: es => (step s e).bind fun s => account s es

theorem account_append (s : Multiset R) (es fs : List (Event R)) :
    account s (es ++ fs) = (account s es).bind fun s => account s fs := by
  induction es generalizing s with
  | nil => rfl
  | cons e es ih =>
    rw [List.cons_append, account, account, Option.bind_assoc]
    exact congrArg _ (funext ih)

theorem account_acquire (h : r ∉ s) (es : List (Event R)) :
    account s (.acquire r :: es) = account (r ::ₘ s) es := by
  rw [account, step, if_neg h, Option.bind_some]

theorem account_use (h : r ∈ s) (es : List (Event R)) :
    account s (.use r :: es) = account s es := by
  rw [account, step, if_pos h, Option.bind_some]

theorem account_release (r : R) (s : Multiset R) (es : List (Event R)) :
    account (r ::ₘ s) (.release r :: es) = account s es := by
  rw [account, step, if_pos (Multiset.mem_cons_self r s), Option.bind_some, Multiset.erase_cons_head]

/-- **What is open can be released**, one after another. -/
theorem account_releases (rs : List R) (s : Multiset R) :
    account ((rs : Multiset R) + s) (rs.map .release) = some s := by
  induction rs with
  | nil => rw [Multiset.coe_nil, Multiset.zero_add]; rfl
  | cons r rs ih => rw [← Multiset.cons_coe, Multiset.cons_add, List.map_cons, account_release, ih]

/-! ### Counting -/

/-- One event. -/
theorem count_step (h : step s e = some t) (r : R) :
    t.count r + [e].count (.release r) = s.count r + [e].count (.acquire r) := by
  cases e with
  | acquire q =>
    rw [step] at h
    split_ifs at h
    cases h
    by_cases hqr : q = r
    · subst hqr
      simp
    · simp [Multiset.count_cons_of_ne (Ne.symm hqr), hqr]
  | use q =>
    rw [step] at h
    split_ifs at h
    cases h
    simp
  | release q =>
    rw [step] at h
    split_ifs at h with hq
    cases h
    by_cases hqr : q = r
    · subst hqr
      have hpos := Multiset.count_pos.mpr hq
      simp
      omega
    · simp [Multiset.count_erase_of_ne (Ne.symm hqr), hqr]

/-- **What is open** has been acquired once more than released. -/
theorem count_account (h : account s es = some t) (r : R) :
    t.count r + es.count (.release r) = s.count r + es.count (.acquire r) := by
  induction es generalizing s with
  | nil =>
    cases h
    rfl
  | cons e es ih =>
    obtain ⟨u, hu, h⟩ := Option.bind_eq_some_iff.mp h
    have hstep := count_step hu r
    have hrest := ih h
    simp only [List.count_cons, List.count_nil] at hstep ⊢
    omega

/-- A resource is not open twice. -/
theorem nodup_account (h : account s es = some t) (hs : s.Nodup) : t.Nodup := by
  induction es generalizing s with
  | nil =>
    cases h
    exact hs
  | cons e es ih =>
    obtain ⟨u, hu, h⟩ := Option.bind_eq_some_iff.mp h
    refine ih h ?_
    cases e with
    | acquire q =>
      rw [step] at hu
      split_ifs at hu with hq
      cases hu
      exact Multiset.nodup_cons.mpr ⟨hq, hs⟩
    | use q =>
      rw [step] at hu
      split_ifs at hu
      cases hu
      exact hs
    | release q =>
      rw [step] at hu
      split_ifs at hu
      cases hu
      exact hs.erase q

/-- **In an orderly run** a resource is not released more often than it is acquired, nor
acquired again before it is released, and it is used only in between. -/
structure Orderly (es : List (Event R)) : Prop where
  inTurn : ∀ r fs, fs <+: es →
    fs.count (.release r) ≤ fs.count (.acquire r) ∧ fs.count (.acquire r) ≤ fs.count (.release r) + 1
  used : ∀ r fs gs, es = fs ++ .use r :: gs → fs.count (.acquire r) = fs.count (.release r) + 1

/-- **A run that is accounted for from nothing is orderly.** -/
theorem orderly_of_account (h : account 0 es = some t) : Orderly es where
  inTurn r fs hfs := by
    obtain ⟨gs, rfl⟩ := hfs
    rw [account_append] at h
    obtain ⟨s, hs, -⟩ := Option.bind_eq_some_iff.mp h
    have hcount := count_account hs r
    have hle := Multiset.nodup_iff_count_le_one.mp (nodup_account hs Multiset.nodup_zero) r
    rw [Multiset.count_zero] at hcount
    omega
  used r fs gs he := by
    rw [he, account_append] at h
    obtain ⟨s, hs, h⟩ := Option.bind_eq_some_iff.mp h
    obtain ⟨u, hu, -⟩ := Option.bind_eq_some_iff.mp h
    rw [step] at hu
    split_ifs at hu with hr
    have hcount := count_account hs r
    have hle := Multiset.nodup_iff_count_le_one.mp (nodup_account hs Multiset.nodup_zero) r
    have hpos := Multiset.count_pos.mpr hr
    rw [Multiset.count_zero] at hcount
    omega

/-- Where nothing is left open, each resource is released as often as it is acquired. -/
theorem released_of_account (h : account 0 es = some 0) (r : R) :
    es.count (.release r) = es.count (.acquire r) := by
  have hcount := count_account h r
  rw [Multiset.count_zero] at hcount
  omega

end Shuffle3.Foundations.Custody
