import Mathlib.Data.List.Perm.Basic
import Mathlib.Data.List.OfFn
import Mathlib.Data.List.FinRange
import Mathlib.Logic.Equiv.Fin.Basic
import Mathlib.Algebra.Group.End

/-!
# Runs of exchanges on an indexed memory

A memory whose items are read and written by index, the exchange of two items,
and runs of exchanges. A program that shuffles a memory is a run of exchanges
whose indices it drew somewhere; it is undone by the run in reverse.

`Holds R` says that the relation `R` ties a memory to the list of its items so
that reading and writing the memory is reading and writing the list. What is
proved here of lists then holds of every memory that holds one.

## What is proved

* `exchange_eq_some_iff` — what an exchange in a list does, as a transposition
  of the positions.
* `exchanges_reverse` — a run of exchanges is undone by the run in reverse.
* `exchanges_perm`, `exists_exchanges` — it permutes the items, and it runs to
  its end when every index is inside.
* `Holds.exchanges` — a memory that holds a list goes through a run as the list
  does, and fails where it fails.
-/

namespace Shuffle3.Foundations

universe u v w z

variable {α : Type u} {β : Type v} {γ : Type w} {δ : Type z}

/-! ### Partial programs step by step -/

/-- Two partial programs that agree up to `R`, continued by programs that agree
up to `S` from there, agree up to `S`. -/
theorem rel_bind {R : α → β → Prop} {S : γ → δ → Prop} {o : Option α} {p : Option β}
    {f : α → Option γ} {g : β → Option δ} (h : Option.Rel R o p)
    (hfg : ∀ a b, R a b → Option.Rel S (f a) (g b)) : Option.Rel S (o.bind f) (p.bind g) := by
  cases h with
  | none => exact .none
  | some h => exact hfg _ _ h

theorem rel_of_some {R : α → β → Prop} {o : Option α} {b : β} (h : Option.Rel R o (some b)) :
    ∃ a, o = some a ∧ R a b := by
  cases h with
  | some h => exact ⟨_, rfl, h⟩

theorem rel_map {R : α → β → Prop} {S : α → δ → Prop} {o : Option α} {p : Option β} {g : β → δ}
    (h : Option.Rel R o p) (hg : ∀ a b, R a b → S a (g b)) : Option.Rel S o (p.map g) := by
  cases h with
  | none => exact .none
  | some h => exact .some (hg _ _ h)

/-! ### Indexed memories -/

/-- A memory read and written by index. `get` and `set` fail outside. -/
class Indexed (μ : Type v) (α : outParam (Type u)) where
  /-- How many items there are. -/
  size : μ → ℕ
  /-- The item at an index. -/
  get : μ → ℕ → Option α
  /-- The memory with another item at an index. -/
  set : μ → ℕ → α → Option μ

instance : Indexed (List α) α where
  size := List.length
  get xs i := xs[i]?
  set xs i a := if i < xs.length then some (xs.set i a) else none

theorem size_list (xs : List α) : Indexed.size xs = xs.length := rfl

theorem get_list (xs : List α) (i : ℕ) : Indexed.get xs i = xs[i]? := rfl

theorem set_list (xs : List α) (i : ℕ) (a : α) :
    Indexed.set xs i a = if i < xs.length then some (xs.set i a) else none := rfl

variable {μ : Type v} [Indexed μ α]

/-- Exchange the items at `i` and `j`: both are read before either is written. -/
def exchange (m : μ) (i j : ℕ) : Option μ :=
  (Indexed.get m i).bind fun a =>
    (Indexed.get m j).bind fun b =>
      (Indexed.set m i b).bind fun m => Indexed.set m j a

/-- A run of exchanges, first pair first. -/
def exchanges : List (ℕ × ℕ) → μ → Option μ
  | [], m => some m
  | (i, j) :: ss, m => (exchange m i j).bind (exchanges ss)

theorem exchanges_append (ss ts : List (ℕ × ℕ)) (m : μ) :
    exchanges (ss ++ ts) m = (exchanges ss m).bind (exchanges ts) := by
  induction ss generalizing m with
  | nil => rfl
  | cons s ss ih =>
    obtain ⟨i, j⟩ := s
    simp only [List.cons_append, exchanges, ih, Option.bind_assoc]

/-- `R` ties a memory to the list it holds: reading and writing are those of the list. -/
structure Holds (R : μ → List α → Prop) : Prop where
  size : ∀ {m xs}, R m xs → Indexed.size m = xs.length
  get : ∀ {m xs}, R m xs → ∀ i, Indexed.get m i = xs[i]?
  set : ∀ {m xs}, R m xs → ∀ i a, Option.Rel R (Indexed.set m i a) (Indexed.set xs i a)

theorem Holds.exchange {R : μ → List α → Prop} (hR : Holds R) {m : μ} {xs : List α} (h : R m xs)
    (i j : ℕ) : Option.Rel R (exchange m i j) (exchange xs i j) := by
  unfold Foundations.exchange
  rw [hR.get h, get_list]
  cases xs[i]? with
  | none => exact .none
  | some a =>
    rw [Option.bind_some, Option.bind_some, hR.get h, get_list]
    cases xs[j]? with
    | none => exact .none
    | some b =>
      simp only [Option.bind_some]
      exact rel_bind (hR.set h i b) fun m' xs' h' => hR.set h' j a

/-- **A memory goes through a run as the list it holds does.** -/
theorem Holds.exchanges {R : μ → List α → Prop} (hR : Holds R) (ss : List (ℕ × ℕ)) :
    ∀ {m : μ} {xs : List α}, R m xs → Option.Rel R (exchanges ss m) (exchanges ss xs) := by
  induction ss with
  | nil => intro m xs h; exact .some h
  | cons s ss ih =>
    intro m xs h
    exact rel_bind (hR.exchange h s.1 s.2) fun _ _ h' => ih h'

/-! ### Exchanges in a list -/

/-- The list whose item at `k` is that of `xs` at `π k`. -/
def permuted {n : ℕ} (xs : List α) (h : xs.length = n) (π : Equiv.Perm (Fin n)) : List α :=
  List.ofFn fun k => xs[π k]

@[simp] theorem length_permuted {n : ℕ} (xs : List α) (h : xs.length = n) (π : Equiv.Perm (Fin n)) :
    (permuted xs h π).length = n := by simp [permuted]

@[simp] theorem getElem_permuted {n : ℕ} (xs : List α) (h : xs.length = n) (π : Equiv.Perm (Fin n))
    (k : ℕ) (hk : k < (permuted xs h π).length) :
    (permuted xs h π)[k] = xs[π ⟨k, by simpa using hk⟩] := by simp [permuted]

theorem permuted_perm {n : ℕ} (xs : List α) (h : xs.length = n) (π : Equiv.Perm (Fin n)) :
    (permuted xs h π).Perm xs := by
  subst h
  have hπ := π.ofFn_comp_perm fun k => xs[k]
  have hxs : List.ofFn (fun k : Fin xs.length => xs[k]) = xs := List.ofFn_getElem
  rw [hxs] at hπ
  exact hπ

/-- Permuting by `π` and then by `ρ` is permuting by `π * ρ`. -/
theorem permuted_permuted {n : ℕ} (xs : List α) (h : xs.length = n) (π ρ : Equiv.Perm (Fin n)) :
    permuted (permuted xs h π) (length_permuted xs h π) ρ = permuted xs h (π * ρ) :=
  List.ext_getElem (by simp) fun k _ _ => by simp

@[simp] theorem permuted_one {n : ℕ} (xs : List α) (h : xs.length = n) : permuted xs h 1 = xs :=
  List.ext_getElem (by simp [h]) fun k _ _ => by simp

theorem exchange_list {n : ℕ} {xs : List α} (h : xs.length = n) {i j : ℕ} (hi : i < n)
    (hj : j < n) :
    exchange xs i j = some (permuted xs h (Equiv.swap ⟨i, hi⟩ ⟨j, hj⟩)) := by
  subst h
  simp only [exchange, get_list, set_list, List.getElem?_eq_getElem hi, List.getElem?_eq_getElem hj,
    Option.bind_some, hi, hj, if_true, List.length_set]
  congr 1
  refine List.ext_getElem (by simp) fun k hk hk' => ?_
  rw [getElem_permuted, List.getElem_set, List.getElem_set]
  by_cases hkj : j = k
  · subst hkj; simp
  by_cases hki : i = k
  · subst hki; simp [hkj]
  · have hne : Equiv.swap (⟨i, hi⟩ : Fin xs.length) ⟨j, hj⟩ ⟨k, by simpa using hk'⟩ = ⟨k, by simpa using hk'⟩ :=
      Equiv.swap_apply_of_ne_of_ne (fun e => hki (Fin.mk.inj e).symm) (fun e => hkj (Fin.mk.inj e).symm)
    simp [hkj, hki, hne]

theorem exchange_eq_none {xs : List α} {i j : ℕ} (h : ¬ (i < xs.length ∧ j < xs.length)) :
    exchange xs i j = none := by
  simp only [exchange, get_list]
  by_cases hi : i < xs.length
  · have hj : ¬ j < xs.length := fun hj => h ⟨hi, hj⟩
    rw [List.getElem?_eq_getElem hi, List.getElem?_eq_none (Nat.le_of_not_lt hj)]
    rfl
  · rw [List.getElem?_eq_none (Nat.le_of_not_lt hi)]
    rfl

/-- **What an exchange does**: it succeeds when both indices are inside, and then
transposes the two positions. -/
theorem exchange_eq_some_iff {xs ys : List α} {i j : ℕ} :
    exchange xs i j = some ys ↔ ∃ (hi : i < xs.length) (hj : j < xs.length),
      ys = permuted xs rfl (Equiv.swap ⟨i, hi⟩ ⟨j, hj⟩) := by
  by_cases h : i < xs.length ∧ j < xs.length
  · rw [exchange_list rfl h.1 h.2, Option.some.injEq]
    exact ⟨fun e => ⟨h.1, h.2, e.symm⟩, fun ⟨_, _, e⟩ => e.symm⟩
  · rw [exchange_eq_none h]
    constructor
    · intro e; cases e
    · rintro ⟨hi, hj, -⟩; exact absurd ⟨hi, hj⟩ h

theorem exchange_perm {xs ys : List α} {i j : ℕ} (h : exchange xs i j = some ys) : ys.Perm xs := by
  obtain ⟨hi, hj, rfl⟩ := exchange_eq_some_iff.mp h
  exact permuted_perm xs rfl _

/-- An exchange undoes itself. -/
theorem exchange_undo {xs ys : List α} {i j : ℕ} (h : exchange xs i j = some ys) :
    exchange ys i j = some xs := by
  obtain ⟨hi, hj, rfl⟩ := exchange_eq_some_iff.mp h
  rw [exchange_list (length_permuted xs rfl _) hi hj, permuted_permuted, Equiv.swap_mul_self,
    permuted_one]

theorem exchanges_perm {ss : List (ℕ × ℕ)} :
    ∀ {xs ys : List α}, exchanges ss xs = some ys → ys.Perm xs := by
  induction ss with
  | nil => intro xs ys h; cases h; exact List.Perm.refl _
  | cons s ss ih =>
    intro xs ys h
    obtain ⟨zs, hz, h⟩ := Option.bind_eq_some_iff.mp h
    exact (ih h).trans (exchange_perm hz)

/-- **A run of exchanges is undone by the run in reverse.** -/
theorem exchanges_reverse {ss : List (ℕ × ℕ)} :
    ∀ {xs ys : List α}, exchanges ss xs = some ys → exchanges ss.reverse ys = some xs := by
  induction ss with
  | nil => intro xs ys h; cases h; rfl
  | cons s ss ih =>
    intro xs ys h
    obtain ⟨zs, hz, h⟩ := Option.bind_eq_some_iff.mp h
    rw [List.reverse_cons, exchanges_append, ih h, Option.bind_some]
    obtain ⟨i, j⟩ := s
    rw [exchanges, exchange_undo hz]
    rfl

/-- A run whose indices are all inside runs to its end. -/
theorem exists_exchanges {ss : List (ℕ × ℕ)} :
    ∀ {xs : List α}, (∀ s ∈ ss, s.1 < xs.length ∧ s.2 < xs.length) →
      ∃ ys, exchanges ss xs = some ys := by
  induction ss with
  | nil => intro xs _; exact ⟨xs, rfl⟩
  | cons s ss ih =>
    intro xs h
    have hs := h s List.mem_cons_self
    have hlen := length_permuted xs rfl (Equiv.swap ⟨s.1, hs.1⟩ ⟨s.2, hs.2⟩)
    obtain ⟨ys, hy⟩ := ih fun t ht => by rw [hlen]; exact h t (List.mem_cons_of_mem _ ht)
    refine ⟨ys, ?_⟩
    rw [exchanges, exchange_list rfl hs.1 hs.2]
    exact hy

/-- All the indices of a run that reaches its end are inside. -/
theorem lt_of_mem_of_exchanges {ss : List (ℕ × ℕ)} :
    ∀ {xs ys : List α}, exchanges ss xs = some ys →
      ∀ s ∈ ss, s.1 < xs.length ∧ s.2 < xs.length := by
  induction ss with
  | nil => intro xs ys _ s hs; cases hs
  | cons s ss ih =>
    intro xs ys h t ht
    obtain ⟨zs, hz, h⟩ := Option.bind_eq_some_iff.mp h
    rcases List.mem_cons.mp ht with rfl | ht
    · obtain ⟨hi, hj, -⟩ := exchange_eq_some_iff.mp hz
      exact ⟨hi, hj⟩
    · rw [← (exchange_perm hz).length_eq]
      exact ih h t ht

end Shuffle3.Foundations
