import Mathlib.Data.ENat.Basic
import Mathlib.Data.List.Forall2

/-!
# Containers that stand for stacks

The operations of a stack on a container of any kind, and the law by which the
container stands for the list of its items, the last one pushed first.

The law `StackLike cap F D B` has three relations between a container and its
list, since some containers do not take the operations in any order: in `F` the
container takes another item, in `D` its last item can be looked at, in `B` it
can be rid of that item. A container that does take them in any order has one
relation for all three, and is a stack (`IsStack`).

## What is proved

* `IsStack.run` — a stack answers every run of operations as the list does.
* `isStack_list` — the list itself is a stack.
-/

namespace Shuffle3.Foundations

universe u v w

/-- The operations of a stack. Each fails or leaves a container; looking at the
last item may change the container it is in. -/
class StackOps (β : Type v) (τ : outParam (Type u)) where
  /-- How many items there are. -/
  size : β → ℕ
  /-- Put an item on the end. -/
  pushBack : β → τ → Option β
  /-- Take the last item off. -/
  popBack : β → Option β
  /-- Look at the last item. -/
  back : β → Option (τ × β)

variable {β : Type v} {τ : Type u}

/-- The plain stack: a list, the last item first. -/
instance : StackOps (List τ) τ where
  size := List.length
  pushBack xs a := some (a :: xs)
  popBack xs := some xs.tail
  back
    | [] => none
    | a :: xs => some (a, a :: xs)

/-- A call of an operation. -/
inductive Call (τ : Type u) where
  /-- `push_back(a)`. -/
  | pushBack (a : τ)
  /-- `pop_back()`. -/
  | popBack
  /-- `back()`. -/
  | back
  /-- `size()`. -/
  | size

/-- The answer to a call. -/
inductive Answer (τ : Type u) where
  /-- There is none. -/
  | done
  /-- An item. -/
  | item (a : τ)
  /-- A number of items. -/
  | count (n : ℕ)
  deriving DecidableEq

/-- An answer but for the item in it. -/
def Answer.forget : Answer τ → Answer Unit
  | .done => .done
  | .item _ => .item ()
  | .count n => .count n

section Run

variable [StackOps β τ]

/-- One call. -/
def Call.step (v : β) : Call τ → Option (Answer τ × β)
  | .pushBack a => (StackOps.pushBack v a).map fun v => (.done, v)
  | .popBack => (StackOps.popBack v).map fun v => (.done, v)
  | .back => (StackOps.back v).map fun (a, v) => (.item a, v)
  | .size => some (.count (StackOps.size v), v)

/-- The calls one after the other, with their answers. -/
def Call.run : β → List (Call τ) → Option (List (Answer τ) × β)
  | v, [] => some ([], v)
  | v, c :: cs => do
    let (a, v) ← c.step v
    let (as, v) ← Call.run v cs
    pure (a :: as, v)

theorem Call.run_cons_eq_some_iff {v w : β} {c : Call τ} {cs : List (Call τ)}
    {as : List (Answer τ)} :
    Call.run v (c :: cs) = some (as, w) ↔
      ∃ a v' bs, c.step v = some (a, v') ∧ Call.run v' cs = some (bs, w) ∧ as = a :: bs := by
  constructor
  · intro h
    obtain ⟨⟨a, v'⟩, hstep, h⟩ := Option.bind_eq_some_iff.mp h
    obtain ⟨⟨bs, w'⟩, hrun, h⟩ := Option.bind_eq_some_iff.mp h
    cases h
    exact ⟨a, v', bs, hstep, hrun, rfl⟩
  · rintro ⟨a, v', bs, hstep, hrun, rfl⟩
    simp [Call.run, hstep, hrun]

/-- **Two containers go through a run together** when every call keeps what ties
them, which may speak of the calls to come, and ties the answers. -/
theorem Call.run_rel {γ : Type w} [StackOps γ τ] {R : γ → β → List (Call τ) → Prop}
    {A : Answer τ → Answer τ → Prop}
    (hstep : ∀ {v w c cs}, R v w (c :: cs) → ∀ {a w'}, c.step w = some (a, w') →
      ∃ b v', c.step v = some (b, v') ∧ A b a ∧ R v' w' cs) {cs : List (Call τ)} :
    ∀ {v : γ} {w : β}, R v w cs → ∀ {as : List (Answer τ)} {w' : β}, Call.run w cs = some (as, w') →
      ∃ bs v', Call.run v cs = some (bs, v') ∧ List.Forall₂ A bs as ∧ R v' w' [] := by
  induction cs with
  | nil =>
    intro v w h as w' hrun
    cases hrun
    exact ⟨[], v, rfl, .nil, h⟩
  | cons c cs ih =>
    intro v w h as w' hrun
    obtain ⟨a, w₁, as', hcall, hrest, rfl⟩ := Call.run_cons_eq_some_iff.mp hrun
    obtain ⟨b, v₁, hv, hA, h₁⟩ := hstep h hcall
    obtain ⟨bs, v', hvs, hAs, h'⟩ := ih h₁ hrest
    exact ⟨b :: bs, v', Call.run_cons_eq_some_iff.mpr ⟨b, v₁, bs, hv, hvs, rfl⟩, .cons hA hAs, h'⟩

end Run

/-- From a stack with `n` items, `pop_back` and `back` are called only when it has one. -/
def Proper : ℕ → List (Call τ) → Prop
  | _, [] => True
  | n, .pushBack _ :: cs => Proper (n + 1) cs
  | n, .popBack :: cs => 0 < n ∧ Proper (n - 1) cs
  | n, .back :: cs => 0 < n ∧ Proper n cs
  | n, .size :: cs => Proper n cs

/-! ### The law -/

/-- The container stands for the list of its items, and has room for `cap` of them. -/
structure StackLike [StackOps β τ] (cap : ℕ∞) (F D B : β → List τ → Prop) : Prop where
  size : ∀ {v xs}, D v xs ∨ B v xs → StackOps.size v = xs.length
  push : ∀ {v xs}, F v xs → (xs.length : ℕ∞) < cap → ∀ a, ∃ v', StackOps.pushBack v a = some v' ∧ F v' (a :: xs)
  back : ∀ {v a xs}, D v (a :: xs) → ∃ v', StackOps.back v = some (a, v') ∧ B v' (a :: xs)
  pop : ∀ {v a xs}, B v (a :: xs) → ∃ v', StackOps.popBack v = some v' ∧ D v' xs
  /-- A container that takes items can be looked at. -/
  drain : ∀ {v xs}, F v xs → D v xs
  /-- With no items left there is nothing to look at first. -/
  nil : ∀ {v}, D v [] ↔ B v []

/-- The container takes the operations in any order. -/
abbrev IsStack [StackOps β τ] (cap : ℕ∞) (R : β → List τ → Prop) : Prop := StackLike cap R R R

/-- The list is a stack. -/
theorem isStack_list : IsStack ⊤ (Eq : List τ → List τ → Prop) where
  size h := by rcases h with rfl | rfl <;> rfl
  push h _ a := ⟨_, rfl, by rw [h]⟩
  back h := ⟨_, by rw [h]; rfl, rfl⟩
  pop h := ⟨_, rfl, by rw [h]; rfl⟩
  drain h := h
  nil := Iff.rfl

/-- A list goes through a proper run to its end. -/
theorem Proper.exists_run {cs : List (Call τ)} :
    ∀ {xs : List τ}, Proper xs.length cs → ∃ as ys, Call.run xs cs = some (as, ys) := by
  induction cs with
  | nil => intro xs _; exact ⟨[], xs, rfl⟩
  | cons c cs ih =>
    intro xs hp
    have key : ∃ a ys, c.step xs = some (a, ys) ∧ Proper ys.length cs := by
      cases c with
      | pushBack a => exact ⟨.done, a :: xs, rfl, hp⟩
      | popBack => exact ⟨.done, xs.tail, rfl, by simpa using hp.2⟩
      | back =>
        obtain ⟨a, xs, rfl⟩ := List.exists_cons_of_length_pos hp.1
        exact ⟨.item a, a :: xs, rfl, hp.2⟩
      | size => exact ⟨.count xs.length, xs, rfl, hp⟩
    obtain ⟨a, ys, hstep, hp'⟩ := key
    obtain ⟨as, zs, hrun⟩ := ih hp'
    exact ⟨a :: as, zs, Call.run_cons_eq_some_iff.mpr ⟨a, ys, as, hstep, hrun, rfl⟩⟩

variable [StackOps β τ]

/-- One proper call: the stack answers as the list does. -/
theorem IsStack.step {R : β → List τ → Prop} (hR : IsStack ⊤ R) {v : β} {xs : List τ} {c : Call τ}
    {cs : List (Call τ)} (h : R v xs ∧ Proper xs.length (c :: cs)) {a : Answer τ} {ys : List τ}
    (hstep : c.step xs = some (a, ys)) :
    ∃ b w, c.step v = some (b, w) ∧ b = a ∧ R w ys ∧ Proper ys.length cs := by
  obtain ⟨h, hp⟩ := h
  cases c with
  | pushBack b =>
    cases hstep
    obtain ⟨w, hw, hR'⟩ := hR.push h (ENat.natCast_lt_top _) b
    exact ⟨_, w, by simp [Call.step, hw], rfl, hR', hp⟩
  | popBack =>
    cases hstep
    obtain ⟨b, xs, rfl⟩ := List.exists_cons_of_length_pos hp.1
    obtain ⟨w, hw, hR'⟩ := hR.pop h
    exact ⟨_, w, by simp [Call.step, hw], rfl, hR', hp.2⟩
  | back =>
    obtain ⟨b, xs, rfl⟩ := List.exists_cons_of_length_pos hp.1
    cases hstep
    obtain ⟨w, hw, hR'⟩ := hR.back h
    exact ⟨_, w, by simp [Call.step, hw], rfl, hR', hp.2⟩
  | size =>
    cases hstep
    exact ⟨_, v, rfl, congrArg Answer.count (hR.size (.inl h)), h, hp⟩

/-- **A stack answers every run as the list does.** -/
theorem IsStack.run {R : β → List τ → Prop} (hR : IsStack ⊤ R) {v : β} {xs : List τ} (h : R v xs)
    {cs : List (Call τ)} (hp : Proper xs.length cs) {as : List (Answer τ)} {ys : List τ}
    (hrun : Call.run xs cs = some (as, ys)) : ∃ w, Call.run v cs = some (as, w) ∧ R w ys := by
  obtain ⟨bs, w, hw, hA, h', -⟩ :=
    Call.run_rel (R := fun (v : β) (xs : List τ) cs => R v xs ∧ Proper xs.length cs) hR.step ⟨h, hp⟩ hrun
  rw [List.forall₂_eq_eq_eq] at hA
  exact ⟨w, hA ▸ hw, h'⟩

end Shuffle3.Foundations
