import Shuffle3.Foundations.Swaps

/-!
# Memories filled from the start

An indexed memory used as a stack: a signed fill pointer is the index of the last
item pushed, `-1` when there is none. An item is pushed by moving the pointer up
and writing there, and taken off by moving the pointer down; what was above it
stays in the memory and means nothing.

## What is proved

* `Filled.set`, `Filled.get`, `Filled.pop` — what the memory and the pointer stand
  for after each, as long as there is room.
-/

namespace Shuffle3.Foundations

universe u v

variable {α : Type u} {μ : Type v}

/-- Reading at a signed index. -/
def getAt [Indexed μ α] (m : μ) (i : ℤ) : Option α := if 0 ≤ i then Indexed.get m i.toNat else none

/-- Writing at a signed index. -/
def setAt [Indexed μ α] (m : μ) (i : ℤ) (a : α) : Option μ :=
  if 0 ≤ i then Indexed.set m i.toNat a else none

/-- The memory has room for `cap` items. Those up to the pointer are the items of the
stack, the first pushed first. -/
structure Filled (R : μ → List α → Prop) (cap : ℕ) (m : μ) (ptr : ℤ) (zs : List α) : Prop where
  ptr_eq : ptr = zs.length - 1
  holds : ∃ ws, R m (zs.reverse ++ ws) ∧ zs.length + ws.length = cap

variable {R : μ → List α → Prop} {cap : ℕ} {m : μ} {ptr : ℤ}

/-- A memory of `cap` items with the pointer before them stands for the empty stack. -/
theorem Filled.empty {ws : List α} (h : R m ws) (hcap : ws.length = cap) : Filled R cap m (-1) [] :=
  ⟨rfl, ws, h, by simpa using hcap⟩

theorem Filled.le {zs : List α} (h : Filled R cap m ptr zs) : zs.length ≤ cap := by
  obtain ⟨-, ws, -, hlen⟩ := h
  omega

theorem Filled.count {zs : List α} (h : Filled R cap m ptr zs) : (ptr + 1).toNat = zs.length := by
  rw [h.ptr_eq, Int.sub_add_cancel, Int.toNat_natCast]

/-- The pointer is at the last item. -/
theorem Filled.get [Indexed μ α] (hR : Holds R) {a : α} {zs : List α}
    (h : Filled R cap m ptr (a :: zs)) :
    getAt m ptr = some a := by
  obtain ⟨hptr, ws, hm, -⟩ := h
  have hptr' : ptr = zs.length := by simpa using hptr
  rw [getAt, hptr', if_pos (Int.natCast_nonneg _), Int.toNat_natCast, hR.get hm]
  simp

/-- Above the pointer there is room. -/
theorem Filled.set [Indexed μ α] (hR : Holds R) {zs : List α} (h : Filled R cap m ptr zs)
    (hroom : zs.length < cap) (a : α) :
    ∃ m', setAt m (ptr + 1) a = some m' ∧ Filled R cap m' (ptr + 1) (a :: zs) := by
  obtain ⟨hptr, ws, hm, hlen⟩ := h
  obtain ⟨b, ws, rfl⟩ := List.exists_cons_of_length_pos (by omega : 0 < ws.length)
  have hptr' : ptr + 1 = zs.length := by omega
  have hset : Indexed.set (zs.reverse ++ b :: ws) zs.length a = some (zs.reverse ++ a :: ws) := by
    rw [set_list, if_pos (by simp)]
    congr 1
    rw [List.set_append_right _ _ (by simp)]
    simp
  have hrel := hR.set hm zs.length a
  rw [hset] at hrel
  obtain ⟨m', hm', hR'⟩ := rel_of_some hrel
  refine ⟨m', ?_, ⟨by rw [hptr']; simp, ws, by simpa using hR', ?_⟩⟩
  · rw [setAt, hptr', if_pos (Int.natCast_nonneg _), Int.toNat_natCast, hm']
  · rw [List.length_cons] at hlen ⊢
    omega

/-- Moving the pointer down takes the last item off. -/
theorem Filled.pop {a : α} {zs : List α} (h : Filled R cap m ptr (a :: zs)) :
    Filled R cap m (ptr - 1) zs := by
  obtain ⟨hptr, ws, hm, hlen⟩ := h
  rw [List.length_cons] at hptr hlen
  refine ⟨by omega, a :: ws, by simpa using hm, ?_⟩
  rw [List.length_cons]
  omega

end Shuffle3.Foundations
