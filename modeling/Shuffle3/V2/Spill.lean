import Shuffle3.Foundations.Fills
import Shuffle3.Foundations.Blocks
import Shuffle3.Foundations.Stacks

/-!
# Stacks that spill

Two containers that keep their first items in memory and the others in a store,
itself a stack. `fixed_spill_vector` has an array and a signed fill pointer, and
decides by the pointer; `shunt` has a vector and decides by the size of both
parts, and may construct its store when the memory is full for the first time.

## What is proved

* `stackLike_fixedSpillVector`, `stackLike_shunt` — over any store that stands for
  a stack, each stands for one, with that much more room.
* `stackLike_shunt_unfilled` — a shunt that is never full does not construct its store.
* `spillVectors_run` — over a store that is a stack both answer every run as one
  list does, and the store has items only while the memory is full.

## Honest scope

The store is of any type. What `back` returns is a copy of the item, not a
reference through which it could be written.
-/

namespace Shuffle3.V2

open Foundations

variable {τ ι : Type} {spill : ℕ}

/-! ### The list in two parts -/

/-- The stack `xs` has `zs` in memory and `ys` in the store, which has items only
when the memory is full. -/
structure Divided (spill : ℕ) (zs ys xs : List τ) : Prop where
  append : ys ++ zs = xs
  le : zs.length ≤ spill
  full : ys ≠ [] → zs.length = spill

theorem Divided.nil : Divided spill ([] : List τ) [] [] :=
  ⟨rfl, Nat.zero_le _, fun h => absurd rfl h⟩

theorem Divided.length {zs ys xs : List τ} (h : Divided spill zs ys xs) :
    zs.length + ys.length = xs.length := by
  rw [← h.append, List.length_append, Nat.add_comm]

/-- The memory is full when there are as many items as fit there. -/
theorem Divided.full_iff {zs ys xs : List τ} (h : Divided spill zs ys xs) :
    spill ≤ zs.length + ys.length ↔ zs.length = spill := by
  constructor
  · intro hle
    cases ys with
    | nil => exact Nat.le_antisymm h.le hle
    | cons a ys => exact h.full (List.cons_ne_nil a ys)
  · intro e
    omega

/-- While the memory has room the store has no items. -/
theorem Divided.store_nil {zs ys xs : List τ} (h : Divided spill zs ys xs)
    (hroom : zs.length < spill) : ys = [] := by
  by_contra hne
  exact hroom.ne (h.full hne)

theorem Divided.push_memory {zs xs : List τ} (h : Divided spill zs [] xs)
    (hroom : zs.length < spill) (a : τ) :
    Divided spill (a :: zs) [] (a :: xs) :=
  ⟨congrArg (a :: ·) h.append, hroom, fun h => absurd rfl h⟩

theorem Divided.push_store {zs ys xs : List τ} (h : Divided spill zs ys xs)
    (hfull : zs.length = spill) (a : τ) :
    Divided spill zs (a :: ys) (a :: xs) :=
  ⟨congrArg (a :: ·) h.append, h.le, fun _ => hfull⟩

theorem Divided.pop_store {zs ys xs : List τ} {a : τ} (h : Divided spill zs (a :: ys) xs) :
    ∃ xs', xs = a :: xs' ∧ Divided spill zs ys xs' :=
  ⟨ys ++ zs, h.append.symm, rfl, h.le, fun _ => h.full (List.cons_ne_nil a ys)⟩

/-- Where the last item is: in the store when that has items, else in memory. -/
theorem Divided.last {zs ys xs : List τ} {a : τ} (h : Divided spill zs ys (a :: xs)) :
    (∃ ys', ys = a :: ys' ∧ Divided spill zs ys' xs) ∨
      (ys = [] ∧ ∃ zs', zs = a :: zs' ∧ Divided spill zs' [] xs) := by
  cases ys with
  | nil =>
    right
    obtain rfl : zs = a :: xs := h.append
    exact ⟨rfl, xs, rfl, rfl, Nat.le_of_succ_le h.le, fun h => absurd rfl h⟩
  | cons b ys =>
    left
    obtain ⟨xs', hxs, h'⟩ := h.pop_store
    obtain ⟨rfl, rfl⟩ := List.cons.inj hxs
    exact ⟨ys, rfl, h'⟩

/-- There is room for another item in the store, when there is for one at all. -/
theorem Divided.room {cap : ℕ∞} {zs ys xs : List τ} (h : Divided spill zs ys xs)
    (hfull : zs.length = spill) (hroom : (xs.length : ℕ∞) < spill + cap) :
    (ys.length : ℕ∞) < cap := by
  rw [← h.length, hfull, Nat.cast_add] at hroom
  exact lt_of_add_lt_add_left hroom

/-! ### An array and a store -/

/-- An array of `n` items. -/
instance {n : ℕ} : Indexed (Block τ n) τ where
  size _ := n
  get m i := m.val[i]?
  set m i a := if i < n then some ⟨m.val.set i a, by rw [List.length_set, m.2]⟩ else none

theorem holds_block {n : ℕ} : Holds (fun (m : Block τ n) xs => m.val = xs) where
  size := by rintro m _ rfl; exact m.2.symm
  get := by rintro m _ rfl i; rfl
  set := by
    rintro m _ rfl i a
    simp only [Indexed.set, m.2]
    split_ifs
    · exact .some rfl
    · exact .none

/-- `fixed_spill_vector<T, Spill>`, over a store of any kind. -/
structure FixedSpillVector (τ : Type) (spill : ℕ) (ι : Type) where
  memFillPtr : ℤ
  mem : Block τ spill
  fil : ι

namespace FixedSpillVector

/-- A new one, whatever the array holds. -/
def fresh (mem : Block τ spill) (fil : ι) : FixedSpillVector τ spill ι := ⟨-1, mem, fil⟩

/-- `mem_is_full`. -/
def memIsFull (v : FixedSpillVector τ spill ι) : Bool := v.memFillPtr ≥ (spill : ℤ) - 1

/-- How many items are in memory. -/
def memLen (v : FixedSpillVector τ spill ι) : ℕ := (v.memFillPtr + 1).toNat

/-- The items are those in the array and those in the store. -/
def Has (R : ι → List τ → Prop) (v : FixedSpillVector τ spill ι) (xs : List τ) : Prop :=
  ∃ zs ys, Divided spill zs ys xs ∧ Filled (fun (m : Block τ spill) ws => m.val = ws) spill v.mem v.memFillPtr zs ∧
    R v.fil ys

theorem has_fresh {R : ι → List τ → Prop} (mem : Block τ spill) {fil : ι} (h : R fil []) :
    Has R (fresh mem fil) [] :=
  ⟨[], [], .nil, .empty rfl mem.2, h⟩

theorem memIsFull_iff {v : FixedSpillVector τ spill ι} {zs : List τ}
    (h : Filled (fun (m : Block τ spill) ws => m.val = ws) spill v.mem v.memFillPtr zs) :
    v.memIsFull ↔ zs.length = spill := by
  have hle := h.le
  rw [memIsFull, h.ptr_eq, decide_eq_true_eq]
  omega

variable [StackOps ι τ]

/-- `size`. -/
def size (v : FixedSpillVector τ spill ι) : ℕ := StackOps.size v.fil + v.memLen

instance : StackOps (FixedSpillVector τ spill ι) τ where
  size := size
  pushBack v value :=
    if v.memIsFull then (StackOps.pushBack v.fil value).map fun f => { v with fil := f }
    else (setAt v.mem (v.memFillPtr + 1) value).map fun m => ⟨v.memFillPtr + 1, m, v.fil⟩
  popBack v :=
    if v.size = 0 then some v
    else if StackOps.size v.fil ≠ 0 then (StackOps.popBack v.fil).map fun f => { v with fil := f }
    else some { v with memFillPtr := v.memFillPtr - 1 }
  back v :=
    if v.size = 0 then none
    else if StackOps.size v.fil ≠ 0 then (StackOps.back v.fil).map fun (a, f) => (a, { v with fil := f })
    else (getAt v.mem v.memFillPtr).map fun a => (a, v)

theorem size_eq {v : FixedSpillVector τ spill ι} {zs ys xs : List τ} (hd : Divided spill zs ys xs)
    (hm : Filled (fun (m : Block τ spill) ws => m.val = ws) spill v.mem v.memFillPtr zs)
    (hfil : StackOps.size v.fil = ys.length) : v.size = xs.length := by
  rw [size, memLen, hfil, hm.count, Nat.add_comm, hd.length]

end FixedSpillVector

section Fixed

variable [StackOps ι τ] {cap : ℕ∞} {F D B : ι → List τ → Prop}

open FixedSpillVector in
/-- **Over a store that stands for a stack the vector stands for one.** -/
theorem stackLike_fixedSpillVector (hS : StackLike cap F D B) :
    StackLike (spill + cap) (Has F : FixedSpillVector τ spill ι → List τ → Prop) (Has D) (Has B) where
  size {v xs} h := by
    rcases h with ⟨zs, ys, hd, hm, hs⟩ | ⟨zs, ys, hd, hm, hs⟩
    · exact size_eq hd hm (hS.size (.inl hs))
    · exact size_eq hd hm (hS.size (.inr hs))
  push {v xs} h hroom a := by
    obtain ⟨zs, ys, hd, hm, hs⟩ := h
    by_cases hfull : zs.length = spill
    · obtain ⟨f, hf, hs'⟩ := hS.push hs (hd.room hfull hroom) a
      refine ⟨⟨v.memFillPtr, v.mem, f⟩, ?_, zs, a :: ys, hd.push_store hfull a, hm, hs'⟩
      simp only [StackOps.pushBack, if_pos ((memIsFull_iff hm).mpr hfull), hf, Option.map_some]
    · have hlt : zs.length < spill := lt_of_le_of_ne hd.le hfull
      obtain rfl := hd.store_nil hlt
      obtain ⟨m, hset, hm'⟩ := hm.set holds_block hlt a
      refine ⟨⟨v.memFillPtr + 1, m, v.fil⟩, ?_, a :: zs, [], hd.push_memory hlt a, hm', hs⟩
      simp only [StackOps.pushBack, if_neg (mt (memIsFull_iff hm).mp hfull), hset, Option.map_some]
  back {v a xs} h := by
    obtain ⟨zs, ys, hd, hm, hs⟩ := h
    have hfil := hS.size (.inl hs)
    have hne : v.size ≠ 0 := (size_eq hd hm hfil).trans_ne (Nat.succ_ne_zero _)
    rcases hd.last with ⟨ys', rfl, -⟩ | ⟨rfl, zs', rfl, -⟩
    · have hfil' : StackOps.size v.fil ≠ 0 := by
        rw [hfil]
        exact Nat.succ_ne_zero _
      obtain ⟨f, hf, hs'⟩ := hS.back hs
      refine ⟨⟨v.memFillPtr, v.mem, f⟩, ?_, zs, a :: ys', hd, hm, hs'⟩
      simp only [StackOps.back, if_neg hne, if_pos hfil', hf, Option.map_some]
    · have hfil' : ¬ StackOps.size v.fil ≠ 0 := not_not_intro hfil
      refine ⟨v, ?_, a :: zs', [], hd, hm, hS.nil.mp hs⟩
      simp only [StackOps.back, if_neg hne, if_neg hfil', hm.get holds_block, Option.map_some]
  pop {v a xs} h := by
    obtain ⟨zs, ys, hd, hm, hs⟩ := h
    have hfil := hS.size (.inr hs)
    have hne : v.size ≠ 0 := (size_eq hd hm hfil).trans_ne (Nat.succ_ne_zero _)
    rcases hd.last with ⟨ys', rfl, hd'⟩ | ⟨rfl, zs', rfl, hd'⟩
    · have hfil' : StackOps.size v.fil ≠ 0 := by
        rw [hfil]
        exact Nat.succ_ne_zero _
      obtain ⟨f, hf, hs'⟩ := hS.pop hs
      refine ⟨⟨v.memFillPtr, v.mem, f⟩, ?_, zs, ys', hd', hm, hs'⟩
      simp only [StackOps.popBack, if_neg hne, if_pos hfil', hf, Option.map_some]
    · have hfil' : ¬ StackOps.size v.fil ≠ 0 := not_not_intro hfil
      refine ⟨⟨v.memFillPtr - 1, v.mem, v.fil⟩, ?_, zs', [], hd', hm.pop, hS.nil.mpr hs⟩
      simp only [StackOps.popBack, if_neg hne, if_neg hfil']
  drain h := by
    obtain ⟨zs, ys, hd, hm, hs⟩ := h
    exact ⟨zs, ys, hd, hm, hS.drain hs⟩
  nil {v} := by
    have key : ∀ {P Q : ι → List τ → Prop}, (P v.fil [] → Q v.fil []) → Has P v [] → Has Q v [] := by
      rintro P Q hPQ ⟨zs, ys, hd, hm, hs⟩
      obtain ⟨rfl, rfl⟩ := List.append_eq_nil_iff.mp hd.append
      exact ⟨[], [], hd, hm, hPQ hs⟩
    exact ⟨key hS.nil.mp, key hS.nil.mpr⟩

end Fixed

/-! ### A vector and a store -/

/-- The default constructor of a type. It fails where the constructor panics. -/
class DefaultConstruct (ι : Type) where
  make : Option ι

/-- `shunt<T, Shunt>`, over a store of any kind. The memory has its last item first. -/
structure Shunt (τ ι : Type) where
  spillAt : ℕ
  mem : List τ
  fil : Option ι

namespace Shunt

/-- A new one without a store. -/
def lazily (spillAt : ℕ) : Shunt τ ι := ⟨spillAt, [], none⟩

/-- A new one over this store. -/
def given (spillAt : ℕ) (into : ι) : Shunt τ ι := ⟨spillAt, [], some into⟩

/-- `mem.back`. -/
def memBack (v : Shunt τ ι) : Option (τ × Shunt τ ι) := v.mem.head?.map fun a => (a, v)

/-- `mem.pop_back`. -/
def memPopBack (v : Shunt τ ι) : Option (Shunt τ ι) :=
  if v.mem = [] then none else some { v with mem := v.mem.tail }

section Stored

variable [DefaultConstruct ι] {R : ι → List τ → Prop}

/-- The store holds `ys`, or there is none, `ys` is empty and so will be the store
that is constructed. -/
def Stored (R : ι → List τ → Prop) (fil : Option ι) (ys : List τ) : Prop :=
  (fil = none → ys = []) ∧ ∃ f, fil.elim DefaultConstruct.make some = some f ∧ R f ys

theorem stored_some {f : ι} {ys : List τ} (h : R f ys) : Stored R (some f) ys :=
  ⟨fun e => absurd e (Option.some_ne_none f), f, rfl, h⟩

theorem stored_none {f : ι} (hf : DefaultConstruct.make = some f) (h : R f []) :
    Stored R none ([] : List τ) :=
  ⟨fun _ => rfl, f, hf, h⟩

theorem Stored.mono {S : ι → List τ → Prop} {fil : Option ι} {ys : List τ} (h : Stored R fil ys)
    (hRS : ∀ f, R f ys → S f ys) : Stored S fil ys := by
  obtain ⟨habsent, f, hf, hR⟩ := h
  exact ⟨habsent, f, hf, hRS f hR⟩

/-- The items are those in memory and those in the store. -/
def Has (spill : ℕ) (R : ι → List τ → Prop) (v : Shunt τ ι) (xs : List τ) : Prop :=
  v.spillAt = spill ∧ ∃ ys, Divided spill v.mem ys xs ∧ Stored R v.fil ys

theorem has_given {into : ι} (h : R into []) : Has spill R (given spill into : Shunt τ ι) [] :=
  ⟨rfl, [], .nil, stored_some h⟩

theorem has_lazily {f : ι} (hf : DefaultConstruct.make = some f) (h : R f []) :
    Has spill R (lazily spill : Shunt τ ι) [] :=
  ⟨rfl, [], .nil, stored_none hf h⟩

end Stored

variable [StackOps ι τ]

/-- How many items are in the store. -/
def filLen (v : Shunt τ ι) : ℕ := v.fil.elim 0 StackOps.size

/-- `size`. -/
def size (v : Shunt τ ι) : ℕ := v.mem.length + v.filLen

/-- `is_full`. -/
def isFull (v : Shunt τ ι) : Bool := v.size ≥ v.spillAt

theorem size_eq {v : Shunt τ ι} {ys xs : List τ} (hd : Divided spill v.mem ys xs)
    (hlen : v.filLen = ys.length) :
    v.size = xs.length := by
  rw [size, hlen, hd.length]

theorem isFull_iff {v : Shunt τ ι} {ys xs : List τ} (hspill : v.spillAt = spill)
    (hd : Divided spill v.mem ys xs) (hlen : v.filLen = ys.length) :
    v.isFull ↔ v.mem.length = spill := by
  rw [isFull, decide_eq_true_eq, size, hlen, hspill]
  exact hd.full_iff

variable [DefaultConstruct ι]

/-- `spl`. A null pointer is `none`, as is a constructor that panics. -/
def spl (v : Shunt τ ι) : Option ι :=
  if v.isFull then v.fil.elim DefaultConstruct.make some else v.fil

instance : StackOps (Shunt τ ι) τ where
  size := size
  pushBack v value :=
    if v.isFull then v.spl.bind fun f => (StackOps.pushBack f value).map fun f => { v with fil := some f }
    else some { v with mem := value :: v.mem }
  popBack v :=
    if v.isFull then v.spl.bind fun f =>
      if StackOps.size f ≠ 0 then (StackOps.popBack f).map fun f => { v with fil := some f }
      else memPopBack { v with fil := some f }
    else v.memPopBack
  back v :=
    if v.isFull then v.spl.bind fun f =>
      if StackOps.size f ≠ 0 then (StackOps.back f).map fun (a, f) => (a, { v with fil := some f })
      else memBack { v with fil := some f }
    else v.memBack

variable {R : ι → List τ → Prop} {v : Shunt τ ι}

theorem filLen_eq {ys : List τ} (h : Stored R v.fil ys)
    (hR : ∀ f, R f ys → StackOps.size f = ys.length) :
    v.filLen = ys.length := by
  obtain ⟨habsent, f, hf, hs⟩ := h
  rw [filLen]
  cases hfil : v.fil with
  | none => rw [habsent hfil]; rfl
  | some g =>
    rw [hfil] at hf
    cases hf
    exact hR _ hs

/-- When the memory is full the store is there, or is constructed. -/
theorem exists_spl {ys : List τ} (hfull : v.isFull) (h : Stored R v.fil ys) :
    ∃ f, v.spl = some f ∧ R f ys := by
  obtain ⟨-, f, hf, hs⟩ := h
  exact ⟨f, by rw [spl, if_pos hfull, hf], hs⟩

end Shunt

section Shunt

variable [StackOps ι τ] [DefaultConstruct ι] {cap : ℕ∞} {F D B : ι → List τ → Prop}

open Shunt in
/-- **Over a store that stands for a stack the shunt stands for one.** -/
theorem stackLike_shunt (hS : StackLike cap F D B) :
    StackLike (spill + cap) (Has spill F : Shunt τ ι → List τ → Prop) (Has spill D) (Has spill B) where
  size h := by
    rcases h with ⟨-, ys, hd, hs⟩ | ⟨-, ys, hd, hs⟩
    · exact size_eq hd (filLen_eq hs fun f h => hS.size (.inl h))
    · exact size_eq hd (filLen_eq hs fun f h => hS.size (.inr h))
  push {v xs} h hroom a := by
    obtain ⟨hspill, ys, hd, hs⟩ := h
    have hfull := isFull_iff hspill hd (filLen_eq hs fun f h => hS.size (.inl (hS.drain h)))
    by_cases hmem : v.mem.length = spill
    · obtain ⟨f, hf, hF⟩ := exists_spl (hfull.mpr hmem) hs
      obtain ⟨f', hf', hF'⟩ := hS.push hF (hd.room hmem hroom) a
      refine ⟨⟨v.spillAt, v.mem, some f'⟩, ?_, hspill, a :: ys, hd.push_store hmem a, stored_some hF'⟩
      simp only [StackOps.pushBack, if_pos (hfull.mpr hmem), hf, Option.bind_some, hf', Option.map_some]
    · have hlt : v.mem.length < spill := lt_of_le_of_ne hd.le hmem
      obtain rfl := hd.store_nil hlt
      refine ⟨⟨v.spillAt, a :: v.mem, v.fil⟩, ?_, hspill, [], hd.push_memory hlt a, hs⟩
      simp only [StackOps.pushBack, if_neg (mt hfull.mp hmem)]
  back {v a xs} h := by
    obtain ⟨hspill, ys, hd, hs⟩ := h
    have hfull := isFull_iff hspill hd (filLen_eq hs fun f h => hS.size (.inl h))
    rcases hd.last with ⟨ys', rfl, -⟩ | ⟨rfl, zs', hzs, -⟩
    · have hmem := hd.full (List.cons_ne_nil a ys')
      obtain ⟨f, hf, hD⟩ := exists_spl (hfull.mpr hmem) hs
      have hne : StackOps.size f ≠ 0 := (hS.size (.inl hD)).trans_ne (Nat.succ_ne_zero _)
      obtain ⟨f', hf', hB⟩ := hS.back hD
      refine ⟨⟨v.spillAt, v.mem, some f'⟩, ?_, hspill, a :: ys', hd, stored_some hB⟩
      simp only [StackOps.back, if_pos (hfull.mpr hmem), hf, Option.bind_some, if_pos hne, hf', Option.map_some]
    · by_cases hmem : v.mem.length = spill
      · obtain ⟨f, hf, hD⟩ := exists_spl (hfull.mpr hmem) hs
        have hz : ¬ StackOps.size f ≠ 0 := not_not_intro (hS.size (.inl hD))
        refine ⟨⟨v.spillAt, v.mem, some f⟩, ?_, hspill, [], hd, stored_some (hS.nil.mp hD)⟩
        simp only [StackOps.back, if_pos (hfull.mpr hmem), hf, Option.bind_some, if_neg hz, memBack, hzs,
          List.head?_cons, Option.map_some]
      · refine ⟨v, ?_, hspill, [], hd, hs.mono fun f => hS.nil.mp⟩
        simp only [StackOps.back, if_neg (mt hfull.mp hmem), memBack, hzs, List.head?_cons, Option.map_some]
  pop {v a xs} h := by
    obtain ⟨hspill, ys, hd, hs⟩ := h
    have hfull := isFull_iff hspill hd (filLen_eq hs fun f h => hS.size (.inr h))
    rcases hd.last with ⟨ys', rfl, hd'⟩ | ⟨rfl, zs', hzs, hd'⟩
    · have hmem := hd.full (List.cons_ne_nil a ys')
      obtain ⟨f, hf, hB⟩ := exists_spl (hfull.mpr hmem) hs
      have hne : StackOps.size f ≠ 0 := (hS.size (.inr hB)).trans_ne (Nat.succ_ne_zero _)
      obtain ⟨f', hf', hD⟩ := hS.pop hB
      refine ⟨⟨v.spillAt, v.mem, some f'⟩, ?_, hspill, ys', hd', stored_some hD⟩
      simp only [StackOps.popBack, if_pos (hfull.mpr hmem), hf, Option.bind_some, if_pos hne, hf', Option.map_some]
    · have hcons : v.mem ≠ [] := hzs ▸ List.cons_ne_nil a zs'
      have htail : v.mem.tail = zs' := by rw [hzs, List.tail_cons]
      by_cases hmem : v.mem.length = spill
      · obtain ⟨f, hf, hB⟩ := exists_spl (hfull.mpr hmem) hs
        have hz : ¬ StackOps.size f ≠ 0 := not_not_intro (hS.size (.inr hB))
        refine ⟨⟨v.spillAt, zs', some f⟩, ?_, hspill, [], hd', stored_some (hS.nil.mpr hB)⟩
        simp only [StackOps.popBack, if_pos (hfull.mpr hmem), hf, Option.bind_some, if_neg hz, memPopBack,
          if_neg hcons, htail]
      · refine ⟨⟨v.spillAt, zs', v.fil⟩, ?_, hspill, [], hd', hs.mono fun f => hS.nil.mpr⟩
        simp only [StackOps.popBack, if_neg (mt hfull.mp hmem), memPopBack, if_neg hcons, htail]
  drain h := by
    obtain ⟨hspill, ys, hd, hs⟩ := h
    exact ⟨hspill, ys, hd, hs.mono fun f => hS.drain⟩
  nil {v} := by
    have key : ∀ {P Q : ι → List τ → Prop}, (∀ f, P f [] → Q f []) → Has spill P v [] → Has spill Q v [] := by
      rintro P Q hPQ ⟨hspill, ys, hd, hs⟩
      obtain ⟨rfl, -⟩ := List.append_eq_nil_iff.mp hd.append
      exact ⟨hspill, [], hd, hs.mono hPQ⟩
    exact ⟨key fun f => hS.nil.mp, key fun f => hS.nil.mpr⟩

omit [DefaultConstruct ι] in
theorem Shunt.not_isFull {xs : List τ} (h : xs.length < spill) :
    ¬ isFull (⟨spill, xs, none⟩ : Shunt τ ι) := by
  rw [isFull, decide_eq_true_eq]
  exact Nat.not_le.mpr h

open Shunt in
/-- **A shunt that is never full does not construct its store**: it stands for a
stack of fewer items than fit in its memory, whatever the constructor does. -/
theorem stackLike_shunt_unfilled :
    IsStack (spill - 1 : ℕ) fun (v : Shunt τ ι) xs => v = ⟨spill, xs, none⟩ ∧
      xs.length < spill where
  size h := by
    obtain ⟨rfl, -⟩ := or_self_iff.mp h
    rfl
  push {v xs} h hroom a := by
    obtain ⟨rfl, hlt⟩ := h
    have hroom' : xs.length < spill - 1 := by exact_mod_cast hroom
    refine ⟨⟨spill, a :: xs, none⟩, ?_, rfl, ?_⟩
    · simp only [StackOps.pushBack, if_neg (not_isFull hlt)]
    · rw [List.length_cons]
      omega
  back {v a xs} h := by
    obtain ⟨rfl, hlt⟩ := h
    refine ⟨⟨spill, a :: xs, none⟩, ?_, rfl, hlt⟩
    simp only [StackOps.back, if_neg (not_isFull hlt), memBack, List.head?_cons, Option.map_some]
  pop {v a xs} h := by
    obtain ⟨rfl, hlt⟩ := h
    refine ⟨⟨spill, xs, none⟩, ?_, rfl, Nat.lt_of_succ_lt hlt⟩
    simp only [StackOps.popBack, if_neg (not_isFull hlt), memPopBack,
      if_neg (List.cons_ne_nil a xs), List.tail_cons]
  drain h := h
  nil := Iff.rfl

end Shunt

/-! ### Runs -/

/-- A container of `n` items, `memLen` of them in memory and `filLen` in the store. -/
structure Parts (spill memLen filLen size n : ℕ) : Prop where
  /-- The store has items only while the memory is full. -/
  full : filLen ≠ 0 → memLen = spill
  sum : size = memLen + filLen
  all : size = n

theorem Divided.parts {zs ys xs : List τ} (h : Divided spill zs ys xs) :
    Parts spill zs.length ys.length (zs.length + ys.length) xs.length :=
  ⟨fun hne => h.full fun e => hne (congrArg List.length e), rfl, h.length⟩

section Runs

variable [StackOps ι τ] {R : ι → List τ → Prop}

theorem FixedSpillVector.Has.parts (hR : IsStack ⊤ R) {v : FixedSpillVector τ spill ι} {xs : List τ}
    (h : FixedSpillVector.Has R v xs) :
    Parts spill v.memLen (StackOps.size v.fil) (StackOps.size v) xs.length := by
  obtain ⟨zs, ys, hd, hm, hs⟩ := h
  have hsize : StackOps.size v = StackOps.size v.fil + v.memLen := rfl
  rw [hsize, Nat.add_comm, hR.size (.inl hs), memLen, hm.count]
  exact hd.parts

theorem Shunt.Has.parts [DefaultConstruct ι] (hR : IsStack ⊤ R) {v : Shunt τ ι} {xs : List τ}
    (h : Shunt.Has spill R v xs) :
    Parts spill v.mem.length v.filLen (StackOps.size v) xs.length := by
  obtain ⟨-, ys, hd, hs⟩ := h
  have hsize : StackOps.size v = v.mem.length + v.filLen := rfl
  rw [hsize, filLen_eq hs fun f h => hR.size (.inl h)]
  exact hd.parts

/-- **The two spilling containers are one stack.** Over any store that is a stack,
with any threshold and with the store given or constructed when it is needed, they
answer every run as a list does. In every state the store has items only while the
memory holds as many as the threshold, and the size is that of both parts. -/
theorem spillVectors_run [DefaultConstruct ι] (hR : IsStack ⊤ R) {cs : List (Call τ)}
    (hp : Proper 0 cs) :
    ∃ as ys, Call.run ([] : List τ) cs = some (as, ys) ∧
      (∀ (spill : ℕ) (mem : Block τ spill) (fil : ι), R fil [] →
        ∃ w, Call.run (FixedSpillVector.fresh mem fil) cs = some (as, w) ∧
          Parts spill w.memLen (StackOps.size w.fil) (StackOps.size w) ys.length) ∧
      (∀ (spill : ℕ) (fil : ι), R fil [] →
        ∃ w, Call.run (Shunt.given spill fil) cs = some (as, w) ∧
          Parts spill w.mem.length w.filLen (StackOps.size w) ys.length) ∧
      (∀ (spill : ℕ) (fil : ι), DefaultConstruct.make = some fil → R fil [] →
        ∃ w : Shunt τ ι, Call.run (Shunt.lazily spill) cs = some (as, w) ∧
          Parts spill w.mem.length w.filLen (StackOps.size w) ys.length) := by
  obtain ⟨as, ys, hrun⟩ : ∃ as ys, Call.run ([] : List τ) cs = some (as, ys) := Proper.exists_run hp
  have hfixed (spill : ℕ) : IsStack ⊤ (FixedSpillVector.Has R : FixedSpillVector τ spill ι → List τ → Prop) :=
    add_top (spill : ℕ∞) ▸ stackLike_fixedSpillVector hR
  have hshunt (spill : ℕ) : IsStack ⊤ (Shunt.Has spill R : Shunt τ ι → List τ → Prop) :=
    add_top (spill : ℕ∞) ▸ stackLike_shunt hR
  refine ⟨as, ys, hrun, fun spill mem fil h => ?_, fun spill fil h => ?_, fun spill fil hf h => ?_⟩
  · obtain ⟨w, hw, hhas⟩ := (hfixed spill).run (FixedSpillVector.has_fresh mem h) hp hrun
    exact ⟨w, hw, hhas.parts hR⟩
  · obtain ⟨w, hw, hhas⟩ := (hshunt spill).run (Shunt.has_given h) hp hrun
    exact ⟨w, hw, hhas.parts hR⟩
  · obtain ⟨w, hw, hhas⟩ := (hshunt spill).run (Shunt.has_lazily hf h) hp hrun
    exact ⟨w, hw, hhas.parts hR⟩

end Runs

/-- A new plain stack is empty. -/
instance : DefaultConstruct (List τ) := ⟨some []⟩

/-- Three items with room for two in memory: the third makes the shunt construct its store. -/
theorem spillVectors_run_three :
    ∃ w : Shunt ℕ (List ℕ),
      Call.run (Shunt.lazily 2)
        [.pushBack 1, .pushBack 2, .pushBack 3, .back, .popBack, .back, .popBack, .back, .size] =
          some ([.done, .done, .done, .item 3, .done, .item 2, .done, .item 1, .count 1], w) ∧
        Parts 2 w.mem.length w.filLen (StackOps.size w) 1 := by
  have hp : Proper 0
      [.pushBack 1, .pushBack 2, .pushBack 3, .back, .popBack, .back, .popBack, .back, (.size : Call ℕ)] := by
    simp [Proper]
  obtain ⟨as, ys, hrun, -, -, hlazily⟩ := spillVectors_run isStack_list hp
  cases hrun
  exact hlazily 2 [] rfl rfl

end Shuffle3.V2
