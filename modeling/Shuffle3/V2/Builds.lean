import Shuffle3.V2.FileVector
import Shuffle3.V2.Spill
import Shuffle3.V2.Shuffle

/-!
# The builds of unshuffling

`rng::unshuffle` is built with one of four containers for its draws: a plain
vector, an array that spills into a file, a vector that spills into a file, or one
that spills into a mapping whose size is what the span needs beyond the memory.

## What is proved

* `isStack_mappedVector` — the mapping is a stack with room for as many items as
  it was made for.
* `Build.unshuffle_eq` — in every build unshuffling is drawing, and then the run of
  exchanges in reverse.
* `builds_agree` — the builds agree, and each undoes shuffling.

## Honest scope

Mapping a file succeeds unless it is empty. The threshold is a parameter; memory
that is only reserved is not modelled.
-/

namespace Shuffle3.V2

open Foundations

/-! ### The vector in a mapping -/

variable {τ : Type} [Layout τ]

/-- `mapped_vector<T>`. -/
structure MappedVector (τ : Type) [Layout τ] where
  sz : ℕ
  fillPtr : ℤ
  map : Overlay Byte (Layout.sizeof τ)

namespace MappedVector

/-- `from_temp`. A new file is all zeros, and an empty one cannot be mapped. -/
def fromTemp (τ : Type) [Layout τ] (sz : ℕ) : Option (MappedVector τ) :=
  if sz * Layout.sizeof τ = 0 then none else some ⟨sz, -1, ⟨List.replicate (sz * Layout.sizeof τ) 0#8⟩⟩

/-- `is_full`. -/
def isFull (v : MappedVector τ) : Bool := v.fillPtr ≥ (v.sz : ℤ) - 1

instance : StackOps (MappedVector τ) τ where
  size v := (v.fillPtr + 1).toNat
  pushBack v value :=
    if v.isFull then none
    else (setAt v.map (v.fillPtr + 1) (Layout.toBytes value)).map fun m => ⟨v.sz, v.fillPtr + 1, m⟩
  popBack v := some (if v.fillPtr ≥ 0 then { v with fillPtr := v.fillPtr - 1 } else v)
  back v := if v.fillPtr ≥ 0 then (getAt v.map v.fillPtr).map fun b => (Layout.ofBytes b, v) else none

/-- The default constructor panics. -/
instance : DefaultConstruct (MappedVector τ) := ⟨none⟩

/-- The items are those in the mapping, which has room for `cap`. -/
def Has (cap : ℕ) (v : MappedVector τ) (xs : List τ) : Prop :=
  v.sz = cap ∧ Filled (Overlay.Has []) cap v.map v.fillPtr (xs.map Layout.toBytes)

theorem exists_fromTemp {cap : ℕ} (h : 0 < cap) :
    ∃ v : MappedVector τ, fromTemp τ cap = some v ∧ Has cap v [] := by
  have hw := Layout.sizeof_pos (τ := τ)
  have hblocks :=
    Overlay.has_blocks (w := Layout.sizeof τ) (List.replicate (cap * Layout.sizeof τ) 0#8)
  have hrest : rest (Layout.sizeof τ) (List.replicate (cap * Layout.sizeof τ) 0#8) = [] := by
    rw [← List.length_eq_zero_iff, length_rest, List.length_replicate, Nat.mul_mod_left]
  rw [hrest] at hblocks
  refine ⟨_, if_neg (Nat.mul_pos h hw).ne', rfl, .empty hblocks ?_⟩
  rw [length_blocks, List.length_replicate, Nat.mul_div_cancel _ hw]

theorem isFull_iff {cap : ℕ} {v : MappedVector τ} {xs : List τ} (h : Has cap v xs) :
    v.isFull ↔ cap ≤ xs.length := by
  obtain ⟨hsz, hm⟩ := h
  have hptr := hm.ptr_eq
  rw [List.length_map] at hptr
  rw [isFull, decide_eq_true_eq, hptr, hsz]
  omega

theorem fillPtr_nonneg {cap : ℕ} {v : MappedVector τ} {a : τ} {xs : List τ}
    (h : Has cap v (a :: xs)) :
    v.fillPtr ≥ 0 := by
  have hptr := h.2.ptr_eq
  rw [List.map_cons, List.length_cons] at hptr
  omega

end MappedVector

open MappedVector in
/-- **The mapping is a stack** with room for as many items as it was made for. -/
theorem isStack_mappedVector (cap : ℕ) :
    IsStack cap (Has cap : MappedVector τ → List τ → Prop) where
  size {v xs} h := by
    have hcount := (or_self_iff.mp h).2.count
    rwa [List.length_map] at hcount
  push {v xs} h hroom a := by
    have hlt : xs.length < cap := by exact_mod_cast hroom
    have hfull := mt (isFull_iff h).mp (Nat.not_le.mpr hlt)
    obtain ⟨hsz, hm⟩ := h
    have hlt' : (xs.map Layout.toBytes).length < cap := by rwa [List.length_map]
    obtain ⟨m, hset, hm'⟩ := hm.set (holds_overlay Layout.sizeof_pos) hlt' (Layout.toBytes a)
    refine ⟨⟨v.sz, v.fillPtr + 1, m⟩, ?_, hsz, hm'⟩
    simp only [StackOps.pushBack, if_neg hfull, hset, Option.map_some]
  back {v a xs} h := by
    have hptr := fillPtr_nonneg h
    obtain ⟨hsz, hm⟩ := h
    refine ⟨v, ?_, hsz, hm⟩
    simp only [StackOps.back, if_pos hptr, hm.get (holds_overlay Layout.sizeof_pos), Option.map_some,
      Layout.ofBytes_toBytes]
  pop {v a xs} h := by
    have hptr := fillPtr_nonneg h
    obtain ⟨hsz, hm⟩ := h
    exact ⟨⟨v.sz, v.fillPtr - 1, v.map⟩, by simp only [StackOps.popBack, if_pos hptr], hsz, hm.pop⟩
  drain h := h
  nil := Iff.rfl

/-! ### The builds -/

/-- A new `file_vector` can be made at any time. -/
instance : DefaultConstruct (FileVector τ) := ⟨some (FileVector.fresh τ)⟩

/-- The container of the build with `fixed_spill_vector`. -/
def fixedVector (spill : ℕ) (_ : ℕ) :
    Option (FixedSpillVector (BitVec 64) spill (FileVector (BitVec 64))) :=
  some (.fresh ⟨List.replicate spill 0#64, List.length_replicate⟩ (.fresh (BitVec 64)))

/-- The container of the build with `dynamic_spill_vector`. Long spans and short ones
differ in the memory that is reserved. -/
def dynamicVector (spill : ℕ) (_ : ℕ) : Option (Shunt (BitVec 64) (FileVector (BitVec 64))) :=
  some (.lazily spill)

/-- The container of the build with `mapped_spill_vector`, for a span of `n` elements. -/
def mappedVector (spill : ℕ) (n : ℕ) : Option (Shunt (BitVec 64) (MappedVector (BitVec 64))) :=
  if n ≤ spill then some (.lazily spill) else (MappedVector.fromTemp (BitVec 64) (n - spill)).map (.given spill)

/-- The values of `_FS_SPILL_BUFFER`, and without it. -/
inductive Build where
  /-- `spill=none`. -/
  | plain
  /-- `spill=static`. -/
  | fixed
  /-- `spill=dyn`. -/
  | dynamic
  /-- `spill=map`. -/
  | mapped
  deriving DecidableEq

variable {α μ σ : Type} [Indexed μ α]

/-- `rng::unshuffle` as built, where `spill` is `FSV_DEFAULT_SPILL_AT`. -/
def Build.unshuffle (spill : ℕ) (next : NextLong (BitVec 64) σ) (span : μ) (s : σ) :
    Build → Option (μ × σ)
  | .plain => V2.unshuffle next (plainVector (BitVec 64)) span s
  | .fixed => V2.unshuffle next (fixedVector spill) span s
  | .dynamic => V2.unshuffle next (dynamicVector spill) span s
  | .mapped => V2.unshuffle next (mappedVector spill) span s

/-- A store without bounds has room for all. -/
theorem le_add_top (n spill : ℕ) : (n : ℕ∞) ≤ spill + ⊤ := by
  rw [add_top]
  exact le_top

theorem fixedVector_eq (spill : ℕ) (next : NextLong (BitVec 64) σ) (span : μ) (s : σ) :
    unshuffle next (fixedVector spill) span s = drawAndExchange next true span s :=
  unshuffle_eq (stackLike_fixedSpillVector stackLike_fileVector) next span s rfl
    (FixedSpillVector.has_fresh _ ready_fresh.1) (le_add_top _ spill)

theorem dynamicVector_eq (spill : ℕ) (next : NextLong (BitVec 64) σ) (span : μ) (s : σ) :
    unshuffle next (dynamicVector spill) span s = drawAndExchange next true span s :=
  unshuffle_eq (stackLike_shunt stackLike_fileVector) next span s rfl (Shunt.has_lazily rfl ready_fresh.1)
    (le_add_top _ spill)

/-- A span that fits in memory leaves the mapping alone; another brings a mapping
with room for its draws. -/
theorem mappedVector_eq {spill : ℕ} (hspill : 0 < spill) (next : NextLong (BitVec 64) σ) (span : μ)
    (s : σ) :
    unshuffle next (mappedVector spill) span s = drawAndExchange next true span s := by
  by_cases h : Indexed.size span ≤ spill
  · have hcap : ((Indexed.size span - 1 : ℕ) : ℕ∞) ≤ (spill - 1 : ℕ) := by
      exact_mod_cast Nat.sub_le_sub_right h 1
    exact unshuffle_eq stackLike_shunt_unfilled next span s (if_pos h) ⟨rfl, hspill⟩ hcap
  · obtain ⟨v, hv, hhas⟩ :=
      MappedVector.exists_fromTemp (τ := BitVec 64) (Nat.sub_pos_of_lt (Nat.lt_of_not_le h))
    have hvalues : mappedVector spill (Indexed.size span) = some (.given spill v) := by
      rw [mappedVector, if_neg h, hv, Option.map_some]
    have hcap : ((Indexed.size span - 1 : ℕ) : ℕ∞) ≤ spill + (Indexed.size span - spill : ℕ) := by
      exact_mod_cast (by omega : Indexed.size span - 1 ≤ spill + (Indexed.size span - spill))
    exact unshuffle_eq (stackLike_shunt (isStack_mappedVector _)) next span s hvalues
      (Shunt.has_given hhas) hcap

/-- **In every build unshuffling is drawing, and then the run of exchanges in reverse.** -/
theorem Build.unshuffle_eq {spill : ℕ} (hspill : 0 < spill) (next : NextLong (BitVec 64) σ)
    (span : μ) (s : σ) (b : Build) :
    b.unshuffle spill next span s = drawAndExchange next true span s := by
  cases b with
  | plain => exact unshuffle_plain_eq next span s
  | fixed => exact fixedVector_eq spill next span s
  | dynamic => exact dynamicVector_eq spill next span s
  | mapped => exact mappedVector_eq hspill next span s

/-- **The four builds agree, and each undoes shuffling.** From one state of a
generator that stays in range they leave one span and one state, without a panic,
which is what the default constructor of `mapped_vector` would be. -/
theorem builds_agree {spill : ℕ} (hspill : 0 < spill) {step : ℕ → σ → BitVec 64 × σ}
    (hrange : ∀ i s, (step i s).1.toNat ≤ i) (xs : List α) (s : σ) :
    ∃ ys zs s', shuffle (fun i s => some (step i s)) xs s = some (ys, s') ∧
      ∀ b : Build,
        b.unshuffle spill (fun i s => some (step i s)) xs s = some (zs, s') ∧
        b.unshuffle spill (fun i s => some (step i s)) ys s = some (xs, s') ∧
        shuffle (fun i s => some (step i s)) zs s = some (xs, s') := by
  have hin : InRange (fun i s => some (step i s)) (xs.length - 1) s :=
    inRange_of_forall (fun i s _ => ⟨_, _, rfl, hrange i s⟩) _ s
  obtain ⟨ys, s₁, hys⟩ := hin.exists false
  obtain ⟨zs, s₂, hzs⟩ := hin.exists true
  have hs : s₁ = s₂ := by
    obtain ⟨js, hjs, -⟩ := drawAndExchange_eq_some_iff.mp hys
    obtain ⟨ks, hks, -⟩ := drawAndExchange_eq_some_iff.mp hzs
    rw [hjs] at hks
    exact (Prod.mk.inj (Option.some.inj hks)).2
  subst hs
  refine ⟨ys, zs, s₁, by rw [shuffle_eq, hys], fun b => ⟨?_, ?_, ?_⟩⟩
  · rw [Build.unshuffle_eq hspill, hzs]
  · rw [Build.unshuffle_eq hspill]
    exact drawAndExchange_not hys
  · rw [shuffle_eq]
    exact drawAndExchange_not hzs

/-- Three elements with a threshold of one, so that of the two draws one spills. -/
theorem builds_agree_three :
    ∃ ys zs s',
      shuffle (fun i (s : ℕ) => some (BitVec.ofNat 64 (s % (i + 1)), s + 5)) [10, 20, 30] 7 = some (ys, s') ∧
      ∀ b : Build,
        b.unshuffle 1 (fun i (s : ℕ) => some (BitVec.ofNat 64 (s % (i + 1)), s + 5)) [10, 20, 30] 7 =
          some (zs, s') ∧
        b.unshuffle 1 (fun i (s : ℕ) => some (BitVec.ofNat 64 (s % (i + 1)), s + 5)) ys 7 =
          some ([10, 20, 30], s') ∧
        shuffle (fun i (s : ℕ) => some (BitVec.ofNat 64 (s % (i + 1)), s + 5)) zs 7 = some ([10, 20, 30], s') := by
  have hrange (i s : ℕ) : (BitVec.ofNat 64 (s % (i + 1))).toNat ≤ i := by
    rw [BitVec.toNat_ofNat]
    exact (Nat.mod_le _ _).trans (Nat.le_of_lt_succ (Nat.mod_lt s i.succ_pos))
  exact builds_agree Nat.one_pos hrange [10, 20, 30] 7

end Shuffle3.V2
