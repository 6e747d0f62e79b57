import Shuffle3.V2.Permutations
import Shuffle3.V2.Ranges
import Shuffle3.V2.Seeding

/-!
# The long stage is one cycle

The samples of `xoroshiro128plus` are below one, so every draw of the long stage is below
its index, and the exchanges put all the elements into one cycle. Which cycle is up to the
seeds and the number of the elements, and neither changes from pass to pass.

## What is proved

* `exists_draws_below` — the draws of a generator whose samples stay below one.
* `longPasses_cycle` — passes of the long stage go along one cycle of the elements,
  and unshuffling goes back along it.
* `longPasses_eq_self_iff` — after how many passes the file is as it was.
-/

namespace Shuffle3.V2

open Foundations Floating Equiv

/-! ### The draws -/

section Draws

variable {σ : Type} {sample : Sample σ} {n : ℕ}

theorem steps_toNat (js : List (BitVec 64)) : steps (js.map BitVec.toNat) = steps js := by
  induction js with
  | nil => rfl
  | cons j js ih =>
    rw [List.map_cons, steps, steps, ih, List.length_map]
    rfl

/-- **Samples below one draw below every index**, as far as a `double` has the indices. -/
theorem exists_draws_below (hn : n ≤ 2 ^ 53)
    (hsample : ∀ s, Between 0 (1 - 2 ^ (-53 : ℤ)) (sample s).1) (s : σ) :
    ∃ js s', draws (nextLong sample) n s = some (js, s') ∧ Below (js.map BitVec.toNat) := by
  induction n generalizing s with
  | zero => exact ⟨[], s, rfl, trivial⟩
  | succ i ih =>
    obtain ⟨hfin, hlo, hhi⟩ := hsample s
    have hunit : Between 0 1 (sample s).1 := ⟨hfin, hlo, hhi.trans (by norm_num)⟩
    have hlt : scaled (sample s).1.val (i + 1) < i + 1 := scaled_lt hlo hhi i.succ_pos
    obtain ⟨js, s', hdraws, hbelow⟩ := ih (by omega) (sample s).2
    have hnext := nextLong_eq hunit hn
    refine ⟨BitVec.ofNat 64 (scaled (sample s).1.val (i + 1)) :: js, s', ?_, ?_, hbelow⟩
    · simp [draws, hnext, hdraws]
    · rw [List.length_map, length_draws hdraws, BitVec.toNat_ofNat, Nat.mod_eq_of_lt (by omega)]
      exact hlt

end Draws

/-! ### Exchanges along the cycle and back -/

section Order

variable {α : Type} {n : ℕ} {js : List (BitVec 64)}

/-- The permutation that draws ask for, or the one that undoes it. -/
def orderPerm (n : ℕ) (un : Bool) (js : List (BitVec 64)) : Perm (Fin n) :=
  if un then (drawPerm n (js.map BitVec.toNat))⁻¹ else drawPerm n (js.map BitVec.toNat)

theorem orderPerm_eq (un : Bool) : orderPerm n un js =
    if un then (orderPerm n false js)⁻¹ else orderPerm n false js := rfl

/-- **In either order the exchanges are a permutation of the positions**, and the two are
inverse. -/
theorem exchanges_order {xs : List α} (h : xs.length = n) (hjs : AtMost (js.map BitVec.toNat))
    (hlen : (js.map BitVec.toNat).length < n) (un : Bool) :
    exchanges (order un js) xs = some (permuted xs h (orderPerm n un js)) := by
  have hin : ∀ p ∈ steps js, p.1 < n ∧ p.2 < n := by
    rw [← steps_toNat]
    exact steps_lt hjs hlen
  have hforth : ∀ {ys : List α} (hy : ys.length = n),
      exchanges (steps js) ys = some (permuted ys hy (drawPerm n (js.map BitVec.toNat))) := by
    intro ys hy
    rw [exchanges_eq_permuted hy hin, drawPerm, steps_toNat]
  cases un with
  | false => exact hforth h
  | true =>
    -- what the exchanges make of the list permuted back is the list
    have hback := hforth (length_permuted xs h (drawPerm n (js.map BitVec.toNat))⁻¹)
    rw [permuted_permuted, inv_mul_cancel, permuted_one] at hback
    exact exchanges_reverse hback

end Order

/-! ### The passes -/

/-- The long stage alone, `k` times over. Each time it scans what it finds. -/
def longPasses (un : Bool) (u : Int64 × Int64) : ℕ → List Byte → Option (List Byte)
  | 0, file => some file
  | k + 1, file => (stage un 8 (xorng (longSeeds u file)) file).bind (longPasses un u k)

/-- The file with its elements of eight bytes permuted. -/
def permutedLongs {n : ℕ} (file : List Byte) (h : (blocks 8 file).length = n) (π : Perm (Fin n)) :
    List Byte :=
  join (permuted (blocks 8 file) h π) ++ rest 8 file

section Passes

variable {n : ℕ} {file : List Byte} (h : (blocks 8 file).length = n) (π ρ : Perm (Fin n))

theorem blocks_permutedLongs : blocks 8 (permutedLongs file h π) = permuted (blocks 8 file) h π :=
  blocks_join_append (length_rest_lt (by decide) file)

theorem rest_permutedLongs : rest 8 (permutedLongs file h π) = rest 8 file :=
  rest_join_append (length_rest_lt (by decide) file)

theorem length_blocks_permutedLongs : (blocks 8 (permutedLongs file h π)).length = n := by
  rw [blocks_permutedLongs, length_permuted]

theorem permutedLongs_permutedLongs :
    permutedLongs (permutedLongs file h π) (length_blocks_permutedLongs h π) ρ =
      permutedLongs file h (π * ρ) := by
  have hblocks : permuted (blocks 8 (permutedLongs file h π)) (length_blocks_permutedLongs h π) ρ =
      permuted (blocks 8 file) h (π * ρ) := by
    rw [← permuted_permuted]
    simp only [blocks_permutedLongs]
  rw [permutedLongs, hblocks, rest_permutedLongs]
  rfl

theorem permutedLongs_one : permutedLongs file h 1 = file := by
  rw [permutedLongs, permuted_one, join_blocks_append_rest]

theorem permutedLongs_eq_self_iff :
    permutedLongs file h π = file ↔ permuted (blocks 8 file) h π = blocks 8 file := by
  constructor
  · intro hself
    rw [← blocks_permutedLongs, hself]
  · intro hself
    rw [permutedLongs, hself, join_blocks_append_rest]

/-- The seeds are those of before. -/
theorem longSeeds_permutedLongs (hn : 0 < n) (u u' : Int64 × Int64) :
    longSeeds u (permutedLongs file h π) = longSeeds u' file := by
  have hperm : (blocks 8 (permutedLongs file h π)).Perm (blocks 8 file) := by
    rw [blocks_permutedLongs]
    exact permuted_perm _ _ _
  refine longSeeds_perm hperm ?_ u' u
  rwa [← length_blocks, h]

end Passes

/-- **A pass of the long stage goes one step along a cycle that all the elements are on**,
the same for all files with so many elements and these seeds; unshuffling goes one step
back. -/
theorem longPasses_cycle {n : ℕ} (hpos : 1 ≤ n) (hn : n ≤ 2 ^ 53) (seeds : Int64 × Int64) :
    ∃ π : Perm (Fin n), π.IsCycleOn Set.univ ∧ ∀ (u : Int64 × Int64) (file : List Byte)
      (h : (blocks 8 file).length = n), longSeeds u file = seeds → ∀ (un : Bool) (k : ℕ),
      longPasses un u k file = some (permutedLongs file h ((if un then π⁻¹ else π) ^ k)) := by
  obtain ⟨js, s', hdraws, hbelow⟩ := exists_draws_below (n := n - 1) (by omega) Xoroshiro128plus.sample_below
    ⟨seeds.1.toBitVec, seeds.2.toBitVec⟩
  have hlen : (js.map BitVec.toNat).length = n - 1 := by rw [List.length_map, length_draws hdraws]
  have hlt : (js.map BitVec.toNat).length < n := by omega
  refine ⟨orderPerm n false js, ?_, fun u file h hseeds un k => ?_⟩
  · rw [← setOf_le_pred n, ← hlen]
    exact (isCycleOn_drawPerm_iff hbelow.atMost hlt).mpr hbelow
  · -- one pass, whatever the file that has these seeds
    have hpass : ∀ {x : List Byte} (hx : (blocks 8 x).length = n), longSeeds u x = seeds →
        stage un 8 (xorng (longSeeds u x)) x = some (permutedLongs x hx (orderPerm n un js)) := by
      intro x hx hxs
      refine (stage_eq_some_iff (by decide)).mpr ⟨js, ?_, _, exchanges_order hx hbelow.atMost hlt un, rfl⟩
      rw [hxs, Generator.draws, ← length_blocks, hx]
      exact congrArg (Option.map Prod.fst) hdraws
    rw [← orderPerm_eq]
    induction k generalizing file with
    | zero => rw [pow_zero, permutedLongs_one]; rfl
    | succ k ih =>
      rw [longPasses, hpass h hseeds, Option.bind_some,
        ih _ (length_blocks_permutedLongs h _) ((longSeeds_permutedLongs h _ hpos u u).trans hseeds),
        permutedLongs_permutedLongs, pow_succ']

/-- Two elements and the seeds 0 and 1. -/
theorem longPasses_cycle_two : ∃ π : Perm (Fin 2), π.IsCycleOn Set.univ ∧
    ∀ (u : Int64 × Int64) (file : List Byte) (h : (blocks 8 file).length = 2),
      longSeeds u file = (0, 1) → ∀ (un : Bool) (k : ℕ),
      longPasses un u k file = some (permutedLongs file h ((if un then π⁻¹ else π) ^ k)) :=
  longPasses_cycle (by decide) (by norm_num) (0, 1)

/-! ### Back where it began -/

section Cycle

variable {α : Type} {n k : ℕ} {π : Perm (Fin n)} {xs : List α}

/-- The powers of a full cycle that leave everything in place. -/
theorem pow_eq_one_iff_of_isCycleOn (hπ : π.IsCycleOn Set.univ) (hpos : 0 < n) : π ^ k = 1 ↔ n ∣ k := by
  have hcycle : π.IsCycleOn (Finset.univ : Finset (Fin n)) := by rwa [Finset.coe_univ]
  have happly : ∀ i, (π ^ k) i = i ↔ n ∣ k := fun i => by
    rw [hcycle.pow_apply_eq (Finset.mem_univ i), Finset.card_univ, Fintype.card_fin]
  constructor
  · intro hone
    exact (happly ⟨0, hpos⟩).mp (by rw [hone]; rfl)
  · intro hdvd
    exact Equiv.ext fun i => (happly i).mpr hdvd

/-- A list of different items is permuted by all but the identity. -/
theorem permuted_eq_self_iff_of_nodup (h : xs.length = n) (hnodup : xs.Nodup) :
    permuted xs h π = xs ↔ π = 1 := by
  constructor
  · intro hself
    refine Equiv.ext fun i => Fin.ext ?_
    have hi : (i : ℕ) < (permuted xs h π).length := by rw [length_permuted]; exact i.2
    have hget := (getElem_permuted xs h π i hi).symm.trans (List.getElem_of_eq hself hi)
    exact (hnodup.getElem_inj_iff).mp hget
  · rintro rfl
    exact permuted_one xs h

end Cycle

/-- **As many passes as there are elements lead back**, and so do their multiples; when the
elements are all different no other number of passes does. -/
theorem longPasses_eq_self_iff {file : List Byte} (h8 : 8 ≤ file.length) (hmax : file.length / 8 ≤ 2 ^ 53)
    (un : Bool) (u : Int64 × Int64) (k : ℕ) :
    (file.length / 8 ∣ k → longPasses un u k file = some file) ∧
      ((blocks 8 file).Nodup → longPasses un u k file = some file → file.length / 8 ∣ k) := by
  have hpos : 1 ≤ file.length / 8 := by omega
  obtain ⟨π, hπ, hpasses⟩ := longPasses_cycle hpos hmax (longSeeds u file)
  have h : (blocks 8 file).length = file.length / 8 := length_blocks 8 file
  have hcycle : (if un then π⁻¹ else π).IsCycleOn Set.univ := by
    cases un with
    | false => exact hπ
    | true => exact hπ.inv
  rw [hpasses u file h rfl, Option.some.injEq, permutedLongs_eq_self_iff]
  refine ⟨fun hdvd => ?_, fun hnodup hself => ?_⟩
  · rw [(pow_eq_one_iff_of_isCycleOn hcycle hpos).mpr hdvd, permuted_one]
  · rw [permuted_eq_self_iff_of_nodup h hnodup] at hself
    exact (pow_eq_one_iff_of_isCycleOn hcycle hpos).mp hself

/-- Two elements, and two passes. -/
theorem longPasses_eq_self_iff_two :
    ((List.replicate 8 0#8 ++ List.replicate 8 1#8).length / 8 ∣ 2 →
      longPasses false (0, 0) 2 (List.replicate 8 0#8 ++ List.replicate 8 1#8) =
        some (List.replicate 8 0#8 ++ List.replicate 8 1#8)) ∧
    ((blocks 8 (List.replicate 8 0#8 ++ List.replicate 8 1#8)).Nodup →
      longPasses false (0, 0) 2 (List.replicate 8 0#8 ++ List.replicate 8 1#8) =
        some (List.replicate 8 0#8 ++ List.replicate 8 1#8) →
      (List.replicate 8 0#8 ++ List.replicate 8 1#8).length / 8 ∣ 2) :=
  longPasses_eq_self_iff (by decide) (by norm_num) false (0, 0) 2

end Shuffle3.V2
