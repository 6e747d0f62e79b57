import Shuffle3.V1.Passes
import Shuffle3.V2.Work

/-!
# Arrays that simulate lists of bytes

A pass over an array, in memory or in a file, does to the bytes the array holds
what a stage of the second version does to a file, with the draws of an `int` in
the place of its own, as long as an `int` can count the elements. So the two kinds
of array go through a pass alike, and fail alike.

## What is proved

* `shuffleOr_rel` — shuffling and unshuffling an array.
* `scan_rel` — the scans, which have no defined outcome on an array that an `int`
  cannot count.
* `xoroPass_rel`, `floatPass_rel`, `bytePass_rel` — the passes.
-/

namespace Shuffle3.V1

open Foundations
open V2 (NextLong elements length_elements minmaxT)

variable {L : Libc} {S : Type} {f : Bool} {w : ℕ} {a : ArrayT} {x : List Byte}

/-! ### Draws and swaps -/

/-- An `int` used as an index is converted to `size_t`. -/
def toIndex (j : Int32) : BitVec 64 := BitVec.ofInt 64 j.toInt

/-- `rng_next_int`, as a draw up to a bound. -/
def nextInt (rng : RngAlgo L S) : NextLong (BitVec 64) (Statics L) := fun i t =>
  (rngNextInt rng i t).map fun p => (toIndex p.1, p.2)

theorem toIndex_of_nonneg {j : Int32} (hj : 0 ≤ j.toInt) : ((toIndex j).toNat : ℤ) = j.toInt := by
  have hlt := j.toInt_lt
  rw [toIndex, BitVec.toNat_ofInt]
  omega

theorem le_toIndex_of_neg {j : Int32} (hj : j.toInt < 0) : intMax ≤ (toIndex j).toNat := by
  have hle := j.le_toInt
  rw [toIndex, BitVec.toNat_ofInt, intMax]
  omega

theorem exchange_overlay_none {m : Overlay Byte w} {i j : ℕ} (hj : m.flat.length / w ≤ j) :
    exchange m i j = none := by
  simp only [exchange, Indexed.get, dif_neg (Nat.not_lt.mpr hj), Option.bind_none, Option.bind_fun_none]

/-- **A swap is an exchange**, and fails where it fails. -/
theorem swap_rel (h : Views f w a x) (hn : x.length / w ≤ intMax) {i : ℕ} (hi : i < x.length / w)
    (j : Int32) :
    Option.Rel (fun a m => Views f w a m.flat ∧ m.flat.length = x.length) (arSwap a i j.toInt)
      (exchange (⟨x⟩ : Overlay Byte w) i ((toIndex j).toNat)) := by
  by_cases hj : 0 ≤ j.toInt ∧ (toIndex j).toNat < x.length / w
  · obtain ⟨a', m, hswap, hexchange, hviews⟩ := h.swap hi hj.2
    rw [toIndex_of_nonneg hj.1] at hswap
    rw [hswap, hexchange]
    exact .some hviews
  · have hout : j.toInt < 0 ∨ (x.length / w : ℕ) ≤ j.toInt := by
      by_cases hneg : j.toInt < 0
      · exact .inl hneg
      · have hidx := toIndex_of_nonneg (not_lt.mp hneg)
        right
        have : ¬ (toIndex j).toNat < x.length / w := fun hlt => hj ⟨not_lt.mp hneg, hlt⟩
        omega
    have hidx : x.length / w ≤ (toIndex j).toNat := by
      rcases lt_or_ge j.toInt 0 with hneg | hpos
      · exact hn.trans (le_toIndex_of_neg hneg)
      · have := toIndex_of_nonneg hpos
        omega
    rw [h.swap_none hi hout, exchange_overlay_none hidx]
    exact .none

theorem shuffleLoop_rel {rng : RngAlgo L S} (i : ℕ) :
    ∀ {a : ArrayT} {x : List Byte} (t : Statics L), Views f w a x → x.length / w ≤ intMax →
      i ≤ x.length / w - 1 →
      Option.Rel (fun p q => Views f w p.2 q.1.flat) (shuffleLoop rng i t a)
        (V2.shuffleLoop (nextInt rng) i (⟨x⟩ : Overlay Byte w) t) := by
  induction i with
  | zero => intro a x t h _ _; exact .some h
  | succ i ih =>
    intro a x t h hn hi
    simp only [shuffleLoop, V2.shuffleLoop, nextInt, Option.bind_eq_bind]
    cases rngNextInt rng (i + 1 : ℕ) t with
    | none => exact .none
    | some p =>
      rw [Option.bind_some, Option.map_some, Option.bind_some]
      refine rel_bind (swap_rel (i := i + 1) h hn (by omega) p.1) fun a' m hm => ?_
      exact ih p.2 hm.1 (by rw [hm.2]; exact hn) (by rw [hm.2]; omega)

theorem toInt_pred {n : ℕ} (hn : n ≤ intMax) : (toInt ((n : ℤ) - 1)).toNat = n - 1 := by
  rw [intMax] at hn
  rw [toInt, BitVec.toInt_ofInt, Int.bmod_eq_of_le] <;> omega

theorem drawLoop_rel (rng : RngAlgo L S) (i : ℕ) (rngValues : List Int32) (t : Statics L) :
    Option.Rel (fun p q => q.1 = p.1.map toIndex ∧ p.2 = q.2) (drawLoop rng i rngValues t)
      (V2.pushLoop (nextInt rng) i (rngValues.map toIndex) t) := by
  induction i generalizing rngValues t with
  | zero => exact .some ⟨rfl, rfl⟩
  | succ i ih =>
    simp only [drawLoop, V2.pushLoop, nextInt, Option.bind_eq_bind]
    cases rngNextInt rng (i + 1 : ℕ) t with
    | none => exact .none
    | some p => exact ih (p.1 :: rngValues) p.2

theorem swapLoop_rel (k : ℕ) :
    ∀ {a : ArrayT} {x : List Byte} (i : ℕ) (rngValues : List Int32), Views f w a x →
      x.length / w ≤ intMax →
      i + k = x.length / w → Option.Rel (fun a p => Views f w a p.1.flat) (swapLoop k i rngValues a)
        (V2.popLoop k i (⟨x⟩ : Overlay Byte w) (rngValues.map toIndex)) := by
  induction k with
  | zero => intro a x i rngValues h _ _; exact .some h
  | succ k ih =>
    intro a x i rngValues h hn hi
    cases rngValues with
    | nil => exact .none
    | cons j rngValues =>
      simp only [swapLoop, V2.popLoop, StackOps.back, StackOps.popBack, List.map_cons, Option.bind_eq_bind,
        Option.bind_some]
      refine rel_bind (swap_rel h hn (by omega) j) fun a' m hm => ?_
      rw [if_pos (by omega), List.tail_cons]
      exact ih (i + 1) rngValues hm.1 (by rw [hm.2]; exact hn) (by rw [hm.2]; omega)

theorem unshuffle_rel {rng : RngAlgo L S} (h : Views f w a x) (hn : x.length / w ≤ intMax)
    (t : Statics L) :
    Option.Rel (fun p q => Views f w p.2 q.1.flat) (unshuffle rng t a)
      (V2.unshuffle (nextInt rng) (V2.plainVector (BitVec 64)) (⟨x⟩ : Overlay Byte w) t) := by
  have hsize : Indexed.size (⟨x⟩ : Overlay Byte w) = x.length / w := rfl
  rw [unshuffle, h.size, toInt_pred hn, V2.unshuffle, hsize]
  by_cases hz : x.length / w = 0
  · rw [if_pos hz, hz]
    exact .some h
  · rw [if_neg hz]
    simp only [V2.plainVector, Option.bind_eq_bind, Option.bind_some]
    refine rel_bind (drawLoop_rel rng (x.length / w - 1) [] t) fun p q hq => ?_
    rw [hq.1]
    exact rel_bind (swapLoop_rel (x.length / w - 1) 1 p.1 h hn (by omega)) fun a' r hr => .some hr

theorem shuffle_rel {rng : RngAlgo L S} (h : Views f w a x) (hn : x.length / w ≤ intMax)
    (t : Statics L) :
    Option.Rel (fun p q => Views f w p.2 q.1.flat) (shuffle rng t a)
      (V2.shuffle (nextInt rng) (⟨x⟩ : Overlay Byte w) t) := by
  have hsize : Indexed.size (⟨x⟩ : Overlay Byte w) = x.length / w := rfl
  rw [shuffle, h.size, toInt_pred hn, V2.shuffle, hsize]
  by_cases hz : x.length / w = 0
  · rw [if_pos hz, hz]
    exact .some h
  · rw [if_neg hz]
    exact shuffleLoop_rel _ t h hn le_rfl

/-- **Shuffling an array is a stage** on the bytes it holds, with these draws. -/
theorem shuffleOr_rel {rng : RngAlgo L S} (un : Bool) (h : Views f w a x)
    (hn : x.length / w ≤ intMax) (t : Statics L) :
    Option.Rel (fun p y => Views f w p.2 y) (shuffleOr un rng t a) (V2.stage un w ⟨nextInt rng, t⟩ x) := by
  cases un with
  | false => exact rel_map (shuffle_rel h hn t) fun p q hq => hq
  | true => exact rel_map (unshuffle_rel h hn t) fun p q hq => hq

/-! ### Scans -/

section Seeds

variable {τ ι : Type} [LT τ] [DecidableLT τ] [LinearOrder ι] {k : τ → ι}

/-- Testing every element from sentinels that give way to it finds what the scan of
the second version finds, and leaves the sentinels when it keeps nothing. -/
theorem foldl_stretch_eq {keep : τ → Bool} (hk : ∀ a b, keep a → keep b → (a < b ↔ k a < k b))
    {p : τ × τ} (hp : ∀ a, keep a → stretch p a = (a, a)) (xs : List τ) :
    (xs.filter keep).foldl stretch p = minmaxT keep p.1 p.2 xs := by
  rw [V2.minmaxT_eq]
  cases hf : xs.filter keep with
  | nil => rfl
  | cons a as =>
    have hkeep : ∀ b ∈ a :: as, keep b := fun b hb => (List.mem_filter.mp (hf ▸ hb)).2
    exact foldl_stretch_cons (P := fun a => keep a) hk (hp a (hkeep a List.mem_cons_self)) hkeep

theorem foldl_stretch_all (hk : ∀ a b, a < b ↔ k a < k b) (hinj : Function.Injective k) {p : τ × τ}
    (hlo : ∀ a, k a ≤ k p.1) (hhi : ∀ a, k p.2 ≤ k a) (xs : List τ) :
    xs.foldl stretch p = minmaxT V2.keepAll p.1 p.2 xs := by
  have hall : xs.filter V2.keepAll = xs := List.filter_eq_self.mpr fun _ _ => rfl
  have h : (xs.filter V2.keepAll).foldl stretch p = minmaxT V2.keepAll p.1 p.2 xs :=
    foldl_stretch_eq (fun a b _ _ => hk a b) (fun a _ => stretch_of_le hk hinj (hlo a) (hhi a)) xs
  rwa [hall] at h

end Seeds

section Scan

variable {τ : Type} [Layout τ]

theorem getElem_elements {i : ℕ} (hi : i < (elements τ x).length)
    (hi' : i < x.length / Layout.sizeof τ) :
    (elements τ x)[i] = Layout.ofBytes (blockAt (Layout.sizeof τ) x i hi') := by
  simp [elements, blocks]

/-- One round: the body of the loop reads the array and does to its variables what
`step` does with the element. -/
def Reads (f : Bool) (x : List Byte) (step : τ × τ → τ → τ × τ)
    (body : ℕ → τ × τ × ArrayT → Option (τ × τ × ArrayT)) : Prop :=
  ∀ (i : ℕ) (hi : i < (elements τ x).length) (p : τ × τ) (a : ArrayT), Views f (Layout.sizeof τ) a x →
    ∃ a', body i (p.1, p.2, a) = some ((step p (elements τ x)[i]).1, (step p (elements τ x)[i]).2, a') ∧
      Views f (Layout.sizeof τ) a' x

variable {step : τ × τ → τ → τ × τ} {body : ℕ → τ × τ × ArrayT → Option (τ × τ × ArrayT)}

/-- **A scan that an `int` can count** folds its step over the elements. -/
theorem scanLoop_eq (hbody : Reads f x step body) (hn : (elements τ x).length ≤ intMax) (k : ℕ) :
    ∀ (i : ℕ) (p : τ × τ) {a : ArrayT}, Views f (Layout.sizeof τ) a x →
      i + k = (elements τ x).length →
      ∃ a', scanLoop body k i (p.1, p.2, a) =
        some ((((elements τ x).drop i).foldl step p).1, (((elements τ x).drop i).foldl step p).2, a') ∧
          Views f (Layout.sizeof τ) a' x := by
  induction k with
  | zero =>
    intro i p a h hi
    refine ⟨a, ?_, h⟩
    rw [List.drop_eq_nil_of_le (by omega)]
    rfl
  | succ k ih =>
    intro i p a h hi
    obtain ⟨a', hstep, h'⟩ := hbody i (by omega) p a h
    obtain ⟨a'', hrest, h''⟩ := ih (i + 1) (step p (elements τ x)[i]) h' (by omega)
    refine ⟨a'', ?_, h''⟩
    rw [List.drop_eq_getElem_cons (by omega), List.foldl_cons]
    simp only [scanLoop, hstep, Option.bind_eq_bind, Option.bind_some, if_pos (show i < intMax by omega), hrest]

/-- **A scan that an `int` cannot count** has no defined outcome. -/
theorem scanLoop_none (hbody : Reads f x step body) (hn : intMax < (elements τ x).length) (k : ℕ) :
    ∀ (i : ℕ) (p : τ × τ) {a : ArrayT}, Views f (Layout.sizeof τ) a x →
      i + k = (elements τ x).length → i ≤ intMax →
      scanLoop body k i (p.1, p.2, a) = none := by
  induction k with
  | zero => intro i p a _ hi hle; omega
  | succ k ih =>
    intro i p a h hi hle
    obtain ⟨a', hstep, h'⟩ := hbody i (by omega) p a h
    simp only [scanLoop, hstep, Option.bind_eq_bind, Option.bind_some]
    by_cases hlt : i < intMax
    · rw [if_pos hlt]
      exact ih (i + 1) _ h' (by omega) hlt
    · rw [if_neg hlt]

/-- The tests of a scan are one step of the pass that tests an item for both extremes. -/
theorem reads_minmaxTests [LT τ] [DecidableLT τ] : Reads (τ := τ) f x stretch (minmaxTests τ) := by
  intro i hi p a h
  have hi' : i < x.length / Layout.sizeof τ := length_elements τ x ▸ hi
  have hget {a : ArrayT} (h : Views f (Layout.sizeof τ) a x) :
      ∃ a', arGetV τ a i = some ((elements τ x)[i], a') ∧ Views f (Layout.sizeof τ) a' x := by
    rw [getElem_elements hi hi']
    exact h.getV hi'
  have hassign {a : ArrayT} (h : Views f (Layout.sizeof τ) a x) (c : Prop) [Decidable c] (var : τ) :
      ∃ a', assignIf τ c i var a = some (if c then (elements τ x)[i] else var, a') ∧
        Views f (Layout.sizeof τ) a' x := by
    by_cases hc : c
    · simp only [assignIf, hc, decide_true, if_true]
      exact hget h
    · simp only [assignIf, hc, decide_false, Bool.false_eq_true, if_false]
      exact ⟨a, rfl, h⟩
  obtain ⟨a₁, h₁, hv₁⟩ := hget h
  obtain ⟨a₂, h₂, hv₂⟩ := hassign hv₁ ((elements τ x)[i] > p.2) p.2
  obtain ⟨a₃, h₃, hv₃⟩ := hget hv₂
  obtain ⟨a₄, h₄, hv₄⟩ := hassign hv₃ ((elements τ x)[i] < p.1) p.1
  refine ⟨a₄, ?_, hv₄⟩
  simp only [minmaxTests, h₁, h₂, h₃, h₄, Option.bind_eq_bind, Option.bind_some]
  rfl

/-- A scan of an array: what it leaves in its variables, when an `int` can count the
elements. -/
theorem scan_rel (hbody : Reads f x step body) (h : Views f (Layout.sizeof τ) a x) (min max : τ) :
    Option.Rel (fun p q => (p.1, p.2.1) = q ∧ Views f (Layout.sizeof τ) p.2.2 x)
      (scanLoop body a.size 0 (min, max, a))
      (if x.length / Layout.sizeof τ ≤ intMax then some ((elements τ x).foldl step (min, max)) else none) := by
  have hlen := length_elements τ x
  rw [h.size, ← hlen]
  by_cases hn : (elements τ x).length ≤ intMax
  · obtain ⟨a', hscan, h'⟩ :=
      scanLoop_eq hbody hn (elements τ x).length 0 (min, max) h (Nat.zero_add _)
    rw [if_pos hn, hscan]
    exact .some ⟨rfl, h'⟩
  · rw [if_neg hn, scanLoop_none hbody (Nat.lt_of_not_le hn) _ 0 (min, max) h (Nat.zero_add _) (Nat.zero_le _)]
    exact .none

/-! ### Passes -/

/-- A stage over elements that an `int` can count. -/
def stageInt (un : Bool) (w : ℕ) (g : V2.Generator) (x : List Byte) : Option (List Byte) :=
  if x.length / w ≤ intMax then V2.stage un w g x else none

/-- **A pass over an array is a stage** on the bytes it holds, if an `int` can count
their elements. -/
theorem pass_rel (hbody : Reads f x step body) (min max : τ) (un : Bool) (rng : RngAlgo L S)
    (seed : τ × τ → S) (t : Statics L) (h : Views f (Layout.sizeof τ) a x) :
    Option.Rel (fun p y => Views f (Layout.sizeof τ) p.2 y)
      ((scanLoop body a.size 0 (min, max, a)).bind fun p =>
        shuffleOr un rng (rngSeed rng (seed (p.1, p.2.1)) t) p.2.2)
      (stageInt un (Layout.sizeof τ)
        ⟨nextInt rng, rngSeed rng (seed ((elements τ x).foldl step (min, max))) t⟩ x) := by
  have hscan := scan_rel hbody h min max
  rw [stageInt]
  by_cases hn : x.length / Layout.sizeof τ ≤ intMax
  · rw [if_pos hn] at hscan ⊢
    obtain ⟨p, hp, hseed, h'⟩ := rel_of_some hscan
    rw [hp, Option.bind_some, hseed]
    exact shuffleOr_rel un h' hn _
  · rw [if_neg hn] at hscan ⊢
    generalize scanLoop body a.size 0 (min, max, a) = o at hscan
    cases hscan
    exact .none

end Scan

/-- The seeds of `xoroshiro128plus`. -/
def xoroSeed (x : List Byte) : BitVec 64 × BitVec 64 :=
  let p := V2.longSeeds (Int64.maxValue, Int64.minValue) x
  (p.1.toBitVec, p.2.toBitVec)

/-- The seeds of `frng`. -/
def floatSeed (x : List Byte) : V2.Double × V2.Double :=
  let p := V2.floatSeeds (floatDblMax, floatDblMax.neg) x
  (p.1.toFloating.convert binary64, p.2.toFloating.convert binary64)

/-- The seed of `drng`. -/
def byteSeed (x : List Byte) : BitVec 32 :=
  let p := V2.byteSeeds (Int8.maxValue, Int8.minValue) x
  (0xfffa#32 <<< 16) ||| (p.1.toBitVec.signExtend 32 <<< 8) ||| p.2.toBitVec.signExtend 32

/-- `minmax_int64_ts` finds the seeds that the second version finds. -/
theorem foldl_stretch_long (x : List Byte) :
    (elements Int64 x).foldl stretch (Int64.maxValue, Int64.minValue) =
    V2.longSeeds (Int64.maxValue, Int64.minValue) x := by
  have hlt (a b : Int64) : a < b ↔ a.toInt < b.toInt := Int64.lt_iff_toInt_lt
  have hinj : Function.Injective Int64.toInt := fun _ _ => Int64.toInt.inj
  have h := foldl_stretch_all hlt hinj (p := (Int64.maxValue, Int64.minValue)) (fun a => Int64.toInt_le a)
    (fun a => Int64.minValue_le_toInt a) (elements Int64 x)
  rw [V2.longSeeds]
  exact h

/-- `minmax_sbytes` does too. -/
theorem foldl_stretch_byte (x : List Byte) :
    (elements Int8 x).foldl stretch (Int8.maxValue, Int8.minValue) =
    V2.byteSeeds (Int8.maxValue, Int8.minValue) x := by
  have hlt (a b : Int8) : a < b ↔ a.toInt < b.toInt := Int8.lt_iff_toInt_lt
  have hinj : Function.Injective Int8.toInt := fun _ _ => Int8.toInt.inj
  have h := foldl_stretch_all hlt hinj (p := (Int8.maxValue, Int8.minValue)) (fun a => Int8.toInt_le a)
    (fun a => Int8.minValue_le_toInt a) (elements Int8 x)
  rw [V2.byteSeeds]
  exact h

theorem xoroPass_rel (un : Bool) (t : Statics L) (h : Views f 8 a x) :
    Option.Rel (fun p y => Views f 8 p.2 y) (xoroPass L un t a)
      (stageInt un 8 ⟨nextInt (xoroshiro128plus L), rngSeed (xoroshiro128plus L) (xoroSeed x) t⟩ x) := by
  have hrel := pass_rel reads_minmaxTests Int64.maxValue Int64.minValue un (xoroshiro128plus L)
    (fun p => (p.1.toBitVec, p.2.toBitVec)) t h
  simp only [foldl_stretch_long] at hrel
  exact hrel

theorem bytePass_rel (un : Bool) (t : Statics L) (h : Views f 1 a x) :
    Option.Rel (fun p y => Views f 1 p.2 y) (bytePass L un t a)
      (stageInt un 1 ⟨nextInt (drng L), rngSeed (drng L) (byteSeed x) t⟩ x) := by
  have hrel := pass_rel reads_minmaxTests Int8.maxValue Int8.minValue un (drng L)
    (fun p => (0xfffa#32 <<< 16) ||| (p.1.toBitVec.signExtend 32 <<< 8) ||| p.2.toBitVec.signExtend 32) t h
  simp only [foldl_stretch_byte] at hrel
  exact hrel

theorem validFloat_iff {b : Single} : validFloat b ↔ b.finite := by
  rw [Single.finite_iff_tests]
  simp [validFloat]

/-- A finite number is between the sentinels. -/
theorem stretch_floatDblMax {b : Single} (hb : b.finite) :
    stretch (floatDblMax, floatDblMax.neg) b = (b, b) := by
  have hne := Single.finite_iff.mp hb
  have hpos : floatDblMax.toFloating = .inf false := by decide
  have hneg : floatDblMax.neg.toFloating = .inf true := by decide
  have hlo : b < floatDblMax := by
    rw [Single.lt_def, Single.toFloating_of_ne hne, hpos]
    rfl
  have hhi : floatDblMax.neg < b := by
    rw [Single.lt_def, Single.toFloating_of_ne hne, hneg]
    rfl
  rw [stretch, if_pos hlo, if_pos hhi]

/-- What `minmax_floats` does with an element. -/
def floatStep (p : Single × Single) (b : Single) : Single × Single :=
  if validFloat b then stretch p b else p

theorem reads_floatTests : Reads f x floatStep floatTests := by
  intro i hi p a h
  have hi' : i < x.length / Layout.sizeof Single := length_elements Single x ▸ hi
  obtain ⟨a₁, h₁, hv₁⟩ := h.getV hi'
  rw [← getElem_elements hi hi'] at h₁
  simp only [floatTests, h₁, Option.bind_eq_bind, Option.bind_some]
  by_cases hvalid : validFloat (elements Single x)[i]
  · obtain ⟨a₂, h₂, hv₂⟩ := reads_minmaxTests i hi p a₁ hv₁
    simp only [hvalid, floatStep, Bool.not_true, Bool.false_eq_true, if_false, if_true]
    exact ⟨a₂, h₂, hv₂⟩
  · simp only [hvalid, floatStep, Bool.not_false, if_true]
    exact ⟨a₁, rfl, hv₁⟩

/-- `minmax_floats` does too. -/
theorem foldl_floatStep (x : List Byte) :
    (elements Single x).foldl floatStep (floatDblMax, floatDblMax.neg) =
    V2.floatSeeds (floatDblMax, floatDblMax.neg) x := by
  have hkeep : (validFloat : Single → Bool) = V2.keepFloat := by
    funext b
    rw [Bool.eq_iff_iff, validFloat_iff, V2.keepFloat_iff]
  have hp (b : Single) (hb : V2.keepFloat b) : stretch (floatDblMax, floatDblMax.neg) b = (b, b) :=
    stretch_floatDblMax (V2.keepFloat_iff.mp hb)
  have hlt (a b : Single) (ha : V2.keepFloat a) (hb : V2.keepFloat b) : a < b ↔ a.val < b.val :=
    Single.lt_iff_val (V2.keepFloat_iff.mp ha) (V2.keepFloat_iff.mp hb)
  have h := foldl_stretch_eq hlt hp (elements Single x)
  rw [List.foldl_filter, ← hkeep] at h
  rw [V2.floatSeeds, ← hkeep]
  exact h

theorem floatPass_rel (un : Bool) (t : Statics L) (h : Views f 4 a x) :
    Option.Rel (fun p y => Views f 4 p.2 y) (floatPass L un t a)
      (stageInt un 4 ⟨nextInt (frng L), rngSeed (frng L) (floatSeed x) t⟩ x) := by
  have hrel := pass_rel reads_floatTests floatDblMax floatDblMax.neg un (frng L)
    (fun p => (p.1.toFloating.convert binary64, p.2.toFloating.convert binary64)) t h
  simp only [foldl_floatStep] at hrel
  exact hrel

end Shuffle3.V1
