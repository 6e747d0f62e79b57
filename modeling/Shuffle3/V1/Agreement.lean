import Shuffle3.V1.Simulation
import Shuffle3.V2.Reversible

/-!
# The two versions agree but for the byte pass

The first two passes of both versions scan for the same seeds and draw from the
same sequences. They convert a draw differently, to `int` and to `int64_t`, but
where the conversions differ the draw is outside the span, and neither version
goes on.

## What is proved

* `nextInt_agree` — the draws of a generator that samples alike.
* `stageInt_nextInt` — a pass of the first version is a stage of the second.
* `shuffle3_agrees` — after the first pass, and after the second, both versions hold
  the same bytes.
-/

namespace Shuffle3.V1

open Foundations
open V2 (NextLong elements length_elements elements_perm Sample)

/-! ### Draws that agree in a span -/

section Draws

variable {σ ρ : Type} {n : ℕ} {state : σ → ρ}

/-- In a span of `n` elements both draw the same element and go to one state, or
neither draws one. -/
def DrawsAgree (n : ℕ) (state : σ → ρ) (o : Option (BitVec 64 × σ)) (p : Option (BitVec 64 × ρ)) :
    Prop :=
  (∃ j t, o = some (j, t) ∧ p = some (j, state t)) ∨
    (∀ j t, o = some (j, t) → n ≤ j.toNat) ∧ ∀ j s, p = some (j, s) → n ≤ j.toNat

/-- If there are draws, one is outside a span of `n` elements. -/
def Escapes (n : ℕ) (o : Option (List (BitVec 64) × σ)) : Prop :=
  ∀ js t, o = some (js, t) → ∃ j ∈ js, n ≤ j.toNat

/-- The draws after one that is outside, or is not made, do not matter. -/
theorem escapes_of_first {next : NextLong (BitVec 64) σ} {i : ℕ} {t : σ}
    (h : ∀ j s, next (i + 1) t = some (j, s) → n ≤ j.toNat) :
    Escapes n (V2.draws next (i + 1) t) := by
  intro js s hd
  obtain ⟨⟨j, s₁⟩, hj, hd⟩ := Option.bind_eq_some_iff.mp hd
  obtain ⟨⟨ks, s₂⟩, -, hd⟩ := Option.bind_eq_some_iff.mp hd
  cases hd
  exact ⟨j, List.mem_cons_self, h j s₁ hj⟩

theorem escapes_of_rest {next : NextLong (BitVec 64) σ} {i : ℕ} {t t' : σ} {j : BitVec 64}
    (hj : next (i + 1) t = some (j, t')) (h : Escapes n (V2.draws next i t')) :
    Escapes n (V2.draws next (i + 1) t) := by
  intro js s hd
  obtain ⟨⟨j', s₁⟩, hj', hrest⟩ := Option.bind_eq_some_iff.mp hd
  obtain ⟨⟨ks, s₂⟩, hks, hcons⟩ := Option.bind_eq_some_iff.mp hrest
  rw [hj] at hj'
  cases hj'
  cases hcons
  obtain ⟨k, hk, hle⟩ := h ks _ hks
  exact ⟨k, List.mem_cons_of_mem _ hk, hle⟩

/-- Draws that agree one by one agree all together, or do not stay inside. -/
theorem draws_agree {next : NextLong (BitVec 64) σ} {next' : NextLong (BitVec 64) ρ}
    (h : ∀ i t, i < n → DrawsAgree n state (next i t) (next' i (state t))) (i : ℕ) :
    ∀ t : σ, i ≤ n - 1 →
      (∃ js t', V2.draws next i t = some (js, t') ∧ V2.draws next' i (state t) = some (js, state t')) ∨
        Escapes n (V2.draws next i t) ∧ Escapes n (V2.draws next' i (state t)) := by
  induction i with
  | zero => intro t _; exact .inl ⟨[], t, rfl, rfl⟩
  | succ i ih =>
    intro t hi
    rcases h (i + 1) t (by omega) with ⟨j, t', ho, hp⟩ | ⟨ho, hp⟩
    · rcases ih t' (by omega) with ⟨js, t'', hjs, hjs'⟩ | ⟨hesc, hesc'⟩
      · exact .inl ⟨j :: js, t'', by simp [V2.draws, ho, hjs], by simp [V2.draws, hp, hjs']⟩
      · exact .inr ⟨escapes_of_rest ho hesc, escapes_of_rest hp hesc'⟩
    · exact .inr ⟨escapes_of_first ho, escapes_of_first hp⟩

/-- Draws that do not stay inside end the exchanges, in either order. -/
theorem exchanges_order_none {α : Type} {xs : List α} {js : List (BitVec 64)} (un : Bool)
    (h : ∃ j ∈ js, xs.length ≤ j.toNat) : exchanges (V2.order un js) xs = none := by
  obtain ⟨j, hj, hle⟩ := h
  have hmem : ∀ js : List (BitVec 64), j ∈ js → ∃ p ∈ V2.steps js, p.2 = j.toNat := by
    intro js hj
    induction js with
    | nil => cases hj
    | cons k js ih =>
      rw [V2.steps]
      rcases List.mem_cons.mp hj with rfl | hj
      · exact ⟨_, List.mem_cons_self, rfl⟩
      · obtain ⟨p, hp, hpj⟩ := ih hj
        exact ⟨p, List.mem_cons_of_mem _ hp, hpj⟩
  obtain ⟨p, hp, hpj⟩ := hmem js hj
  have hp' : p ∈ V2.order un js := by
    cases un with
    | false => exact hp
    | true => exact List.mem_reverse.mpr hp
  rw [Option.eq_none_iff_forall_ne_some]
  intro ys hys
  have hlt := (lt_of_mem_of_exchanges hys p hp').2
  omega

/-- **Generators that agree in its span make one stage.** -/
theorem stage_agree {w : ℕ} (hw : 0 < w) {next : NextLong (BitVec 64) σ}
    {next' : NextLong (BitVec 64) ρ} {x : List Byte}
    (h : ∀ i t, i < x.length / w → DrawsAgree (x.length / w) state (next i t) (next' i (state t)))
    (un : Bool) (t : σ) : V2.stage un w ⟨next, t⟩ x = V2.stage un w ⟨next', state t⟩ x := by
  rw [V2.stage_eq hw, V2.stage_eq hw, V2.Generator.draws, V2.Generator.draws]
  rcases draws_agree h (x.length / w - 1) t le_rfl with ⟨js, t', hjs, hjs'⟩ | ⟨hesc, hesc'⟩
  · rw [hjs, hjs']
    rfl
  · have hnone {ν : Type} {o : Option (List (BitVec 64) × ν)} (h : Escapes (x.length / w) o) :
        ((o.map Prod.fst).bind fun js =>
          (exchanges (V2.order un js) (blocks w x)).map fun bs => join bs ++ rest w x) = none := by
      cases o with
      | none => rfl
      | some p =>
        have hout := h p.1 p.2 rfl
        rw [← length_blocks w x] at hout
        rw [Option.map_some, Option.bind_some, exchanges_order_none un hout, Option.map_none]
    rw [hnone hesc, hnone hesc']

end Draws

variable {L : Libc} {S σ : Type} {f : Bool} {w : ℕ} {a : ArrayT} {x : List Byte}

/-- The variables of a generator are the state of one that samples alike. -/
def SamplesAs (rng : RngAlgo L S) (sample : Sample σ) (state : Statics L → σ) : Prop :=
  ∀ t, (rng.sample t).1 = (sample (state t)).1 ∧ state (rng.sample t).2 = (sample (state t)).2

/-- **The draws of the two versions agree**: where `int` has no room for the number,
the index that `int64_t` makes of it is outside. -/
theorem nextInt_agree {rng : RngAlgo L S} {sample : Sample σ} {state : Statics L → σ}
    (hs : SamplesAs rng sample state) {n i : ℕ} (hn : n ≤ intMax) (hi : i < n) (t : Statics L) :
    DrawsAgree n state (nextInt rng i t) (V2.nextLong sample i (state t)) := by
  rw [intMax] at hn
  obtain ⟨hx, hstate⟩ := hs t
  have hbound : (BitVec.ofNat 64 i - 0#64).toInt = i := by
    rw [BitVec.sub_zero, BitVec.toInt_ofNat', Int.bmod_eq_of_le] <;> omega
  simp only [nextInt, rngNextInt, V2.nextLong, V2.nextLongBetween, hbound, ← hx, ← hstate, toInt32?, V2.toInt64?]
  have hnone {ν : Type} (j : BitVec 64) (s : ν) (h : (none : Option (BitVec 64 × ν)) = some (j, s)) :
      n ≤ j.toNat := absurd h (Option.some_ne_none _).symm
  cases ((rng.sample t).1.mul (Floating.ofInt binary64 i)).floor.toInt? with
  | none => exact .inr ⟨hnone, hnone⟩
  | some k =>
    simp only [Option.bind_some]
    by_cases h32 : -2 ^ 31 ≤ k ∧ k < 2 ^ 31
    · have h64 : -2 ^ 63 ≤ k ∧ k < 2 ^ 63 := by omega
      rw [if_pos h32, if_pos h64]
      refine .inl ⟨BitVec.ofInt 64 k, _, ?_, by rw [Option.map_some, BitVec.add_zero]⟩
      rw [Option.map_some, Option.map_some, toIndex, Int32.toInt_ofInt_of_le h32.1 h32.2]
    · rw [if_neg h32]
      refine .inr ⟨hnone, fun j s h => ?_⟩
      split_ifs at h with h64
      · cases h
        rw [BitVec.add_zero, BitVec.toNat_ofInt]
        omega
      · cases h

/-- **A pass of the first version is a stage of the second**, with a generator that
samples alike. -/
theorem stageInt_nextInt (hw : 0 < w) {rng : RngAlgo L S} {sample : Sample σ}
    {state : Statics L → σ} (hs : SamplesAs rng sample state) (un : Bool) (t : Statics L)
    (x : List Byte) :
    stageInt un w ⟨nextInt rng, t⟩ x = stageInt un w ⟨V2.nextLong sample, state t⟩ x := by
  unfold stageInt
  split_ifs with hn
  · exact stage_agree hw (fun _ t hi => nextInt_agree hs hn hi t) un t
  · rfl

/-! ### The first two passes -/

/-- What the variables of the scans hold before them. -/
def sentinels : V2.Locals :=
  ⟨(Int64.maxValue, Int64.minValue), (floatDblMax, floatDblMax.neg), (Int8.maxValue, Int8.minValue)⟩

theorem xoroPass_stage (un : Bool) (t : Statics L) (h : Views f 8 a x) :
    Option.Rel (fun p y => Views f 8 p.2 y) (xoroPass L un t a)
      (stageInt un 8 (V2.xorng (V2.longSeeds sentinels.long x)) x) := by
  have hrel := xoroPass_rel un t h
  rw [stageInt_nextInt (by decide) xoroshiro_sample] at hrel
  exact hrel

theorem floatPass_stage {L' : V2.Libc} (hsin : L.sin = L'.sin) (un : Bool) (t : Statics L)
    (h : Views f 4 a x) :
    Option.Rel (fun p y => Views f 4 p.2 y) (floatPass L un t a)
      (stageInt un 4 (V2.frng L' (V2.floatSeeds sentinels.float x)) x) := by
  have hrel := floatPass_rel un t h
  rw [stageInt_nextInt (by decide) (frng_sample hsin)] at hrel
  exact hrel

theorem exists_kept (hpos : 1 ≤ x.length / 8) : ∃ b ∈ elements Int64 x, V2.keepAll b := by
  have hlen : 0 < (elements Int64 x).length := by rwa [length_elements]
  exact ⟨(elements Int64 x)[0], List.getElem_mem hlen, rfl⟩

/-- The float stage draws in range where it finds a finite number. -/
theorem frng_inRange {L' : V2.Libc} (hL : V2.Frng.SinBounded L')
    (hfin : ∃ b ∈ elements Single x, b.finite) (u : Single × Single) {n : ℕ} (hn : n ≤ 2 ^ 53) :
    (V2.frng L' (V2.floatSeeds u x)).InRange n := by
  obtain ⟨⟨-, hlo⟩, ⟨-, hhi⟩, -⟩ := V2.minmaxT_float (V2.exists_keepFloat hfin) u.1 u.2
  exact V2.Frng.inRange hL (by omega) (V2.Frng.fits_single (V2.keepFloat_iff.mp hlo))
    (V2.Frng.fits_single (V2.keepFloat_iff.mp hhi))

/-- What a run leaves in the array. -/
def contentsOf (o : Option (Statics L × ArrayT)) : Option (List Byte) :=
  o.map fun p => p.2.store.contents

theorem contentsOf_eq {o : Option (Statics L × ArrayT)} {p : Option (List Byte)}
    (h : Option.Rel (fun p y => Views f w p.2 y) o p) : contentsOf o = p := by
  cases h with
  | none => rfl
  | some h => exact congrArg some h.contents

/-- The draws of `xoroshiro128plus` are in range, so its stage runs to its end. -/
theorem exists_xorng_stage (un : Bool) (seeds : Int64 × Int64) (hn : x.length / 8 ≤ intMax) :
    ∃ y, V2.stage un 8 (V2.xorng seeds) x = some y := by
  rw [intMax] at hn
  have hrange : (V2.xorng seeds).InRange (x.length / 8) := V2.Xoroshiro128plus.inRange (by omega) _
  exact V2.exists_stage (by decide) un hrange

/-- The first passes agree, and end. -/
theorem shuffle3Xoro_agrees (h : Views f 1 a x) (h8 : 1 ≤ x.length / 8) (hn : x.length / 8 ≤ intMax)
    (t : Statics L) (u : Int64 × Int64) :
    ∃ p y, shuffle3Xoro L t a = some p ∧ V2.stage false 8 (V2.xorng (V2.longSeeds u x)) x = some y ∧
      Views f 8 p.2 y := by
  have hseeds : V2.longSeeds u x = V2.longSeeds sentinels.long x :=
    V2.minmaxT_congr (exists_kept h8) _ _ _ _
  obtain ⟨y, hy⟩ := exists_xorng_stage false (V2.longSeeds u x) hn
  have hpass := xoroPass_stage false t (h.reinterpret 8)
  rw [stageInt, if_pos hn, ← hseeds, hy] at hpass
  obtain ⟨p, hp, hviews⟩ := rel_of_some hpass
  refine ⟨p, y, ?_, hy, hviews⟩
  rw [shuffle3Xoro, h.element, if_pos (by decide), hp]

/-- The second passes agree where they find a finite number. -/
theorem floatPass_agrees {L' : V2.Libc} (hsin : L.sin = L'.sin) (h : Views f 4 a x)
    (hn : x.length / 4 ≤ intMax) (hfin : ∃ b ∈ elements Single x, b.finite) (t : Statics L)
    (u : Single × Single) :
    contentsOf (floatPass L false t a) = V2.stage false 4 (V2.frng L' (V2.floatSeeds u x)) x := by
  have hseeds : V2.floatSeeds u x = V2.floatSeeds sentinels.float x :=
    V2.minmaxT_congr (V2.exists_keepFloat hfin) _ _ _ _
  have hpass := floatPass_stage hsin false t h
  rw [stageInt, if_pos hn, ← hseeds] at hpass
  exact contentsOf_eq hpass

/-- **The two versions agree but for the byte pass.** On an array in memory or in a
file, the first version holds after its first pass, and after its second, what the
second version holds in the file, from any values in the static variables of the
one and in the variables of the scans of the other. The first pass runs to its end,
and so does the second where `sin` is bounded. -/
theorem shuffle3_agrees {L' : V2.Libc} (hsin : L.sin = L'.sin) (h8 : 1 ≤ x.length / 8)
    (h4 : x.length / 4 ≤ 2 ^ 31 - 1) (hfin : ∃ b ∈ elements Single x, b.finite) (t : Statics L)
    (u : V2.Locals) (ha : a = arCreateMemoryFrom x 1 x.length ∨ a = arCreateFile (.opened x) 1) :
    (∃ y, contentsOf (shuffle3Xoro L t a) = some y ∧
      V2.inTurn false ((V2.xshuffleStages L' false u).take 1) x = some y) ∧
    contentsOf (shuffle3Float L t a) = V2.inTurn false ((V2.xshuffleStages L' false u).take 2) x ∧
    (V2.Frng.SinBounded L' → ∃ z, V2.inTurn false ((V2.xshuffleStages L' false u).take 2) x = some z) := by
  obtain ⟨f, hviews⟩ : ∃ f, Views f 1 a x := by
    rcases ha with rfl | rfl
    · exact ⟨false, views_memory x⟩
    · exact ⟨true, views_file x⟩
  have hn8 : x.length / 8 ≤ intMax := by
    rw [intMax]
    omega
  obtain ⟨p, y, hp, hy, hviews'⟩ := shuffle3Xoro_agrees hviews h8 hn8 t u.long
  obtain ⟨hperm, hrest, hlen⟩ := V2.stage_preserves (by decide) hy
  -- the first pass permutes the elements that the second scans
  have hfin' : ∃ b ∈ elements Single y, b.finite := by
    obtain ⟨b, hb, hbfin⟩ := hfin
    have hperm4 :=
      elements_perm (τ := Single) (blocks_perm_of_dvd (v := 4) (by decide) (by decide) hperm hrest)
    exact ⟨b, hperm4.mem_iff.mpr hb, hbfin⟩
  have hn4 : y.length / 4 ≤ intMax := by
    rw [hlen]
    exact h4
  have htwo : V2.inTurn false ((V2.xshuffleStages L' false u).take 2) x =
      V2.stage false 4 (V2.frng L' (V2.floatSeeds u.float y)) y := by
    show (V2.stage false 8 _ x).bind (fun y => (V2.stage false 4 _ y).bind some) = _
    rw [hy, Option.bind_some, Option.bind_fun_some]
  refine ⟨⟨y, ?_, ?_⟩, ?_, fun hL => ?_⟩
  · rw [hp]
    exact congrArg some hviews'.contents
  · show (V2.stage false 8 _ x).bind some = some y
    rw [hy, Option.bind_some]
  · rw [htwo, ← floatPass_agrees hsin (hviews'.reinterpret 4) hn4 hfin' p.1 u.float, shuffle3Float, hp]
    rfl
  · rw [htwo]
    refine V2.exists_stage (by decide) false (frng_inRange hL hfin' _ ?_)
    rw [hlen]
    omega

/-- A C library with a `sin` that is its argument. -/
def tinyLibc : Libc := ⟨V2.sinTiny, id, V2.randR⟩

/-- Sixteen different bytes: two integers and four floats. -/
theorem shuffle3_agrees_sixteen :
    (∃ y, contentsOf (shuffle3Xoro tinyLibc (.initial _) (arCreateFile (.opened V2.sixteenBytes) 1)) = some y ∧
      V2.inTurn false ((V2.xshuffleStages V2.tinyLibc false .debug).take 1) V2.sixteenBytes = some y) ∧
    contentsOf (shuffle3Float tinyLibc (.initial _) (arCreateFile (.opened V2.sixteenBytes) 1)) =
      V2.inTurn false ((V2.xshuffleStages V2.tinyLibc false .debug).take 2) V2.sixteenBytes ∧
    ∃ z, V2.inTurn false ((V2.xshuffleStages V2.tinyLibc false .debug).take 2) V2.sixteenBytes = some z := by
  have hmem : (⟨0x01070605⟩ : Single) ∈ elements Single V2.sixteenBytes := by decide
  have hfin : (⟨0x01070605⟩ : Single).finite := Single.finite_iff.mpr (by decide)
  have hsin : tinyLibc.sin = V2.tinyLibc.sin := rfl
  obtain ⟨hfirst, hsecond, hend⟩ := shuffle3_agrees hsin (by decide) (by decide) ⟨_, hmem, hfin⟩ (.initial _)
    .debug (.inr rfl)
  exact ⟨hfirst, hsecond, hend V2.documented_tinyLibc.sin⟩

end Shuffle3.V1
