import Shuffle3.V2.Work

/-!
# What the seeds depend on

The scans start from variables that the release build does not initialise. Their
values reach a generator when the scan keeps nothing, which is possible for the
scan of the floats alone: a view of two or more floats that are all NaNs and
infinities seeds `frng` with them.

## What is proved

* `xorng_draws`, `frng_draws`, `drng_draws` — the draws of a stage are the same
  for every order of its elements, and from every entry values that the scan of
  the floats does not hand on.
* `seedsDetermined_iff` — when the seeds are a function of the bytes of the file.
-/

namespace Shuffle3.V2

open Foundations

variable {x y : List Byte}

/-! ### The seeds of permuted contents -/

/-- The scan of all the elements finds the same two in every order. -/
theorem minmaxT_elements {τ : Type} [Layout τ] [LT τ] [DecidableLT τ] {k : τ → ℤ}
    (hinj : Function.Injective k) (hlt : ∀ a b : τ, a < b ↔ k a < k b)
    (h : (elements τ y).Perm (elements τ x)) (hx : 0 < x.length / Layout.sizeof τ) (u u' : τ × τ) :
    minmaxT keepAll u'.1 u'.2 (elements τ y) = minmaxT keepAll u.1 u.2 (elements τ x) := by
  have hkept : ∃ a ∈ elements τ x, keepAll a := by
    rw [← length_elements τ x] at hx
    exact ⟨(elements τ x)[0], List.getElem_mem hx, rfl⟩
  have hval := minmaxT_perm (fun a b _ _ => hlt a b) hkept h u.1 u.2 u'.1 u'.2
  exact Prod.ext (hinj hval.1) (hinj hval.2)

theorem generator_draws_zero (g g' : Generator) : g.draws 0 = g'.draws 0 := rfl

theorem longSeeds_perm (h : (blocks 8 y).Perm (blocks 8 x)) (hx : 0 < x.length / 8)
    (u u' : Int64 × Int64) :
    longSeeds u' y = longSeeds u x :=
  minmaxT_elements (fun _ _ => Int64.toInt.inj) (fun _ _ => Int64.lt_iff_toInt_lt)
    (elements_perm (τ := Int64) h) hx
    u u'

/-- **The long stage makes the same draws for every order of its elements.** -/
theorem xorng_draws (h : (blocks 8 y).Perm (blocks 8 x)) (u u' : Int64 × Int64) :
    (xorng (longSeeds u' y)).draws (x.length / 8 - 1) =
      (xorng (longSeeds u x)).draws (x.length / 8 - 1) := by
  rcases Nat.eq_zero_or_pos (x.length / 8) with h0 | hpos
  · rw [h0]; exact generator_draws_zero _ _
  · rw [longSeeds_perm h hpos u u']

theorem byteSeeds_perm (h : (blocks 1 y).Perm (blocks 1 x)) (hx : 0 < x.length / 1)
    (u u' : Int8 × Int8) :
    byteSeeds u' y = byteSeeds u x :=
  minmaxT_elements (fun _ _ => Int8.toInt.inj) (fun _ _ => Int8.lt_iff_toInt_lt) (elements_perm (τ := Int8) h) hx
    u u'

/-- **The byte stage makes the same draws for every order of its elements.** -/
theorem drng_draws (L : Libc) (h : (blocks 1 y).Perm (blocks 1 x)) (u u' : Int8 × Int8) :
    (drng L (byteSeeds u' y)).draws (x.length / 1 - 1) =
      (drng L (byteSeeds u x)).draws (x.length / 1 - 1) := by
  rcases Nat.eq_zero_or_pos (x.length / 1) with h0 | hpos
  · rw [h0]; exact generator_draws_zero _ _
  · rw [byteSeeds_perm h hpos u u']

/-- There are not two floats to shuffle, or one of them is neither a NaN nor an infinity. -/
def FloatsSeed (x : List Byte) : Prop := x.length / 4 < 2 ∨ ∃ f ∈ elements Single x, f.finite

theorem FloatsSeed.perm (h : FloatsSeed x) (hp : (blocks 4 y).Perm (blocks 4 x))
    (hlen : y.length = x.length) :
    FloatsSeed y := by
  rcases h with hlt | ⟨f, hf, hfin⟩
  · exact .inl (hlen ▸ hlt)
  · exact .inr ⟨f, (elements_perm (τ := Single) hp).mem_iff.mpr hf, hfin⟩

theorem filter_keepFloat_eq_nil (h : ¬ ∃ f ∈ elements Single x, f.finite) :
    (elements Single x).filter keepFloat = [] :=
  List.filter_eq_nil_iff.mpr fun f hf hk => h ⟨f, hf, keepFloat_iff.mp hk⟩

/-- A scan that keeps nothing hands on what its variables held. -/
theorem floatSeeds_of_not_finite (h : ¬ ∃ f ∈ elements Single x, f.finite) (u : Single × Single) :
    floatSeeds u x = u := by
  rw [floatSeeds, minmaxT_eq, filter_keepFloat_eq_nil h]

theorem frng_draws_of_alike (L : Libc) {s t : Single × Single}
    (h₁ : Floating.Alike s.1.toFloating t.1.toFloating)
    (h₂ : Floating.Alike s.2.toFloating t.2.toFloating) (i : ℕ) :
    (frng L s).draws i = (frng L t).draws i := by
  cases i with
  | zero => rfl
  | succ i =>
    have hsample := Frng.sample_congr (s := (frng L s).state) (t := (frng L t).state) L
      ⟨h₁.convert binary64, h₂.convert binary64⟩
    have hnext := nextLong_congr hsample (i + 1)
    simp only [Generator.draws, V2.draws]
    exact congrArg _ (congrArg (· >>= _) hnext)

/-- **The float stage makes the same draws for every order of its elements**, from
the same entry values or where the scan does not hand them on. -/
theorem frng_draws (L : Libc) (h : (blocks 4 y).Perm (blocks 4 x)) {u u' : Single × Single}
    (hu : u' = u ∨ FloatsSeed x) :
    (frng L (floatSeeds u' y)).draws (x.length / 4 - 1) =
      (frng L (floatSeeds u x)).draws (x.length / 4 - 1) := by
  have hp := elements_perm (τ := Single) h
  by_cases hfin : ∃ f ∈ elements Single x, f.finite
  · obtain ⟨hlo, hhi⟩ := minmaxT_float_perm (exists_keepFloat hfin) hp u.1 u.2 u'.1 u'.2
    exact frng_draws_of_alike L hlo hhi _
  · have hfin' : ¬ ∃ f ∈ elements Single y, f.finite :=
      fun ⟨f, hf, hf'⟩ => hfin ⟨f, hp.mem_iff.mp hf, hf'⟩
    rw [floatSeeds_of_not_finite hfin, floatSeeds_of_not_finite hfin']
    rcases hu with rfl | hlt | hsome
    · rfl
    · have h1 : x.length / 4 - 1 = 0 := by omega
      rw [h1]
      exact generator_draws_zero _ _
    · exact absurd hsome hfin

/-! ### Stages that make their draws again -/

/-- A stage with its generator in one run and in another. -/
abbrev StagePair := ℕ × (List Byte → Generator) × (List Byte → Generator)

def StagePair.left (s : StagePair) : Stage := (s.1, s.2.1)

def StagePair.right (s : StagePair) : Stage := (s.1, s.2.2)

/-- In the one run every stage finds contents from which the generator of the other
run, in whatever order they are, makes the same draws. -/
def Redrawn (un : Bool) : List StagePair → List Byte → Prop
  | [], _ => True
  | (w, g, g') :: ss, x =>
    (∀ z, (blocks w z).Perm (blocks w x) → (g' z).draws (x.length / w - 1) = (g x).draws (x.length / w - 1)) ∧
      ∀ y, stage un w (g x) x = some y → Redrawn un ss y

variable {un : Bool}

/-- **From the same contents the other run is the same.** -/
theorem inTurn_congr {ss : List StagePair} (hpos : ∀ s ∈ ss, 0 < s.1) :
    ∀ {x : List Byte}, Redrawn un ss x →
      inTurn un (ss.map StagePair.left) x = inTurn un (ss.map StagePair.right) x := by
  induction ss with
  | nil => intro x _; rfl
  | cons s ss ih =>
    obtain ⟨w, g, g'⟩ := s
    intro x h
    have hs : stage un w (g' x) x = stage un w (g x) x :=
      stage_congr (hpos _ List.mem_cons_self) un (h.1 x (List.Perm.refl _))
    simp only [List.map_cons, inTurn, StagePair.left, StagePair.right, hs]
    exact Option.bind_congr fun y hy =>
      ih (fun t ht => hpos t (List.mem_cons_of_mem _ ht)) (h.2 y hy)

/-- **From the contents it leaves the other run, in the other direction and with its
stages in the other order, leads back.** -/
theorem inTurn_not {ss : List StagePair} (hpos : ∀ s ∈ ss, 0 < s.1) :
    ∀ {x y : List Byte}, Redrawn un ss x → inTurn un (ss.map StagePair.left) x = some y →
      inTurn (!un) (ss.map StagePair.right).reverse y = some x := by
  induction ss with
  | nil => intro x y _ h; cases h; rfl
  | cons s ss ih =>
    obtain ⟨w, g, g'⟩ := s
    intro x y h hrun
    have hw := hpos _ List.mem_cons_self
    obtain ⟨z, hz, hrun⟩ := Option.bind_eq_some_iff.mp hrun
    have hback := ih (fun t ht => hpos t (List.mem_cons_of_mem _ ht)) (h.2 z hz) hrun
    rw [List.map_cons, List.reverse_cons, inTurn_append, hback, Option.bind_some, inTurn]
    rw [StagePair.right, stage_not hw hz (h.1 z (stage_preserves hw hz).1)]
    rfl

theorem Redrawn.takeWhile {p : StagePair → Bool} {ss : List StagePair} :
    ∀ {x : List Byte}, Redrawn un ss x → Redrawn un (ss.takeWhile p) x := by
  induction ss with
  | nil => intro x _; trivial
  | cons s ss ih =>
    intro x h
    rw [List.takeWhile_cons]
    split_ifs
    · exact ⟨h.1, fun y hy => ih (h.2 y hy)⟩
    · trivial

/-! ### Runs from other entry values -/

variable {L : Libc} {u u' : Locals} {file : List Byte}

/-- The stages of the program with their generators in two runs. -/
def xshufflePairs (L : Libc) (un : Bool) (u u' : Locals) : List StagePair :=
  let byte : StagePair :=
    (1, fun x => drng L (byteSeeds u.byte x), fun x => drng L (byteSeeds u'.byte x))
  let float : StagePair :=
    (4, fun x => frng L (floatSeeds u.float x), fun x => frng L (floatSeeds u'.float x))
  let long : StagePair :=
    (8, fun x => xorng (longSeeds u.long x), fun x => xorng (longSeeds u'.long x))
  if un then [byte, float, long] else [long, float, byte]

theorem map_left_xshufflePairs :
    (xshufflePairs L un u u').map StagePair.left = xshuffleStages L un u := by
  cases un <;> rfl

theorem map_right_xshufflePairs :
    (xshufflePairs L un u u').map StagePair.right = xshuffleStages L un u' := by
  cases un <;> rfl

theorem reverse_xshuffleStages : (xshuffleStages L un u).reverse = xshuffleStages L (!un) u := by
  cases un <;> rfl

theorem pos_of_mem_xshufflePairs : ∀ s ∈ xshufflePairs L un u u', 0 < s.1 := by
  cases un <;> simp [xshufflePairs]

/-- The contents that the stage of width `w` finds. -/
def contentsAt (L : Libc) (un : Bool) (u : Locals) (w : ℕ) (file : List Byte) :
    Option (List Byte) :=
  inTurn un ((xshuffleStages L un u).takeWhile fun s => s.1 != w) file

theorem length_contentsAt {w : ℕ} (h : contentsAt L un u w file = some x) :
    x.length = file.length :=
  (inTurn_perm (fun s hs => pos_of_mem_stages s ((List.takeWhile_sublist _).mem hs)) h).length_eq

theorem contentsAt_four (L : Libc) (un : Bool) (u : Locals) (file : List Byte) :
    contentsAt L un u 4 file = if un then stage true 1 (drng L (byteSeeds u.byte file)) file
      else stage false 8 (xorng (longSeeds u.long file)) file := by
  cases un <;> simp [contentsAt, xshuffleStages, stages, List.takeWhile_cons, inTurn]

/-- What the float stage finds does not depend on the entry values. -/
theorem contentsAt_four_congr (u u' : Locals) :
    contentsAt L un u 4 file = contentsAt L un u' 4 file := by
  rw [contentsAt_four, contentsAt_four]
  cases un with
  | false => exact stage_congr (by decide) false (xorng_draws (List.Perm.refl _) u'.long u.long)
  | true => exact stage_congr (by decide) true (drng_draws L (List.Perm.refl _) u'.byte u.byte)

/-- The runs from two entry values make the same draws, unless the scan of the
floats hands the values on. -/
theorem redrawn_xshufflePairs
    (h : u'.float = u.float ∨ ∀ x, contentsAt L un u 4 file = some x → FloatsSeed x) :
    Redrawn un (xshufflePairs L un u u') file := by
  rw [contentsAt_four] at h
  have hlong := fun x z (hz : (blocks 8 z).Perm (blocks 8 x)) => xorng_draws hz u.long u'.long
  have hbyte := fun x z (hz : (blocks 1 z).Perm (blocks 1 x)) => drng_draws L hz u.byte u'.byte
  have hfloat : ∀ x, (u'.float = u.float ∨ FloatsSeed x) → ∀ z, (blocks 4 z).Perm (blocks 4 x) → _ :=
    fun x hx z hz => frng_draws L hz hx
  cases un with
  | false =>
    exact ⟨hlong file, fun y hy => ⟨hfloat y (h.imp_right fun h => h y hy), fun z _ =>
      ⟨hbyte z, fun _ _ => trivial⟩⟩⟩
  | true =>
    exact ⟨hbyte file, fun y hy => ⟨hfloat y (h.imp_right fun h => h y hy), fun z _ =>
      ⟨hlong z, fun _ _ => trivial⟩⟩⟩

theorem contentsAt_congr
    (h : u'.float = u.float ∨ ∀ x, contentsAt L un u 4 file = some x → FloatsSeed x) (w : ℕ) :
    contentsAt L un u w file = contentsAt L un u' w file := by
  have hleft : (xshufflePairs L un u u').map StagePair.left = xshuffleStages L un u :=
    map_left_xshufflePairs
  have hright : (xshufflePairs L un u u').map StagePair.right = xshuffleStages L un u' :=
    map_right_xshufflePairs
  have hredrawn := (redrawn_xshufflePairs h).takeWhile (p := fun s => s.1 != w)
  have key := inTurn_congr
    (fun s hs => pos_of_mem_xshufflePairs s ((List.takeWhile_sublist _).mem hs)) hredrawn
  rw [contentsAt, contentsAt, ← hleft, ← hright, List.takeWhile_map, List.takeWhile_map]
  exact key

theorem xshuffleIp_congr
    (h : u'.float = u.float ∨ ∀ x, contentsAt L un u 4 file = some x → FloatsSeed x) :
    xshuffleIp L un u file = xshuffleIp L un u' file := by
  have key := inTurn_congr pos_of_mem_xshufflePairs (redrawn_xshufflePairs h)
  rw [map_left_xshufflePairs, map_right_xshufflePairs] at key
  rw [xshuffleIp, xshuffleIp, key]

/-! ### When the seeds are a function of the file -/

/-- The seeds of every stage that draws, and what the run leaves, do not depend on
the entry values. -/
def SeedsDetermined (L : Libc) (un : Bool) (file : List Byte) : Prop :=
  ∀ u u' : Locals,
    (2 ≤ file.length / 8 →
      (contentsAt L un u 8 file).map (longSeeds u.long) = (contentsAt L un u' 8 file).map (longSeeds u'.long)) ∧
    (2 ≤ file.length / 4 →
      (contentsAt L un u 4 file).map (floatSeeds u.float) =
        (contentsAt L un u' 4 file).map (floatSeeds u'.float)) ∧
    (2 ≤ file.length / 1 →
      (contentsAt L un u 1 file).map (byteSeeds u.byte) = (contentsAt L un u' 1 file).map (byteSeeds u'.byte)) ∧
    xshuffleIp L un u file = xshuffleIp L un u' file

theorem seedsDetermined_of_floatsSeed
    (h : ∀ x, contentsAt L un .debug 4 file = some x → FloatsSeed x) :
    SeedsDetermined L un file := by
  intro u u'
  have hu : ∀ x, contentsAt L un u 4 file = some x → FloatsSeed x := fun x hx =>
    h x ((contentsAt_four_congr .debug u).trans hx)
  have hat (w : ℕ) : contentsAt L un u w file = contentsAt L un u' w file :=
    contentsAt_congr (.inr hu) w
  refine ⟨fun h8 => ?_, fun h4 => ?_, fun h1 => ?_, xshuffleIp_congr (.inr hu)⟩
  · rw [← hat]
    refine Option.map_congr fun x hx => ?_
    have hpos : 0 < x.length / 8 := by rw [length_contentsAt hx]; omega
    exact longSeeds_perm (List.Perm.refl _) hpos _ _
  · rw [← hat]
    refine Option.map_congr fun x hx => ?_
    rcases hu x hx with hlt | hfin
    · rw [length_contentsAt hx] at hlt; omega
    · exact minmaxT_congr (exists_keepFloat hfin) _ _ _ _
  · rw [← hat]
    refine Option.map_congr fun x hx => ?_
    have hpos : 0 < x.length / 1 := by rw [length_contentsAt hx]; omega
    exact byteSeeds_perm (List.Perm.refl _) hpos _ _

/-- Two floats or more, all of them NaNs and infinities, are seeded with the entry values. -/
theorem not_seedsDetermined (h : contentsAt L un .debug 4 file = some x) (hx : ¬ FloatsSeed x) :
    ¬ SeedsDetermined L un file := by
  intro hdet
  obtain ⟨hlen, hfin⟩ := not_or.mp hx
  let u : Locals := { Locals.debug with float := (⟨1⟩, ⟨1⟩) }
  have hu : contentsAt L un u 4 file = some x := (contentsAt_four_congr u .debug).trans h
  have hseeds := (hdet .debug u).2.1 (by rw [length_contentsAt h] at hlen; omega)
  rw [h, hu, Option.map_some, Option.map_some, floatSeeds_of_not_finite hfin,
    floatSeeds_of_not_finite hfin] at hseeds
  exact absurd hseeds (by decide)

/-- The long stage leaves the floats, so when shuffling the file itself decides. -/
theorem floatsSeed_iff_of_shuffle (h : contentsAt L false u 4 file = some x) :
    FloatsSeed x ↔ FloatsSeed file := by
  rw [contentsAt_four] at h
  obtain ⟨hblocks, hrest, hlen⟩ := stage_preserves (by decide) h
  have hp := blocks_perm_of_dvd (v := 4) (by decide) (by decide) hblocks hrest
  exact ⟨fun hx => hx.perm hp.symm hlen.symm, fun hx => hx.perm hp hlen⟩

/-- **The seeds are a function of the bytes of the file exactly when** the float
stage finds fewer than two floats or one that is neither a NaN nor an infinity;
when shuffling, exactly when the file has fewer than two or such a one. -/
theorem seedsDetermined_iff (L : Libc) (un : Bool) (file : List Byte) :
    (SeedsDetermined L un file ↔ ∀ x, contentsAt L un .debug 4 file = some x → FloatsSeed x) ∧
      ∀ x, contentsAt L false .debug 4 file = some x → (FloatsSeed x ↔ FloatsSeed file) := by
  refine ⟨⟨fun hdet x hx => ?_, seedsDetermined_of_floatsSeed⟩, fun x hx => floatsSeed_iff_of_shuffle hx⟩
  by_contra hnot
  exact not_seedsDetermined hx hnot hdet

/-- Eight bytes `0xff` are two NaNs and one `int64_t`, with which the long stage does
nothing. With no C library are their seeds determined. -/
theorem not_seedsDetermined_nans :
    ¬ ∃ L : Libc, SeedsDetermined L false (List.replicate 8 0xff#8) := by
  rintro ⟨L, hdet⟩
  have hfind : contentsAt L false .debug 4 (List.replicate 8 0xff#8) = some (List.replicate 8 0xff#8) := by
    rw [contentsAt_four, if_neg (by decide), stage_eq (by decide)]
    exact congrArg some (join_blocks_append_rest 8 _)
  refine not_seedsDetermined hfind ?_ hdet
  rintro (hlen | ⟨f, hf, hfin⟩)
  · exact absurd hlen (by decide)
  · have hall : ∀ f ∈ elements Single (List.replicate 8 0xff#8), f.exponent = 255 := by decide
    exact Single.finite_iff.mp hfin (hall f hf)

end Shuffle3.V2
