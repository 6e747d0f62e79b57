import Shuffle3.Foundations.Blocks
import Shuffle3.Foundations.Bytes
import Shuffle3.V2.MinMax
import Shuffle3.V2.Shuffle

/-!
# Shuffling a file in place

`work::xshuffle_ip`: three stages over one mapping of the file, seen as elements of
eight bytes, of four and of one. A stage scans the contents it finds for its
seeds, and shuffles or unshuffles them with the generator it makes of the seeds.

`stages` is the order of the stages with any generators in them; `xshuffleIp` is
the program.

## What is proved

* `stage_eq` — a stage is its draws and a run of exchanges of blocks.
* `stages_preserve` — no byte is lost or invented, whatever the generators.

## Honest scope

The file is mapped whole, so an empty one cannot be: the program panics. The
container of `unshuffle` is that of the build without a spill buffer.
-/

namespace Shuffle3.V2

open Foundations

/-! ### The program -/

/-- The file as elements of a type: `reinterpret`. -/
def elements (τ : Type) [Layout τ] (file : List Byte) : List τ :=
  (blocks (Layout.sizeof τ) file).map Layout.ofBytes

/-- A generator and the state it is in. -/
structure Generator where
  {σ : Type}
  next : NextLong (BitVec 64) σ
  state : σ

theorem length_elements (τ : Type) [Layout τ] (x : List Byte) :
    (elements τ x).length = x.length / Layout.sizeof τ := by
  rw [elements, List.length_map, length_blocks]

theorem elements_perm {τ : Type} [Layout τ] {x y : List Byte}
    (h : (blocks (Layout.sizeof τ) y).Perm (blocks (Layout.sizeof τ) x)) :
    (elements τ y).Perm (elements τ x) :=
  h.map _

/-- `rng::shuffle` or `rng::unshuffle` of the file as a span of elements of `w` bytes. -/
def stage (un : Bool) (w : ℕ) (g : Generator) (file : List Byte) : Option (List Byte) :=
  let span : Overlay Byte w := ⟨file⟩
  (if un then unshuffle g.next (plainVector (BitVec 64)) span g.state
    else shuffle g.next span g.state).map fun p => p.1.flat

/-- A stage: the width of its elements, and the generator it makes of the contents it finds. -/
abbrev Stage := ℕ × (List Byte → Generator)

/-- Stages one after the other. -/
def inTurn (un : Bool) : List Stage → List Byte → Option (List Byte)
  | [], file => some file
  | s :: ss, file => (stage un s.1 (s.2 file) file).bind (inTurn un ss)

/-- The order of the stages. -/
def stages (un : Bool) (long float byte : List Byte → Generator) : List Stage :=
  if un then [(1, byte), (4, float), (8, long)] else [(8, long), (4, float), (1, byte)]

/-- What the variables of the three calls of `minmax_t` hold on entry. -/
structure Locals where
  long : Int64 × Int64
  float : Single × Single
  byte : Int8 × Int8

/-- In the `DEBUG` build they are zero. -/
def Locals.debug : Locals := ⟨(0, 0), (⟨0⟩, ⟨0⟩), (0, 0)⟩

/-- `long_l` and `long_h`. -/
def longSeeds (u : Int64 × Int64) (file : List Byte) : Int64 × Int64 :=
  minmaxT keepAll u.1 u.2 (elements Int64 file)

/-- `float_l` and `float_h`. -/
def floatSeeds (u : Single × Single) (file : List Byte) : Single × Single :=
  minmaxT keepFloat u.1 u.2 (elements Single file)

/-- `byte_l` and `byte_h`. -/
def byteSeeds (u : Int8 × Int8) (file : List Byte) : Int8 × Int8 :=
  minmaxT keepAll u.1 u.2 (elements Int8 file)

/-- `xorng`. -/
def xorng (seeds : Int64 × Int64) : Generator :=
  ⟨nextLong Xoroshiro128plus.sample, ⟨seeds.1.toBitVec, seeds.2.toBitVec⟩⟩

/-- `frng`. The seeds are converted to `double`. -/
def frng (L : Libc) (seeds : Single × Single) : Generator :=
  ⟨nextLong (Frng.sample L), ⟨seeds.1.toFloating.convert binary64, seeds.2.toFloating.convert binary64⟩⟩

/-- `drng`. -/
def drng (L : Libc) (seeds : Int8 × Int8) : Generator :=
  ⟨nextLong (Drng.sample L),
    ⟨(0xfffa#32 <<< 16) ||| (seeds.1.toBitVec.signExtend 32 <<< 7) ||| seeds.2.toBitVec.signExtend 32⟩⟩

/-- The stages of the program, with their generators. -/
def xshuffleStages (L : Libc) (un : Bool) (u : Locals) : List Stage :=
  stages un (fun x => xorng (longSeeds u.long x)) (fun x => frng L (floatSeeds u.float x))
    fun x => drng L (byteSeeds u.byte x)

/-- `work::xshuffle_ip`, where `u` is what its scans' variables hold on entry. -/
def xshuffleIp (L : Libc) (un : Bool) (u : Locals) (file : List Byte) : Option (List Byte) :=
  if file = [] then none else inTurn un (xshuffleStages L un u) file

/-! ### One stage -/

/-- The draws of a generator for the bounds `i`, …, 1. -/
def Generator.draws (g : Generator) (i : ℕ) : Option (List (BitVec 64)) :=
  (V2.draws g.next i g.state).map Prod.fst

/-- The draws for a span of `n` elements succeed, each at most its bound. -/
def Generator.InRange (g : Generator) (n : ℕ) : Prop := V2.InRange g.next (n - 1) g.state

variable {w : ℕ} {file out : List Byte}

theorem stage_eq_map (un : Bool) (g : Generator) (file : List Byte) : stage un w g file =
    (drawAndExchange g.next un (⟨file⟩ : Overlay Byte w) g.state).map fun p => p.1.flat := by
  cases un <;> simp [stage, shuffle_eq, unshuffle_plain_eq]

/-- **A stage is its draws and a run of exchanges of blocks.** -/
theorem stage_eq (hw : 0 < w) (un : Bool) (g : Generator) (file : List Byte) :
    stage un w g file = (g.draws (file.length / w - 1)).bind fun js =>
      (exchanges (order un js) (blocks w file)).map fun bs => join bs ++ rest w file := by
  have hrel := drawAndExchange_rel (holds_overlay (length_rest_lt hw file)) (Overlay.has_blocks file)
    g.next un g.state
  rw [drawAndExchange, drawAndExchange, size_list, length_blocks] at hrel
  rw [stage_eq_map, drawAndExchange, Generator.draws]
  have hsize : Indexed.size (⟨file⟩ : Overlay Byte w) = file.length / w := rfl
  rw [hsize] at hrel ⊢
  cases hd : V2.draws g.next (file.length / w - 1) g.state with
  | none => rfl
  | some p =>
    rw [hd] at hrel
    simp only [Option.bind_some, Option.map_some, Option.map_map] at hrel ⊢
    generalize exchanges (order un p.1) (⟨file⟩ : Overlay Byte w) = o,
    exchanges (order un p.1) (blocks w file) = q at hrel
    cases o with
    | none => cases q with
      | none => rfl
      | some bs => cases hrel
    | some m => cases q with
      | none => cases hrel
      | some bs =>
        cases hrel with
        | some h => exact congrArg some h.1

/-- A stage depends on its generator through the draws. -/
theorem stage_congr (hw : 0 < w) (un : Bool) {g g' : Generator}
    (h : g.draws (file.length / w - 1) = g'.draws (file.length / w - 1)) :
    stage un w g file = stage un w g' file := by
  rw [stage_eq hw, stage_eq hw, h]

theorem stage_eq_some_iff (hw : 0 < w) {un : Bool} {g : Generator} :
    stage un w g file = some out ↔ ∃ js, g.draws (file.length / w - 1) = some js ∧
      ∃ bs, exchanges (order un js) (blocks w file) = some bs ∧ join bs ++ rest w file = out := by
  rw [stage_eq hw, Option.bind_eq_some_iff]
  simp only [Option.map_eq_some_iff]

/-- **What a stage leaves as it was**: the multiset of its blocks, the bytes after
them, and the length. -/
theorem stage_preserves (hw : 0 < w) {un : Bool} {g : Generator}
    (h : stage un w g file = some out) :
    (blocks w out).Perm (blocks w file) ∧ rest w out = rest w file ∧ out.length = file.length := by
  obtain ⟨js, -, bs, hbs, rfl⟩ := (stage_eq_some_iff hw).mp h
  have hblocks : blocks w (join bs ++ rest w file) = bs :=
    blocks_join_append (length_rest_lt hw file)
  have hrest : rest w (join bs ++ rest w file) = rest w file :=
    rest_join_append (length_rest_lt hw file)
  have hperm : (blocks w (join bs ++ rest w file)).Perm (blocks w file) := by
    rw [hblocks]
    exact exchanges_perm hbs
  exact ⟨hperm, hrest, (perm_of_blocks_perm hperm hrest).length_eq⟩

/-- The same draws in the other direction lead back. -/
theorem stage_not (hw : 0 < w) {un : Bool} {g g' : Generator} (h : stage un w g file = some out)
    (hg : g'.draws (file.length / w - 1) = g.draws (file.length / w - 1)) :
    stage (!un) w g' out = some file := by
  have hlen := (stage_preserves hw h).2.2
  obtain ⟨js, hd, bs, hbs, rfl⟩ := (stage_eq_some_iff hw).mp h
  have ht := length_rest_lt hw file
  refine (stage_eq_some_iff hw).mpr ⟨js, by rw [hlen, hg, hd], blocks w file, ?_, ?_⟩
  · rw [blocks_join_append ht, order_not]
    exact exchanges_reverse hbs
  · rw [rest_join_append ht, join_blocks_append_rest]

/-- **Draws in range reach the end of the stage.** -/
theorem exists_stage (hw : 0 < w) (un : Bool) {g : Generator} (h : g.InRange (file.length / w)) :
    ∃ out, stage un w g file = some out := by
  rw [Generator.InRange, ← length_blocks w file] at h
  obtain ⟨bs, s', hbs⟩ := h.exists un
  obtain ⟨js, hd, he⟩ := drawAndExchange_eq_some_iff.mp hbs
  rw [size_list, length_blocks] at hd
  exact ⟨_, (stage_eq_some_iff hw).mpr ⟨js, by rw [Generator.draws, hd]; rfl, bs, he, rfl⟩⟩

/-! ### Stages in turn -/

theorem inTurn_perm {un : Bool} {ss : List Stage} (hpos : ∀ s ∈ ss, 0 < s.1) :
    ∀ {x out : List Byte}, inTurn un ss x = some out → out.Perm x := by
  induction ss with
  | nil => intro x out h; cases h; exact List.Perm.refl _
  | cons s ss ih =>
    intro x out h
    obtain ⟨y, hy, h⟩ := Option.bind_eq_some_iff.mp h
    obtain ⟨hblocks, hrest, -⟩ := stage_preserves (hpos s List.mem_cons_self) hy
    exact (ih (fun t ht => hpos t (List.mem_cons_of_mem _ ht)) h).trans
      (perm_of_blocks_perm hblocks hrest)

/-- Stages run to their end where each is in range for the bytes of the file in any order. -/
theorem exists_inTurn_of_perm (un : Bool) {ss : List Stage} (hpos : ∀ s ∈ ss, 0 < s.1) :
    ∀ {x : List Byte}, (∀ s ∈ ss, ∀ y : List Byte, y.Perm x → (s.2 y).InRange (x.length / s.1)) →
      ∃ out, inTurn un ss x = some out := by
  induction ss with
  | nil => exact fun {x} _ => ⟨x, rfl⟩
  | cons s ss ih =>
    intro x hg
    have hs := hpos s List.mem_cons_self
    obtain ⟨y, hy⟩ := exists_stage hs un (hg s List.mem_cons_self x (List.Perm.refl x))
    obtain ⟨hblocks, hrest, hlen⟩ := stage_preserves hs hy
    have hperm := perm_of_blocks_perm hblocks hrest
    obtain ⟨out, h⟩ := ih (fun t ht => hpos t (List.mem_cons_of_mem _ ht)) (x := y) fun t ht z hz => by
      rw [hlen]
      exact hg t (List.mem_cons_of_mem _ ht) z (hz.trans hperm)
    exact ⟨out, Option.bind_eq_some_iff.mpr ⟨y, hy, h⟩⟩

theorem exists_inTurn {n : ℕ} (un : Bool) {ss : List Stage} (hpos : ∀ s ∈ ss, 0 < s.1)
    (hg : ∀ s ∈ ss, ∀ x : List Byte, x.length = n → (s.2 x).InRange (n / s.1)) {x : List Byte}
    (hx : x.length = n) :
    ∃ out, inTurn un ss x = some out :=
  exists_inTurn_of_perm un hpos fun s hs y hy => hx ▸ hg s hs y (hy.length_eq.trans hx)

theorem inTurn_append (un : Bool) (ss ts : List Stage) (x : List Byte) :
    inTurn un (ss ++ ts) x = (inTurn un ss x).bind (inTurn un ts) := by
  induction ss generalizing x with
  | nil => rfl
  | cons s ss ih => simp only [List.cons_append, inTurn, Option.bind_assoc, ih]

theorem pos_of_mem_stages {un : Bool} {long float byte : List Byte → Generator} :
    ∀ s ∈ stages un long float byte, 0 < s.1 := by
  cases un <;> simp [stages]

theorem xshuffleIp_perm {L : Libc} {un : Bool} {u : Locals}
    (h : xshuffleIp L un u file = some out) :
    out.Perm file := by
  unfold xshuffleIp at h
  split_ifs at h
  exact inTurn_perm pos_of_mem_stages h

/-- **No byte is lost or invented**, whatever the generators draw in range: a stage
permutes its blocks and leaves the bytes after them and the length, the first
stage permutes the blocks of four bytes too, and all three together permute the
bytes of the file. The last part is the program with its own generators, from any
values in the variables of its scans. -/
theorem stages_preserve :
    (∀ w ∈ [8, 4, 1], ∀ (un : Bool) (g : Generator) (file : List Byte), g.InRange (file.length / w) →
      ∃ out, stage un w g file = some out ∧ (blocks w out).Perm (blocks w file) ∧ rest w out = rest w file ∧
        out.length = file.length ∧ (w = 8 → (blocks 4 out).Perm (blocks 4 file))) ∧
    (∀ (un : Bool) (long float byte : List Byte → Generator) (file : List Byte),
      (∀ s ∈ stages un long float byte, ∀ x : List Byte, x.length = file.length →
        (s.2 x).InRange (file.length / s.1)) →
      ∃ out, inTurn un (stages un long float byte) file = some out ∧ out.length = file.length ∧ out.Perm file) ∧
    ∀ (L : Libc) (un : Bool) (u : Locals) (file out : List Byte), xshuffleIp L un u file =
      some out →
      out.length = file.length ∧ out.Perm file := by
  refine ⟨fun w hw un g file hg => ?_, fun un long float byte file hg => ?_, fun L un u file out h => ?_⟩
  · have hpos : 0 < w := by
      simp only [List.mem_cons, List.not_mem_nil, or_false] at hw
      omega
    obtain ⟨out, h⟩ := exists_stage hpos un hg
    obtain ⟨hblocks, hrest, hlen⟩ := stage_preserves hpos h
    refine ⟨out, h, hblocks, hrest, hlen, ?_⟩
    rintro rfl
    exact blocks_perm_of_dvd (by decide) (by decide) hblocks hrest
  · obtain ⟨out, h⟩ := exists_inTurn un pos_of_mem_stages hg rfl
    have hperm := inTurn_perm pos_of_mem_stages h
    exact ⟨out, h, hperm.length_eq, hperm⟩
  · have hperm := xshuffleIp_perm h
    exact ⟨hperm.length_eq, hperm⟩

end Shuffle3.V2
