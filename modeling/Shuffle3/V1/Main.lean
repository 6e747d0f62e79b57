import Shuffle3.V1.Agreement

/-!
# Buffered and in place

`main` of the first version shuffles in place, through an array on the file itself,
or buffered: it reads the file into an array in memory, and writes a dump of the
array to another file. The dump is of elements, of the width that the last pass
leaves, and `unshuffle3` leaves eight.

## What is proved

* `mainInPlace_eq` — in place, the run is the stages one after the other.
* `mainBuffered_eq` — buffered, zeros take the place of the bytes after the last
  element.
* `exists_mainInPlace` — a run over a file ends, and so in both modes, where the file has
  a finite float whatever order its bytes are in.
* `buffered_eq_inPlace_iff` — when the two modes agree, and when buffered unshuffling
  undoes buffered shuffling.

## Honest scope

The files can be opened, and memory from `smalloc` is zero. Of a file that eight does not
divide and that has zeros enough for its tail, nothing is said of buffered unshuffling: the
draws decide where its zeros go.
-/

namespace Shuffle3.V1

open Foundations
open V2 (Sample)

variable {L : Libc} {f : Bool} {w : ℕ} {a : ArrayT} {x y z : List Byte} {un : Bool}

/-! ### The program -/

/-- The loop of `read_whole_file`, when `full` bytes are read. It reads to the start
of the buffer each time. -/
def readLoop (sz : ℕ) (buf : List Byte) (full : ℕ) (fp : Stream) : List Byte × ℕ :=
  let read := fp.fread (sz - full)
  if 0 < read.1.length then readLoop sz (splice buf 0 read.1) (full + read.1.length) read.2 else (buf, full)
termination_by sz - full
decreasing_by
  have hpos : 0 < (fp.fread (sz - full)).1.length := by assumption
  have hle : (fp.fread (sz - full)).1.length ≤ sz - full := List.length_take_le _ _
  omega

/-- `read_whole_file`. -/
def readWholeFile (fp : Stream) : Option ArrayT := do
  let fp ← fp.fseekEnd 0
  let sz := fp.pos
  let (buf, full) := readLoop sz (List.replicate sz 0#8) 0 (fp.fseekSet 0)
  if full = sz then some (arCreateMemoryFrom buf 1 sz) else none

/-- `unshuffle3` when `un`, and else `shuffle3`. -/
def shuffle3Or (L : Libc) (un : Bool) (t : Statics L) (data : ArrayT) :
    Option (Statics L × ArrayT) :=
  if un then unshuffle3 L t data else shuffle3 L t data

/-- `main`, buffered: what the output file holds at the end. -/
def mainBuffered (L : Libc) (un : Bool) (infile : List Byte) : Option (List Byte) := do
  let array ← readWholeFile (.opened infile)
  let (_, array) ← shuffle3Or L un (.initial L) array
  let wbuf := List.replicate array.fullSize 0#8
  let (_, dump, array) ← arNdump array array.fullSize 0 array.size
  some ((Stream.opened []).fwrite ((splice wbuf 0 dump).take array.fullSize)).fclose

/-- `main`, in place: what the file holds at the end. -/
def mainInPlace (L : Libc) (un : Bool) (infile : List Byte) : Option (List Byte) :=
  contentsOf (shuffle3Or L un (.initial L) (arCreateFile (.opened infile) 1))

/-! ### Reading and writing -/

theorem readWholeFile_opened (x : List Byte) :
    readWholeFile (.opened x) = some (arCreateMemoryFrom x 1 x.length) := by
  have hslice : slice x 0 x.length = x := List.take_length
  have hread : (⟨x, 0, []⟩ : Stream).fread x.length = (x, ⟨x, x.length, []⟩) := by
    simp only [Stream.fread, hslice, Nat.zero_add]
  have hend : ((⟨x, x.length, []⟩ : Stream).fread 0).1 = [] := rfl
  have hloop : readLoop x.length (List.replicate x.length 0#8) 0 ⟨x, 0, []⟩ = (x, x.length) := by
    rw [readLoop, Nat.sub_zero, hread]
    split_ifs with hpos
    · rw [Nat.zero_add, readLoop, Nat.sub_self, hend, if_neg (by simp)]
      simp [splice]
    · have hnil : x = [] := List.length_eq_zero_iff.mp (Nat.eq_zero_of_not_pos hpos)
      rw [hnil]
      rfl
  have hseek : (Stream.opened x).fseekEnd 0 = some ⟨x, x.length, []⟩ := if_pos (Nat.zero_le _)
  have hstart : (⟨x, x.length, []⟩ : Stream).fseekSet 0 = ⟨x, 0, []⟩ := rfl
  simp only [readWholeFile, hseek, Option.bind_eq_bind, Option.bind_some, hstart, hloop, if_true]

/-- What is written of the bytes `y` when they are dumped as elements of `w` bytes. -/
def dumped (w : ℕ) (y : List Byte) : List Byte :=
  y.take (y.length / w * w) ++ List.replicate (y.length % w) 0#8

theorem dumped_eq_self_iff : dumped w y = y ↔ rest w y = List.replicate (y.length % w) 0#8 := by
  have hy : y.take (y.length / w * w) ++ rest w y = y := List.take_append_drop _ _
  constructor
  · intro h
    rw [dumped] at h
    exact (List.append_cancel_left (h.trans hy.symm)).symm
  · intro h
    rw [dumped, ← h, hy]

theorem dumped_one (y : List Byte) : dumped 1 y = y := by
  apply dumped_eq_self_iff.mpr
  rw [rest, Nat.div_one, Nat.mul_one, Nat.mod_one, List.drop_length, List.replicate_zero]

/-- The part of the buffer after the dump is as it was allocated. -/
theorem splice_dump (y : List Byte) :
    (splice (List.replicate y.length 0#8) 0 (y.take (y.length / w * w))).take y.length =
      dumped w y := by
  have hle : y.length / w * w ≤ y.length := Nat.div_mul_le_self _ _
  have hmod : y.length - y.length / w * w = y.length % w := by
    have := Nat.div_add_mod y.length w
    rw [Nat.mul_comm] at this
    omega
  have hlen : (y.take (y.length / w * w)).length = y.length / w * w := by
    rw [List.length_take, Nat.min_eq_left hle]
  rw [splice, List.take_zero, List.nil_append, hlen, Nat.zero_add, List.drop_replicate, hmod]
  apply List.take_of_length_le
  rw [List.length_append, hlen, List.length_replicate, ← hmod]
  omega

theorem fclose_fwrite_opened (b : List Byte) : ((Stream.opened []).fwrite b).fclose = b := by
  have h : ((Stream.opened []).fwrite b).fclose = writeAt [] 0 ([] ++ b) := rfl
  rw [h, List.nil_append]
  exact writeAt_length [] b

/-! ### The stages of a run -/

/-- Stages in turn, over elements that an `int` can count. -/
def inTurnInt (un : Bool) : List V2.Stage → List Byte → Option (List Byte)
  | [], x => some x
  | s :: ss, x => (stageInt un s.1 (s.2 x) x).bind (inTurnInt un ss)

/-- An `int` can count the elements of all of them, or the run is undefined. -/
theorem inTurnInt_eq {ss : List V2.Stage} (hpos : ∀ s ∈ ss, 0 < s.1) :
    ∀ x : List Byte, inTurnInt un ss x =
      if ∀ s ∈ ss, x.length / s.1 ≤ intMax then V2.inTurn un ss x else none := by
  induction ss with
  | nil => intro x; rfl
  | cons s ss ih =>
    intro x
    rw [inTurnInt, V2.inTurn, stageInt]
    by_cases hn : x.length / s.1 ≤ intMax
    · rw [if_pos hn]
      cases hs : V2.stage un s.1 (s.2 x) x with
      | none => rw [Option.bind_none, Option.bind_none, ite_self]
      | some y =>
        have hlen := (V2.stage_preserves (hpos s List.mem_cons_self) hs).2.2
        have hall : (∀ t ∈ s :: ss, x.length / t.1 ≤ intMax) ↔ ∀ t ∈ ss, x.length / t.1 ≤ intMax := by
          rw [List.forall_mem_cons, and_iff_right hn]
        rw [Option.bind_some, Option.bind_some, ih (fun t ht => hpos t (List.mem_cons_of_mem _ ht)), hlen]
        exact if_congr hall.symm rfl rfl
    · rw [if_neg hn, if_neg fun h => hn (h s List.mem_cons_self), Option.bind_none]

/-- A sample of `drng` from the state of `rand`. -/
def randSample (L : Libc) : Sample L.ρ := fun r =>
  let (val, r) := L.rand r
  ((Floating.ofInt binary64 val.toInt).div (Floating.ofInt binary64 V2.randMax.toInt), r)

/-- The generator of the first pass. -/
def xoroGen (x : List Byte) : V2.Generator := V2.xorng (V2.longSeeds sentinels.long x)

/-- The generator of the second pass. -/
def floatGen (L : Libc) (x : List Byte) : V2.Generator :=
  V2.frng ⟨L.sin, V2.randR⟩ (V2.floatSeeds sentinels.float x)

/-- The generator of the third pass. -/
def byteGen (L : Libc) (x : List Byte) : V2.Generator :=
  ⟨V2.nextLong (randSample L), L.srand (byteSeed x)⟩

/-- The passes, as stages. -/
def passes (L : Libc) (un : Bool) : List V2.Stage := V2.stages un xoroGen (floatGen L) (byteGen L)

theorem bytePass_stage (un : Bool) (t : Statics L) (h : Views f 1 a x) :
    Option.Rel (fun p y => Views f 1 p.2 y) (bytePass L un t a) (stageInt un 1 (byteGen L x) x) := by
  have hsample : SamplesAs (drng L) (randSample L) Statics.rand := fun t => ⟨rfl, rfl⟩
  have hrel := bytePass_rel un t h
  rw [stageInt_nextInt (by decide) hsample] at hrel
  exact hrel

/-- The width that the last pass leaves. -/
def lastWidth (un : Bool) : ℕ := if un then 8 else 1

/-- **A run over an array is the stages in turn** on the bytes it holds. -/
theorem shuffle3Or_rel (un : Bool) (t : Statics L) (h : Views f 1 a x) :
    Option.Rel (fun p y => Views f (lastWidth un) p.2 y) (shuffle3Or L un t a) (inTurnInt un (passes L un) x) := by
  cases un with
  | true =>
    have hbyte := bytePass_stage true t h
    show Option.Rel _ (unshuffle3 L t a) ((stageInt true 1 (byteGen L x) x).bind fun y =>
      (stageInt true 4 (floatGen L y) y).bind fun z => (stageInt true 8 (xoroGen z) z).bind some)
    simp only [unshuffle3, unshuffle3Float, h.element, Option.bind_eq_bind, Option.bind_assoc]
    refine rel_bind hbyte fun p y hy =>
      rel_bind (floatPass_stage rfl true p.1 (hy.reinterpret 4)) fun q z hz => ?_
    rw [Option.bind_fun_some]
    exact xoroPass_stage true q.1 (hz.reinterpret 8)
  | false =>
    have hxoro := xoroPass_stage false t (h.reinterpret 8)
    show Option.Rel _ (shuffle3 L t a) ((stageInt false 8 (xoroGen x) x).bind fun y =>
      (stageInt false 4 (floatGen L y) y).bind fun z => (stageInt false 1 (byteGen L z) z).bind some)
    simp only [shuffle3, shuffle3Float, shuffle3Xoro, h.element, Option.bind_eq_bind, Option.bind_assoc]
    refine rel_bind hxoro fun p y hy =>
      rel_bind (floatPass_stage rfl false p.1 (hy.reinterpret 4)) fun q z hz => ?_
    rw [Option.bind_fun_some]
    exact bytePass_stage false q.1 (hz.reinterpret 1)

/-- **In place, the run is the stages in turn.** -/
theorem mainInPlace_eq (un : Bool) (x : List Byte) :
    mainInPlace L un x = inTurnInt un (passes L un) x :=
  contentsOf_eq (shuffle3Or_rel un _ (views_file x))

theorem pos_of_mem_passes : ∀ s ∈ passes L un, 0 < s.1 := V2.pos_of_mem_stages

/-- A run that ends has counted the bytes in an `int`, where it has a pass over them. -/
theorem length_of_inTurnInt {ss : List V2.Stage} (hpos : ∀ s ∈ ss, 0 < s.1)
    {g : List Byte → V2.Generator} (hone : (1, g) ∈ ss) (h : inTurnInt un ss x = some y) :
    y.length = x.length ∧ x.length ≤ intMax := by
  rw [inTurnInt_eq hpos] at h
  split_ifs at h with hn
  have hlen : x.length / 1 ≤ intMax := hn (1, g) hone
  exact ⟨(V2.inTurn_perm hpos h).length_eq, by rwa [Nat.div_one] at hlen⟩

theorem byteGen_mem_passes : (1, byteGen L) ∈ passes L un := by
  cases un <;> simp [passes, V2.stages]

/-- **Buffered, zeros take the place of the bytes after the last element.** -/
theorem mainBuffered_eq (un : Bool) (x : List Byte) :
    mainBuffered L un x = (mainInPlace L un x).map (dumped (lastWidth un)) := by
  have hrel := shuffle3Or_rel un (.initial L) (views_memory x)
  rw [mainInPlace_eq, mainBuffered, readWholeFile_opened, Option.bind_eq_bind, Option.bind_some]
  have hlen : ∀ y, inTurnInt un (passes L un) x = some y → y.length = x.length ∧ x.length ≤ intMax :=
    fun y => length_of_inTurnInt pos_of_mem_passes byteGen_mem_passes
  generalize shuffle3Or L un (.initial L) (arCreateMemoryFrom x 1 x.length) = o,
    inTurnInt un (passes L un) x = q at hrel hlen
  cases hrel with
  | none => rfl
  | @some p y h =>
    have hshort : y.length < 2 ^ 64 := by
      obtain ⟨hy, hx⟩ := hlen y rfl
      unfold intMax at hx
      omega
    simp only [Option.bind_eq_bind, Option.bind_some, h.ndump hshort, Option.map_some]
    rw [fclose_fwrite_opened, h.fullSize, splice_dump]

/-! ### Back again -/

theorem mainInPlace_perm (h : mainInPlace L un x = some y) : y.Perm x := by
  rw [mainInPlace_eq, inTurnInt_eq pos_of_mem_passes] at h
  split_ifs at h
  exact V2.inTurn_perm pos_of_mem_passes h

/-- The passes with the generators that both runs make. -/
def passPairs (L : Libc) : List V2.StagePair :=
  [(8, xoroGen, xoroGen), (4, floatGen L, floatGen L), (1, byteGen L, byteGen L)]

/-- **In place, unshuffling undoes shuffling.** -/
theorem mainInPlace_not (h : mainInPlace L false x = some y) : mainInPlace L true y = some x := by
  have hpos : ∀ s ∈ passPairs L, 0 < s.1 := by simp [passPairs]
  have hredrawn : V2.Redrawn false (passPairs L) x := by
    refine ⟨fun z hz => V2.xorng_draws hz _ _, fun y _ => ⟨fun z hz => V2.frng_draws _ hz (.inl rfl), fun y _ =>
      ⟨fun z hz => ?_, fun _ _ => trivial⟩⟩⟩
    rcases Nat.eq_zero_or_pos (y.length / 1) with h0 | hbytes
    · rw [h0]
      exact V2.generator_draws_zero _ _
    · rw [byteGen, byteGen, byteSeed, byteSeed, V2.byteSeeds_perm hz hbytes]
  rw [mainInPlace_eq, inTurnInt_eq pos_of_mem_passes] at h ⊢
  split_ifs at h with hn
  have hlen := (V2.inTurn_perm pos_of_mem_passes h).length_eq
  have hback := V2.inTurn_not hpos hredrawn h
  rw [if_pos, ← hback]
  · rfl
  · intro s hs
    rw [hlen]
    apply hn
    rwa [← List.mem_reverse]

/-! ### Runs that end -/

/-- The C library does as it is documented to: `sin` of a finite number is in `[-1, 1]`, and
`rand` is not negative. -/
structure Libc.Documented (L : Libc) : Prop where
  sin : V2.Frng.SinBounded ⟨L.sin, V2.randR⟩
  rand : ∀ r, 0 ≤ (L.rand r).1.toInt

/-- The seven lower bits are ones, as in the last byte of every NaN and infinity. -/
def topBits (b : Byte) : Bool := b.toNat % 128 = 127

theorem finite_of_topBits {b : Block Byte 4} (h : ∀ c ∈ b.val, topBits c = false) :
    (Layout.ofBytes b : Single).finite := by
  obtain ⟨l, hl⟩ := b
  rcases l with _ | ⟨b₀, _ | ⟨b₁, _ | ⟨b₂, _ | ⟨b₃, _ | ⟨b₄, l⟩⟩⟩⟩⟩ <;> simp at hl
  have htop : ¬ b₃.toNat % 128 = 127 := of_decide_eq_false (h b₃ (by simp))
  rw [Single.finite_iff]
  show (BitVec.ofNat 32 (leNat [b₀, b₁, b₂, b₃])).toNat / 2 ^ 23 % 2 ^ 8 ≠ 255
  simp only [BitVec.toNat_ofNat, leNat]
  omega

/-- The floats are too few to draw for, or more than the bytes that a NaN or an infinity
takes, so that whatever order the bytes are in one of the floats is finite. -/
def FloatsDraw (x : List Byte) : Prop := x.length / 4 < 2 ∨ x.countP topBits < x.length / 4

instance (x : List Byte) : Decidable (FloatsDraw x) := inferInstanceAs (Decidable (_ ∨ _))

theorem FloatsDraw.perm (h : FloatsDraw x) (hp : y.Perm x) : FloatsDraw y := by
  rwa [FloatsDraw, hp.length_eq, hp.countP_eq]

theorem exists_finite (h : x.countP topBits < x.length / 4) : ∃ f ∈ V2.elements Single x, f.finite := by
  by_contra hnone
  refine absurd (div_le_countP (w := 4) (p := topBits) fun b hb => ?_) (not_le.mpr h)
  by_contra htop
  refine hnone ⟨Layout.ofBytes b, List.mem_map_of_mem hb, finite_of_topBits fun c hc => ?_⟩
  exact Bool.eq_false_iff.mpr fun hc' => htop ⟨c, hc, hc'⟩

theorem floatGen_inRange (hL : L.Documented) (hn : x.length ≤ intMax) (h : FloatsDraw x) :
    (floatGen L x).InRange (x.length / 4) := by
  rcases h with hfew | hcount
  · have hnone : x.length / 4 - 1 = 0 := by omega
    rw [V2.Generator.InRange, hnone]
    trivial
  · refine frng_inRange hL.sin (exists_finite hcount) _ ?_
    unfold intMax at hn
    omega

theorem byteGen_inRange (hL : L.Documented) (hn : x.length ≤ intMax) :
    (byteGen L y).InRange (x.length / 1) := by
  have hsample (r : L.ρ) : Floating.Between 0 1 (randSample L r).1 := V2.between_randMax (hL.rand r)
  unfold intMax at hn
  exact V2.inRange_of_between (P := fun _ => True) (fun r _ => ⟨hsample r, trivial⟩) (by omega) trivial

/-- **A run ends** over every file that an `int` can count and whose floats draw. -/
theorem exists_mainInPlace (hL : L.Documented) (hn : x.length ≤ intMax) (h : FloatsDraw x) (un : Bool) :
    ∃ y, mainInPlace L un x = some y := by
  have hrange : ∀ s ∈ passes L un, ∀ y : List Byte, y.Perm x → (s.2 y).InRange (x.length / s.1) := by
    intro s hs y hy
    have hmem : s = (8, xoroGen) ∨ s = (4, floatGen L) ∨ s = (1, byteGen L) := by
      cases un <;> simp [passes, V2.stages] at hs <;> tauto
    rcases hmem with rfl | rfl | rfl
    · unfold intMax at hn
      exact V2.Xoroshiro128plus.inRange (show x.length / 8 - 1 ≤ 2 ^ 53 by omega) _
    · rw [← hy.length_eq] at hn ⊢
      exact floatGen_inRange hL hn (h.perm hy)
    · exact byteGen_inRange hL hn
  obtain ⟨y, hy⟩ := V2.exists_inTurn_of_perm un pos_of_mem_passes hrange
  refine ⟨y, ?_⟩
  rw [mainInPlace_eq, inTurnInt_eq pos_of_mem_passes, if_pos fun s _ => (Nat.div_le_self _ _).trans hn, hy]

/-! ### When the modes agree -/

/-- Buffered shuffling loses nothing. -/
theorem mainBuffered_of_shuffled (h : mainInPlace L false x = some y) : mainBuffered L false x = some y := by
  rw [mainBuffered_eq, h, Option.map_some]
  exact congrArg some (dumped_one y)

theorem mainBuffered_of_unshuffled (h : mainInPlace L true x = some y) :
    mainBuffered L true x = some (dumped 8 y) := by
  rw [mainBuffered_eq, h]
  rfl

theorem dumped_of_dvd (h : w ∣ y.length) : dumped w y = y := by
  rw [dumped_eq_self_iff, Nat.mod_eq_zero_of_dvd h, List.replicate_zero]
  exact List.length_eq_zero_iff.mp ((length_rest w y).trans (Nat.mod_eq_zero_of_dvd h))

/-- Bytes with fewer zeros than a dump puts after its elements are not their dump. -/
theorem dumped_ne_self (h : y.count 0#8 < y.length % w) : dumped w y ≠ y := by
  intro hself
  have hrest := dumped_eq_self_iff.mp hself
  have hle : (rest w y).count 0#8 ≤ y.count 0#8 := (List.drop_sublist _ _).count_le _
  rw [hrest, List.count_replicate_self] at hle
  omega

/-- Buffered, shuffling and then unshuffling returns the file but for zeros in its tail. -/
theorem mainBuffered_bind (h : mainInPlace L false x = some y) :
    (mainBuffered L false x).bind (mainBuffered L true) = some (dumped 8 x) := by
  rw [mainBuffered_of_shuffled h, Option.bind_some, mainBuffered_of_unshuffled (mainInPlace_not h)]

/-- A file of ones, which every run that ends leaves as it is. -/
theorem mainInPlace_ones (hL : L.Documented) {n : ℕ} (hn : n ≤ intMax) (un : Bool) :
    mainInPlace L un (List.replicate n 1#8) = some (List.replicate n 1#8) := by
  have hlen : (List.replicate n 1#8).length = n := List.length_replicate
  have hdraw : FloatsDraw (List.replicate n 1#8) := by
    have hcount : (List.replicate n 1#8).countP topBits = 0 := by rw [List.countP_replicate]; rfl
    rw [FloatsDraw, hcount, hlen]
    omega
  obtain ⟨y, hy⟩ := exists_mainInPlace hL (hlen.trans_le hn) hdraw un
  rw [hy, List.perm_replicate.mp (mainInPlace_perm hy)]

/-- Buffered unshuffling loses nothing of a file that eight divides. -/
theorem mainBuffered_of_dvd (h : mainInPlace L true x = some y) (h8 : 8 ∣ x.length) :
    mainBuffered L true x = some y := by
  rw [mainBuffered_of_unshuffled h, dumped_of_dvd]
  rwa [(mainInPlace_perm h).length_eq]

/-- It loses bytes of a file with too few zeros to stand in for them. -/
theorem mainBuffered_ne (h : mainInPlace L true x = some y) (hzeros : x.count 0#8 < x.length % 8) :
    mainBuffered L true x ≠ some y := by
  have hperm := mainInPlace_perm h
  rw [← hperm.length_eq, ← hperm.count_eq] at hzeros
  rw [mainBuffered_of_unshuffled h, ne_eq, Option.some_inj]
  exact dumped_ne_self hzeros

/-- **The lengths that buffered unshuffling is right for** are those that eight divides: the file
of ones has no zero for the bytes that are left over. -/
theorem dvd_iff_mainBuffered (hL : L.Documented) {n : ℕ} (hn : n ≤ intMax) : 8 ∣ n ↔
    ∀ x y, x.length = n → mainInPlace L true x = some y → mainBuffered L true x = some y := by
  constructor
  · intro h8 x y hx hy
    exact mainBuffered_of_dvd hy (hx ▸ h8)
  · intro hall
    by_contra h8
    have hones := mainInPlace_ones hL hn true
    refine mainBuffered_ne hones ?_ (hall _ _ List.length_replicate hones)
    rw [List.length_replicate, List.count_replicate]
    exact Nat.pos_of_ne_zero fun h0 => h8 (Nat.dvd_of_mod_eq_zero h0)

/-- **When buffered and in place are the same**, where the run ends, as it does in both modes
or in neither. Shuffling they always are. Unshuffling they are when eight divides the length,
which is the condition on the length alone, and they differ when the file has fewer zeros than
its length leaves over. Buffered shuffling and then buffered unshuffling returns the file
exactly when the bytes are zero that come after its elements of eight bytes. -/
theorem buffered_eq_inPlace_iff (L : Libc) :
    (∀ un x, (mainBuffered L un x).isSome = (mainInPlace L un x).isSome) ∧
    (∀ x y, mainInPlace L false x = some y → mainBuffered L false x = some y ∧
      ((mainBuffered L false x).bind (mainBuffered L true) = some x ↔
        rest 8 x = List.replicate (x.length % 8) 0#8)) ∧
    (∀ x y, mainInPlace L true x = some y → (8 ∣ x.length → mainBuffered L true x = some y) ∧
      (x.count 0#8 < x.length % 8 → mainBuffered L true x ≠ some y)) ∧
    (L.Documented →
      (∀ x, x.length ≤ intMax → FloatsDraw x → ∀ un, ∃ y, mainInPlace L un x = some y) ∧
      ∀ n ≤ intMax, 8 ∣ n ↔
        ∀ x y, x.length = n → mainInPlace L true x = some y → mainBuffered L true x = some y) := by
  refine ⟨fun un x => ?_, fun x y hy => ⟨mainBuffered_of_shuffled hy, ?_⟩,
    fun x y hy => ⟨mainBuffered_of_dvd hy, mainBuffered_ne hy⟩,
    fun hL => ⟨fun x hn h un => exists_mainInPlace hL hn h un, fun n hn => dvd_iff_mainBuffered hL hn⟩⟩
  · rw [mainBuffered_eq, Option.isSome_map]
  · rw [mainBuffered_bind hy, Option.some_inj]
    exact dumped_eq_self_iff

theorem documented_tinyLibc : tinyLibc.Documented := ⟨V2.sinBounded_sinTiny _, V2.randR_nonneg⟩

/-- Sixteen different bytes, which have no bytes after their elements, and then seventeen. -/
theorem buffered_eq_inPlace_sixteen :
    (∃ y, mainInPlace tinyLibc false V2.sixteenBytes = some y ∧
      mainBuffered tinyLibc false V2.sixteenBytes = some y ∧
      (mainBuffered tinyLibc false V2.sixteenBytes).bind (mainBuffered tinyLibc true) = some V2.sixteenBytes) ∧
    (∃ y, mainInPlace tinyLibc true V2.sixteenBytes = some y ∧
      mainBuffered tinyLibc true V2.sixteenBytes = some y) ∧
    ∃ y, mainInPlace tinyLibc true (V2.sixteenBytes ++ [17]) = some y ∧
      mainBuffered tinyLibc true (V2.sixteenBytes ++ [17]) ≠ some y := by
  obtain ⟨-, hshuffle, hunshuffle, hends⟩ := buffered_eq_inPlace_iff tinyLibc
  obtain ⟨hruns, -⟩ := hends documented_tinyLibc
  obtain ⟨y, hy⟩ := hruns V2.sixteenBytes (by decide) (by decide) false
  obtain ⟨z, hz⟩ := hruns V2.sixteenBytes (by decide) (by decide) true
  obtain ⟨z', hz'⟩ := hruns (V2.sixteenBytes ++ [17]) (by decide) (by decide) true
  obtain ⟨hsame, hback⟩ := hshuffle _ _ hy
  exact ⟨⟨y, hy, hsame, hback.mpr rfl⟩, ⟨z, hz, (hunshuffle _ _ hz).1 (by decide)⟩,
    z', hz', (hunshuffle _ _ hz').2 (by decide)⟩

/-- Seventeen ones: unshuffled in place they are the same, and buffered the last is
zero. -/
theorem buffered_ne_inPlace_ones :
    mainInPlace tinyLibc true (List.replicate 17 1#8) = some (List.replicate 17 1#8) ∧
    mainBuffered tinyLibc true (List.replicate 17 1#8) = some (List.replicate 16 1#8 ++ [0#8]) ∧
    mainBuffered tinyLibc true (List.replicate 17 1#8) ≠ mainInPlace tinyLibc true (List.replicate 17 1#8) ∧
    (mainBuffered tinyLibc false (List.replicate 17 1#8)).bind (mainBuffered tinyLibc true) ≠
      some (List.replicate 17 1#8) := by
  have hones := mainInPlace_ones documented_tinyLibc (n := 17) (by decide)
  have hunshuffle : mainBuffered tinyLibc true (List.replicate 17 1#8) =
      some (List.replicate 16 1#8 ++ [0#8]) := by
    rw [mainBuffered_eq, hones]
    rfl
  have hshuffle : mainBuffered tinyLibc false (List.replicate 17 1#8) = some (List.replicate 17 1#8) := by
    rw [mainBuffered_eq, hones]
    rfl
  have hne : (some (List.replicate 16 1#8 ++ [0#8]) : Option (List Byte)) ≠ some (List.replicate 17 1#8) := by
    decide
  refine ⟨hones true, hunshuffle, ?_, ?_⟩
  · rw [hunshuffle, hones]
    exact hne
  · rw [hshuffle, Option.bind_some, hunshuffle]
    exact hne

end Shuffle3.V1
