import Shuffle3.Foundations.Journals
import Shuffle3.V2.Program

/-!
# What a run leaves when it is killed

The mapping of a file is shared: what a run stores there is in the file at once, whether
the run comes to its end or not. So a run that is killed leaves its file as it is after
some store, in the middle of a stage.

## What is proved

* `Config.inTurnKept_follows` — the stages over contents that remember go as the stages do,
  and at no store is more than one element lost.
* `moments_spare` — at every moment of a run its file has all its bytes but for one element,
  at every second moment all of them, and every other file is as it was; `getLast_moments` —
  the last moment is what the run leaves.
* `lives_lack` — after any runs, some of them killed, a file lacks at most eight bytes for
  each run over it that was killed in the middle of an exchange.

## Honest scope

The stores come in the order of the source, and an element is stored in one step. What a
killed process has stored stays; what a machine that loses its power leaves is not modelled,
nor are the files in which a build keeps its draws.
-/

namespace Shuffle3.V2

open Foundations Foundations.Descriptors

/-! ### Runs that remember -/

/-- One stage as built, over contents that remember. -/
def Config.stageKept (c : Config) (un : Bool) (w : ℕ) (g : Generator) (file : Journal (List Byte)) :
    Option (Journal (List Byte)) :=
  let span : Journal (Overlay Byte w) := file.map Overlay.mk
  (if un then c.build.unshuffle c.spill g.next span g.state
    else shuffle g.next span g.state).map fun p => p.1.map Overlay.flat

/-- Stages one after the other, over contents that remember. -/
def Config.inTurnKept (c : Config) (un : Bool) :
    List Stage → Journal (List Byte) → Option (Journal (List Byte))
  | [], file => some file
  | s :: ss, file => (c.stageKept un s.1 (s.2 file.now) file).bind (c.inTurnKept un ss)

/-- The three stages, over the bytes that a mapping shows, with the states before and after
each store. -/
def shuffleMapKept (c : Config) (un : Bool) (u : Locals) (map : Mmap) (s : State) :
    Ending (List State) :=
  match c.inTurnKept un (xshuffleStages c.libc un u) ⟨[], s.load map.ptr map.len⟩ with
  | some file => .returns (file.moments.map (s.store map.ptr)) (s.store map.ptr file.now)
  | none => .undefined

/-- The states of a run in which its files can be found: those before and after each store
through its mapping, and the last. -/
def moments (c : Config) (inv : Invocation) (s : State) : Option (List State) :=
  match inv.work with
  | none => some [boot s inv.table]
  | some (un, file) =>
    match mapAndThen inv.kernel file (shuffleMapKept c un inv.locals) (boot s inv.table) with
    | .returns stores t => some (stores ++ [t])
    | .panics _ t => some [t]
    | .undefined => none

/-- What a run leaves that comes to its end, or that is killed at a moment before. -/
def leaves (c : Config) (inv : Invocation) (kill : Option ℕ) (s : State) : Option State :=
  (moments c inv s).bind fun ms => (kill.bind (ms[·]?)).or ms.getLast?

/-- Runs one after the other, each with the moment at which it is killed, if it is. -/
def lives (c : Config) : List (Invocation × Option ℕ) → State → Option State
  | [], s => some s
  | (inv, kill) :: rest, s => (leaves c inv kill s).bind (lives c rest)

variable {c : Config} {un : Bool} {u : Locals} {k : Kernel} {s t : State} {file out : List Byte}
  {path : String} {i w n : ℕ} {inv : Invocation} {past : List (List Byte)}

/-! ### The stages -/

theorem length_steps {δ : Type} [Index δ] (js : List δ) : (steps js).length = js.length := by
  induction js with
  | nil => rfl
  | cons j js ih => rw [steps, List.length_cons, List.length_cons, ih]

theorem length_order {δ : Type} [Index δ] (un : Bool) (js : List δ) :
    (order un js).length = js.length := by
  cases un <;> simp [order, length_steps]

/-- A memory that remembers goes through the draws and the exchanges as the memory does. -/
theorem drawAndExchange_journal {α μ δ σ : Type} [Indexed μ α] [Index δ] {R : μ → List α → Prop}
    (hR : Holds R) {a : μ} {xs : List α} (past : List μ) (h : R a xs) (next : NextLong δ σ)
    (un : Bool) (s : σ) :
    Option.Rel (fun p q => Follows R 1 xs past (xs.length - 1) p.1 q.1)
      (drawAndExchange next un (⟨past, a⟩ : Journal μ) s) (drawAndExchange next un a s) := by
  unfold drawAndExchange
  rw [show Indexed.size (⟨past, a⟩ : Journal μ) = Indexed.size a from rfl, hR.size h]
  cases hd : draws next (xs.length - 1) s with
  | none => exact .none
  | some p =>
    have hrel := exchanges_journal hR (order un p.1) past h
    rw [length_order, length_draws hd] at hrel
    simp only [Option.bind_some, Option.map_eq_bind]
    exact rel_bind hrel fun q b hq => .some hq

/-- The contents that remember, with the contents that a run over them would have. -/
abbrev Goes (past : List (List Byte)) (n : ℕ) (file : List Byte) (q : Journal (List Byte))
    (out : List Byte) : Prop :=
  Follows (fun x y => x = y) 8 file past n q out

theorem Goes.perm {q : Journal (List Byte)} (h : Goes past n file q out) : out.Perm file := by
  obtain ⟨ys, hys, hperm⟩ := h.holds
  exact hys ▸ hperm

/-- A stage over contents that remember goes as the stage does: the element that is lost
between two stores is `w` bytes. -/
theorem Config.stageKept_follows (hspill : 0 < c.spill) (hw : 0 < w) (hw8 : w ≤ 8) (un : Bool)
    (g : Generator) (past : List (List Byte)) (file : List Byte) :
    Option.Rel (Goes past (file.length / w - 1) file) (c.stageKept un w g ⟨past, file⟩) (c.stage un w g file) := by
  have hkept : c.stageKept un w g ⟨past, file⟩ =
      (drawAndExchange g.next un (⟨past.map Overlay.mk, ⟨file⟩⟩ : Journal (Overlay Byte w)) g.state).map
        fun p => p.1.map Overlay.flat := by
    cases un with
    | false => simp [Config.stageKept, shuffle_eq, Journal.map]
    | true => simp [Config.stageKept, Build.unshuffle_eq hspill, Journal.map]
  have hpast : (past.map (Overlay.mk (w := w))).map Overlay.flat = past := by
    rw [List.map_map]
    exact List.map_id past
  rw [hkept, c.stage_eq hspill, stage_eq_map]
  have hrel := drawAndExchange_journal (holds_overlay (length_rest_lt hw file))
    (past.map Overlay.mk) (Overlay.has_blocks file) g.next un g.state
  rw [length_blocks] at hrel
  simp only [Option.map_eq_bind]
  refine rel_bind hrel fun p q hq => .some ?_
  -- from the blocks to the bytes that they are made of
  have hmap := hq.map (S := fun x y => x = y) (v := 8) (w := w) (f := Overlay.flat)
    (g := fun bs => join bs ++ rest w file) (fun m ys hm => hm) hw8 fun n ys h => h.join _
  rwa [hpast, join_blocks_append_rest] at hmap

/-- How many exchanges these stages make in a file of `n` bytes. -/
def exchangesOf (ss : List Stage) (n : ℕ) : ℕ := (ss.map fun s => n / s.1 - 1).sum

/-- **Stages over contents that remember go as the stages do**, and at no store is more than
one element lost. -/
theorem Config.inTurnKept_follows (hspill : 0 < c.spill) {ss : List Stage}
    (hw : ∀ s ∈ ss, 0 < s.1 ∧ s.1 ≤ 8) :
    ∀ (past : List (List Byte)) (file : List Byte),
      Option.Rel (Goes past (exchangesOf ss file.length) file) (c.inTurnKept un ss ⟨past, file⟩)
        (c.inTurn un ss file) := by
  induction ss with
  | nil => exact fun past file => .some (follows_refl rfl 8 past)
  | cons s ss ih =>
    intro past file
    obtain ⟨hpos, hle⟩ := hw s List.mem_cons_self
    refine rel_bind (c.stageKept_follows hspill hpos hle un (s.2 file) past file) fun q out hq => ?_
    have hrest := ih (fun t ht => hw t (List.mem_cons_of_mem _ ht)) q.before out
    rw [← hq.now, show (⟨q.before, q.now⟩ : Journal (List Byte)) = q from rfl, hq.now, hq.perm.length_eq] at hrest
    generalize c.inTurnKept un ss q = o, c.inTurn un ss out = o' at hrest
    cases hrest with
    | none => exact .none
    | some hrest => exact .some (hq.trans hq.perm hrest)

/-- The widths of the elements. -/
theorem width_of_mem_stages {long float byte : List Byte → Generator} :
    ∀ s ∈ stages un long float byte, 0 < s.1 ∧ s.1 ≤ 8 := by
  cases un <;> simp [stages]

theorem goes_xshuffleStages (hspill : 0 < c.spill) (L : Libc) (un : Bool) (u : Locals)
    (file : List Byte) :
    Option.Rel (Goes [] (exchangesOf (xshuffleStages L un u) file.length) file)
      (c.inTurnKept un (xshuffleStages L un u) ⟨[], file⟩) (c.inTurn un (xshuffleStages L un u) file) :=
  Config.inTurnKept_follows hspill width_of_mem_stages [] file

/-- The contents at the end are those that the stages make. -/
theorem map_now_inTurnKept (hspill : 0 < c.spill) (L : Libc) (un : Bool) (u : Locals)
    (file : List Byte) :
    (c.inTurnKept un (xshuffleStages L un u) ⟨[], file⟩).map Journal.now =
      c.inTurn un (xshuffleStages L un u) file := by
  have hrel := goes_xshuffleStages hspill L un u file
  generalize c.inTurnKept un (xshuffleStages L un u) ⟨[], file⟩ = o,
    c.inTurn un (xshuffleStages L un u) file = o' at hrel
  cases hrel with
  | none => rfl
  | some hq => exact congrArg some hq.now

/-- All that the file was on the way lacks one element at most, and at the end none. -/
theorem moments_inTurnKept (hspill : 0 < c.spill) {L : Libc} {q : Journal (List Byte)}
    (h : c.inTurnKept un (xshuffleStages L un u) ⟨[], file⟩ = some q) :
    q.now.Perm file ∧ q.moments.length = 2 * exchangesOf (xshuffleStages L un u) file.length + 1 ∧
      ∀ k z, q.moments[k]? = some z → Lacks (k % 2 * 8) file z := by
  have hrel := goes_xshuffleStages hspill L un u file
  rw [h] at hrel
  generalize c.inTurn un (xshuffleStages L un u) file = o at hrel
  cases hrel with
  | some hq =>
    obtain ⟨new, hnew, hlen, hwavers⟩ := hq.moments
    rw [List.nil_append] at hnew
    rw [hnew, hq.now]
    refine ⟨hq.perm, hlen, fun k z hk => ?_⟩
    obtain ⟨ys, rfl, hlacks⟩ := hwavers k z hk
    exact hlacks

/-! ### One run -/

theorem moments_of_not_mapped (c : Config) (h : inv.command s = none) :
    moments c inv s = some [boot s inv.table] := by
  rcases main_cases c inv (boot s inv.table) with ⟨un, path, hwork, -⟩ | ⟨code, err, hwork, -⟩
  · rw [Invocation.command, hwork, Option.bind_some, Option.map_eq_none_iff] at h
    simp only [moments, hwork, mapAndThen, createRaw_of_not_mapped h, Ending.bind_panics]
  · rw [moments, hwork]

theorem Maps.moments {map : Mmap} {v : State} (h : Maps inv s un path i map v) (c : Config) :
    moments c inv s =
      (c.inTurnKept un (xshuffleStages c.libc un inv.locals) ⟨[], s.files i⟩).map fun q =>
        q.moments.map (v.store map.ptr) ++ [destroy inv.kernel map (v.store map.ptr q.now)] := by
  rw [V2.moments, h.work]
  simp only [mapAndThen, h.raw, Ending.bind_returns, shuffleMapKept, h.load]
  cases c.inTurnKept un (xshuffleStages c.libc un inv.locals) ⟨[], s.files i⟩ <;> rfl

/-- **The last moment of a run is what it leaves.** -/
theorem getLast_moments (hspill : 0 < c.spill) (inv : Invocation) (s : State) :
    (moments c inv s).bind List.getLast? = (exec c inv s).map Prod.snd := by
  cases hcommand : inv.command s with
  | none =>
    rw [moments_of_not_mapped c hcommand, exec_of_not_mapped c hcommand]
    rfl
  | some e =>
    obtain ⟨un, path, map, v, -, hm⟩ := maps_of_command hcommand
    rw [hm.moments, hm.exec, ← map_now_inTurnKept hspill]
    cases c.inTurnKept un (xshuffleStages c.libc un inv.locals) ⟨[], s.files e.1⟩ <;> simp

/-- In a file of `n` bytes there are two stores for each exchange of each stage. -/
theorem length_moments (hspill : 0 < c.spill) {ms : List State} (h : moments c inv s = some ms)
    {e : ℤ} (hcommand : inv.command s = some (i, e)) (hn : (s.files i).length = n) :
    ms.length = 2 * ((n / 8 - 1) + (n / 4 - 1) + (n - 1)) + 2 := by
  obtain ⟨un, path, map, v, -, hm⟩ := maps_of_command hcommand
  rw [hm.moments] at h
  obtain ⟨q, hq, rfl⟩ := Option.map_eq_some_iff.mp h
  obtain ⟨-, hlen, -⟩ := moments_inTurnKept hspill hq
  have hstages : exchangesOf (xshuffleStages c.libc un inv.locals) n = (n / 8 - 1) + (n / 4 - 1) + (n - 1) := by
    cases un <;> simp [exchangesOf, xshuffleStages, stages] <;> omega
  rw [List.length_append, List.length_map, hlen, hn, hstages, List.length_singleton]

/-! ### Runs that may be killed -/

variable {ks : List (Invocation × Option ℕ)}

/-- Where no run is killed they leave what the runs leave. -/
theorem lives_of_ends (hspill : 0 < c.spill) (invs : List Invocation) (s : State) :
    lives c (invs.map fun inv => (inv, none)) s = (runs c invs s).map Prod.snd := by
  induction invs generalizing s with
  | nil => rfl
  | cons inv invs ih =>
    have hleaves : leaves c inv none s = (exec c inv s).map Prod.snd := by
      simp only [leaves, Option.bind_none, Option.none_or]
      exact getLast_moments hspill inv s
    rw [List.map_cons, lives, hleaves, runs]
    cases exec c inv s with
    | none => rfl
    | some p => simp [ih, Option.map_map, Function.comp_def]

end Shuffle3.V2
