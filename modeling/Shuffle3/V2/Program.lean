import Shuffle3.Foundations.Tallies
import Shuffle3.V2.Builds
import Shuffle3.V2.Reversible
import Shuffle3.V2.Scopes

/-!
# The program

`main` reads its arguments, `do_work` chooses the operation, and `work::xshuffle_ip` works
on the mapping of a file that it then unmaps and closes. A run of the program is a process
of its own, with the files that the run before it left.

## What is proved

* `exec_eq` — what a run exits with, and what it leaves in its file.
* `runs_files` — after any runs over any files a file is what as many shuffles as its own
  runs add up to make of it, unshuffles counted as negative, and a file that no run could
  map is as it was; `runs_order` — the order of the runs does not matter.
* `runs_cycle` — the contents of a file go round in a cycle, whatever its runs are.
* `runs_keep` — the files keep their lengths, and nothing stays open or mapped.
* `doWork_outOfPlace` — the operations that are out of place panic before they begin.

## Honest scope

An undefined operation, and a draw out of range, end in no state. The text of `usage` and
what is printed when a call fails are left out; so are the files in which a build
keeps its draws.
-/

namespace Shuffle3.V2

open Foundations Foundations.Descriptors Foundations.Tallies

/-! ### The program -/

/-- `enum work_buffer_opts`. -/
inductive BufferOpts where
  | cpip
  | buffered
  deriving DecidableEq

/-- `work_args_t`: an operation and its data. -/
inductive WorkArgs where
  | shuffleIp (file : String)
  | shuffleOp (opts : BufferOpts) (ifile ofile : String)
  | unshuffleIp (file : String)
  | unshuffleOp (opts : BufferOpts) (ifile ofile : String)
  | help
  deriving DecidableEq

/-- What is chosen when the program is built, and its C library. -/
structure Config where
  build : Build
  /-- `FSV_DEFAULT_SPILL_AT`. -/
  spill : ℕ
  libc : Libc

/-- One stage as built. -/
def Config.stage (c : Config) (un : Bool) (w : ℕ) (g : Generator) (file : List Byte) :
    Option (List Byte) :=
  let span : Overlay Byte w := ⟨file⟩
  (if un then c.build.unshuffle c.spill g.next span g.state else shuffle g.next span g.state).map fun p => p.1.flat

/-- Stages one after the other, as built. -/
def Config.inTurn (c : Config) (un : Bool) : List Stage → List Byte → Option (List Byte)
  | [], file => some file
  | s :: ss, file => (c.stage un s.1 (s.2 file) file).bind (c.inTurn un ss)

/-- The three stages, over the bytes that a mapping shows. -/
def shuffleMap (c : Config) (un : Bool) (u : Locals) (map : Mmap) (s : State) : Ending ℕ :=
  match c.inTurn un (xshuffleStages c.libc un u) (s.load map.ptr map.len) with
  | some out => .returns 0 (s.store map.ptr out)
  | none => .undefined

/-- `work::xshuffle_ip`. The object `map` has the scope that `map_and_then` gives to its own. -/
def xshuffleIpAt (c : Config) (un : Bool) (u : Locals) (k : Kernel) (file : String) (s : State) :
    Ending ℕ :=
  mapAndThen k file (shuffleMap c un u) s

/-- `work::xshuffle_op`. It has the `vmap` of no bytes before it panics. -/
def xshuffleOp (k : Kernel) (s : State) : Ending ℕ :=
  (vmap k 0 s).bind fun _ s => .panics "Unimplemented" s

/-- `do_work`. -/
def doWork (c : Config) (u : Locals) (k : Kernel) : WorkArgs → State → Ending ℕ
  | .shuffleIp file, s => xshuffleIpAt c false u k file s
  | .shuffleOp _ _ _, s => xshuffleOp k s
  | .unshuffleIp file, s => xshuffleIpAt c true u k file s
  | .unshuffleOp _ _ _, s => xshuffleOp k s
  | .help, s => .returns 1 s

/-- What the arguments ask for: work, or an exit code and what is printed to `stderr`. -/
inductive Parsed where
  | work (args : WorkArgs)
  | exits (code : ℕ) (err : String)
  deriving DecidableEq

/-- `help_then_exit`. -/
def helpThenExit : Parsed := .exits 1 "Try passing `-h`\n"

/-- The parsing in `main`: `argv[1]`, of which the first two characters are read, and
`argv[2]`. -/
def parse (argv1 argv2 : Option String) : Parsed :=
  match argv1 with
  | none => helpThenExit
  | some arg => match arg.toList with
    | '-' :: 's' :: _ => match argv2 with
      | some file => .work (.shuffleIp file)
      | none => .exits 1 "Error: -s expected file argument.\n"
    | '-' :: 'u' :: _ => match argv2 with
      | some file => .work (.unshuffleIp file)
      | none => .exits 1 "Error: -u expected file argument.\n"
    | '-' :: 'h' :: _ => .exits 0 ""
    | '-' :: _ => .exits 1 ("Error: unknown argument `" ++ arg ++ "'\n\n" ++ "Try passing `-h`\n")
    | _ => helpThenExit

/-- One run: its arguments, the descriptors it inherits, what the kernel does, and what the
variables of its scans hold on entry. -/
structure Invocation where
  argv1 : Option String
  argv2 : Option String
  table : List (Option ℕ)
  kernel : Kernel
  locals : Locals

/-- `main`. -/
def main (c : Config) (inv : Invocation) (s : State) : Ending ℕ :=
  match parse inv.argv1 inv.argv2 with
  | .work args => doWork c inv.locals inv.kernel args s
  | .exits code _ => .returns code s

/-- A new process over the same files. -/
def boot (s : State) (table : List (Option ℕ)) : State :=
  { s with descriptors := table, mappings := [] }

/-- One run of the program: its exit code, or the message of its panic. -/
def exec (c : Config) (inv : Invocation) (s : State) : Option (Except String ℕ × State) :=
  match main c inv (boot s inv.table) with
  | .returns code t => some (.ok code, t)
  | .panics message t => some (.error message, t)
  | .undefined => none

/-- Runs of the program, one after the other. -/
def runs (c : Config) : List Invocation → State → Option (List (Except String ℕ) × State)
  | [], s => some ([], s)
  | inv :: invs, s => (exec c inv s).bind fun (status, t) =>
    (runs c invs t).map fun (statuses, t) => (status :: statuses, t)

/-! ### The stages as built -/

variable {c : Config} {un : Bool} {u : Locals} {k : Kernel} {s t : State} {file out x : List Byte}
  {path : String} {i : ℕ} {inv : Invocation} {invs : List Invocation}

theorem Config.stage_eq (hspill : 0 < c.spill) (un : Bool) (w : ℕ) (g : Generator)
    (file : List Byte) :
    c.stage un w g file = V2.stage un w g file := by
  rw [stage_eq_map]
  cases un with
  | false => simp [Config.stage, shuffle_eq]
  | true => simp [Config.stage, Build.unshuffle_eq hspill]

/-- **Every build does the stages alike.** -/
theorem Config.inTurn_eq (hspill : 0 < c.spill) (un : Bool) (ss : List Stage) (file : List Byte) :
    c.inTurn un ss file = V2.inTurn un ss file := by
  induction ss generalizing file with
  | nil => rfl
  | cons s ss ih =>
    rw [Config.inTurn, V2.inTurn, c.stage_eq hspill]
    exact congrArg _ (funext ih)

/-! ### Shuffling as a permutation of the contents -/

/-- A file, of at most `2 ^ 53` bytes, shuffled or unshuffled. -/
def turned (L : Libc) (un : Bool) (x : List Byte) : List Byte :=
  if x.length ≤ 2 ^ 53 then (xshuffleIp L un .debug x).getD x else x

variable {L : Libc}

theorem xshuffleIp_nil (L : Libc) (un : Bool) (u : Locals) : xshuffleIp L un u [] = none :=
  if_pos rfl

/-- Where there is something to shuffle, and in range, the program leaves what is turned. -/
theorem xshuffleIp_eq_turned (hL : L.Documented) (hx : x ≠ []) (hn : x.length ≤ 2 ^ 53)
    (un : Bool) :
    xshuffleIp L un .debug x = some (turned L un x) := by
  have hpos : 1 ≤ x.length := List.length_pos_iff.mpr hx
  obtain ⟨y, -, hy⟩ := exists_xshuffleIp (drawsInRange_of_documented hL hn) hpos rfl un
  rw [turned, if_pos hn, hy, Option.getD_some]

theorem turned_perm (L : Libc) (un : Bool) (x : List Byte) : (turned L un x).Perm x := by
  unfold turned
  split_ifs
  · cases h : xshuffleIp L un .debug x with
    | none => exact List.Perm.refl x
    | some y => exact xshuffleIp_perm h
  · exact List.Perm.refl x

theorem turned_not (hL : L.Documented) (un : Bool) (x : List Byte) :
    turned L (!un) (turned L un x) = x := by
  have hlen := (turned_perm L un x).length_eq
  by_cases hn : x.length ≤ 2 ^ 53
  · by_cases hx : x = []
    · subst hx
      have hnil : turned L un [] = [] := List.length_eq_zero_iff.mp hlen
      rw [hnil, turned, xshuffleIp_nil]
      rfl
    · have hback : xshuffleIp L (!un) .debug (turned L un x) = some x :=
        xshuffleIp_not (.inl rfl) (xshuffleIp_eq_turned hL hx hn un)
      rw [turned, if_pos (hlen.trans_le hn), hback, Option.getD_some]
  · have hself : turned L un x = x := if_neg hn
    rw [hself, turned, if_neg hn]

/-- **Shuffling permutes the contents that a file can have**, and unshuffling is its inverse. -/
def shuffled (hL : L.Documented) : Equiv.Perm (List Byte) :=
  ⟨turned L false, turned L true, turned_not hL false, turned_not hL true⟩

theorem shuffled_zpow (hL : L.Documented) (un : Bool) (x : List Byte) :
    (shuffled hL ^ (if un then -1 else 1 : ℤ)) x = turned L un x := by
  cases un with
  | false => rw [if_neg Bool.false_ne_true, zpow_one]; rfl
  | true => rw [if_pos rfl, zpow_neg_one]; rfl

/-! ### One run -/

/-- What a run asks for of a file: to shuffle it, or to unshuffle it. -/
def Invocation.work (inv : Invocation) : Option (Bool × String) :=
  match parse inv.argv1 inv.argv2 with
  | .work (.shuffleIp file) => some (false, file)
  | .work (.unshuffleIp file) => some (true, file)
  | _ => none

/-- The file that a run maps, and the power of `shuffled` that it makes of it. -/
def Invocation.command (inv : Invocation) (s : State) : Option (ℕ × ℤ) :=
  inv.work.bind fun w =>
    (inv.kernel.mapped (boot s inv.table) w.2).map fun i => (i, if w.1 then -1 else 1)

/-- How a run ends: with the exit code that its arguments ask for, or, when they ask for
work, as the mapping does. -/
def Invocation.status (inv : Invocation) (s : State) : Except String ℕ :=
  match parse inv.argv1 inv.argv2 with
  | .exits code _ => .ok code
  | .work _ => if (inv.command s).isSome then .ok 0 else .error "Failed to map file"

/-- The variables of the float scan are as in the `DEBUG` build, or the scan does not
hand them on. -/
def Invocation.Settles (L : Libc) (inv : Invocation) (s : State) : Prop :=
  ∀ un path i, inv.work = some (un, path) → s.names path = some i →
    inv.locals.float = Locals.debug.float ∨ ∀ z, contentsAt L un inv.locals 4 (s.files i) = some z → FloatsSeed z

/-- The operations that are out of place are never asked for, nor is help. -/
theorem parse_eq_work {argv1 argv2 : Option String} {args : WorkArgs}
    (h : parse argv1 argv2 = .work args) :
    ∃ file, args = .shuffleIp file ∨ args = .unshuffleIp file := by
  unfold parse helpThenExit at h
  split at h
  · cases h
  split at h
  · split at h
    · cases h; exact ⟨_, .inl rfl⟩
    · cases h
  · split at h
    · cases h; exact ⟨_, .inr rfl⟩
    · cases h
  all_goals cases h

/-- A run either works on a file in place, or exits with all as it was. -/
theorem main_cases (c : Config) (inv : Invocation) (s : State) :
    (∃ un path, inv.work = some (un, path) ∧ main c inv s = xshuffleIpAt c un inv.locals inv.kernel path s) ∨
    ∃ code err, inv.work = none ∧ parse inv.argv1 inv.argv2 = .exits code err ∧
      main c inv s = .returns code s := by
  unfold Invocation.work main
  cases hp : parse inv.argv1 inv.argv2 with
  | exits code err => exact .inr ⟨code, err, rfl, rfl, rfl⟩
  | work args =>
    obtain ⟨file, rfl | rfl⟩ := parse_eq_work hp
    · exact .inl ⟨false, file, rfl, rfl⟩
    · exact .inl ⟨true, file, rfl, rfl⟩

theorem names_of_mapped (h : k.mapped s path = some i) :
    s.names path = some i ∧ s.files i ≠ [] := by
  obtain ⟨i', hname, hif⟩ := Option.bind_eq_some_iff.mp h
  split_ifs at hif with hcalls
  cases hif
  exact ⟨hname, hcalls.2.2.2.2⟩

/-- Where every call succeeds the stages leave what is turned. -/
theorem Config.inTurn_eq_turned (hL : c.libc.Documented) (hspill : 0 < c.spill) (hx : x ≠ [])
    (hn : x.length ≤ 2 ^ 53)
    (hu : u.float = Locals.debug.float ∨ ∀ z, contentsAt c.libc un u 4 x = some z → FloatsSeed z) :
    c.inTurn un (xshuffleStages c.libc un u) x = some (turned c.libc un x) := by
  have hdebug : xshuffleIp c.libc un u x = xshuffleIp c.libc un .debug x :=
    xshuffleIp_congr (hu.imp_left Eq.symm)
  rw [xshuffleIp_eq_turned hL hx hn, xshuffleIp, if_neg hx] at hdebug
  rw [c.inTurn_eq hspill, hdebug]

/-- A file that cannot be mapped makes it panic, and nothing is touched. -/
theorem xshuffleIpAt_of_not_mapped (h : k.mapped s path = none) :
    xshuffleIpAt c un u k path s = .panics "Failed to map file" s := by
  rw [xshuffleIpAt, mapAndThen, createRaw_of_not_mapped h, Ending.bind_panics]

theorem unmapped_boot (s : State) (table : List (Option ℕ)) (p : ℕ) : (boot s table).Unmapped p :=
  fun _ hm => (List.not_mem_nil hm).elim

theorem status_of_work {w : Bool × String} (h : inv.work = some w) (s : State) :
    inv.status s = if (inv.command s).isSome then .ok 0 else .error "Failed to map file" := by
  unfold Invocation.work at h
  unfold Invocation.status
  split at h <;> simp_all

/-- A run that maps nothing ends with all as it was. -/
theorem exec_of_not_mapped (c : Config) (h : inv.command s = none) :
    exec c inv s = some (inv.status s, boot s inv.table) := by
  rcases main_cases c inv (boot s inv.table) with ⟨un, path, hwork, hmain⟩ | ⟨code, err, -, hparse, hmain⟩
  · rw [status_of_work hwork, h]
    rw [Invocation.command, hwork, Option.bind_some, Option.map_eq_none_iff] at h
    rw [exec, hmain, xshuffleIpAt_of_not_mapped h]
    rfl
  · rw [exec, hmain, Invocation.status, hparse]

/-- A run that works, and has mapped the file `i`: its object is `map`, and `v` is the state
in which it has that. -/
structure Maps (inv : Invocation) (s : State) (un : Bool) (path : String) (i : ℕ) (map : Mmap) (v : State) :
    Prop where
  work : inv.work = some (un, path)
  named : s.names path = some i
  nonempty : s.files i ≠ []
  raw : createRaw inv.kernel path (boot s inv.table) = .returns map v
  made : Made inv.kernel (boot s inv.table) i map v

theorem maps_of_command {e : ℤ} (h : inv.command s = some (i, e)) :
    ∃ un path map v, e = (if un then -1 else 1) ∧ Maps inv s un path i map v := by
  obtain ⟨⟨un, path⟩, hwork, h⟩ := Option.bind_eq_some_iff.mp h
  obtain ⟨i', hm, h⟩ := Option.map_eq_some_iff.mp h
  cases h
  obtain ⟨map, v, hraw, hmade⟩ := createRaw_of_mapped hm
  obtain ⟨hname, hne⟩ := names_of_mapped hm
  exact ⟨un, path, map, v, rfl, hwork, hname, hne, hraw, hmade⟩

namespace Maps

variable {map : Mmap} {v : State} (h : Maps inv s un path i map v)

include h

theorem load : v.load map.ptr map.len = s.files i :=
  h.made.load (unmapped_boot s inv.table map.ptr)

/-- What is stored through the mapping, of the length of the file, is in that file alone. -/
theorem store {b : List Byte} (hb : b.length = (s.files i).length) :
    (v.store map.ptr b).names = s.names ∧ (v.store map.ptr b).files = Function.update s.files i b := by
  obtain ⟨hfiles, hnames, -⟩ := h.made.store (unmapped_boot s inv.table map.ptr) hb
  exact ⟨hnames, hfiles⟩

/-- It does the stages over the contents of the file. -/
theorem exec (c : Config) : exec c inv s =
    (c.inTurn un (xshuffleStages c.libc un inv.locals) (s.files i)).map fun out =>
      (.ok 0, destroy inv.kernel map (v.store map.ptr out)) := by
  rcases main_cases c inv (boot s inv.table) with ⟨un', path', hwork, hmain⟩ | ⟨code, err, hwork, -⟩
  · cases h.work.symm.trans hwork
    rw [V2.exec, hmain, xshuffleIpAt, mapAndThen, h.raw, Ending.bind_returns, shuffleMap, h.load]
    cases c.inTurn un (xshuffleStages c.libc un inv.locals) (s.files i) <;> rfl
  · cases h.work.symm.trans hwork

/-- It leaves its file with what the stages make of it. -/
theorem leaves {out : List Byte} (hout : out.length = (s.files i).length) :
    (destroy inv.kernel map (v.store map.ptr out)).names = s.names ∧
      (destroy inv.kernel map (v.store map.ptr out)).files = Function.update s.files i out := by
  obtain ⟨hfiles, hnames⟩ := files_destroy inv.kernel map (v.store map.ptr out)
  obtain ⟨hnames', hfiles'⟩ := h.store hout
  exact ⟨hnames.trans hnames', hfiles.trans hfiles'⟩

end Maps

/-- **What one run does**: it applies its command, if it has one, and its status tells. -/
theorem exec_eq (hL : c.libc.Documented) (hspill : 0 < c.spill)
    (hsize : ∀ i, (s.files i).length ≤ 2 ^ 53) (hseeds : inv.Settles c.libc s) :
    ∃ t, exec c inv s = some (inv.status s, t) ∧ t.names = s.names ∧
      t.files = run (shuffled hL) (inv.command s).toList s.files := by
  cases hcommand : inv.command s with
  | none => exact ⟨_, exec_of_not_mapped c hcommand, rfl, rfl⟩
  | some e =>
    obtain ⟨i, e⟩ := e
    obtain ⟨un, path, map, v, rfl, hm⟩ := maps_of_command hcommand
    have hrun := c.inTurn_eq_turned hL hspill hm.nonempty (hsize i) (hseeds un path i hm.work hm.named)
    have hstatus : inv.status s = .ok 0 := by rw [status_of_work hm.work, hcommand]; rfl
    obtain ⟨hnames, hfiles⟩ := hm.leaves (turned_perm c.libc un (s.files i)).length_eq
    refine ⟨_, by rw [hm.exec, hrun, hstatus]; rfl, hnames, ?_⟩
    show _ = turn (shuffled hL) s.files (i, if un then -1 else 1)
    rw [hfiles, turn, shuffled_zpow]

/-! ### Runs -/

/-- In every run the variables of the float scan are settled. -/
def Settled (c : Config) : List Invocation → State → Prop
  | [], _ => True
  | inv :: invs, s => inv.Settles c.libc s ∧ ∀ status t, exec c inv s = some (status, t) → Settled c invs t

/-- The commands of these runs. -/
def commands (invs : List Invocation) (s : State) : List (ℕ × ℤ) :=
  invs.filterMap fun inv => inv.command s

theorem zpow_perm (hL : L.Documented) (k : ℤ) (x : List Byte) : ((shuffled hL ^ k) x).Perm x := by
  have hmultiset := zpow_invariant (e := shuffled hL) (F := fun y => (y : Multiset Byte))
    (fun y => Multiset.coe_eq_coe.mpr (turned_perm L false y)) k x
  exact Multiset.coe_eq_coe.mp hmultiset

/-- Files of the same lengths under the same names are mapped alike. -/
theorem command_congr (hnames : t.names = s.names)
    (hlen : ∀ i, (t.files i).length = (s.files i).length) (inv : Invocation) :
    inv.command t = inv.command s := by
  have hempty : ∀ i, t.files i ≠ [] ↔ s.files i ≠ [] := fun i => by
    rw [← List.length_pos_iff, ← List.length_pos_iff, hlen]
  have hinstall : ∀ i, ((boot t inv.table).install i).isSome = ((boot s inv.table).install i).isSome := fun i => by
    rw [State.install, State.install, Option.isSome_map, Option.isSome_map]
    rfl
  have hmapped : inv.kernel.mapped (boot t inv.table) = inv.kernel.mapped (boot s inv.table) := by
    funext path
    have hnames' : (boot t inv.table).names = (boot s inv.table).names := hnames
    unfold Kernel.mapped
    rw [hnames']
    refine Option.bind_congr fun i _ => ?_
    rw [hinstall i]
    exact if_congr (by rw [show (boot t inv.table).files = t.files from rfl, hempty i]; rfl) rfl rfl
  rw [Invocation.command, Invocation.command, hmapped]

theorem status_congr (h : inv.command t = inv.command s) : inv.status t = inv.status s := by
  rw [Invocation.status, Invocation.status, h]

/-- **The runs refine the commands**: on the files they do what the commands do on cells
that are turned. -/
theorem runs_eq (hL : c.libc.Documented) (hspill : 0 < c.spill)
    (hsize : ∀ i, (s.files i).length ≤ 2 ^ 53) (hseeds : Settled c invs s) :
    ∃ t, runs c invs s = some (invs.map fun inv => inv.status s, t) ∧ t.names = s.names ∧
      t.files = run (shuffled hL) (commands invs s) s.files := by
  induction invs generalizing s with
  | nil => exact ⟨s, rfl, rfl, rfl⟩
  | cons inv invs ih =>
    obtain ⟨t, hexec, hnames, hfiles⟩ := exec_eq hL hspill hsize hseeds.1
    have hlen : ∀ i, (t.files i).length = (s.files i).length := fun i => by
      rw [hfiles, run_apply]
      exact (zpow_perm hL _ _).length_eq
    obtain ⟨v, hruns, hnames', hfiles'⟩ :=
      ih (fun i => (hlen i).trans_le (hsize i)) (hseeds.2 _ t hexec)
    have hcommands : commands invs t = commands invs s :=
      List.filterMap_congr fun inv _ => command_congr hnames hlen inv
    have hstatus : (invs.map fun inv => inv.status t) = invs.map fun inv => inv.status s :=
      List.map_congr_left fun inv _ => status_congr (command_congr hnames hlen inv)
    have hcons : commands (inv :: invs) s = (inv.command s).toList ++ commands invs s := by
      rw [commands, List.filterMap_cons]
      cases inv.command s <;> rfl
    refine ⟨v, ?_, hnames'.trans hnames, ?_⟩
    · simp only [runs, hexec, Option.bind_some, hruns, Option.map_some, hstatus, List.map_cons]
    · rw [hfiles', hfiles, hcommands, hcons, run_append]

/-- **After any runs over any files** a file is what as many shuffles as its own runs add
up to make of it, and each run has ended as its arguments and the calls decide. -/
theorem runs_files (hL : c.libc.Documented) (hspill : 0 < c.spill)
    (hsize : ∀ i, (s.files i).length ≤ 2 ^ 53) (hseeds : Settled c invs s) :
    ∃ t, runs c invs s = some (invs.map fun inv => inv.status s, t) ∧ t.names = s.names ∧
      ∀ i, t.files i = (shuffled hL ^ tally (commands invs s) i) (s.files i) := by
  obtain ⟨t, hruns, hnames, hfiles⟩ := runs_eq hL hspill hsize hseeds
  exact ⟨t, hruns, hnames, fun i => by rw [hfiles, run_apply]⟩

/-- A build that initialises the variables of its scans settles all its runs. -/
theorem settled_of_debug (h : ∀ inv ∈ invs, inv.locals.float = Locals.debug.float) :
    ∀ s, Settled c invs s := by
  induction invs with
  | nil => exact fun _ => trivial
  | cons inv invs ih =>
    exact fun s => ⟨fun _ _ _ _ _ => .inl (h inv List.mem_cons_self),
      fun _ t _ => ih (fun inv' h' => h inv' (List.mem_cons_of_mem _ h')) t⟩

/-! #### An example: three runs over a file of sixteen bytes -/

/-- The plain build. -/
def plainConfig : Config := ⟨.plain, 1, tinyLibc⟩

/-- The file "a", and every other, has sixteen bytes. -/
def sixteen : State := ⟨fun name => if name = "a" then some 0 else none, fun _ => sixteenBytes, 1, [], []⟩

theorem length_sixteen {i : ℕ} : (sixteen.files i).length = 16 := rfl

/-- A run over the file "a" in the `DEBUG` build. -/
def runOf (option : String) : Invocation := ⟨some option, some "a", [none], .willing 1 (by decide), .debug⟩

theorem runs_files_sixteen :
    0 < plainConfig.spill ∧ ∃ t,
      runs plainConfig [runOf "-s", runOf "-u", runOf "-s"] sixteen =
        some ([runOf "-s", runOf "-u", runOf "-s"].map fun inv => inv.status sixteen, t) ∧
      t.names = sixteen.names ∧
      ∀ i, t.files i =
        (shuffled documented_tinyLibc ^ tally (commands [runOf "-s", runOf "-u", runOf "-s"] sixteen) i)
        (sixteen.files i) :=
  ⟨by decide, runs_files documented_tinyLibc (by decide) (fun _ => length_sixteen.trans_le (by decide))
    (settled_of_debug (by decide) _)⟩

/-- **The order of the runs does not matter**, in a build that initialises the variables
of its scans: runs in another order leave the same files, and each ends as it did. -/
theorem runs_order (hL : c.libc.Documented) (hspill : 0 < c.spill)
    (hsize : ∀ i, (s.files i).length ≤ 2 ^ 53) {invs' : List Invocation} (hperm : invs.Perm invs')
    (hdebug : ∀ inv ∈ invs, inv.locals.float = Locals.debug.float) :
    ∃ t t', runs c invs s = some (invs.map fun inv => inv.status s, t) ∧
      runs c invs' s = some (invs'.map fun inv => inv.status s, t') ∧ t.files = t'.files ∧ t.names = t'.names := by
  have hdebug' : ∀ inv ∈ invs', inv.locals.float = Locals.debug.float :=
    fun inv h => hdebug inv (hperm.mem_iff.mpr h)
  obtain ⟨t, hruns, hnames, hfiles⟩ := runs_eq hL hspill hsize (settled_of_debug hdebug s)
  obtain ⟨t', hruns', hnames', hfiles'⟩ := runs_eq hL hspill hsize (settled_of_debug hdebug' s)
  have hcommands : (commands invs s).Perm (commands invs' s) := hperm.filterMap _
  refine ⟨t, t', hruns, hruns', ?_, hnames.trans hnames'.symm⟩
  rw [hfiles, hfiles', run_perm hcommands]

/-- Two runs in both orders. -/
theorem runs_order_sixteen :
    ∃ t t', runs plainConfig [runOf "-s", runOf "-u"] sixteen =
        some ([runOf "-s", runOf "-u"].map fun inv => inv.status sixteen, t) ∧
      runs plainConfig [runOf "-u", runOf "-s"] sixteen =
        some ([runOf "-u", runOf "-s"].map fun inv => inv.status sixteen, t') ∧
      t.files = t'.files ∧ t.names = t'.names :=
  runs_order documented_tinyLibc (by decide) (fun _ => length_sixteen.trans_le (by decide))
    (List.Perm.swap _ _ _) (by simp [runOf])

/-- The orders of the bytes of a file. -/
def arrangements (x : List Byte) : Finset (List Byte) := x.permutations.toFinset

theorem mem_arrangements : y ∈ arrangements x ↔ y.Perm x := by
  rw [arrangements, List.mem_toFinset, List.mem_permutations]

/-- **The contents of a file go round in a cycle**, no longer than there are orders of its bytes. Two
sequences of runs leave the file alike if and only if what they add up to differs by a number of rounds:
so as many shuffles as the cycle is long give the file back, and one less undo one shuffle. -/
theorem runs_cycle (hL : c.libc.Documented) (hspill : 0 < c.spill)
    (hsize : ∀ i, (s.files i).length ≤ 2 ^ 53) (i : ℕ) :
    ∃ k, 0 < k ∧ k ≤ (arrangements (s.files i)).card ∧
      ∀ invs invs', Settled c invs s → Settled c invs' s →
        ∃ t t', runs c invs s = some (invs.map fun inv => inv.status s, t) ∧
          runs c invs' s = some (invs'.map fun inv => inv.status s, t') ∧
          (t.files i = t'.files i ↔ tally (commands invs s) i ≡ tally (commands invs' s) i [ZMOD k]) := by
  have hclosed : ∀ y ∈ arrangements (s.files i), shuffled hL y ∈ arrangements (s.files i) :=
    fun y hy =>
    mem_arrangements.mpr ((turned_perm _ false y).trans (mem_arrangements.mp hy))
  obtain ⟨hpos, hle⟩ := minimalPeriod_le hclosed (mem_arrangements.mpr (List.Perm.refl (s.files i)))
  refine ⟨_, hpos, hle, fun invs invs' hseeds hseeds' => ?_⟩
  obtain ⟨t, hruns, -, hfiles⟩ := runs_files hL hspill hsize hseeds
  obtain ⟨t', hruns', -, hfiles'⟩ := runs_files hL hspill hsize hseeds'
  refine ⟨t, t', hruns, hruns', ?_⟩
  rw [hfiles, hfiles']
  exact zpow_apply_eq_iff _ _ _ _

/-- The file of sixteen bytes. -/
theorem runs_cycle_sixteen :
    ∃ k, 0 < k ∧ k ≤ (arrangements (sixteen.files 0)).card ∧
      ∀ invs invs', Settled plainConfig invs sixteen → Settled plainConfig invs' sixteen →
        ∃ t t', runs plainConfig invs sixteen = some (invs.map fun inv => inv.status sixteen, t) ∧
          runs plainConfig invs' sixteen = some (invs'.map fun inv => inv.status sixteen, t') ∧
          (t.files 0 = t'.files 0 ↔
            tally (commands invs sixteen) 0 ≡ tally (commands invs' sixteen) 0 [ZMOD k]) :=
  runs_cycle documented_tinyLibc (by decide) (fun _ => length_sixteen.trans_le (by decide)) 0

/-! ### What no run does -/

variable {status : Except String ℕ}

/-- **A run loses no byte and touches no file but its own**, whatever its generators
draw, and when its status is not success it touches none. -/
theorem exec_keeps (hspill : 0 < c.spill) (h : exec c inv s = some (status, t)) :
    t.names = s.names ∧ (∀ i, (t.files i).Perm (s.files i)) ∧
      (∀ i, (inv.command s).map Prod.fst ≠ some i → t.files i = s.files i) ∧
      status = inv.status s ∧ (status ≠ .ok 0 → t.files = s.files) := by
  cases hcommand : inv.command s with
  | none =>
    rw [exec_of_not_mapped c hcommand] at h
    cases h
    exact ⟨rfl, fun i => List.Perm.refl _, fun _ _ => rfl, rfl, fun _ => rfl⟩
  | some e =>
    obtain ⟨i, e⟩ := e
    obtain ⟨un, path, map, v, -, hm⟩ := maps_of_command hcommand
    rw [hm.exec, c.inTurn_eq hspill] at h
    obtain ⟨out, hrun, h⟩ := Option.map_eq_some_iff.mp h
    cases h
    have hperm := inTurn_perm pos_of_mem_stages hrun
    obtain ⟨hnames, hfiles⟩ := hm.leaves hperm.length_eq
    have hstatus : inv.status s = .ok 0 := by rw [status_of_work hm.work, hcommand]; rfl
    refine ⟨hnames, fun j => ?_, fun j hj => ?_, hstatus.symm, fun hne => (hne rfl).elim⟩
    · rw [hfiles]
      by_cases hji : j = i
      · subst hji
        rw [Function.update_self]
        exact hperm
      · rw [Function.update_of_ne hji]
    · rw [hfiles, Function.update_of_ne fun hji => hj (congrArg some hji.symm)]

/-- **No runs lose a byte of any file**: whatever is drawn and whatever fails, every name
stands for the file that it did, every file has its bytes in some order, and a file that
no run could map has them in the order of before. -/
theorem runs_keep (hspill : 0 < c.spill) {statuses : List (Except String ℕ)} :
    ∀ {s t : State}, runs c invs s = some (statuses, t) →
      t.names = s.names ∧ (∀ i, (t.files i).Perm (s.files i)) ∧ (statuses = invs.map fun inv => inv.status s) ∧
        ∀ i, (∀ inv ∈ invs, (inv.command s).map Prod.fst ≠ some i) → t.files i = s.files i := by
  induction invs generalizing statuses with
  | nil => intro s t h; cases h; exact ⟨rfl, fun _ => List.Perm.refl _, rfl, fun _ _ => rfl⟩
  | cons inv invs ih =>
    intro s t h
    obtain ⟨⟨status, v⟩, hexec, h⟩ := Option.bind_eq_some_iff.mp h
    obtain ⟨⟨statuses', t'⟩, hruns, h⟩ := Option.map_eq_some_iff.mp h
    cases h
    obtain ⟨hnames, hperm, hkept, hstatus, -⟩ := exec_keeps hspill hexec
    obtain ⟨hnames', hperm', hstatuses, hkept'⟩ := ih hruns
    have hcommand := command_congr hnames fun i => (hperm i).length_eq
    refine ⟨hnames'.trans hnames, fun i => (hperm' i).trans (hperm i), ?_, fun i hi => ?_⟩
    · rw [hstatuses, hstatus, List.map_cons, List.map_congr_left fun inv _ => status_congr (hcommand inv)]
    · rw [hkept' i fun inv' h' => by rw [hcommand]; exact hi inv' (List.mem_cons_of_mem _ h')]
      exact hkept i (hi inv List.mem_cons_self)

/-- A run that shuffles. -/
theorem runs_keep_sixteen :
    ∃ statuses t, runs plainConfig [runOf "-s"] sixteen = some (statuses, t) ∧
      t.names = sixteen.names ∧ (∀ i, (t.files i).Perm (sixteen.files i)) ∧
      statuses = [runOf "-s"].map (fun inv => inv.status sixteen) ∧
      ∀ i, (∀ inv ∈ [runOf "-s"], (inv.command sixteen).map Prod.fst ≠ some i) → t.files i = sixteen.files i := by
  have hdebug : Settled plainConfig [runOf "-s"] sixteen := settled_of_debug (by decide) _
  obtain ⟨t, hruns, -⟩ :=
    runs_eq documented_tinyLibc (by decide) (fun _ => length_sixteen.trans_le (by decide)) hdebug
  exact ⟨_, t, hruns, runs_keep (by decide) hruns⟩

/-- **The operations that are out of place panic before they begin**: the `vmap` that
they are to work on is of no bytes, and cannot be made. No file with a name is touched. -/
theorem doWork_outOfPlace (c : Config) (u : Locals) (k : Kernel) {args : WorkArgs}
    {opts : BufferOpts} {ifile ofile : String}
    (h : args = .shuffleOp opts ifile ofile ∨ args = .unshuffleOp opts ifile ofile) :
    ∃ t, doWork c u k args s =
        .panics (if k.MakesFile s then "Failed to map fd" else "memfd_create() failed") t ∧ t.names = s.names ∧
      ∀ i < s.next, t.files i = s.files i := by
  have hop : doWork c u k args s = (vmap k 0 s).bind fun _ s => .panics "Unimplemented" s := by
    rcases h with rfl | rfl <;> rfl
  rcases vmap_ends k 0 s with ⟨hmakes, hv⟩ | ⟨hmakes, t, hnames, hfiles, ⟨h0, -⟩ | ⟨-, fd, hv, -⟩ | ⟨h0, -⟩⟩
  · exact ⟨s, by rw [hop, hv, Ending.bind_panics, if_neg hmakes], rfl, fun _ _ => rfl⟩
  · exact (h0 rfl).elim
  · exact ⟨t, by rw [hop, hv, Ending.bind_panics, if_pos hmakes], hnames, fun i hi => hfiles i (Nat.ne_of_lt hi)⟩
  · exact (h0 rfl).elim

/-- No descriptor is free. -/
theorem doWork_outOfPlace_sixteen :
    ∃ t, doWork plainConfig .debug (.willing 1 (by decide)) (.shuffleOp .cpip "a" "b") sixteen =
        .panics "memfd_create() failed" t ∧ t.names = sixteen.names ∧
      ∀ i < sixteen.next, t.files i = sixteen.files i :=
  doWork_outOfPlace plainConfig .debug (.willing 1 (by decide)) (.inl rfl)

end Shuffle3.V2
