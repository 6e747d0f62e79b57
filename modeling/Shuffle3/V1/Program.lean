import Shuffle3.Foundations.Ledgers
import Shuffle3.V1.Main
import Shuffle3.V1.Stdin

/-!
# The program of the first version

`main` reads its options one character at a time. It shuffles a file in place, or buffered
into another file, or prints the bytes of a string in another order, which is its argument
or, for the argument `-`, what it reads from the standard input.

## What is proved

* `runs_ledger` — after any runs over any files, every file is what the ledger of the runs
  says: so many shuffles of what was in one file before them.
* `strings_back` — a string is printed as a file of its bytes is shuffled, and what is
  printed can be given back to the program, as an argument or on the standard input.

## Honest scope

Of what is printed only the string is modelled. A run that is undefined ends in no state,
and so does a loop that does not end. In `read_stdin` the variable `n`, which the source does
not initialise, is zero at the start.
-/

namespace Shuffle3.V1

open Foundations Foundations.Ledgers

/-! ### Arguments -/

/-- A character. -/
def char (c : Char) : Byte := BitVec.ofNat 8 c.toNat

/-- The string that stands for the standard input. -/
def dash : List Byte := [char '-']

/-- What the arguments ask for. -/
inductive Request where
  | file (isBuffered isUnshuffling : Bool) (path : List Byte)
  | string (un : Bool) (string : List Byte)
  | usage
  deriving DecidableEq

/-- The loop at `do_switch`, over the characters of `argv[1]` that are left, when `argv[2]`
is `arg`. What comes after the character that decides is not read. -/
def doSwitch (arg : List Byte) (isBuffered : Bool) : List Byte → Request
  | [] => .usage
  | c :: cs =>
    if c = char 'b' then if isBuffered then .usage else doSwitch arg true cs
    else if c = char 'u' then .file isBuffered true arg
    else if c = char 's' then .file isBuffered false arg
    else if c = char 'S' then .string false arg
    else if c = char 'U' then .string true arg
    else .usage

/-- How `fopen` is asked to open a file: `rb`, `r+b` or `wb`. -/
inductive Mode where
  | read
  | update
  | write
  deriving DecidableEq

/-- One run: the arguments after the name of the program, the standard input, and what
`fopen` is allowed to open. -/
structure Invocation where
  args : List (List Byte)
  stdin : List Byte
  opens : Mode → List Byte → Bool

/-- `argv[k + 1]`, or null. -/
def Invocation.argv (inv : Invocation) (k : ℕ) : Option (List Byte) := inv.args[k]?

/-- The start of `main`. -/
def Invocation.request (inv : Invocation) : Request :=
  match inv.argv 0, inv.argv 1 with
  | some (c :: cs), some arg => if c = char '-' then doSwitch arg false cs else .usage
  | _, _ => .usage

/-! ### Files -/

/-- Which file a name stands for, and a number from which on there is no file. -/
structure Directory where
  names : List Byte → Option ℕ
  next : ℕ

/-- The files that a run finds, and leaves. -/
structure World where
  dir : Directory
  files : ℕ → List Byte

/-- `fopen` of a file that there has to be. -/
def Invocation.fopen (inv : Invocation) (mode : Mode) (path : List Byte) (d : Directory) :
    Option ℕ :=
  if inv.opens mode path then d.names path else none

/-- `fopen` for writing. The file is cut to nothing, or made. -/
def Invocation.fopenWrite (inv : Invocation) (path : List Byte) (d : Directory) :
    Option (ℕ × Directory) :=
  if inv.opens .write path then
    match d.names path with
    | some j => some (j, d)
    | none => some (d.next, ⟨Function.update d.names path (some d.next), d.next + 1⟩)
  else none

/-! ### Strings -/

/-- The standard input: what is left of it, and its indicator for the end. -/
structure Stdin where
  rest : List Byte
  eof : Bool

/-- `read_stdin`, of at most `fuel` rounds: the string it returns. -/
def readString (fuel : ℕ) (s : Stdin) : Option (List Byte × Stdin) := do
  let r ← readStdinLoop fuel { Reader.start s.rest with eof := s.eof }
  let string ← cstring r.input
  some (string, ⟨r.stdin, r.eof⟩)

/-- The body of the loop that prints. -/
def printChar (i : ℕ) (p : List Byte × ArrayT) : Option (List Byte × ArrayT) := do
  let (c, ar) ← arGetV Int8 p.2 i
  some (p.1 ++ [c.toBitVec], ar)

/-- What `string_shuffle` prints for a string. -/
def shuffleString (L : Libc) (un : Bool) (string : List Byte) : Option (List Byte) := do
  let (_, ar) ← shuffle3Or L un (.initial L) (arCreateMemoryFrom string 1 string.length)
  let ar := arReinterpret ar 1
  let (out, _) ← scanLoop printChar ar.size 0 ([], ar)
  some out

/-- `string_shuffle`, of at most `calls` calls: what it prints, and the standard input. -/
def stringShuffle (L : Libc) (un : Bool) (fuel : ℕ) :
    ℕ → Option (List Byte) → Stdin → Option (List Byte × Stdin)
  | 0, _, _ => none
  | calls + 1, none, s => (readString fuel s).bind fun p => stringShuffle L un fuel calls (some p.1) p.2
  | calls + 1, some string, s =>
    if string = dash then stringShuffle L un fuel calls none s
    else (shuffleString L un string).map fun out => (out, s)

/-! ### The program -/

/-- What `main` returns, and what it prints of a string. -/
structure Outcome where
  status : ℕ
  out : List Byte
  deriving DecidableEq

/-- `main`, in place. -/
def runInPlace (L : Libc) (un : Bool) (path : List Byte) (inv : Invocation) (w : World) :
    Option (Outcome × World) :=
  match inv.fopen .update path w.dir with
  | none => some (⟨1, []⟩, w)
  | some i => do
    let (_, array) ← shuffle3Or L un (.initial L) (arCreateFile (.opened (w.files i)) 1)
    some (⟨0, []⟩, ⟨w.dir, Function.update w.files i array.store.contents⟩)

/-- `main`, buffered. The file is closed before the other is opened. -/
def runBuffered (L : Libc) (un : Bool) (path outfile : List Byte) (inv : Invocation) (w : World) :
    Option (Outcome × World) :=
  match inv.fopen .read path w.dir with
  | none => some (⟨1, []⟩, w)
  | some i => do
    let array ← readWholeFile (.opened (w.files i))
    let (_, array) ← shuffle3Or L un (.initial L) array
    match inv.fopenWrite outfile w.dir with
    | none => some (⟨1, []⟩, w)
    | some (j, dir) => do
      let wbuf := List.replicate array.fullSize 0#8
      let (_, dump, array) ← arNdump array array.fullSize 0 array.size
      let out := (Stream.opened []).fwrite ((splice wbuf 0 dump).take array.fullSize)
      some (⟨0, []⟩, ⟨dir, Function.update w.files j out.fclose⟩)

/-- `main`. Its loops and calls are at most `fuel`. -/
def exec (L : Libc) (fuel : ℕ) (inv : Invocation) (w : World) : Option (Outcome × World) :=
  match inv.request with
  | .usage => some (⟨1, []⟩, w)
  | .string un string =>
    (stringShuffle L un fuel fuel (some string) ⟨inv.stdin, false⟩).map fun p => (⟨0, p.1⟩, w)
  | .file false un path => runInPlace L un path inv w
  | .file true un path =>
    match inv.argv 2 with
    | none => some (⟨1, []⟩, w)
    | some outfile => runBuffered L un path outfile inv w

/-- Runs of the program, one after the other. -/
def runs (L : Libc) (fuel : ℕ) : List Invocation → World → Option (List Outcome × World)
  | [], w => some ([], w)
  | inv :: invs, w => (exec L fuel inv w).bind fun (o, w) =>
    (runs L fuel invs w).map fun (os, w) => (o :: os, w)

variable {L : Libc} {un : Bool} {fuel : ℕ} {inv : Invocation} {invs : List Invocation} {w w' : World}
  {o : Outcome} {x y : List Byte}

/-! ### Shuffling as a partial equivalence -/

theorem byteGen_draws {z : List Byte} (hz : (blocks 1 z).Perm (blocks 1 x)) :
    (byteGen L z).draws (x.length / 1 - 1) = (byteGen L x).draws (x.length / 1 - 1) := by
  rcases Nat.eq_zero_or_pos (x.length / 1) with h0 | hbytes
  · rw [h0]
    exact V2.generator_draws_zero _ _
  · rw [byteGen, byteGen, byteSeed, byteSeed, V2.byteSeeds_perm hz hbytes]

/-- In place, shuffling undoes unshuffling. -/
theorem mainInPlace_unshuffled (h : mainInPlace L true x = some y) :
    mainInPlace L false y = some x := by
  have hpos : ∀ s ∈ (passPairs L).reverse, 0 < s.1 := by simp [passPairs]
  have hredrawn : V2.Redrawn true (passPairs L).reverse x := ⟨fun z hz => byteGen_draws hz, fun y _ =>
    ⟨fun z hz => V2.frng_draws _ hz (.inl rfl), fun y _ =>
      ⟨fun z hz => V2.xorng_draws hz _ _, fun _ _ => trivial⟩⟩⟩
  rw [mainInPlace_eq, inTurnInt_eq pos_of_mem_passes] at h ⊢
  split_ifs at h with hn
  have hlen := (V2.inTurn_perm pos_of_mem_passes h).length_eq
  have hback := V2.inTurn_not hpos hredrawn h
  rw [if_pos, ← hback]
  · rfl
  · intro s hs
    rw [hlen]
    refine hn s ?_
    rwa [← List.mem_reverse]

theorem mainInPlace_back (h : mainInPlace L un x = some y) : mainInPlace L (!un) y = some x := by
  cases un with
  | false => exact mainInPlace_not h
  | true => exact mainInPlace_unshuffled h

/-- **Shuffling is a partial equivalence of the contents that a file can have.** -/
def shuffled (L : Libc) : List Byte ≃. List Byte where
  toFun := mainInPlace L false
  invFun := mainInPlace L true
  inv _ _ := ⟨mainInPlace_unshuffled, mainInPlace_not⟩

theorem turnOr_shuffled (L : Libc) (un : Bool) (x : List Byte) :
    turnOr (shuffled L) un x = mainInPlace L un x := by
  cases un <;> rfl

/-! ### One run -/

/-- What a run does to the files, and the directory after it, where every file can be opened
that it opens. -/
def Invocation.effect (inv : Invocation) (d : Directory) : Option (Move ℕ × Directory) :=
  match inv.request with
  | .file false un path => (inv.fopen .update path d).map fun i => (⟨i, i, un⟩, d)
  | .file true un path => (inv.argv 2).bind fun outfile => (inv.fopen .read path d).bind fun i =>
    (inv.fopenWrite outfile d).map fun (j, d) => (⟨i, j, un⟩, d)
  | _ => none

/-- The directory after a run. -/
def Invocation.directory (inv : Invocation) (d : Directory) : Directory :=
  ((inv.effect d).map Prod.snd).getD d

/-- The status of a run: a file is asked for and was written, or a string is asked for. -/
def Invocation.status (inv : Invocation) (d : Directory) : ℕ :=
  match inv.request with
  | .string _ _ => 0
  | .file _ _ _ => if (inv.effect d).isSome then 0 else 1
  | .usage => 1

/-- A run does not unshuffle buffered, or the files end with their last element of eight bytes. -/
def Invocation.Whole (inv : Invocation) (w : World) : Prop :=
  (∀ path, inv.request ≠ .file true true path) ∨ ∀ i, 8 ∣ (w.files i).length

theorem runInPlace_eq (un : Bool) (path : List Byte) (inv : Invocation) (w : World) :
    runInPlace L un path inv w =
      match inv.fopen .update path w.dir with
      | none => some (⟨1, []⟩, w)
      | some i => (mainInPlace L un (w.files i)).map fun y => (⟨0, []⟩, ⟨w.dir, Function.update w.files i y⟩) := by
  unfold runInPlace mainInPlace contentsOf
  cases inv.fopen .update path w.dir with
  | none => rfl
  | some i =>
    dsimp only
    cases shuffle3Or L un (.initial L) (arCreateFile (.opened (w.files i)) 1) <;> rfl

/-- Buffered, what is written is a dump of what a run in place would leave. -/
theorem runBuffered_eq (un : Bool) (path outfile : List Byte) (inv : Invocation) (w : World) :
    runBuffered L un path outfile inv w =
      match inv.fopen .read path w.dir with
      | none => some (⟨1, []⟩, w)
      | some i => (mainInPlace L un (w.files i)).map fun y =>
        match inv.fopenWrite outfile w.dir with
        | none => (⟨1, []⟩, w)
        | some (j, dir) => (⟨0, []⟩, ⟨dir, Function.update w.files j (dumped (lastWidth un) y)⟩) := by
  unfold runBuffered
  cases inv.fopen .read path w.dir with
  | none => rfl
  | some i =>
    have hrel := shuffle3Or_rel un (.initial L) (views_memory (w.files i))
    have hlen : ∀ y, inTurnInt un (passes L un) (w.files i) = some y →
        y.length = (w.files i).length ∧ (w.files i).length ≤ intMax :=
      fun y => length_of_inTurnInt pos_of_mem_passes byteGen_mem_passes
    simp only [readWholeFile_opened, mainInPlace_eq, Option.bind_eq_bind, Option.bind_some]
    generalize shuffle3Or L un (.initial L) (arCreateMemoryFrom (w.files i) 1 (w.files i).length) = p,
      inTurnInt un (passes L un) (w.files i) = q at hrel hlen
    cases hrel with
    | none => rfl
    | @some p y h =>
      have hshort : y.length < 2 ^ 64 := by
        obtain ⟨hy, hx⟩ := hlen y rfl
        unfold intMax at hx
        omega
      cases hopen : inv.fopenWrite outfile w.dir with
      | none => rfl
      | some r =>
        have hdump := h.ndump hshort
        rw [h.fullSize] at hdump
        simp only [Option.bind_some, hdump, Option.map_some, fclose_fwrite_opened, h.fullSize, splice_dump]

/-- **What one run does**: its move, if it has one, and nothing else. -/
theorem exec_eq_some (h : exec L fuel inv w = some (o, w')) (hwhole : inv.Whole w) :
    o.status = inv.status w.dir ∧
      ((inv.effect w.dir = none ∧ w' = w) ∨ ∃ m d y, inv.effect w.dir = some (m, d) ∧
        mainInPlace L m.back (w.files m.src) = some y ∧ w' = ⟨d, Function.update w.files m.dst y⟩) := by
  unfold Invocation.Whole at hwhole
  unfold exec at h
  cases hreq : inv.request with
  | usage =>
    rw [hreq] at h
    cases h
    simp [Invocation.status, Invocation.effect, hreq]
  | string un string =>
    rw [hreq] at h
    obtain ⟨p, -, hp⟩ := Option.map_eq_some_iff.mp h
    cases hp
    simp [Invocation.status, Invocation.effect, hreq]
  | file isBuffered un path =>
    rw [hreq] at h hwhole
    cases isBuffered with
    | false =>
      simp only [runInPlace_eq] at h
      cases hopen : inv.fopen .update path w.dir with
      | none =>
        rw [hopen] at h
        cases h
        simp [Invocation.status, Invocation.effect, hreq, hopen]
      | some i =>
        rw [hopen] at h
        obtain ⟨y, hy, hp⟩ := Option.map_eq_some_iff.mp h
        cases hp
        have heffect : inv.effect w.dir = some (⟨i, i, un⟩, w.dir) := by
          simp [Invocation.effect, hreq, hopen]
        exact ⟨by simp [Invocation.status, hreq, heffect], .inr ⟨_, _, y, heffect, hy, rfl⟩⟩
    | true =>
      cases harg : inv.argv 2 with
      | none =>
        simp only [harg] at h
        cases h
        simp [Invocation.status, Invocation.effect, hreq, harg]
      | some outfile =>
        simp only [harg, runBuffered_eq] at h
        cases hopen : inv.fopen .read path w.dir with
        | none =>
          rw [hopen] at h
          cases h
          simp [Invocation.status, Invocation.effect, hreq, harg, hopen]
        | some i =>
          rw [hopen] at h
          obtain ⟨y, hy, hp⟩ := Option.map_eq_some_iff.mp h
          cases hwrite : inv.fopenWrite outfile w.dir with
          | none =>
            rw [hwrite] at hp
            cases hp
            simp [Invocation.status, Invocation.effect, hreq, harg, hopen, hwrite]
          | some r =>
            have heffect : inv.effect w.dir = some (⟨i, r.1, un⟩, r.2) := by
              simp [Invocation.effect, hreq, harg, hopen, hwrite]
            have hself : dumped (lastWidth un) y = y := by
              cases un with
              | false => exact dumped_one y
              | true =>
                refine dumped_of_dvd ?_
                rw [(mainInPlace_perm hy).length_eq]
                exact hwhole.resolve_left (fun hne => hne path rfl) i
            rw [hwrite] at hp
            simp only [hself] at hp
            cases hp
            exact ⟨by simp [Invocation.status, hreq, heffect], .inr ⟨_, _, y, heffect, hy, rfl⟩⟩

/-- A run that keeps the files whole. -/
theorem dvd_length_exec (h : exec L fuel inv w = some (o, w')) (hdvd : ∀ i, 8 ∣ (w.files i).length)
    (i : ℕ) :
    8 ∣ (w'.files i).length := by
  obtain ⟨-, ⟨-, rfl⟩ | ⟨m, d, y, -, hy, rfl⟩⟩ := exec_eq_some h (.inr hdvd)
  · exact hdvd i
  · show 8 ∣ (Function.update w.files m.dst y i).length
    by_cases hi : i = m.dst
    · subst hi
      rw [Function.update_self, (mainInPlace_perm hy).length_eq]
      exact hdvd m.src
    · rw [Function.update_of_ne hi]
      exact hdvd i

/-! ### Runs -/

/-- The directory, the statuses and the moves of runs, as the directory and the files that
can be opened decide them. -/
structure Plan where
  statuses : List ℕ
  moves : List (Move ℕ)
  dir : Directory

/-- What is planned of some runs. -/
def plan : List Invocation → Directory → Plan
  | [], d => ⟨[], [], d⟩
  | inv :: invs, d =>
    let p := plan invs (inv.directory d)
    ⟨inv.status d :: p.statuses, ((inv.effect d).map Prod.fst).toList ++ p.moves, p.dir⟩

/-- **The runs refine their moves**: on the files they do what the moves do on cells. -/
theorem runs_eq_some
    (hwhole : (∀ inv ∈ invs, ∀ path, inv.request ≠ .file true true path) ∨ ∀ i, 8 ∣ (w.files i).length)
    {os : List Outcome} (h : runs L fuel invs w = some (os, w')) :
    os.map Outcome.status = (plan invs w.dir).statuses ∧ w'.dir = (plan invs w.dir).dir ∧
      run (shuffled L) (plan invs w.dir).moves w.files = some w'.files := by
  induction invs generalizing w os with
  | nil =>
    cases h
    exact ⟨rfl, rfl, rfl⟩
  | cons inv invs ih =>
    obtain ⟨⟨o, v⟩, hexec, h⟩ := Option.bind_eq_some_iff.mp h
    obtain ⟨⟨os, v'⟩, hruns, h⟩ := Option.map_eq_some_iff.mp h
    cases h
    obtain ⟨hstatus, hmove⟩ :=
      exec_eq_some hexec (hwhole.imp_left fun h => h inv List.mem_cons_self)
    have hdir : v.dir = inv.directory w.dir := by
      obtain ⟨heffect, rfl⟩ | ⟨m, d, y, heffect, -, rfl⟩ :=
        hmove <;> rw [Invocation.directory, heffect] <;> rfl
    have hfiles : run (shuffled L) ((inv.effect w.dir).map Prod.fst).toList w.files = some v.files := by
      obtain ⟨heffect, rfl⟩ | ⟨m, d, y, heffect, hy, rfl⟩ := hmove
      · rw [heffect]
        rfl
      · rw [heffect]
        show (Ledgers.apply (shuffled L) w.files m).bind some = _
        rw [Option.bind_fun_some, Ledgers.apply, turnOr_shuffled, hy, Option.map_some]
    obtain ⟨hstatuses, hdir', hfiles'⟩ := ih
      (hwhole.imp (fun h inv' h' => h inv' (List.mem_cons_of_mem _ h')) (dvd_length_exec hexec)) hruns
    rw [hdir] at hstatuses hdir' hfiles'
    refine ⟨?_, hdir', ?_⟩
    · rw [List.map_cons, hstatus, hstatuses]
      rfl
    · rw [plan, run_append, hfiles, Option.bind_some, hfiles']

/-- **After any runs over any files** every file is what the ledger says, so many shuffles, or
unshuffles, of what was in one file before them. -/
theorem runs_ledger
    (hwhole : (∀ inv ∈ invs, ∀ path, inv.request ≠ .file true true path) ∨ ∀ i, 8 ∣ (w.files i).length)
    {os : List Outcome} (h : runs L fuel invs w = some (os, w')) :
    os.map Outcome.status = (plan invs w.dir).statuses ∧ w'.dir = (plan invs w.dir).dir ∧
      ∀ i, Power (shuffled L) (ledger (plan invs w.dir).moves i).2
        (w.files (ledger (plan invs w.dir).moves i).1) (w'.files i) := by
  obtain ⟨hstatuses, hdir, hfiles⟩ := runs_eq_some hwhole h
  exact ⟨hstatuses, hdir, run_ledger hfiles⟩

/-- A run with these arguments, which is allowed to open every file. -/
def invocationOf (args : List String) : Invocation :=
  ⟨args.map fun arg => arg.toList.map char, [], fun _ _ => true⟩

/-- The file "a", and every other, has sixteen bytes. -/
def sixteen : World :=
  ⟨⟨fun path => if path = [char 'a'] then some 0 else none, 1⟩, fun _ => V2.sixteenBytes⟩

/-- The file is shuffled in place, and then unshuffled into another. -/
theorem runs_ledger_sixteen :
    ∃ os w', runs tinyLibc 0 [invocationOf ["-s", "a"], invocationOf ["-bu", "a", "b"]] sixteen = some (os, w') ∧
      let p := plan [invocationOf ["-s", "a"], invocationOf ["-bu", "a", "b"]] sixteen.dir
      os.map Outcome.status = p.statuses ∧ w'.dir = p.dir ∧
        ∀ i, Power (shuffled tinyLibc) (ledger p.moves i).2 (sixteen.files (ledger p.moves i).1) (w'.files i) := by
  obtain ⟨y, hy⟩ := exists_mainInPlace documented_tinyLibc (x := V2.sixteenBytes) (by decide) (by decide) false
  have hfirst : ∃ w₁, exec tinyLibc 0 (invocationOf ["-s", "a"]) sixteen = some (⟨0, []⟩, w₁) ∧
      w₁.dir = sixteen.dir ∧ w₁.files 0 = y := by
    refine ⟨⟨sixteen.dir, Function.update sixteen.files 0 y⟩, ?_, rfl, rfl⟩
    show runInPlace tinyLibc false [char 'a'] (invocationOf ["-s", "a"]) sixteen = _
    rw [runInPlace_eq]
    show (mainInPlace tinyLibc false V2.sixteenBytes).map _ = _
    rw [hy]
    rfl
  obtain ⟨w₁, hfirst, hdir, hfile⟩ := hfirst
  have hsecond : ∃ w₂, exec tinyLibc 0 (invocationOf ["-bu", "a", "b"]) w₁ = some (⟨0, []⟩, w₂) := by
    show ∃ w₂, runBuffered tinyLibc true [char 'a'] [char 'b'] (invocationOf ["-bu", "a", "b"]) w₁ = _
    have hopen : (invocationOf ["-bu", "a", "b"]).fopen .read [char 'a'] w₁.dir = some 0 := by rw [hdir]; rfl
    have hwrite : (invocationOf ["-bu", "a", "b"]).fopenWrite [char 'b'] w₁.dir =
        some (1, ⟨Function.update w₁.dir.names [char 'b'] (some 1), 2⟩) := by rw [hdir]; rfl
    simp only [runBuffered_eq, hopen, hfile, mainInPlace_not hy, Option.map_some, hwrite]
    exact ⟨_, rfl⟩
  obtain ⟨w₂, hsecond⟩ := hsecond
  have hruns : runs tinyLibc 0 [invocationOf ["-s", "a"], invocationOf ["-bu", "a", "b"]] sixteen =
      some ([⟨0, []⟩, ⟨0, []⟩], w₂) := by
    simp only [runs, hfirst, hsecond, Option.bind_some, Option.map_some]
  exact ⟨_, _, hruns, runs_ledger (.inr fun _ => ⟨2, rfl⟩) hruns⟩

/-! ### Strings -/

theorem toBitVec_char {i : ℕ} (hi : i < x.length / Layout.sizeof Int8) (hi' : i < x.length) :
    (Layout.ofBytes (blockAt (Layout.sizeof Int8) x i hi) : Int8).toBitVec = x[i] := by
  have hslice : slice x (i * 1) 1 = [x[i]] := by
    rw [slice, Nat.mul_one, List.take_one_drop_eq_of_lt_length hi', List.get_eq_getElem]
  show BitVec.ofNat 8 (leNat (slice x (i * 1) 1)) = x[i]
  rw [hslice, leNat, leNat, Nat.mul_zero, Nat.add_zero, BitVec.ofNat_toNat, BitVec.setWidth_eq]

/-- The loop prints the bytes that are left. -/
theorem printLoop_eq (hn : x.length ≤ intMax) (k : ℕ) :
    ∀ {i : ℕ} {a : ArrayT} (out : List Byte), Views false 1 a x → i + k = x.length →
      ∃ a', scanLoop printChar k i (out, a) = some (out ++ x.drop i, a') := by
  induction k with
  | zero =>
    intro i a out _ hi
    exact ⟨a, by rw [scanLoop, List.drop_eq_nil_of_le (by omega), List.append_nil]⟩
  | succ k ih =>
    intro i a out h hi
    have hlt : i < x.length := by omega
    have hlt' : i < x.length / Layout.sizeof Int8 := by
      rwa [show Layout.sizeof Int8 = 1 from rfl, Nat.div_one]
    obtain ⟨a', hget, h'⟩ := Views.getV (τ := Int8) h hlt'
    obtain ⟨a'', hrest⟩ := ih (out ++ [x[i]]) h' (show i + 1 + k = x.length by omega)
    refine ⟨a'', ?_⟩
    have hbody : printChar i (out, a) = some (out ++ [x[i]], a') := by
      simp only [printChar, hget, Option.bind_eq_bind, Option.bind_some, toBitVec_char hlt' hlt]
    rw [scanLoop, hbody, Option.bind_eq_bind, Option.bind_some, if_pos (by omega), hrest, List.append_assoc,
      List.singleton_append, List.cons_getElem_drop_succ]

/-- **A string is printed as a file of its bytes is shuffled** in place. -/
theorem shuffleString_eq (un : Bool) (x : List Byte) :
    shuffleString L un x = mainInPlace L un x := by
  have hrel := shuffle3Or_rel un (.initial L) (views_memory x)
  have hlen : ∀ y, inTurnInt un (passes L un) x = some y → y.length = x.length ∧ x.length ≤ intMax :=
    fun y => length_of_inTurnInt pos_of_mem_passes byteGen_mem_passes
  rw [shuffleString, mainInPlace_eq]
  generalize shuffle3Or L un (.initial L) (arCreateMemoryFrom x 1 x.length) = p,
    inTurnInt un (passes L un) x = q at hrel hlen
  cases hrel with
  | none => rfl
  | @some p y h =>
    obtain ⟨hy, hx⟩ := hlen y rfl
    have hviews := h.reinterpret 1
    have hsize : (arReinterpret p.2 1).size = y.length := by rw [hviews.size, Nat.div_one]
    obtain ⟨a', hprint⟩ := printLoop_eq (hy.trans_le hx) y.length [] hviews (Nat.zero_add _)
    simp only [Option.bind_eq_bind, Option.bind_some, hsize, hprint, List.nil_append, List.drop_zero]

theorem stringShuffle_string {calls : ℕ} {s : Stdin} (hdash : x ≠ dash) :
    stringShuffle L un fuel (calls + 1) (some x) s = (mainInPlace L un x).map fun y => (y, s) := by
  rw [stringShuffle, if_neg hdash, shuffleString_eq]

/-! #### On the standard input -/

theorem eof_of_readStdinLoop {s t : Reader} (h : readStdinLoop fuel s = some t) : t.eof = true := by
  induction fuel generalizing s with
  | zero =>
    rw [readStdinLoop] at h
    split_ifs at h with he
    cases h
    exact he
  | succ fuel ih =>
    rw [readStdinLoop] at h
    split_ifs at h with he
    · cases h
      exact he
    · obtain ⟨u, -, h⟩ := Option.bind_eq_some_iff.mp h
      exact ih h

/-- More rounds do not change how the loop ends. -/
theorem readStdinLoop_mono {s t : Reader} {n : ℕ} (h : readStdinLoop fuel s = some t)
    (hn : fuel ≤ n) : readStdinLoop n s = some t := by
  induction fuel generalizing s n with
  | zero =>
    rw [readStdinLoop] at h
    split_ifs at h with he
    rw [readStdinLoop_of_eof he, h]
  | succ fuel ih =>
    rw [readStdinLoop] at h
    split_ifs at h with he
    · rw [readStdinLoop_of_eof he, h]
    · obtain ⟨n, rfl⟩ := Nat.exists_eq_add_one.mpr (Nat.zero_lt_of_lt hn)
      obtain ⟨u, hu, h⟩ := Option.bind_eq_some_iff.mp h
      rw [readStdinLoop, if_neg he, hu, Option.bind_some, ih h (Nat.le_of_succ_le_succ hn)]

/-- An input whose end is met in the first two calls is returned, and is at its end. -/
theorem exists_readString (hx : 0#8 ∉ x) (hends : EndsInTwo x) :
    ∃ n s, s.eof = true ∧ ∀ fuel ≥ n, readString fuel ⟨x, false⟩ = some (x, s) := by
  obtain ⟨n, r, hr, hinput, -⟩ := readsAll_of_endsInTwo hx hends
  refine ⟨n, ⟨r.stdin, r.eof⟩, eof_of_readStdinLoop hr, fun fuel hn => ?_⟩
  have hloop : readStdinLoop fuel (.start x) = some r := readStdinLoop_mono hr hn
  show (readStdinLoop fuel (.start x)).bind _ = _
  rw [hloop, Option.bind_some, hinput]
  rfl

theorem readString_mono {n : ℕ} {s : Stdin} {p : List Byte × Stdin} (h : readString fuel s = some p)
    (hn : fuel ≤ n) : readString n s = some p := by
  obtain ⟨r, hr, h⟩ := Option.bind_eq_some_iff.mp h
  show (readStdinLoop n { Reader.start s.rest with eof := s.eof }).bind _ = _
  rw [readStdinLoop_mono hr hn, Option.bind_some, ← h]

/-- At the end of the input the empty string is read. -/
theorem readString_of_eof {s : Stdin} (h : s.eof = true) : readString fuel s = some ([], s) := by
  show (readStdinLoop fuel { Reader.start s.rest with eof := s.eof }).bind _ = _
  rw [readStdinLoop_of_eof h, Option.bind_some]
  rfl

theorem mainInPlace_nil (L : Libc) (un : Bool) : mainInPlace L un [] = some [] := by
  obtain ⟨y, hy⟩ := V2.exists_inTurn_of_perm un (pos_of_mem_passes (L := L)) (x := []) fun s _ _ _ => by
    rw [List.length_nil, Nat.zero_div]
    trivial
  obtain rfl := List.perm_nil.mp (V2.inTurn_perm pos_of_mem_passes hy)
  rw [mainInPlace_eq, inTurnInt_eq pos_of_mem_passes, if_pos, hy]
  intro s _
  rw [List.length_nil, Nat.zero_div]
  exact Nat.zero_le _

theorem stringShuffle_dash {calls : ℕ} (s : Stdin) :
    stringShuffle L un fuel (calls + 2) (some dash) s =
    (readString fuel s).bind fun p => stringShuffle L un fuel calls (some p.1) p.2 := by
  rw [stringShuffle, if_pos rfl, stringShuffle]

/-- More rounds and calls do not change what is printed. -/
theorem stringShuffle_mono {calls n m : ℕ} {q : Option (List Byte)} {s : Stdin}
    {p : List Byte × Stdin} (h : stringShuffle L un fuel calls q s = some p) (hn : fuel ≤ n)
    (hm : calls ≤ m) :
    stringShuffle L un n m q s = some p := by
  induction calls generalizing m q s with
  | zero => cases h
  | succ calls ih =>
    obtain ⟨m, rfl⟩ := Nat.exists_eq_add_one.mpr (Nat.zero_lt_of_lt hm)
    have hm := Nat.le_of_succ_le_succ hm
    cases q with
    | none =>
      obtain ⟨r, hr, h⟩ := Option.bind_eq_some_iff.mp h
      rw [stringShuffle, readString_mono hr hn, Option.bind_some, ih h hm]
    | some string =>
      rw [stringShuffle] at h ⊢
      split_ifs at h ⊢
      · exact ih h hm
      · exact h

theorem exec_mono {n : ℕ} (h : exec L fuel inv w = some (o, w')) (hn : fuel ≤ n) :
    exec L n inv w = some (o, w') := by
  unfold exec at h ⊢
  cases hreq : inv.request with
  | string un string =>
    rw [hreq] at h
    obtain ⟨p, hp, h⟩ := Option.map_eq_some_iff.mp h
    simp only [stringShuffle_mono hp hn hn, Option.map_some, h]
  | file isBuffered un path => cases isBuffered <;> rwa [hreq] at h
  | usage => rwa [hreq] at h

/-- The string `x` is given to a run: as its argument, where it is not `-`, or on the standard
input, where its end is met in the first two calls of `fgets`. -/
def Invocation.Given (inv : Invocation) (un : Bool) (x : List Byte) : Prop :=
  (inv.request = .string un x ∧ x ≠ dash) ∨ (inv.request = .string un dash ∧ inv.stdin = x ∧ EndsInTwo x)

/-- What is printed for a string. The string `-`, which can only be read, stands for the rest
of the standard input again. -/
def printed (L : Libc) (un : Bool) (x : List Byte) : Option (List Byte) :=
  if x = dash then some [] else mainInPlace L un x

/-- **What a run prints for a string** that it is given. -/
theorem exec_given (hx : 0#8 ∉ x) (h : inv.Given un x) (w : World) :
    ∃ n, ∀ fuel ≥ n, exec L fuel inv w = (printed L un x).map fun y => (⟨0, y⟩, w) := by
  rcases h with ⟨hreq, hdash⟩ | ⟨hreq, rfl, hends⟩
  · refine ⟨1, fun fuel hn => ?_⟩
    obtain ⟨fuel, rfl⟩ := Nat.exists_eq_add_of_le' hn
    simp only [exec, hreq, stringShuffle_string hdash, printed, if_neg hdash, Option.map_map]
    rfl
  · obtain ⟨n, s, heof, hread⟩ := exists_readString hx hends
    refine ⟨n + 5, fun fuel hn => ?_⟩
    obtain ⟨calls, hcalls⟩ := Nat.exists_eq_add_of_le' (show 5 ≤ fuel by omega)
    simp only [exec, hreq]
    nth_rewrite 2 [hcalls]
    rw [stringShuffle_dash, hread fuel (by omega), Option.bind_some]
    by_cases hdash : inv.stdin = dash
    · -- the end of the input has been met, and the empty string is what is left
      have hnil : ([] : List Byte) ≠ dash := by decide
      rw [hdash, stringShuffle_dash, readString_of_eof heof, Option.bind_some, stringShuffle_string hnil,
        mainInPlace_nil, printed, if_pos rfl]
      rfl
    · rw [stringShuffle_string hdash, printed, if_neg hdash, Option.map_map]
      rfl

theorem ne_dash_of_perm {y : List Byte} (h : y.Perm x) (hdash : x ≠ dash) : y ≠ dash := by
  rintro rfl
  exact hdash (List.perm_singleton.mp h.symm)

/-- **A string can be given to the program, and what it prints given back**: it prints the
string as it would shuffle a file that holds it, leaves the files alone, and from what it has
printed the opposite option prints the string, whether either is an argument or on the
standard input. The string `-` alone is lost on the standard input. -/
theorem strings_back (hx : 0#8 ∉ x) (hgiven : inv.Given un x)
    (h : exec L fuel inv w = some (o, w')) :
    o.status = 0 ∧ w' = w ∧ (x = dash → o.out = []) ∧
      (x ≠ dash → mainInPlace L un x = some o.out ∧ 0#8 ∉ o.out ∧ o.out ≠ dash ∧
        ∀ inv' : Invocation, inv'.Given (!un) o.out →
          ∀ w₁, ∃ n, ∀ fuel ≥ n, exec L fuel inv' w₁ = some (⟨0, x⟩, w₁)) := by
  obtain ⟨n, hexec⟩ := exec_given (L := L) hx hgiven w
  have hprinted := exec_mono h (le_max_left fuel n)
  rw [hexec _ (le_max_right fuel n)] at hprinted
  obtain ⟨y, hy, hp⟩ := Option.map_eq_some_iff.mp hprinted
  cases hp
  refine ⟨rfl, rfl, fun hdash => ?_, fun hdash => ?_⟩
  · rw [printed, if_pos hdash] at hy
    exact (Option.some.inj hy).symm
  · rw [printed, if_neg hdash] at hy
    have hperm := mainInPlace_perm hy
    have hzero : 0#8 ∉ y := fun hmem => hx (hperm.mem_iff.mp hmem)
    have hdash' : y ≠ dash := ne_dash_of_perm hperm hdash
    refine ⟨hy, hzero, hdash', fun inv' hgiven' w₁ => ?_⟩
    obtain ⟨n', hexec'⟩ := exec_given (L := L) hzero hgiven' w₁
    refine ⟨n', fun fuel hn => ?_⟩
    rw [hexec' fuel hn, printed, if_neg hdash', mainInPlace_back hy, Option.map_some]

/-- Sixteen different bytes, given as an argument. -/
theorem strings_back_sixteen :
    ∃ o w', exec tinyLibc 1 ⟨[[char '-', char 'S'], V2.sixteenBytes], [], fun _ _ => false⟩ sixteen =
        some (o, w') ∧
      o.status = 0 ∧ w' = sixteen ∧ mainInPlace tinyLibc false V2.sixteenBytes = some o.out ∧ 0#8 ∉ o.out ∧
        o.out ≠ dash ∧ ∀ inv' : Invocation, inv'.Given (!false) o.out →
          ∀ w₁, ∃ n, ∀ fuel ≥ n, exec tinyLibc fuel inv' w₁ = some (⟨0, V2.sixteenBytes⟩, w₁) := by
  have hdash : V2.sixteenBytes ≠ dash := by decide
  obtain ⟨y, hy⟩ := exists_mainInPlace documented_tinyLibc (x := V2.sixteenBytes) (by decide) (by decide) false
  have hexec : exec tinyLibc 1 ⟨[[char '-', char 'S'], V2.sixteenBytes], [], fun _ _ => false⟩ sixteen =
      some (⟨0, y⟩, sixteen) := by
    show (stringShuffle tinyLibc false 1 1 (some V2.sixteenBytes) ⟨[], false⟩).map _ = _
    rw [stringShuffle_string hdash, hy]
    rfl
  obtain ⟨hstatus, hworld, -, hstring⟩ := strings_back (by decide) (.inl ⟨rfl, hdash⟩) hexec
  exact ⟨_, _, hexec, hstatus, hworld, hstring hdash⟩

end Shuffle3.V1
