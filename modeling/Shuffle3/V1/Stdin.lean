import Shuffle3.Foundations.Lines

/-!
# Reading the standard input

`read_stdin` reads line after line behind what it has read, into a buffer that it
doubles when little of it remains. `n` is meant to be the length of the last line, and
is the length of all lines so far, so that from the third line on the place to read to
is too far.

## What is proved

* `readStdin_sum` — in every run the length and what remains make up the size.
* `readsAll_iff` — when the whole input is returned, and every line read to its place.
* `not_readsAll_three` — three lines.

## Honest scope

`n` is zero at the start, memory can be allocated, and an `int` that would overflow is
undefined.
-/

namespace Shuffle3.V1

open Foundations

/-! ### The loop -/

/-- `BUFSIZE`. -/
def stdinBufsize : ℤ := 512

/-- `BUFMIN`. -/
def stdinBufmin : ℤ := 128

/-- A number that an `int` can hold. -/
def int? (k : ℤ) : Option ℤ := if -2 ^ 31 ≤ k ∧ k < 2 ^ 31 then some k else none

/-- A call of `fgets`: the variables, and what is left of the input. -/
structure FgetsCall where
  len : ℤ
  remain : ℤ
  size : ℤ
  stdin : List Byte
  deriving DecidableEq

/-- The variables of `read_stdin`, the standard input, and the calls made so far. -/
structure Reader where
  input : List (Option Byte)
  len : ℤ
  remain : ℤ
  n : ℤ
  size : ℤ
  stdin : List Byte
  eof : Bool
  calls : List FgetsCall

namespace Reader

/-- Before the loop. -/
def start (stdin : List Byte) : Reader :=
  ⟨List.replicate stdinBufsize.toNat (some 0#8), 0, stdinBufsize, 0, stdinBufsize, stdin, false, []⟩

/-- When little remains the buffer is doubled. `realloc` does not initialise what it adds. -/
def grow (s : Reader) : Option Reader :=
  if s.remain ≤ stdinBufmin then
    (int? (s.remain + s.size)).bind fun remain => (int? (s.size * 2)).map fun size =>
      { s with
        remain := remain
        size := size
        input := s.input ++ List.replicate (size.toNat - s.input.length) none }
  else some s

/-- `fgets(input+len, remain, stdin)`, where the region is in the buffer. -/
def fgets (s : Reader) : Option Reader :=
  if 0 ≤ s.len ∧ 0 < s.remain ∧ s.len + s.remain ≤ s.input.length then
    let r := Foundations.fgets s.input s.len.toNat s.remain.toNat s.stdin
    some { s with
      input := r.1
      stdin := r.2.1
      eof := r.2.2
      calls := s.calls ++ [⟨s.len, s.remain, s.size, s.stdin⟩] }
  else none

/-- `n+=strlen(input+len)`, and the other variables with it. -/
def advance (s : Reader) : Option Reader :=
  (cstring (s.input.drop s.len.toNat)).bind fun line => (int? (s.n + line.length)).bind fun n =>
    (int? (s.len + n)).bind fun len => (int? (s.remain - n)).map fun remain =>
      { s with n := n, len := len, remain := remain }

/-- The body of the loop. -/
def round (s : Reader) : Option Reader := s.grow.bind fun s => s.fgets.bind fun s => s.advance

end Reader

/-- The loop, for at most `fuel` rounds. -/
def readStdinLoop : ℕ → Reader → Option Reader
  | 0, s => if s.eof then some s else none
  | fuel + 1, s => if s.eof then some s else s.round.bind (readStdinLoop fuel)

/-- `read_stdin`: the variables when it returns `input`. -/
def readStdin (fuel : ℕ) (stdin : List Byte) : Option Reader := readStdinLoop fuel (.start stdin)

/-! ### What it is for -/

/-- The loop ends, what is returned is the whole input, and at each call of `fgets` the
length and what remains make up the size, and the length is that of what was read. -/
def ReadsAll (x : List Byte) : Prop :=
  ∃ fuel s, readStdin fuel x = some s ∧ cstring s.input = some x ∧
    ∀ c ∈ s.calls, c.len + c.remain = c.size ∧ c.len = x.length - c.stdin.length

/-- What remains once the first line is read, of a buffer that is doubled if need be. -/
def secondRoom (c : ℕ) : ℕ := if 512 - c ≤ 128 then 1024 - c else 512 - c

/-- The input is one line without its end that fits the buffer, or a line and another
without its end that fits what remains. -/
def EndsInTwo (x : List Byte) : Prop :=
  (newline ∉ x ∧ x.length < 511) ∨
    newline ∉ x.drop (readLine 511 x).bytes.length ∧
      (x.drop (readLine 511 x).bytes.length).length < secondRoom (readLine 511 x).bytes.length - 1

/-! ### In every run -/

variable {s t : Reader} {x y : List Byte}

theorem int?_eq_some {k v : ℤ} (h : int? k = some v) : v = k := by
  unfold int? at h
  split_ifs at h
  exact (Option.some.inj h).symm

theorem int?_of_range {k : ℤ} (hlo : -2 ^ 31 ≤ k) (hhi : k < 2 ^ 31) : int? k = some k :=
  if_pos ⟨hlo, hhi⟩

/-- A call of `fgets` is made with the variables of `s`. -/
structure Reader.CalledAt (s : Reader) (c : FgetsCall) : Prop where
  len : c.len = s.len
  stdin : c.stdin = s.stdin
  sum : s.len + s.remain = s.size → c.len + c.remain = c.size

/-- Growing the buffer keeps the sum. -/
theorem Reader.grow_eq_some (h : s.grow = some t) :
    t.len = s.len ∧ t.stdin = s.stdin ∧ t.calls = s.calls ∧
      (s.len + s.remain = s.size → t.len + t.remain = t.size) := by
  unfold grow at h
  split_ifs at h
  · obtain ⟨remain, hremain, h⟩ := Option.bind_eq_some_iff.mp h
    obtain ⟨size, hsize, rfl⟩ := Option.map_eq_some_iff.mp h
    have hremain := int?_eq_some hremain
    have hsize := int?_eq_some hsize
    exact ⟨rfl, rfl, rfl, fun hsum => by simp only; omega⟩
  · cases h
    exact ⟨rfl, rfl, rfl, id⟩

/-- Reading keeps all variables, and is a call. -/
theorem Reader.fgets_eq_some (h : s.fgets = some t) :
    t.len = s.len ∧ t.remain = s.remain ∧ t.size = s.size ∧
      t.calls = s.calls ++ [⟨s.len, s.remain, s.size, s.stdin⟩] := by
  simp only [fgets] at h
  split_ifs at h
  cases h
  exact ⟨rfl, rfl, rfl, rfl⟩

/-- The variables advance together. -/
theorem Reader.advance_eq_some (h : s.advance = some t) :
    t.calls = s.calls ∧ t.len + t.remain = s.len + s.remain ∧ t.size = s.size := by
  obtain ⟨line, -, h⟩ := Option.bind_eq_some_iff.mp h
  obtain ⟨n, -, h⟩ := Option.bind_eq_some_iff.mp h
  obtain ⟨len, hlen, h⟩ := Option.bind_eq_some_iff.mp h
  obtain ⟨remain, hremain, rfl⟩ := Option.map_eq_some_iff.mp h
  have hlen := int?_eq_some hlen
  have hremain := int?_eq_some hremain
  exact ⟨rfl, by simp only; omega, rfl⟩

/-- **One round** makes one call, with the variables as they are, and keeps their sum. -/
theorem Reader.round_eq_some (h : s.round = some t) :
    ∃ c, t.calls = s.calls ++ [c] ∧ s.CalledAt c ∧
      (s.len + s.remain = s.size → t.len + t.remain = t.size) := by
  obtain ⟨g, hg, h⟩ := Option.bind_eq_some_iff.mp h
  obtain ⟨u, hu, h⟩ := Option.bind_eq_some_iff.mp h
  obtain ⟨hlen, hstdin, hcalls, hsum⟩ := grow_eq_some hg
  obtain ⟨hlen', hremain', hsize', hcalls'⟩ := fgets_eq_some hu
  obtain ⟨hcalls'', hsum'', hsize''⟩ := advance_eq_some h
  refine ⟨⟨g.len, g.remain, g.size, g.stdin⟩, by rw [hcalls'', hcalls', hcalls], ⟨hlen, hstdin, hsum⟩, fun h => ?_⟩
  have := hsum h
  omega

/-- In every run the sum is right at each call, and the calls made before it stay. -/
theorem readStdinLoop_calls {fuel : ℕ} (h : readStdinLoop fuel s = some t) :
    s.calls <+: t.calls ∧ (s.len + s.remain = s.size → (∀ c ∈ s.calls, c.len + c.remain = c.size) →
      ∀ c ∈ t.calls, c.len + c.remain = c.size) := by
  induction fuel generalizing s with
  | zero =>
    rw [readStdinLoop] at h
    split_ifs at h
    cases h
    exact ⟨List.prefix_rfl, fun _ => id⟩
  | succ fuel ih =>
    rw [readStdinLoop] at h
    split_ifs at h
    · cases h
      exact ⟨List.prefix_rfl, fun _ => id⟩
    · obtain ⟨u, hu, h⟩ := Option.bind_eq_some_iff.mp h
      obtain ⟨c, hcalls, hc, hsum⟩ := Reader.round_eq_some hu
      obtain ⟨hbegins, hall⟩ := ih h
      rw [hcalls] at hbegins hall
      refine ⟨(List.prefix_append _ _).trans hbegins, fun hs hbefore => hall (hsum hs) ?_⟩
      intro d hd
      rcases List.mem_append.mp hd with hd | hd
      · exact hbefore d hd
      · rw [List.mem_singleton.mp hd]
        exact hc.sum hs

/-- **In every run** the length and what remains make up the size at each call. -/
theorem readStdin_sum {fuel : ℕ} (h : readStdin fuel x = some s) :
    ∀ c ∈ s.calls, c.len + c.remain = c.size :=
  (readStdinLoop_calls h).2 rfl fun _ hc => absurd hc List.not_mem_nil

/-! ### A round from a right place -/

namespace Reader

/-- What remains when `fgets` is called. -/
def room (s : Reader) : ℤ := if s.remain ≤ stdinBufmin then s.remain + s.size else s.remain

/-- The size when `fgets` is called. -/
def newSize (s : Reader) : ℤ := if s.remain ≤ stdinBufmin then s.size * 2 else s.size

/-- What `fgets` reads. -/
def line (s : Reader) : Line := readLine (s.room - 1).toNat s.stdin

/-- The buffer holds the string `y`, and the variables place the end of it. -/
structure Right (s : Reader) (y : List Byte) : Prop where
  input : ∃ tail, s.input = y.map some ++ some 0#8 :: tail
  size : s.size = s.input.length
  len : s.len = y.length
  sum : s.len + s.remain = s.size

/-- There is room for the zero after the string. -/
theorem Right.remain_pos (h : s.Right y) : 0 < s.remain := by
  obtain ⟨⟨tail, hinput⟩, hlength, hlen, hsum⟩ := h
  rw [hinput, List.length_append, List.length_map, List.length_cons] at hlength
  omega

/-- After a round the buffer holds the line too, and the variables have advanced by what
`n` is then. -/
structure Advanced (s : Reader) (y : List Byte) (t : Reader) : Prop where
  input : ∃ tail, t.input = (y ++ s.line.bytes).map some ++ some 0#8 :: tail
  size : t.size = t.input.length
  n : t.n = s.n + s.line.bytes.length
  len : t.len = s.len + t.n
  sum : t.len + t.remain = t.size
  remain : t.remain = s.room - t.n
  newSize : t.size = s.newSize
  stdin : t.stdin = s.line.rest
  eof : t.eof = s.line.eof
  calls : t.calls = s.calls ++ [⟨s.len, s.room, s.newSize, s.stdin⟩]

theorem Right.grow (h : s.Right y) (hsize : s.size ≤ 1024) :
    ∃ t, s.grow = some t ∧ t.Right y ∧ t.remain = s.room ∧ t.size = s.newSize ∧ t.n = s.n ∧
      t.stdin = s.stdin ∧
      t.calls = s.calls := by
  have hpos := h.remain_pos
  obtain ⟨⟨tail, hinput⟩, hlength, hlen, hsum⟩ := h
  rw [Reader.grow, room, newSize]
  split_ifs with hlow
  · rw [int?_of_range (k := s.remain + s.size) (by omega) (by omega),
      int?_of_range (k := s.size * 2) (by omega) (by omega)]
    refine ⟨_, rfl,
      ⟨⟨tail ++ List.replicate ((s.size * 2).toNat - s.input.length) none, ?_⟩, ?_, hlen, ?_⟩, rfl, rfl,
      rfl, rfl, rfl⟩
    · simp only [hinput, List.append_assoc, List.cons_append]
    · simp only [List.length_append, List.length_replicate]
      omega
    · simp only
      omega
  · exact ⟨s, rfl, ⟨⟨tail, hinput⟩, hlength, hlen, hsum⟩, rfl, rfl, rfl, rfl, rfl⟩

/-- A call from a right place puts the line behind what is there. -/
theorem Right.fgets (h : s.Right y) : ∃ cells tail,
    s.fgets = some { s with
      input := cells
      stdin := (readLine (s.remain.toNat - 1) s.stdin).rest
      eof := (readLine (s.remain.toNat - 1) s.stdin).eof
      calls := s.calls ++ [⟨s.len, s.remain, s.size, s.stdin⟩] } ∧
    cells = (y ++ (readLine (s.remain.toNat - 1) s.stdin).bytes).map some ++ some 0#8 :: tail ∧
    cells.length = s.input.length := by
  have hremain := h.remain_pos
  obtain ⟨⟨tail, hinput⟩, hlength, hlen, hsum⟩ := h
  have hplace : s.len.toNat = y.length := by omega
  obtain ⟨cells, tail', hfgets, hcells, hcellslen⟩ :=
    fgets_spec (n := s.remain.toNat) (x := s.stdin) hinput (by omega) (by omega)
  refine ⟨cells, tail', ?_, hcells, hcellslen⟩
  rw [Reader.fgets, if_pos ⟨by omega, hremain, by omega⟩, hplace, hfgets]

/-- The variables advance by the length of the string and what `n` was. -/
theorem advance_eq {line : List Byte} (hstring : cstring (s.input.drop s.len.toNat) = some line)
    (hn : 0 ≤ s.n) (hn' : s.n ≤ 1024) (hlen : 0 ≤ s.len) (hlen' : s.len ≤ 2048)
    (hremain : 0 ≤ s.remain) (hremain' : s.remain ≤ 2048) (hline : (line.length : ℤ) ≤ 2048) :
    s.advance = some { s with
      n := s.n + line.length
      len := s.len + (s.n + line.length)
      remain := s.remain - (s.n + line.length) } := by
  rw [advance, hstring, Option.bind_some, int?_of_range (k := s.n + line.length) (by omega) (by omega),
    Option.bind_some, int?_of_range (k := s.len + (s.n + line.length)) (by omega) (by omega), Option.bind_some,
    int?_of_range (k := s.remain - (s.n + line.length)) (by omega) (by omega), Option.map_some]

/-- **A round from a right place** puts the line behind what is there. -/
theorem Right.round (h : s.Right y) (hz : 0#8 ∉ s.stdin) (hsize : s.size ≤ 1024) (hn : 0 ≤ s.n)
    (hn' : s.n ≤ 1024) :
    ∃ t, s.round = some t ∧ s.Advanced y t := by
  obtain ⟨g, hg, hright, hremain, hnew, hgn, hstdin, hcalls⟩ := h.grow hsize
  obtain ⟨cells, tail, hfgets, hcells, hcellslen⟩ := hright.fgets
  have hpos := hright.remain_pos
  have hplace := hright.len
  have hgsum := hright.sum
  have hglen : g.len = s.len := hplace.trans h.len.symm
  have hlarge : s.newSize ≤ 2048 := by
    unfold newSize
    split_ifs <;> omega
  have hline : readLine (g.remain.toNat - 1) g.stdin = s.line := by
    rw [line, hstdin, ← hremain]
    congr 1
    omega
  rw [hline] at hfgets hcells
  have hle : s.line.bytes.length ≤ (s.room - 1).toNat := Line.length_bytes_le _ _
  have hstring : cstring (cells.drop g.len.toNat) = some s.line.bytes := by
    have hread : 0#8 ∉ s.line.bytes := fun hmem => hz (Line.mem_of_mem_bytes hmem)
    rw [hplace, Int.toNat_natCast, hcells, List.map_append, List.append_assoc, List.drop_left' (List.length_map _)]
    exact cstring_append hread tail
  have hround : s.round = some { g with
      input := cells
      n := g.n + s.line.bytes.length
      len := g.len + (g.n + s.line.bytes.length)
      remain := g.remain - (g.n + s.line.bytes.length)
      stdin := s.line.rest
      eof := s.line.eof
      calls := g.calls ++ [⟨g.len, g.remain, g.size, g.stdin⟩] } := by
    rw [Reader.round, hg, Option.bind_some, hfgets, Option.bind_some]
    exact advance_eq hstring (hgn ▸ hn) (hgn ▸ hn') (show 0 ≤ g.len by omega) (show g.len ≤ 2048 by omega)
      (show 0 ≤ g.remain by omega) (show g.remain ≤ 2048 by omega) (by omega)
  refine ⟨_, hround, ⟨tail, hcells⟩, ?_, ?_, ?_, ?_, ?_, hnew, rfl, rfl, ?_⟩
  · show g.size = (cells.length : ℤ)
    rw [hcellslen, hright.size]
  · show g.n + _ = _
    rw [hgn]
  · show g.len + _ = _
    rw [hglen]
  · show g.len + _ + (g.remain - _) = g.size
    omega
  · show g.remain - _ = _
    rw [hremain]
  · show g.calls ++ [_] = _
    rw [hcalls, hglen, hremain, hnew, hstdin]

/-- When the end of the input is met the buffer holds all of it. -/
theorem Advanced.cstring_of_eof (h : s.Advanced y t) (he : t.eof = true) (hz : 0#8 ∉ y ++ s.stdin) :
    cstring t.input = some (y ++ s.stdin) := by
  obtain ⟨tail, hinput⟩ := h.input
  rw [h.eof] at he
  have hsplit : s.line.bytes ++ s.line.rest = s.stdin := Line.bytes_append_rest _ _
  rw [line, Line.rest_of_eof he, List.append_nil] at hsplit
  rw [hinput, line, hsplit]
  exact cstring_append hz tail

theorem right_start (x : List Byte) : (start x).Right [] where
  input := ⟨List.replicate 511 (some 0#8), rfl⟩
  size := by
    rw [start, List.length_replicate]
    rfl
  len := rfl
  sum := rfl

theorem line_start (x : List Byte) : (start x).line = readLine 511 x := rfl

/-- After the first round the variables place the end of the first line. -/
theorem Advanced.right_first (h : (start x).Advanced [] t) : t.Right (readLine 511 x).bytes where
  input := h.input
  size := h.size
  len := by
    rw [h.len, h.n]
    exact (zero_add _).trans (zero_add _)
  sum := h.sum

end Reader

open Reader

/-- **The first two rounds** read two lines, each to its place. -/
theorem two_rounds (hx : 0#8 ∉ x) :
    ∃ t u, (start x).round = some t ∧ (start x).Advanced [] t ∧ t.Right (readLine 511 x).bytes ∧
      t.line = readLine (secondRoom (readLine 511 x).bytes.length - 1) (readLine 511 x).rest ∧
      t.round = some u ∧ t.Advanced (readLine 511 x).bytes u := by
  have hfits : (512 : ℤ) ≤ 1024 := by decide
  have hzero : (0 : ℤ) ≤ 1024 := by decide
  obtain ⟨t, ht, hadv⟩ := (right_start x).round hx hfits le_rfl hzero
  have hright := hadv.right_first
  have hc := Line.length_bytes_le 511 x
  have hn : t.n = (readLine 511 x).bytes.length := by
    rw [hadv.n, line_start]
    exact zero_add _
  have hsize : t.size = 512 := hadv.newSize
  have hremain : t.remain = 512 - (readLine 511 x).bytes.length := by
    rw [hadv.remain, hn]
    rfl
  have hstdin : t.stdin = (readLine 511 x).rest := hadv.stdin
  have hz : 0#8 ∉ t.stdin := fun hmem => hx (Line.mem_of_mem_rest (hstdin ▸ hmem))
  obtain ⟨u, hu, hadv'⟩ := hright.round hz (by omega) (by omega) (by omega)
  refine ⟨t, u, ht, hadv, hright, ?_, hu, hadv'⟩
  have hroom : (t.room - 1).toNat = secondRoom (readLine 511 x).bytes.length - 1 := by
    rw [room, hremain, hsize, secondRoom, stdinBufmin]
    split_ifs <;> omega
  rw [Reader.line, hroom, hstdin]

theorem readStdinLoop_of_eof {fuel : ℕ} (h : s.eof = true) : readStdinLoop fuel s = some s := by
  cases fuel <;> rw [readStdinLoop, if_pos h]

/-- A run that ends makes another round where the end of the input is not met. -/
theorem exists_round_of_readStdinLoop {fuel : ℕ} (h : readStdinLoop fuel s = some t)
    (he : s.eof = false) :
    ∃ fuel' u, s.round = some u ∧ readStdinLoop fuel' u = some t := by
  have hne : ¬ s.eof = true := by simp [he]
  cases fuel with
  | zero =>
    rw [readStdinLoop, if_neg hne] at h
    cases h
  | succ fuel =>
    rw [readStdinLoop, if_neg hne] at h
    obtain ⟨u, hu, h⟩ := Option.bind_eq_some_iff.mp h
    exact ⟨fuel, u, hu, h⟩

theorem rest_eq_drop (m : ℕ) (x : List Byte) :
    (readLine m x).rest = x.drop (readLine m x).bytes.length := by
  nth_rewrite 3 [← Line.bytes_append_rest m x]
  rw [List.drop_left]

/-- The end of the input is met in the first round or in the second. -/
theorem endsInTwo_iff : EndsInTwo x ↔ (readLine 511 x).eof = true ∨
    (readLine (secondRoom (readLine 511 x).bytes.length - 1) (readLine 511 x).rest).eof = true := by
  rw [EndsInTwo, Line.eof_iff, Line.eof_iff, rest_eq_drop]

/-- A third call is made too far on, by the length of the first line. -/
theorem endsInTwo_of_readsAll (hx : 0#8 ∉ x) (h : ReadsAll x) : EndsInTwo x := by
  obtain ⟨fuel, s, hs, -, hcalls⟩ := h
  obtain ⟨t, u, ht, hadv, hright, hline, hu, hadv'⟩ := two_rounds hx
  rw [endsInTwo_iff]
  by_contra hmore
  rw [not_or] at hmore
  obtain ⟨hfirst, hsecond⟩ := hmore
  have hteof : t.eof = false := by
    rw [hadv.eof, line_start]
    exact Bool.eq_false_iff.mpr hfirst
  have hueof : u.eof = false := by
    rw [hadv'.eof, hline]
    exact Bool.eq_false_iff.mpr hsecond
  obtain ⟨fuel₁, t', ht', hs⟩ := exists_round_of_readStdinLoop hs rfl
  obtain rfl : t = t' := Option.some.inj (ht.symm.trans ht')
  obtain ⟨fuel₂, u', hu', hs⟩ := exists_round_of_readStdinLoop hs hteof
  obtain rfl : u = u' := Option.some.inj (hu.symm.trans hu')
  obtain ⟨fuel₃, v, hv, hs⟩ := exists_round_of_readStdinLoop hs hueof
  obtain ⟨c, hvcalls, hc, -⟩ := round_eq_some hv
  have hmem : c ∈ s.calls := by
    refine (readStdinLoop_calls hs).1.subset ?_
    rw [hvcalls]
    exact List.mem_append_right _ List.mem_cons_self
  have hlen := (hcalls c hmem).2
  rw [hc.len, hc.stdin, hadv'.len, hadv'.n, hadv'.stdin, hright.len, hadv.n, line_start, hline] at hlen
  have hne := Line.bytes_ne_nil (by decide) hfirst
  have hpos := List.length_pos_iff.mpr hne
  have hx1 := congrArg List.length (Line.bytes_append_rest 511 x)
  have hx2 := congrArg List.length (Line.bytes_append_rest
    (secondRoom (readLine 511 x).bytes.length - 1) (readLine 511 x).rest)
  rw [List.length_append] at hx1 hx2
  have hn : (start x).n = 0 := rfl
  omega

/-- Two calls, each at its place. -/
theorem readsAll_of_endsInTwo (hx : 0#8 ∉ x) (h : EndsInTwo x) : ReadsAll x := by
  obtain ⟨t, u, ht, hadv, hright, hline, hu, hadv'⟩ := two_rounds hx
  have hstart : ¬ (start x).eof = true := Bool.false_ne_true
  by_cases hfirst : t.eof = true
  · -- the end is met in the first round
    have hrun : readStdin 1 x = some t := by
      rw [readStdin, readStdinLoop, if_neg hstart, ht, Option.bind_some, readStdinLoop_of_eof hfirst]
    refine ⟨1, t, hrun, hadv.cstring_of_eof hfirst hx, fun c hc => ⟨readStdin_sum hrun c hc, ?_⟩⟩
    rw [hadv.calls] at hc
    rw [List.mem_singleton.mp hc]
    exact (sub_self _).symm
  · -- and else in the second
    have hsecond : u.eof = true := by
      rw [hadv'.eof, hline]
      rw [hadv.eof, line_start] at hfirst
      exact (endsInTwo_iff.mp h).resolve_left hfirst
    have hrun : readStdin 2 x = some u := by
      rw [readStdin, readStdinLoop, if_neg hstart, ht, Option.bind_some, readStdinLoop, if_neg hfirst, hu,
        Option.bind_some, readStdinLoop_of_eof hsecond]
    have hsplit : (readLine 511 x).bytes ++ t.stdin = x := by
      rw [hadv.stdin]
      exact Line.bytes_append_rest 511 x
    refine ⟨2, u, hrun, ?_, fun c hc => ⟨readStdin_sum hrun c hc, ?_⟩⟩
    · have hstring := hadv'.cstring_of_eof hsecond (hsplit.symm ▸ hx)
      rwa [hsplit] at hstring
    · rw [hadv'.calls, hadv.calls] at hc
      rcases List.mem_append.mp hc with hc | hc
      · rw [List.mem_singleton.mp hc]
        exact (sub_self _).symm
      · rw [List.mem_singleton.mp hc]
        show t.len = (x.length : ℤ) - t.stdin.length
        have hlen := congrArg List.length hsplit
        rw [List.length_append] at hlen
        rw [hright.len]
        omega

/-- **The whole input is returned**, each line read to its place, if and only if its end
is met in the first two calls. -/
theorem readsAll_iff (hx : 0#8 ∉ x) : ReadsAll x ↔ EndsInTwo x :=
  ⟨endsInTwo_of_readsAll hx, readsAll_of_endsInTwo hx⟩

/-- Two lines, the second without its end. -/
theorem readsAll_iff_two : ReadsAll [97#8, 10#8, 98#8] ↔ EndsInTwo [97#8, 10#8, 98#8] :=
  readsAll_iff (by decide)

/-- Of three lines the third is read one place too far. -/
theorem not_readsAll_three : ¬ ∀ x : List Byte, 0#8 ∉ x → ReadsAll x := by
  intro h
  have hends := endsInTwo_of_readsAll (by decide) (h [97#8, 10#8, 98#8, 10#8, 99#8] (by decide))
  rw [endsInTwo_iff] at hends
  revert hends
  decide

end Shuffle3.V1
