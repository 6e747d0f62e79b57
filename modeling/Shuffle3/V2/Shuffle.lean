import Shuffle3.Foundations.Swaps
import Shuffle3.Foundations.Stacks
import Shuffle3.V2.Rng

/-!
# Shuffling and unshuffling a span

`rng::shuffle` walks a span from its last element down to the second and
exchanges each with one that it draws at or before it. `rng::unshuffle` makes the
same draws first, puts them in a container, and takes them out again last draw
first while it walks the span the other way.

## What is proved

* `shuffle_eq` — shuffling is drawing, and then a run of exchanges.
* `unshuffle_eq` — unshuffling is drawing, and then that run in reverse, with
  every container that stands for a stack as it is used here.
* `unshuffle_iff_shuffle` — from one state of the generator each undoes the other,
  and both leave the generator in one state.
* `InRange.exists` — draws that stay in range reach the end.
-/

namespace Shuffle3.V2

open Foundations

variable {α μ β δ σ : Type} [Indexed μ α] [Index δ]

/-! ### The loops -/

/-- The loop of `shuffle`, from index `i` down to 1. -/
def shuffleLoop (next : NextLong δ σ) : ℕ → μ → σ → Option (μ × σ)
  | 0, span, s => some (span, s)
  | i + 1, span, s => do
    let (j, s) ← next (i + 1) s
    let span ← exchange span (i + 1) (Index.toNat j)
    shuffleLoop next i span s

/-- `rng::shuffle`. -/
def shuffle (next : NextLong δ σ) (span : μ) (s : σ) : Option (μ × σ) :=
  if Indexed.size span = 0 then some (span, s) else shuffleLoop next (Indexed.size span - 1) span s

section Unshuffle

variable [StackOps β δ]

/-- The first loop of `unshuffle`, from index `i` down to 1: it draws and keeps the draws. -/
def pushLoop (next : NextLong δ σ) : ℕ → β → σ → Option (β × σ)
  | 0, rngValues, s => some (rngValues, s)
  | i + 1, rngValues, s => do
    let (j, s) ← next (i + 1) s
    let rngValues ← StackOps.pushBack rngValues j
    pushLoop next i rngValues s

/-- The second loop of `unshuffle`, `k` rounds from index `i` up. -/
def popLoop : ℕ → ℕ → μ → β → Option (μ × β)
  | 0, _, span, rngValues => some (span, rngValues)
  | k + 1, i, span, rngValues => do
    let (j, rngValues) ← StackOps.back rngValues
    let span ← exchange span i (Index.toNat j)
    let rngValues ← StackOps.popBack rngValues
    popLoop k (i + 1) span rngValues

/-- `rng::unshuffle`, where `rngValues n` constructs the container for a span of `n` elements. -/
def unshuffle (next : NextLong δ σ) (rngValues : ℕ → Option β) (span : μ) (s : σ) :
    Option (μ × σ) :=
  if Indexed.size span = 0 then some (span, s)
  else do
    let values ← rngValues (Indexed.size span)
    let (values, s) ← pushLoop next (Indexed.size span - 1) values s
    let (span, _) ← popLoop (Indexed.size span - 1) 1 span values
    pure (span, s)

end Unshuffle

/-- The container of the build without a spill buffer, a `std::vector`. -/
def plainVector (δ : Type) (_ : ℕ) : Option (List δ) := some []

/-! ### Draws and exchanges -/

/-- The draws for the bounds `i`, …, 1. -/
def draws (next : NextLong δ σ) : ℕ → σ → Option (List δ × σ)
  | 0, s => some ([], s)
  | i + 1, s => do
    let (j, s) ← next (i + 1) s
    let (js, s) ← draws next i s
    pure (j :: js, s)

/-- The exchanges that these draws ask for. -/
def steps : List δ → List (ℕ × ℕ)
  | [] => []
  | j :: js => (js.length + 1, Index.toNat j) :: steps js

/-- The exchanges in the order in which shuffling makes them, or unshuffling. -/
def order (un : Bool) (js : List δ) : List (ℕ × ℕ) :=
  if un then (steps js).reverse else steps js

/-- All the draws, and then the exchanges they ask for. -/
def drawAndExchange (next : NextLong δ σ) (un : Bool) (span : μ) (s : σ) : Option (μ × σ) :=
  (draws next (Indexed.size span - 1) s).bind fun p =>
    (exchanges (order un p.1) span).map fun span => (span, p.2)

/-- The exchanges that these values ask for from index `i` up. -/
def upSteps : ℕ → List δ → List (ℕ × ℕ)
  | _, [] => []
  | i, j :: js => (i, Index.toNat j) :: upSteps (i + 1) js

theorem upSteps_append (i : ℕ) (js ks : List δ) :
    upSteps i (js ++ ks) = upSteps i js ++ upSteps (i + js.length) ks := by
  induction js generalizing i with
  | nil => rfl
  | cons j js ih =>
    simp only [List.cons_append, upSteps, ih, List.length_cons]
    rw [Nat.add_right_comm, Nat.add_assoc]

/-- Taking the draws out last first asks for the exchanges in reverse. -/
theorem steps_reverse (js : List δ) : (steps js).reverse = upSteps 1 js.reverse := by
  induction js with
  | nil => rfl
  | cons j js ih =>
    rw [steps, List.reverse_cons, ih, List.reverse_cons, upSteps_append, List.length_reverse, Nat.add_comm 1]
    rfl

omit [Index δ] in
theorem length_draws {next : NextLong δ σ} {i : ℕ} :
    ∀ {s s' : σ} {js : List δ}, draws next i s = some (js, s') → js.length = i := by
  induction i with
  | zero => intro s s' js h; cases h; rfl
  | succ i ih =>
    intro s s' js h
    obtain ⟨⟨j, s₁⟩, -, h⟩ := Option.bind_eq_some_iff.mp h
    obtain ⟨⟨ks, s₂⟩, hd, h⟩ := Option.bind_eq_some_iff.mp h
    cases h
    rw [List.length_cons, ih hd]

theorem shuffleLoop_eq (next : NextLong δ σ) (i : ℕ) (span : μ) (s : σ) :
    shuffleLoop next i span s =
      (draws next i s).bind fun p => (exchanges (steps p.1) span).map fun span => (span, p.2) := by
  induction i generalizing span s with
  | zero => rfl
  | succ i ih =>
    simp only [shuffleLoop, draws, Option.bind_eq_bind, Option.bind_assoc, Option.pure_def, Option.bind_some]
    refine congrArg _ (funext fun ⟨j, s₁⟩ => ?_)
    -- the exchange and the later draws do not depend on each other
    cases hd : draws next i s₁ with
    | none =>
      cases exchange span (i + 1) (Index.toNat j) with
      | none => rfl
      | some span => simp [ih, hd]
    | some p =>
      obtain ⟨js, s₂⟩ := p
      simp only [Option.bind_some, steps, exchanges, length_draws hd]
      cases exchange span (i + 1) (Index.toNat j) with
      | none => rfl
      | some span => simp [ih, hd]

/-- **Shuffling is drawing, and then a run of exchanges.** -/
theorem shuffle_eq (next : NextLong δ σ) (span : μ) (s : σ) :
    shuffle next span s = drawAndExchange next false span s := by
  unfold shuffle drawAndExchange
  split_ifs with h
  · rw [h]; rfl
  · exact shuffleLoop_eq next _ span s

section Unshuffle

variable [StackOps β δ] {cap : ℕ∞} {F D B : β → List δ → Prop}

omit [Index δ] in
theorem pushLoop_rel (hS : StackLike cap F D B) (next : NextLong δ σ) {i : ℕ} :
    ∀ {v : β} {xs : List δ} (s : σ), F v xs → ((xs.length + i : ℕ) : ℕ∞) ≤ cap →
      Option.Rel (fun p q => F p.1 (q.1.reverse ++ xs) ∧ p.2 = q.2) (pushLoop next i v s) (draws next i s) := by
  induction i with
  | zero => intro v xs s h _; exact .some ⟨h, rfl⟩
  | succ i ih =>
    intro v xs s h hcap
    simp only [pushLoop, draws, Option.bind_eq_bind]
    cases next (i + 1) s with
    | none => exact .none
    | some p =>
      obtain ⟨j, s₁⟩ := p
      have hroom : (xs.length : ℕ∞) < cap :=
        lt_of_lt_of_le (by exact_mod_cast (by omega : xs.length < xs.length + (i + 1))) hcap
      obtain ⟨v', hv, hF⟩ := hS.push h hroom j
      have hcap' : (((j :: xs).length + i : ℕ) : ℕ∞) ≤ cap := by
        rw [List.length_cons, Nat.add_assoc, Nat.add_comm 1]
        exact hcap
      simp only [Option.bind_some, hv]
      have hrel := ih s₁ hF hcap'
      generalize pushLoop next i v' s₁ = o, draws next i s₁ = q at hrel
      cases hrel with
      | none => exact .none
      | some hF' => exact .some ⟨by simpa using hF'.1, hF'.2⟩

theorem popLoop_eq (hS : StackLike cap F D B) {xs : List δ} :
    ∀ {v : β} (i : ℕ) (span : μ), D v xs →
      (popLoop xs.length i span v).map Prod.fst = exchanges (upSteps i xs) span := by
  induction xs with
  | nil => intro v i span _; rfl
  | cons j xs ih =>
    intro v i span h
    obtain ⟨v', hback, hB⟩ := hS.back h
    obtain ⟨v'', hpop, hD⟩ := hS.pop hB
    simp only [List.length_cons, popLoop, hback, upSteps, exchanges, Option.bind_eq_bind, Option.bind_some]
    cases exchange span i (Index.toNat j) with
    | none => rfl
    | some span => simpa [hpop] using ih (i + 1) span hD

/-- **Unshuffling is drawing, and then the run of exchanges in reverse**, with a
container that stands for a stack and has room for the draws. -/
theorem unshuffle_eq (hS : StackLike cap F D B) (next : NextLong δ σ) {rngValues : ℕ → Option β}
    {v : β} (span : μ) (s : σ) (hv : rngValues (Indexed.size span) = some v) (hF : F v [])
    (hcap : ((Indexed.size span - 1 : ℕ) : ℕ∞) ≤ cap) :
    unshuffle next rngValues span s = drawAndExchange next true span s := by
  unfold unshuffle drawAndExchange
  split_ifs with h
  · rw [h]; rfl
  have hrel := pushLoop_rel hS next s hF (i := Indexed.size span - 1) (by simpa using hcap)
  simp only [hv, Option.bind_eq_bind, Option.bind_some]
  cases hd : draws next (Indexed.size span - 1) s with
  | none =>
    rw [hd] at hrel
    cases hp : pushLoop next (Indexed.size span - 1) v s with
    | none => rfl
    | some p => rw [hp] at hrel; cases hrel
  | some q =>
    obtain ⟨js, s'⟩ := q
    rw [hd] at hrel
    obtain ⟨⟨v', s₁⟩, hp, hF', hs⟩ := rel_of_some hrel
    subst hs
    have hpop := popLoop_eq hS 1 span (hS.drain hF')
    rw [List.append_nil, List.length_reverse, length_draws hd, ← steps_reverse] at hpop
    have horder : order true js = (steps js).reverse := rfl
    simp only [hp, Option.bind_some, horder, ← hpop]
    cases popLoop (Indexed.size span - 1) 1 span v' <;> rfl

end Unshuffle

theorem unshuffle_plain_eq (next : NextLong δ σ) (span : μ) (s : σ) :
    unshuffle next (plainVector δ) span s = drawAndExchange next true span s :=
  unshuffle_eq isStack_list next span s rfl rfl le_top

/-! ### Each undoes the other -/

theorem drawAndExchange_eq_some_iff {next : NextLong δ σ} {un : Bool} {m m' : μ} {s s' : σ} :
    drawAndExchange next un m s = some (m', s') ↔
      ∃ js, draws next (Indexed.size m - 1) s = some (js, s') ∧ exchanges (order un js) m = some m' := by
  rw [drawAndExchange, Option.bind_eq_some_iff]
  constructor
  · rintro ⟨⟨js, t⟩, hd, h⟩
    obtain ⟨m₁, hm, h⟩ := Option.map_eq_some_iff.mp h
    cases h
    exact ⟨js, hd, hm⟩
  · rintro ⟨js, hd, h⟩
    exact ⟨(js, s'), hd, Option.map_eq_some_iff.mpr ⟨m', h, rfl⟩⟩

theorem order_not (un : Bool) (js : List δ) : order (!un) js = (order un js).reverse := by
  cases un <;> simp [order]

/-- The same draws with the exchanges in the other order lead back. -/
theorem drawAndExchange_not {next : NextLong δ σ} {un : Bool} {xs ys : List α} {s s' : σ}
    (h : drawAndExchange next un xs s = some (ys, s')) :
    drawAndExchange next (!un) ys s = some (xs, s') := by
  obtain ⟨js, hd, he⟩ := drawAndExchange_eq_some_iff.mp h
  have hlen : Indexed.size ys = Indexed.size xs := (exchanges_perm he).length_eq
  refine drawAndExchange_eq_some_iff.mpr ⟨js, hlen ▸ hd, ?_⟩
  rw [order_not]
  exact exchanges_reverse he

/-- **Each undoes the other**, from one state of the generator to one state. -/
theorem unshuffle_iff_shuffle {next : NextLong δ σ} {xs ys : List α} {s s' : σ} :
    unshuffle next (plainVector δ) ys s = some (xs, s') ↔ shuffle next xs s = some (ys, s') := by
  rw [unshuffle_plain_eq, shuffle_eq]
  exact ⟨drawAndExchange_not, drawAndExchange_not⟩

/-- A memory goes through the draws and the exchanges as the list it holds does. -/
theorem drawAndExchange_rel {R : μ → List α → Prop} (hR : Holds R) {m : μ} {xs : List α}
    (h : R m xs) (next : NextLong δ σ) (un : Bool) (s : σ) :
    Option.Rel (fun p q => R p.1 q.1 ∧ p.2 = q.2) (drawAndExchange next un m s)
      (drawAndExchange next un xs s) := by
  unfold drawAndExchange
  rw [hR.size h, size_list]
  cases draws next (xs.length - 1) s with
  | none => exact .none
  | some p =>
    simp only [Option.bind_some, Option.map_eq_bind]
    exact rel_bind (hR.exchanges (order un p.1) h) fun m' ys h' => .some ⟨h', rfl⟩

/-! ### Draws in range -/

/-- From this state the draws for the bounds `i`, …, 1 succeed, each at most its bound. -/
def InRange (next : NextLong δ σ) : ℕ → σ → Prop
  | 0, _ => True
  | i + 1, s => ∃ j s', next (i + 1) s = some (j, s') ∧ Index.toNat j ≤ i + 1 ∧ InRange next i s'

/-- A generator that stays in range at every state does so along every sequence of draws. -/
theorem inRange_of_forall {next : NextLong δ σ}
    (h : ∀ i s, 0 < i → ∃ j s', next i s = some (j, s') ∧ Index.toNat j ≤ i) (i : ℕ) (s : σ) :
    InRange next i s := by
  induction i generalizing s with
  | zero => trivial
  | succ i ih =>
    obtain ⟨j, s', hn, hj⟩ := h (i + 1) s i.succ_pos
    exact ⟨j, s', hn, hj, ih s'⟩

theorem InRange.draws {next : NextLong δ σ} {i : ℕ} :
    ∀ {s : σ}, InRange next i s →
      ∃ js s', draws next i s = some (js, s') ∧ ∀ p ∈ steps js, p.1 ≤ i ∧ p.2 ≤ i := by
  induction i with
  | zero => intro s _; exact ⟨[], s, rfl, by simp [steps]⟩
  | succ i ih =>
    rintro s ⟨j, s₁, hn, hj, hr⟩
    obtain ⟨js, s', hd, hle⟩ := ih hr
    refine ⟨j :: js, s', by simp [V2.draws, hn, hd], fun p hp => ?_⟩
    rw [steps, List.mem_cons] at hp
    rcases hp with rfl | hp
    · exact ⟨by simp [length_draws hd], hj⟩
    · have := hle p hp
      omega

/-- **Draws in range reach the end.** -/
theorem InRange.exists {next : NextLong δ σ} {xs : List α} {s : σ}
    (h : InRange next (xs.length - 1) s) (un : Bool) :
    ∃ ys s', drawAndExchange next un xs s = some (ys, s') := by
  obtain ⟨js, s', hd, hle⟩ := h.draws
  have hlen := length_draws hd
  have hin : ∀ p ∈ order un js, p.1 < xs.length ∧ p.2 < xs.length := by
    intro p hp
    have hp' : p ∈ steps js := by
      cases un with
      | false => exact hp
      | true => exact List.mem_reverse.mp hp
    have := hle p hp'
    -- a step means a draw, so there are two items or more
    have hpos : 0 < js.length := by
      cases js with
      | nil => cases hp'
      | cons j js => exact Nat.succ_pos _
    omega
  obtain ⟨ys, hy⟩ := exists_exchanges hin
  exact ⟨ys, s', drawAndExchange_eq_some_iff.mpr ⟨js, hd, hy⟩⟩

end Shuffle3.V2
