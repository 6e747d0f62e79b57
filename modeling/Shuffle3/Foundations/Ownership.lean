import Mathlib.Data.List.Nodup
import Mathlib.Data.List.Range
import Mathlib.Logic.Function.Basic

/-!
# Objects that own resources

Programs that construct objects, construct objects out of others, and destroy them.
A constructor may open a resource; a constructor that takes from another object
leaves that object in some state, in which its destructor runs too. A destructor
closes what its object owns, or dereferences a null pointer.

The owner of a resource is the object that was constructed last out of the one that
opened it: it is followed apart from the objects, which keep it as they do.

## What is proved

* `Owned.step`, `Owned.run` — where every object that is taken from recognises that
  it is empty, every live object holds what it owns.
* `released_iff` — a run that destroys every object closes every resource once, by
  its last owner, exactly when every object that is taken from does.
-/

namespace Shuffle3.Foundations.Ownership

universe u v w

/-- What objects of some classes do with the resources they own. -/
structure Classes (ω : Type u) (κ : Type v) (τ : Type w) where
  /-- Whether a constructor opens a resource. -/
  opens : κ → Bool
  /-- What a constructor makes, of the resource if it opens one. -/
  construct : κ → ℕ → ω
  /-- A constructor that takes from an object: the new object, and what it leaves of the other. -/
  take : τ → ω → Option (ω × ω)
  /-- An object opens a resource, if it can. -/
  acquire : ω → ℕ → Option ω
  /-- The destructor: what it closes, or nothing when it dereferences a null pointer. -/
  destroy : ω → Option (List ℕ)

variable {ω : Type u} {κ : Type v} {τ : Type w}

/-- A step of a program. Objects go by the order in which they are constructed. -/
inductive Action (κ : Type v) (τ : Type w) where
  /-- Construct an object. -/
  | construct (k : κ)
  /-- Construct an object out of object `x`. -/
  | take (m : τ) (x : ℕ)
  /-- Object `x` opens a resource. -/
  | acquire (x : ℕ)
  /-- Destroy object `x`. -/
  | destroy (x : ℕ)
  deriving DecidableEq

/-- The state of a program. -/
structure State (ω : Type u) where
  /-- The objects, without those that are destroyed. -/
  objects : List (Option ω)
  /-- How many resources have been opened. -/
  opened : ℕ
  /-- Which object owns a resource. -/
  owner : ℕ → ℕ
  /-- What has been closed, and which object closed it. -/
  closed : List (ℕ × ℕ)
  /-- The objects whose destructors dereferenced a null pointer. -/
  derefs : List ℕ

/-- The start of a program. -/
def start : State ω := ⟨[], 0, fun _ => 0, [], []⟩

/-- Everything that object `x` owns goes to object `y`. -/
def give (x y : ℕ) (owner : ℕ → ℕ) (r : ℕ) : ℕ := if owner r = x then y else owner r

variable (P : Classes ω κ τ)

/-- One step, on a live object where it is on one. -/
def step (s : State ω) : Action κ τ → Option (State ω)
  | .construct k =>
    if P.opens k then
      some { s with
        objects := s.objects ++ [some (P.construct k s.opened)]
        opened := s.opened + 1
        owner := Function.update s.owner s.opened s.objects.length }
    else some { s with objects := s.objects ++ [some (P.construct k s.opened)] }
  | .take m x => do
    let o ← (s.objects[x]?).join
    let (new, left) ← P.take m o
    pure { s with
      objects := (s.objects.set x (some left)) ++ [some new]
      owner := give x s.objects.length s.owner }
  | .acquire x => do
    let o ← (s.objects[x]?).join
    let o' ← P.acquire o s.opened
    pure { s with
      objects := s.objects.set x (some o')
      opened := s.opened + 1
      owner := Function.update s.owner s.opened x }
  | .destroy x => do
    let o ← (s.objects[x]?).join
    match P.destroy o with
    | some rs => pure { s with
        objects := s.objects.set x none
        closed := s.closed ++ rs.map fun r => (x, r) }
    | none => pure { s with
        objects := s.objects.set x none
        derefs := s.derefs ++ [x] }

/-- A sequence of steps. -/
def run : State ω → List (Action κ τ) → Option (State ω)
  | s, [] => some s
  | s, a :: as => (step P s a).bind fun s => run s as

/-- Every object has been destroyed. -/
def State.Complete (s : State ω) : Prop := ∀ o ∈ s.objects, o = none

instance (s : State ω) : Decidable s.Complete :=
  inferInstanceAs (Decidable (∀ o ∈ s.objects, o = none))

/-- No destructor dereferenced a null pointer, and every resource has been closed
once, by its owner. -/
def State.Released (s : State ω) : Prop :=
  s.derefs = [] ∧ s.closed.Perm ((List.range s.opened).map fun r => (s.owner r, r))

/-! ### Laws of classes -/

variable {P}

/-- The object is live. -/
def State.Live (s : State ω) (x : ℕ) (o : ω) : Prop := s.objects[x]? = some (some o)

/-- Objects keep what they own, in transfers that are `Clean`. -/
structure Keeps (P : Classes ω κ τ) (Clean : τ → ω → Prop) : Prop where
  construct : ∀ k r, P.destroy (P.construct k r) = some (if P.opens k then [r] else [])
  /-- The new object has all, and what is left of the other closes nothing. -/
  take : ∀ {m o new left rs}, Clean m o → P.take m o = some (new, left) → P.destroy o = some rs →
    P.destroy new = some rs ∧ P.destroy left = some []
  acquire : ∀ {o o' r rs}, P.acquire o r = some o' → P.destroy o = some rs → P.destroy o' = some (rs ++ [r])

/-- Objects taken from in other transfers do not recognise that they are empty, and never will. -/
structure Spoils (P : Classes ω κ τ) (Clean : τ → ω → Prop) : Prop where
  take : ∀ {m o new left}, ¬ Clean m o → P.take m o = some (new, left) → P.destroy left = none
  take_spoiled : ∀ {m o new left}, P.take m o = some (new, left) → P.destroy o = none →
    P.destroy new = none ∨ P.destroy left = none
  acquire : ∀ {o o' r}, P.acquire o r = some o' → P.destroy o = none → P.destroy o' = none

/-- Every transfer of the sequence is clean. -/
def TakesClean (P : Classes ω κ τ) (Clean : τ → ω → Prop) : State ω → List (Action κ τ) → Prop
  | _, [] => True
  | s, a :: as =>
    (∀ m x o, a = .take m x → s.Live x o → Clean m o) ∧ ∀ s', step P s a = some s' → TakesClean P Clean s' as

/-! ### What a step does -/

theorem join_getElem?_eq_some {xs : List (Option ω)} {x : ℕ} {o : ω} :
    (xs[x]?).join = some o ↔ xs[x]? = some (some o) := by
  cases xs[x]? with
  | none => simp
  | some p => simp

theorem step_take {s s' : State ω} {m : τ} {x : ℕ} (h : step P s (.take m x) = some s') :
    ∃ o new left, s.Live x o ∧ P.take m o = some (new, left) ∧ s' = { s with
      objects := (s.objects.set x (some left)) ++ [some new]
      owner := give x s.objects.length s.owner } := by
  obtain ⟨o, ho, h⟩ := Option.bind_eq_some_iff.mp h
  obtain ⟨⟨new, left⟩, ht, h⟩ := Option.bind_eq_some_iff.mp h
  exact ⟨o, new, left, join_getElem?_eq_some.mp ho, ht, (Option.some.inj h).symm⟩

theorem step_acquire {s s' : State ω} {x : ℕ} (h : step P s (.acquire x) = some s') :
    ∃ o o', s.Live x o ∧ P.acquire o s.opened = some o' ∧ s' = { s with
      objects := s.objects.set x (some o')
      opened := s.opened + 1
      owner := Function.update s.owner s.opened x } := by
  obtain ⟨o, ho, h⟩ := Option.bind_eq_some_iff.mp h
  obtain ⟨o', ha, h⟩ := Option.bind_eq_some_iff.mp h
  exact ⟨o, o', join_getElem?_eq_some.mp ho, ha, (Option.some.inj h).symm⟩

theorem step_destroy {s s' : State ω} {x : ℕ} (h : step P s (.destroy x) = some s') :
    ∃ o, s.Live x o ∧
      ((∃ rs, P.destroy o = some rs ∧ s' = { s with
        objects := s.objects.set x none
        closed := s.closed ++ rs.map fun r => (x, r) }) ∨
      (P.destroy o = none ∧ s' = { s with
        objects := s.objects.set x none
        derefs := s.derefs ++ [x] })) := by
  obtain ⟨o, ho, h⟩ := Option.bind_eq_some_iff.mp h
  refine ⟨o, join_getElem?_eq_some.mp ho, ?_⟩
  cases hd : P.destroy o with
  | none =>
    rw [hd] at h
    exact .inr ⟨rfl, (Option.some.inj h).symm⟩
  | some rs =>
    rw [hd] at h
    exact .inl ⟨rs, rfl, (Option.some.inj h).symm⟩

/-! ### The invariant -/

/-- Every live object holds what it owns, and what a destroyed one owned is closed. -/
structure Owned (P : Classes ω κ τ) (s : State ω) : Prop where
  derefs : s.derefs = []
  live : ∀ {x o}, s.Live x o → ∃ rs, P.destroy o = some rs ∧ rs.Nodup ∧ ∀ r, r ∈ rs ↔ r < s.opened ∧ s.owner r = x
  owner_lt : ∀ r < s.opened, s.owner r < s.objects.length
  nodup : s.closed.Nodup
  closed : ∀ {x r}, (x, r) ∈ s.closed ↔ r < s.opened ∧ s.owner r = x ∧ s.objects[x]? = some none

theorem Owned.start : Owned P (start : State ω) where
  derefs := rfl
  live h := by cases h
  owner_lt r hr := absurd hr (Nat.not_lt_zero r)
  nodup := List.nodup_nil
  closed := ⟨fun h => (List.not_mem_nil h).elim, fun h => absurd h.1 (Nat.not_lt_zero _)⟩

theorem getElem?_concat {α : Type u} (xs : List α) (a : α) (x : ℕ) :
    (xs ++ [a])[x]? = if x = xs.length then some a else xs[x]? := by
  split_ifs with h
  · rw [h, List.getElem?_concat_length]
  · rcases Nat.lt_or_gt_of_ne h with hlt | hgt
    · exact List.getElem?_append_left hlt
    · rw [List.getElem?_eq_none (by simp; omega), List.getElem?_eq_none (by omega)]

theorem State.Live.lt {s : State ω} {x : ℕ} {o : ω} (h : s.Live x o) : x < s.objects.length :=
  (List.getElem?_eq_some_iff.mp h).1

variable {Clean : τ → ω → Prop} {s s' : State ω}

/-- A new object owns what its constructor opens. -/
theorem Owned.construct (hP : Keeps P Clean) (h : Owned P s) {k : κ}
    (hs : step P s (.construct k) = some s') :
    Owned P s' := by
  have hlt := h.owner_lt
  have hnew := hP.construct k s.opened
  have hnone : s.objects[s.objects.length]? = none := List.getElem?_eq_none le_rfl
  rw [step] at hs
  split_ifs at hs with hopen
  · rw [if_pos hopen] at hnew
    cases hs
    have howner : ∀ r < s.opened, Function.update s.owner s.opened s.objects.length r = s.owner r :=
      fun r hr =>
      Function.update_of_ne hr.ne _ _
    have hlast : Function.update s.owner s.opened s.objects.length s.opened = s.objects.length :=
      Function.update_self _ _ _
    constructor
    · exact h.derefs
    · intro x o hx
      rw [State.Live, getElem?_concat] at hx
      split_ifs at hx with hlen
      · cases hx
        refine ⟨_, hnew, List.nodup_singleton _, fun r => ?_⟩
        grind
      · obtain ⟨rs, hd, hn, hr⟩ := h.live hx
        refine ⟨rs, hd, hn, fun r => ?_⟩
        rw [hr]
        grind
    · intro r hr
      simp only [List.length_append, List.length_singleton]
      grind
    · exact h.nodup
    · intro x r
      rw [h.closed, getElem?_concat]
      grind
  · rw [if_neg hopen] at hnew
    cases hs
    constructor
    · exact h.derefs
    · intro x o hx
      rw [State.Live, getElem?_concat] at hx
      split_ifs at hx with hlen
      · cases hx
        refine ⟨[], hnew, List.nodup_nil, fun r => ?_⟩
        grind
      · exact h.live hx
    · intro r hr
      simp only [List.length_append, List.length_singleton]
      grind
    · exact h.nodup
    · intro x r
      rw [h.closed, getElem?_concat]
      grind

/-- The new object owns what the other did. -/
theorem Owned.take (hP : Keeps P Clean) (h : Owned P s) {m : τ} {x : ℕ}
    (hs : step P s (.take m x) = some s') (hclean : ∀ o, s.Live x o → Clean m o) : Owned P s' := by
  obtain ⟨o, new, left, ho, ht, rfl⟩ := step_take hs
  obtain ⟨rs, hd, hnodup, hrs⟩ := h.live ho
  obtain ⟨hnew, hleft⟩ := hP.take (hclean o ho) ht hd
  have hlt := h.owner_lt
  have hx := ho.lt
  have hnone : s.objects[s.objects.length]? = none := List.getElem?_eq_none le_rfl
  constructor
  · exact h.derefs
  · intro y p hy
    rw [State.Live, getElem?_concat, List.length_set] at hy
    split_ifs at hy with hlen
    · cases hy
      refine ⟨rs, hnew, hnodup, fun r => ?_⟩
      rw [hrs]
      grind [give]
    · rw [List.getElem?_set] at hy
      split_ifs at hy with hxy
      · cases hy
        refine ⟨[], hleft, List.nodup_nil, fun r => ?_⟩
        grind [give]
      · obtain ⟨qs, hq, hqn, hqr⟩ := h.live hy
        refine ⟨qs, hq, hqn, fun r => ?_⟩
        rw [hqr]
        grind [give]
  · intro r hr
    simp only [List.length_append, List.length_set, List.length_singleton]
    grind [give]
  · exact h.nodup
  · intro y r
    rw [h.closed, getElem?_concat, List.length_set, List.getElem?_set]
    rw [State.Live] at ho
    grind [give]

theorem Owned.acquire (hP : Keeps P Clean) (h : Owned P s) {x : ℕ}
    (hs : step P s (.acquire x) = some s') :
    Owned P s' := by
  obtain ⟨o, o', ho, ha, rfl⟩ := step_acquire hs
  obtain ⟨rs, hd, hnodup, hrs⟩ := h.live ho
  have hnew := hP.acquire ha hd
  have hlt := h.owner_lt
  have hx := ho.lt
  constructor
  · exact h.derefs
  · intro y p hy
    rw [State.Live, List.getElem?_set] at hy
    split_ifs at hy with hxy
    · cases hy
      refine ⟨_, hnew, ?_, fun r => ?_⟩
      · have hfresh : s.opened ∉ rs := fun hmem => absurd ((hrs _).mp hmem).1 (lt_irrefl _)
        exact List.nodup_append.mpr ⟨hnodup, List.nodup_singleton _, by grind⟩
      · rw [List.mem_append, hrs]
        grind
    · obtain ⟨qs, hq, hqn, hqr⟩ := h.live hy
      refine ⟨qs, hq, hqn, fun r => ?_⟩
      rw [hqr]
      grind
  · intro r hr
    simp only [List.length_set]
    grind
  · exact h.nodup
  · intro y r
    rw [h.closed, List.getElem?_set]
    rw [State.Live] at ho
    grind

/-- The destructor closes what its object owns, and nothing of that was closed before. -/
theorem Owned.destroy (h : Owned P s) {x : ℕ} (hs : step P s (.destroy x) = some s') :
    Owned P s' := by
  obtain ⟨o, ho, ⟨rs, hd, rfl⟩ | ⟨hd, rfl⟩⟩ := step_destroy hs
  · obtain ⟨rs', hd', hnodup, hrs⟩ := h.live ho
    cases hd.symm.trans hd'
    have hx := ho.lt
    have hlive : s.objects[x]? = some (some o) := ho
    constructor
    · exact h.derefs
    · intro y p hy
      rw [State.Live, List.getElem?_set] at hy
      split_ifs at hy with hxy
      · cases hy
      · exact h.live hy
    · intro r hr
      simp only [List.length_set]
      exact h.owner_lt r hr
    · refine List.nodup_append.mpr ⟨h.nodup, hnodup.map fun a b hab => (Prod.mk.inj hab).2, ?_⟩
      rintro ⟨y, r⟩ hclosed _ hnew rfl
      obtain ⟨-, -, hdead⟩ := h.closed.mp hclosed
      simp only [List.mem_map] at hnew
      grind
    · intro y r
      simp only [List.mem_append, List.mem_map]
      rw [h.closed, List.getElem?_set]
      grind
  · obtain ⟨rs, hd', -⟩ := h.live ho
    cases hd.symm.trans hd'

/-- **A step keeps the invariant.** -/
theorem Owned.step (hP : Keeps P Clean) (h : Owned P s) {a : Action κ τ} (hs : step P s a = some s')
    (hclean : ∀ m x o, a = .take m x → s.Live x o → Clean m o) : Owned P s' := by
  cases a with
  | construct k => exact h.construct hP hs
  | take m x => exact h.take hP hs fun o => hclean m x o rfl
  | acquire x => exact h.acquire hP hs
  | destroy x => exact h.destroy hs

/-- **A run keeps the invariant.** -/
theorem Owned.run (hP : Keeps P Clean) {as : List (Action κ τ)} :
    ∀ {s : State ω}, Owned P s → TakesClean P Clean s as → run P s as = some s' → Owned P s' := by
  induction as with
  | nil => intro s h _ hrun; cases hrun; exact h
  | cons a as ih =>
    intro s h hclean hrun
    obtain ⟨t, ht, hrun⟩ := Option.bind_eq_some_iff.mp hrun
    exact ih (h.step hP ht hclean.1) (hclean.2 t ht) hrun

/-- When no object is left everything is closed. -/
theorem Owned.released (h : Owned P s) (hs : s.Complete) : s.Released := by
  refine ⟨h.derefs, (List.perm_ext_iff_of_nodup h.nodup ?_).mpr fun p => ?_⟩
  · exact List.nodup_range.map fun a b hab => (Prod.mk.inj hab).2
  · obtain ⟨x, r⟩ := p
    rw [h.closed, List.mem_map]
    constructor
    · rintro ⟨hr, rfl, -⟩
      exact ⟨r, List.mem_range.mpr hr, rfl⟩
    · rintro ⟨r, hr, heq⟩
      cases heq
      have hlt := h.owner_lt r (List.mem_range.mp hr)
      refine ⟨List.mem_range.mp hr, rfl, ?_⟩
      rw [List.getElem?_eq_getElem hlt, hs _ (List.getElem_mem hlt)]

/-! ### Objects that do not recognise that they are empty -/

/-- A destructor has dereferenced a null pointer, or will. -/
def Doomed (P : Classes ω κ τ) (s : State ω) : Prop :=
  s.derefs ≠ [] ∨ ∃ x o, s.Live x o ∧ P.destroy o = none

/-- **Such an object stays, until its destructor runs.** -/
theorem Doomed.step (hP : Spoils P Clean) (h : Doomed P s) {a : Action κ τ}
    (hs : step P s a = some s') :
    Doomed P s' := by
  rcases h with hderefs | ⟨y, p, hy, hp⟩
  · -- what is on record stays there
    left
    cases a with
    | construct k =>
      rw [Ownership.step] at hs
      split_ifs at hs <;> cases hs <;> exact hderefs
    | take m x =>
      obtain ⟨o, new, left, ho, ht, rfl⟩ := step_take hs
      exact hderefs
    | acquire x =>
      obtain ⟨o, o', ho, ha, rfl⟩ := step_acquire hs
      exact hderefs
    | destroy x =>
      obtain ⟨o, ho, ⟨rs, hd, rfl⟩ | ⟨hd, rfl⟩⟩ := step_destroy hs
      · exact hderefs
      · simp
  · have hlt := hy.lt
    cases a with
    | construct k =>
      rw [Ownership.step] at hs
      refine .inr ⟨y, p, ?_, hp⟩
      split_ifs at hs <;> cases hs <;> exact (List.getElem?_append_left hlt).trans hy
    | take m x =>
      obtain ⟨o, new, left, ho, ht, rfl⟩ := step_take hs
      right
      rcases eq_or_ne x y with rfl | hne
      · obtain rfl : p = o := Option.some.inj (Option.some.inj (hy.symm.trans ho))
        rcases hP.take_spoiled ht hp with hnew | hleft
        · refine ⟨s.objects.length, new, ?_, hnew⟩
          rw [State.Live, getElem?_concat, List.length_set, if_pos rfl]
        · refine ⟨x, left, ?_, hleft⟩
          rw [State.Live, getElem?_concat, List.length_set, if_neg hlt.ne, List.getElem?_set_self hlt]
      · refine ⟨y, p, ?_, hp⟩
        rw [State.Live, getElem?_concat, List.length_set, if_neg hlt.ne, List.getElem?_set_ne hne]
        exact hy
    | acquire x =>
      obtain ⟨o, o', ho, ha, rfl⟩ := step_acquire hs
      right
      rcases eq_or_ne x y with rfl | hne
      · obtain rfl : p = o := Option.some.inj (Option.some.inj (hy.symm.trans ho))
        exact ⟨x, o', List.getElem?_set_self hlt, hP.acquire ha hp⟩
      · exact ⟨y, p, (List.getElem?_set_ne hne).trans hy, hp⟩
    | destroy x =>
      obtain ⟨o, ho, ⟨rs, hd, rfl⟩ | ⟨hd, rfl⟩⟩ := step_destroy hs
      · rcases eq_or_ne x y with rfl | hne
        · obtain rfl : p = o := Option.some.inj (Option.some.inj (hy.symm.trans ho))
          cases hp.symm.trans hd
        · exact .inr ⟨y, p, (List.getElem?_set_ne hne).trans hy, hp⟩
      · exact .inl (by simp)

theorem Doomed.run (hP : Spoils P Clean) {as : List (Action κ τ)} :
    ∀ {s : State ω}, Doomed P s → run P s as = some s' → Doomed P s' := by
  induction as with
  | nil => intro s h hrun; cases hrun; exact h
  | cons a as ih =>
    intro s h hrun
    obtain ⟨t, ht, hrun⟩ := Option.bind_eq_some_iff.mp hrun
    exact ih (h.step hP ht) hrun

/-- A transfer that is not clean leaves one. -/
theorem Doomed.of_take (hP : Spoils P Clean) {m : τ} {x : ℕ} {o : ω} (ho : s.Live x o)
    (hm : ¬ Clean m o) (hs : Ownership.step P s (.take m x) = some s') : Doomed P s' := by
  obtain ⟨o', new, left, ho', ht, rfl⟩ := step_take hs
  obtain rfl : o = o' := Option.some.inj (Option.some.inj (ho.symm.trans ho'))
  refine .inr ⟨x, left, ?_, hP.take hm ht⟩
  rw [State.Live, getElem?_concat, List.length_set, if_neg ho.lt.ne, List.getElem?_set_self ho.lt]

theorem Doomed.of_not_takesClean (hP : Spoils P Clean) {as : List (Action κ τ)} :
    ∀ {s : State ω}, ¬ TakesClean P Clean s as → Ownership.run P s as = some s' → Doomed P s' := by
  induction as with
  | nil => intro s h _; exact absurd trivial h
  | cons a as ih =>
    intro s h hrun
    obtain ⟨t, ht, hrest⟩ := Option.bind_eq_some_iff.mp hrun
    by_cases hclean : ∀ m x o, a = .take m x → s.Live x o → Clean m o
    · refine ih (fun htail => h ⟨hclean, fun t' ht' => ?_⟩) hrest
      obtain rfl : t = t' := Option.some.inj (ht.symm.trans ht')
      exact htail
    · push Not at hclean
      obtain ⟨m, x, o, rfl, ho, hm⟩ := hclean
      exact (Doomed.of_take hP ho hm ht).run hP hrest

theorem Doomed.not_released (h : Doomed P s) (hs : s.Complete) : ¬ s.Released := by
  rintro ⟨hderefs, -⟩
  rcases h with hne | ⟨x, o, ho, -⟩
  · exact hne hderefs
  · cases hs _ (List.mem_of_getElem? ho)

/-- **A run that destroys every object closes every resource once, by its last owner,
and dereferences no null pointer, exactly when its transfers are clean.** -/
theorem released_iff (hkeeps : Keeps P Clean) (hspoils : Spoils P Clean) {as : List (Action κ τ)}
    (hrun : run P start as = some s) (hs : s.Complete) :
    s.Released ↔ TakesClean P Clean start as := by
  constructor
  · intro h
    by_contra hnot
    exact (Doomed.of_not_takesClean hspoils hnot hrun).not_released hs h
  · intro h
    exact (Owned.start.run hkeeps h hrun).released hs

end Shuffle3.Foundations.Ownership
