import Shuffle3.Foundations.Blocks
import Mathlib.Data.List.Flatten
import Mathlib.Data.List.Perm.Subperm

/-!
# Memories that remember

A memory with all that it was before, one state for each store. A program over indexed
memories runs over the memory that remembers as it does over the memory itself, and leaves
the states in which it can be cut off. An exchange stores twice. Between the two one item
is in two places and another in none.

`Lacks n xs ys` says that `ys` is `xs` but for at most `n` items that are lost, with other
items of `xs` in their places.

## What is proved

* `lacks_zero_iff`, `Lacks.trans` — to lose nothing is to be permuted, and losses add up.
* `exchanges_journal` — a run of exchanges goes over a memory that remembers as over the
  memory, and at every store at most one item is lost, at every second store none.
-/

namespace Shuffle3.Foundations

universe u v

variable {α : Type u} {μ : Type v}

/-! ### What is lost -/

/-- `ys` is as long as `xs` and has no items but those of `xs`, of which it lacks at most `n`. -/
structure Lacks (n : ℕ) (xs ys : List α) : Prop where
  length_eq : ys.length = xs.length
  subset : ys ⊆ xs
  lost : ∃ ds : List α, ds.length ≤ n ∧ xs.Subperm (ds ++ ys)

variable {xs ys zs : List α} {m n : ℕ}

theorem Lacks.mono (h : Lacks m xs ys) (hmn : m ≤ n) : Lacks n xs ys := by
  obtain ⟨ds, hds, hsub⟩ := h.lost
  exact ⟨h.length_eq, h.subset, ds, hds.trans hmn, hsub⟩

/-- **To lose nothing is to be permuted.** -/
theorem lacks_zero_iff : Lacks 0 xs ys ↔ ys.Perm xs := by
  constructor
  · intro h
    obtain ⟨ds, hds, hsub⟩ := h.lost
    rw [List.length_eq_zero_iff.mp (Nat.le_zero.mp hds), List.nil_append] at hsub
    exact (hsub.perm_of_length_le h.length_eq.le).symm
  · intro h
    exact ⟨h.length_eq, h.subset, [], Nat.le_refl 0, h.symm.subperm⟩

theorem lacks_of_perm (h : ys.Perm xs) (n : ℕ) : Lacks n xs ys :=
  (lacks_zero_iff.mpr h).mono n.zero_le

/-- **Losses add up.** -/
theorem Lacks.trans (h : Lacks m xs ys) (h' : Lacks n ys zs) : Lacks (m + n) xs zs := by
  obtain ⟨ds, hds, hsub⟩ := h.lost
  obtain ⟨es, hes, hsub'⟩ := h'.lost
  refine ⟨h'.length_eq.trans h.length_eq, fun a ha => h.subset (h'.subset ha), ds ++ es, ?_, ?_⟩
  · rw [List.length_append]
    exact Nat.add_le_add hds hes
  · rw [List.append_assoc]
    exact hsub.trans ((List.subperm_append_left ds).mpr hsub')

/-- Where one item takes another's place, that one is lost. -/
theorem lacks_set {i : ℕ} {a : α} (hi : i < xs.length) (ha : a ∈ xs) : Lacks 1 xs (xs.set i a) := by
  refine ⟨List.length_set, fun b hb => ?_, [xs[i]], Nat.le_refl 1, ?_⟩
  · rcases List.mem_or_eq_of_mem_set hb with hb | rfl
    · exact hb
    · exact ha
  · have hxs : xs.Perm (xs[i] :: xs.eraseIdx i) := (List.getElem_cons_eraseIdx_perm hi).symm
    have hset : (xs.set i a).Perm (a :: xs.eraseIdx i) := List.set_perm_cons_eraseIdx hi a
    have hcons : (xs[i] :: xs.eraseIdx i).Subperm (xs[i] :: a :: xs.eraseIdx i) :=
      (List.subperm_cons _).mpr List.Subperm.cons_self
    exact hxs.subperm.trans (hcons.trans (hset.symm.cons xs[i]).subperm)

theorem join_subperm {w : ℕ} {bs cs : List (Block α w)} (h : bs.Subperm cs) :
    (join bs).Subperm (join cs) := by
  obtain ⟨ds, hperm, hsub⟩ := h
  exact (join_perm hperm).symm.subperm.trans (hsub.map Subtype.val).flatten.subperm

theorem join_subset {w : ℕ} {bs cs : List (Block α w)} (h : bs ⊆ cs) : join bs ⊆ join cs := by
  intro a ha
  obtain ⟨b, hb, hab⟩ := List.mem_flatten.mp ha
  exact List.mem_flatten.mpr ⟨b, List.map_subset _ h hb, hab⟩

/-- A block that is lost is `w` items that are lost. -/
theorem Lacks.join {w : ℕ} {bs cs : List (Block α w)} (h : Lacks n bs cs) (t : List α) :
    Lacks (n * w) (join bs ++ t) (join cs ++ t) := by
  obtain ⟨ds, hds, hsub⟩ := h.lost
  refine ⟨by simp [h.length_eq], ?_, Foundations.join ds, ?_, ?_⟩
  · exact List.append_subset.mpr ⟨fun a ha => List.mem_append_left t (join_subset h.subset ha),
      List.subset_append_right _ t⟩
  · rw [length_join]
    exact Nat.mul_le_mul_right w hds
  · rw [← List.append_assoc, ← join_append]
    exact (List.subperm_append_right t).mpr (join_subperm hsub)

/-! ### Memories that remember -/

/-- A memory with what it was before each store, the earliest first. -/
structure Journal (μ : Type v) where
  before : List μ
  now : μ

namespace Journal

/-- All that it has been. -/
def moments (q : Journal μ) : List μ := q.before ++ [q.now]

/-- Another view of the memory. -/
def map {ν : Type*} (f : μ → ν) (q : Journal μ) : Journal ν := ⟨q.before.map f, f q.now⟩

instance [Indexed μ α] : Indexed (Journal μ) α where
  size q := Indexed.size q.now
  get q i := Indexed.get q.now i
  set q i a := (Indexed.set q.now i a).map fun m => ⟨q.before ++ [q.now], m⟩

end Journal

/-! ### Exchanges in a memory that remembers -/

/-- Of these memories each holds the items of `xs` but for `v` at most, and every second
one, from the first on, holds all of them. -/
def Wavers (R : μ → List α → Prop) (v : ℕ) (xs : List α) (ms : List μ) : Prop :=
  ∀ k m, ms[k]? = some m → ∃ ys, R m ys ∧ Lacks (k % 2 * v) xs ys

variable {R : μ → List α → Prop} {v w : ℕ} {ms ms' past : List μ} {a b : μ} {p q : Journal μ}

theorem Wavers.append (h : Wavers R v xs ms) (hn : ms.length = 2 * n) (h' : Wavers R v xs ms') :
    Wavers R v xs (ms ++ ms') := by
  intro k m hk
  rw [List.getElem?_append] at hk
  split_ifs at hk with hlt
  · exact h k m hk
  · obtain ⟨ys, hys, hlacks⟩ := h' _ m hk
    -- as many memories come before as two times the exchanges
    have hpar : (k - ms.length) % 2 = k % 2 := by omega
    exact ⟨ys, hys, hpar ▸ hlacks⟩

theorem Wavers.of_perm (h : Wavers R v ys ms) (hp : ys.Perm xs) : Wavers R v xs ms := by
  intro k m hk
  obtain ⟨zs, hzs, hlacks⟩ := h k m hk
  have hsum := (lacks_of_perm hp 0).trans hlacks
  rw [Nat.zero_add] at hsum
  exact ⟨zs, hzs, hsum⟩

/-- The journal `q`, which began with `past` and a memory of `xs`, has come to the memory `a`
by `n` exchanges of items that weigh `v`. -/
structure Follows (R : μ → List α → Prop) (v : ℕ) (xs : List α) (past : List μ) (n : ℕ) (q : Journal μ)
    (a : μ) : Prop where
  now : q.now = a
  holds : ∃ ys, R a ys ∧ ys.Perm xs
  stores : ∃ new, q.before = past ++ new ∧ new.length = 2 * n ∧ Wavers R v xs new

theorem follows_refl (h : R a xs) (v : ℕ) (past : List μ) : Follows R v xs past 0 ⟨past, a⟩ a :=
  ⟨rfl, ⟨xs, h, List.Perm.refl xs⟩, [], (List.append_nil past).symm, rfl, by simp [Wavers]⟩

theorem Follows.trans (h : Follows R v xs past m p a) (hp : ys.Perm xs)
    (h' : Follows R v ys p.before n q b) : Follows R v xs past (m + n) q b := by
  obtain ⟨new, hnew, hlen, hwavers⟩ := h.stores
  obtain ⟨new', hnew', hlen', hwavers'⟩ := h'.stores
  obtain ⟨zs, hzs, hperm⟩ := h'.holds
  refine ⟨h'.now, ⟨zs, hzs, hperm.trans hp⟩, new ++ new', ?_, ?_, hwavers.append hlen (hwavers'.of_perm hp)⟩
  · rw [hnew', hnew, List.append_assoc]
  · rw [List.length_append, hlen, hlen', Nat.mul_add]

/-- With the memory that it has come to, the last. -/
theorem Follows.moments (h : Follows R v xs past n q a) :
    ∃ new, q.moments = past ++ new ∧ new.length = 2 * n + 1 ∧ Wavers R v xs new := by
  obtain ⟨new, hnew, hlen, hwavers⟩ := h.stores
  obtain ⟨ys, hys, hperm⟩ := h.holds
  have hlast : Wavers R v xs [q.now] := by
    intro k m hk
    rw [List.getElem?_singleton] at hk
    split_ifs at hk
    cases hk
    exact ⟨ys, h.now ▸ hys, lacks_of_perm hperm _⟩
  refine ⟨new ++ [q.now], ?_, ?_, hwavers.append hlen hlast⟩
  · rw [Journal.moments, hnew, List.append_assoc]
  · rw [List.length_append, hlen, List.length_singleton]

/-- The same in another view, where an item weighs `w` and more may be lost. -/
theorem Follows.map {ν β : Type*} {S : ν → List β → Prop} {f : μ → ν} {g : List α → List β}
    (h : Follows R 1 xs past n q a) (hRS : ∀ m ys, R m ys → S (f m) (g ys)) (hw : w ≤ v)
    (hg : ∀ n ys, Lacks n xs ys → Lacks (n * w) (g xs) (g ys)) :
    Follows S v (g xs) (past.map f) n (q.map f) (f a) := by
  obtain ⟨ys, hys, hperm⟩ := h.holds
  obtain ⟨new, hnew, hlen, hwavers⟩ := h.stores
  have hperm' : (g ys).Perm (g xs) :=
    lacks_zero_iff.mp (by simpa using hg 0 ys (lacks_of_perm hperm 0))
  refine ⟨congrArg f h.now, ⟨g ys, hRS a ys hys, hperm'⟩, new.map f, ?_, by rw [List.length_map, hlen], ?_⟩
  · rw [Journal.map, hnew, List.map_append]
  · intro k m hk
    rw [List.getElem?_map, Option.map_eq_some_iff] at hk
    obtain ⟨m, hm, rfl⟩ := hk
    obtain ⟨zs, hzs, hlacks⟩ := hwavers k m hm
    rw [Nat.mul_one] at hlacks
    exact ⟨g zs, hRS m zs hzs, (hg _ zs hlacks).mono (Nat.mul_le_mul_left _ hw)⟩

variable [Indexed μ α]

theorem get_journal (q : Journal μ) (i : ℕ) : Indexed.get q i = Indexed.get q.now i := rfl

theorem set_journal (q : Journal μ) (i : ℕ) (x : α) :
    Indexed.set q i x = (Indexed.set q.now i x).map fun m => ⟨q.before ++ [q.now], m⟩ := rfl

/-- **An exchange stores twice**, and between the two one item is lost. -/
theorem exchange_journal (hR : Holds R) (h : R a xs) (past : List μ) (i j : ℕ) :
    Option.Rel (Follows R 1 xs past 1) (exchange (⟨past, a⟩ : Journal μ) i j) (exchange a i j) := by
  have hlist := hR.exchange h i j
  cases hx : Indexed.get a i with
  | none => simp [exchange, get_journal, hx]
  | some x => cases hy : Indexed.get a j with
    | none => simp [exchange, get_journal, hx, hy]
    | some y => cases htorn : Indexed.set a i y with
      | none => simp [exchange, get_journal, set_journal, hx, hy, htorn]
      | some torn => cases hb : Indexed.set torn j x with
        | none => simp [exchange, get_journal, set_journal, hx, hy, htorn, hb]
        | some b =>
          have hexchange : exchange a i j = some b := by
            simp [exchange, hx, hy, htorn, hb]
          have hjournal : exchange (⟨past, a⟩ : Journal μ) i j = some ⟨past ++ [a, torn], b⟩ := by
            simp [exchange, get_journal, set_journal, hx, hy, htorn, hb]
          rw [hexchange] at hlist
          rw [hexchange, hjournal]
          generalize hys : exchange xs i j = o at hlist
          cases hlist with
          | some hb' =>
            refine .some ⟨rfl, ⟨_, hb', exchange_perm hys⟩, [a, torn], rfl, rfl, ?_⟩
            rw [hR.get h] at hx hy
            obtain ⟨hi, -⟩ := List.getElem?_eq_some_iff.mp hx
            have hset := hR.set h i y
            rw [htorn, set_list, if_pos hi] at hset
            intro k m hk
            rcases k with _ | _ | k
            · cases hk
              exact ⟨xs, h, lacks_of_perm (List.Perm.refl xs) _⟩
            · cases hk
              cases hset with
              | some htorn' => exact ⟨_, htorn', lacks_set hi (List.mem_of_getElem? hy)⟩
            · cases hk

/-- **A run of exchanges goes over a memory that remembers as over the memory**, and at no
store is more than one item lost. -/
theorem exchanges_journal (hR : Holds R) (ss : List (ℕ × ℕ)) :
    ∀ {a : μ} {xs : List α} (past : List μ), R a xs →
      Option.Rel (Follows R 1 xs past ss.length) (exchanges ss (⟨past, a⟩ : Journal μ)) (exchanges ss a) := by
  induction ss with
  | nil => intro a xs past h; exact .some (follows_refl h 1 past)
  | cons s ss ih =>
    intro a xs past h
    refine rel_bind (exchange_journal hR h past s.1 s.2) fun q b hq => ?_
    obtain ⟨ys, hys, hp⟩ := hq.holds
    have hrest := ih q.before hys
    rw [← hq.now, show (⟨q.before, q.now⟩ : Journal μ) = q from rfl, hq.now] at hrest
    rw [List.length_cons, Nat.add_comm]
    generalize exchanges ss q = o, exchanges ss b = o' at hrest
    cases hrest with
    | none => exact .none
    | some hrest => exact .some (hq.trans hp hrest)

end Shuffle3.Foundations
