import Shuffle3.Foundations.Floating
import Mathlib.Tactic.NormNum

/-!
# Bounds on rounded results

Each operation returns the exact result rounded (`Rounds`), so a result lies
between two numbers of the format when the exact one does, and is exact when the
format has the exact one.

## What is proved

* `rounds_add`, `rounds_sub`, `rounds_mul`, `rounds_div`, `rounds_floor`,
  `rounds_convert` — what each operation rounds.
* `Rounds.between`, `Rounds.exact`, `floor_exact` — bounds and exact results.
* `toInt?_of_val` — the integer part of an integer.
-/

namespace Shuffle3.Foundations

/-- The format has the number, but for its sign. -/
def Format.Has (F : Format) (q : ℚ) : Prop := F.rnd |q| = |q| ∧ |q| < 2 ^ F.emax

theorem Format.has_zero (F : Format) : F.Has 0 := ⟨by simp, by simp⟩

theorem Format.has_natCast_mul_zpow {F : Format} {m : ℕ} {e : ℤ} (hm : m < 2 ^ F.prec)
    (he : F.emin ≤ e) (hlt : (m * 2 ^ e : ℚ) < 2 ^ F.emax) : F.Has (m * 2 ^ e) := by
  have habs : |(m * 2 ^ e : ℚ)| = m * 2 ^ e := abs_of_nonneg (by positivity)
  exact ⟨by rw [habs, F.rnd_natCast_mul_zpow hm he], by rwa [habs]⟩

theorem Format.Has.neg {F : Format} {q : ℚ} (h : F.Has q) :
    F.Has (-q) := by rwa [Format.Has, abs_neg]

namespace Format

variable {F : Format} {q : ℚ}

theorem has_two_pow (he : F.emin ≤ 0) {k : ℕ} (hk : k < F.emax) : F.Has (2 ^ k) := by
  have hlt : (2 : ℚ) ^ k < 2 ^ F.emax := pow_lt_pow_right₀ (by norm_num) hk
  have h := has_natCast_mul_zpow (F := F) (m := 1) (e := k) (Nat.one_lt_two_pow F.prec_pos.ne')
    (by omega) (by simpa using hlt)
  simpa using h

/-- The integers that the significant bits have room for. -/
theorem has_natCast (he : F.emin ≤ 0) (hp : F.prec < F.emax) {k : ℕ} (hk : k ≤ 2 ^ F.prec) :
    F.Has k := by
  have hlt : (2 : ℚ) ^ F.prec < 2 ^ F.emax := pow_lt_pow_right₀ (by norm_num) hp
  rcases hk.lt_or_eq with h | rfl
  · have hk' : (k : ℚ) ≤ 2 ^ F.prec := by exact_mod_cast hk
    simpa using has_natCast_mul_zpow (e := 0) h he (by simpa using hk'.trans_lt hlt)
  · -- one significant bit more, and zeros
    exact_mod_cast has_two_pow he hp

theorem has_intCast (he : F.emin ≤ 0) (hp : F.prec < F.emax) {k : ℤ} (hk : k.natAbs ≤ 2 ^ F.prec) :
    F.Has k := by
  obtain ⟨n, rfl | rfl⟩ := Int.eq_nat_or_neg k
  · exact_mod_cast has_natCast he hp (by omega)
  · rw [Int.cast_neg]
    exact Has.neg (by exact_mod_cast has_natCast he hp (by omega))

/-- A number from `2 ^ prec` on has no bits after the point. -/
theorem exists_int_of_le (hq : 2 ^ F.prec ≤ q) (h : F.rnd q = q) : ∃ k : ℤ, q = k := by
  have hpos : 0 < q := lt_of_lt_of_le (by positivity) hq
  have hlog : (F.prec : ℤ) ≤ Int.log 2 q :=
    (Int.zpow_le_iff_le_log (by norm_num) hpos).mp (by exact_mod_cast hq)
  have hs : 0 ≤ F.spacing q := by unfold spacing; omega
  obtain ⟨k, hk⟩ := exists_mul_zpow (roundEven (q / 2 ^ F.spacing q)) hs
  rw [zpow_zero, mul_one] at hk
  exact ⟨k, by rw [← hk, ← rnd, h]⟩

/-- **The integer part of a number of the format is one.** -/
theorem Has.floor (he : F.emin ≤ 0) (hp : F.prec < F.emax) (h : F.Has q) : F.Has ⌊q⌋ := by
  rcases lt_or_ge |q| (2 ^ F.prec) with hlt | hle
  · obtain ⟨hlo, hhi⟩ := abs_lt.mp hlt
    have hfloor : -(2 ^ F.prec : ℤ) ≤ ⌊q⌋ := Int.le_floor.mpr (by push_cast; exact hlo.le)
    have hfloor' : ⌊q⌋ < 2 ^ F.prec := Int.floor_lt.mpr (by push_cast; exact hhi)
    have hcast : ((2 ^ F.prec : ℕ) : ℤ) = 2 ^ F.prec := by push_cast; rfl
    exact has_intCast he hp (by omega)
  · obtain ⟨k, hk⟩ := exists_int_of_le hle h.1
    have hq : ∃ l : ℤ, q = l := by
      rcases abs_choice q with habs | habs
      · exact ⟨k, by rw [← habs, hk]⟩
      · exact ⟨-k, by rw [Int.cast_neg, ← hk, habs, neg_neg]⟩
    obtain ⟨l, rfl⟩ := hq
    rwa [Int.floor_intCast]

end Format

namespace Floating

variable {F G : Format} {x y : Floating F} {q lo hi : ℚ}

/-- The number is `q` rounded, but for the sign of a zero. -/
def Rounds (x : Floating F) (q : ℚ) : Prop :=
  x.finite = (ofRat F q).finite ∧ x.val = (ofRat F q).val

/-- The number is finite and lies between `lo` and `hi`. -/
def Between (lo hi : ℚ) (x : Floating F) : Prop := x.finite ∧ lo ≤ x.val ∧ x.val ≤ hi

theorem val_round {s : Bool} (h : F.rnd |q| < 2 ^ F.emax) :
    (round F s q).val = if s then -F.rnd |q| else F.rnd |q| := by
  rw [round_of_lt s h]
  cases s <;> rfl

theorem round_abs {s : Bool} {r : ℚ} (h : |q| = |r|) :
    round F s q = round F s r := by simp only [round, h]

/-- A result rounded with a sign that fits it. -/
theorem rounds_round {s : Bool} (hneg : s = true → q ≤ 0) (hpos : s = false → 0 ≤ q) :
    Rounds (round F s q) q := by
  rcases eq_or_ne q 0 with rfl | hq
  · -- zeros of either sign have one value
    have hz := zero_eq_fin F s
    have hz' := zero_eq_fin F false
    obtain ⟨m, hm, hm0⟩ := hz
    obtain ⟨n, hn, hn0⟩ := hz'
    have hof : ofRat F 0 = fin false n := by rw [← hn]; simp [ofRat, zero]
    rw [Rounds, show round F s 0 = fin s m from hm, hof, val_fin_eq_zero_iff.mpr hm0, val_fin_eq_zero_iff.mpr hn0]
    exact ⟨rfl, rfl⟩
  · have hs : s = decide (q < 0) := by
      cases s with
      | true => exact (decide_eq_true (lt_of_le_of_ne (hneg rfl) hq)).symm
      | false => exact (decide_eq_false (not_lt.mpr (hpos rfl))).symm
    rw [hs]
    exact ⟨rfl, rfl⟩

theorem rounds_ofRat (q : ℚ) : Rounds (ofRat F q) q := ⟨rfl, rfl⟩

theorem rounds_add (hx : x.finite) (hy : y.finite) : Rounds (add x y) (x.val + y.val) := by
  cases x with
  | nan => cases hx
  | inf s => cases hx
  | fin s m =>
    cases y with
    | nan => cases hy
    | inf t => cases hy
    | fin t n =>
      simp only [add]
      split_ifs with h0
      · rw [h0]
        exact rounds_round (fun _ => le_rfl) fun _ => le_rfl
      · exact rounds_ofRat _

theorem finite_neg : x.neg.finite = x.finite := by cases x <;> rfl

theorem val_neg : x.neg.val = -x.val := by
  cases x with
  | nan => simp [neg, val]
  | inf s => simp [neg, val]
  | fin s m => cases s <;> simp [neg, val]

theorem rounds_sub (hx : x.finite) (hy : y.finite) : Rounds (sub x y) (x.val - y.val) := by
  have h := rounds_add hx (finite_neg (x := y) ▸ hy)
  rwa [val_neg, ← sub_eq_add_neg] at h

theorem val_fin (s : Bool) (m : Magnitude F) : (fin s m).val = (if s then -1 else 1) * m.num := by
  cases s <;> simp [val]

/-- A product or a quotient: its size, with the sign that the two signs make. -/
theorem rounds_xor {s t : Bool} {r : ℚ} (hr : 0 ≤ r)
    (h : q = (if s then -1 else 1) * (if t then -1 else 1) * r) :
    Rounds (round F (s ^^ t) r) q := by
  have habs : |r| = |q| := by cases s <;> cases t <;> simp [h]
  rw [round_abs habs]
  refine rounds_round (fun hst => ?_) fun hst => ?_
  · cases s <;> cases t <;> simp_all
  · cases s <;> cases t <;> simp_all

theorem rounds_mul (hx : x.finite) (hy : y.finite) : Rounds (mul x y) (x.val * y.val) := by
  cases x with
  | nan => cases hx
  | inf s => cases hx
  | fin s m =>
    cases y with
    | nan => cases hy
    | inf t => cases hy
    | fin t n =>
      refine rounds_xor (mul_nonneg m.nonneg n.nonneg) ?_
      rw [val_fin, val_fin]
      ring

theorem rounds_div (hx : x.finite) (hy : y.finite) (h0 : y.val ≠ 0) :
    Rounds (div x y) (x.val / y.val) := by
  cases x with
  | nan => cases hx
  | inf s => cases hx
  | fin s m =>
    cases y with
    | nan => cases hy
    | inf t => cases hy
    | fin t n =>
      have hn : n.num ≠ 0 := fun e => h0 (val_fin_eq_zero_iff.mpr e)
      rw [div, if_neg hn]
      refine rounds_xor (div_nonneg m.nonneg n.nonneg) ?_
      rw [val_fin, val_fin]
      cases s <;> cases t <;> simp [neg_div, div_neg]

theorem rounds_floor (hx : x.finite) : Rounds x.floor ⌊x.val⌋ := by
  cases x with
  | nan => cases hx
  | inf s => cases hx
  | fin s m =>
    refine rounds_round ?_ ?_
    · rintro rfl
      have hle : (fin true m).val ≤ 0 := neg_nonpos.mpr m.nonneg
      exact (Int.floor_le _).trans hle
    · rintro rfl
      exact_mod_cast Int.floor_nonneg.mpr m.nonneg

theorem rounds_convert (G : Format) (hx : x.finite) : Rounds (convert G x) x.val := by
  cases x with
  | nan => cases hx
  | inf s => cases hx
  | fin s m =>
    have h := rounds_xor (F := G) (s := s) (t := false) m.nonneg rfl
    rw [Bool.xor_false] at h
    rw [val_fin]
    simpa [convert] using h

/-! ### Bounds and exact results -/

/-- **A result lies between two numbers of the format when the exact one does.** -/
theorem Rounds.between (h : Rounds x q) (hlo : F.Has lo) (hhi : F.Has hi) (h₁ : lo ≤ q)
    (h₂ : q ≤ hi) :
    Between lo hi x := by
  rw [Between, h.1, h.2, ofRat]
  rcases lt_or_ge q 0 with hq | hq
  · have habs : |q| ≤ |lo| := by rw [abs_of_neg hq, abs_of_neg (lt_of_le_of_lt h₁ hq)]; linarith
    have hrnd : F.rnd |q| ≤ |lo| := (F.rnd_mono (abs_nonneg q) habs).trans_eq hlo.1
    have hlt : F.rnd |q| < 2 ^ F.emax := lt_of_le_of_lt hrnd hlo.2
    rw [val_round hlt, if_pos (decide_eq_true hq), round_of_lt _ hlt]
    rw [abs_of_neg (lt_of_le_of_lt h₁ hq)] at hrnd
    refine ⟨rfl, by linarith, ?_⟩
    rcases lt_or_ge hi 0 with hneg | hpos
    · have hle : |hi| ≤ |q| := by rw [abs_of_neg hq, abs_of_neg hneg]; linarith
      have := hhi.1.symm.trans_le (F.rnd_mono (abs_nonneg hi) hle)
      rw [abs_of_neg hneg] at this
      linarith
    · have := F.rnd_nonneg (abs_nonneg q)
      linarith
  · have habs : |q| ≤ |hi| := by rw [abs_of_nonneg hq, abs_of_nonneg (hq.trans h₂)]; exact h₂
    have hrnd : F.rnd |q| ≤ |hi| := (F.rnd_mono (abs_nonneg q) habs).trans_eq hhi.1
    have hlt : F.rnd |q| < 2 ^ F.emax := lt_of_le_of_lt hrnd hhi.2
    rw [val_round hlt, if_neg (by simpa using hq), round_of_lt _ hlt]
    rw [abs_of_nonneg (hq.trans h₂)] at hrnd
    refine ⟨rfl, ?_, hrnd⟩
    rcases lt_or_ge lo 0 with hneg | hpos
    · exact hneg.le.trans (F.rnd_nonneg (abs_nonneg q))
    · have hle : |lo| ≤ |q| := by rw [abs_of_nonneg hq, abs_of_nonneg hpos]; exact h₁
      have := hlo.1.symm.trans_le (F.rnd_mono (abs_nonneg lo) hle)
      rwa [abs_of_nonneg hpos] at this

theorem Between.mono {a b : ℚ} (h : Between lo hi x) (ha : a ≤ lo) (hb : hi ≤ b) : Between a b x :=
  ⟨h.1, ha.trans h.2.1, h.2.2.trans hb⟩

/-- **A result that the format has is exact.** -/
theorem Rounds.exact (h : Rounds x q) (hq : F.Has q) : x.finite ∧ x.val = q :=
  have hb := h.between hq hq le_rfl le_rfl
  ⟨hb.1, le_antisymm hb.2.2 hb.2.1⟩

/-- The value of a result that does not overflow. -/
theorem Rounds.val_near (h : Rounds x q) (hx : x.finite) : x.val = F.near q := by
  have hfin := h.1.symm.trans hx
  rw [h.2]
  rw [ofRat] at hfin ⊢
  by_cases hlt : F.rnd |q| < 2 ^ F.emax
  · rw [val_round hlt, Format.near]
    rcases lt_or_ge q 0 with hq | hq
    · rw [if_pos (decide_eq_true hq), if_pos hq, abs_of_neg hq]
    · rw [if_neg (by simpa using hq), if_neg (not_lt.mpr hq), abs_of_nonneg hq]
  · rw [round, dif_neg hlt] at hfin
    cases hfin

/-- The value of a result that is not negative and does not overflow. -/
theorem Rounds.val_eq (h : Rounds x q) (hq : 0 ≤ q) (hx : x.finite) : x.val = F.rnd q := by
  rw [h.val_near hx, Format.near_of_nonneg hq]

theorem has_val (hx : x.finite) : F.Has x.val := by
  cases x with
  | nan => cases hx
  | inf s => cases hx
  | fin s m =>
    have habs : |(fin s m).val| = m.num := by
      rw [val_fin, abs_mul, abs_of_nonneg m.nonneg]
      cases s <;> simp
    rw [Format.Has, habs]
    exact ⟨m.fits, m.lt⟩

/-- Rounding down is exact. -/
theorem floor_exact (he : F.emin ≤ 0) (hp : F.prec < F.emax) (hx : x.finite) :
    x.floor.finite ∧ x.floor.val = ⌊x.val⌋ :=
  (rounds_floor hx).exact ((has_val hx).floor he hp)

/-- The integer part of an integer. -/
theorem toInt?_of_val {k : ℤ} (hx : x.finite) (hk : x.val = k) : x.toInt? = some k := by
  cases x with
  | nan => cases hx
  | inf s => cases hx
  | fin s m =>
    cases s with
    | false => rw [toInt?, show m.num = k from hk, Int.floor_intCast]
    | true =>
      have hm : m.num = ((-k : ℤ) : ℚ) := by rw [Int.cast_neg, ← hk]; simp [val]
      rw [toInt?, hm, Int.floor_intCast, neg_neg]

end Floating

end Shuffle3.Foundations
