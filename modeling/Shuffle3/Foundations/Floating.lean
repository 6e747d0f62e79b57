import Shuffle3.Foundations.Rounding

/-!
# Floating-point numbers by value

Floating-point numbers of a format as sign, magnitude and the special values,
with the arithmetic that rounds an exact result to the format (round to nearest,
ties to even). A magnitude carries the proof that it is a number of the format,
so no other can be built.

## What is proved

* `Alike.mul`, `add_alike` — arithmetic sees the sign of a zero only in the
  sign of a zero result.

## Honest scope

There are no exception flags, one rounding mode, and one NaN: a NaN's payload
belongs to the bit pattern it is kept in.
-/

namespace Shuffle3.Foundations

/-- IEEE 754 `binary32`. -/
def binary32 : Format := ⟨24, -149, 128, by decide⟩

/-- IEEE 754 `binary64`. -/
def binary64 : Format := ⟨53, -1074, 1024, by decide⟩

/-- A nonnegative number of the format. -/
@[ext]
structure Magnitude (F : Format) where
  /-- The number. -/
  num : ℚ
  nonneg : 0 ≤ num
  /-- It has the significant bits the format keeps. -/
  fits : F.rnd num = num
  /-- It does not overflow. -/
  lt : num < 2 ^ F.emax
  deriving DecidableEq

/-- A floating-point number: a sign and a magnitude, or a special value. -/
inductive Floating (F : Format) where
  /-- Not a number. -/
  | nan
  /-- An infinity. -/
  | inf (neg : Bool)
  /-- A finite number, `-mag` when `neg`. -/
  | fin (neg : Bool) (mag : Magnitude F)
  deriving DecidableEq

namespace Floating

variable {F : Format}

/-- The value of a finite number. -/
def val : Floating F → ℚ
  | fin true m => -m.num
  | fin false m => m.num
  | _ => 0

/-- Neither a NaN nor an infinity. -/
def finite : Floating F → Bool
  | fin _ _ => true
  | _ => false

/-- `-x`. -/
def neg : Floating F → Floating F
  | nan => nan
  | inf s => inf !s
  | fin s m => fin (!s) m

/-- The size of `q`, with the sign `s`, rounded to the format. -/
def round (F : Format) (s : Bool) (q : ℚ) : Floating F :=
  if h : F.rnd |q| < 2 ^ F.emax then
    fin s ⟨F.rnd |q|, F.rnd_nonneg (abs_nonneg q), F.rnd_rnd (abs_nonneg q), h⟩
  else inf s

/-- A zero with the sign `s`. -/
def zero (F : Format) (s : Bool) : Floating F := round F s 0

/-- A rational rounded to the format. -/
def ofRat (F : Format) (q : ℚ) : Floating F := round F (q < 0) q

/-- An integer rounded to the format. -/
def ofInt (F : Format) (k : ℤ) : Floating F := ofRat F k

/-- The number rounded to another format. -/
def convert (G : Format) : Floating F → Floating G
  | nan => nan
  | inf s => inf s
  | fin s m => round G s m.num

/-- `x + y`. An exact zero is positive unless both are negative. -/
def add : Floating F → Floating F → Floating F
  | nan, _ => nan
  | _, nan => nan
  | inf s, inf t => if s = t then inf s else nan
  | inf s, fin _ _ => inf s
  | fin _ _, inf t => inf t
  | fin s m, fin t n =>
    if (fin s m).val + (fin t n).val = 0 then zero F (s && t)
    else ofRat F ((fin s m).val + (fin t n).val)

/-- `x - y`. -/
def sub (x y : Floating F) : Floating F := add x y.neg

/-- `x * y`. -/
def mul : Floating F → Floating F → Floating F
  | nan, _ => nan
  | _, nan => nan
  | inf s, inf t => inf (s ^^ t)
  | inf s, fin t n => if n.num = 0 then nan else inf (s ^^ t)
  | fin s m, inf t => if m.num = 0 then nan else inf (s ^^ t)
  | fin s m, fin t n => round F (s ^^ t) (m.num * n.num)

/-- `x / y`. -/
def div : Floating F → Floating F → Floating F
  | nan, _ => nan
  | _, nan => nan
  | inf _, inf _ => nan
  | inf s, fin t _ => inf (s ^^ t)
  | fin s _, inf t => zero F (s ^^ t)
  | fin s m, fin t n =>
    if n.num = 0 then if m.num = 0 then nan else inf (s ^^ t) else round F (s ^^ t) (m.num / n.num)

/-- The greatest integer not above; a zero keeps its sign. -/
def floor : Floating F → Floating F
  | fin s m => round F s ⌊(fin s m).val⌋
  | x => x

/-- The integer part, when there is one. -/
def toInt? : Floating F → Option ℤ
  | fin true m => some (-⌊m.num⌋)
  | fin false m => some ⌊m.num⌋
  | _ => none

/-- `x < y`: false when either is a NaN. -/
def lt : Floating F → Floating F → Bool
  | nan, _ => false
  | _, nan => false
  | inf s, inf t => s && !t
  | inf s, fin _ _ => s
  | fin _ _, inf t => !t
  | fin s m, fin t n => (fin s m).val < (fin t n).val

/-- `x == y`: false when either is a NaN; the two zeros are equal. -/
def eq : Floating F → Floating F → Bool
  | inf s, inf t => s = t
  | fin s m, fin t n => (fin s m).val = (fin t n).val
  | _, _ => false

/-- `x <= y`: false when either is a NaN. -/
def le (x y : Floating F) : Bool := lt x y || eq x y

theorem lt_iff_val {x y : Floating F} (hx : x.finite) (hy : y.finite) : lt x y ↔ x.val < y.val := by
  cases x <;> cases y <;> simp_all [finite, lt]

theorem eq_iff_val {x y : Floating F} (hx : x.finite) (hy : y.finite) : eq x y ↔ x.val = y.val := by
  cases x <;> cases y <;> simp_all [finite, eq]

theorem le_iff_val {x y : Floating F} (hx : x.finite) (hy : y.finite) : le x y ↔ x.val ≤ y.val := by
  rw [le, Bool.or_eq_true, lt_iff_val hx hy, eq_iff_val hx hy, le_iff_lt_or_eq]

/-- Minus infinity is below every finite number. -/
theorem inf_le_of_finite {x : Floating F} (hx : x.finite) : le (inf true) x = true := by
  cases x with
  | fin => rfl
  | inf => cases hx
  | nan => cases hx

/-! ### Rounding -/

theorem round_of_lt {q : ℚ} (s : Bool) (h : F.rnd |q| < 2 ^ F.emax) :
    round F s q = fin s ⟨F.rnd |q|, F.rnd_nonneg (abs_nonneg q), F.rnd_rnd (abs_nonneg q), h⟩ :=
  dif_pos h

/-- A magnitude is rounded to itself. -/
theorem round_num (s : Bool) (m : Magnitude F) : round F s m.num = fin s m := by
  have habs : |m.num| = m.num := abs_of_nonneg m.nonneg
  have hlt : F.rnd |m.num| < 2 ^ F.emax := by rw [habs, m.fits]; exact m.lt
  rw [round_of_lt s hlt]
  congr 1
  exact Magnitude.ext (by simp only [habs, m.fits])

theorem fin_eq_zero_iff {s : Bool} {m : Magnitude F} : fin s m = zero F s ↔ m.num = 0 := by
  constructor
  · intro h
    rw [zero, round_of_lt s (by simp)] at h
    cases h
    simp
  · intro h
    rw [zero, ← h, round_num]

theorem val_fin_eq_zero_iff {s : Bool} {m : Magnitude F} : (fin s m).val = 0 ↔ m.num = 0 := by
  cases s <;> simp [val]

@[simp] theorem val_zero (s : Bool) : (zero F s).val = 0 := by
  rw [zero, round_of_lt s (by simp)]
  exact val_fin_eq_zero_iff.mpr (by simp)

theorem zero_eq_fin (F : Format) (s : Bool) : ∃ m : Magnitude F, zero F s = fin s m ∧ m.num = 0 :=
  ⟨_, round_of_lt s (by simp), by simp⟩

/-! ### The sign of a zero -/

/-- The same number but for the sign of a zero. -/
def Alike (x y : Floating F) : Prop := x = y ∨ ∃ s t, x = zero F s ∧ y = zero F t

/-- Finite numbers that compare equal are alike. -/
theorem alike_of_val {x y : Floating F} (hx : x.finite) (hy : y.finite) (h : x.val = y.val) :
    Alike x y := by
  cases x with
  | nan => cases hx
  | inf s => cases hx
  | fin s m =>
    cases y with
    | nan => cases hy
    | inf t => cases hy
    | fin t n =>
      have hm := m.nonneg
      have hn := n.nonneg
      by_cases h0 : m.num = 0
      · have hn0 : n.num = 0 := by
          rw [val_fin_eq_zero_iff.mpr h0] at h
          exact val_fin_eq_zero_iff.mp h.symm
        exact .inr ⟨s, t, fin_eq_zero_iff.mpr h0, fin_eq_zero_iff.mpr hn0⟩
      · -- away from zero the sign is that of the value
        left
        have hpos : 0 < m.num := lt_of_le_of_ne hm (Ne.symm h0)
        cases s <;> cases t <;> simp only [val] at h
        · rw [Magnitude.ext h]
        · linarith
        · linarith
        · rw [Magnitude.ext (neg_injective h)]

theorem Alike.symm {x y : Floating F} (h : Alike x y) : Alike y x := by
  rcases h with rfl | ⟨s, t, rfl, rfl⟩
  · exact .inl rfl
  · exact .inr ⟨t, s, rfl, rfl⟩

theorem convert_zero (G : Format) (s : Bool) : convert G (zero F s) = zero G s := by
  obtain ⟨m, h, hm⟩ := zero_eq_fin F s
  rw [h, convert, hm, zero]

theorem Alike.convert {x y : Floating F} (G : Format) (h : Alike x y) :
    Alike (convert G x) (convert G y) := by
  rcases h with rfl | ⟨s, t, rfl, rfl⟩
  · exact .inl rfl
  · exact .inr ⟨s, t, convert_zero G s, convert_zero G t⟩

/-- A product sees the sign of a zero only in the sign of a zero product. -/
theorem Alike.mul {x y c : Floating F} (h : Alike x y) : Alike (mul x c) (mul y c) := by
  rcases h with rfl | ⟨s, t, rfl, rfl⟩
  · exact .inl rfl
  · obtain ⟨m, hs, hm⟩ := zero_eq_fin F s
    obtain ⟨n, ht, hn⟩ := zero_eq_fin F t
    rw [hs, ht]
    cases c with
    | nan => exact .inl rfl
    | inf u => left; simp [Floating.mul, hm, hn]
    | fin u k => exact .inr ⟨s ^^ u, t ^^ u, by simp [Floating.mul, hm, zero], by simp [Floating.mul, hn, zero]⟩

/-- A sum that starts from a number which is not a negative zero does not see the
sign of a zero added to it. -/
theorem add_alike {r x y : Floating F} (hr : r ≠ zero F true) (h : Alike x y) :
    add r x = add r y := by
  rcases h with rfl | ⟨s, t, rfl, rfl⟩
  · rfl
  · obtain ⟨m, hs, hm⟩ := zero_eq_fin F s
    obtain ⟨n, ht, hn⟩ := zero_eq_fin F t
    rw [hs, ht]
    cases r with
    | nan => rfl
    | inf u => rfl
    | fin u k =>
      simp only [add, val_fin_eq_zero_iff.mpr hm, val_fin_eq_zero_iff.mpr hn, add_zero]
      by_cases h0 : (fin u k).val = 0
      · have hu : u = false := by
          cases u with
          | false => rfl
          | true => exact absurd (fin_eq_zero_iff.mpr (val_fin_eq_zero_iff.mp h0)) hr
        simp [hu]
      · rw [if_neg h0, if_neg h0]

/-- A sum that starts from a positive zero is not a negative zero. -/
theorem zero_add_ne (x : Floating F) : add (zero F false) x ≠ zero F true := by
  obtain ⟨k, hk, hk0⟩ := zero_eq_fin F false
  obtain ⟨z, hz, hz0⟩ := zero_eq_fin F true
  rw [hk, hz]
  cases x with
  | nan => simp [add]
  | inf s => simp [add]
  | fin s m =>
    simp only [add, val_fin_eq_zero_iff.mpr hk0, zero_add, Bool.false_and]
    by_cases h0 : (fin s m).val = 0
    · rw [if_pos h0, hk]
      simp
    · -- the other number is of the format, so it is not rounded away
      rw [if_neg h0, ofRat]
      have hm : |(fin s m).val| = m.num := by cases s <;> simp [val, abs_of_nonneg m.nonneg]
      have hlt : F.rnd |(fin s m).val| < 2 ^ F.emax := by rw [hm, m.fits]; exact m.lt
      rw [round_of_lt _ hlt]
      intro e
      have hval := congrArg val e
      rw [val_fin_eq_zero_iff.mpr hz0, val_fin_eq_zero_iff] at hval
      simp only [hm, m.fits] at hval
      exact h0 (val_fin_eq_zero_iff.mpr hval)

end Floating

end Shuffle3.Foundations
