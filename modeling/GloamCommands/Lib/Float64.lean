/-
  GloamCommands.Lib.Float64 — IEEE-754 binary64 as its three fields, with the
  comparisons and the integer conversion Rust gives `f64`.

  A value is a sign, an eleven-bit exponent and a fifty-two-bit mantissa. For values
  that are not NaN the numeric order is the order of the signed magnitude
  (`key`), the magnitude being the exponent and mantissa read as one number; the two
  zeros are the only distinct values that compare equal (`eq_cases`).
-/

import Mathlib.Data.Nat.Log
import Mathlib.Tactic.Ring

namespace GloamCommands.Lib

/-- A binary64 value by its fields. -/
structure F64 where
  sign : Bool
  exponent : BitVec 11
  mantissa : BitVec 52
  deriving DecidableEq, Repr

namespace F64

def zero : F64 := ⟨false, 0, 0⟩

/-- Exponent and mantissa as one number: monotone in the absolute value. -/
def magnitude (x : F64) : Nat := x.exponent.toNat * 2 ^ 52 + x.mantissa.toNat

def key (x : F64) : Int := if x.sign then -(x.magnitude : Int) else x.magnitude

def isFinite (x : F64) : Bool := x.exponent != 2047

def isNan (x : F64) : Bool := x.exponent == 2047 && x.mantissa != 0

/-- `==` on `f64`. -/
def eq (x y : F64) : Bool := !x.isNan && !y.isNan && x.key == y.key

/-- `<=` on `f64`. -/
def le (x y : F64) : Bool := !x.isNan && !y.isNan && decide (x.key ≤ y.key)

def roundShift (n shift : Nat) : Nat :=
  let q := n / 2 ^ shift
  let r := n % 2 ^ shift
  if 2 ^ shift < 2 * r ∨ (2 * r = 2 ^ shift ∧ q % 2 = 1) then q + 1 else q

/-- A natural number under a sign. Past fifty-three bits it is rounded; rounding up to
    `2 ^ 53` carries into the exponent. -/
def ofNat (n : Nat) (sign : Bool) : F64 :=
  if n = 0 then ⟨sign, 0, 0⟩
  else if n.log2 ≤ 52 then
    ⟨sign, BitVec.ofNat 11 (n.log2 + 1023), BitVec.ofNat 52 (n * 2 ^ (52 - n.log2))⟩
  else if roundShift n (n.log2 - 52) = 2 ^ 53 then ⟨sign, BitVec.ofNat 11 (n.log2 + 1024), 0⟩
  else ⟨sign, BitVec.ofNat 11 (n.log2 + 1023), BitVec.ofNat 52 (roundShift n (n.log2 - 52))⟩

def ofInt (n : Int) : F64 := if n < 0 then ofNat n.natAbs true else ofNat n.natAbs false

/-! ## Decimal texts -/

def neg (x : F64) : F64 := { x with sign := !x.sign }

def lt (x y : F64) : Bool := !x.isNan && !y.isNan && decide (x.key < y.key)

/-- `n / d`, rounded to nearest, ties to even. -/
def roundDiv (n d : Nat) : Nat :=
  let q := n / d
  let r := n % d
  if d < 2 * r ∨ (2 * r = d ∧ q % 2 = 1) then q + 1 else q

/-- The exponent of the leading bit of `n / d`, for positive `n` and `d`. -/
def leading (n d : Nat) : Int :=
  let e : Int := (n.log2 : Int) - d.log2
  if n * 2 ^ (-e).toNat < d * 2 ^ e.toNat then e - 1 else e

def ofMagnitude (sign : Bool) (magnitude : Nat) : F64 :=
  let m := min magnitude (2047 * 2 ^ 52)
  ⟨sign, BitVec.ofNat 11 (m / 2 ^ 52), BitVec.ofNat 52 (m % 2 ^ 52)⟩

/-- The value nearest to `n / d` under a sign, ties to even. The last place counts
    `2 ^ unit`, which is never less than the smallest subnormal. -/
def ofRatio (n d : Nat) (sign : Bool) : F64 :=
  if n = 0 then ⟨sign, 0, 0⟩
  else
    let unit : Int := max (leading n d) (-1022) - 52
    let units := roundDiv (n * 2 ^ (-unit).toNat) (d * 2 ^ unit.toNat)
    ofMagnitude sign ((unit + 1074).toNat * 2 ^ 52 + units)

/-- `str::parse::<f64>` on `coefficient * 10 ^ exponent` under a sign. -/
def ofDecimal (coefficient : Nat) (exponent : Int) (sign : Bool) : F64 :=
  ofRatio (coefficient * 10 ^ exponent.toNat) (10 ^ (-exponent).toNat) sign

/-! ## Comparisons -/

theorem magnitude_inj {x y : F64} (h : x.magnitude = y.magnitude) :
    x.exponent = y.exponent ∧ x.mantissa = y.mantissa := by
  have hx := x.mantissa.isLt
  have hy := y.mantissa.isLt
  unfold magnitude at h
  constructor
  · apply BitVec.eq_of_toNat_eq; omega
  · apply BitVec.eq_of_toNat_eq; omega

theorem eq_self {x : F64} (h : x.isNan = false) : x.eq x = true := by
  simp [eq, h]

theorem not_nan_of_finite {x : F64} (h : x.isFinite = true) : x.isNan = false := by
  simp only [isFinite, bne_iff_ne, ne_eq] at h
  simp only [isNan, Bool.and_eq_false_iff, beq_eq_false_iff_ne, ne_eq]
  exact Or.inl h

theorem eq_comm (x y : F64) : x.eq y = y.eq x := by
  simp only [eq, Bool.and_comm x.isNan.not, Bool.beq_comm (a := x.key)]

/-- Values that compare equal are the same value or are both zero. -/
theorem eq_cases {x y : F64} (h : x.eq y = true) : x = y ∨ (x.eq zero = true ∧ y.eq zero = true) := by
  simp only [eq, Bool.and_eq_true, Bool.not_eq_true', beq_iff_eq] at h
  obtain ⟨⟨hx, hy⟩, hk⟩ := h
  by_cases hs : x.sign = y.sign
  · left
    have hm : x.magnitude = y.magnitude := by
      unfold key at hk
      rw [hs] at hk
      split at hk <;> omega
    obtain ⟨he, hm⟩ := magnitude_inj hm
    cases x; cases y
    simp_all
  · right
    -- opposite signs: both magnitudes are zero
    have h0 : x.key = 0 ∧ y.key = 0 := by
      unfold key at hk ⊢
      cases hxs : x.sign <;> cases hys : y.sign <;> simp [hxs, hys] at hs hk ⊢ <;> omega
    have hz : zero.key = 0 := by decide
    have hzn : zero.isNan = false := by decide
    simp [eq, hx, hy, h0.1, h0.2, hz, hzn]

/-- Two numbers are in order, one way or strictly the other. -/
theorem lt_eq_not_le {x y : F64} (hx : x.isNan = false) (hy : y.isNan = false) : y.lt x = !x.le y := by
  simp only [lt, le, hx, hy, Bool.not_false, Bool.true_and]
  by_cases h : x.key ≤ y.key
  · simp [h, Int.not_lt.mpr h]
  · simp [h, Int.not_le.mp h]

/-! ## Integers -/

theorem log2_lt_of_lt {n k : Nat} (h0 : n ≠ 0) (h : n < 2 ^ k) : n.log2 < k :=
  (Nat.log2_lt h0).mpr h

theorem exponent_finite {e : Nat} (h : e < 2047) : BitVec.ofNat 11 e ≠ 2047 := by
  intro hc
  have := congrArg BitVec.toNat hc
  simp only [BitVec.toNat_ofNat] at this
  change e % 2 ^ 11 = 2047 at this
  omega

theorem ofNat_exponent {n : Nat} (h : n < 2 ^ 64) (sign : Bool) :
    ∃ e < 2047, (ofNat n sign).exponent = BitVec.ofNat 11 e := by
  unfold ofNat
  by_cases h0 : n = 0
  · exact ⟨0, by omega, by simp [h0]⟩
  have hk : n.log2 < 64 := log2_lt_of_lt h0 h
  simp only [h0, if_false]
  split
  · exact ⟨n.log2 + 1023, by omega, rfl⟩
  split
  · exact ⟨n.log2 + 1024, by omega, rfl⟩
  · exact ⟨n.log2 + 1023, by omega, rfl⟩

theorem ofNat_finite {n : Nat} (h : n < 2 ^ 64) (sign : Bool) : (ofNat n sign).isFinite = true := by
  obtain ⟨e, he, hx⟩ := ofNat_exponent h sign
  simp only [isFinite, bne_iff_ne, ne_eq, hx]
  exact exponent_finite he

theorem ofInt_finite {n : Int} (h : n.natAbs < 2 ^ 64) : (ofInt n).isFinite = true := by
  unfold ofInt
  split
  · exact ofNat_finite h true
  · exact ofNat_finite h false

def significand (x : F64) : Nat := if x.exponent = 0 then x.mantissa.toNat else 2 ^ 52 + x.mantissa.toNat

def placeBias : Nat := 1075

/-- The value is exactly `n`: its last place counts `2 ^ (exponent - placeBias)`. -/
def Exactly (x : F64) (n : Int) : Prop :=
  (if x.sign then -1 else 1) * (x.significand * 2 ^ max x.exponent.toNat 1 : Nat) = n * 2 ^ placeBias

theorem ofNat_exact {n : Nat} (h : n < 2 ^ 53) (sign : Bool) :
    (ofNat n sign).significand * 2 ^ max (ofNat n sign).exponent.toNat 1 = n * 2 ^ placeBias := by
  by_cases h0 : n = 0
  · simp [ofNat, significand, h0]
  have hk : n.log2 ≤ 52 := Nat.lt_succ_iff.mp (log2_lt_of_lt h0 h)
  -- shifted to fifty-three bits, the leading one is the implicit bit
  have hscale : 2 ^ n.log2 * 2 ^ (52 - n.log2) = 2 ^ 52 := by rw [← Nat.pow_add, Nat.add_sub_cancel' hk]
  have hlow : 2 ^ 52 ≤ n * 2 ^ (52 - n.log2) := by
    rw [← hscale]
    exact Nat.mul_le_mul_right _ (Nat.log2_self_le h0)
  have hhigh : n * 2 ^ (52 - n.log2) < 2 * 2 ^ 52 := by
    rw [← hscale, ← Nat.mul_assoc, ← Nat.pow_succ']
    exact Nat.mul_lt_mul_of_pos_right Nat.lt_log2_self (Nat.two_pow_pos _)
  have hexponent : (ofNat n sign).exponent.toNat = n.log2 + 1023 := by
    simp only [ofNat, if_neg h0, if_pos hk, BitVec.toNat_ofNat]
    omega
  have hmantissa : (ofNat n sign).mantissa.toNat = n * 2 ^ (52 - n.log2) - 2 ^ 52 := by
    simp only [ofNat, if_neg h0, if_pos hk, BitVec.toNat_ofNat]
    omega
  have hsignificand : (ofNat n sign).significand = n * 2 ^ (52 - n.log2) := by
    have hne : (ofNat n sign).exponent ≠ 0 := fun hz => by rw [hz] at hexponent; simp at hexponent
    rw [significand, if_neg hne, hmantissa]
    omega
  have hplaces : 52 - n.log2 + (n.log2 + 1023) = placeBias := by
    unfold placeBias
    omega
  rw [hsignificand, hexponent, Nat.max_eq_left (by omega), Nat.mul_assoc, ← Nat.pow_add, hplaces]

/-- Up to fifty-three bits no integer is rounded. -/
theorem ofInt_exact {n : Int} (h : n.natAbs < 2 ^ 53) : Exactly (ofInt n) n := by
  have hsign : ∀ m sign, (ofNat m sign).sign = sign := by
    intro m sign
    unfold ofNat
    repeat' split
    all_goals rfl
  unfold Exactly ofInt
  by_cases hn : n < 0
  · simp only [if_pos hn, hsign, if_true, ofNat_exact h]
    push_cast
    rw [abs_of_neg hn]
    ring
  · simp only [if_neg hn, hsign, Bool.false_eq_true, if_false, ofNat_exact h]
    push_cast
    rw [abs_of_nonneg (not_lt.mp hn)]
    ring

theorem ofNat_magnitude {n : Nat} (h : n < 2 ^ 53) (sign : Bool) : (ofNat n sign).magnitude ≤ 1076 * 2 ^ 52 := by
  have hexponent : (ofNat n sign).exponent.toNat ≤ 1075 := by
    unfold ofNat
    by_cases h0 : n = 0
    · simp [h0]
    · have hk : n.log2 ≤ 52 := Nat.lt_succ_iff.mp (log2_lt_of_lt h0 h)
      simp only [if_neg h0, if_pos hk, BitVec.toNat_ofNat]
      omega
  have hmantissa := (ofNat n sign).mantissa.isLt
  unfold magnitude
  omega

theorem ofInt_within {n : Int} (h : n.natAbs < 2 ^ 53) :
    (ofInt (-9007199254740992)).le (ofInt n) = true ∧ (ofInt n).le (ofInt 9007199254740992) = true := by
  have hnan : (ofInt n).isNan = false := not_nan_of_finite (ofInt_finite (by omega))
  have hlow : (ofInt (-9007199254740992)).isNan = false ∧ (ofInt (-9007199254740992)).key = -(1076 * 2 ^ 52) := by decide
  have hhigh : (ofInt 9007199254740992).isNan = false ∧ (ofInt 9007199254740992).key = 1076 * 2 ^ 52 := by decide
  have hkey : -(1076 * 2 ^ 52) ≤ (ofInt n).key ∧ (ofInt n).key ≤ 1076 * 2 ^ 52 := by
    have hmagnitude : (ofInt n).magnitude ≤ 1076 * 2 ^ 52 := by
      unfold ofInt
      split
      · exact ofNat_magnitude h true
      · exact ofNat_magnitude h false
    unfold key
    split <;> omega
  simp only [le, hnan, hlow.1, hlow.2, hhigh.1, hhigh.2, Bool.not_false, Bool.true_and, decide_eq_true_eq]
  exact hkey

example : ofInt 1 = ⟨false, 1023, 0⟩ := by decide
example : ofDecimal 15 (-1) false = ⟨false, 1023, 0x8000000000000⟩ := by decide
example : ofDecimal 9007199254740993 0 true = ofInt (-9007199254740992) := by decide
example : ofInt (-9007199254740993) = ofInt (-9007199254740992) := by decide

end F64

end GloamCommands.Lib
