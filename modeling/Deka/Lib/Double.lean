/-
Deka/Lib/Double.lean

How doubles compare, and the whole numbers in them.

A NaN compares with nothing, itself included.  All other doubles stand in a line on which the
two zeroes share a place (`Comparing`).  The comparison of the 64 bits of a double has these
laws (`Double.comparing`).
-/
import Mathlib.Data.BitVec

namespace Deka.Lib

/-- The laws of `<` and `==` on doubles; a NaN is a number that is not equal to itself. -/
structure Comparing {F : Type} (lt eq : F → F → Bool) : Prop where
  asymm : ∀ {a b}, lt a b = true → lt b a = false
  number_left : ∀ {a b}, lt a b = true → eq a a = true
  number_right : ∀ {a b}, lt a b = true → eq b b = true
  /-- whatever is no NaN stands on one side of a gap -/
  between : ∀ {a b c}, eq b b = true → lt a c = true → lt a b = true ∨ lt b c = true

namespace Double

/-- All exponent bits are set, and some bit of the fraction. -/
def isNaN (x : BitVec 64) : Bool := decide (2047 * 2 ^ 52 < x.toNat % 2 ^ 63)

/-- The place on the line: sign and magnitude. -/
def place (x : BitVec 64) : Int :=
  if x.toNat < 2 ^ 63 then (x.toNat : Int) else -((x.toNat % 2 ^ 63 : Nat) : Int)

def lt (x y : BitVec 64) : Bool := !isNaN x && !isNaN y && decide (place x < place y)

def eq (x y : BitVec 64) : Bool := !isNaN x && !isNaN y && decide (place x = place y)

@[simp] theorem lt_iff {x y : BitVec 64} :
    lt x y = true ↔ isNaN x = false ∧ isNaN y = false ∧ place x < place y := by
  simp [lt, and_assoc]

@[simp] theorem eq_self_iff {x : BitVec 64} : eq x x = true ↔ isNaN x = false := by
  simp [eq]

/-- Doubles compare as they should. -/
theorem comparing : Comparing lt eq where
  asymm := by
    intro a b h
    rw [lt_iff] at h
    rw [Bool.eq_false_iff, Ne, lt_iff]
    rintro ⟨-, -, hba⟩
    exact absurd h.2.2 (Int.lt_asymm hba)
  number_left := by
    intro a b h
    exact eq_self_iff.mpr (lt_iff.mp h).1
  number_right := by
    intro a b h
    exact eq_self_iff.mpr (lt_iff.mp h).2.1
  between := by
    intro a b c hb h
    obtain ⟨ha, hc, hac⟩ := lt_iff.mp h
    have hb := eq_self_iff.mp hb
    by_cases hab : place a < place b
    · exact Or.inl (lt_iff.mpr ⟨ha, hb, hab⟩)
    · exact Or.inr (lt_iff.mpr ⟨hb, hc, Int.lt_of_le_of_lt (Int.not_lt.mp hab) hac⟩)

/-! ### Whole numbers -/

def exponent (x : BitVec 64) : Nat := x.toNat / 2 ^ 52 % 2048

def fraction (x : BitVec 64) : Nat := x.toNat % 2 ^ 52

def isFinite (x : BitVec 64) : Bool := exponent x ≠ 2047

/-- A finite double is, but for its sign, `significand * 2 ^ (max 1 exponent - 1075)`. -/
def significand (x : BitVec 64) : Nat :=
  if exponent x = 0 then fraction x else 2 ^ 52 + fraction x

/-- The whole part, without the sign. -/
def magnitude (x : BitVec 64) : Nat :=
  let e := max 1 (exponent x)
  if 1075 ≤ e then significand x * 2 ^ (e - 1075) else significand x / 2 ^ (1075 - e)

def trunc (x : BitVec 64) : Int :=
  if x.toNat < 2 ^ 63 then (magnitude x : Int) else -(magnitude x : Int)

/-- `as i64`: a NaN becomes 0, what is too large the last number on its side. -/
def toI64 (x : BitVec 64) : Int :=
  if isNaN x then 0 else max (-2 ^ 63) (min (2 ^ 63 - 1) (trunc x))

theorem significand_lt (x : BitVec 64) : significand x < 2 ^ 53 := by
  have hfraction : fraction x < 2 ^ 52 := Nat.mod_lt _ (by decide)
  rw [significand]
  split <;> omega

/-- A large double is a multiple of a large power of two. -/
theorem dvd_magnitude {x : BitVec 64} (h : 2 ^ 63 ≤ magnitude x) : 2 ^ 11 ∣ magnitude x := by
  have hlt := significand_lt x
  rw [magnitude] at h ⊢
  split
  · next he =>
    rw [if_pos he] at h
    by_cases hlarge : 11 ≤ max 1 (exponent x) - 1075
    · exact Dvd.dvd.mul_left (Nat.pow_dvd_pow 2 hlarge) _
    · -- the significand alone has no more than 53 bits
      have hpow : 2 ^ (max 1 (exponent x) - 1075) ≤ 2 ^ 10 :=
        Nat.pow_le_pow_right (by decide) (by omega)
      have hstrict : significand x * 2 ^ (max 1 (exponent x) - 1075) < 2 ^ 63 := by
        calc significand x * 2 ^ (max 1 (exponent x) - 1075)
            ≤ significand x * 2 ^ 10 := Nat.mul_le_mul_left _ hpow
          _ < 2 ^ 53 * 2 ^ 10 := Nat.mul_lt_mul_of_pos_right hlt (by decide)
          _ = 2 ^ 63 := by decide
      omega
  · next he =>
    rw [if_neg he] at h
    have := Nat.div_le_self (significand x) (2 ^ (1075 - max 1 (exponent x)))
    omega

theorem dvd_trunc {x : BitVec 64} (h : 2 ^ 63 ≤ trunc x ∨ trunc x < -2 ^ 63) :
    (2 ^ 11 : Int) ∣ trunc x := by
  have hlarge : 2 ^ 63 ≤ magnitude x := by
    rw [trunc] at h
    split at h <;> omega
  have hdvd : ((2 ^ 11 : Nat) : Int) ∣ (magnitude x : Int) :=
    Int.natCast_dvd_natCast.mpr (dvd_magnitude hlarge)
  rw [trunc]
  split
  · exact hdvd
  · exact (Int.dvd_neg).mpr hdvd

/-- The double of a whole number that it can hold exactly. -/
def ofInt (i : Int) : BitVec 64 :=
  let m := i.natAbs
  let k := Nat.log2 m
  if m = 0 then 0
  else BitVec.ofNat 64 ((if i < 0 then 2 ^ 63 else 0) + (k + 1023) * 2 ^ 52 +
    (m - 2 ^ k) * 2 ^ (52 - k))

theorem trunc_ofInt {i : Int} (h : i.natAbs < 2 ^ 53) : trunc (ofInt i) = i := by
  by_cases hzero : i.natAbs = 0
  · rw [ofInt, if_pos hzero, Int.natAbs_eq_zero.mp hzero]
    have hsignificand : significand 0 = 0 := rfl
    rw [trunc, magnitude, hsignificand]
    simp only [Nat.zero_mul, Nat.zero_div, ite_self, Int.natCast_zero, Int.neg_zero]
  · have hk : Nat.log2 i.natAbs < 53 := (Nat.log2_lt hzero).mpr h
    have hlow : 2 ^ Nat.log2 i.natAbs ≤ i.natAbs := Nat.log2_self_le hzero
    have hhigh : i.natAbs < 2 ^ (Nat.log2 i.natAbs + 1) := Nat.lt_log2_self
    have hx : ofInt i = BitVec.ofNat 64 ((if i < 0 then 2 ^ 63 else 0) +
        (Nat.log2 i.natAbs + 1023) * 2 ^ 52 +
          (i.natAbs - 2 ^ Nat.log2 i.natAbs) * 2 ^ (52 - Nat.log2 i.natAbs)) := if_neg hzero
    generalize hm : i.natAbs = m at *
    generalize Nat.log2 m = k at *
    -- the bits behind the leading one, moved up to the top of the fraction
    have hfraction : (m - 2 ^ k) * 2 ^ (52 - k) + 2 ^ 52 = m * 2 ^ (52 - k) := by
      have hpow : 2 ^ k * 2 ^ (52 - k) = 2 ^ 52 := by
        rw [← Nat.pow_add]
        congr 1
        omega
      rw [Nat.sub_mul, hpow]
      have hle : 2 ^ k * 2 ^ (52 - k) ≤ m * 2 ^ (52 - k) := Nat.mul_le_mul_right _ hlow
      omega
    have hsmall : (m - 2 ^ k) * 2 ^ (52 - k) < 2 ^ 52 := by
      have hpow : 2 ^ (k + 1) * 2 ^ (52 - k) = 2 ^ 53 := by
        rw [← Nat.pow_add]
        congr 1
        omega
      have hlt : m * 2 ^ (52 - k) < 2 ^ (k + 1) * 2 ^ (52 - k) :=
        Nat.mul_lt_mul_of_pos_right hhigh (Nat.two_pow_pos _)
      omega
    generalize hf : (m - 2 ^ k) * 2 ^ (52 - k) = f at *
    have hnat : (ofInt i).toNat = (if i < 0 then 2 ^ 63 else 0) + (k + 1023) * 2 ^ 52 + f := by
      rw [hx, BitVec.toNat_ofNat]
      refine Nat.mod_eq_of_lt ?_
      split <;> omega
    have hexponent : exponent (ofInt i) = k + 1023 := by
      rw [exponent, hnat]
      split <;> omega
    have hsignificand : significand (ofInt i) = m * 2 ^ (52 - k) := by
      rw [significand, hexponent, if_neg (by omega), fraction, hnat]
      split <;> omega
    have hmagnitude : magnitude (ofInt i) = m := by
      rw [magnitude, hexponent, hsignificand]
      have hmax : max 1 (k + 1023) = k + 1023 := by omega
      simp only [hmax]
      split
      · have hk52 : k = 52 := by omega
        subst hk52
        simp
      · have hshift : 1075 - (k + 1023) = 52 - k := by omega
        rw [hshift, Nat.mul_div_cancel _ (Nat.two_pow_pos _)]
    rw [trunc, hmagnitude]
    by_cases hneg : i < 0
    · rw [if_pos hneg] at hnat
      rw [if_neg (by omega)]
      omega
    · rw [if_neg hneg] at hnat
      rw [if_pos (by omega)]
      omega

theorem isNaN_of_isFinite {x : BitVec 64} (h : isFinite x = true) : isNaN x = false := by
  have he : exponent x ≠ 2047 := of_decide_eq_true h
  refine decide_eq_false fun hlarge => he ?_
  rw [exponent]
  omega

end Double

end Deka.Lib
