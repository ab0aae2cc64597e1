/-
Deka/Vm/Bitwise.lean

The bitwise operators on doubles of any size.

`int32` goes through a 64-bit cast that saturates, so a double beyond it is not reduced modulo
`2 ^ 32`.  The five operators follow ToInt32 on two numbers when the cast does on each of them.
-/
import Deka.Lib.Double
import Deka.Vm.Machine

namespace Deka.Vm

open Deka.Lib

variable {F : Type} [F64 F]

/-! ### ToInt32 -/

/-- The whole part modulo `2 ^ 32`, as a number in two's complement. -/
def toInt32 (x : BitVec 64) : BitVec 32 := BitVec.ofInt 32 (Double.trunc x)

def bitwiseOps : List (Op F) := [.bitAnd, .bitOr, .bitXor, .shl, .shr]

/-- What the operators compute on 32 bits. -/
def Op.onInt32 (a b : BitVec 32) : Op F → BitVec 32
  | .bitAnd => a &&& b
  | .bitOr => a ||| b
  | .bitXor => a ^^^ b
  | .shl => a <<< (b.toNat % 32)
  | _ => a.sshiftRight (b.toNat % 32)

/-- How doubles are cast to whole numbers and back. -/
structure F64.Casts (bits : F → BitVec 64) : Prop where
  truncI64 : ∀ n, F64.truncI64 n = Double.toI64 (bits n)
  /-- a 32-bit number is a double -/
  ofInt : ∀ i : Int, -2 ^ 31 ≤ i → i < 2 ^ 31 → Double.trunc (bits (F64.ofInt i)) = i

/-- The cast to 64 bits, and then to 32, is the reduction modulo `2 ^ 32`. -/
def Fits (x : BitVec 64) : Prop :=
  Double.trunc x < 2 ^ 63 ∧ (-2 ^ 63 ≤ Double.trunc x ∨ 2 ^ 32 ∣ Double.trunc x)

instance (x : BitVec 64) : Decidable (Fits x) := by
  unfold Fits
  infer_instance

/-! ### The cast of one number -/

theorem ofInt_eq_iff {i j : Int} :
    BitVec.ofInt 32 i = BitVec.ofInt 32 j ↔ i % 2 ^ 32 = j % 2 ^ 32 := by
  rw [← BitVec.toNat_inj, BitVec.toNat_ofInt, BitVec.toNat_ofInt]
  omega

theorem lsb_ofInt (i : Int) : (BitVec.ofInt 32 i).getLsbD 0 = decide (i % 2 = 1) := by
  rw [BitVec.getLsbD, BitVec.toNat_ofInt, Nat.testBit_zero]
  congr 1
  rw [eq_iff_iff]
  omega

section

variable {bits : F → BitVec 64} (hF : F64.Casts bits) {a b : F}
include hF

/-- What `int32` makes of a number that does not fit. -/
theorem int32_cases (ha : Double.isFinite (bits a) = true) :
    int32 a = toInt32 (bits a) ∧ Fits (bits a) ∨
      ¬ Fits (bits a) ∧ (toInt32 (bits a)).getLsbD 0 = false ∧
        (int32 a = BitVec.allOnes 32 ∨ int32 a = 0#32 ∧ toInt32 (bits a) ≠ 0#32) := by
  have hcast : int32 a = BitVec.ofInt 32 (max (-2 ^ 63) (min (2 ^ 63 - 1) (Double.trunc (bits a)))) := by
    rw [int32, hF.truncI64, Double.toI64, Double.isNaN_of_isFinite ha]
    rfl
  rw [hcast, toInt32]
  have hdvd := @Double.dvd_trunc (bits a)
  generalize hfits : Fits (bits a) = fits
  rw [Fits] at hfits
  generalize Double.trunc (bits a) = i at *
  have hlsb : (2 ^ 11 : Int) ∣ i → (BitVec.ofInt 32 i).getLsbD 0 = false := by
    intro h
    rw [lsb_ofInt]
    exact decide_eq_false (by omega)
  by_cases hhigh : 2 ^ 63 ≤ i
  · refine .inr ⟨by rw [← hfits]; omega, hlsb (hdvd (.inl hhigh)), .inl ?_⟩
    have hmax : max (-2 ^ 63) (min (2 ^ 63 - 1) i) = 2 ^ 63 - 1 := by omega
    rw [hmax]
    decide
  · by_cases hlow : i < -2 ^ 63
    · have hmax : max (-2 ^ 63) (min (2 ^ 63 - 1) i) = -2 ^ 63 := by omega
      rw [hmax]
      by_cases hmod : (2 ^ 32 : Int) ∣ i
      · refine .inl ⟨ofInt_eq_iff.mpr (by omega), ?_⟩
        rw [← hfits]
        exact ⟨by omega, .inr hmod⟩
      · refine .inr ⟨by rw [← hfits]; omega, hlsb (hdvd (.inr hlow)), .inr ⟨by decide, fun hzero => ?_⟩⟩
        have hzero' : BitVec.ofInt 32 i = BitVec.ofInt 32 0 := hzero
        rw [ofInt_eq_iff] at hzero'
        omega
    · have hmax : max (-2 ^ 63) (min (2 ^ 63 - 1) i) = i := by omega
      rw [hmax]
      refine .inl ⟨rfl, ?_⟩
      rw [← hfits]
      exact ⟨by omega, .inl (by omega)⟩

theorem int32_eq_iff (ha : Double.isFinite (bits a) = true) :
    int32 a = toInt32 (bits a) ↔ Fits (bits a) := by
  rcases int32_cases hF ha with ⟨heq, hfits⟩ | ⟨hfits, hlsb, hones | ⟨hzero, hne⟩⟩
  · exact iff_of_true heq hfits
  · refine iff_of_false (fun heq => ?_) hfits
    rw [← heq, hones] at hlsb
    exact absurd hlsb (by decide)
  · exact iff_of_false (fun heq => hne (heq.symm.trans hzero)) hfits

/-- A number above the cast is seen next to any other number: the last bits of `and` and `or` would
need both values of its partner's last bit. -/
theorem not_allOnes_of_agree (hb : Double.isFinite (bits b) = true) {t : BitVec 32}
    (ht : t.getLsbD 0 = false)
    (hand : BitVec.allOnes 32 &&& int32 b = t &&& toInt32 (bits b))
    (hor : BitVec.allOnes 32 ||| int32 b = t ||| toInt32 (bits b)) : False := by
  have hand' := congrArg (fun v => v.getLsbD 0) hand
  have hor' := congrArg (fun v => v.getLsbD 0) hor
  simp only [BitVec.getLsbD_and, BitVec.getLsbD_or, BitVec.getLsbD_allOnes, ht, Bool.false_and,
    Bool.false_or, Nat.zero_lt_succ, decide_true, Bool.true_and, Bool.true_or] at hand' hor'
  rcases int32_cases hF hb with ⟨heq, -⟩ | ⟨-, hlsb, -⟩
  · rw [heq, ← hor'] at hand'
    cases hand'
  · rw [hlsb] at hor'
    cases hor'

theorem fits_of_agree (ha : Double.isFinite (bits a) = true) (hb : Double.isFinite (bits b) = true)
    (hand : int32 a &&& int32 b = toInt32 (bits a) &&& toInt32 (bits b))
    (hor : int32 a ||| int32 b = toInt32 (bits a) ||| toInt32 (bits b)) : Fits (bits a) := by
  rcases int32_cases hF ha with ⟨-, hfits⟩ | ⟨-, hlsb, hones | ⟨hzero, hne⟩⟩
  · exact hfits
  · rw [hones] at hand hor
    exact (not_allOnes_of_agree hF hb hlsb hand hor).elim
  · -- some bit of `a` is lost, so `b` has one too many, and is a number above the cast
    obtain ⟨i, hi⟩ : ∃ i, (toInt32 (bits a)).getLsbD i = true := by
      by_contra hnone
      refine hne (BitVec.eq_of_getLsbD_eq fun i _ => ?_)
      rw [BitVec.getLsbD_zero]
      exact Bool.eq_false_iff.mpr fun htrue => hnone ⟨i, htrue⟩
    have hand' := congrArg (fun v => v.getLsbD i) hand
    have hor' := congrArg (fun v => v.getLsbD i) hor
    simp only [BitVec.getLsbD_and, BitVec.getLsbD_or, hzero, BitVec.getLsbD_zero, hi, Bool.false_and,
      Bool.false_or, Bool.true_and, Bool.true_or] at hand' hor'
    rcases int32_cases hF hb with ⟨heq, -⟩ | ⟨-, hlsb', hones | ⟨hzero', -⟩⟩
    · rw [heq, ← hand'] at hor'
      cases hor'
    · rw [BitVec.and_comm, BitVec.and_comm (toInt32 _), hones] at hand
      rw [BitVec.or_comm, BitVec.or_comm (toInt32 _), hones] at hor
      exact (not_allOnes_of_agree hF ha hlsb' hand hor).elim
    · rw [hzero', BitVec.getLsbD_zero] at hor'
      cases hor'

theorem ofInt32_injective {v w : BitVec 32} (h : (ofInt32 v : F) = ofInt32 w) : v = w := by
  have hround : ∀ v : BitVec 32, Double.trunc (bits (ofInt32 v)) = v.toInt := fun v =>
    hF.ofInt v.toInt v.le_toInt v.toInt_lt
  rw [← BitVec.toInt_inj, ← hround v, ← hround w, h]

/-- The five operators follow ToInt32 on two finite numbers exactly when both numbers fit. -/
theorem bitwise_toInt32_iff (ha : Double.isFinite (bits a) = true)
    (hb : Double.isFinite (bits b) = true) :
    (∀ op ∈ bitwiseOps, Op.onNumbers a b op =
      .ok (.number (ofInt32 (op.onInt32 (toInt32 (bits a)) (toInt32 (bits b)))))) ↔
    Fits (bits a) ∧ Fits (bits b) := by
  have hcount : ∀ v : BitVec 32, (v &&& 31#32).toNat = v.toNat % 32 := fun v =>
    Nat.and_two_pow_sub_one_eq_mod v.toNat 5
  refine ⟨fun h => ?_, fun ⟨hfa, hfb⟩ => ?_⟩
  · have hand : int32 a &&& int32 b = toInt32 (bits a) &&& toInt32 (bits b) := by
      have hop := h .bitAnd (by simp [bitwiseOps])
      simp only [Op.onNumbers, Op.onInt32, Except.ok.injEq, Value.number.injEq] at hop
      exact ofInt32_injective hF hop
    have hor : int32 a ||| int32 b = toInt32 (bits a) ||| toInt32 (bits b) := by
      have hop := h .bitOr (by simp [bitwiseOps])
      simp only [Op.onNumbers, Op.onInt32, Except.ok.injEq, Value.number.injEq] at hop
      exact ofInt32_injective hF hop
    refine ⟨fits_of_agree hF ha hb hand hor, fits_of_agree hF hb ha ?_ ?_⟩
    · rw [BitVec.and_comm, hand, BitVec.and_comm]
    · rw [BitVec.or_comm, hor, BitVec.or_comm]
  · rw [← (int32_eq_iff hF ha).mpr hfa, ← (int32_eq_iff hF hb).mpr hfb]
    intro op hop
    simp only [bitwiseOps, List.mem_cons, List.not_mem_nil, or_false] at hop
    rcases hop with rfl | rfl | rfl | rfl | rfl
    · rfl
    · rfl
    · rfl
    · rw [Op.onNumbers, hcount]
      rfl
    · rw [Op.onNumbers, hcount]
      rfl

end

/-! ### Doubles that are whole numbers -/

/-- Doubles, with arithmetic for whole numbers that fit into them. -/
instance : F64 (BitVec 64) where
  ofNat n := Double.ofInt n
  ofInt := Double.ofInt
  add a b := Double.ofInt (Double.trunc a + Double.trunc b)
  sub a b := Double.ofInt (Double.trunc a - Double.trunc b)
  mul a b := Double.ofInt (Double.trunc a * Double.trunc b)
  div a b := Double.ofInt ((Double.trunc a).tdiv (Double.trunc b))
  rem a b := Double.ofInt ((Double.trunc a).tmod (Double.trunc b))
  neg a := Double.ofInt (-Double.trunc a)
  lt := Double.lt
  le a b := Double.lt a b || Double.eq a b
  eq := Double.eq
  isFinite := Double.isFinite
  isWhole a := Double.eq (Double.ofInt (Double.trunc a)) a
  truncI64 := Double.toI64
  toUsize a := (Double.toI64 a).toNat
  isInfinity a := decide (a = 2047#64 <<< 52)
  isNegInfinity a := decide (a = 4095#64 <<< 52)
  display a := toString (Double.trunc a)

theorem casts_double : F64.Casts (F := BitVec 64) id where
  truncI64 _ := rfl
  ofInt i hlow hhigh := Double.trunc_ofInt (by omega)

theorem bitwise_toInt32_small :
    (∀ op ∈ bitwiseOps, Op.onNumbers (Double.ofInt (-5)) (Double.ofInt 33) op =
      .ok (.number (ofInt32 (op.onInt32 (toInt32 (Double.ofInt (-5))) (toInt32 (Double.ofInt 33)))))) ↔
    Fits (Double.ofInt (-5)) ∧ Fits (Double.ofInt 33) :=
  bitwise_toInt32_iff casts_double (a := Double.ofInt (-5)) (b := Double.ofInt 33) (by decide)
    (by decide)

/-- `9223372036854775808 | 0` is `-1`, and ToInt32 gives `0`. -/
theorem bitOr_saturates :
    Double.isFinite 0x43E0000000000000 = true ∧ Double.isFinite 0 = true ∧
      Double.trunc 0x43E0000000000000 = 9223372036854775808 ∧
      Op.onNumbers (0x43E0000000000000 : BitVec 64) 0 .bitOr = .ok (.number (Double.ofInt (-1))) ∧
      Op.onNumbers (0x43E0000000000000 : BitVec 64) 0 .bitOr ≠
        .ok (.number (ofInt32 (Op.onInt32 (toInt32 0x43E0000000000000) (toInt32 0)
          (.bitOr : Op (BitVec 64))))) := by
  have hcode : Op.onNumbers (0x43E0000000000000 : BitVec 64) 0 .bitOr =
      .ok (.number (Double.ofInt (-1))) :=
    congrArg (fun n => Except.ok (Value.number n)) (by decide +kernel)
  refine ⟨by decide, by decide, by decide, hcode, fun heq => ?_⟩
  rw [hcode] at heq
  simp only [Except.ok.injEq, Value.number.injEq] at heq
  revert heq
  decide +kernel

end Deka.Vm
