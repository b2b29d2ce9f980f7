import ConicForm.Proofs.Exact

/-!
# Multiplication by one

Multiplying by one changes no number. In a field this is a law. For machine floats it has to be
read off from how a product is rounded: a number whose exponent is the one that its magnitude asks
for is found again when its mantissa is shifted to the left and back, and all numbers that are
stored are of this form. Zeros keep their signs, infinities theirs, and a NaN stays a NaN.

## Main definitions

* `Scalar.RightUnit`: scalars that multiplication by one does not change
* `MachineFloat.Settled`: numbers that rounding leaves as they are

## Main results

* `MachineFloat.roundWithAccuracy_shifted`: rounding undoes a shift of the mantissa
* `MachineFloat.mul_one`: multiplying a machine float by one does not change it
-/

namespace ConicForm

/-- Scalars that multiplication by one does not change. -/
class Scalar.RightUnit (α : Type) [Scalar α] : Prop where
  mul_one : ∀ x : α, x * 1 = x

instance {K : Type} [Field K] [LinearOrder K] : Scalar.RightUnit K := ⟨MulOneClass.mul_one⟩

/-! ## Machine floats -/

namespace MachineFloat

open Float.Model Float.Model.UnpackedFloat

/-- The exponent that the magnitude of a number asks for is the one it has. -/
def Settled (m : Nat) (e : Int) : Prop := Format.binary64.targetExponent (totalExponent m e) = e

theorem targetExponent_eq (t : Int) : Format.binary64.targetExponent t = max (t - 53) (-1074) := by
  rw [Format.targetExponent]
  rfl

theorem settled_iff {m : Nat} {e : Int} :
    Settled m e ↔ max ((m.log2 : Int) + 1 + e - 53) (-1074) = e := by
  rw [Settled, targetExponent_eq, totalExponent]

/-- A mantissa that was shifted to the left is shifted back without a rest. -/
theorem shiftRight_shifted (m k : Nat) :
    (⟨m * 2 ^ k, false, false⟩ : ExtendedMantissa) >>> k = ⟨m, false, false⟩ := by
  show Nat.repeat ExtendedMantissa.shiftRightOne k _ = _
  induction k generalizing m with
  | zero => simp [Nat.repeat]
  | succ k ih =>
    rw [Nat.repeat, Nat.pow_succ', ← Nat.mul_assoc, ih]
    simp [ExtendedMantissa.shiftRightOne]

theorem log2_mul_two_pow {m : Nat} (hm : m ≠ 0) (k : Nat) : (m * 2 ^ k).log2 = m.log2 + k := by
  induction k with
  | zero => simp
  | succ k ih =>
    have hne : m * 2 ^ k ≠ 0 := Nat.mul_ne_zero hm (Nat.two_pow_pos k).ne'
    rw [Nat.pow_succ', Nat.mul_left_comm, Nat.log2_two_mul hne, ih, Nat.add_assoc]

theorem shiftToTargetExponent_shifted {m : Nat} {e : Int} (k : Nat) (hm : m ≠ 0)
    (h : Settled m e) :
    shiftToTargetExponent Format.binary64 (m * 2 ^ k) (e - k) .exact = (⟨m, false, false⟩, e) := by
  have htotal : totalExponent (m * 2 ^ k) (e - k) = totalExponent m e := by
    rw [totalExponent, totalExponent, log2_mul_two_pow hm]
    omega
  have hshift : (e - (e - k)).toNat = k := by omega
  rw [shiftToTargetExponent]
  simp only [htotal, show Format.binary64.targetExponent (totalExponent m e) = e from h,
    shiftToExponent, hshift]
  exact Prod.ext (shiftRight_shifted m k) (by simp)

/-- **Rounding undoes a shift of the mantissa.** -/
theorem roundWithAccuracy_shifted (s : Sign) {m : Nat} {e : Int} (k : Nat) (hm : 0 < m)
    (h : Settled m e) :
    roundWithAccuracy Format.binary64 s (m * 2 ^ k) (e - k) .exact = .finite s m e hm := by
  have hfirst := shiftToTargetExponent_shifted k hm.ne' h
  -- what is rounded is settled already, so that nothing is left to shift
  have hsecond := shiftToTargetExponent_shifted 0 hm.ne' h
  simp only [Nat.pow_zero, Nat.mul_one, Nat.cast_zero, sub_zero] at hsecond
  have hrounded : (⟨m, false, false⟩ : ExtendedMantissa).roundedMantissa = m := rfl
  unfold roundWithAccuracy
  simp only [hfirst, hrounded, hsecond, hm.ne', dite_false]

/-! ### Numbers that are stored -/

theorem exponentBias_eq : Format.binary64.exponentBias = 1023 := by decide

theorem log2_implicit (b : BitVec 52) : (1#1 ++ b).toNat.log2 = 52 := by
  have hb : b.toNat < 2 ^ 52 := b.isLt
  have happend : (1#1 ++ b).toNat = 2 ^ 52 + b.toNat := by
    rw [BitVec.toNat_append, ← Nat.shiftLeft_add_eq_or_of_lt b.isLt]
    rfl
  rw [happend, Nat.log2_eq_iff (by omega)]
  omega

/-- Numbers that are stored are settled. -/
theorem settled_of_unpack {b : BitVec Format.binary64.numBits} {s : Sign} {m : Nat} {e : Int}
    {hm : 0 < m} (h : UnpackedFloat.unpack Format.binary64 b = .finite s m e hm) :
    Settled m e := by
  rw [settled_iff]
  unfold UnpackedFloat.unpack at h
  simp only [exponentBias_eq] at h
  split at h
  · split at h <;> cases h
  · split at h
    · next hzero =>
      split at h
      · cases h
      · obtain ⟨-, rfl, rfl⟩ := UnpackedFloat.finite.inj h
        have hlt : (unpackMantissa b).toNat < 2 ^ 52 := (unpackMantissa b).isLt
        have hlog := (Nat.log2_lt hm.ne').mpr hlt
        rw [hzero, show (0#11 : BitVec 11).toNat = 0 from rfl]
        omega
    · next hne =>
      obtain ⟨-, rfl, rfl⟩ := UnpackedFloat.finite.inj h
      have hpos : (unpackExponent b).toNat ≠ 0 := fun h0 => hne (BitVec.eq_of_toNat_eq h0)
      rw [log2_implicit]
      omega

theorem unpack_one : (1 : Float).toModel.unpack = .finite .positive (2 ^ 52) (-52) (by decide) :=
  rfl

theorem mul_positive (s : Sign) : s * .positive = s := by cases s <;> rfl

/-- A number that is stored is the rounded product of itself with one. -/
theorem mul_unpack_one (x : Float.Model) :
    UnpackedFloat.mul Format.binary64 x.unpack (1 : Float).toModel.unpack = x.unpack := by
  rw [unpack_one]
  cases h : x.unpack with
  | notANumber => rfl
  | infinity s => exact congrArg UnpackedFloat.infinity (mul_positive s)
  | zero s => exact congrArg UnpackedFloat.zero (mul_positive s)
  | finite s m e hm =>
    show roundWithAccuracy Format.binary64 (s * .positive) (m * 2 ^ 52) (e + -52) .exact = _
    rw [mul_positive]
    exact roundWithAccuracy_shifted s 52 hm (settled_of_unpack h)

/-- **Multiplying a machine float by one does not change it.** -/
theorem mul_one (x : Float) : x * 1 = x := by
  have hpack : Float.Model.pack x.toModel.unpack = x.toModel := by
    simp only [Float.Model.pack, Float.Model.unpack, pack_unpack_of_valid x.toModel.valid]
  show Float.ofModel (Float.Model.pack (UnpackedFloat.mul _ x.toModel.unpack _)) = x
  rw [mul_unpack_one, hpack]

end MachineFloat

instance : Scalar.RightUnit Float := ⟨MachineFloat.mul_one⟩

end ConicForm
