import Mathlib.Tactic.Ring

/-!
Signed 32-bit arithmetic that stays in range is integer arithmetic.
-/
namespace Cplant
open BitVec

theorem toInt_add_of_range {a b : Int32} (hl : -2 ^ 31 ≤ a.toInt + b.toInt)
    (hu : a.toInt + b.toInt < 2 ^ 31) : (a + b).toInt = a.toInt + b.toInt := by
  rw [Int32.toInt_add]
  exact Int.bmod_eq_of_le (by omega) (by omega)

theorem toInt_sub_of_range {a b : Int32} (hl : -2 ^ 31 ≤ a.toInt - b.toInt)
    (hu : a.toInt - b.toInt < 2 ^ 31) : (a - b).toInt = a.toInt - b.toInt := by
  rw [Int32.toInt_sub]
  exact Int.bmod_eq_of_le (by omega) (by omega)

theorem toInt_range (a : Int32) : -2 ^ 31 ≤ a.toInt ∧ a.toInt < 2 ^ 31 :=
  ⟨Int32.le_toInt a, Int32.toInt_lt a⟩

theorem toNat_toUInt32 {n : Int32} (h : 0 ≤ n) : n.toUInt32.toNat = n.toInt.toNat := by
  have h0 : 0 ≤ n.toInt := by simpa [Int32.le_iff_toInt_le] using h
  have hcond : n.toInt = _ := toInt_eq_toNat_cond n.toBitVec
  change n.toBitVec.toNat = n.toInt.toNat
  split at hcond <;> omega

theorem low_half (x : BitVec 32) {i : ℕ} (hi : i < 2 ^ 16) :
    (BitVec.ofNat 32 i ||| (x &&& ~~~0xFFFF#32)).toNat % 2 ^ 16 = i := by
  have hhigh : 0xFFFF#32 &&& (x &&& ~~~0xFFFF#32) = 0#32 := by
    rw [BitVec.and_comm x, ← BitVec.and_assoc, BitVec.and_not_self]
    exact zero_and
  have hlow : 0xFFFF#32 &&& BitVec.ofNat 32 i = BitVec.ofNat 32 i := by
    apply eq_of_toNat_eq
    rw [toNat_and, Nat.and_comm, toNat_ofNat]
    change i % 2 ^ 32 &&& (2 ^ 16 - 1) = i % 2 ^ 32
    rw [Nat.and_two_pow_sub_one_eq_mod]
    omega
  have hmask : 0xFFFF#32 &&& (BitVec.ofNat 32 i ||| (x &&& ~~~0xFFFF#32)) = BitVec.ofNat 32 i := by
    rw [and_or_distrib_left, hhigh, or_zero, hlow]
  have hnat := congrArg BitVec.toNat hmask
  rw [toNat_and, Nat.and_comm] at hnat
  change _ &&& (2 ^ 16 - 1) = i % 2 ^ 32 at hnat
  rw [Nat.and_two_pow_sub_one_eq_mod] at hnat
  omega

theorem high_half (x : BitVec 32) {i : ℕ} (hi : i < 2 ^ 16) :
    (BitVec.ofNat 32 i ||| (x &&& ~~~0xFFFF#32)).toNat / 2 ^ 16 = x.toNat / 2 ^ 16 := by
  have hlow : BitVec.ofNat 32 i >>> 16 = 0#32 := by
    apply eq_of_toNat_eq
    rw [toNat_ushiftRight, toNat_ofNat, Nat.shiftRight_eq_div_pow]
    exact Nat.div_eq_of_lt (by omega)
  have hmask : (x &&& ~~~0xFFFF#32) >>> 16 = x >>> 16 := by
    rw [ushiftRight_and_distrib]
    apply eq_of_toNat_eq
    change (x >>> 16).toNat &&& (2 ^ 16 - 1) = _
    rw [Nat.and_two_pow_sub_one_eq_mod, toNat_ushiftRight, Nat.shiftRight_eq_div_pow]
    omega
  have hshift := BitVec.ushiftRight_or_distrib (BitVec.ofNat 32 i) (x &&& ~~~0xFFFF#32) 16
  rw [hlow, hmask, zero_or] at hshift
  have hnat := congrArg BitVec.toNat hshift
  rwa [toNat_ushiftRight, toNat_ushiftRight, Nat.shiftRight_eq_div_pow,
    Nat.shiftRight_eq_div_pow] at hnat

theorem toNat_mask_low (x : BitVec 32) : (x &&& 0xFFFF#32).toNat = x.toNat % 2 ^ 16 := by
  exact Nat.and_two_pow_sub_one_eq_mod x.toNat 16

end Cplant
