import Mathlib.Data.BitVec
import Mathlib.Tactic.Ring

/-!
Rounding machine words down to a power of two by a mask, and the bit tests and
field extractions that go with it. Every fact is stated on the natural number
a word denotes, so that users can continue with linear arithmetic.
-/
namespace ClosureOS.WordAlign

/-- The mask that keeps bit k and the bits above it. -/
def highMask (w k : ℕ) : BitVec w := ~~~(BitVec.ofNat w (2 ^ k - 1))

theorem getLsbD_highMask {w k i : ℕ} (hi : i < w) :
    (highMask w k).getLsbD i = decide (k ≤ i) := by
  simp only [highMask, BitVec.getLsbD_not, BitVec.getLsbD_ofNat, hi, decide_true,
    Bool.true_and, Nat.testBit_two_pow_sub_one]
  by_cases hk : k ≤ i
  · simp [hk, Nat.not_lt.mpr hk]
  · simp [hk, Nat.not_le.mp hk]

theorem div_mul_le_toNat {w : ℕ} (x : BitVec w) (n : ℕ) : x.toNat / n * n < 2 ^ w :=
  (Nat.div_mul_le_self _ _).trans_lt x.isLt

/-- Masking rounds down to a multiple of 2^k. -/
theorem toNat_and_highMask {w : ℕ} (x : BitVec w) (k : ℕ) :
    (x &&& highMask w k).toNat = x.toNat / 2 ^ k * 2 ^ k := by
  have heq : x &&& highMask w k = BitVec.ofNat w (x.toNat / 2 ^ k * 2 ^ k) := by
    apply BitVec.eq_of_getLsbD_eq
    intro i hi
    rw [BitVec.getLsbD_and, getLsbD_highMask hi, BitVec.getLsbD_ofNat]
    simp only [hi, decide_true, Bool.true_and, Nat.testBit_mul_two_pow, Nat.testBit_div_two_pow]
    by_cases hk : k ≤ i
    · simp [hk, BitVec.getLsbD, Nat.sub_add_cancel hk]
    · simp [hk]
  rw [heq, BitVec.toNat_ofNat, Nat.mod_eq_of_lt (div_mul_le_toNat x _)]

/-- A low mask takes the remainder. -/
theorem toNat_and_lowMask {w k : ℕ} (x : BitVec w) (hk : k ≤ w) :
    (x &&& BitVec.ofNat w (2 ^ k - 1)).toNat = x.toNat % 2 ^ k := by
  have hlt : 2 ^ k - 1 < 2 ^ w :=
    (Nat.sub_lt (Nat.two_pow_pos k) Nat.one_pos).trans_le (Nat.pow_le_pow_right (by omega) hk)
  rw [BitVec.toNat_and, BitVec.toNat_ofNat, Nat.mod_eq_of_lt hlt, Nat.and_two_pow_sub_one_eq_mod]

/-- Or-ing low bits into a multiple of 2^k adds them. -/
theorem toNat_or_of_dvd {w k : ℕ} (x y : BitVec w) (hx : 2 ^ k ∣ x.toNat) (hy : y.toNat < 2 ^ k) :
    (x ||| y).toNat = x.toNat + y.toNat := by
  obtain ⟨m, hm⟩ := hx
  rw [BitVec.toNat_or, hm, Nat.two_pow_add_eq_or_of_lt hy]

end ClosureOS.WordAlign
