import Mathlib.Data.Nat.Bitwise

/-!
# Page arithmetic on machine words

Clearing the low `k` bits of a word rounds it down to a multiple of `2 ^ k`.
The sums below are stated on `toNat`, where the carry out of the word is a
condition and not a wrap.
-/

namespace Paging

/-- Masking off the low `k` bits rounds down to a multiple of `2 ^ k`. -/
theorem toNat_and_not_low {w : Nat} (x : BitVec w) (k : Nat) :
    (x &&& ~~~(BitVec.ofNat w (2 ^ k - 1))).toNat = x.toNat / 2 ^ k * 2 ^ k := by
  have hshift : x &&& ~~~(BitVec.ofNat w (2 ^ k - 1)) = (x >>> k) <<< k := by
    apply BitVec.eq_of_getLsbD_eq
    intro i hi
    simp only [BitVec.getLsbD_and, BitVec.getLsbD_not, BitVec.getLsbD_ofNat,
      BitVec.getLsbD_shiftLeft, BitVec.getLsbD_ushiftRight, Nat.testBit_two_pow_sub_one]
    by_cases h : i < k
    · simp [h, hi]
    · simp only [h, hi, decide_false, decide_true, Bool.and_false, Bool.not_false, Bool.and_true,
        Bool.true_and, Nat.add_sub_cancel' (Nat.le_of_not_lt h)]
  have hlt : x.toNat / 2 ^ k * 2 ^ k < 2 ^ w :=
    Nat.lt_of_le_of_lt (Nat.div_mul_le_self _ _) x.isLt
  rw [hshift, BitVec.toNat_shiftLeft, BitVec.toNat_ushiftRight, Nat.shiftRight_eq_div_pow,
    Nat.shiftLeft_eq, Nat.mod_eq_of_lt hlt]

/-- Rounding a word down to a page of `0x1000` bytes. -/
theorem toNat_pageDown (x : BitVec 32) :
    (x &&& ~~~0xFFF#32).toNat = x.toNat / 4096 * 4096 :=
  toNat_and_not_low x 12

/-- The signed reading of a word is not negative exactly below the middle of the range. -/
theorem toInt_nonneg_iff (x : BitVec 32) : 0 ≤ x.toInt ↔ x.toNat < 2 ^ 31 := by
  have hx := x.isLt
  rw [BitVec.toInt_eq_toNat_cond]
  split <;> omega

end Paging
