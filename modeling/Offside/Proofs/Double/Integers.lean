import Mathlib.Data.Int.Bitwise
import Offside.Proofs.Double.Words

/-!
# Words as integers

A word read with its sign is an integer whose binary digits, from some place on all the same, are
those of the word (`testBit_toInt`). So what is done to words place by place is done to the integers
(`toInt_and` and those beside it), and shifts are multiplication and division by powers of two.

Integers of this size are doubles, and come back from them: `Exact i` says so, and holds of every
word (`exact_toInt`).
-/

namespace Offside.Double

/-! ## Binary digits -/

section digits

variable (v w : BitVec 32)

theorem eq_of_testBit_eq {i j : ℤ} (h : ∀ k, i.testBit k = j.testBit k) : i = j := by
  -- Far out, the digits tell the sign.
  have hsign : ∀ m n : ℕ, ∃ k, m.testBit k = false ∧ n.testBit k = false := fun m n =>
    ⟨max m n, Nat.testBit_lt_two_pow ((le_max_left m n).trans_lt Nat.lt_two_pow_self),
      Nat.testBit_lt_two_pow ((le_max_right m n).trans_lt Nat.lt_two_pow_self)⟩
  cases i with
  | ofNat m =>
    cases j with
    | ofNat n => exact congrArg Int.ofNat (Nat.eq_of_testBit_eq h)
    | negSucc n =>
      obtain ⟨k, hm, hn⟩ := hsign m n
      have hk := h k
      simp [Int.testBit, hm, hn] at hk
  | negSucc m =>
    cases j with
    | ofNat n =>
      obtain ⟨k, hm, hn⟩ := hsign m n
      have hk := h k
      simp [Int.testBit, hm, hn] at hk
    | negSucc n =>
      refine congrArg Int.negSucc (Nat.eq_of_testBit_eq fun k => ?_)
      simpa [Int.testBit] using h k

theorem testBit_toInt (k : ℕ) : w.toInt.testBit k = if k < 32 then w.getLsbD k else w.msb := by
  have hw := w.isLt
  rw [BitVec.toInt_eq_msb_cond]
  cases hmsb : w.msb with
  | false =>
    rw [if_neg Bool.false_ne_true]
    show w.toNat.testBit k = _
    split_ifs with hk
    · rfl
    · exact Nat.testBit_lt_two_pow (hw.trans_le (Nat.pow_le_pow_right (by decide) (by omega)))
  | true =>
    have hneg : (w.toNat : ℤ) - 2 ^ 32 = Int.negSucc (2 ^ 32 - (w.toNat + 1)) := by omega
    rw [if_pos rfl, Nat.cast_pow, Nat.cast_ofNat, hneg]
    show (!(2 ^ 32 - (w.toNat + 1)).testBit k) = _
    rw [Nat.testBit_two_pow_sub_succ hw]
    split_ifs with hk
    · simp [hk, BitVec.getLsbD]
    · simp [hk]

theorem toInt_and : (v &&& w).toInt = Int.land v.toInt w.toInt := by
  refine eq_of_testBit_eq fun k => ?_
  rw [Int.testBit_land, testBit_toInt, testBit_toInt, testBit_toInt]
  split_ifs
  · exact BitVec.getLsbD_and
  · exact BitVec.msb_and

theorem toInt_or : (v ||| w).toInt = Int.lor v.toInt w.toInt := by
  refine eq_of_testBit_eq fun k => ?_
  rw [Int.testBit_lor, testBit_toInt, testBit_toInt, testBit_toInt]
  split_ifs
  · exact BitVec.getLsbD_or
  · exact BitVec.msb_or

theorem toInt_xor : (v ^^^ w).toInt = Int.xor v.toInt w.toInt := by
  refine eq_of_testBit_eq fun k => ?_
  rw [Int.testBit_lxor, testBit_toInt, testBit_toInt, testBit_toInt]
  split_ifs
  · exact BitVec.getLsbD_xor
  · exact BitVec.msb_xor

theorem toInt_not : (~~~w).toInt = Int.lnot w.toInt := by
  refine eq_of_testBit_eq fun k => ?_
  rw [Int.testBit_lnot, testBit_toInt, testBit_toInt]
  split_ifs with hk
  · rw [BitVec.getLsbD_not, decide_eq_true hk, Bool.true_and]
  · rw [BitVec.msb_not, decide_eq_true (by decide), Bool.true_and]

theorem toInt_shiftLeft (k : ℕ) : (w <<< k).toInt = (w.toInt * 2 ^ k).bmod (2 ^ 32) := by
  rw [BitVec.toInt_shiftLeft, BitVec.toInt_eq_toNat_bmod w, Nat.shiftLeft_eq, Int.bmod_mul_bmod,
    Nat.cast_mul, Nat.cast_pow, Nat.cast_ofNat]

theorem toInt_shiftRight (k : ℕ) : (w.sshiftRight k).toInt = w.toInt / 2 ^ k := by
  rw [BitVec.toInt_sshiftRight, Int.shiftRight_eq_div_pow, Nat.cast_pow, Nat.cast_ofNat]

end digits

/-! ## Integers as doubles -/

/-- An integer that fits into a word is a double, and has the same integer. -/
structure Exact (i : ℤ) : Prop where
  lower : -2 ^ 31 ≤ i
  upper : i < 2 ^ 31
  value : value? (ofInt i).toBits = some (i : ℚ)
  back : (toWord (ofInt i)).toInt = i

theorem whole_ofInt {i : ℤ} (hi : i.natAbs < 2 ^ 53) :
    Whole (ofInt i) (decide (i < 0)) i.natAbs :=
  whole_ofCode hi _

theorem integerPart_of_whole {x : Float} {negative : Bool} {n : ℕ} (h : Whole x negative n) :
    integerPart x = if negative then -(n : ℤ) else n := by
  have hunit : 0 < unit := by decide
  rw [integerPart, h.sign, h.magnitude, Nat.mul_div_cancel n hunit]

theorem value?_of_whole {x : Float} {negative : Bool} {n : ℕ} (h : Whole x negative n) :
    value? x.toBits = some ((if negative then -(n : ℤ) else n : ℤ) : ℚ) := by
  have hunit : (unit : ℚ) ≠ 0 := by
    rw [unit_eq]
    positivity
  have hsign : 2 ^ 63 ≤ x.toBits.toNat ↔ negative = true := by
    rw [← h.sign, isNegative, signPlace_eq, decide_eq_true_iff]
  have hquanta : quanta (x.toBits.toNat % signPlace) = n * unit := h.magnitude
  rw [value?_eq_some _ h.finite, hquanta, Nat.cast_mul, mul_div_cancel_right₀ _ hunit,
    if_congr hsign rfl rfl]
  cases negative <;> simp

theorem exact_of_lt {i : ℤ} (hlower : -2 ^ 31 ≤ i) (hupper : i < 2 ^ 31) : Exact i where
  lower := hlower
  upper := hupper
  value := by
    rw [value?_of_whole (whole_ofInt (by omega))]
    congr 2
    simp only [decide_eq_true_eq]
    split_ifs <;> omega
  back := by
    have hwhole := whole_ofInt (i := i) (by omega)
    have hword := toNat_toWord hwhole.finite
    rw [integerPart_of_whole hwhole] at hword
    simp only [decide_eq_true_eq] at hword
    rw [BitVec.toInt_eq_toNat_cond, hword]
    split_ifs at hword ⊢ <;> omega

/-- **Words are exact as doubles.** -/
theorem exact_toInt (w : BitVec 32) : Exact w.toInt :=
  exact_of_lt (BitVec.le_toInt w) BitVec.toInt_lt

theorem toWord_ofWord (w : BitVec 32) : toWord (ofWord w) = w :=
  BitVec.eq_of_toInt_eq (exact_toInt w).back

end Offside.Double
