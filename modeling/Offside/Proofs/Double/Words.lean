import Mathlib.Algebra.Order.Floor.Semifield
import Mathlib.Data.Int.ModEq
import Mathlib.Data.Rat.Floor
import Offside.Proofs.Double.Whole

/-!
# The word of a double

Of a finite double the integer part is taken and then its remainder by `2 ^ 32`, all on doubles; no
step of it rounds, so the word is congruent to the integer part modulo `2 ^ 32`
(`toNat_toWord`). The main statement puts this in terms of the bits alone: `value?` is the rational
number that 64 bits stand for, and the word read without and with a sign is the one number in each
range that is congruent to this rational cut toward zero.
-/

namespace Offside.Double

open Float.Model Float.Model.UnpackedFloat

/-! ## The integer part -/

/-- What stands in front of the point, with its sign. -/
def integerPart (x : Float) : ℤ :=
  if isNegative x then -(quanta (code x) / unit : ℕ) else (quanta (code x) / unit : ℕ)

theorem whole_wordCount : Whole wordCount false 4294967296 :=
  whole_ofCode (by norm_num) false

theorem toUInt32_euclidean {x : Float} {negative : Bool} {n : ℕ} (h : Whole x negative n) :
    ((euclidean x wordCount).toUInt32.toNat : ℤ) =
      (if negative then -(n : ℤ) else n) % 2 ^ 32 := by
  have hr := h.remainder whole_wordCount (by decide) (by decide)
  rw [euclidean]
  by_cases hneg : negative = true ∧ n % 4294967296 ≠ 0
  · obtain ⟨rfl, hn⟩ := hneg
    have hsum := hr.add whole_wordCount.abs hn (Nat.mod_lt _ (by decide)) (by decide)
    rw [if_pos (hr.lt_zero_iff.mpr ⟨rfl, hn⟩), if_pos rfl, hsum.toUInt32 (by omega) (by simp)]
    omega
  · rw [if_neg (mt hr.lt_zero_iff.mp hneg), hr.toUInt32 (by omega) (by tauto)]
    cases negative with
    | true =>
      have hn : n % 4294967296 = 0 := by simpa using hneg
      rw [if_pos rfl]
      omega
    | false =>
      rw [if_neg Bool.false_ne_true]
      omega

/-- **The word of a finite double** is congruent to its integer part. -/
theorem toNat_toWord {x : Float} (hx : code x < infinityCode) :
    ((toWord x).toNat : ℤ) = integerPart x % 2 ^ 32 := by
  rw [toWord, isFinite, decide_eq_true hx, if_pos rfl]
  exact toUInt32_euclidean (whole_truncate hx)

theorem toWord_of_not_finite {x : Float} (hx : infinityCode ≤ code x) : toWord x = 0 := by
  rw [toWord, isFinite, decide_eq_false (Nat.not_lt.mpr hx), if_neg Bool.false_ne_true]

/-! ## Bits -/

section bits

variable (b : UInt64)

theorem ofBits_eq_ofCode :
    Float.ofBits b = ofCode (decide (signPlace ≤ b.toNat)) (b.toNat % signPlace) := by
  have hb := b.toNat_lt
  rw [ofCode]
  congr 1
  rw [← UInt64.toNat_inj, UInt64.toNat_ofNat', signPlace_eq]
  simp only [decide_eq_true_eq]
  split <;> omega

theorem infinityCode_lt_code_ofBits (h : infinityCode < b.toNat % signPlace) :
    infinityCode < code (Float.ofBits b) := by
  have hnan : Float.ofBits b = .ofModel (Float.Model.pack .notANumber) := by
    show Float.ofModel (Float.Model.pack (UnpackedFloat.unpack Format.binary64 b.toBitVec)) = _
    rw [unpack_eq, show b.toBitVec.toNat = b.toNat from rfl, unpacked, dif_neg (by omega),
      if_neg (Nat.not_lt.mpr h.le), if_neg h.ne']
  rw [hnan]
  decide

/-- The number that 64 bits stand for: a sign, eleven bits of exponent, and a fraction. If the
exponent has all its bits set, they stand for an infinity or a NaN. -/
def value? : Option ℚ :=
  let sign : ℚ := if 2 ^ 63 ≤ b.toNat then -1 else 1
  let exponent : ℕ := b.toNat / 2 ^ 52 % 2 ^ 11
  let fraction : ℕ := b.toNat % 2 ^ 52
  if exponent = 2047 then none
  else if exponent = 0 then some (sign * (fraction * 2 ^ (-1074 : ℤ)))
  else some (sign * ((2 ^ 52 + fraction) * 2 ^ ((exponent : ℤ) - 1075)))

/-- A rational number without what stands behind its point. -/
def towardZero (q : ℚ) : ℤ := if 0 ≤ q then ⌊q⌋ else ⌈q⌉

theorem value?_eq_none (h : infinityCode ≤ b.toNat % signPlace) : value? b = none := by
  have hb := b.toNat_lt
  rw [infinityCode_eq, signPlace_eq] at h
  rw [value?, if_pos (by omega)]

theorem value?_eq_some (h : b.toNat % signPlace < infinityCode) :
    value? b = some ((if 2 ^ 63 ≤ b.toNat then -1 else 1) *
      ((quanta (b.toNat % signPlace) : ℚ) / unit)) := by
  have hunit : (unit : ℚ) = 2 ^ (1074 : ℤ) := by
    rw [unit_eq, Nat.cast_pow, Nat.cast_ofNat, ← zpow_natCast, Nat.cast_ofNat]
  have hexponent : b.toNat / 2 ^ 52 % 2 ^ 11 = b.toNat % signPlace / 2 ^ 52 := by
    rw [signPlace_eq]
    omega
  have hfraction : b.toNat % 2 ^ 52 = b.toNat % signPlace % 2 ^ 52 := by
    rw [signPlace_eq]
    omega
  rw [value?, hexponent, hfraction, hunit, quanta_eq]
  rw [infinityCode_eq] at h
  generalize b.toNat % signPlace = c at h
  rw [if_neg (by omega)]
  by_cases hfirst : c / 2 ^ 52 = 0
  · have hd : doublings c = 0 := by
      rw [doublings, fractionCount_eq]
      omega
    have hm : mantissa c = c % 2 ^ 52 := by
      rw [mantissa, hd]
      omega
    rw [if_pos hfirst, hd, hm, pow_zero, Nat.mul_one, zpow_neg, div_eq_mul_inv]
  · obtain ⟨d, hd⟩ : ∃ d, c / 2 ^ 52 = d + 1 := ⟨c / 2 ^ 52 - 1, by omega⟩
    have hdoublings : doublings c = d := by
      rw [doublings, fractionCount_eq]
      omega
    have hm : mantissa c = 2 ^ 52 + c % 2 ^ 52 := by
      rw [mantissa, hdoublings, fractionCount_eq]
      omega
    have hpow : (2 : ℚ) ^ (((d + 1 : ℕ) : ℤ) - 1075) = 2 ^ d / 2 ^ (1074 : ℤ) := by
      rw [← zpow_natCast, ← zpow_sub₀ two_ne_zero]
      exact congrArg _ (by omega)
    rw [if_neg hfirst, hd, hpow, hdoublings, hm, Nat.cast_mul, Nat.cast_add, Nat.cast_pow,
      Nat.cast_pow, Nat.cast_ofNat, mul_div_assoc]

theorem towardZero_neg (q : ℚ) : towardZero (-q) = -towardZero q := by
  unfold towardZero
  rcases lt_trichotomy q 0 with hq | rfl | hq
  · rw [if_pos (by linarith), if_neg (not_le.mpr hq), Int.floor_neg]
  · rfl
  · rw [if_neg (by linarith), if_pos hq.le, Int.ceil_neg]

theorem towardZero_div (n d : ℕ) : towardZero ((n : ℚ) / d) = (n / d : ℕ) := by
  rw [towardZero, if_pos (by positivity), ← Int.natCast_floor_eq_floor (by positivity),
    Nat.floor_div_eq_div]

/-- The integer part of a finite double is its value cut toward zero. -/
theorem exists_value?_eq_some (h : b.toNat % signPlace < infinityCode) :
    code (Float.ofBits b) < infinityCode ∧
      ∃ q, value? b = some q ∧ integerPart (Float.ofBits b) = towardZero q := by
  have hcode : code (Float.ofBits b) = b.toNat % signPlace := by
    rw [ofBits_eq_ofCode, code_ofCode h.le]
  have hsign : isNegative (Float.ofBits b) = decide (2 ^ 63 ≤ b.toNat) := by
    rw [ofBits_eq_ofCode, isNegative_ofCode h.le, signPlace_eq]
  refine ⟨hcode.trans_lt h, _, value?_eq_some b h, ?_⟩
  rw [integerPart, hsign, hcode]
  by_cases hb : 2 ^ 63 ≤ b.toNat
  · rw [decide_eq_true hb, if_pos rfl, if_pos hb, neg_one_mul, towardZero_neg, towardZero_div]
  · rw [decide_eq_false hb, if_neg Bool.false_ne_true, if_neg hb, one_mul, towardZero_div]

end bits

/-! ## Words -/

/-- **Words of doubles.** An infinity and a NaN have the word zero. Every other 64 bits have the
word that, read without a sign and with one, is congruent to their value cut toward zero. -/
theorem toWord_ofBits (b : UInt64) :
    (value? b = none → (toWord (.ofBits b)).toNat = 0 ∧ (toWord (.ofBits b)).toInt = 0) ∧
    ∀ q : ℚ, value? b = some q →
      (∀ u : ℤ, u = (toWord (.ofBits b)).toNat ↔
        0 ≤ u ∧ u < 2 ^ 32 ∧ u ≡ towardZero q [ZMOD 2 ^ 32]) ∧
      ∀ i : ℤ, i = (toWord (.ofBits b)).toInt ↔
        -2 ^ 31 ≤ i ∧ i < 2 ^ 31 ∧ i ≡ towardZero q [ZMOD 2 ^ 32] := by
  rcases Nat.lt_or_ge (b.toNat % signPlace) infinityCode with hfinite | hinfinite
  · obtain ⟨hcode, q, hq, hpart⟩ := exists_value?_eq_some b hfinite
    refine ⟨fun hnone => absurd (hq.symm.trans hnone) (Option.some_ne_none q), fun q' hq' => ?_⟩
    obtain rfl : q = q' := Option.some.inj (hq.symm.trans hq')
    have hword := toNat_toWord hcode
    rw [hpart] at hword
    constructor
    · intro u
      rw [hword, Int.ModEq]
      omega
    · intro i
      rw [BitVec.toInt_eq_toNat_cond, hword, Int.ModEq]
      omega
  · have hzero : toWord (.ofBits b) = 0 := by
      apply toWord_of_not_finite
      rcases Nat.lt_or_eq_of_le hinfinite with hnan | hinf
      · exact (infinityCode_lt_code_ofBits b hnan).le
      · rw [ofBits_eq_ofCode, code_ofCode hinf.ge]
        exact hinfinite
    rw [hzero, value?_eq_none b hinfinite]
    exact ⟨fun _ => ⟨rfl, rfl⟩, fun q hq => absurd hq (Option.some_ne_none q).symm⟩

/-- Minus one and a half is the word of all ones, and infinity has the word zero. -/
theorem toWord_ofBits_minus :
    (toWord (.ofBits 0xBFF8000000000000)).toInt = -1 ∧
      (toWord (.ofBits 0x7FF0000000000000)).toNat = 0 := by
  have hbits : (0xBFF8000000000000 : UInt64).toNat = 0xBFF8000000000000 := rfl
  have hvalue : value? 0xBFF8000000000000 = some (-3 / 2) := by
    rw [value?, hbits]
    norm_num
  have hcut : towardZero (-3 / 2) = -1 := by
    norm_num [towardZero]
  have hword := ((toWord_ofBits 0xBFF8000000000000).2 _ hvalue).2 (-1)
  rw [hcut] at hword
  exact ⟨(hword.mpr ⟨by decide, by decide, rfl⟩).symm,
    ((toWord_ofBits 0x7FF0000000000000).1 (by decide)).1⟩

end Offside.Double
