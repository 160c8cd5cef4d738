import Offside.Proofs.Double.Bits
import Offside.Double.Word

/-!
# Whole numbers among the doubles

A number of quanta is the magnitude of a double if it is a multiple `n * 2 ^ j` with `n` below
`2 ^ 53` (`exists_quanta_eq`), and then it is not rounded, neither by `nearest` (`nearest_quanta`)
nor by the sum of two doubles (`round_eq`). `Whole x negative n` says that `x` is the whole number
`n` with a sign in front. The integer part of a double is whole, and as long as they are small, so
are remainders and sums of whole numbers, without rounding.
-/

namespace Offside.Double

open Float.Model Float.Model.UnpackedFloat

theorem unit_eq : unit = 2 ^ 1074 := by decide +kernel

/-! ## Magnitudes of doubles -/

section magnitudes

variable {c : Nat}

theorem quanta_pos (h : c ≠ 0) : 0 < quanta c := by
  rw [quanta_eq]
  exact Nat.mul_pos (mantissa_pos h) (by positivity)

theorem quanta_eq_zero_iff : quanta c = 0 ↔ c = 0 := by
  constructor
  · intro h
    by_contra hc
    exact (quanta_pos hc).ne' h
  · rintro rfl
    rfl

theorem nearest_quanta (hc : c < infinityCode) : nearest (quanta c) 1 = c := by
  refine RoundsTo.nearest_eq ⟨?_, ?_, ?_⟩ hc Nat.one_pos
  · have hle : quanta (c - 1) ≤ quanta c := by
      cases c with
      | zero => exact le_rfl
      | succ b => exact (quanta_lt_succ b).le
    rw [lowerBound]
    omega
  · have hlt := quanta_lt_succ c
    rw [upperBound]
    omega
  · intro hodd
    obtain ⟨b, rfl⟩ : ∃ b, c = b + 1 := ⟨c - 1, by omega⟩
    have hbelow := quanta_lt_succ b
    have habove := quanta_lt_succ (b + 1)
    rw [lowerBound, upperBound, Nat.add_sub_cancel]
    omega

theorem quanta_mul_add {d m : Nat} (hscale : d = 0 ∨ 2 ^ 52 ≤ m) (hm : m < 2 ^ 53) :
    quanta (d * 2 ^ 52 + m) = m * 2 ^ d := by
  have hd : doublings (d * 2 ^ 52 + m) = d := by
    unfold doublings
    rw [fractionCount_eq]
    omega
  rw [quanta_eq, mantissa, hd, fractionCount_eq, Nat.add_sub_cancel_left]

/-- Every number with at most 53 digits between its first and its last one is a magnitude. -/
theorem exists_quanta_eq {n j : Nat} (hn : n < 2 ^ 53) (hj : j ≤ 2045) :
    ∃ c < infinityCode, quanta c = n * 2 ^ j := by
  rw [infinityCode_eq]
  induction j generalizing n with
  | zero =>
    refine ⟨n, by omega, ?_⟩
    have h := quanta_mul_add (.inl rfl) hn
    rwa [Nat.zero_mul, Nat.zero_add] at h
  | succ j ih =>
    by_cases hsmall : n < 2 ^ 52
    · -- the scale is not reached yet: the number is doubled instead
      obtain ⟨c, hc, hq⟩ := ih (n := n * 2) (by omega) (by omega)
      exact ⟨c, hc, by rw [hq, pow_succ']; ring⟩
    · exact ⟨(j + 1) * 2 ^ 52 + n, by omega, quanta_mul_add (.inr (by omega)) hn⟩

end magnitudes

/-! ## Exact rounding -/

section rounding

variable {c m k : Nat}

theorem log2_mul_two_pow (hm : m ≠ 0) (k : Nat) : (m * 2 ^ k).log2 = m.log2 + k := by
  rw [Nat.log2_eq_iff (by positivity)]
  have hlow := Nat.log2_self_le hm
  have hhigh := Nat.lt_log2_self (n := m)
  constructor
  · rw [pow_add]
    exact Nat.mul_le_mul_right _ hlow
  · calc m * 2 ^ k < 2 ^ (m.log2 + 1) * 2 ^ k := Nat.mul_lt_mul_of_pos_right hhigh (by positivity)
      _ = 2 ^ (m.log2 + k + 1) := by ring

theorem ne_zero_of_mul_eq (hc : c ≠ 0) (h : m * 2 ^ k = quanta c) : m ≠ 0 := by
  rintro rfl
  rw [Nat.zero_mul] at h
  exact (quanta_pos hc).ne h

theorem targetExponent_eq (hc : c ≠ 0) (h : m * 2 ^ k = quanta c) :
    Format.binary64.targetExponent (totalExponent m (k - 1074)) = doublings c - 1074 := by
  have hm0 := (mantissa_pos hc).ne'
  have hlog : m.log2 + k = (mantissa c).log2 + doublings c := by
    rw [← log2_mul_two_pow (ne_zero_of_mul_eq hc h), ← log2_mul_two_pow hm0, h, quanta_eq]
  have hlt : (mantissa c).log2 < 53 := by
    have hm := mantissa_lt c
    rw [fractionCount_eq] at hm
    exact (Nat.log2_lt hm0).mpr (by omega)
  have hfull : 0 < doublings c → 52 ≤ (mantissa c).log2 := fun hd =>
    (Nat.le_log2 hm0).mpr (fractionCount_eq ▸ le_mantissa hd)
  have hbits : (Format.binary64.mantissaBits : Int) = 53 := rfl
  have hmin : Format.binary64.minExponent = -1074 := rfl
  rw [Format.targetExponent, totalExponent, hbits, hmin]
  omega

theorem shiftRight_mul_two_pow (m j : Nat) :
    (⟨m * 2 ^ j, false, false⟩ : ExtendedMantissa) >>> j = ⟨m, false, false⟩ := by
  induction j generalizing m with
  | zero => simp [HShiftRight.hShiftRight, Nat.repeat]
  | succ j ih =>
    show ((⟨m * 2 ^ (j + 1), false, false⟩ : ExtendedMantissa) >>> j).shiftRightOne = _
    rw [pow_succ', ← Nat.mul_assoc, ih]
    simp [ExtendedMantissa.shiftRightOne]

theorem mantissa_shiftRight (em : ExtendedMantissa) (j : Nat) :
    (em >>> j).mantissa = em.mantissa / 2 ^ j := by
  induction j with
  | zero => simp [HShiftRight.hShiftRight, Nat.repeat]
  | succ j ih =>
    show (em >>> j).mantissa / 2 = _
    rw [ih, Nat.div_div_eq_div_mul, pow_succ]

theorem shiftToTargetExponent_eq (hc : c ≠ 0) (h : m * 2 ^ k = quanta c) (hk : k ≤ doublings c) :
    shiftToTargetExponent Format.binary64 m (k - 1074) .exact =
      (⟨mantissa c, false, false⟩, (doublings c : Int) - 1074) := by
  have hshift : ((doublings c : Int) - 1074 - (k - 1074)).toNat = doublings c - k := by omega
  have hm : m = mantissa c * 2 ^ (doublings c - k) := by
    rw [quanta_eq] at h
    refine Nat.eq_of_mul_eq_mul_right (by positivity : 0 < 2 ^ k) (h.trans ?_)
    rw [Nat.mul_assoc, ← pow_add, Nat.sub_add_cancel hk]
  rw [shiftToTargetExponent, targetExponent_eq hc h, shiftToExponent, hshift,
    ExtendedMantissa.ofMantissaAndAccuracy, hm, shiftRight_mul_two_pow]
  congr 1
  omega

/-- A magnitude of a double is not rounded, however it is given. -/
theorem round_eq {negative : Bool} (hc : c ≠ 0) (hfinite : c < infinityCode)
    (h : m * 2 ^ k = quanta c) :
    round Format.binary64 (signOf negative) m (k - 1074) = unpacked negative c := by
  -- first the exponent is brought down to that of the double, if it is above
  obtain ⟨i, hi⟩ : ∃ i, i = ((k : Int) - 1074 - (doublings c - 1074)).toNat := ⟨_, rfl⟩
  have hik : i ≤ k := by omega
  have hle : k - i ≤ doublings c := by omega
  have hexponent : (k : Int) - 1074 - i = (k - i : Nat) - 1074 := by omega
  have hmul : m <<< i * 2 ^ (k - i) = quanta c := by
    rw [Nat.shiftLeft_eq, Nat.mul_assoc, ← pow_add, Nat.add_sub_cancel' hik, h]
  have hrounded : (⟨mantissa c, false, false⟩ : ExtendedMantissa).roundedMantissa = mantissa c :=
    rfl
  rw [UnpackedFloat.round, targetExponent_eq hc h, decreaseExponent, ← hi, hexponent]
  simp only [roundWithAccuracy, shiftToTargetExponent_eq hc hmul hle, hrounded,
    shiftToTargetExponent_eq hc (quanta_eq c).symm le_rfl]
  rw [dif_neg (mantissa_pos hc).ne', unpacked_finite hc hfinite]

theorem normalize_natCast (spec : Format) {m : Nat} (hm : 0 < m) (e : Int) (s : Sign) :
    UnpackedFloat.normalize spec m e s = UnpackedFloat.round spec .positive m e := by
  have hcompare : compare (m : Int) 0 = .gt := by
    rw [Int.compare_eq_gt]
    omega
  rw [UnpackedFloat.normalize, hcompare, Int.toNat_natCast]

theorem add_eq (x y : Float) : x + y = .ofModel (Float.Model.pack
    (UnpackedFloat.add Format.binary64 x.toModel.unpack y.toModel.unpack)) := rfl

/-- Two doubles of different signs, the negative one smaller: their sum is exact if it is the
magnitude of a double. -/
theorem add_ofCode {a b : Nat} (ha : a ≠ 0) (hb : b ≠ 0) (hc : c ≠ 0) (hafinite : a < infinityCode)
    (hbfinite : b < infinityCode) (hfinite : c < infinityCode)
    (h : quanta a + quanta c = quanta b) :
    ofCode true a + ofCode false b = ofCode false c := by
  rw [add_eq, unpack_toModel, unpack_toModel, isNegative_ofCode hafinite.le,
    isNegative_ofCode hbfinite.le, code_ofCode hafinite.le, code_ofCode hbfinite.le,
    unpacked_finite ha hafinite, unpacked_finite hb hbfinite, ofCode_eq hfinite.le]
  -- both are written with the smaller exponent of the two
  obtain ⟨k, hk⟩ : ∃ k, k = min (doublings a) (doublings b) := ⟨_, rfl⟩
  have hmin : min ((doublings a : Int) - 1074) (doublings b - 1074) = k - 1074 := by omega
  have hshift : ∀ d : Nat, ((d : Int) - 1074 - (k - 1074)).toNat = d - k := by omega
  have hquanta : ∀ d, k ≤ doublings d → mantissa d <<< (doublings d - k) * 2 ^ k = quanta d :=
    fun d hd => by
      rw [Nat.shiftLeft_eq, Nat.mul_assoc, ← pow_add, Nat.sub_add_cancel hd, quanta_eq]
  have hqa := hquanta a (by omega)
  have hqb := hquanta b (by omega)
  simp only [UnpackedFloat.add, hmin, decreaseExponent, hshift]
  generalize mantissa a <<< (doublings a - k) = p at hqa
  generalize mantissa b <<< (doublings b - k) = q at hqb
  have hlt : p < q := by
    refine Nat.lt_of_mul_lt_mul_right (a := 2 ^ k) ?_
    have := quanta_pos hc
    omega
  have happly : (signOf true).apply p + (signOf false).apply q = ((q - p : Nat) : Int) := by
    show -(p : Int) + q = _
    omega
  have hsub : (q - p) * 2 ^ k = quanta c := by
    rw [Nat.sub_mul, hqa, hqb, ← h, Nat.add_sub_cancel_left]
  have hround : round Format.binary64 (signOf false) (q - p) (k - 1074) = unpacked false c :=
    round_eq hc hfinite hsub
  rw [happly, normalize_natCast _ (Nat.sub_pos_of_lt hlt)]
  exact congrArg _ (congrArg _ hround)

theorem mul_two_pow_sub_div (m d e : Nat) :
    m * 2 ^ (d - e) / 2 ^ (e - d) = m * 2 ^ d / 2 ^ e := by
  rcases Nat.le_total e d with hle | hle
  · rw [Nat.sub_eq_zero_of_le hle, pow_zero, Nat.div_one]
    conv_rhs => rw [← Nat.sub_add_cancel hle, pow_add, ← Nat.mul_assoc]
    rw [Nat.mul_div_cancel _ (by positivity)]
  · rw [Nat.sub_eq_zero_of_le hle, pow_zero, Nat.mul_one]
    conv_rhs => rw [← Nat.sub_add_cancel hle, pow_add]
    rw [Nat.mul_div_mul_right _ _ (by positivity)]

theorem roundToInt_eq (negative : Bool) (c : Nat) :
    roundToInt (signOf negative) (mantissa c) (doublings c - 1074) =
      (signOf negative).apply (quanta c / unit : Nat) := by
  have hshift : ((doublings c : Int) - 1074 - 0).toNat = doublings c - 1074 := by omega
  have hback : (0 - ((doublings c : Int) - 1074 - (doublings c - 1074 : Nat))).toNat =
      1074 - doublings c := by omega
  simp only [roundToInt, decreaseExponent, hshift, shiftToExponent, hback, mantissa_shiftRight,
    ExtendedMantissa.ofMantissaAndAccuracy, Nat.shiftLeft_eq]
  rw [mul_two_pow_sub_div, ← quanta_eq, ← unit_eq]

end rounding

/-! ## Whole numbers -/

/-- A double is the number `n`, with or without a minus sign in front. -/
structure Whole (x : Float) (negative : Bool) (n : Nat) : Prop where
  finite : code x < infinityCode
  sign : isNegative x = negative
  magnitude : quanta (code x) = n * unit

theorem whole_ofCode {n : Nat} (hn : n < 2 ^ 53) (negative : Bool) :
    Whole (ofCode negative (nearest (n * unit) 1)) negative n := by
  obtain ⟨c, hc, hq⟩ := exists_quanta_eq hn (show 1074 ≤ 2045 by decide)
  rw [← unit_eq] at hq
  rw [← hq, nearest_quanta hc]
  exact ⟨(code_ofCode hc.le).trans_lt hc, isNegative_ofCode hc.le, by rw [code_ofCode hc.le, hq]⟩

/-- The integer part of a double is one, too: either there is nothing behind the point, or there are
few digits in front of it. -/
theorem whole_truncate {x : Float} (hx : code x < infinityCode) :
    Whole (truncate x) (isNegative x) (quanta (code x) / unit) := by
  rw [truncate, isFinite, decide_eq_true hx, if_pos rfl]
  rcases Nat.le_total 1074 (doublings (code x)) with hle | hle
  · have hdvd : unit ∣ quanta (code x) := by
      rw [quanta_eq, unit_eq]
      exact (pow_dvd_pow 2 hle).mul_left _
    rw [Nat.div_mul_cancel hdvd, nearest_quanta hx, ofCode_code hx.le]
    exact ⟨hx, rfl, (Nat.div_mul_cancel hdvd).symm⟩
  · refine whole_ofCode ?_ _
    have hm := mantissa_lt (code x)
    rw [fractionCount_eq] at hm
    rw [quanta_eq, unit_eq, ← mul_two_pow_sub_div, Nat.sub_eq_zero_of_le hle, pow_zero, Nat.mul_one]
    exact (Nat.div_le_self _ _).trans_lt (by omega)

namespace Whole

variable {x y : Float} {negative : Bool} {m n : Nat}

theorem code_eq_zero_iff (h : Whole x negative n) : code x = 0 ↔ n = 0 := by
  rw [← quanta_eq_zero_iff, h.magnitude, Nat.mul_eq_zero, or_iff_left]
  rw [unit_eq]
  positivity

theorem eq_ofCode (h : Whole x negative n) : x = ofCode negative (code x) := by
  rw [← h.sign, ofCode_code h.finite.le]

theorem lt_zero_iff (h : Whole x negative n) : x < 0 ↔ negative = true ∧ n ≠ 0 := by
  rw [Double.lt_zero_iff h.finite, h.sign, ne_eq, h.code_eq_zero_iff]

theorem abs (h : Whole x negative n) : Whole x.abs false n := by
  rw [abs_eq h.finite.le]
  exact ⟨(code_ofCode h.finite.le).trans_lt h.finite, isNegative_ofCode h.finite.le,
    by rw [code_ofCode h.finite.le, h.magnitude]⟩

theorem remainder (hx : Whole x negative m) (hy : Whole y false n) (hpos : n ≠ 0)
    (hn : n < 2 ^ 53) : Whole (remainder x y) negative (m % n) := by
  have hzero : code y ≠ 0 := mt hy.code_eq_zero_iff.mp hpos
  rw [Double.remainder, if_pos hx.finite, if_pos hy.finite, if_neg hzero, hx.sign, hx.magnitude,
    hy.magnitude, Nat.mul_mod_mul_right]
  exact whole_ofCode ((Nat.mod_lt _ (Nat.pos_of_ne_zero hpos)).trans hn) negative

theorem add (hx : Whole x true m) (hy : Whole y false n) (hm : m ≠ 0) (hmn : m < n)
    (hn : n < 2 ^ 53) : Whole (x + y) false (n - m) := by
  have hdiff := whole_ofCode (show n - m < 2 ^ 53 by omega) false
  have hsum : quanta (code x) + quanta (code (ofCode false (nearest ((n - m) * unit) 1))) =
      quanta (code y) := by
    rw [hx.magnitude, hdiff.magnitude, hy.magnitude, ← Nat.add_mul, Nat.add_sub_cancel' hmn.le]
  have hadd := add_ofCode (mt hx.code_eq_zero_iff.mp hm) (mt hy.code_eq_zero_iff.mp (by omega))
    (mt hdiff.code_eq_zero_iff.mp (by omega)) hx.finite hy.finite hdiff.finite hsum
  rw [← hx.eq_ofCode, ← hy.eq_ofCode, ← hdiff.eq_ofCode] at hadd
  rwa [hadd]

theorem toUInt32 (h : Whole x negative n) (hn : n < 2 ^ 32) (hsign : negative = true → n = 0) :
    x.toUInt32.toNat = n := by
  have hunit : 0 < unit := by rw [unit_eq]; positivity
  show (UInt32.ofNatClamp (x.toModel.unpack.toInt 0 (UInt32.size - 1)).toNat).toNat = n
  have hint : (x.toModel.unpack.toInt 0 (UInt32.size - 1)).toNat = n := by
    rw [unpack_toModel, h.sign]
    by_cases hzero : code x = 0
    · rw [h.code_eq_zero_iff.mp hzero, unpacked, dif_pos hzero]
      rfl
    · rw [unpacked_finite hzero h.finite]
      cases negative with
      | true => exact absurd (h.code_eq_zero_iff.mpr (hsign rfl)) hzero
      | false =>
        rw [UnpackedFloat.toInt, roundToInt_eq, h.magnitude, Nat.mul_div_cancel _ hunit]
        rfl
  rw [hint, UInt32.ofNatClamp, dif_pos (by simpa [UInt32.size] using hn)]
  simp

end Whole

end Offside.Double
