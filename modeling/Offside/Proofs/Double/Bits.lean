import Mathlib
import Offside.Proofs.Double.Rounding

/-!
# The bits of a double

A double is its sign bit and its code, except that all NaN are one: `unpacked` says which number
these two stand for, `unpack_eq` that taking the bits apart gives that number, and `toNat_pack` that
putting it together again gives back the bits. From the three follow the codes and signs of negated,
absolute and compared doubles.
-/

namespace Offside.Double

open Float.Model Float.Model.UnpackedFloat

theorem signPlace_eq : signPlace = 2 ^ 63 := by decide

theorem infinityCode_eq : infinityCode = 2047 * 2 ^ 52 := by decide

/-! ## Fields -/

section fields

variable (b : BitVec Format.binary64.numBits)

theorem toNat_unpackMantissa : (unpackMantissa b).toNat = b.toNat % 2 ^ 52 := by
  rw [unpackMantissa, BitVec.toNat_cast, BitVec.extractLsb, BitVec.extractLsb'_toNat]
  rfl

theorem toNat_unpackExponent : (unpackExponent b).toNat = b.toNat / 2 ^ 52 % 2 ^ 11 := by
  rw [unpackExponent, BitVec.toNat_cast, BitVec.extractLsb, BitVec.extractLsb'_toNat,
    Nat.shiftRight_eq_div_pow]
  rfl

theorem toNat_unpackSign : (unpackSign b).toNat = b.toNat / 2 ^ 63 % 2 := by
  rw [unpackSign, BitVec.toNat_cast, BitVec.extractLsb, BitVec.extractLsb'_toNat,
    Nat.shiftRight_eq_div_pow]
  simp

theorem toNat_packComponents (s : Sign) (e : BitVec 11) (m : BitVec 52) :
    (packComponents Format.binary64 s e m).toNat =
      s.toBitVec.toNat * 2 ^ 63 + e.toNat * 2 ^ 52 + m.toNat := by
  have he := e.isLt
  have hm := m.isLt
  rw [packComponents, BitVec.toNat_append, BitVec.toNat_append]
  rw [← Nat.shiftLeft_add_eq_or_of_lt hm, ← Nat.shiftLeft_add_eq_or_of_lt he,
    Nat.shiftLeft_eq, Nat.shiftLeft_eq]
  ring

end fields

/-! ## Taking apart and putting together -/

/-- The sign that a sign bit stands for. -/
def signOf (negative : Bool) : Sign := if negative then .negative else .positive

theorem mantissa_pos {c : Nat} (h : c ≠ 0) : 0 < mantissa c := by
  unfold mantissa doublings
  rw [fractionCount_eq]
  omega

/-- The number with a sign and a code. -/
def unpacked (negative : Bool) (c : Nat) : UnpackedFloat :=
  if h : c = 0 then .zero (signOf negative)
  else if c < infinityCode then
    .finite (signOf negative) (mantissa c) (doublings c - 1074) (mantissa_pos h)
  else if c = infinityCode then .infinity (signOf negative)
  else .notANumber

theorem ofBitVec_unpackSign (b : BitVec Format.binary64.numBits) :
    Sign.ofBitVec (unpackSign b) = signOf (decide (signPlace ≤ b.toNat)) := by
  have hb : b.toNat < 2 ^ 64 := b.isLt
  have hs := toNat_unpackSign b
  rw [Sign.ofBitVec, signOf, signPlace_eq]
  by_cases h : 2 ^ 63 ≤ b.toNat
  · rw [if_neg (by rw [← BitVec.toNat_inj, hs]; simp; omega), if_pos (by simpa using h)]
  · rw [if_pos (by rw [← BitVec.toNat_inj, hs]; simp; omega), if_neg (by simpa using h)]

theorem finite_congr {s : Sign} {m m' : Nat} {e e' : Int} (hm : m = m') (he : e = e') (h : 0 < m)
    (h' : 0 < m') : finite s m e h = finite s m' e' h' := by
  subst hm he
  rfl

theorem toNat_append_one (m : BitVec 52) : (1#1 ++ m).toNat = 2 ^ 52 + m.toNat := by
  have hm := m.isLt
  rw [BitVec.toNat_append, ← Nat.shiftLeft_add_eq_or_of_lt hm]
  rfl

/-- Bits are taken apart into the number that their sign and their code stand for. -/
theorem unpack_eq (b : BitVec Format.binary64.numBits) :
    UnpackedFloat.unpack Format.binary64 b =
      unpacked (decide (signPlace ≤ b.toNat)) (b.toNat % signPlace) := by
  have hexponent := toNat_unpackExponent b
  have hmantissa := toNat_unpackMantissa b
  have hbias : (Format.binary64.exponentBias : Int) = 1023 := rfl
  have hwidth : (Format.binary64.mantissaBitsWithoutImplicit : Int) = 52 := rfl
  rw [UnpackedFloat.unpack, unpacked, ofBitVec_unpackSign, signPlace_eq, infinityCode_eq]
  simp only [hbias, hwidth]
  have he : unpackExponent b = -1#11 ↔ (unpackExponent b).toNat = 2047 := by
    rw [← BitVec.toNat_inj]; rfl
  have he0 : unpackExponent b = 0#11 ↔ (unpackExponent b).toNat = 0 := by
    rw [← BitVec.toNat_inj]; rfl
  have hm0 : unpackMantissa b = 0#52 ↔ (unpackMantissa b).toNat = 0 := by
    rw [← BitVec.toNat_inj]; rfl
  by_cases hlast : (unpackExponent b).toNat = 2047
  · rw [if_pos (he.mpr hlast)]
    by_cases hm : (unpackMantissa b).toNat = 0
    · rw [if_pos (hm0.mpr hm), dif_neg (by omega), if_neg (by omega), if_pos (by omega)]
    · rw [if_neg (mt hm0.mp hm), dif_neg (by omega), if_neg (by omega), if_neg (by omega)]
  rw [if_neg (mt he.mp hlast)]
  by_cases hfirst : (unpackExponent b).toNat = 0
  · rw [if_pos (he0.mpr hfirst)]
    by_cases hm : (unpackMantissa b).toNat = 0
    · rw [dif_pos (hm0.mpr hm), dif_pos (by omega)]
    · rw [dif_neg (mt hm0.mp hm), dif_neg (by omega), if_pos (by omega)]
      apply finite_congr
      · unfold mantissa doublings
        rw [fractionCount_eq]
        omega
      · unfold doublings
        rw [fractionCount_eq]
        omega
  · rw [if_neg (mt he0.mp hfirst), dif_neg (by omega), if_pos (by omega)]
    apply finite_congr
    · rw [toNat_append_one]
      unfold mantissa doublings
      rw [fractionCount_eq]
      omega
    · unfold doublings
      rw [fractionCount_eq]
      omega

theorem toNat_packComponents_signOf (negative : Bool) (e : BitVec 11) (m : BitVec 52) :
    (packComponents Format.binary64 (signOf negative) e m).toNat =
      negative.toNat * 2 ^ 63 + (e.toNat * 2 ^ 52 + m.toNat) := by
  have hsign : (signOf negative).toBitVec.toNat = negative.toNat := by cases negative <;> rfl
  rw [toNat_packComponents, hsign, Nat.add_assoc]

theorem log2_mantissa_eq_iff {c : Nat} (h : c ≠ 0) :
    (mantissa c).log2 + 1 = Format.binary64.mantissaBits ↔ 2 ^ 52 ≤ c := by
  have hwidth : Format.binary64.mantissaBits = 53 := rfl
  have hm : mantissa c ≠ 0 := (mantissa_pos h).ne'
  have hlt : mantissa c < 2 ^ 53 := by
    have := mantissa_lt c
    rw [fractionCount_eq] at this
    omega
  have hlog : (mantissa c).log2 < 53 := (Nat.log2_lt hm).mpr hlt
  have hfull : 52 ≤ (mantissa c).log2 ↔ 2 ^ 52 ≤ mantissa c := Nat.le_log2 hm
  have hc : 2 ^ 52 ≤ mantissa c ↔ 2 ^ 52 ≤ c := by
    unfold mantissa doublings
    rw [fractionCount_eq]
    omega
  omega

theorem fields_of_le {c : Nat} (hfull : 2 ^ 52 ≤ c) (hc : c < 2047 * 2 ^ 52) :
    (doublings c + 1) % 2 ^ 11 * 2 ^ 52 + mantissa c % 2 ^ 52 = c := by
  unfold mantissa doublings
  rw [fractionCount_eq]
  omega

theorem mantissa_of_lt {c : Nat} (h : c < 2 ^ 52) : mantissa c % 2 ^ 52 = c := by
  unfold mantissa doublings
  rw [fractionCount_eq]
  omega

theorem doublings_lt {c : Nat} (hc : c < 2047 * 2 ^ 52) : doublings c < 2046 := by
  unfold doublings
  rw [fractionCount_eq]
  omega

theorem toNat_pack (negative : Bool) {c : Nat} (hc : c ≤ infinityCode) :
    (UnpackedFloat.pack Format.binary64 (unpacked negative c)).toNat =
      negative.toNat * signPlace + c := by
  rw [signPlace_eq, unpacked]
  rw [infinityCode_eq] at hc ⊢
  by_cases hc0 : c = 0
  · rw [dif_pos hc0, UnpackedFloat.pack, packedZero]
    apply (toNat_packComponents_signOf negative 0 0).trans
    rw [hc0]
    rfl
  rw [dif_neg hc0]
  by_cases hfinite : c < 2047 * 2 ^ 52
  · have hbound := doublings_lt hfinite
    have hbias : (Format.binary64.exponentBias : Int) = 1023 := rfl
    have hwidth : (Format.binary64.mantissaBitsWithoutImplicit : Int) = 52 := rfl
    have hexponent : ((doublings c : Int) - 1074 + Format.binary64.exponentBias +
        Format.binary64.mantissaBitsWithoutImplicit).toNat = doublings c + 1 := by omega
    have hbelow : ¬2 ^ 11 ≤ doublings c + 1 + 1 := by omega
    simp only [if_pos hfinite, UnpackedFloat.pack, hexponent, log2_mantissa_eq_iff hc0]
    rw [if_neg hbelow]
    by_cases hfull : 2 ^ 52 ≤ c
    · rw [if_pos hfull]
      apply (toNat_packComponents_signOf negative _ _).trans
      rw [BitVec.toNat_ofNat, BitVec.toNat_ofNat]
      exact congrArg _ (fields_of_le hfull hfinite)
    · rw [if_neg hfull]
      apply (toNat_packComponents_signOf negative 0#11 _).trans
      rw [BitVec.toNat_ofNat, BitVec.toNat_ofNat, Nat.zero_mod, Nat.zero_mul, Nat.zero_add]
      exact congrArg _ (mantissa_of_lt (by omega))
  · have hlast : c = 2047 * 2 ^ 52 := by omega
    rw [if_neg hfinite, if_pos hlast, UnpackedFloat.pack, packedInfinity]
    apply (toNat_packComponents_signOf negative (-1#11) 0).trans
    rw [hlast]
    rfl

/-! ## Doubles -/

section doubles

variable {x y : Float} {negative : Bool} {c : Nat}

theorem infinityCode_lt_signPlace : infinityCode < signPlace := by decide

theorem unpack_toModel (x : Float) : x.toModel.unpack = unpacked (isNegative x) (code x) :=
  unpack_eq x.toBits.toBitVec

theorem toNat_toBits (x : Float) :
    x.toBits.toNat = (isNegative x).toNat * signPlace + code x := by
  have hx := x.toBits.toNat_lt
  unfold isNegative code
  rw [signPlace_eq]
  by_cases h : 2 ^ 63 ≤ x.toBits.toNat
  · simp only [h, decide_true, Bool.toNat_true]
    omega
  · simp only [h, decide_false, Bool.toNat_false]
    omega

theorem ext_toNat_toBits (h : x.toBits.toNat = y.toBits.toNat) : x = y := by
  obtain ⟨⟨a, ha⟩⟩ := x
  obtain ⟨⟨b, hb⟩⟩ := y
  obtain rfl : a = b := UInt64.toNat_inj.mp h
  rfl

/-- The double with a sign and a code is the number that they stand for, packed. -/
theorem ofCode_eq (hc : c ≤ infinityCode) :
    ofCode negative c = .ofModel (Float.Model.pack (unpacked negative c)) := by
  have hlt : c < signPlace := hc.trans_lt infinityCode_lt_signPlace
  have hword : (UInt64.ofNat (if negative then signPlace + c else c)).toBitVec.toNat =
      negative.toNat * signPlace + c := by
    show (UInt64.ofNat _).toNat = _
    rw [UInt64.toNat_ofNat', Nat.mod_eq_of_lt]
    · cases negative <;> simp
    · rw [signPlace_eq] at hlt ⊢
      split <;> omega
  show Float.ofModel (Float.Model.pack (UnpackedFloat.unpack Format.binary64 _)) = _
  rw [unpack_eq, hword]
  congr 3
  · cases negative
    · simpa using hlt
    · simp
  · rw [Nat.mul_add_mod_self_right, Nat.mod_eq_of_lt hlt]

theorem toNat_toBits_ofCode (hc : c ≤ infinityCode) :
    (ofCode negative c).toBits.toNat = negative.toNat * signPlace + c := by
  rw [ofCode_eq hc]
  exact toNat_pack negative hc

theorem code_ofCode (hc : c ≤ infinityCode) : code (ofCode negative c) = c := by
  rw [code, toNat_toBits_ofCode hc, Nat.mul_add_mod_self_right,
    Nat.mod_eq_of_lt (hc.trans_lt infinityCode_lt_signPlace)]

theorem isNegative_ofCode (hc : c ≤ infinityCode) : isNegative (ofCode negative c) = negative := by
  have hlt : c < signPlace := hc.trans_lt infinityCode_lt_signPlace
  rw [isNegative, toNat_toBits_ofCode hc]
  cases negative
  · simpa using hlt
  · simp

theorem ofCode_code (hx : code x ≤ infinityCode) : ofCode (isNegative x) (code x) = x := by
  apply ext_toNat_toBits
  rw [toNat_toBits_ofCode hx, toNat_toBits]

theorem neg_unpacked (negative : Bool) (c : Nat) :
    (unpacked negative c).neg = unpacked (!negative) c := by
  have hsign : -signOf negative = signOf (!negative) := by cases negative <;> rfl
  unfold unpacked
  split
  · rw [UnpackedFloat.neg, hsign]
  split
  · rw [UnpackedFloat.neg, hsign]
  split
  · rw [UnpackedFloat.neg, hsign]
  · rfl

theorem abs_unpacked (negative : Bool) (c : Nat) :
    (unpacked negative c).abs = unpacked false c := by
  unfold unpacked
  split
  · rfl
  split
  · rfl
  split
  · rfl
  · rfl

theorem neg_eq (hx : code x ≤ infinityCode) : -x = ofCode (!isNegative x) (code x) := by
  rw [ofCode_eq hx, ← neg_unpacked, ← unpack_toModel]
  rfl

theorem abs_eq (hx : code x ≤ infinityCode) : x.abs = ofCode false (code x) := by
  rw [ofCode_eq hx, ← abs_unpacked (isNegative x), ← unpack_toModel]
  rfl

/-! ## Comparisons -/

theorem isFinite_iff : x.isFinite = true ↔ code x < infinityCode := by
  show x.toModel.unpack.isFinite = true ↔ _
  rw [unpack_toModel, unpacked]
  split
  · next h =>
    rw [h]
    simp [UnpackedFloat.isFinite, infinityCode_eq]
  split
  · next h => simp [UnpackedFloat.isFinite, h]
  split
  · next h => simp [UnpackedFloat.isFinite, h]
  · next h _ => simp [UnpackedFloat.isFinite, h]

theorem unpack_zero : (0 : Float).toModel.unpack = .zero .positive := by
  have hcode : code 0 = 0 := by decide
  have hsign : isNegative 0 = false := by decide
  rw [unpack_toModel, hcode, hsign]
  rfl

theorem unpacked_finite (hc : c ≠ 0) (hfinite : c < infinityCode) :
    unpacked negative c =
      .finite (signOf negative) (mantissa c) (doublings c - 1074) (mantissa_pos hc) := by
  rw [unpacked, dif_neg hc, if_pos hfinite]

theorem compare_zero_unpacked (hfinite : c < infinityCode) :
    (UnpackedFloat.zero .positive).compare (unpacked negative c) =
      some (if c = 0 then .eq else if negative then .gt else .lt) := by
  by_cases hc : c = 0
  · rw [if_pos hc, unpacked, dif_pos hc]
    rfl
  · rw [if_neg hc, unpacked_finite hc hfinite]
    cases negative <;> rfl

theorem zero_le_iff (hx : code x < infinityCode) :
    0 ≤ x ↔ isNegative x = false ∨ code x = 0 := by
  show decide ((UnpackedFloat.le (Float.toModel 0).unpack x.toModel.unpack) = true) = true ↔ _
  rw [unpack_zero, unpack_toModel, UnpackedFloat.le, compare_zero_unpacked hx]
  by_cases hc : code x = 0
  · simp [hc]
  · cases isNegative x <;> simp [hc]

theorem compare_unpacked_zero (hfinite : c < infinityCode) :
    (unpacked negative c).compare (.zero .positive) =
      some (if c = 0 then .eq else if negative then .lt else .gt) := by
  by_cases hc : c = 0
  · rw [if_pos hc, unpacked, dif_pos hc]
    rfl
  · rw [if_neg hc, unpacked_finite hc hfinite]
    cases negative <;> rfl

theorem lt_zero_iff (hx : code x < infinityCode) : x < 0 ↔ isNegative x = true ∧ code x ≠ 0 := by
  show decide ((UnpackedFloat.lt x.toModel.unpack (Float.toModel 0).unpack) = true) = true ↔ _
  rw [unpack_zero, unpack_toModel, UnpackedFloat.lt, compare_unpacked_zero hx]
  by_cases hc : code x = 0
  · simp [hc]
  · cases isNegative x <;> simp [hc]

theorem beq_of_code_eq (hx : code x < infinityCode) (hcode : code x = code y)
    (hsign : isNegative x = isNegative y ∨ code x = 0) : (x == y) = true := by
  show UnpackedFloat.beq x.toModel.unpack y.toModel.unpack = true
  rw [unpack_toModel, unpack_toModel, ← hcode, UnpackedFloat.beq]
  by_cases hc : code x = 0
  · rw [hc, unpacked, unpacked, dif_pos rfl, dif_pos rfl]
    rfl
  · rw [← hsign.resolve_right hc, unpacked_finite hc hx]
    cases isNegative x <;> simp [signOf, UnpackedFloat.compare]

end doubles

end Offside.Double
