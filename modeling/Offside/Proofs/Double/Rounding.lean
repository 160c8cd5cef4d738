import Mathlib.Tactic.Positivity
import Mathlib.Tactic.Ring
import Offside.Double.Decimal

/-!
# Reals that round to a double

The code `c` is followed by `c + 1` after a step of `2 ^ doublings c` quanta (`quanta_succ`). The
reals that round to `c` reach half way to its two neighbours, and to the points half way if `c` is
even (`RoundsTo`). `nearest` finds `c` from each of them (`RoundsTo.nearest_eq`). The one place
where this needs an argument is where the step doubles: from below, such a code is found at the
scale of the smaller step, where its mantissa is `2 * fractionCount`.
-/

namespace Offside.Double

theorem fractionCount_eq : fractionCount = 2 ^ 52 := by decide

/-! ## Codes and their magnitudes -/

section codes

variable {c : Nat}

theorem quanta_eq (c : Nat) : quanta c = mantissa c * 2 ^ doublings c := Nat.shiftLeft_eq _ _

theorem doublings_mul_add (c : Nat) : doublings c * fractionCount + mantissa c = c := by
  unfold mantissa doublings
  rw [fractionCount_eq]
  omega

theorem mantissa_lt (c : Nat) : mantissa c < 2 * fractionCount := by
  unfold mantissa doublings
  rw [fractionCount_eq]
  omega

theorem le_mantissa (h : 0 < doublings c) : fractionCount ≤ mantissa c := by
  unfold mantissa
  unfold doublings at h ⊢
  rw [fractionCount_eq] at h ⊢
  omega

/-- The step stays the same, or it doubles: then the mantissa starts again. -/
theorem doublings_succ_cases (c : Nat) :
    (doublings (c + 1) = doublings c ∧ mantissa (c + 1) = mantissa c + 1) ∨
      (doublings (c + 1) = doublings c + 1 ∧ mantissa (c + 1) = fractionCount ∧
        mantissa c + 1 = 2 * fractionCount) := by
  unfold mantissa doublings
  rw [fractionCount_eq]
  omega

theorem quanta_succ (c : Nat) : quanta (c + 1) = quanta c + 2 ^ doublings c := by
  rw [quanta_eq, quanta_eq]
  rcases doublings_succ_cases c with ⟨hd, hm⟩ | ⟨hd, hm, hlast⟩
  · rw [hd, hm]
    ring
  · have hm' : mantissa (c + 1) * 2 = mantissa c + 1 := by omega
    calc mantissa (c + 1) * 2 ^ doublings (c + 1)
        = mantissa (c + 1) * 2 * 2 ^ doublings c := by rw [hd]; ring
      _ = mantissa c * 2 ^ doublings c + 2 ^ doublings c := by rw [hm']; ring

theorem quanta_lt_succ (c : Nat) : quanta c < quanta (c + 1) := by
  have hstep : 0 < 2 ^ doublings c := by positivity
  rw [quanta_succ]
  omega

theorem upperBound_eq (c : Nat) : upperBound c = 2 * quanta c + 2 ^ doublings c := by
  rw [upperBound, quanta_succ]
  omega

theorem lowerBound_succ (c : Nat) : lowerBound (c + 1) + 2 ^ doublings c = 2 * quanta (c + 1) := by
  rw [lowerBound, Nat.add_sub_cancel, quanta_succ]
  omega

end codes

/-! ## Rounding -/

/-- A number within half of `n` rounds to `n`, also one just half away if `n` is even. -/
theorem divRound_eq {num den n : Nat} (hlower : 2 * (n * den) ≤ 2 * num + den)
    (hupper : 2 * num ≤ 2 * (n * den) + den)
    (hodd : n % 2 = 1 → 2 * (n * den) < 2 * num + den ∧ 2 * num < 2 * (n * den) + den)
    (hden : 0 < den) : divRound num den = n := by
  have hnum : num = num / den * den + num % den := by rw [Nat.div_add_mod']
  have hrem : num % den < den := Nat.mod_lt _ hden
  unfold divRound
  simp only
  generalize num / den = q at hnum
  generalize num % den = r at hnum hrem
  -- the quotient is `n` or the number below
  have hle : q ≤ n := by
    by_contra hlt
    have hmul : (n + 1) * den ≤ q * den := Nat.mul_le_mul_right den (by omega)
    rw [Nat.add_mul, Nat.one_mul] at hmul
    omega
  have hge : n ≤ q + 1 := by
    by_contra hlt
    have hmul : (q + 2) * den ≤ n * den := Nat.mul_le_mul_right den (by omega)
    rw [Nat.add_mul] at hmul
    omega
  obtain rfl | rfl : n = q ∨ n = q + 1 := by omega
  · rcases lt_trichotomy (2 * r) den with hr | hr | hr
    · rw [Nat.compare_eq_lt.mpr hr]
    · rw [Nat.compare_eq_eq.mpr hr]
      simp only
      omega
    · omega
  · rw [Nat.add_mul, Nat.one_mul] at hlower hupper hodd
    rcases lt_trichotomy (2 * r) den with hr | hr | hr
    · omega
    · rw [Nat.compare_eq_eq.mpr hr]
      simp only
      omega
    · rw [Nat.compare_eq_gt.mpr hr]

/-- The fraction `num / den` of quanta rounds to the code `c`: it is between the points half way to
the neighbours of `c`, and these belong to the even one of two neighbours. -/
structure RoundsTo (c num den : Nat) : Prop where
  lower : lowerBound c * den ≤ 2 * num
  upper : 2 * num ≤ upperBound c * den
  odd : c % 2 = 1 → lowerBound c * den < 2 * num ∧ 2 * num < upperBound c * den

theorem roundsTo_mul_iff {c num den k : Nat} (hk : 0 < k) :
    RoundsTo c (num * k) (den * k) ↔ RoundsTo c num den := by
  have hle : ∀ b, b * (den * k) ≤ 2 * (num * k) ↔ b * den ≤ 2 * num := fun b => by
    rw [← Nat.mul_assoc, ← Nat.mul_assoc, Nat.mul_le_mul_right_iff hk]
  have hge : ∀ b, 2 * (num * k) ≤ b * (den * k) ↔ 2 * num ≤ b * den := fun b => by
    rw [← Nat.mul_assoc, ← Nat.mul_assoc, Nat.mul_le_mul_right_iff hk]
  have hlt : ∀ b, b * (den * k) < 2 * (num * k) ↔ b * den < 2 * num := fun b => by
    rw [← Nat.not_le, hge, Nat.not_le]
  have hgt : ∀ b, 2 * (num * k) < b * (den * k) ↔ 2 * num < b * den := fun b => by
    rw [← Nat.not_le, hle, Nat.not_le]
  constructor
  · rintro ⟨hlower, hupper, hodd⟩
    rw [hle] at hlower
    rw [hge] at hupper
    rw [hlt, hgt] at hodd
    exact ⟨hlower, hupper, hodd⟩
  · rintro ⟨hlower, hupper, hodd⟩
    rw [← hle] at hlower
    rw [← hge] at hupper
    rw [← hlt, ← hgt] at hodd
    exact ⟨hlower, hupper, hodd⟩

namespace RoundsTo

variable {c num den : Nat}

/-- A fraction whose quotient shows the scale `d` is rounded at that scale. -/
theorem nearest_at {d n : Nat} (hc : d * fractionCount + n = c) (hfinite : c < infinityCode)
    (hscale : (num / den).log2 - 52 = d) (hround : divRound num (den * 2 ^ d) = n) :
    nearest num den = c := by
  unfold nearest
  simp only
  rw [hscale, Nat.shiftLeft_eq, hround, hc]
  exact Nat.min_eq_left hfinite.le

theorem scale_le (h : RoundsTo c num den) (hden : 0 < den) :
    (num / den).log2 - 52 ≤ doublings c := by
  have hquot : num / den < (mantissa c + 1) * 2 ^ doublings c := by
    rw [Nat.div_lt_iff_lt_mul hden]
    have hupper := h.upper
    have hpos : 0 < 2 ^ doublings c * den := by positivity
    rw [upperBound_eq, quanta_eq, Nat.add_mul, Nat.mul_assoc, Nat.mul_assoc] at hupper
    rw [Nat.mul_assoc, Nat.add_mul, Nat.one_mul]
    omega
  have hbound : (mantissa c + 1) * 2 ^ doublings c ≤ 2 ^ (53 + doublings c) := by
    have hm := mantissa_lt c
    rw [fractionCount_eq] at hm
    rw [pow_add]
    exact Nat.mul_le_mul_right _ hm
  by_cases hzero : num / den = 0
  · rw [hzero]
    exact Nat.zero_le _
  · have hlog := (Nat.log2_lt hzero).mpr (hquot.trans_le hbound)
    omega

theorem le_scale {d : Nat} (h : 2 ^ (52 + d) * den ≤ num) (hden : 0 < den) :
    d ≤ (num / den).log2 - 52 := by
  have hquot : 2 ^ (52 + d) ≤ num / den := (Nat.le_div_iff_mul_le hden).mpr h
  have hpos : 0 < 2 ^ (52 + d) := by positivity
  have hlog := (Nat.le_log2 (by omega)).mpr hquot
  omega

theorem lt_of_scale_lt {d : Nat} (h : (num / den).log2 - 52 < d) (hden : 0 < den) :
    num < 2 ^ (52 + d) * den := by
  by_contra hle
  have hscale := le_scale (Nat.le_of_not_lt hle) hden
  omega

theorem nearest_own (h : RoundsTo c num den) (hfinite : c < infinityCode) (hden : 0 < den)
    (hscale : (num / den).log2 - 52 = doublings c) : nearest num den = c := by
  have hsum := doublings_mul_add c
  have hparity : mantissa c % 2 = c % 2 := by
    rw [fractionCount_eq] at hsum
    omega
  refine nearest_at hsum hfinite hscale ?_
  have hupper : upperBound c * den =
      2 * (mantissa c * (den * 2 ^ doublings c)) + den * 2 ^ doublings c := by
    rw [upperBound_eq, quanta_eq]
    ring
  -- half a step further down is at or below where the reals that round to `c` begin
  have hlower : 2 * (mantissa c * (den * 2 ^ doublings c)) ≤
      lowerBound c * den + den * 2 ^ doublings c := by
    cases c with
    | zero =>
      rw [show mantissa 0 = 0 from rfl]
      omega
    | succ c =>
      have hstep : 2 ^ doublings c ≤ 2 ^ doublings (c + 1) := by
        refine Nat.pow_le_pow_right (by omega) ?_
        rcases doublings_succ_cases c with ⟨hd, -⟩ | ⟨hd, -⟩ <;> omega
      have hbound : 2 * quanta (c + 1) ≤ lowerBound (c + 1) + 2 ^ doublings (c + 1) := by
        have hsucc := lowerBound_succ c
        omega
      have hmul := Nat.mul_le_mul_right den hbound
      rw [quanta_eq, Nat.add_mul] at hmul
      calc _ = 2 * (mantissa (c + 1) * 2 ^ doublings (c + 1)) * den := by ring
        _ ≤ _ := hmul
        _ = _ := by ring
  have hodd := h.odd
  rw [hupper] at hodd
  refine divRound_eq (hlower.trans (Nat.add_le_add_right h.lower _)) (hupper ▸ h.upper) ?_
    (by positivity)
  intro hm
  obtain ⟨hlo, hhi⟩ := hodd (hparity ▸ hm)
  omega

theorem scale_ge {b : Nat} (h : RoundsTo (b + 1) num den) (hm : fractionCount ≤ mantissa b)
    (hden : 0 < den) : doublings b ≤ (num / den).log2 - 52 := by
  have hbound : 2 * (fractionCount * 2 ^ doublings b) ≤ lowerBound (b + 1) := by
    have hmul : fractionCount * 2 ^ doublings b ≤ quanta b := by
      rw [quanta_eq]
      exact Nat.mul_le_mul_right _ hm
    have hlt := quanta_lt_succ b
    rw [lowerBound, Nat.add_sub_cancel]
    omega
  have hmul := Nat.mul_le_mul_right den hbound
  have hlower := h.lower
  rw [Nat.mul_assoc] at hmul
  refine le_scale ?_ hden
  rw [pow_add, ← fractionCount_eq]
  omega

/-- A fraction below a doubling of the step is found at the scale before. -/
theorem nearest_below (h : RoundsTo c num den) (hfinite : c < infinityCode) (hden : 0 < den)
    (hscale : (num / den).log2 - 52 < doublings c) : nearest num den = c := by
  have hne : c ≠ 0 := by
    rintro rfl
    exact Nat.not_lt_zero _ hscale
  obtain ⟨b, rfl⟩ := Nat.exists_eq_add_one_of_ne_zero hne
  rcases doublings_succ_cases b with ⟨hd, -⟩ | ⟨hd, hm, hlast⟩
  · -- inside a scale, half a step further down is still in it
    have hm := le_mantissa (c := b) (by omega)
    have hge := h.scale_ge hm hden
    omega
  · have hge := h.scale_ge (by omega) hden
    have hsum := doublings_mul_add (b + 1)
    have hlt := lt_of_scale_lt hscale hden
    rw [hd, pow_add, ← fractionCount_eq, pow_succ] at hlt
    refine nearest_at (d := doublings b) (n := 2 * fractionCount) ?_ hfinite (by omega) ?_
    · rw [hd, hm] at hsum
      rw [← hsum]
      ring
    · have hbound : lowerBound (b + 1) * den + den * 2 ^ doublings b =
          2 * (2 * fractionCount * (den * 2 ^ doublings b)) := by
        rw [Nat.mul_comm den, ← Nat.add_mul, lowerBound_succ, quanta_eq, hm, hd, pow_succ]
        ring
      have hend : fractionCount * (2 ^ doublings b * 2) * den =
          2 * fractionCount * (den * 2 ^ doublings b) := by
        ring
      have hlower := h.lower
      exact divRound_eq (by omega) (by omega) (by omega) (by positivity)

/-- **Rounding.** Every fraction that rounds to a finite double is nearest to it. -/
theorem nearest_eq (h : RoundsTo c num den) (hfinite : c < infinityCode) (hden : 0 < den) :
    nearest num den = c := by
  rcases Nat.lt_or_eq_of_le (h.scale_le hden) with hscale | hscale
  · exact h.nearest_below hfinite hden hscale
  · exact h.nearest_own hfinite hden hscale

end RoundsTo

end Offside.Double
