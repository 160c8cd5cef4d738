import Offside.Proofs.Double.Rounding

/-!
# Written numbers read back

The ticks from `firstTick c` to `lastTick c` are among the reals that round to `c`
(`roundsTo_of_tick`). A double is always further than a tick away from where the reals that round to
it end, since a quantum is more than two ticks (`two_unit_le`). So the finest grid has a point in
between, and the point that the search stops at is in between as well (`shortest_between`).

The decimal is then written as digits with an optional fraction (`positional_eq_numeral`), and these
digits are read as the code that they were written for (`readDigits_shortest`).
-/

namespace Offside.Double

/-! ## Ticks -/

theorem unit_pos : 0 < unit := by decide +kernel

theorem two_unit_le : 2 * unit ≤ ticksPerUnit := by decide +kernel

theorem ticksPerUnit_pos : 0 < ticksPerUnit := by
  have hpos := unit_pos
  have hticks := two_unit_le
  omega

section ticks

variable {c n : Nat}

theorem lowerBound_le_of_firstTick_le (h : firstTick c ≤ n) :
    lowerBound c * ticksPerUnit ≤ 2 * (n * unit) ∧
      (c % 2 = 1 → lowerBound c * ticksPerUnit < 2 * (n * unit)) := by
  have hpos := unit_pos
  have hcomm : 2 * (n * unit) = n * (2 * unit) := by ring
  unfold firstTick at h
  simp only at h
  rw [hcomm]
  split_ifs at h with hc
  · rw [Nat.div_le_iff_le_mul_add_pred (by omega), Nat.mul_comm (2 * unit)] at h
    omega
  · have hlt := (Nat.div_lt_iff_lt_mul (by omega)).mp (Nat.lt_of_succ_le h)
    omega

theorem le_upperBound_of_le_lastTick (h : n ≤ lastTick c) :
    2 * (n * unit) ≤ upperBound c * ticksPerUnit ∧
      (c % 2 = 1 → 2 * (n * unit) < upperBound c * ticksPerUnit) := by
  have hpos := unit_pos
  have hcomm : 2 * (n * unit) = n * (2 * unit) := by ring
  have hupper : 0 < upperBound c * ticksPerUnit := by
    have hstep : 0 < 2 ^ doublings c := by positivity
    exact Nat.mul_pos (by rw [upperBound_eq]; omega) ticksPerUnit_pos
  unfold lastTick at h
  simp only at h
  rw [hcomm]
  split_ifs at h with hc
  · rw [Nat.le_div_iff_mul_le (by omega)] at h
    omega
  · rw [Nat.le_div_iff_mul_le (by omega)] at h
    omega

theorem roundsTo_of_tick (hfirst : firstTick c ≤ n) (hlast : n ≤ lastTick c) :
    RoundsTo c (n * unit) ticksPerUnit := by
  obtain ⟨hlower, hlower'⟩ := lowerBound_le_of_firstTick_le hfirst
  obtain ⟨hupper, hupper'⟩ := le_upperBound_of_le_lastTick hlast
  exact ⟨hlower, hupper, fun hc => ⟨hlower' hc, hupper' hc⟩⟩

theorem firstTick_le (c : Nat) : firstTick c ≤ quanta c * ticksPerUnit / unit := by
  have hpos := unit_pos
  have hticks := two_unit_le
  have hfloor := Nat.lt_mul_div_succ (quanta c * ticksPerUnit) hpos
  generalize hk : quanta c * ticksPerUnit / unit = k at hfloor
  unfold firstTick
  simp only
  cases c with
  | zero =>
    rw [if_pos rfl, show lowerBound 0 = 0 from rfl, Nat.zero_mul, Nat.zero_add,
      Nat.div_eq_of_lt (by omega)]
    exact Nat.zero_le k
  | succ b =>
    -- the reals that round to the double begin more than a tick before it
    have hlow : lowerBound (b + 1) * ticksPerUnit + 2 * unit ≤
        2 * (quanta (b + 1) * ticksPerUnit) := by
      have hlt := quanta_lt_succ b
      have hbound : lowerBound (b + 1) + 1 ≤ 2 * quanta (b + 1) := by
        rw [lowerBound, Nat.add_sub_cancel]
        omega
      have hmul := Nat.mul_le_mul_right ticksPerUnit hbound
      rw [Nat.add_mul, Nat.mul_assoc] at hmul
      omega
    have hlt : lowerBound (b + 1) * ticksPerUnit < k * (2 * unit) := by
      have hcomm : k * (2 * unit) = 2 * (unit * k) := by ring
      rw [Nat.mul_add, Nat.mul_one] at hfloor
      omega
    split_ifs
    · rw [Nat.div_le_iff_le_mul_add_pred (by omega), Nat.mul_comm (2 * unit)]
      omega
    · exact (Nat.div_lt_iff_lt_mul (by omega)).mpr hlt

theorem le_lastTick (c : Nat) : quanta c * ticksPerUnit / unit ≤ lastTick c := by
  have hpos := unit_pos
  have hfloor := Nat.div_mul_le_self (quanta c * ticksPerUnit) unit
  generalize quanta c * ticksPerUnit / unit = k at hfloor
  have hup : 2 * (quanta c * ticksPerUnit) < upperBound c * ticksPerUnit := by
    have hlt := quanta_lt_succ c
    rw [← Nat.mul_assoc]
    exact Nat.mul_lt_mul_of_pos_right (by rw [upperBound]; omega) ticksPerUnit_pos
  have hcomm : k * (2 * unit) = 2 * (k * unit) := by ring
  unfold lastTick
  simp only
  split_ifs
  · rw [Nat.le_div_iff_mul_le (by omega)]
    omega
  · rw [Nat.le_div_iff_mul_le (by omega)]
    omega

end ticks

/-! ## The search -/

section search

variable {v lo hi : Nat}

theorem gridPoint?_between {g n : Nat} (hg : 0 < g) (hlo : lo ≤ v / unit) (hhi : v / unit ≤ hi)
    (h : gridPoint? v lo hi g = some n) : lo ≤ n * g ∧ n * g ≤ hi := by
  have hbelow := Nat.div_mul_le_self (v / unit) g
  have habove := Nat.lt_mul_div_succ (v / unit) hg
  unfold gridPoint? at h
  simp only at h
  generalize v / unit / g = k at h hbelow habove
  rw [Nat.mul_comm] at habove
  have hnext : (k + 1) * g = k * g + g := by rw [Nat.add_mul, Nat.one_mul]
  split_ifs at h with hfirst hsecond hcloser hsecond
  · cases h
    omega
  · cases h
    omega
  · cases h
    omega
  · cases h
    omega

theorem gridPoint?_one (hlo : lo ≤ v / unit) : (gridPoint? v lo hi 1).isSome = true := by
  unfold gridPoint?
  simp only [Nat.div_one, Nat.mul_one, if_pos hlo]
  split_ifs <;> rfl

theorem search_between (hlo : lo ≤ v / unit) (hhi : v / unit ≤ hi) (j : Nat) :
    lo ≤ (search v lo hi j).digits * 10 ^ (search v lo hi j).scale ∧
      (search v lo hi j).digits * 10 ^ (search v lo hi j).scale ≤ hi := by
  induction j with
  | zero =>
    obtain ⟨n, hn⟩ := Option.isSome_iff_exists.mp (@gridPoint?_one v lo hi hlo)
    rw [search, hn]
    exact gridPoint?_between Nat.one_pos hlo hhi hn
  | succ j ih =>
    unfold search
    split
    · rename_i n hn
      exact gridPoint?_between (Nat.pow_pos (by decide)) hlo hhi hn
    · exact ih

end search

/-- The decimal that is written for a code is among those that round to it. -/
theorem shortest_between (c : Nat) :
    firstTick c ≤ (shortest c).digits * 10 ^ (shortest c).scale ∧
      (shortest c).digits * 10 ^ (shortest c).scale ≤ lastTick c :=
  search_between (firstTick_le c) (le_lastTick c) _

/-! ## Digits -/

/-- Digits, and more digits behind a point if there are any. -/
def numeral (whole fraction : List Char) : List Char :=
  if fraction = [] then whole else whole ++ '.' :: fraction

theorem digitsValue_eq (ds : List Char) : digitsValue ds = Nat.ofDigitChars 10 ds 0 :=
  Nat.ofDigitChars_eq_foldl.symm

theorem digitsValue_toDigits_zeros (n k : Nat) :
    digitsValue (Nat.toDigits 10 n ++ List.replicate k '0') = n * 10 ^ k := by
  rw [digitsValue_eq, Nat.ofDigitChars_append, Nat.ofDigitChars_ten_toDigits,
    Nat.ofDigitChars_replicate_zero, Nat.mul_comm]

theorem digitsValue_zeros_toDigits (n k : Nat) :
    digitsValue (List.replicate k '0' ++ Nat.toDigits 10 n) = n := by
  rw [digitsValue_eq, Nat.ofDigitChars_append, Nat.ofDigitChars_replicate_zero, Nat.mul_zero,
    Nat.ofDigitChars_ten_toDigits]

theorem isDigit_of_mem_padded {n j k : Nat} {d : Char}
    (h : d ∈ List.replicate j '0' ++ Nat.toDigits 10 n ++ List.replicate k '0') :
    d.isDigit = true := by
  simp only [List.mem_append, List.mem_replicate] at h
  rcases h with (⟨-, rfl⟩ | h) | ⟨-, rfl⟩
  · rfl
  · exact Nat.isDigit_of_mem_toDigits (by decide) (by decide) h
  · rfl

/-- A decimal is written as a numeral with its value. -/
theorem positional_eq_numeral (d : Decimal) :
    ∃ whole fraction, d.positional = numeral whole fraction ∧ whole ≠ [] ∧
      (∀ x ∈ whole ++ fraction, x.isDigit = true) ∧
      digitsValue (whole ++ fraction) * 10 ^ tickPlaces =
        d.digits * 10 ^ d.scale * 10 ^ fraction.length := by
  unfold Decimal.positional
  simp only
  split_ifs with hzero hscale
  · refine ⟨Nat.toDigits 10 d.digits, [], rfl, Nat.toDigits_ne_nil, fun x hx => ?_, ?_⟩
    · exact isDigit_of_mem_padded (j := 0) (k := 0) (by simpa using hx)
    · have hvalue := digitsValue_toDigits_zeros d.digits 0
      rw [List.replicate_zero] at hvalue
      rw [hvalue, hzero]
      simp
  · refine ⟨Nat.toDigits 10 d.digits ++ List.replicate (d.scale - tickPlaces) '0', [], rfl, ?_,
      fun x hx => ?_, ?_⟩
    · exact List.append_ne_nil_of_left_ne_nil Nat.toDigits_ne_nil _
    · exact isDigit_of_mem_padded (j := 0) (by simpa using hx)
    · rw [List.append_nil, digitsValue_toDigits_zeros, List.length_nil, pow_zero, Nat.mul_one,
        Nat.mul_assoc, ← pow_add, Nat.sub_add_cancel hscale]
  · have hplaces : tickPlaces - d.scale + d.scale = tickPlaces := by omega
    generalize hpadded : List.replicate (tickPlaces - d.scale + 1 -
      (Nat.toDigits 10 d.digits).length) '0' ++ Nat.toDigits 10 d.digits = padded
    have hlength : tickPlaces - d.scale < padded.length := by
      rw [← hpadded, List.length_append, List.length_replicate]
      omega
    have hdrop : (padded.drop (padded.length - (tickPlaces - d.scale))).length =
        tickPlaces - d.scale := by
      rw [List.length_drop]
      omega
    refine ⟨padded.take (padded.length - (tickPlaces - d.scale)),
      padded.drop (padded.length - (tickPlaces - d.scale)), ?_, ?_, fun x hx => ?_, ?_⟩
    · rw [numeral, if_neg]
      intro hnil
      rw [hnil, List.length_nil] at hdrop
      omega
    · rw [← List.length_pos_iff, List.length_take]
      omega
    · rw [List.take_append_drop, ← hpadded] at hx
      exact isDigit_of_mem_padded (k := 0) (by simpa using hx)
    · rw [List.take_append_drop, hdrop, ← hpadded, digitsValue_zeros_toDigits, Nat.mul_assoc,
        ← pow_add, Nat.add_comm, hplaces]

/-- **Written numbers read back.** A finite double is written as a numeral whose digits are read as
that double. -/
theorem readDigits_shortest {c : Nat} (hc : c < infinityCode) :
    ∃ whole fraction, (shortest c).positional = numeral whole fraction ∧ whole ≠ [] ∧
      (∀ x ∈ whole ++ fraction, x.isDigit = true) ∧ readDigits whole fraction = c := by
  obtain ⟨whole, fraction, htext, hne, hdigits, hvalue⟩ := positional_eq_numeral (shortest c)
  refine ⟨whole, fraction, htext, hne, hdigits, ?_⟩
  obtain ⟨hfirst, hlast⟩ := shortest_between c
  have hpow : 0 < 10 ^ fraction.length := by positivity
  have htick := (roundsTo_mul_iff hpow).mpr (roundsTo_of_tick hfirst hlast)
  have hrounds : RoundsTo c (digitsValue (whole ++ fraction) * unit) (10 ^ fraction.length) := by
    rw [← roundsTo_mul_iff ticksPerUnit_pos]
    have hnum : digitsValue (whole ++ fraction) * unit * ticksPerUnit =
        (shortest c).digits * 10 ^ (shortest c).scale * unit * 10 ^ fraction.length := by
      unfold ticksPerUnit
      rw [Nat.pow_eq, Nat.mul_right_comm, hvalue, Nat.mul_right_comm]
    rw [hnum, Nat.mul_comm (10 ^ _)]
    exact htick
  exact hrounds.nearest_eq hc hpow

end Offside.Double
