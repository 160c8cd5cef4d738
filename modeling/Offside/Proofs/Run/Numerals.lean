import Offside.Proofs.Double.Bits
import Offside.Proofs.Double.ReadBack
import Offside.Proofs.Run.Concatenation
import Offside.Proofs.Source.LongestMatch

/-!
# Printed numbers as source text

What a program prints for a finite number is again an expression, and its value is that number. The
text is a numeral, with a minus in front if the number is below zero: so it is one token or two
(`tokenize_numeral`, `tokenize_minus_numeral`), and reading the digits gives back the magnitude
because they are those of the shortest decimal (`Double.readDigits_shortest`).
-/

namespace Offside

open Double Source

/-! ## Numerals as pieces -/

section pieces

variable {whole fraction ds : List Char}

theorem numeral_cons (d : Char) (ds fraction : List Char) :
    numeral (d :: ds) fraction = d :: numeral ds fraction := by
  unfold numeral
  split <;> rfl

theorem run_isDigit_all (hds : ∀ d ∈ ds, d.isDigit = true) :
    Piece.run Char.isDigit ds = (ds, []) := by
  have hrun := @Piece.run_of_boundary _ ds [] hds (by simp)
  rwa [List.append_nil] at hrun

theorem numberTail_numeral (hds : ∀ d ∈ ds, d.isDigit = true)
    (hfraction : ∀ d ∈ fraction, d.isDigit = true) :
    Piece.numberTail (numeral ds fraction) = (numeral ds fraction, []) := by
  unfold numeral
  split
  · exact Piece.numberTail_plain (run_isDigit_all hds) (by simp)
  · next hne =>
    obtain ⟨f, fs, rfl⟩ := List.exists_cons_of_ne_nil hne
    have hrun : Piece.run Char.isDigit (ds ++ '.' :: f :: fs) = (ds, '.' :: f :: fs) :=
      Piece.run_of_boundary hds (by simp)
    rw [Piece.numberTail_point hrun (hfraction f List.mem_cons_self), run_isDigit_all hfraction]

theorem ne_of_isDigit {c d : Char} (hd : d.isDigit = true) (hc : c.isDigit = false) : d ≠ c := by
  rintro rfl
  rw [hd] at hc
  cases hc

theorem tail_of_isDigit {d : Char} (hd : d.isDigit = true) (cs : List Char) :
    Piece.tail d cs = (.number, Piece.numberTail cs) := by
  have hblank : ¬Piece.isBlank d = true := by
    simp [Piece.isBlank, ne_of_isDigit hd]
  unfold Piece.tail
  rw [if_neg (ne_of_isDigit hd (by decide)), if_neg (ne_of_isDigit hd (by decide)),
    if_neg hblank, if_neg (ne_of_isDigit hd (by decide)), if_neg (ne_of_isDigit hd (by decide)),
    if_pos hd]

theorem cut_numeral (hwhole : Digits whole) (hfraction : ∀ d ∈ fraction, d.isDigit = true) :
    Piece.cut (numeral whole fraction) = [⟨.number, numeral whole fraction⟩] := by
  obtain ⟨d, ds, rfl⟩ := List.exists_cons_of_ne_nil hwhole.1
  obtain ⟨hd, hds⟩ := List.forall_mem_cons.mp hwhole.2
  rw [numeral_cons, Piece.cut_cons, tail_of_isDigit hd, numberTail_numeral hds hfraction, Piece.cut]

theorem cut_minus (cs : List Char) :
    Piece.cut ('-' :: cs) = ⟨.symbol .minus, ['-']⟩ :: Piece.cut cs := by
  have htail : Piece.tail '-' cs = (.symbol .minus, [], cs) := by
    show Piece.symbolTail '-' cs = _
    exact Piece.symbolTail_alone (by decide) (by intro s'; cases s' <;> decide)
  rw [Piece.cut_cons, htail]

theorem number_numeral (hwhole : Digits whole) :
    number (numeral whole fraction) = ofCode false (readDigits whole fraction) := by
  have hrun : ∃ point, Piece.run Char.isDigit (numeral whole fraction) = (whole, point) ∧
      point.drop 1 = fraction := by
    unfold numeral
    split
    · next hnil => exact ⟨[], run_isDigit_all hwhole.2, hnil.symm⟩
    · exact ⟨'.' :: fraction, Piece.run_of_boundary hwhole.2 (by simp), rfl⟩
  obtain ⟨point, hrun, hpoint⟩ := hrun
  obtain ⟨htake, hdrop⟩ := Prod.mk.inj hrun
  rw [number, htake, hdrop, hpoint]

theorem withoutMark_numeral (hwhole : Digits whole) :
    withoutMark (numeral whole fraction) = numeral whole fraction := by
  obtain ⟨d, ds, rfl⟩ := List.exists_cons_of_ne_nil hwhole.1
  have hd := hwhole.2 d List.mem_cons_self
  rw [numeral_cons, withoutMark, if_neg (ne_of_isDigit hd (by decide))]

end pieces

/-! ## Numerals as tokens -/

/-- The token of a numeral whose digits write the code `c`. -/
def numeralToken (p : Position) (w : List Char) (c : Nat) : Token :=
  ⟨.number, String.ofList w, some (.number (ofCode false c)), p⟩

theorem tokenize_of_scan {source : String} {ts : List Token}
    (h : scan source.toList = ts.map .ok) : tokenize source = .ok ts := by
  have hfaults : faultsOf (ts.map .ok) = [] := by simp [faultsOf, fault?]
  rw [tokenize_eq_ok, h]
  exact ⟨hfaults, tokensOf_map_ok ts⟩

section tokens

variable {whole fraction : List Char}

theorem tokenize_numeral (hwhole : Digits whole) (hfraction : ∀ d ∈ fraction, d.isDigit = true) :
    tokenize (String.ofList (numeral whole fraction)) =
      .ok [numeralToken .start (numeral whole fraction) (readDigits whole fraction),
        ⟨.endOfInput, "", none, Position.start.after (numeral whole fraction)⟩] := by
  apply tokenize_of_scan
  rw [String.toList_ofList, scan, withoutMark_numeral hwhole, cut_numeral hwhole hfraction,
    numeralToken, ← number_numeral hwhole]
  rfl

theorem tokenize_minus_numeral (hwhole : Digits whole)
    (hfraction : ∀ d ∈ fraction, d.isDigit = true) :
    tokenize ("-" ++ String.ofList (numeral whole fraction)) =
      .ok [⟨.symbol .minus, "-", none, .start⟩,
        numeralToken (Position.start.after ['-']) (numeral whole fraction)
          (readDigits whole fraction),
        ⟨.endOfInput, "", none, (Position.start.after ['-']).after (numeral whole fraction)⟩] := by
  apply tokenize_of_scan
  have htext : ("-" ++ String.ofList (numeral whole fraction)).toList =
      '-' :: numeral whole fraction := by simp
  rw [htext, scan, withoutMark, if_neg (by decide), cut_minus, cut_numeral hwhole hfraction,
    numeralToken, ← number_numeral hwhole]
  rfl

end tokens

/-! ## Numerals as expressions -/

theorem spelled_expression {e : Expr} {w : List Token} (h : (Phrase.expr e).Spelled w) :
    Program.Spelled [.expression e] w := by
  have hcons : (Clause.statements [.expression e]).Spelled (true && true) (w ++ [] ++ []) :=
    .cons (.expression h) (by simp [Newlines]) .nil (.inr (.inl rfl)) (by simp)
  rw [List.append_nil, List.append_nil] at hcons
  exact ⟨[], w, true, rfl, by simp [Newlines], hcons⟩

theorem eval_expression {source : String} {ts : List Token} {e : Expr} {v : Value}
    (htokens : tokenize source = .ok ts) (hfits : Program.fits [.expression e] = true)
    (hspelled : (Phrase.expr e).Spelled (content ts)) (fuel : Nat) (m : Machine)
    (heval : evaluate fuel e m = .done v m) :
    Session.eval fuel source m = (.ok (some v), m) := by
  have hparse : parse ts = .ok [.expression e] :=
    parse_of_spelled hfits (spelled_expression hspelled)
  have hdone : (some <$> evaluate fuel e : Run (Option Value)) m = .done (some v) m := by
    show Run.bind (evaluate fuel e) _ m = _
    simp only [Run.bind, heval]
    rfl
  simp only [Session.eval, Session.withProgram, parseSource, htokens, hparse,
    Session.firstExpression?, Session.ofRun, hdone]

theorem numeralToken_spells (p : Position) (w : List Char) (c : Nat) :
    (Literal.number (ofCode false c)).SpelledBy (numeralToken p w c) := ⟨.inl rfl, rfl⟩

section values

variable {whole fraction : List Char} (hwhole : Digits whole)
  (hfraction : ∀ d ∈ fraction, d.isDigit = true) (fuel : Nat) (m : Machine)

include hwhole hfraction

theorem eval_numeral :
    Session.eval fuel (String.ofList (numeral whole fraction)) m =
      (.ok (some (.number (ofCode false (readDigits whole fraction)))), m) :=
  eval_expression (tokenize_numeral hwhole hfraction) rfl (.literal (numeralToken_spells _ _ _))
    fuel m rfl

theorem eval_minus_numeral :
    Session.eval fuel ("-" ++ String.ofList (numeral whole fraction)) m =
      (.ok (some (.number (-ofCode false (readDigits whole fraction)))), m) := by
  have hminus : Kind.symbol .minus = UnaryOp.negate.word := rfl
  exact eval_expression (tokenize_minus_numeral hwhole hfraction) rfl
    (.unary hminus (.literal (numeralToken_spells _ _ _))) fuel m rfl

end values

/-! ## Printed numbers -/

section printed

variable {x : Float}

/-- What is printed for a finite number: a numeral of its magnitude, and a minus in front of it if
the number is below zero. -/
theorem display_number (hx : code x < infinityCode) :
    ∃ whole fraction, Digits whole ∧ (∀ d ∈ fraction, d.isDigit = true) ∧
      readDigits whole fraction = code x ∧
      (Value.number x).display =
        (if isNegative x = true ∧ code x ≠ 0 then "-" else "") ++
          String.ofList (numeral whole fraction) := by
  obtain ⟨whole, fraction, htext, hne, hdigits, hread⟩ := readDigits_shortest hx
  rw [List.forall_mem_append] at hdigits
  refine ⟨whole, fraction, ⟨hne, hdigits.1⟩, hdigits.2, hread, ?_⟩
  show render printed x = _
  rw [render, if_pos hx, htext]
  simp [printed]

/-- **Printed numbers read back.** What is printed for a finite number is one number token with the
magnitude of the number, behind a minus if the number is below zero. Evaluated as an expression, it
is equal to the number. -/
theorem tokenize_display (hx : x.isFinite = true) :
    (0 ≤ x → ∃ t e, tokenize (Value.number x).display = .ok [t, e] ∧
      t.kind = .number ∧ t.payload = some (.number x.abs) ∧ e.kind = .endOfInput) ∧
    (x < 0 → ∃ s t e, tokenize (Value.number x).display = .ok [s, t, e] ∧
      s.kind = .symbol .minus ∧ t.kind = .number ∧ t.payload = some (.number (-x)) ∧
      e.kind = .endOfInput) ∧
    ∀ fuel m, ∃ y, Session.eval fuel (Value.number x).display m = (.ok (some (.number y)), m) ∧
      (y == x) = true := by
  rw [isFinite_iff] at hx
  obtain ⟨whole, fraction, hwhole, hfraction, hread, htext⟩ := display_number hx
  rw [zero_le_iff hx, lt_zero_iff hx, htext]
  by_cases hneg : isNegative x = true ∧ code x ≠ 0
  · rw [if_pos hneg]
    have htokens := tokenize_minus_numeral hwhole hfraction
    have hvalue : ofCode false (code x) = -x := by rw [neg_eq hx.le, hneg.1]; rfl
    refine ⟨fun hsign => ?_, fun _ => ⟨_, _, _, htokens, rfl, rfl, ?_, rfl⟩, fun fuel m =>
      ⟨_, eval_minus_numeral hwhole hfraction fuel m, ?_⟩⟩
    · simp [hneg.1, hneg.2] at hsign
    · rw [numeralToken, hread, hvalue]
    · have hcode := ofCode_code hx.le
      have hminus : -ofCode false (code x) = x := by
        rw [neg_eq (by rw [code_ofCode hx.le]; exact hx.le), code_ofCode hx.le,
          isNegative_ofCode hx.le, Bool.not_false, ← hneg.1, hcode]
      rw [hread, hminus]
      exact beq_of_code_eq hx rfl (.inl rfl)
  · rw [if_neg hneg, String.empty_append]
    have htokens := tokenize_numeral hwhole hfraction
    refine ⟨fun _ => ⟨_, _, htokens, rfl, ?_, rfl⟩, fun hsign => absurd hsign hneg, fun fuel m =>
      ⟨_, eval_numeral hwhole hfraction fuel m, ?_⟩⟩
    · rw [numeralToken, hread, abs_eq hx.le]
    · rw [hread]
      apply beq_of_code_eq
      · rw [code_ofCode hx.le]
        exact hx
      · exact code_ofCode hx.le
      · rw [code_ofCode hx.le, isNegative_ofCode hx.le]
        cases hsign : isNegative x with
        | false => exact .inl rfl
        | true => exact .inr (not_not.mp fun hne => hneg ⟨hsign, hne⟩)

/-- The number closest to zero from below, which has 324 places. -/
theorem tokenize_display_least :
    (Float.ofBits 0x8000000000000001).isFinite = true ∧ Float.ofBits 0x8000000000000001 < 0 ∧
    ∃ s t e, tokenize (Value.number (Float.ofBits 0x8000000000000001)).display = .ok [s, t, e] ∧
      s.kind = .symbol .minus ∧ t.kind = .number ∧
      t.payload = some (.number (-Float.ofBits 0x8000000000000001)) ∧ e.kind = .endOfInput := by
  have hfinite : (Float.ofBits 0x8000000000000001).isFinite = true := by decide
  have hneg : Float.ofBits 0x8000000000000001 < 0 := by decide
  exact ⟨hfinite, hneg, (tokenize_display hfinite).2.1 hneg⟩

end printed

end Offside
