import Offside.Proofs.Source.Depths

/-!
# Blanks on lines without code

The blanks of a line without code open and close no block. They count for one thing: if no line
before has begun with a blank, the first of them becomes the blank that the whole text is indented
with. So they can be replaced by others, or left out, and the tokens keep their kinds as long as
that blank stays the same (`unitOf`). If it changes, blocks further down may change
(`tokenize_tab_alone`), but nothing else does, and they stay exactly if the lines with code are as
deep as before (`depths`).

Behind the blanks the scanner goes on as if the unit of the whole text had been known all along
(`Source.scan_blanks`).
-/

namespace Offside

/-! ## A unit known before -/

/-- The margin with a unit, if it has none yet. -/
def Margin.knowing (m : Margin) (u : Option Char) : Margin := ⟨m.widths, m.unit.or u⟩

namespace Margin

variable (m : Margin) (u : Option Char)

theorem moveTo_knowing (shown : List Char) (p : Position) :
    (m.knowing u).moveTo shown p = ((m.moveTo shown p).1.knowing u, (m.moveTo shown p).2) := by
  unfold moveTo
  show (if m.width < shown.length then _ else _) = _
  split_ifs
  · rfl
  · rfl

theorem unitAfter_knowing (blanks : List Char) :
    (m.knowing (blanks.head?.or u)).unitAfter blanks = (m.unitAfter blanks).or u := by
  unfold unitAfter knowing
  cases m.unit with
  | some c => rfl
  | none =>
    cases blanks with
    | nil => cases u <;> rfl
    | cons c cs => rfl

theorem measured_knowing (blanks : List Char) :
    measured (((m.unitAfter blanks).or u).getD ' ') blanks =
      measured ((m.unitAfter blanks).getD ' ') blanks := by
  cases blanks with
  | nil => rfl
  | cons c cs =>
    unfold unitAfter
    cases m.unit with
    | some d => rfl
    | none => rfl

end Margin

namespace Source

section unit

variable {m : Margin} {p : Position} {q : Piece} {qs : List Piece}

theorem startLine_knowing :
    (m.knowing (firstUnit true (q :: qs))).startLine p (q :: qs) =
      ((m.startLine p (q :: qs)).1.knowing (firstUnit (q.shape == .lineBreak) qs),
        (m.startLine p (q :: qs)).2) := by
  rw [firstUnit, Bool.true_and]
  generalize firstUnit (q.shape == .lineBreak) qs = u
  unfold Margin.startLine
  simp only [beq_iff_eq]
  by_cases hs : q.shape = .blanks
  · simp only [if_pos hs, m.unitAfter_knowing, m.measured_knowing]
    split_ifs
    · rfl
    · exact Margin.moveTo_knowing ⟨m.widths, m.unitAfter q.text⟩ u _ p
  · simp only [if_neg hs, Option.none_or]
    split_ifs
    · rfl
    · rfl

/-- It makes no difference if the unit is known before the first line that shows it. -/
theorem items_knowing (atStart : Bool) :
    items (m.knowing (firstUnit atStart qs)) atStart p qs = items m atStart p qs := by
  induction qs generalizing m atStart p with
  | nil => rfl
  | cons q qs ih =>
    cases atStart with
    | false =>
      rw [items_inLine, items_inLine, itemsFrom, itemsFrom, ← ih (m := m)]
      rfl
    | true =>
      rw [items_atStart, items_atStart, startLine_knowing, itemsFrom, itemsFrom, ih]

theorem unit_startLine :
    (m.startLine p (q :: qs)).1.unit =
      m.unit.or (if q.shape = .blanks then q.text.head? else none) := by
  unfold Margin.startLine
  simp only
  split_ifs with hs hblank hblank
  · exact Option.orElse_eq_or
  · unfold Margin.moveTo
    split_ifs
    · exact Option.orElse_eq_or
    · exact Option.orElse_eq_or
  · exact Option.or_none.symm
  · exact Option.or_none.symm

theorem unit_marginBehind (atStart : Bool) :
    (marginBehind m atStart p qs).unit = m.unit.or (firstUnit atStart qs) := by
  induction qs generalizing m atStart p with
  | nil => exact Option.or_none.symm
  | cons q qs ih =>
    rw [marginBehind, ih, firstUnit, ← Option.or_assoc]
    congr 1
    cases atStart with
    | false => exact Option.or_none.symm
    | true => simpa using unit_startLine

theorem widths_marginBehind {atStart : Bool} (h : firstUnit atStart qs = none)
    (hm : m.widths = []) : (marginBehind m atStart p qs).widths = [] := by
  induction qs generalizing m atStart p with
  | nil => exact hm
  | cons q qs ih =>
    have hfirst := h
    rw [firstUnit] at hfirst
    refine ih (Option.or_eq_none_iff.mp hfirst).2 ?_
    cases atStart with
    | false => exact hm
    | true =>
      rw [if_pos rfl, startLine_known fun _ => h]
      split_ifs with hbare hq
      · exact hm
      · have hnil : q.text = [] := by
          rw [hq] at hfirst
          exact List.head?_eq_none_iff.mp (Option.or_eq_none_iff.mp hfirst).1
        rw [moveTo_fst, hm, hnil]
        rfl
      · rw [moveTo_fst, hm]
        rfl

end unit

end Source

/-! ## Blanks without code behind them -/

/-- Nothing but spaces and tabs. -/
def Blanks (text : List Char) : Prop := ∀ c ∈ text, Piece.isBlank c = true
theorem Piece.cut_blanks {blanks text : List Char} (hblanks : Blanks blanks) (hne : blanks ≠ [])
    (h : LineOver text) : cut (blanks ++ text) = ⟨.blanks, blanks⟩ :: cut text := by
  obtain ⟨c, cs, rfl⟩ := List.exists_cons_of_ne_nil hne
  obtain ⟨hc, hcs⟩ := List.forall_mem_cons.mp hblanks
  have hend : ∀ d ∈ text.head?, isBlank d = false := by
    intro d hd
    rcases h d hd with rfl | rfl | rfl <;> rfl
  rw [List.cons_append, cut_cons, tail_of_isBlank hc, run_of_boundary hcs hend]

namespace Source

theorem startLine_over {m : Margin} {p : Position} {qs : List Piece}
    (h : Margin.isBlankLine qs = true) : m.startLine p qs = (m, []) := by
  cases qs with
  | nil => rfl
  | cons q qs =>
    have hs : q.shape ≠ .blanks := by
      intro hs
      simp [Margin.isBlankLine, hs] at h
    rw [Margin.startLine, if_neg hs, if_pos h]

theorem items_over {m : Margin} {p : Position} {qs : List Piece} {atStart : Bool}
    (h : Margin.isBlankLine qs = true) : items m atStart p qs = items m false p qs := by
  cases qs with
  | nil => rfl
  | cons q qs =>
    cases atStart with
    | false => rfl
    | true =>
      rw [items_atStart, startLine_over h]
      rfl

theorem items_blanks {blanks text : List Char} {m : Margin} {atStart : Bool} (p : Position)
    (hblanks : Blanks blanks) (h : LineOver text)
    (hknown : m.unit.or (firstIndent atStart (blanks ++ text)) = m.unit) :
    items m atStart p (Piece.cut (blanks ++ text)) =
      items m false (p.after blanks) (Piece.cut text) := by
  have hover := h.isBlankLine
  by_cases hnil : blanks = []
  · subst hnil
    rw [List.nil_append]
    exact items_over hover
  · rw [Piece.cut_blanks hblanks hnil h]
    cases atStart with
    | false => rfl
    | true =>
      have hfirst : firstIndent true (blanks ++ text) = blanks.head? := by
        obtain ⟨c, cs, rfl⟩ := List.exists_cons_of_ne_nil hnil
        exact if_pos (by simp [hblanks c List.mem_cons_self])
      have hunit : m.unitAfter blanks = m.unit := by
        rw [Margin.unitAfter, Option.orElse_eq_orElse, Option.orElse_eq_or, ← hfirst, hknown]
      rw [items_atStart, Margin.startLine, if_pos rfl]
      simp only [hover, if_true, hunit]
      rfl

theorem exists_withoutMark {lines text : List Char}
    (hlines : WholeLines lines ∨ lines = ['\ufeff']) (h : LineOver text) :
    ∃ ls, WholeLines ls ∧ (∀ rest, unitOf (lines ++ rest) = unitOf (ls ++ rest)) ∧
      ∀ blanks, Blanks blanks →
        withoutMark (lines ++ (blanks ++ text)) = ls ++ (blanks ++ text) := by
  by_cases hnil : lines = []
  · subst hnil
    refine ⟨[], by simp [WholeLines], fun rest => rfl, fun blanks hblanks => ?_⟩
    apply withoutMark_eq_self
    rintro c hc rfl
    cases blanks with
    | nil => exact absurd (h _ hc) (by decide)
    | cons b bs =>
      obtain rfl : b = '\ufeff' := Option.some.inj hc
      exact absurd (hblanks _ List.mem_cons_self) (by decide)
  · obtain ⟨mark, hmark, hmarks⟩ := withoutMark_split lines
    have hnoBreak : '\n' ∉ mark := fun hmem => absurd (hmarks _ hmem) (by decide)
    refine ⟨withoutMark lines, ?_, fun rest => ?_, fun blanks _ => withoutMark_append hnil _⟩
    · rcases hlines with hlines | rfl
      · rw [hmark] at hlines
        exact hlines.of_append
      · simp [withoutMark, WholeLines]
    · conv_lhs => rw [hmark, List.append_assoc]
      exact firstIndent_noBreak hnoBreak _

theorem indents_over {blanks text : List Char} (hblanks : Blanks blanks) (h : LineOver text)
    (atStart : Bool) : indents atStart (blanks ++ text) = indents false text := by
  have hnoBreak : '\n' ∉ blanks := fun hmem => absurd (hblanks _ hmem) (by decide)
  have hdrop : text.dropWhile Piece.isBlank = text := by
    cases text with
    | nil => rfl
    | cons c cs =>
      refine List.dropWhile_cons_of_neg ?_
      rcases h c rfl with rfl | rfl | rfl <;> decide
  have hcode : beginsCode (blanks ++ text) = false := by
    rw [beginsCode_eq_false, List.dropWhile_append_of_pos hblanks, hdrop]
    exact h
  rw [← indents_noBreak hnoBreak text]
  generalize blanks ++ text = line at hcode
  cases line with
  | nil => rfl
  | cons c cs => rw [indents, indents, hcode, Bool.and_false, Bool.false_and]

theorem indents_blanks {lines blanks text : List Char}
    (hlines : WholeLines lines ∨ lines = ['\ufeff']) (hblanks : Blanks blanks)
    (h : LineOver text) :
    indents false (lines ++ (blanks ++ text)) = indents false lines ++ indents false text := by
  rcases hlines with hlines | rfl
  · have hlast : ∀ q ∈ (Piece.cut lines).getLast?, q.shape ≠ .blanks := by
      intro q hq
      rw [Piece.cut_wholeLines hlines q hq]
      decide
    rw [← pieceIndents_cut, Piece.cut_join hlines, pieceIndents_append false (.inl hlast),
      pieceIndents_cut, pieceIndents_cut, indents_over hblanks h]
  · rw [indents_noBreak (by decide), indents_over hblanks h]
    rfl

theorem firstIndent_append_of_some {atStart : Bool} {w : List Char} {c : Char}
    (h : firstIndent atStart w = some c) (rest : List Char) :
    firstIndent atStart (w ++ rest) = some c := by
  induction w generalizing atStart with
  | nil => cases h
  | cons d w ih =>
    rw [firstIndent] at h
    rw [List.cons_append, firstIndent]
    split_ifs at h ⊢
    · exact h
    · exact ih h

theorem firstIndent_of_append_none {atStart : Bool} {w text : List Char}
    (h : firstIndent atStart (w ++ text) = none) : firstIndent false text = none := by
  induction w generalizing atStart with
  | nil =>
    cases text with
    | nil => rfl
    | cons c cs =>
      rw [List.nil_append, firstIndent] at h
      split_ifs at h
      exact h
  | cons d w ih =>
    rw [List.cons_append, firstIndent] at h
    split_ifs at h
    exact ih h

theorem depthsFrom_outermost {indents : List (List Char)} (h : ∀ blanks ∈ indents, blanks = [])
    (u : Char) (later : List (List Char)) :
    depthsFrom u [] (indents ++ later) = indents.map (fun _ => 0) ++ depthsFrom u [] later := by
  induction indents with
  | nil => rfl
  | cons blanks indents ih =>
    obtain ⟨rfl, hrest⟩ := List.forall_mem_cons.mp h
    exact congrArg (0 :: ·) (ih hrest)

/-- Behind whole lines and some blanks the scanner goes on as if the unit of the whole text had been
known all along. -/
theorem scan_blanks {lines text : List Char}
    (hlines : WholeLines lines ∨ lines = ['\ufeff']) (h : LineOver text) :
    ∃ before ws, ∃ p : Position, (unitOf lines = none → ws = []) ∧ ∀ blanks, Blanks blanks →
      scan (lines ++ (blanks ++ text)) = before ++
        items ⟨ws, unitOf (lines ++ (blanks ++ text))⟩ false (p.after blanks) (Piece.cut text) := by
  obtain ⟨ls, hls, hunit, hmark⟩ := exists_withoutMark hlines h
  have hlast : ∀ q ∈ (Piece.cut ls).getLast?, q.shape ≠ .blanks := by
    intro q hq
    rw [Piece.cut_wholeLines hls q hq]
    decide
  refine ⟨front .outermost false .start (Piece.cut ls),
    (marginBehind .outermost false .start (Piece.cut ls)).widths, Position.start.after ls,
    fun hnone => ?_, fun blanks hblanks => ?_⟩
  · have hls := hunit []
    rw [List.append_nil, List.append_nil, hnone, unitOf, ← firstUnit_cut] at hls
    exact widths_marginBehind hls.symm rfl
  rw [scan, hmark blanks hblanks, Piece.cut_join hls, items_front false (.inl hlast),
    Piece.cut_flatten, ← items_knowing, hunit, unitOf, ← firstUnit_cut, Piece.cut_join hls,
    firstUnit_append, Margin.knowing, unit_marginBehind]
  congr 1
  refine items_blanks _ hblanks h ?_
  rw [firstUnit_cut _ (blanks ++ text), Option.or_assoc, Option.or_self]

section replaced

variable {lines blanks blanks' text : List Char}

theorem kinds_blanks (hlines : WholeLines lines ∨ lines = ['\ufeff']) (hblanks : Blanks blanks)
    (hblanks' : Blanks blanks') (h : LineOver text)
    (hunit : unitOf (lines ++ (blanks' ++ text)) = unitOf (lines ++ (blanks ++ text))) :
    (scan (lines ++ (blanks' ++ text))).map kind? =
      (scan (lines ++ (blanks ++ text))).map kind? := by
  obtain ⟨before, ws, p, -, hscan⟩ := scan_blanks hlines h
  rw [hscan _ hblanks, hscan _ hblanks', hunit, List.map_append, List.map_append,
    kinds_items _ false (p.after blanks')]

/-- If the unit changes, no block is open where the blanks are, and the depths of the lines behind
them decide. -/
theorem kinds_blanks_iff (hlines : WholeLines lines ∨ lines = ['\ufeff']) (hblanks : Blanks blanks)
    (hblanks' : Blanks blanks') (h : LineOver text) :
    (scan (lines ++ (blanks' ++ text))).map kind? = (scan (lines ++ (blanks ++ text))).map kind? ↔
      depths (lines ++ (blanks' ++ text)) = depths (lines ++ (blanks ++ text)) := by
  unfold depths
  rw [indents_blanks hlines hblanks h, indents_blanks hlines hblanks' h]
  by_cases hunit : unitOf (lines ++ (blanks' ++ text)) = unitOf (lines ++ (blanks ++ text))
  · rw [hunit]
    exact iff_of_true (kinds_blanks hlines hblanks hblanks' h hunit) rfl
  · -- a unit of the lines in front would be the unit of both texts
    have hnone : unitOf lines = none := by
      cases hsome : unitOf lines with
      | none => rfl
      | some c =>
        refine absurd ?_ hunit
        rw [unitOf, unitOf, firstIndent_append_of_some hsome, firstIndent_append_of_some hsome]
    have hbehind : ∀ {blanks : List Char}, unitOf (lines ++ (blanks ++ text)) = none →
        firstUnit false (Piece.cut text) = none := by
      intro blanks hwhole
      rw [unitOf, ← List.append_assoc] at hwhole
      rw [firstUnit_cut]
      exact firstIndent_of_append_none hwhole
    obtain ⟨before, ws, p, hws, hscan⟩ := scan_blanks hlines h
    -- so no block is open behind these lines, whatever the unit is
    obtain rfl := hws hnone
    have hflat := indents_of_firstIndent hnone
    rw [hscan _ hblanks, hscan _ hblanks', List.map_append, List.map_append,
      List.append_cancel_left_eq, kinds_items _ false (p.after blanks') (p.after blanks),
      kinds_items_iff (Piece.cut_apart text) hbehind hbehind (by simp) (by simp) rfl,
      pieceIndents_cut, depthsFrom_outermost hflat, depthsFrom_outermost hflat,
      List.append_cancel_left_eq]

end replaced

end Source

open Source

/-- **Blanks on lines without code.** The blanks of a line can be replaced if there is no code
behind them: the text still has no faults, and the tokens other than the begins and ends of blocks
keep their kinds. If the blank that the text is indented with stays the same, all tokens keep their
kinds. In general they do exactly if every line with code stays as deep as it was. -/
theorem tokenize_blanks {lines blanks blanks' text : List Char} {ts : List Token}
    (hlines : WholeLines lines ∨ lines = ['\ufeff']) (hblanks : Blanks blanks)
    (hblanks' : Blanks blanks') (h : LineOver text)
    (hts : tokenize (.ofList (lines ++ (blanks ++ text))) = .ok ts) :
    ∃ ts', tokenize (.ofList (lines ++ (blanks' ++ text))) = .ok ts' ∧
      (ts'.map Token.kind).filter Kind.isWritten = (ts.map Token.kind).filter Kind.isWritten ∧
      (unitOf (lines ++ (blanks' ++ text)) = unitOf (lines ++ (blanks ++ text)) →
        ts'.map Token.kind = ts.map Token.kind) ∧
      (ts'.map Token.kind = ts.map Token.kind ↔
        depths (lines ++ (blanks' ++ text)) = depths (lines ++ (blanks ++ text))) := by
  obtain ⟨before, ws, p, -, hscan⟩ := scan_blanks hlines h
  obtain ⟨hfaults, rfl⟩ := tokenize_eq_ok.mp hts
  rw [String.toList_ofList] at hfaults ⊢
  -- what is written, faults included, does not depend on the margin
  have hwritten : ((scan (lines ++ (blanks' ++ text))).filter (keeps Kind.isWritten)).map kind? =
      ((scan (lines ++ (blanks ++ text))).filter (keeps Kind.isWritten)).map kind? := by
    rw [hscan _ hblanks, hscan _ hblanks', List.filter_append, List.filter_append, items_written,
      items_written, List.map_append, List.map_append, kinds_found (p.after blanks')]
  have hfaults' : faultsOf (scan (lines ++ (blanks' ++ text))) = [] := by
    rw [← faultsOf_keeps Kind.isWritten, faultsOf_eq_nil_iff] at hfaults ⊢
    rwa [hwritten]
  refine ⟨_, tokenize_eq_ok.mpr ⟨by rwa [String.toList_ofList], rfl⟩, ?_, fun hunit => ?_, ?_⟩
  · rw [String.toList_ofList, List.filter_map, List.filter_map]
    have hkinds := congrArg (List.filterMap id) hwritten
    rw [← kinds_tokensOf, ← kinds_tokensOf, tokensOf_keeps, tokensOf_keeps] at hkinds
    exact hkinds
  · rw [String.toList_ofList, kinds_tokensOf, kinds_tokensOf,
      kinds_blanks hlines hblanks hblanks' h hunit]
  · rw [String.toList_ofList, ← kinds_blanks_iff hlines hblanks hblanks' h,
      kinds_eq_iff hfaults' hfaults]

/-- A line with a tab alone, among lines that are indented with spaces; and one that changes the
unit of the text but no depth. -/
theorem tokenize_blanks_tab :
    (∃ ts ts', tokenize "IF a\n  IF b\n\t# c\n    PASS\n" = .ok ts ∧
      tokenize "IF a\n  IF b\n# c\n    PASS\n" = .ok ts' ∧
      ts'.map Token.kind = ts.map Token.kind) ∧
    ∃ ts ts', tokenize "IF a\n\t\n  PASS\n" = .ok ts ∧ tokenize "IF a\n\n  PASS\n" = .ok ts' ∧
      ts'.map Token.kind = ts.map Token.kind := by
  obtain ⟨ts, hts⟩ := @exists_tokens "IF a\n  IF b\n\t# c\n    PASS\n" (by with_unfolding_all rfl)
  obtain ⟨ts', hts', -, hkinds, -⟩ :=
    @tokenize_blanks "IF a\n  IF b\n".toList ['\t'] [] "# c\n    PASS\n".toList ts
      (.inl (wholeLines_of_getLast? (by decide)).2) (by simp [Blanks, Piece.isBlank])
      (by simp [Blanks]) (by simp [LineOver]) hts
  obtain ⟨us, hus⟩ := @exists_tokens "IF a\n\t\n  PASS\n" (by with_unfolding_all rfl)
  obtain ⟨us', hus', -, -, hdepths⟩ :=
    @tokenize_blanks "IF a\n".toList ['\t'] [] "\n  PASS\n".toList us
      (.inl (wholeLines_of_getLast? (by decide)).2) (by simp [Blanks, Piece.isBlank])
      (by simp [Blanks]) (by simp [LineOver]) hus
  exact ⟨⟨ts, ts', hts, hts', hkinds (by decide)⟩, us, us', hus, hus', hdepths.mpr (by decide)⟩

/-- A tab on a line without code as the first blank at the start of a line. Counted in tabs, the two
lines behind it are equally wide, so the last line begins no block. -/
theorem tokenize_tab_alone :
    (tokenize "IF a\n\t\n  IF b\n    PASS\n").map (·.map Token.kind) =
      .ok [.keyword .ifStmt, .identifier, .newline, .newline, .indent, .keyword .ifStmt,
        .identifier, .newline, .keyword .passStmt, .newline, .dedent, .endOfInput] ∧
    (tokenize "IF a\n\n  IF b\n    PASS\n").map (·.map Token.kind) =
      .ok [.keyword .ifStmt, .identifier, .newline, .newline, .indent, .keyword .ifStmt,
        .identifier, .newline, .indent, .keyword .passStmt, .newline, .dedent, .dedent,
        .endOfInput] := by
  constructor
  · with_unfolding_all rfl
  · with_unfolding_all rfl

end Offside
