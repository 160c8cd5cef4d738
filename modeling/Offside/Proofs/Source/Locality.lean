import Offside.Proofs.Source.Joining
import Offside.Proofs.Source.LongestMatch

/-!
# Lines on their own

The scanner goes through a text as a whole, but no piece goes beyond the end of its line
(`Piece.cut_line`) and what a piece is does not depend on the margin. So all faults and all tokens
but those of the layout are found in each line alone, at the same columns.
-/

namespace Offside

/-! ## Cutting one line -/

namespace Piece

/-- A line feed behind a text is a piece of its own, or becomes one with a carriage return. -/
theorem cut_line (cs : List Char) :
    cut (cs ++ ['\n']) = cut cs ++ [⟨.lineBreak, ['\n']⟩] ∨
      ∃ qs, cut cs = qs ++ [⟨.carriage, ['\r']⟩] ∧
        cut (cs ++ ['\n']) = qs ++ [⟨.lineBreak, ['\r', '\n']⟩] := by
  by_cases hend : ∃ q ∈ (cut cs).getLast?, q.shape = .carriage
  · obtain ⟨⟨shape, w⟩, hlast, hshape⟩ := hend
    have hw := (cut_genuine cs _ (List.mem_of_getLast? hlast)).carriage hshape
    obtain rfl : shape = .carriage := hshape
    obtain rfl : w = ['\r'] := hw
    obtain ⟨qs, hqs⟩ := List.getLast?_eq_some_iff.mp hlast
    have hcs : cs = qs.flatMap text ++ ['\r'] := by
      rw [← cut_flatten cs, hqs, List.flatMap_append]
      rfl
    refine .inr ⟨qs, hqs, ?_⟩
    have hline := cut_swap (r := ['\r', '\n']) (hcs ▸ hqs) (.inl (.append (w := ['\r'])
      (List.cons_ne_nil _ _) (by simp)))
    rw [hcs, List.append_assoc]
    rwa [cut_return, cut] at hline
  · refine .inl ?_
    rw [cut_append, cut_lineFeed, cut]
    rintro q hq c ⟨⟩
    exact Shape.stopsAt_lineFeed fun hshape => hend ⟨q, hq, hshape⟩

end Piece

/-! ## Scanning one line -/

namespace Position

def onLine (k : Nat) (p : Position) : Position := ⟨k, p.column⟩

theorem after_onLine (k : Nat) {cs : List Char} (h : '\n' ∉ cs) (p : Position) :
    (p.onLine k).after cs = (p.after cs).onLine k := by
  induction cs generalizing p with
  | nil => rfl
  | cons c cs ih =>
    rw [List.mem_cons, not_or] at h
    have hnext : (p.onLine k).next c = (p.next c).onLine k := by
      unfold next
      rw [if_neg (Ne.symm h.1), if_neg (Ne.symm h.1)]
      rfl
    rw [after_cons, after_cons, hnext, ih h.2]

theorem after_line (k : Nat) {cs : List Char} (h : '\n' ∉ cs) :
    (start.onLine k).after (cs ++ ['\n']) = start.onLine (k + 1) := by
  rw [after_append, after_onLine k h]
  rfl

end Position

def Fault.move (f : Position → Position) (e : Fault) : Fault := ⟨e.cause, f e.pos⟩

/-- Whether a token is in a line, and not before or behind its code. -/
def Kind.isInLine : Kind → Bool
  | .indent | .dedent | .newline | .endOfInput => false
  | _ => true

namespace Source

theorem isInLine_of_isCode {k : Kind} (h : k.isCode = true) : k.isInLine = true := by
  revert h
  cases k <;> simp [Kind.isCode, Kind.isInLine]

theorem found_append (p : Position) (qs rs : List Piece) :
    found p (qs ++ rs) = found p qs ++ found (p.after (qs.flatMap Piece.text)) rs := by
  induction qs generalizing p with
  | nil => rfl
  | cons q qs ih =>
    rw [List.cons_append, found, found, ih, List.flatMap_cons, Position.after_append,
      List.append_assoc]

theorem found_move {f : Position → Position} {qs : List Piece}
    (hf : ∀ q ∈ qs, ∀ p, (f p).after q.text = f (p.after q.text)) (p : Position) :
    found (f p) qs = (found p qs).map (moveItem f) := by
  induction qs generalizing p with
  | nil => rfl
  | cons q qs ih =>
    rw [List.forall_mem_cons] at hf
    rw [found, found, item?_move, hf.1, ih hf.2, List.map_append]
    cases item? p q <;> rfl

theorem not_mem_text {cs : List Char} (h : '\n' ∉ cs) : ∀ q ∈ Piece.cut cs, '\n' ∉ q.text := by
  intro q hq hbreak
  refine h ?_
  rw [← Piece.cut_flatten cs]
  exact List.mem_flatMap.mpr ⟨q, hq, hbreak⟩

theorem shape_of_noBreak {cs : List Char} (h : '\n' ∉ cs) :
    ∀ q ∈ Piece.cut cs, q.shape ≠ .lineBreak := by
  intro q hq hshape
  exact not_mem_text h q hq
    (List.mem_of_getLast? ((Piece.cut_genuine cs q hq).getLast? hshape))

theorem found_onLine (k : Nat) {cs : List Char} (h : '\n' ∉ cs) :
    found (Position.start.onLine k) (Piece.cut cs) =
      (found .start (Piece.cut cs)).map (moveItem (.onLine k)) :=
  found_move (fun q hq => Position.after_onLine k (not_mem_text h q hq)) .start

theorem found_isInLine {cs : List Char} (h : '\n' ∉ cs) (p : Position) :
    (found p (Piece.cut cs)).filter (keeps Kind.isInLine) = found p (Piece.cut cs) := by
  have hcut := not_mem_text h
  have hgenuine := Piece.cut_genuine cs
  generalize Piece.cut cs = qs at hcut hgenuine
  rw [List.filter_eq_self]
  induction qs generalizing p with
  | nil => simp [found]
  | cons q qs ih =>
    rw [List.forall_mem_cons] at hcut hgenuine
    intro i hi
    rcases List.mem_append.mp hi with hi | hi
    · cases i with
      | error f => rfl
      | ok t =>
        have hshape : q.shape ≠ .lineBreak := fun hq =>
          hcut.1 (List.mem_of_getLast? (hgenuine.1.getLast? hq))
        show t.kind.isInLine = true
        rcases kind_of_item?_eq_some (Option.mem_toList.mp hi) with ⟨hq, -⟩ | ⟨-, hk⟩ | ⟨-, -, hk⟩
        · exact absurd hq hshape
        · rw [hk]
          rfl
        · exact isInLine_of_isCode hk
    · exact ih _ hcut.2 hgenuine.2 i hi

theorem found_line (p : Position) (cs : List Char) :
    ∃ t : Token, t.kind = .newline ∧
      found p (Piece.cut (cs ++ ['\n'])) = found p (Piece.cut cs) ++ [.ok t] := by
  rcases Piece.cut_line cs with hcut | ⟨qs, hqs, hcut⟩
  · refine ⟨⟨.newline, "\n", none, p.after ((Piece.cut cs).flatMap Piece.text)⟩, rfl, ?_⟩
    rw [hcut, found_append]
    rfl
  · refine ⟨⟨.newline, "\n", none, p.after (qs.flatMap Piece.text)⟩, rfl, ?_⟩
    rw [hqs, hcut, found_append, found_append, List.append_assoc]
    rfl

/-! ## All lines -/

/-- What is found in lines on their own, the first of which is the line `k`. -/
def foundInLines (k : Nat) (ls : List (List Char)) : List Item :=
  (ls.zipIdx k).flatMap fun l => (found .start (Piece.cut l.1)).map (moveItem (.onLine l.2))

theorem found_lines (k : Nat) (ls : List (List Char)) (h : ∀ l ∈ ls, '\n' ∉ l) :
    (found (Position.start.onLine k) (Piece.cut (List.intercalate ['\n'] ls))).filter
      (keeps Kind.isInLine) = foundInLines k ls := by
  induction ls generalizing k with
  | nil => simp [foundInLines, List.intercalate, Piece.cut, found]
  | cons l ls ih =>
    rw [List.forall_mem_cons] at h
    cases ls with
    | nil =>
      have htext : List.intercalate ['\n'] [l] = l := by simp [List.intercalate]
      rw [htext, found_isInLine h.1, found_onLine k h.1]
      simp [foundInLines]
    | cons l' ls =>
      have htext : List.intercalate ['\n'] (l :: l' :: ls) =
          (l ++ ['\n']) ++ List.intercalate ['\n'] (l' :: ls) := by
        simp [List.intercalate, List.intersperse]
      have hwhole : WholeLines (l ++ ['\n']) := by simp [WholeLines]
      obtain ⟨t, ht, hline⟩ := found_line (Position.start.onLine k) l
      have hbreak : ([.ok t] : List Item).filter (keeps Kind.isInLine) = [] := by
        simp [keeps, ht, Kind.isInLine]
      rw [htext, Piece.cut_join hwhole, found_append, Piece.cut_flatten, Position.after_line k h.1,
        List.filter_append, ih (k + 1) h.2, hline, List.filter_append, found_isInLine h.1, hbreak,
        List.append_nil, found_onLine k h.1]
      rfl

theorem faultsOf_append (is js : List Item) : faultsOf (is ++ js) = faultsOf is ++ faultsOf js :=
  List.filterMap_append

theorem faultsOf_move (f : Position → Position) (is : List Item) :
    faultsOf (is.map (moveItem f)) = (faultsOf is).map (Fault.move f) := by
  induction is with
  | nil => rfl
  | cons i is ih =>
    cases i with
    | ok t => exact ih
    | error e => exact congrArg (e.move f :: ·) ih

/-- The lines of a source text without the line feeds between them. A byte order mark in front of
the text does not belong to the first line. -/
def lines (source : String) : List (List Char) := (withoutMark source.toList).splitOn '\n'

theorem not_mem_splitOn (cs : List Char) : ∀ l ∈ cs.splitOn '\n', '\n' ∉ l := by
  induction cs with
  | nil => simp
  | cons c cs ih =>
    obtain ⟨l, ls, hls⟩ := List.exists_cons_of_ne_nil (List.splitOn_ne_nil '\n' cs)
    rw [List.splitOn, List.splitOnP_cons_eq_if_modifyHead, ← List.splitOn, hls]
    rw [hls, List.forall_mem_cons] at ih
    split_ifs with hc
    · exact List.forall_mem_cons.mpr ⟨List.not_mem_nil, List.forall_mem_cons.mpr ih⟩
    · refine List.forall_mem_cons.mpr ⟨?_, ih.2⟩
      rw [List.mem_cons, not_or]
      exact ⟨fun h => hc (by simp [← h]), ih.1⟩

theorem found_scan (source : List Char) :
    (scan source).filter (keeps Kind.isInLine) =
      (found .start (Piece.cut (withoutMark source))).filter (keeps Kind.isInLine) := by
  have hwritten : (scan source).filter (keeps Kind.isWritten) = _ :=
    items_written .outermost false .start _
  rw [← hwritten, List.filter_filter]
  refine List.filter_congr fun i _ => ?_
  cases i with
  | error f => rfl
  | ok t =>
    show t.kind.isInLine = (t.kind.isInLine && t.kind.isWritten)
    cases t.kind <;> rfl

theorem scan_lines (source : String) :
    (scan source.toList).filter (keeps Kind.isInLine) = foundInLines 1 (lines source) := by
  have hlines := found_lines 1 (lines source) (not_mem_splitOn _)
  rw [lines, List.intercalate_splitOn] at hlines
  rw [found_scan]
  exact hlines

theorem items_line {qs : List Piece} (h : ∀ q ∈ qs, q.shape ≠ .lineBreak) (m : Margin)
    (p : Position) (rest : List Piece) :
    items m false p (qs ++ rest) =
      found p qs ++ items m false (p.after (qs.flatMap Piece.text)) rest := by
  induction qs generalizing p with
  | nil => rfl
  | cons q qs ih =>
    rw [List.forall_mem_cons] at h
    have hline : (q.shape == .lineBreak) = false := by simpa using h.1
    rw [List.cons_append, items_inLine, itemsFrom, hline, ih h.2, found, List.flatMap_cons,
      Position.after_append, List.append_assoc]

theorem scan_line {l : List Char} (hbreak : '\n' ∉ l) (hmark : l.head? ≠ some '\ufeff') :
    scan l =
      found .start (Piece.cut l) ++ [.ok ⟨.endOfInput, "", none, Position.start.after l⟩] := by
  have hself : withoutMark l = l := by
    cases l with
    | nil => rfl
    | cons c cs => exact if_neg fun hc => hmark (by rw [hc]; rfl)
  have hline := items_line (shape_of_noBreak hbreak) .outermost .start []
  rw [List.append_nil, Piece.cut_flatten] at hline
  rw [scan, hself, hline]
  rfl

def faults (source : String) : List Fault :=
  match tokenize source with
  | .ok _ => []
  | .error fs => fs

def tokens (source : String) : List Token :=
  match tokenize source with
  | .ok ts => ts
  | .error _ => []

theorem faults_eq (source : String) : faults source = faultsOf (scan source.toList) := by
  unfold faults
  cases h : tokenize source with
  | ok ts => exact (tokenize_eq_ok.mp h).1.symm
  | error fs => exact (tokenize_eq_error.mp h).2.symm

theorem exists_tokens {source : String} (h : faults source = []) :
    ∃ ts, tokenize source = .ok ts := by
  rw [faults_eq] at h
  exact ⟨_, tokenize_eq_ok.mpr ⟨h, rfl⟩⟩

theorem faults_line {l : List Char} (hbreak : '\n' ∉ l) (hmark : l.head? ≠ some '\ufeff') :
    faults (.ofList l) = faultsOf (found .start (Piece.cut l)) := by
  rw [faults_eq, String.toList_ofList, scan_line hbreak hmark, faultsOf_append]
  exact List.append_nil _

theorem tokens_line {l : List Char} {us : List Token} (hbreak : '\n' ∉ l)
    (hmark : l.head? ≠ some '\ufeff') (h : tokenize (.ofList l) = .ok us) :
    us.filter (·.kind != .endOfInput) = tokensOf (found .start (Piece.cut l)) := by
  obtain ⟨-, rfl⟩ := tokenize_eq_ok.mp h
  rw [String.toList_ofList, scan_line hbreak hmark, tokensOf_append, List.filter_append]
  have hfound : (tokensOf (found .start (Piece.cut l))).filter (·.kind != .endOfInput) =
      tokensOf (found .start (Piece.cut l)) := by
    rw [← found_isInLine hbreak, tokensOf_keeps, List.filter_filter]
    refine List.filter_congr fun t _ => ?_
    cases t.kind <;> rfl
  rw [hfound]
  exact List.append_nil _

end Source

open Source

/-- **Lines are scanned alone.** What is wrong with a source text is what is wrong with its lines,
each on its own. If nothing is, its tokens but for the layout are the tokens of its lines, each on
its own. No line may begin with a byte order mark, which a line alone would lose. -/
theorem tokenize_lines (source : String)
    (hmark : ∀ l ∈ lines source, l.head? ≠ some '\ufeff') :
    faults source =
      ((lines source).zipIdx 1).flatMap
        (fun l => (faults (.ofList l.1)).map (Fault.move (.onLine l.2))) ∧
    ∀ ts, tokenize source = .ok ts →
      (∀ l ∈ lines source, ∃ us, tokenize (.ofList l) = .ok us) ∧
      ts.filter (·.kind.isInLine) =
        ((lines source).zipIdx 1).flatMap fun l =>
          ((tokens (.ofList l.1)).filter (·.kind != .endOfInput)).map
            (Token.move (.onLine l.2)) := by
  have hbreak : ∀ l ∈ lines source, '\n' ∉ l := not_mem_splitOn _
  have hfaults : faults source =
      ((lines source).zipIdx 1).flatMap
        (fun l => (faults (.ofList l.1)).map (Fault.move (.onLine l.2))) := by
    rw [faults_eq, ← faultsOf_keeps Kind.isInLine, scan_lines, foundInLines, faultsOf,
      List.filterMap_flatMap]
    refine List.flatMap_congr fun l hl => ?_
    have hmem : l.1 ∈ lines source := List.fst_mem_of_mem_zipIdx hl
    rw [faults_line (hbreak _ hmem) (hmark _ hmem), ← faultsOf_move]
    rfl
  refine ⟨hfaults, fun ts hts => ?_⟩
  have hok : ∀ l ∈ lines source, ∃ us, tokenize (.ofList l) = .ok us := by
    intro l hl
    rw [← List.zipIdx_map_fst 1 (lines source), List.mem_map] at hl
    obtain ⟨⟨l, i⟩, hmem, rfl⟩ := hl
    have hnone : faults source = [] := by rw [faults, hts]
    have hnil := List.flatMap_eq_nil_iff.mp (hfaults.symm.trans hnone) _ hmem
    exact exists_tokens (List.map_eq_nil_iff.mp hnil)
  refine ⟨hok, ?_⟩
  obtain ⟨-, rfl⟩ := tokenize_eq_ok.mp hts
  rw [← tokensOf_keeps, scan_lines, foundInLines, tokensOf, List.filterMap_flatMap]
  refine List.flatMap_congr fun l hl => ?_
  have hmem : l.1 ∈ lines source := List.fst_mem_of_mem_zipIdx hl
  obtain ⟨us, hus⟩ := hok l.1 hmem
  have htokens : tokens (.ofList l.1) = us := by rw [tokens, hus]
  rw [htokens, tokens_line (hbreak _ hmem) (hmark _ hmem) hus, ← tokensOf_move]
  rfl

/-- Three lines with a fault in each, an open quote among them; and two lines of which the second is
further in, behind a byte order mark. -/
theorem tokenize_lines_indented :
    faults "A é\r\nb \"c\n\t! D" =
      ((lines "A é\r\nb \"c\n\t! D").zipIdx 1).flatMap
        (fun l => (faults (.ofList l.1)).map (Fault.move (.onLine l.2))) ∧
    [⟨.command, "F", some (.text "F"), ⟨1, 1⟩⟩, ⟨.keyword .passStmt, "PASS", none, ⟨2, 3⟩⟩] =
      ((lines "\ufeffF\n  PASS").zipIdx 1).flatMap fun l =>
        ((tokens (.ofList l.1)).filter (·.kind != .endOfInput)).map (Token.move (.onLine l.2)) := by
  refine ⟨(tokenize_lines "A é\r\nb \"c\n\t! D" (by decide)).1, ?_⟩
  exact ((tokenize_lines "\ufeffF\n  PASS" (by decide)).2
    [⟨.command, "F", some (.text "F"), ⟨1, 1⟩⟩, ⟨.newline, "\n", none, ⟨1, 2⟩⟩,
      ⟨.indent, "  ", none, ⟨2, 1⟩⟩, ⟨.keyword .passStmt, "PASS", none, ⟨2, 3⟩⟩,
      ⟨.dedent, "", none, ⟨2, 7⟩⟩, ⟨.endOfInput, "", none, ⟨2, 7⟩⟩] (by with_unfolding_all rfl)).2

end Offside
