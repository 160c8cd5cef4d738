import Offside.Proofs.Source.Insertion

/-!
# Where comments end

A comment goes up to a line feed or a carriage return, but only a line feed ends a line. So a
comment is the last thing on its line unless a carriage return stands in the line behind it: then
the line goes on behind that, and with anything but blanks and carriage returns there it has more
tokens.

* `Source.items_split`: what the scanner finds behind a token is what it finds in the pieces behind
  the token's own.
* `Source.endsLine_iff`: the first thing found in a text is the end of its first line if the line
  has nothing but gaps. The induction is on the pieces.
-/

namespace Offside

def restOfLine (cs : List Char) : List Char := cs.takeWhile (· != '\n')

/-- The line ends here: there is a newline next, or nothing but the ends of blocks and of the
input. -/
def EndsLine (ts : List Token) : Prop :=
  (∃ t us, ts = t :: us ∧ t.kind = .newline) ∨ ClosesAll ts

theorem restOfLine_append {w : List Char} (hw : '\n' ∉ w) (cs : List Char) :
    restOfLine (w ++ cs) = w ++ restOfLine cs := by
  refine List.takeWhile_append_of_pos fun c hc => ?_
  rw [bne_iff_ne]
  rintro rfl
  exact hw hc

theorem head?_restOfLine {cs : List Char} (h : ∀ c ∈ cs.head?, (!Piece.endsComment c) = false) :
    ∀ c ∈ (restOfLine cs).head?, c = '\r' := by
  cases cs with
  | nil => exact fun c hc => absurd hc (Option.not_mem_none c)
  | cons d cs =>
    have hd : d = '\n' ∨ d = '\r' := by
      simpa [Piece.endsComment, or_iff_not_imp_left] using h d rfl
    intro c hc
    rcases hd with rfl | rfl
    · cases hc
    · cases hc
      rfl

theorem not_endsLine {t : Token} {ts : List Token} (ht : t.kind.isInLine = true) :
    ¬ EndsLine (t :: ts) := by
  rintro (⟨u, us, heq, hu⟩ | ⟨ds, u, heq, hds, hu⟩)
  · obtain ⟨rfl, -⟩ := List.cons.inj heq
    rw [hu] at ht
    cases ht
  · cases ds with
    | nil =>
      obtain ⟨rfl, -⟩ := List.cons.inj heq
      rw [hu] at ht
      cases ht
    | cons d ds =>
      obtain ⟨rfl, -⟩ := List.cons.inj heq
      rw [hds t List.mem_cons_self] at ht
      cases ht

theorem Piece.tail_of_isGap {c : Char} (h : isGap c = true) (cs : List Char) :
    (tail c cs).1 = .blanks ∨ (tail c cs).1 = .carriage ∨ (tail c cs).1 = .lineBreak := by
  rcases Bool.or_eq_true_iff.mp h with hblank | hreturn
  · rw [tail_of_isBlank hblank]
    exact .inl rfl
  · obtain rfl : c = '\r' := by simpa using hreturn
    by_cases hcs : ∃ rest, cs = '\n' :: rest
    · obtain ⟨rest, rfl⟩ := hcs
      exact .inr (.inr rfl)
    · rw [tail_carriage fun rest heq => hcs ⟨rest, heq⟩]
      exact .inr (.inl rfl)

namespace Source

variable {m : Margin} {p : Position} {qs : List Piece} {t : Token} {rest : List Item}

/-- The token is that of one of the pieces, and `rest` is what the pieces behind that give. -/
def FoundAt (p : Position) (qs : List Piece) (t : Token) (rest : List Item) : Prop :=
  ∃ qs₁ q qs₂ m, qs = qs₁ ++ q :: qs₂ ∧
    item? (p.after (qs₁.flatMap Piece.text)) q = some (.ok t) ∧
    rest = items m (q.shape == .lineBreak) (p.after (qs₁.flatMap Piece.text ++ q.text)) qs₂

theorem FoundAt.cons {q : Piece} (h : FoundAt (p.after q.text) qs t rest) :
    FoundAt p (q :: qs) t rest := by
  obtain ⟨qs₁, q', qs₂, m, rfl, hitem, hrest⟩ := h
  rw [← Position.after_append] at hitem hrest
  refine ⟨q :: qs₁, q', qs₂, m, rfl, hitem, ?_⟩
  rw [List.flatMap_cons, List.append_assoc]
  exact hrest

theorem itemsFrom_split {q : Piece}
    (ih : ∀ {is}, items m (q.shape == .lineBreak) (p.after q.text) qs = is ++ .ok t :: rest →
      FoundAt (p.after q.text) qs t rest) {is : List Item}
    (h : itemsFrom m p q qs = is ++ .ok t :: rest) : FoundAt p (q :: qs) t rest := by
  rw [itemsFrom] at h
  cases hi : item? p q with
  | none =>
    rw [hi] at h
    exact (ih h).cons
  | some i =>
    rw [hi] at h
    cases is with
    | nil =>
      obtain ⟨rfl, rfl⟩ := List.cons.inj h
      exact ⟨[], q, qs, m, rfl, hi, rfl⟩
    | cons j is => exact (ih (List.cons.inj h).2).cons

/-- Behind a token with characters of its own there is what the pieces behind its piece give. -/
theorem items_split (ht : t.kind.isWritten = true) {atStart : Bool} {is : List Item}
    (h : items m atStart p qs = is ++ .ok t :: rest) : FoundAt p qs t rest := by
  have hkept : ∀ {is js ks : List Item}, is = js ++ .ok t :: ks →
      .ok t ∈ is.filter (keeps Kind.isWritten) := fun heq =>
    List.mem_filter.mpr ⟨by rw [heq]; simp, ht⟩
  induction qs generalizing m p atStart is with
  | nil =>
    have hmem := hkept h
    rw [items_written] at hmem
    cases hmem
  | cons q qs ih =>
    cases atStart with
    | false => exact itemsFrom_split ih h
    | true =>
      rw [items_atStart] at h
      rcases List.append_eq_append_iff.mp h with ⟨w, rfl, hw⟩ | ⟨w, hw, hrest⟩
      · exact itemsFrom_split ih hw
      · cases w with
        | nil => exact itemsFrom_split ih (hrest.symm.trans (List.nil_append _).symm)
        | cons i w =>
          -- the token would be one of the layout
          obtain ⟨rfl, -⟩ := List.cons.inj hrest
          have hmem := hkept hw
          rw [startLine_written] at hmem
          cases hmem

theorem endsLine_iff {cs : List Char} {ts : List Token}
    (h : items m false p (Piece.cut cs) = ts.map .ok) :
    EndsLine ts ↔ ∀ c ∈ restOfLine cs, isGap c = true := by
  fun_induction Piece.cut cs generalizing p ts with
  | case1 =>
    have hclose : EndsLine ts := by
      have hts := congrArg tokensOf h
      rw [tokensOf_map_ok, items, tokensOf_append, tokensOf_map_ok] at hts
      refine .inr ⟨_, _, hts.symm, fun d hd => ?_, rfl⟩
      rw [Margin.closeTo, List.mem_map] at hd
      obtain ⟨_, -, rfl⟩ := hd
      rfl
    simpa [restOfLine] using hclose
  | case2 c cs r =>
    rename_i ih
    have hsplit : c :: cs = (c :: r.2.1) ++ r.2.2 := by
      rw [List.cons_append, Piece.tail_append]
    have hgenuine : Piece.Genuine ⟨r.1, c :: r.2.1⟩ := Piece.tail_genuine c cs
    rw [items_inLine, itemsFrom] at h
    rw [hsplit]
    cases hi : item? p ⟨r.1, c :: r.2.1⟩ with
    | none =>
      have hline : r.1 ≠ .lineBreak := by
        intro hshape
        rcases shape_of_item?_eq_none hi with hq | hq
        · exact absurd (hshape.symm.trans hq) (by decide)
        · exact absurd (hshape.symm.trans hq) (by decide)
      rw [hi, beq_false_of_ne hline] at h
      rw [restOfLine_append (Piece.tail_noBreak hline), ih h, List.forall_mem_append,
        and_iff_right (gap_of_item?_eq_none hgenuine hi)]
    | some i =>
      rw [hi] at h
      cases ts with
      | nil => cases h
      | cons t ts =>
        obtain rfl : i = .ok t := (List.cons.inj h).1
        by_cases hshape : r.1 = .lineBreak
        · have hk : t.kind = .newline := by
            rw [item?, hshape] at hi
            cases hi
            rfl
          refine iff_of_true (.inl ⟨t, ts, rfl, hk⟩) ?_
          rcases hgenuine.lineBreak hshape with htext | htext
          · rw [show c :: r.2.1 = ['\n'] from htext]
            exact fun d hd => absurd hd List.not_mem_nil
          · rw [show c :: r.2.1 = ['\r', '\n'] from htext]
            exact fun d hd => by rw [List.mem_singleton.mp hd]; rfl
        · have hinLine : t.kind.isInLine = true := by
            rcases kind_of_item?_eq_some hi with ⟨hq, -⟩ | ⟨-, hk⟩ | ⟨-, -, hk⟩
            · exact absurd hq hshape
            · rw [hk]
              rfl
            · exact isInLine_of_isCode hk
          refine iff_of_false (not_endsLine hinLine) fun hall => ?_
          -- the first character would be a gap
          rw [restOfLine_append (Piece.tail_noBreak hshape), List.cons_append] at hall
          rcases Piece.tail_of_isGap (hall c List.mem_cons_self) cs with hq | hq | hq
          · rw [item?, show r.1 = .blanks from hq] at hi
            cases hi
          · rw [item?, show r.1 = .carriage from hq] at hi
            cases hi
          · exact hshape hq

end Source

open Source

/-- **Where comments end.** A comment of a text goes up to the end of its line, or to a carriage
return before that. The next token ends the line, or ends the text, exactly if there are only blanks
and carriage returns up to the end of the line. -/
theorem tokenize_comment {source : String} {us vs : List Token} {c : Token}
    (h : tokenize source = .ok (us ++ c :: vs)) (hc : c.kind = .comment) :
    ∃ before rest, withoutMark source.toList = before ++ (c.lexeme.toList ++ rest) ∧
      c.pos = .behind before ∧ Lexeme.comment.Matches c.lexeme.toList ∧
      (∀ d ∈ (restOfLine rest).head?, d = '\r') ∧
      (EndsLine vs ↔ ∀ d ∈ restOfLine rest, isGap d = true) := by
  obtain ⟨hnone, hts⟩ := tokenize_eq_ok.mp h
  have hscan : scan source.toList = us.map .ok ++ .ok c :: vs.map .ok := by
    rw [← map_tokensOf hnone, hts, List.map_append, List.map_cons]
  obtain ⟨qs, q, rs, m, hcut, hitem, hvs⟩ := items_split (by rw [hc]; rfl) hscan
  have hshape : q.shape = .comment := by
    rcases kind_of_item?_eq_some hitem with ⟨-, hk⟩ | ⟨hq, -⟩ | ⟨-, -, hk⟩
    · rw [hc] at hk
      cases hk
    · exact hq
    · rw [hc] at hk
      cases hk
  have hpos := pos_of_item? hitem
  have hlexeme : c.lexeme.toList = q.text := by
    rw [item?, hshape] at hitem
    cases hitem
    exact String.toList_ofList
  obtain ⟨x, body, hq, htail, hrs⟩ := Piece.tail_of_cut (Piece.cut_behind hcut)
  obtain ⟨rfl, hrun⟩ := Piece.tail_comment (by rw [htail]; exact hshape)
  rw [htail] at hrun
  obtain ⟨hbody, hend⟩ := Piece.of_run_eq hrun.symm
  refine ⟨qs.flatMap Piece.text, rs.flatMap Piece.text, ?_, ?_, ?_, head?_restOfLine hend, ?_⟩
  · rw [← Piece.cut_flatten (withoutMark source.toList), hcut, List.flatMap_append,
      List.flatMap_cons, hlexeme]
  · rw [hpos, Position.start_after]
  · rw [hlexeme, hq]
    exact ⟨body, rfl, fun d hd => not_endsComment.mp (hbody d hd)⟩
  · rw [hshape, ← hrs] at hvs
    exact endsLine_iff hvs.symm

/-- A comment with gaps behind it, and another one on the last line. -/
theorem tokenize_comment_gaps :
    ∃ before rest, "A # c\r \r\n#d".toList = before ++ ("# c".toList ++ rest) ∧
      ⟨1, 3⟩ = Position.behind before ∧ Lexeme.comment.Matches "# c".toList ∧
      (∀ d ∈ (restOfLine rest).head?, d = '\r') ∧
      (EndsLine [⟨.newline, "\n", none, ⟨1, 8⟩⟩, ⟨.comment, "#d", none, ⟨2, 1⟩⟩,
          ⟨.endOfInput, "", none, ⟨2, 3⟩⟩] ↔
        ∀ d ∈ restOfLine rest, isGap d = true) :=
  @tokenize_comment "A # c\r \r\n#d" [⟨.command, "A", some (.text "A"), ⟨1, 1⟩⟩]
    [⟨.newline, "\n", none, ⟨1, 8⟩⟩, ⟨.comment, "#d", none, ⟨2, 1⟩⟩,
      ⟨.endOfInput, "", none, ⟨2, 3⟩⟩] ⟨.comment, "# c", none, ⟨1, 3⟩⟩
    (by with_unfolding_all rfl) rfl

/-- Behind a carriage return in a comment there is code. -/
theorem comment_carriage :
    ∃ c us, tokenize "# c\rA\n" = .ok (c :: us) ∧ c.kind = .comment ∧ ¬ EndsLine us :=
  ⟨⟨.comment, "# c", none, ⟨1, 1⟩⟩,
    [⟨.command, "A", some (.text "A"), ⟨1, 5⟩⟩, ⟨.newline, "\n", none, ⟨1, 6⟩⟩,
      ⟨.endOfInput, "", none, ⟨2, 1⟩⟩], by with_unfolding_all rfl, rfl, not_endsLine rfl⟩

end Offside
