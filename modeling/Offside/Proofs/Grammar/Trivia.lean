import Offside.Proofs.Run.Concatenation
import Offside.Proofs.Source.Spacing

/-!
# Blanks and comments are no part of a program

Blanks behind a token and a comment at the end of a line move the tokens behind them to the right,
and a comment adds one token that the grammar does not see. So the tokens are the same but for their
columns, and so is the program (`parseSource_of_content`).
-/

namespace Offside

open Grammar Source

/-! ## The mark in front -/

namespace Source

theorem exists_before {s b rest : List Char} (h : withoutMark s = b ++ rest) :
    ∃ before, s = before ++ rest ∧ withoutMark before = b := by
  cases s with
  | nil =>
    obtain ⟨rfl, rfl⟩ := List.append_eq_nil_iff.mp h.symm
    exact ⟨[], rfl, rfl⟩
  | cons c cs =>
    by_cases hc : c = '\ufeff'
    · rw [withoutMark, if_pos hc] at h
      exact ⟨c :: b, by rw [h, List.cons_append], if_pos hc⟩
    · rw [withoutMark, if_neg hc] at h
      refine ⟨b, h, ?_⟩
      cases b with
      | nil => rfl
      | cons d b =>
        obtain ⟨rfl, -⟩ := List.cons.inj h
        exact if_neg hc

theorem withoutMark_before {before w rest : List Char} (hw : w ≠ [])
    (h : withoutMark (before ++ (w ++ rest)) = withoutMark before ++ (w ++ rest))
    (more : List Char) :
    withoutMark (before ++ (w ++ more)) = withoutMark before ++ (w ++ more) := by
  have hne : before ++ w ≠ [] := List.append_ne_nil_of_right_ne_nil before hw
  rw [← List.append_assoc, withoutMark_append hne, ← List.append_assoc] at h
  rw [← List.append_assoc, withoutMark_append hne, List.append_cancel_right h, List.append_assoc]

theorem withoutMark_append_of_head {before rest : List Char} (h : ∀ c ∈ rest.head?, c ≠ '\ufeff') :
    withoutMark (before ++ rest) = withoutMark before ++ rest := by
  by_cases hbefore : before = []
  · rw [hbefore]
    exact withoutMark_eq_self h
  · exact withoutMark_append hbefore rest

end Source

/-! ## The same program -/

/-- Positions stay on their lines. -/
def KeepsLines (f : Position → Position) : Prop := ∀ p, (f p).line = p.line

theorem parseSource_of_content {s s' : String} {p : Program} {f : Position → Position}
    (hfaultless : Faultless (scan s'.toList))
    (hcontent : content (tokensOf (scan s'.toList)) =
      (content (tokensOf (scan s.toList))).map (Token.move f))
    (h : parseSource s = .ok p) : parseSource s' = .ok (recastAll (.moved f) p) := by
  obtain ⟨-, hfits, hspelled⟩ := parseSource_eq_ok.mp h
  rw [parseSource_eq_ok, hcontent]
  exact ⟨hfaultless, (fitBody_moved f p).trans hfits, hspelled.move f⟩

theorem content_comment {t : Token} (ht : t.kind = .comment) (us vs : List Token) :
    content (us ++ t :: vs) = content (us ++ vs) := by
  rw [← takeWhile_filter_comment, ← takeWhile_filter_comment, List.filter_append,
    List.filter_append, List.filter_cons_of_neg (by simp [ht])]

section

variable {s s' : String} {ts : List Token} {f : Position → Position}

theorem tokenize_moved (h : tokenize s = .ok ts)
    (hscan : scan s'.toList = (scan s.toList).map (moveItem f)) :
    tokenize s' = .ok (ts.map (Token.move f)) ∧
      ∀ p, parseSource s = .ok p → parseSource s' = .ok (recastAll (.moved f) p) := by
  obtain ⟨hnone, rfl⟩ := tokenize_eq_ok.mp h
  have hfaultless : Faultless (scan s'.toList) := by
    rw [hscan]
    exact faultless_move f hnone
  have htokens : tokensOf (scan s'.toList) = (tokensOf (scan s.toList)).map (Token.move f) := by
    rw [hscan, tokensOf_move]
  refine ⟨tokenize_eq_ok.mpr ⟨hfaultless, htokens⟩, fun p => ?_⟩
  exact parseSource_of_content hfaultless (by rw [htokens, content_move])

theorem tokenize_added {us vs : List Item} {c : Token} (h : tokenize s = .ok ts)
    (hc : c.kind = .comment) (hscan : scan s.toList = us ++ vs) (hus : us.map (moveItem f) = us)
    (hscan' : scan s'.toList = us ++ .ok c :: vs.map (moveItem f)) :
    (∃ ts₁ ts₂, ts = ts₁ ++ ts₂ ∧
      tokenize s' = .ok (ts₁.map (Token.move f) ++ c :: ts₂.map (Token.move f))) ∧
      ∀ p, parseSource s = .ok p → parseSource s' = .ok (recastAll (.moved f) p) := by
  obtain ⟨hnone, hts⟩ := tokenize_eq_ok.mp h
  have hall : tokensOf us ++ tokensOf vs = ts := by rw [← hts, hscan, tokensOf_append]
  have hmoved : tokensOf us = (tokensOf us).map (Token.move f) := by rw [← tokensOf_move, hus]
  have htokens : tokensOf (scan s'.toList) =
      (tokensOf us).map (Token.move f) ++ c :: (tokensOf vs).map (Token.move f) := by
    rw [hscan', tokensOf_append, ← hmoved, ← tokensOf_move]
    rfl
  have hfaultless : Faultless (scan s'.toList) := by
    have hparts : Faultless us ∧ Faultless vs := by
      rw [← faultless_append, ← hscan]
      exact hnone
    rw [hscan']
    exact faultless_append.mpr ⟨hparts.1, faultless_move f hparts.2⟩
  refine ⟨⟨_, _, hall.symm, tokenize_eq_ok.mpr ⟨hfaultless, htokens⟩⟩, fun p => ?_⟩
  refine parseSource_of_content hfaultless ?_
  rw [htokens, content_comment hc, ← List.map_append, content_move, hall, hts]

end

/-- **Blanks and comments do not matter.** For each token of code of a text without faults, blanks
behind it change nothing but the columns of what is behind them on the line. A comment at the end of
a line without one adds its token, and else changes nothing but the columns at the end of the line.
If the text is a program, it is still the same program, but for columns. -/
theorem tokenize_insert_trivia {s : String} {ts : List Token} (h : tokenize s = .ok ts) :
    (∀ t ∈ ts, t.kind.isCode = true → ∃ before rest,
      s.toList = before ++ (t.lexeme.toList ++ rest) ∧ t.pos = .behind (withoutMark before) ∧
      ∀ blanks, Blanks blanks → ∃ f, KeepsLines f ∧
        tokenize (.ofList (before ++ (t.lexeme.toList ++ (blanks ++ rest)))) =
          .ok (ts.map (Token.move f)) ∧
        ∀ p, parseSource s = .ok p →
          parseSource (.ofList (before ++ (t.lexeme.toList ++ (blanks ++ rest)))) =
            .ok (recastAll (.moved f) p)) ∧
    (∀ before rest comment, s.toList = before ++ rest → AtLineEnd rest →
      (∀ t ∈ ts, t.kind = .comment → t.pos.line ≠ (Position.behind (withoutMark before)).line) →
      Lexeme.comment.Matches comment → ∃ f, KeepsLines f ∧
        (∃ us vs, ts = us ++ vs ∧
          tokenize (.ofList (before ++ (comment ++ rest))) =
            .ok (us.map (Token.move f) ++
              ⟨.comment, .ofList comment, none, .behind (withoutMark before)⟩ ::
                vs.map (Token.move f))) ∧
        ∀ p, parseSource s = .ok p →
          parseSource (.ofList (before ++ (comment ++ rest))) = .ok (recastAll (.moved f) p)) := by
  obtain ⟨hnone, hts⟩ := tokenize_eq_ok.mp h
  constructor
  · intro t ht hcode
    rw [← hts] at ht
    obtain ⟨qs, q, rest, hcut, htext, hlexeme, hitem⟩ := exists_piece_of_isCode ht hcode
    obtain ⟨before, hs, hbefore⟩ := exists_before htext
    have hpos : t.pos = .behind (withoutMark before) := by rw [pos_of_item? hitem, hbefore]
    rw [← hbefore] at htext
    have hne : t.lexeme.toList ≠ [] := by
      rw [← hlexeme]
      exact (Piece.cut_genuine _ q (by rw [hcut]; simp)).ne_nil
    refine ⟨before, rest, hs, hpos, fun blanks hblanks => ?_⟩
    have hs' : withoutMark (before ++ (t.lexeme.toList ++ (blanks ++ rest))) =
        withoutMark before ++ (t.lexeme.toList ++ (blanks ++ rest)) :=
      withoutMark_before hne (hs ▸ htext) _
    have hscan := scan_spaced ht hcode hpos htext hblanks hs'
    exact ⟨_, Position.line_shift _ _, tokenize_moved h (by rw [String.toList_ofList, hscan])⟩
  · intro before rest comment hs hrest hline hcomment
    rw [← hts] at hline
    have hmark : ∀ c ∈ rest.head?, c ≠ '\ufeff' := by
      intro c hc hmark
      have hends := hrest.endsComment c hc
      rw [hmark] at hends
      cases hends
    have hmark' : ∀ c ∈ (comment ++ rest).head?, c ≠ '\ufeff' := by
      obtain ⟨body, rfl, -⟩ := hcomment
      rintro c ⟨⟩
      decide
    obtain ⟨f, hf, us, vs, hscan, hus, hscan'⟩ := scan_commented hnone hline
      (hs ▸ withoutMark_append_of_head hmark) hrest hcomment (withoutMark_append_of_head hmark')
    exact ⟨f, hf, tokenize_added h rfl hscan hus (by rw [String.toList_ofList, hscan'])⟩

/-- Two blanks behind the name in a condition, and a comment at the end of its line. -/
theorem tokenize_insert_trivia_condition :
    ∃ ts, tokenize "IF a<b \r\n  C" = .ok ts ∧
      (∃ before rest, "IF a<b \r\n  C".toList = before ++ ("a".toList ++ rest) ∧
        ⟨1, 4⟩ = Position.behind (withoutMark before) ∧ ∃ f, KeepsLines f ∧
          tokenize (.ofList (before ++ ("a".toList ++ ([' ', '\t'] ++ rest)))) =
            .ok (ts.map (Token.move f))) ∧
      ∃ f, KeepsLines f ∧ ∃ us vs, ts = us ++ vs ∧
        tokenize "IF a<b # c\r\n  C" = .ok (us.map (Token.move f) ++
          ⟨.comment, "# c", none, ⟨1, 8⟩⟩ :: vs.map (Token.move f)) := by
  have h : tokenize "IF a<b \r\n  C" = .ok [⟨.keyword .ifStmt, "IF", none, ⟨1, 1⟩⟩,
      ⟨.identifier, "a", some (.text "a"), ⟨1, 4⟩⟩, ⟨.symbol .less, "<", none, ⟨1, 5⟩⟩,
      ⟨.identifier, "b", some (.text "b"), ⟨1, 6⟩⟩, ⟨.newline, "\n", none, ⟨1, 8⟩⟩,
      ⟨.indent, "  ", none, ⟨2, 1⟩⟩, ⟨.command, "C", some (.text "C"), ⟨2, 3⟩⟩,
      ⟨.dedent, "", none, ⟨2, 4⟩⟩, ⟨.endOfInput, "", none, ⟨2, 4⟩⟩] := by
    with_unfolding_all rfl
  obtain ⟨before, rest, htext, hpos, hblanks⟩ := (tokenize_insert_trivia h).1
    ⟨.identifier, "a", some (.text "a"), ⟨1, 4⟩⟩ (by simp) rfl
  obtain ⟨f, hf, htokens, -⟩ := hblanks [' ', '\t'] (by simp [Blanks, Piece.isBlank])
  obtain ⟨f', hf', hcomment, -⟩ := (tokenize_insert_trivia h).2 "IF a<b ".toList "\r\n  C".toList
    "# c".toList rfl (.inr ⟨_, .inr rfl⟩) (by simp) ⟨[' ', 'c'], rfl, by simp⟩
  exact ⟨_, h, ⟨before, rest, htext, hpos, f, hf, htokens⟩, f', hf', hcomment⟩

end Offside
