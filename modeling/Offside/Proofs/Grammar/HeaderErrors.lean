import Offside.Proofs.Grammar.BrokenHeader
import Offside.Proofs.Source.Lookahead

/-!
# The errors of a broken header

In a source text that can be read, a closing parenthesis is put in place of the test of one header.
The tokens before the header and below its line stay (`Source.scan_line_behind`), so the errors are
those that `Grammar.spelled_broken` gives for them: the parenthesis, and for a condition the words
of its branches further down, up to the first `ELSE` (`parseSource_testReplaced`). A loop, or a
condition without branches, is one error. A condition with branches is more than one
(`broken_header_else`).
-/

namespace Offside

open Grammar Source

theorem split_unique {α : Type} {P : α → Prop} {a b : α} {x y u v : List α}
    (heq : x ++ a :: u = y ++ b :: v) (hx : ∀ c ∈ x, ¬P c) (hy : ∀ c ∈ y, ¬P c) (ha : P a)
    (hb : P b) : x = y ∧ a = b ∧ u = v := by
  have hnil : ∀ {x y z : List α} {a : α} {u v : List α}, y = x ++ z → a :: u = z ++ v →
      (∀ c ∈ y, ¬P c) → P a → z = [] := by
    intro x y z a u v hy hz hall ha
    cases z with
    | nil => rfl
    | cons c z =>
      obtain ⟨rfl, -⟩ := List.cons_eq_cons.mp hz
      exact absurd ha (hall a (by simp [hy]))
  rcases List.append_eq_append_iff.mp heq with ⟨z, hz, hu⟩ | ⟨z, hz, hu⟩
  · obtain rfl := hnil hz hu hy ha
    obtain ⟨rfl, rfl⟩ := List.cons_eq_cons.mp hu
    exact ⟨by simpa using hz.symm, rfl, rfl⟩
  · obtain rfl := hnil hz hu hx hb
    obtain ⟨rfl, rfl⟩ := List.cons_eq_cons.mp hu
    exact ⟨by simpa using hz, rfl, rfl⟩

/-! ## The line of the header -/

namespace Source

/-- Text without code: gaps and comments. -/
def Codeless (text : List Char) : Prop :=
  ∀ q ∈ Piece.cut text, q.shape = .blanks ∨ q.shape = .carriage ∨ q.shape = .comment

section line

variable {p : Position} {l gap : List Char}

theorem cut_noBreak {text : List Char} (h : ∀ q ∈ Piece.cut text, q.shape ≠ .lineBreak) :
    '\n' ∉ text := by
  fun_induction Piece.cut text with
  | case1 => simp
  | case2 c cs r ih =>
    rw [List.forall_mem_cons] at h
    have hfirst := Piece.tail_noBreak h.1
    have hsplit : c :: cs = (c :: r.2.1) ++ r.2.2 := by
      rw [List.cons_append, Piece.tail_append]
    rw [hsplit, List.mem_append, not_or]
    exact ⟨hfirst, ih h.2⟩

theorem Codeless.noBreak (h : Codeless l) : '\n' ∉ l := by
  refine cut_noBreak fun q hq hshape => ?_
  simpa [hshape] using h q hq

theorem found_codeless (h : Codeless l) (p : Position) :
    ∃ comments : List Token, (∀ t ∈ comments, t.kind = .comment) ∧
      found p (Piece.cut l) = comments.map .ok := by
  unfold Codeless at h
  generalize Piece.cut l = qs at h
  induction qs generalizing p with
  | nil => exact ⟨[], by simp, rfl⟩
  | cons q qs ih =>
    rw [List.forall_mem_cons] at h
    obtain ⟨comments, hcomments, hfound⟩ := ih (p.after q.text) h.2
    rw [found, hfound, item?]
    rcases h.1 with hq | hq | hq
    · rw [hq]
      exact ⟨comments, hcomments, rfl⟩
    · rw [hq]
      exact ⟨comments, hcomments, rfl⟩
    · rw [hq]
      exact ⟨⟨.comment, .ofList q.text, none, p⟩ :: comments,
        List.forall_mem_cons.mpr ⟨rfl, hcomments⟩, rfl⟩

theorem found_gaps {c : Char} {rest : List Char} (hgap : ∀ d ∈ gap, isGap d = true)
    (hc : c ≠ '\n') :
    found p (Piece.cut (gap ++ c :: rest)) = found (p.after gap) (Piece.cut (c :: rest)) := by
  refine (found_lexed p _).unique ?_
  induction gap generalizing p with
  | nil => exact found_lexed p _
  | cons d gap ih =>
    rw [List.forall_mem_cons] at hgap
    refine .next (w := [d]) (i := none) rfl ?_ (ih hgap.2)
    by_cases hd : Piece.isBlank d = true
    · exact Piece.next_blank hd
    · obtain rfl : d = '\r' := by simpa [isGap, hd] using hgap.1
      refine Piece.next_carriage fun more heq => ?_
      cases gap with
      | nil => exact hc (List.cons.inj heq).1
      | cons e gap =>
        obtain rfl := (List.cons.inj heq).1
        simp [isGap, Piece.isBlank] at hgap

theorem found_parenthesis (l : List Char) :
    found p (Piece.cut (')' :: l)) =
      .ok ⟨.symbol .rightParen, ")", none, p⟩ :: found (p.after [')']) (Piece.cut l) := by
  have hsymbol : Piece.symbolTail ')' l = (.symbol .rightParen, [], l) :=
    Piece.symbolTail_alone (by decide) (by intro s'; cases s' <;> decide)
  have htail : Piece.tail ')' l = (.symbol .rightParen, [], l) := hsymbol
  rw [Piece.cut_cons, htail]
  rfl

theorem faultless_map_ok (ts : List Token) : Faultless (ts.map .ok) := by
  induction ts with
  | nil => rfl
  | cons t ts ih => exact ih

theorem found_broken (p : Position) (hgap : ∀ c ∈ gap, isGap c = true) (hl : Codeless l) :
    Faultless (found p (Piece.cut (gap ++ ')' :: l))) ∧
      (tokensOf (found p (Piece.cut (gap ++ ')' :: l)))).filter (·.kind != .comment) =
        [⟨.symbol .rightParen, ")", none, p.after gap⟩] := by
  obtain ⟨comments, hcomments, hfound⟩ := found_codeless hl ((p.after gap).after [')'])
  have hnone : comments.filter (·.kind != .comment) = [] := by
    rw [List.filter_eq_nil_iff]
    intro t ht
    simp [hcomments t ht]
  have htokens : ∀ t : Token, tokensOf (.ok t :: comments.map .ok) = t :: comments :=
    fun t => congrArg (t :: ·) (tokensOf_map_ok comments)
  rw [found_gaps hgap (by decide), found_parenthesis, hfound, htokens,
    List.filter_cons_of_pos rfl, hnone]
  exact ⟨faultless_map_ok comments, rfl⟩

end line

end Source

/-! ## The tokens that count -/

section content

variable {is front mid behind : List Item} {h n : Token}

theorem content_line (his : is = front ++ .ok h :: (mid ++ .ok n :: behind))
    (hfront : ∀ t, .ok t ∈ front → t.kind ≠ .endOfInput)
    (hmid : ∀ t, .ok t ∈ mid → t.kind ≠ .endOfInput) (hh : h.Counts) (hn : n.kind = .newline) :
    content (tokensOf is) = (tokensOf front).filter (·.kind != .comment) ++
      h :: ((tokensOf mid).filter (·.kind != .comment) ++ n :: content (tokensOf behind)) := by
  have hone : ∀ {t : Token} (is : List Item), t.Counts →
      content (tokensOf (.ok t :: is)) = t :: content (tokensOf is) := by
    intro t is ht
    exact content_append (w := [t]) (by simpa using ht)
  have hinside : ∀ {is : List Item}, (∀ t, .ok t ∈ is → t.kind ≠ .endOfInput) →
      ∀ t ∈ tokensOf is, t.kind ≠ .endOfInput := fun his t ht => his t (mem_tokensOf.mp ht)
  rw [his, tokensOf_append, content_append_inside (hinside hfront), hone _ hh, tokensOf_append,
    content_append_inside (hinside hmid), hone _ (by simp [Token.Counts, hn])]

theorem found_inside {p : Position} {qs : List Piece} {t : Token} (ht : .ok t ∈ found p qs) :
    t.kind ≠ .endOfInput := by
  obtain ⟨qs₁, q, qs₂, -, hq⟩ := exists_piece ht
  exact item?_inside hq

theorem found_ne_newline {p : Position} {x : List Char} {t : Token} (hx : '\n' ∉ x)
    (ht : .ok t ∈ found p (Piece.cut x)) : t.kind ≠ .newline := by
  intro hk
  rw [← found_isInLine hx, List.mem_filter, keeps, hk] at ht
  cases ht.2

theorem content_split_unique {s : List Char} {us us' vs vs' : List Token}
    (hus : content (tokensOf (scan s)) = us ++ h :: vs)
    (hus' : content (tokensOf (scan s)) = us' ++ h :: vs') (hh : h.kind.isWritten = true) :
    us = us' ∧ vs = vs' := by
  have hnodup : ((content (tokensOf (scan s))).filter (·.kind.isWritten)).Nodup :=
    (nodup_written s).sublist
      ((List.filter_sublist.trans (List.takeWhile_sublist _)).filter _)
  have hfirst : ∀ {us vs : List Token}, content (tokensOf (scan s)) = us ++ h :: vs →
      ∀ t ∈ us, ¬ t = h := by
    rintro us vs heq t ht rfl
    rw [heq, List.filter_append] at hnodup
    exact (List.nodup_append.mp hnodup).2.2 t (List.mem_filter.mpr ⟨ht, hh⟩) t
      (List.mem_filter.mpr ⟨List.mem_cons_self, hh⟩) rfl
  have heq := hus.symm.trans hus'
  have hsplit := split_unique (P := (· = h)) heq (hfirst hus) (hfirst hus') rfl rfl
  exact ⟨hsplit.1, hsplit.2.2⟩

theorem tokens_of_parseSource {source : String} {prog : Program}
    (hparse : parseSource source = .ok prog) : tokens source = tokensOf (scan source.toList) := by
  have htokens := tokenize_eq_ok.mpr ⟨(parseSource_eq_ok.mp hparse).1, rfl⟩
  rw [tokens, htokens]

end content

/-! ## The errors -/

/-- The text `source'` is `source` with a closing parenthesis in place of the test of the header
that begins with the token `h`. In the source there are some text `before` it, a gap, the test, the
rest of the line, which shows no code, and the lines below. -/
structure TestReplaced (source source' : String) (h : Token)
    (before gap test trail below : List Char) : Prop where
  opens : opensTest h.kind = true
  placed : h.pos = .behind before
  old : withoutMark source.toList =
    before ++ (h.lexeme.toList ++ (gap ++ (test ++ (trail ++ '\n' :: below))))
  new : withoutMark source'.toList =
    before ++ (h.lexeme.toList ++ (gap ++ ')' :: (trail ++ '\n' :: below)))
  gaps : ∀ c ∈ gap, isGap c = true
  noBreak : '\n' ∉ test
  codeless : Codeless trail

section errors

variable {source source' : String} {prog : Program} {before gap test trail below : List Char}
  {us line vs : List Token} {h n : Token}

theorem exists_keyword (hh : opensTest h.kind = true) : ∃ k, h.kind = .keyword k := by
  generalize h.kind = kind at hh
  cases kind with
  | keyword k => exact ⟨k, rfl⟩
  | _ => cases hh

theorem noBreak_of_isGap {c : Char} (hc : isGap c = true) :
    c ≠ '\n' ∧ Piece.isWordChar c = false := by
  have hclass : c = ' ' ∨ c = '\t' ∨ c = '\r' := by
    simpa [isGap, Piece.isBlank, or_assoc] using hc
  rcases hclass with rfl | rfl | rfl <;> decide

theorem TestReplaced.gap_noBreak (hr : TestReplaced source source' h before gap test trail below) :
    '\n' ∉ gap := fun hc => (noBreak_of_isGap (hr.gaps _ hc)).1 rfl

theorem TestReplaced.line_noBreak (hr : TestReplaced source source' h before gap test trail below) :
    '\n' ∉ gap ++ (test ++ trail) := by
  simp [hr.gap_noBreak, hr.noBreak, hr.codeless.noBreak]

theorem TestReplaced.line_noBreak'
    (hr : TestReplaced source source' h before gap test trail below) :
    '\n' ∉ gap ++ ')' :: trail := by
  simp [hr.gap_noBreak, hr.codeless.noBreak]

/-- The line behind the word of the header changes, and nothing else. -/
theorem TestReplaced.scan_eq (hr : TestReplaced source source' h before gap test trail below)
    (hmem : h ∈ tokensOf (scan source.toList)) :
    ∃ (front behind : List Item) (n m : Token),
      (∀ t, .ok t ∈ front → t.kind ≠ .endOfInput) ∧ n.kind = .newline ∧ m.kind = .newline ∧
      scan source.toList = front ++ .ok h ::
        (found (.behind (before ++ h.lexeme.toList)) (Piece.cut (gap ++ (test ++ trail))) ++
          .ok n :: behind) ∧
      scan source'.toList = front ++ .ok h ::
        (found (.behind (before ++ h.lexeme.toList)) (Piece.cut (gap ++ ')' :: trail)) ++
          .ok m :: behind) := by
  obtain ⟨k, hk⟩ := exists_keyword hr.opens
  have hold := hr.old
  have hnew := hr.new
  have htext : gap ++ (test ++ (trail ++ '\n' :: below)) =
      (gap ++ (test ++ trail)) ++ '\n' :: below := by simp
  have htext' : gap ++ ')' :: (trail ++ '\n' :: below) =
      (gap ++ ')' :: trail) ++ '\n' :: below := by simp
  rw [htext] at hold
  rw [htext'] at hnew
  have hhead : ∀ c ∈ (gap ++ ')' :: trail).head?, Piece.isWordChar c = false := by
    cases gap with
    | nil =>
      rintro c ⟨⟩
      rfl
    | cons d gap =>
      rintro c ⟨⟩
      exact (noBreak_of_isGap (hr.gaps d List.mem_cons_self)).2
  obtain ⟨front, behind, n, hfront, hn, hscan, hchange⟩ :=
    scan_line_behind hmem hk hr.placed hold hr.line_noBreak
  obtain ⟨m, hm, hscan'⟩ := hchange source'.toList _ hnew hr.line_noBreak' hhead
  exact ⟨front, behind, n, m, hfront, hn, hm, hscan, hscan'⟩

theorem TestReplaced.content_eq (hr : TestReplaced source source' h before gap test trail below)
    (hfaultless : Faultless (scan source.toList))
    (htokens : content (tokensOf (scan source.toList)) = us ++ h :: (line ++ n :: vs))
    (hline : ∀ t ∈ line, t.kind ≠ .newline) (hn : n.kind = .newline) :
    Faultless (scan source'.toList) ∧ ∃ m : Token, m.kind = .newline ∧
      content (tokensOf (scan source'.toList)) = us ++ h ::
        ⟨.symbol .rightParen, ")", none, .behind (before ++ (h.lexeme.toList ++ gap))⟩ ::
          m :: vs := by
  obtain ⟨k, hk⟩ := exists_keyword hr.opens
  have hcounts : h.Counts := by simp [Token.Counts, hk]
  have hmem : h ∈ tokensOf (scan source.toList) := by
    have hcontent : h ∈ content (tokensOf (scan source.toList)) := by simp [htokens]
    exact (List.takeWhile_sublist _).subset (List.mem_of_mem_filter hcontent)
  obtain ⟨front, behind, n₀, m, hfront, hn₀, hm, hscan, hscan'⟩ := hr.scan_eq hmem
  -- the word and the end of its line are at the same place in both texts
  have hold := content_line hscan hfront (fun t => found_inside) hcounts hn₀
  have hnew := content_line hscan' hfront (fun t => found_inside) hcounts hm
  obtain ⟨rfl, hsplit⟩ := content_split_unique htokens hold (by rw [hk]; rfl)
  have hinLine : ∀ t ∈ (tokensOf (found (.behind (before ++ h.lexeme.toList))
      (Piece.cut (gap ++ (test ++ trail))))).filter (·.kind != .comment), t.kind ≠ .newline := by
    intro t ht
    exact found_ne_newline hr.line_noBreak (mem_tokensOf.mp (List.mem_of_mem_filter ht))
  obtain ⟨-, -, rfl⟩ :=
    split_unique (P := (Token.kind · = .newline)) hsplit hline hinLine hn hn₀
  obtain ⟨hfound, hparen⟩ :=
    found_broken (.behind (before ++ h.lexeme.toList)) hr.gaps hr.codeless
  refine ⟨?_, m, hm, ?_⟩
  · rw [hscan, faultless_append] at hfaultless
    rw [hscan', faultless_append]
    exact ⟨hfaultless.1, faultless_append.mpr ⟨hfound, (faultless_append.mp hfaultless.2).2⟩⟩
  · rw [hnew, hparen, Position.after_behind, List.append_assoc]
    rfl

/-- The errors of the tokens of a program where one header is broken. -/
theorem errors_broken {p m : Token} (stop : Position)
    (hsp : Program.Spelled prog (us ++ h :: (line ++ n :: vs)))
    (hbalance : Balance true (us ++ h :: (line ++ n :: vs))) (hfits : Program.fits prog = true)
    (hcompact : Compact (us ++ h :: (line ++ n :: vs))) (hh : opensTest h.kind = true)
    (hline : ∀ t ∈ line, t.kind ≠ .newline) (hn : n.kind = .newline)
    (hp : opensExpression p.kind = false) (hpk : p.kind ≠ .newline ∧ p.kind ≠ .indent)
    (hm : m.kind = .newline) :
    (statements stop false (skipNewlines (us ++ h :: p :: m :: vs))).errors =
      headerErrors h p vs := by
  obtain ⟨k, hk⟩ := exists_keyword hh
  obtain ⟨ns, v, heq, hns, hv⟩ := hsp.closed hbalance
  -- the newlines in front of the program are before the header
  obtain ⟨us', rfl, rfl⟩ : ∃ us', us = ns ++ us' ∧ v = us' ++ h :: (line ++ n :: vs) := by
    rcases List.append_eq_append_iff.mp heq with ⟨z, hz, hv⟩ | ⟨us', hus, hv⟩
    · cases z with
      | nil => exact ⟨[], by simpa using hz.symm, by simpa using hv.symm⟩
      | cons t z =>
        obtain ⟨rfl, -⟩ := List.cons_eq_cons.mp hv
        have hnewline : h.kind = .newline := hns h (by simp [hz])
        rw [hk] at hnewline
        cases hnewline
    · exact ⟨us', hus, hv⟩
  rw [List.append_assoc] at hcompact
  have hbroken : Broken stop p m (.statements prog) (us' ++ h :: (line ++ n :: vs)) :=
    spelled_broken hv rfl hcompact.right hp hpk hm
  obtain ⟨line', n', vs', hsplit, hline', hn', hleads⟩ := hbroken hfits us' h _ rfl hh
  obtain ⟨rfl, rfl, rfl⟩ :=
    split_unique (P := (Token.kind · = .newline)) hsplit hline hline' hn hn'
  obtain ⟨herrors, -⟩ := hleads false [] (ahead_nil _)
  have hnone : (statements stop false []).errors = [] := by rw [statements]
  rw [List.append_nil, hnone, List.append_nil] at herrors
  rw [List.append_assoc, skipNewlines_append hns, skipNewlines_hole hv]
  exact herrors

/-- **The errors of a broken header.** In a source text that can be read, where no newline is
directly behind another, so that no line is blank or a comment alone, let the test of a header be
replaced by a closing parenthesis. Then the parenthesis is an error, as no expression begins with
it, and so is each word of a branch that is lost with the header; there are no other errors. -/
theorem parseSource_testReplaced (hparse : parseSource source = .ok prog)
    (hcompact : Compact (content (tokens source)))
    (htokens : content (tokens source) = us ++ h :: (line ++ n :: vs))
    (hline : ∀ t ∈ line, t.kind ≠ .newline) (hn : n.kind = .newline)
    (hr : TestReplaced source source' h before gap test trail below) :
    parseSource source' = .error (.syntactic
      (⟨.expectedExpression "')'", .behind (before ++ (h.lexeme.toList ++ gap))⟩ ::
        (lostWords h vs).map missing)) := by
  obtain ⟨hfaultless, hfits, hsp⟩ := parseSource_eq_ok.mp hparse
  have hbalance := scan_balance hfaultless
  rw [tokens_of_parseSource hparse] at hcompact htokens
  rw [htokens] at hcompact hsp hbalance
  obtain ⟨hfaultless', m, hm, hcontent⟩ := hr.content_eq hfaultless htokens hline hn
  obtain ⟨xs, e, hxs, he, hinside⟩ := (scan_laid hfaultless').exists_ending
  rw [hxs, content_append_inside hinside, content_end he, List.append_nil] at hcontent
  rw [parseSource_eq_syntactic, hxs, parse_eq_error hinside he, hcontent]
  refine ⟨hfaultless', List.cons_ne_nil _ _, ?_⟩
  exact errors_broken e.pos hsp hbalance hfits hcompact hr.opens hline hn rfl (by simp) hm

end errors

/-- A branch in the middle is broken, on a line with a comment, and the branch behind it is lost. -/
theorem parseSource_testReplaced_elsif :
    (∃ prog, parseSource "IF a\n  PASS\nELSIF b # c\n  PASS\nELSE\n  PASS\n" = .ok prog) ∧
      TestReplaced "IF a\n  PASS\nELSIF b # c\n  PASS\nELSE\n  PASS\n"
        "IF a\n  PASS\nELSIF ) # c\n  PASS\nELSE\n  PASS\n"
        ⟨.keyword .elsifStmt, "ELSIF", none, ⟨3, 1⟩⟩ "IF a\n  PASS\n".toList [' '] ['b']
        " # c".toList "  PASS\nELSE\n  PASS\n".toList ∧
      parseSource "IF a\n  PASS\nELSIF ) # c\n  PASS\nELSE\n  PASS\n" =
        .error (.syntactic [⟨.expectedExpression "')'", ⟨3, 7⟩⟩,
          ⟨.expectedExpression "'ELSE'", ⟨5, 1⟩⟩]) := by
  have hparse : parseSource "IF a\n  PASS\nELSIF b # c\n  PASS\nELSE\n  PASS\n" =
      .ok [.condition (.name .variable ⟨"a", ⟨1, 4⟩⟩) [.pass]
        (some [.condition (.name .variable ⟨"b", ⟨3, 7⟩⟩) [.pass] (some [.pass])])] := by
    with_unfolding_all rfl
  have htokens : content (tokens "IF a\n  PASS\nELSIF b # c\n  PASS\nELSE\n  PASS\n") =
      [⟨.keyword .ifStmt, "IF", none, ⟨1, 1⟩⟩, ⟨.identifier, "a", some (.text "a"), ⟨1, 4⟩⟩,
        ⟨.newline, "\n", none, ⟨1, 5⟩⟩, ⟨.indent, "  ", none, ⟨2, 1⟩⟩,
        ⟨.keyword .passStmt, "PASS", none, ⟨2, 3⟩⟩, ⟨.newline, "\n", none, ⟨2, 7⟩⟩,
        ⟨.dedent, "", none, ⟨3, 1⟩⟩] ++ ⟨.keyword .elsifStmt, "ELSIF", none, ⟨3, 1⟩⟩ ::
      ([⟨.identifier, "b", some (.text "b"), ⟨3, 7⟩⟩] ++ ⟨.newline, "\n", none, ⟨3, 12⟩⟩ ::
        [⟨.indent, "  ", none, ⟨4, 1⟩⟩, ⟨.keyword .passStmt, "PASS", none, ⟨4, 3⟩⟩,
          ⟨.newline, "\n", none, ⟨4, 7⟩⟩, ⟨.dedent, "", none, ⟨5, 1⟩⟩,
          ⟨.keyword .elseStmt, "ELSE", none, ⟨5, 1⟩⟩, ⟨.newline, "\n", none, ⟨5, 5⟩⟩,
          ⟨.indent, "  ", none, ⟨6, 1⟩⟩, ⟨.keyword .passStmt, "PASS", none, ⟨6, 3⟩⟩,
          ⟨.newline, "\n", none, ⟨6, 7⟩⟩, ⟨.dedent, "", none, ⟨7, 1⟩⟩]) := by with_unfolding_all rfl
  have hcut : Piece.cut " # c".toList = [⟨.blanks, [' ']⟩, ⟨.comment, "# c".toList⟩] := by
    with_unfolding_all rfl
  have hreplaced : TestReplaced "IF a\n  PASS\nELSIF b # c\n  PASS\nELSE\n  PASS\n"
      "IF a\n  PASS\nELSIF ) # c\n  PASS\nELSE\n  PASS\n"
      ⟨.keyword .elsifStmt, "ELSIF", none, ⟨3, 1⟩⟩ "IF a\n  PASS\n".toList [' '] ['b']
      " # c".toList "  PASS\nELSE\n  PASS\n".toList :=
    { opens := rfl
      placed := by decide
      old := by decide
      new := by decide
      gaps := by simp [isGap, Piece.isBlank]
      noBreak := by simp
      codeless := by
        rw [Codeless, hcut]
        simp }
  have hcompact : Compact
      (content (tokens "IF a\n  PASS\nELSIF b # c\n  PASS\nELSE\n  PASS\n")) := by
    rw [htokens]
    simp [Compact]
  exact ⟨⟨_, hparse⟩, hreplaced,
    parseSource_testReplaced hparse hcompact htokens (by simp) rfl hreplaced⟩

/-- A branch behind a broken header is an error more. -/
theorem broken_header_else :
    parseSource "IF a\n  A\nELSE\n  B\n" =
        .ok [.condition (.name .variable ⟨"a", ⟨1, 4⟩⟩) [.expression (.call ⟨"A", ⟨2, 3⟩⟩ [])]
          (some [.expression (.call ⟨"B", ⟨4, 3⟩⟩ [])])] ∧
      parseSource "IF )\n  A\nELSE\n  B\n" =
        .error (.syntactic [⟨.expectedExpression "')'", ⟨1, 4⟩⟩,
          ⟨.expectedExpression "'ELSE'", ⟨3, 1⟩⟩]) := by
  constructor
  · with_unfolding_all rfl
  · with_unfolding_all rfl

end Offside
