import Offside.Proofs.Source.Locality

/-!
# One line more

Tokens are numbered by lines: a token is on the line after as many as there are newlines before it
(`Lined`, `Source.scan_lined`). So when a line without code is put in between two lines of a text,
the tokens before it stay, those behind it move down by one line, and between them there are the
tokens of that line (`Source.tokens_insert`). The margin does not notice it.

A line feed at the very end of a text ends its last line. It comes before the ends of the blocks
that are still open, which then end on the next line (`Source.scan_newline`).
-/

namespace Offside

/-! ## Pieces and lines -/

theorem Position.line_after {cs : List Char} (h : '\n' ∉ cs) (p : Position) :
    (p.after cs).line = p.line := by
  have hsame : p.onLine p.line = p := rfl
  have hafter := after_onLine p.line h p
  rw [hsame] at hafter
  rw [hafter]
  rfl

namespace Piece

theorem run_noBreak {p : Char → Bool} (hp : p '\n' = false) (cs : List Char) :
    '\n' ∉ (run p cs).1 := by
  intro hmem
  have hall := of_mem_run hmem
  rw [hp] at hall
  cases hall

theorem numberTail_noBreak (cs : List Char) : '\n' ∉ (numberTail cs).1 := by
  rcases numberTail_cases cs with hnumber | ⟨ds, d, more, hrun, hd, hnumber⟩
  · rw [hnumber]
    exact run_noBreak (by decide) cs
  · have hds := run_noBreak (p := Char.isDigit) (by decide) cs
    have hfs := run_noBreak (p := Char.isDigit) (by decide) (d :: more)
    rw [hrun] at hds
    simp [hnumber, hds, hfs]

theorem quoteTail_noBreak (cs : List Char) : '\n' ∉ (quoteTail cs).2.1 := by
  have hrun := run_noBreak (p := (!endsQuote ·)) (by decide) cs
  unfold quoteTail
  split
  · rename_i heq
    rw [heq] at hrun
    simpa using hrun
  · rename_i heq
    rw [heq] at hrun
    exact hrun

theorem symbolTail_noBreak {c : Char} (hc : c ≠ '\n') (cs : List Char) :
    '\n' ∉ c :: (symbolTail c cs).2.1 := by
  have hone : '\n' ∉ [c] := by simpa using Ne.symm hc
  rcases symbolTail_cases c cs with ⟨d, rest, s, -, hs, heq⟩ | ⟨-, ⟨s, -, heq⟩ | ⟨-, heq⟩⟩
  · rw [heq, text_of_ofText? hs]
    cases s <;> decide
  · rw [heq]
    exact hone
  · rw [heq]
    exact hone

theorem tail_noBreak {c : Char} {cs : List Char} (h : (tail c cs).1 ≠ .lineBreak) :
    '\n' ∉ c :: (tail c cs).2.1 := by
  by_cases hn : c = '\n'
  · subst hn
    exact absurd rfl h
  · by_cases hr : c = '\r'
    · subst hr
      by_cases hcs : ∃ rest, cs = '\n' :: rest
      · obtain ⟨rest, rfl⟩ := hcs
        exact absurd rfl h
      · rw [tail_carriage fun rest heq => hcs ⟨rest, heq⟩]
        simp
    · unfold tail
      rw [if_neg hn, if_neg hr]
      split_ifs
      · exact List.not_mem_cons_of_ne_of_not_mem (Ne.symm hn) (run_noBreak (by decide) cs)
      · exact List.not_mem_cons_of_ne_of_not_mem (Ne.symm hn) (run_noBreak (by decide) cs)
      · exact List.not_mem_cons_of_ne_of_not_mem (Ne.symm hn) (quoteTail_noBreak cs)
      · exact List.not_mem_cons_of_ne_of_not_mem (Ne.symm hn) (numberTail_noBreak cs)
      · exact List.not_mem_cons_of_ne_of_not_mem (Ne.symm hn) (run_noBreak (by decide) cs)
      · exact symbolTail_noBreak hn cs

/-- Behind a line break there is the next line, and behind any other piece the same line. -/
def Steps (q : Piece) : Prop :=
  ∀ p : Position, (p.after q.text).line = p.line + if q.shape = .lineBreak then 1 else 0

theorem steps_of_genuine {q : Piece} (h : q.Genuine) (hq : q.shape ≠ .lineBreak → '\n' ∉ q.text) :
    q.Steps := by
  intro p
  split_ifs with hs
  · rcases h.lineBreak hs with h | h
    · rw [h]
      rfl
    · rw [h]
      rfl
  · exact Position.line_after (hq hs) p

theorem cut_steps (cs : List Char) : ∀ q ∈ cut cs, q.Steps := by
  fun_induction cut cs with
  | case1 => simp
  | case2 c cs r ih =>
    exact List.forall_mem_cons.mpr ⟨steps_of_genuine (tail_genuine c cs) tail_noBreak, ih⟩

end Piece

/-! ## Tokens and lines -/

/-- The first of the tokens is on the line `l`, and newlines alone lead to the next line. -/
def Lined : Nat → List Token → Prop
  | _, [] => True
  | l, t :: ts => t.pos.line = l ∧ Lined (if t.kind = .newline then l + 1 else l) ts

namespace Lined

variable {l : Nat} {us vs : List Token}

theorem append : Lined l (us ++ vs) ↔ Lined l us ∧ Lined (l + countKind .newline us) vs := by
  induction us generalizing l with
  | nil => simp [Lined]
  | cons u us ih =>
    rw [List.cons_append, Lined, Lined, ih, countKind_cons, and_assoc]
    split_ifs with hu
    · rw [Nat.add_right_comm l, ← Nat.add_assoc]
    · rw [Nat.add_zero]

theorem inLine (hus : ∀ u ∈ us, u.pos.line = l ∧ u.kind ≠ .newline) (hvs : Lined l vs) :
    Lined l (us ++ vs) := by
  induction us with
  | nil => exact hvs
  | cons u us ih =>
    obtain ⟨⟨hline, hkind⟩, hus⟩ := List.forall_mem_cons.mp hus
    refine ⟨hline, ?_⟩
    rw [if_neg hkind]
    exact ih hus

theorem le (h : Lined l us) : ∀ u ∈ us, l ≤ u.pos.line := by
  induction us generalizing l with
  | nil => simp
  | cons u us ih =>
    refine List.forall_mem_cons.mpr ⟨Nat.le_of_eq h.1.symm, fun v hv => ?_⟩
    have hle := ih h.2 v hv
    split_ifs at hle
    · omega
    · exact hle

theorem le_add (h : Lined l us) : ∀ u ∈ us, u.pos.line ≤ l + countKind .newline us := by
  induction us generalizing l with
  | nil => simp
  | cons u us ih =>
    rw [countKind_cons]
    refine List.forall_mem_cons.mpr ⟨by rw [h.1]; omega, fun v hv => ?_⟩
    have hle := ih h.2 v hv
    split_ifs at hle ⊢
    · omega
    · omega

theorem lt_of_newline {u : Token} (h : Lined l (us ++ u :: vs)) (hu : u.kind = .newline) :
    ∀ v ∈ vs, u.pos.line < v.pos.line := by
  obtain ⟨-, hline, hvs⟩ := append.mp h
  rw [if_pos hu] at hvs
  intro v hv
  rw [hline]
  exact hvs.le v hv

theorem filter (h : Lined l us) : Lined l (us.filter (·.kind != .comment)) := by
  induction us generalizing l with
  | nil => exact h
  | cons u us ih =>
    obtain ⟨hline, hus⟩ := h
    by_cases hu : u.kind = .comment
    · rw [if_neg (by simp [hu])] at hus
      rw [List.filter_cons_of_neg (by simp [hu])]
      exact ih hus
    · rw [List.filter_cons_of_pos (by simp [hu])]
      exact ⟨hline, ih hus⟩

end Lined

namespace Source

section lined

variable {m : Margin} {p : Position} {qs : List Piece}

theorem startLine_pos {t : Token} (ht : t ∈ (m.startLine p qs).2) :
    t.pos.line = p.line ∧ t.kind ≠ .newline := by
  have hclose : ∀ {m : Margin} {w : Nat}, t ∈ (m.closeTo w p).2 →
      t.pos.line = p.line ∧ t.kind ≠ .newline := by
    intro m w ht
    obtain ⟨_, -, rfl⟩ := List.mem_map.mp ht
    exact ⟨rfl, by simp [Margin.dedent]⟩
  cases qs with
  | nil => cases ht
  | cons q qs =>
    unfold Margin.startLine at ht
    simp only at ht
    split_ifs at ht
    · cases ht
    · unfold Margin.moveTo at ht
      split_ifs at ht
      · rw [List.mem_singleton] at ht
        subst ht
        exact ⟨rfl, by simp⟩
      · exact hclose ht
    · cases ht
    · exact hclose ht

theorem pos_of_item? {q : Piece} {t : Token} (h : item? p q = some (.ok t)) : t.pos = p := by
  -- wherever the token is, it can be moved to `p`
  have hmove := item?_move (fun _ => p) p q
  rw [h] at hmove
  have heq : t = t.move fun _ => p := by simpa [moveItem] using hmove
  rw [heq]
  rfl

theorem items_lined (hqs : ∀ q ∈ qs, q.Steps) (atStart : Bool) :
    Lined p.line (tokensOf (items m atStart p qs)) := by
  induction qs generalizing m atStart p with
  | nil =>
    rw [items, tokensOf_append, tokensOf_map_ok]
    refine .inLine (fun t ht => ?_) ⟨rfl, trivial⟩
    obtain ⟨_, -, rfl⟩ := List.mem_map.mp ht
    exact ⟨rfl, by simp [Margin.dedent]⟩
  | cons q qs ih =>
    rw [List.forall_mem_cons] at hqs
    have hfrom : ∀ m, Lined p.line (tokensOf (itemsFrom m p q qs)) := by
      intro m
      have hrest := ih hqs.2 (m := m) (p := p.after q.text) (q.shape == .lineBreak)
      rw [hqs.1 p] at hrest
      rw [itemsFrom, tokensOf_append]
      cases hi : item? p q with
      | none =>
        rcases shape_of_item?_eq_none hi with hq | hq
        all_goals
          rw [hq] at hrest ⊢
          exact hrest
      | some i =>
        cases i with
        | error f =>
          have hq : q.shape ≠ .lineBreak := by
            intro hq
            rw [item?, hq] at hi
            cases hi
          rw [if_neg hq] at hrest
          exact hrest
        | ok t =>
          refine ⟨by rw [pos_of_item? hi], ?_⟩
          rcases kind_of_item?_eq_some hi with ⟨hq, hk⟩ | ⟨hq, hk⟩ | ⟨hq, -, hk⟩
          · rw [if_pos hk]
            rw [if_pos hq] at hrest
            exact hrest
          · rw [if_neg (by rw [hk]; decide)]
            rw [if_neg (by rw [hq]; decide)] at hrest
            exact hrest
          · have hnewline : t.kind ≠ .newline := by
              intro h
              rw [h] at hk
              cases hk
            rw [if_neg hnewline]
            rw [if_neg hq] at hrest
            exact hrest
    cases atStart with
    | false => exact hfrom m
    | true =>
      rw [items_atStart, tokensOf_append, tokensOf_map_ok]
      exact .inLine (fun t ht => startLine_pos ht) (hfrom _)

theorem tokensOf_items_ne_nil (atStart : Bool) : tokensOf (items m atStart p qs) ≠ [] := by
  induction qs generalizing m atStart p with
  | nil =>
    rw [items, tokensOf_append]
    exact List.append_ne_nil_of_right_ne_nil _ (List.cons_ne_nil _ _)
  | cons q qs ih =>
    rw [items]
    simp only
    rw [tokensOf_append, tokensOf_append]
    exact List.append_ne_nil_of_right_ne_nil _ (List.append_ne_nil_of_right_ne_nil _ (ih _))

theorem scan_lined (source : List Char) : Lined 1 (tokensOf (scan source)) :=
  items_lined (p := .start) (Piece.cut_steps _) false

end lined

/-! ## Positions elsewhere -/

section move

variable {m : Margin} {p : Position} {qs : List Piece}

theorem startLine_move (f : Position → Position) :
    m.startLine (f p) qs = ((m.startLine p qs).1, (m.startLine p qs).2.map (Token.move f)) := by
  have hclose : ∀ (m : Margin) (w : Nat),
      m.closeTo w (f p) = ((m.closeTo w p).1, (m.closeTo w p).2.map (Token.move f)) := by
    intro m w
    unfold Margin.closeTo
    rw [List.map_map]
    rfl
  cases qs with
  | nil => rfl
  | cons q qs =>
    unfold Margin.startLine
    simp only
    split_ifs
    · rfl
    · unfold Margin.moveTo
      split_ifs
      · rfl
      · exact hclose _ _
    · rfl
    · exact hclose _ _

/-- The same pieces at another place, if the positions from there on move with the text. -/
theorem items_move {f : Position → Position} (hf : ∀ cs, f (p.after cs) = (f p).after cs)
    (atStart : Bool) :
    items m atStart (f p) qs = (items m atStart p qs).map (moveItem f) := by
  induction qs generalizing m atStart p with
  | nil =>
    rw [items, items, List.map_append, List.map_map]
    unfold Margin.closeTo
    rw [List.map_map, List.map_map]
    rfl
  | cons q qs ih =>
    have hrest : ∀ cs, f ((p.after q.text).after cs) = (f (p.after q.text)).after cs := by
      intro cs
      rw [← Position.after_append, hf, hf, Position.after_append]
    have hfrom : ∀ m, itemsFrom m (f p) q qs = (itemsFrom m p q qs).map (moveItem f) := by
      intro m
      unfold itemsFrom
      rw [item?_move, ← hf, ih hrest, List.map_append, Option.toList_map]
    cases atStart with
    | false => exact hfrom m
    | true =>
      rw [items_atStart, items_atStart, startLine_move, hfrom, List.map_append, List.map_map,
        List.map_map]
      rfl

end move

end Source

/-! ## A line put in -/

/-- Where a position is when a line is put in before the line `k`. -/
def Position.below (k : Nat) (p : Position) : Position := if k ≤ p.line then p.down 1 else p

theorem Token.move_below_of_lt {k : Nat} {t : Token} (h : t.pos.line < k) :
    t.move (.below k) = t := by
  rw [move, Position.below, if_neg (by omega)]

theorem Token.move_below_of_le {k : Nat} {t : Token} (h : k ≤ t.pos.line) :
    t.move (.below k) = t.move (.down 1) := by
  rw [move, Position.below, if_pos h]
  rfl

namespace Source

/-- A line that shows no code: it is empty, or a comment from its first column on. -/
def Unseen (line : List Char) : Prop := line = [] ∨ Lexeme.comment.Matches line

section insert

variable {m : Margin} {p : Position} {line : List Char}

theorem cut_comment {rest : List Char} (h : Lexeme.comment.Matches line)
    (hrest : ∀ c ∈ rest.head?, Piece.endsComment c = true) :
    Piece.cut (line ++ rest) = ⟨.comment, line⟩ :: Piece.cut rest := by
  obtain ⟨body, rfl, hbody⟩ := h
  have hrun : Piece.run (!Piece.endsComment ·) (body ++ rest) = (body, rest) :=
    Piece.run_of_boundary (fun c hc => not_endsComment.mpr (hbody c hc)) fun c hc => by
      rw [hrest c hc]
      rfl
  have htail : Piece.tail '#' (body ++ rest) = (.comment, body, rest) := by
    rw [← hrun]
    rfl
  rw [List.cons_append, Piece.cut_cons, htail]

theorem cut_empty : Piece.cut ([] ++ ['\n']) = [⟨.lineBreak, ['\n']⟩] := by
  rw [List.nil_append, Piece.cut_lineFeed, Piece.cut]

theorem cut_unseen (h : Unseen line) :
    Piece.cut (line ++ ['\n']) = [⟨.lineBreak, ['\n']⟩] ∨
      Piece.cut (line ++ ['\n']) = [⟨.comment, line⟩, ⟨.lineBreak, ['\n']⟩] := by
  rcases h with rfl | h
  · exact .inl cut_empty
  · refine .inr ?_
    rw [cut_comment h (by rintro c ⟨⟩; rfl)]
    exact congrArg _ cut_empty

/-- The margin does not notice a line without code. -/
theorem items_unseen (h : Unseen line) (qs : List Piece) :
    items m true p (Piece.cut (line ++ ['\n']) ++ qs) =
      found p (Piece.cut (line ++ ['\n'])) ++ items m true (p.after (line ++ ['\n'])) qs := by
  have hflat := Piece.cut_flatten (line ++ ['\n'])
  rcases cut_unseen h with hcut | hcut
  · rw [hcut] at hflat ⊢
    rw [← hflat]
    rfl
  · rw [hcut, Position.after_append]
    rfl

theorem silent_found (h : Unseen line) : Silent (found p (Piece.cut (line ++ ['\n']))) := by
  have hcut : ∀ q ∈ Piece.cut (line ++ ['\n']), q.shape = .lineBreak ∨ q.shape = .comment := by
    rcases cut_unseen h with hcut | hcut
    · simp [hcut]
    · simp [hcut]
  generalize Piece.cut (line ++ ['\n']) = qs at hcut
  induction qs generalizing p with
  | nil => simp [Silent, found]
  | cons q qs ih =>
    rw [List.forall_mem_cons] at hcut
    exact List.forall_mem_append.mpr ⟨silent_item? hcut.1, ih hcut.2⟩

theorem Unseen.noBreak (h : Unseen line) : '\n' ∉ line := by
  rcases h with rfl | ⟨body, rfl, hbody⟩
  · exact List.not_mem_nil
  · rw [List.mem_cons, not_or]
    exact ⟨by decide, fun hmem => (hbody _ hmem).1 rfl⟩

theorem scan_lines_append {s₁ : List Char} (hs : s₁ ≠ []) (hlines : WholeLines s₁) :
    ∃ before m, (∀ t, .ok t ∈ before → t.kind ≠ .endOfInput) ∧
      (∃ u, before.getLast? = some (.ok u) ∧ u.kind = .newline) ∧
      ∀ s₂, scan (s₁ ++ s₂) =
        before ++ items m true (Position.start.down (s₁.count '\n')) (Piece.cut s₂) := by
  obtain ⟨mark, hmark, -⟩ := withoutMark_split s₁
  have hne := withoutMark_ne_nil hlines hs
  have hcount := count_withoutMark s₁
  have happend := withoutMark_append hs
  generalize withoutMark s₁ = cs at hmark hne hcount happend
  have hwhole : WholeLines cs := (hmark ▸ hlines).of_append
  have hlast := Piece.cut_wholeLines hwhole
  have hpieces : Piece.cut cs ≠ [] := by
    obtain ⟨c, cs', rfl⟩ := List.exists_cons_of_ne_nil hne
    rw [Piece.cut_cons]
    exact List.cons_ne_nil _ _
  have hblanks : ∀ q ∈ (Piece.cut cs).getLast?, q.shape ≠ .blanks := by
    intro q hq
    rw [hlast q hq]
    decide
  have hbehind : Position.start.after cs = Position.start.down (s₁.count '\n') := by
    rw [← hcount, ← Position.behind_of_wholeLines hwhole]
    exact Position.start_after cs
  have hstart : startsBehind false (Piece.cut cs) = true := by
    rw [startsBehind_of_lines hlast]
    simpa using hpieces
  refine ⟨front .outermost false .start (Piece.cut cs),
    marginBehind .outermost false .start (Piece.cut cs), fun t => front_inside,
    front_ended hlast hpieces, fun s₂ => ?_⟩
  rw [scan, happend, Piece.cut_join hwhole, items_front false (.inl hblanks), hstart,
    Piece.cut_flatten, hbehind]

/-- What the scanner finds before and behind a place between two lines, and what it finds when a
line without code is put in there. -/
theorem scan_insert {s₁ : List Char} (hs : s₁ ≠ []) (hlines : WholeLines s₁) (s₂ : List Char) :
    ∃ before behind, scan (s₁ ++ s₂) = before ++ behind ∧
      (∀ t, .ok t ∈ before → t.kind ≠ .endOfInput) ∧
      (∃ u, before.getLast? = some (.ok u) ∧ u.kind = .newline) ∧
      Lined (s₁.count '\n' + 1) (tokensOf behind) ∧ tokensOf behind ≠ [] ∧
      ∀ line, Unseen line → scan (s₁ ++ (line ++ '\n' :: s₂)) = before ++
        (found ⟨s₁.count '\n' + 1, 1⟩ (Piece.cut (line ++ ['\n'])) ++
          behind.map (moveItem (.down 1))) := by
  obtain ⟨before, m, hinside, hended, hscan⟩ := scan_lines_append hs hlines
  have hpos : Position.start.down (s₁.count '\n') = Position.start.onLine (s₁.count '\n' + 1) := by
    rw [Nat.add_comm]
    rfl
  rw [hpos] at hscan
  refine ⟨before, items m true (Position.start.onLine (s₁.count '\n' + 1)) (Piece.cut s₂), hscan s₂,
    hinside, hended, items_lined (p := Position.start.onLine _) (Piece.cut_steps s₂) true,
    tokensOf_items_ne_nil true, fun line hline => ?_⟩
  have hwhole : WholeLines (line ++ ['\n']) := by simp [WholeLines]
  have htext : line ++ '\n' :: s₂ = (line ++ ['\n']) ++ s₂ := by simp
  rw [hscan, htext, Piece.cut_join hwhole, items_unseen hline, Position.after_line _ hline.noBreak,
    ← items_move fun cs => (Position.after_down 1 _ cs).symm]
  rfl

theorem faultless_silent {is : List Item} (h : Silent is) : Faultless is := by
  unfold Faultless
  rw [List.filterMap_eq_nil_iff]
  intro i hi
  obtain ⟨t, rfl, -⟩ := h i hi
  rfl

theorem wholeLines_of_getLast? {s : List Char} (h : s.getLast? = some '\n') :
    s ≠ [] ∧ WholeLines s := by
  refine ⟨?_, ?_⟩
  · rintro rfl
    cases h
  · intro c hc
    rw [h] at hc
    cases hc
    rfl

/-- **A line put in.** The tokens of a text are those before and behind the place between two of its
lines, where there is a newline. When a line without code is put in there, its tokens are found
behind that newline, and those further down have moved. -/
theorem tokens_insert {s₁ : List Char} (hs : s₁ ≠ []) (hlines : WholeLines s₁) (s₂ : List Char) :
    ∃ us u vs, tokensOf (scan (s₁ ++ s₂)) = us ++ u :: vs ∧ u.kind = .newline ∧
      u.pos.line = s₁.count '\n' ∧ (∀ t ∈ us, t.kind ≠ .endOfInput) ∧
      ∀ line, Unseen line →
        tokensOf (scan (s₁ ++ (line ++ '\n' :: s₂))) =
          us.map (Token.move (.below (s₁.count '\n' + 1))) ++
            u.move (.below (s₁.count '\n' + 1)) ::
              (tokensOf (found ⟨s₁.count '\n' + 1, 1⟩ (Piece.cut (line ++ ['\n']))) ++
                vs.map (Token.move (.below (s₁.count '\n' + 1)))) ∧
        (Faultless (scan (s₁ ++ s₂)) → Faultless (scan (s₁ ++ (line ++ '\n' :: s₂)))) := by
  obtain ⟨before, behind, hscan, hinside, ⟨u, hu, hk⟩, hbehind, hne, hinsert⟩ :=
    scan_insert hs hlines s₂
  obtain ⟨lines, rfl⟩ := List.getLast?_eq_some_iff.mp hu
  have htokens : tokensOf (lines ++ [.ok u]) = tokensOf lines ++ [u] := tokensOf_append _ _
  have hlined := scan_lined (s₁ ++ s₂)
  rw [hscan, tokensOf_append, htokens, List.append_assoc, Lined.append] at hlined
  obtain ⟨hus, huline, hvs⟩ := hlined
  rw [if_pos hk] at hvs
  -- the line numbers of what is behind show how many newlines are before
  have hcount : 1 + countKind .newline (tokensOf lines) = s₁.count '\n' := by
    obtain ⟨v, vs, hv⟩ := List.exists_cons_of_ne_nil hne
    rw [hv] at hbehind hvs
    have hline := hbehind.1
    rw [hvs.1] at hline
    omega
  rw [hcount] at huline
  have hstay : ∀ t ∈ tokensOf lines, t.move (.below (s₁.count '\n' + 1)) = t := by
    intro t ht
    have hle := hus.le_add t ht
    rw [hcount] at hle
    exact Token.move_below_of_lt (by omega)
  have hdown : ∀ t ∈ tokensOf behind,
      t.move (.down 1) = t.move (.below (s₁.count '\n' + 1)) := by
    intro t ht
    exact (Token.move_below_of_le (hbehind.le t ht)).symm
  refine ⟨tokensOf lines, u, tokensOf behind, ?_, hk, huline, ?_, fun line hline => ⟨?_, ?_⟩⟩
  · rw [hscan, tokensOf_append, htokens, List.append_assoc]
    rfl
  · intro t ht
    obtain ⟨i, hi, hit⟩ := List.mem_filterMap.mp ht
    cases i with
    | error e => cases hit
    | ok t' =>
      cases hit
      exact hinside t (List.mem_append_left _ hi)
  · have hsame := (List.map_congr_left hstay).trans (List.map_id' _)
    rw [hinsert line hline, tokensOf_append, htokens, tokensOf_append, tokensOf_move,
      List.map_congr_left hdown, hsame, Token.move_below_of_lt (by omega), List.append_assoc]
    rfl
  · intro hfaultless
    rw [hscan, faultless_append] at hfaultless
    rw [hinsert line hline]
    exact faultless_append.mpr ⟨hfaultless.1, faultless_append.mpr
      ⟨faultless_silent (silent_found hline), faultless_move _ hfaultless.2⟩⟩

end insert

/-! ## A line feed at the end -/

theorem items_lineBreak (m : Margin) (atStart : Bool) (p : Position) (text : List Char)
    (qs : List Piece) : items m atStart p (⟨.lineBreak, text⟩ :: qs) =
      .ok ⟨.newline, "\n", none, p⟩ :: items m true (p.after text) qs := by
  cases atStart <;> rfl

theorem items_carriage (m : Margin) (atStart : Bool) (p : Position) (text : List Char)
    (qs : List Piece) :
    items m atStart p (⟨.carriage, text⟩ :: qs) = items m false (p.after text) qs := by
  cases atStart <;> rfl

theorem items_comment (m : Margin) (atStart : Bool) (p : Position) (text : List Char)
    (qs : List Piece) : items m atStart p (⟨.comment, text⟩ :: qs) =
      .ok ⟨.comment, .ofList text, none, p⟩ :: items m false (p.after text) qs := by
  cases atStart <;> rfl

theorem scan_newline (s : List Char) :
    ∃ before m p p' q, (∀ t, .ok t ∈ before → t.kind ≠ .endOfInput) ∧
      scan s = before ++ items m false p [] ∧
      scan (s ++ ['\n']) = before ++ .ok ⟨.newline, "\n", none, q⟩ :: items m true p' [] := by
  have hmark : withoutMark (s ++ ['\n']) = withoutMark s ++ ['\n'] := by
    by_cases hs : s = []
    · subst hs
      rfl
    · exact withoutMark_append hs _
  unfold scan
  rw [hmark]
  generalize withoutMark s = cs
  rcases Piece.cut_line cs with hcut | ⟨qs, hqs, hcut⟩
  · have hend : items .outermost false .start (Piece.cut cs ++ []) = _ :=
      items_front false (.inr rfl)
    rw [List.append_nil] at hend
    rw [hend, hcut, items_front false (.inr rfl), items_lineBreak]
    exact ⟨_, _, _, _, _, fun t => front_inside, rfl, rfl⟩
  · rw [hqs, hcut, items_front false (.inr rfl), items_front false (.inr rfl), items_carriage,
      items_lineBreak]
    exact ⟨_, _, _, _, _, fun t => front_inside, rfl, rfl⟩

end Source

end Offside
