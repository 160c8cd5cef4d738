import Offside.Proofs.Source.Insertion

/-!
# How far the scanner looks ahead

A piece depends on its own characters and on no more than two behind it: a number looks at a point
and the character behind that, and all other pieces at the next character alone (`Piece.tail_swap`).
So a text that ends in a word is cut into the same pieces whatever is behind it, if that does not go
on with the word (`Piece.cut_peek`).

Where a line goes on differently behind a word, the scanner finds something else up to the end of
that line, and nothing else changes (`Source.scan_line_behind`).
-/

namespace Offside

namespace Position

theorem Before.irrefl {p : Position} : ¬ p.Before p := by
  unfold Before
  omega

theorem eq_of_behind {s t u v : List Char} (htext : s ++ u = t ++ v) (h : behind s = behind t) :
    s = t := by
  have hnil : ∀ {s t : List Char}, behind s = behind (s ++ t) → t = [] := by
    intro s t heq
    by_contra hne
    have hbefore := (behind s).before_after hne
    rw [after_behind, ← heq] at hbefore
    exact hbefore.irrefl
  rcases List.append_eq_append_iff.mp htext with ⟨w, rfl, -⟩ | ⟨w, rfl, -⟩
  · rw [hnil h, List.append_nil]
  · rw [hnil h.symm, List.append_nil]

end Position

namespace Piece

/-- Pieces with two characters behind them stay whatever comes behind those. -/
theorem cut_peek {qs rs : List Piece} {w r₀ : List Char}
    (h : cut (qs.flatMap text ++ (w ++ r₀)) = qs ++ rs) (hw : 2 ≤ w.length) (r : List Char) :
    cut (qs.flatMap text ++ (w ++ r)) = qs ++ cut (w ++ r) := by
  refine cut_swap h (.inl (.append ?_ ?_))
  · rintro rfl
    simp at hw
  · rintro rfl
    simp at hw

theorem tail_keyword (k : Keyword) :
    ∃ c w, k.text.toList = c :: w ∧ w ≠ [] ∧ w.all isWordChar = true ∧
      ∀ cs, tail c cs = (.word, run isWordChar cs) := by
  cases k <;> exact ⟨_, _, rfl, List.cons_ne_nil _ _, rfl, fun cs => rfl⟩

theorem two_le_length_keyword (k : Keyword) : 2 ≤ k.text.toList.length := by
  obtain ⟨c, w, hw, hne, -⟩ := tail_keyword k
  have hpos := List.length_pos_iff.mpr hne
  rw [hw, List.length_cons]
  omega

theorem cut_keyword (k : Keyword) {r : List Char} (hr : ∀ c ∈ r.head?, isWordChar c = false) :
    cut (k.text.toList ++ r) = ⟨.word, k.text.toList⟩ :: cut r := by
  obtain ⟨c, w, hw, -, hall, htail⟩ := tail_keyword k
  rw [hw, List.cons_append, cut_cons, htail, run_of_boundary (List.all_eq_true.mp hall) hr]

end Piece

namespace Source

/-! ## One token -/

section token

variable {p : Position} {q : Piece} {qs : List Piece} {t : Token}

theorem mem_tokensOf {is : List Item} : t ∈ tokensOf is ↔ .ok t ∈ is := by
  unfold tokensOf
  rw [List.mem_filterMap]
  constructor
  · rintro ⟨i, hi, ht⟩
    cases i with
    | error e => cases ht
    | ok u =>
      cases ht
      exact hi
  · intro ht
    exact ⟨.ok t, ht, rfl⟩

theorem exists_piece {i : Item} (h : i ∈ found p qs) :
    ∃ qs₁ q qs₂, qs = qs₁ ++ q :: qs₂ ∧
      item? (p.after (qs₁.flatMap Piece.text)) q = some i := by
  induction qs generalizing p with
  | nil => cases h
  | cons q qs ih =>
    rcases List.mem_append.mp h with h | h
    · exact ⟨[], q, qs, rfl, Option.mem_toList.mp h⟩
    · obtain ⟨qs₁, q', qs₂, rfl, hq⟩ := ih h
      refine ⟨q :: qs₁, q', qs₂, rfl, ?_⟩
      rw [List.flatMap_cons, Position.after_append]
      exact hq

theorem mem_found_of_item? {i : Item} {qs₁ qs₂ : List Piece}
    (h : item? (p.after (qs₁.flatMap Piece.text)) q = some i) :
    i ∈ found p (qs₁ ++ q :: qs₂) := by
  rw [found_append, found, h]
  exact List.mem_append_right _ List.mem_cons_self

theorem lexeme_of_isCode {q : Piece} {t : Token} (hq : q.Genuine) (h : item? p q = some (.ok t))
    (ht : t.kind.isCode = true) : t.lexeme.toList = q.text := by
  have hspells := (spells_of_item? hq h []).2
  unfold Token.Spells at hspells
  split at hspells
  case h_5 => exact hspells.1
  all_goals simp_all [Kind.isCode]

theorem exists_piece_of_isCode {s : List Char} (hmem : t ∈ tokensOf (scan s))
    (hcode : t.kind.isCode = true) :
    ∃ qs q rest, Piece.cut (withoutMark s) = qs ++ q :: Piece.cut rest ∧
      withoutMark s = qs.flatMap Piece.text ++ (t.lexeme.toList ++ rest) ∧
      q.text = t.lexeme.toList ∧ item? (.behind (qs.flatMap Piece.text)) q = some (.ok t) := by
  have hfound : .ok t ∈ found .start (Piece.cut (withoutMark s)) := by
    rw [← items_written .outermost false, List.mem_filter]
    exact ⟨mem_tokensOf.mp hmem, isWritten_of_isCode hcode⟩
  obtain ⟨qs, q, rs, hcut, hitem⟩ := exists_piece hfound
  have hgenuine : q.Genuine := Piece.cut_genuine (withoutMark s) q (by rw [hcut]; simp)
  have hlexeme := lexeme_of_isCode hgenuine hitem hcode
  have hflat := Piece.cut_flatten (withoutMark s)
  rw [hcut, List.flatMap_append, List.flatMap_cons, ← hlexeme] at hflat
  have hrs : Piece.cut (rs.flatMap Piece.text) = rs := by
    rw [List.append_cons] at hcut
    exact Piece.cut_behind hcut
  rw [Position.start_after] at hitem
  exact ⟨qs, q, rs.flatMap Piece.text, by rw [hrs, hcut], hflat.symm, hlexeme.symm, hitem⟩

theorem exists_piece_at {s before rest : List Char} (hmem : t ∈ tokensOf (scan s))
    (hcode : t.kind.isCode = true) (hpos : t.pos = .behind before)
    (hs : withoutMark s = before ++ (t.lexeme.toList ++ rest)) :
    ∃ qs q, Piece.cut (withoutMark s) = qs ++ q :: Piece.cut rest ∧
      qs.flatMap Piece.text = before ∧ q.text = t.lexeme.toList ∧
      item? (.behind before) q = some (.ok t) := by
  obtain ⟨qs, q, rest', hcut, hs', hlexeme, hitem⟩ := exists_piece_of_isCode hmem hcode
  have htext := hs'.symm.trans hs
  -- the pieces before the token are the text before it
  obtain rfl : qs.flatMap Piece.text = before := by
    refine Position.eq_of_behind htext ?_
    rw [← hpos, pos_of_item? hitem]
  obtain rfl : rest' = rest := List.append_cancel_left (List.append_cancel_left htext)
  exact ⟨qs, q, hcut, rfl, hlexeme, hitem⟩

theorem shape_of_keyword {k : Keyword} (h : item? p q = some (.ok t)) (hk : t.kind = .keyword k) :
    q.shape = .word := by
  unfold item? at h
  split at h
  case h_8 hs => exact hs
  case h_10 => exact absurd (Option.some.inj h) stray_ne_ok
  all_goals
    cases h
    try cases hk

theorem piece_of_keyword {k : Keyword} (h : item? p q = some (.ok t)) (hk : t.kind = .keyword k) :
    q = ⟨.word, k.text.toList⟩ ∧ t = ⟨.keyword k, k.text, none, p⟩ := by
  obtain ⟨shape, text⟩ := q
  obtain rfl : shape = .word := shape_of_keyword h hk
  have hmeans := Piece.means_word p text
  have hword : word p text = .ok t := Option.some.inj h
  rw [hword] at hmeans
  cases hmeans with
  | reserved hw =>
    cases hk
    rw [hw, String.ofList_toList]
    exact ⟨rfl, rfl⟩
  | command hfree hlower => cases hk
  | identifier hfree hlower hupper => cases hk

theorem pos_of_mem_found (hqs : ∀ q ∈ qs, q.text ≠ []) (h : .ok t ∈ found p qs) :
    t.pos = p ∨ p.Before t.pos := by
  induction qs generalizing p with
  | nil => cases h
  | cons q qs ih =>
    rw [List.forall_mem_cons] at hqs
    rcases List.mem_append.mp h with h | h
    · exact .inl (pos_of_item? (Option.mem_toList.mp h))
    · have hbefore := p.before_after hqs.1
      rcases ih hqs.2 h with hpos | hpos
      · rw [hpos]
        exact .inr hbefore
      · exact .inr (hbefore.trans hpos)

theorem found_increasing (hqs : ∀ q ∈ qs, q.text ≠ []) :
    (tokensOf (found p qs)).Pairwise (·.pos.Before ·.pos) := by
  induction qs generalizing p with
  | nil => exact .nil
  | cons q qs ih =>
    rw [List.forall_mem_cons] at hqs
    rw [found, tokensOf_append]
    cases hi : item? p q with
    | none => exact ih hqs.2
    | some i =>
      cases i with
      | error e => exact ih hqs.2
      | ok t =>
        refine List.pairwise_cons.mpr ⟨fun u hu => ?_, ih hqs.2⟩
        have hbefore := p.before_after hqs.1
        rw [pos_of_item? hi]
        rcases pos_of_mem_found hqs.2 (mem_tokensOf.mp hu) with hpos | hpos
        · rw [hpos]
          exact hbefore
        · exact hbefore.trans hpos

theorem nodup_written (s : List Char) :
    ((tokensOf (scan s)).filter (·.kind.isWritten)).Nodup := by
  have hne : ∀ q ∈ Piece.cut (withoutMark s), q.text ≠ [] := fun q hq =>
    (Piece.cut_genuine _ q hq).ne_nil
  rw [← tokensOf_keeps, scan, items_written]
  refine (found_increasing hne).imp ?_
  rintro t u hbefore rfl
  exact hbefore.irrefl

end token

/-! ## A line that goes on differently -/

section line

variable {m : Margin} {p : Position} {x b : List Char}

/-- From inside a line the scanner goes on to its end, and then on the next line. -/
theorem items_restOfLine (hx : '\n' ∉ x) :
    ∃ n : Token, n.kind = .newline ∧
      items m false p (Piece.cut (x ++ '\n' :: b)) =
        found p (Piece.cut x) ++ .ok n :: items m true ⟨p.line + 1, 1⟩ (Piece.cut b) := by
  have hwhole : WholeLines (x ++ ['\n']) := by simp [WholeLines]
  have htext : x ++ '\n' :: b = (x ++ ['\n']) ++ b := by simp
  have hafter : p.after (x ++ ['\n']) = ⟨p.line + 1, 1⟩ := by
    rw [Position.after_append, ← Position.line_after hx p]
    rfl
  have hshape := shape_of_noBreak hx
  obtain ⟨n, hn, hfound⟩ := found_line p x
  obtain ⟨qs, text, hqs, hcut⟩ : ∃ qs text, (∀ q ∈ qs, q.shape ≠ .lineBreak) ∧
      Piece.cut (x ++ ['\n']) = qs ++ [⟨.lineBreak, text⟩] := by
    rcases Piece.cut_line x with hcut | ⟨qs, hqs, hcut⟩
    · exact ⟨_, _, hshape, hcut⟩
    · rw [hqs] at hshape
      exact ⟨qs, _, fun q hq => hshape q (List.mem_append_left _ hq), hcut⟩
  have hflat : qs.flatMap Piece.text ++ text = x ++ ['\n'] := by
    rw [← Piece.cut_flatten (x ++ ['\n']), hcut, List.flatMap_append]
    simp
  have hend : ∀ q : Position, items m false q (⟨.lineBreak, text⟩ :: Piece.cut b) =
      found q [⟨.lineBreak, text⟩] ++ items m true (q.after text) (Piece.cut b) := fun _ => rfl
  refine ⟨n, hn, ?_⟩
  rw [htext, Piece.cut_join hwhole, hcut, List.append_assoc, List.singleton_append, items_line hqs,
    hend, ← List.append_assoc, ← found_append, ← hcut, hfound, ← Position.after_append, hflat,
    hafter, List.append_assoc]
  rfl

theorem front_concat (atStart : Bool) (qs : List Piece) {q : Piece} {i : Item}
    (hi : item? (p.after (qs.flatMap Piece.text)) q = some i) :
    ∃ before, front m atStart p (qs ++ [q]) = before ++ [i] := by
  induction qs generalizing m atStart p with
  | nil =>
    rw [List.flatMap_nil, Position.after_nil] at hi
    rw [List.nil_append, front, hi]
    exact ⟨_, rfl⟩
  | cons r qs ih =>
    rw [List.flatMap_cons, Position.after_append] at hi
    rw [List.cons_append, front]
    simp only
    obtain ⟨before, hbefore⟩ := ih (r.shape == .lineBreak) hi
    rw [hbefore, ← List.append_assoc, ← List.append_assoc]
    exact ⟨_, rfl⟩

theorem startsBehind_concat (atStart : Bool) (qs : List Piece) (q : Piece) :
    startsBehind atStart (qs ++ [q]) = (q.shape == .lineBreak) := by
  induction qs generalizing atStart with
  | nil => rfl
  | cons r qs ih => exact ih _

theorem items_behind (atStart : Bool) (qs : List Piece) {q : Piece} {i : Item}
    (hi : item? (p.after (qs.flatMap Piece.text)) q = some i) (hq : q.shape ≠ .lineBreak) :
    ∃ (before : List Item) (m' : Margin), (∀ t, .ok t ∈ before → t.kind ≠ .endOfInput) ∧
      ∀ rest, items m atStart p (qs ++ q :: rest) =
        before ++ i :: items m' false (p.after (qs.flatMap Piece.text ++ q.text)) rest := by
  have hblanks : ∀ r ∈ (qs ++ [q]).getLast?, r.shape ≠ .blanks := by
    rw [List.getLast?_concat]
    rintro r ⟨⟩ hr
    rw [item?, hr] at hi
    cases hi
  have hstarts : startsBehind atStart (qs ++ [q]) = false := by
    rw [startsBehind_concat]
    simpa using hq
  obtain ⟨before, hbefore⟩ := front_concat (m := m) atStart qs hi
  refine ⟨before, marginBehind m atStart p (qs ++ [q]), fun t ht => ?_, fun rest => ?_⟩
  · have hfront : .ok t ∈ front m atStart p (qs ++ [q]) := by
      rw [hbefore]
      exact List.mem_append_left _ ht
    exact front_inside hfront
  · have htext : (qs ++ [q]).flatMap Piece.text = qs.flatMap Piece.text ++ q.text := by simp
    rw [List.append_cons, items_front atStart (.inl hblanks), hbefore, hstarts, htext,
      List.append_assoc]
    rfl

/-- **A line that goes on differently.** What is found before a reserved word and behind its line
stays when the line goes on differently behind the word. -/
theorem scan_line_behind {s a x b : List Char} {h : Token} {k : Keyword}
    (hmem : h ∈ tokensOf (scan s)) (hk : h.kind = .keyword k) (hpos : h.pos = .behind a)
    (hs : withoutMark s = a ++ (h.lexeme.toList ++ (x ++ '\n' :: b))) (hx : '\n' ∉ x) :
    ∃ (before behind : List Item) (n : Token),
      (∀ t, .ok t ∈ before → t.kind ≠ .endOfInput) ∧ n.kind = .newline ∧
      scan s = before ++ .ok h ::
        (found (.behind (a ++ h.lexeme.toList)) (Piece.cut x) ++ .ok n :: behind) ∧
      ∀ s' x', withoutMark s' = a ++ (h.lexeme.toList ++ (x' ++ '\n' :: b)) → '\n' ∉ x' →
        (∀ c ∈ x'.head?, Piece.isWordChar c = false) → ∃ n' : Token, n'.kind = .newline ∧
          scan s' = before ++ .ok h ::
            (found (.behind (a ++ h.lexeme.toList)) (Piece.cut x') ++ .ok n' :: behind) := by
  have hcode : h.kind.isCode = true := by
    rw [hk]
    rfl
  obtain ⟨qs, q, hcut, rfl, hlexeme, hq⟩ := exists_piece_at hmem hcode hpos hs
  obtain ⟨rfl, -⟩ := piece_of_keyword hq hk
  have hlexeme : h.lexeme.toList = k.text.toList := hlexeme.symm
  rw [hlexeme] at hs ⊢
  rw [← Position.start_after] at hq
  obtain ⟨before, m, hinside, hitems⟩ := items_behind (m := .outermost) false qs hq (by simp)
  rw [Position.start_after] at hitems
  obtain ⟨behind, hline⟩ : ∃ behind : List Item, ∀ y : List Char, '\n' ∉ y → ∃ n : Token,
      n.kind = .newline ∧
        items m false (.behind (qs.flatMap Piece.text ++ k.text.toList))
            (Piece.cut (y ++ '\n' :: b)) =
          found (.behind (qs.flatMap Piece.text ++ k.text.toList)) (Piece.cut y) ++
            .ok n :: behind :=
    ⟨_, fun y hy => items_restOfLine hy⟩
  obtain ⟨n, hn, hx⟩ := hline x hx
  refine ⟨before, behind, n, hinside, hn, ?_, fun s' x' hs' hx' hhead => ?_⟩
  · rw [scan, hcut, hitems, hx]
  · obtain ⟨n', hn', hx'⟩ := hline x' hx'
    have hhead' : ∀ c ∈ (x' ++ '\n' :: b).head?, Piece.isWordChar c = false := by
      cases x' with
      | nil =>
        rintro c ⟨⟩
        rfl
      | cons c x' => exact hhead
    rw [hs] at hcut
    refine ⟨n', hn', ?_⟩
    rw [scan, hs', Piece.cut_peek hcut (Piece.two_le_length_keyword k), Piece.cut_keyword k hhead',
      hitems, hx']

end line

end Source

end Offside
