import Offside.Proofs.Source.BlankLines
import Offside.Proofs.Source.LineEndings
import Offside.Proofs.Source.Lookahead

/-!
# Spaces and comments within a line

Blanks behind a token and a comment at the end of a line belong to no other token: each piece ends
in front of them in any case (`Shape.stopsAt`). So what is before them stays, and what is behind
them on the line moves to the right by their length (`Position.shift`).

* `Source.scan_spaced`: blanks behind a token.
* `Source.scan_commented`: a comment at the end of a line.
-/

namespace Offside

/-! ## Positions further right -/

namespace Position

/-- The positions from `p` on to the end of its line, `n` columns further right. -/
def shift (p : Position) (n : Nat) (q : Position) : Position :=
  if q.line = p.line ∧ p.column ≤ q.column then ⟨q.line, q.column + n⟩ else q

theorem line_shift (p : Position) (n : Nat) (q : Position) : (p.shift n q).line = q.line := by
  unfold shift
  split_ifs <;> rfl

theorem shift_of_before {p q : Position} (n : Nat) (h : q.Before p) : p.shift n q = q := by
  unfold shift
  rw [if_neg]
  unfold Before at h
  omega

theorem not_before_next {p q : Position} (h : ¬ q.Before p) (c : Char) : ¬ (q.next c).Before p :=
  fun hnext => h ((q.before_next c).trans hnext)

theorem shift_next {p q : Position} (n : Nat) (h : ¬ q.Before p) (c : Char) :
    p.shift n (q.next c) = (p.shift n q).next c := by
  unfold Before at h
  unfold next
  split_ifs
  · rw [line_shift, shift, if_neg (by simp only; omega)]
  · unfold shift
    by_cases hq : q.line = p.line
    · rw [if_pos (by simp only; omega), if_pos (by omega)]
      simp only [Position.mk.injEq, true_and]
      omega
    · rw [if_neg (by simp only; omega), if_neg (by omega)]

theorem shift_after_of_not_before {p q : Position} (n : Nat) (h : ¬ q.Before p) (cs : List Char) :
    p.shift n (q.after cs) = (p.shift n q).after cs := by
  induction cs generalizing q with
  | nil => rfl
  | cons c cs ih => rw [after_cons, ih (not_before_next h c), shift_next n h, after_cons]

theorem shift_after (p : Position) (n : Nat) (cs : List Char) :
    p.shift n (p.after cs) = (p.shift n p).after cs :=
  shift_after_of_not_before n Before.irrefl cs

theorem after_noBreak {w : List Char} (h : '\n' ∉ w) (p : Position) :
    p.after w = p.shift w.length p := by
  induction w generalizing p with
  | nil => simp [shift]
  | cons c w ih =>
    rw [List.mem_cons, not_or] at h
    rw [after_cons, ih h.2]
    simp [shift, next, Ne.symm h.1]
    omega

end Position

namespace Source

variable {m : Margin} {p : Position} {qs : List Piece}

/-- Where the positions before the end of some pieces stay, what the pieces give stays. -/
theorem front_move {f : Position → Position} (hqs : ∀ q ∈ qs, q.text ≠ [])
    (hf : ∀ q : Position, q.Before (p.after (qs.flatMap Piece.text)) → f q = q) (atStart : Bool) :
    (front m atStart p qs).map (moveItem f) = front m atStart p qs := by
  induction qs generalizing m p atStart with
  | nil => rfl
  | cons q qs ih =>
    rw [List.forall_mem_cons] at hqs
    rw [List.flatMap_cons] at hf
    have hp : f p = p := hf p (p.before_after (List.append_ne_nil_of_left_ne_nil hqs.1 _))
    rw [Position.after_append] at hf
    have hitem : (item? p q).map (moveItem f) = item? p q := by rw [← item?_move, hp]
    have hlayout : (m.startLine p (q :: qs)).2.map (Token.move f) =
        (m.startLine p (q :: qs)).2 := by
      have hmove := @startLine_move m p (q :: qs) f
      rw [hp] at hmove
      exact (congrArg Prod.snd hmove).symm
    rw [front]
    simp only
    rw [List.map_append, List.map_append, ih hqs.2 hf, ← Option.toList_map, hitem, List.map_map]
    congr 1
    cases atStart with
    | false => rfl
    | true =>
      calc (m.startLine p (q :: qs)).2.map (moveItem f ∘ .ok)
        _ = ((m.startLine p (q :: qs)).2.map (Token.move f)).map .ok := by
          rw [List.map_map]
          rfl
        _ = (m.startLine p (q :: qs)).2.map .ok := by rw [hlayout]

/-- Something put in behind some pieces moves what is behind it on the line. -/
theorem items_insert {rs rs' : List Piece} {added : List Item} {n : Nat} {atStart : Bool}
    (hqs : ∀ q ∈ qs, q.text ≠ []) (hrs : Undisturbed qs rs) (hrs' : Undisturbed qs rs')
    (hadded : ∀ m, items m (startsBehind atStart qs) (p.after (qs.flatMap Piece.text)) rs' =
      added ++ (items m (startsBehind atStart qs) (p.after (qs.flatMap Piece.text)) rs).map
        (moveItem ((p.after (qs.flatMap Piece.text)).shift n))) :
    ∃ us vs, items m atStart p (qs ++ rs) = us ++ vs ∧
      us.map (moveItem ((p.after (qs.flatMap Piece.text)).shift n)) = us ∧
      items m atStart p (qs ++ rs') =
        us ++ (added ++ vs.map (moveItem ((p.after (qs.flatMap Piece.text)).shift n))) := by
  refine ⟨_, _, items_front atStart hrs, front_move hqs (fun q hq => ?_) atStart, ?_⟩
  · exact Position.shift_of_before n hq
  · rw [items_front atStart hrs', hadded]

/-! ## Blanks behind a token -/

theorem items_blank {c : Char} (hc : Piece.isBlank c = true) (cs : List Char) :
    items m false p (Piece.cut (c :: cs)) = items m false (p.next c) (Piece.cut cs) := by
  have hcut : items m false p (Piece.cut (c :: cs)) =
      items m false ((p.next c).after (Piece.run Piece.isBlank cs).1)
        (Piece.cut (Piece.run Piece.isBlank cs).2) := by
    rw [Piece.cut_cons, Piece.tail_of_isBlank hc]
    rfl
  rw [hcut]
  cases cs with
  | nil => rfl
  | cons d cs =>
    by_cases hd : Piece.isBlank d = true
    · rw [Piece.cut_cons d cs, Piece.tail_of_isBlank hd, Piece.run, List.takeWhile_cons_of_pos hd,
        List.dropWhile_cons_of_pos hd]
      rfl
    · rw [Piece.run, List.takeWhile_cons_of_neg hd, List.dropWhile_cons_of_neg hd]
      rfl

theorem items_blanks_inLine {blanks : List Char} (h : Blanks blanks) (rest : List Char) :
    items m false p (Piece.cut (blanks ++ rest)) =
      items m false (p.after blanks) (Piece.cut rest) := by
  induction blanks generalizing p with
  | nil => rfl
  | cons c blanks ih =>
    obtain ⟨hc, hblanks⟩ := List.forall_mem_cons.mp h
    rw [List.cons_append, items_blank hc, ih hblanks, Position.after_cons]

theorem shape_of_isCode {q : Piece} {t : Token} (h : item? p q = some (.ok t))
    (ht : t.kind.isCode = true) : q.shape ≠ .blanks ∧ q.shape ≠ .lineBreak := by
  constructor
  · intro hq
    rw [item?, hq] at h
    cases h
  · intro hq
    rw [item?, hq] at h
    cases h
    cases ht

theorem stopsAt_of_isCode {q : Piece} {t : Token} (h : item? p q = some (.ok t))
    (ht : t.kind.isCode = true) {c : Char} (hc : isSeparator c = true) :
    q.shape.stopsAt c = true := by
  unfold item? token at h
  split at h
  case h_1 => cases h
  case h_2 => cases h
  case h_3 =>
    cases h
    cases ht
  case h_4 =>
    cases h
    cases ht
  case h_5 hq =>
    rw [hq]
    rfl
  case h_6 => cases h
  all_goals
    rename_i hq
    rw [hq]
    exact hc

theorem scan_spaced {s s' before rest blanks : List Char} {t : Token}
    (hmem : t ∈ tokensOf (scan s)) (hcode : t.kind.isCode = true) (hpos : t.pos = .behind before)
    (hs : withoutMark s = before ++ (t.lexeme.toList ++ rest)) (hblanks : Blanks blanks)
    (hs' : withoutMark s' = before ++ (t.lexeme.toList ++ (blanks ++ rest))) :
    scan s' = (scan s).map (moveItem
      (Position.shift (.behind (before ++ t.lexeme.toList)) blanks.length)) := by
  obtain ⟨qs, q, hcut, hbefore, hlexeme, hitem⟩ := exists_piece_at hmem hcode hpos hs
  have htext : (qs ++ [q]).flatMap Piece.text = before ++ t.lexeme.toList := by
    rw [List.flatMap_append, hbefore, ← hlexeme]
    simp
  rw [← List.append_assoc, ← htext] at hs hs'
  rw [List.append_cons] at hcut
  rw [hs] at hcut
  have hswap : Alike rest (blanks ++ rest) ∨
      ∀ r ∈ (qs ++ [q]).getLast?, ∀ c ∈ (blanks ++ rest).head?, r.shape.stopsAt c = true := by
    cases blanks with
    | nil => exact .inl ⟨rfl, fun _ d hd _ => hd⟩
    | cons c blanks =>
      rw [List.getLast?_concat]
      refine .inr ?_
      rintro r ⟨⟩ d ⟨⟩
      refine stopsAt_of_isCode hitem hcode ?_
      simp [isSeparator, isGap, hblanks c List.mem_cons_self]
  have hshape : q.shape ≠ .blanks ∧ q.shape ≠ .lineBreak := shape_of_isCode hitem hcode
  have hundisturbed : ∀ rs, Undisturbed (qs ++ [q]) rs := by
    intro rs
    refine .inl ?_
    rw [List.getLast?_concat]
    rintro r ⟨⟩
    exact hshape.1
  have hne : ∀ r ∈ qs ++ [q], r.text ≠ [] := by
    intro r hr
    refine (Piece.cut_genuine (withoutMark s) r ?_).ne_nil
    rw [hs, hcut]
    exact List.mem_append_left _ hr
  have hblank : '\n' ∉ blanks := fun hmem => absurd (hblanks _ hmem) (by decide)
  obtain ⟨us, vs, hscan, hus, hscan'⟩ := @items_insert .outermost .start (qs ++ [q])
    (Piece.cut rest) (Piece.cut (blanks ++ rest)) [] blanks.length false hne (hundisturbed _)
    (hundisturbed _) (by
      intro m
      rw [startsBehind_concat, beq_false_of_ne hshape.2, items_blanks_inLine hblanks,
        Position.after_noBreak hblank, items_move (Position.shift_after _ _), List.nil_append])
  rw [htext, Position.start_after] at hus hscan'
  rw [scan, scan, hs', hs, Piece.cut_swap hcut hswap, hscan', hcut, hscan, List.map_append, hus]
  rfl

/-! ## A comment at the end of a line -/

theorem stopsAt_numberSign {s : Shape} (hcomment : s ≠ .comment) (hclosed : s ≠ .unclosed) :
    s.stopsAt '#' = true := by
  cases s with
  | comment => exact absurd rfl hcomment
  | unclosed => exact absurd rfl hclosed
  | _ => rfl

def AtLineEnd (text : List Char) : Prop :=
  text = [] ∨ ∃ more, text = '\n' :: more ∨ text = '\r' :: '\n' :: more

theorem AtLineEnd.endsComment {text : List Char} (h : AtLineEnd text) :
    ∀ c ∈ text.head?, Piece.endsComment c = true := by
  rcases h with rfl | ⟨more, rfl | rfl⟩
  · exact fun c hc => absurd hc (Option.not_mem_none c)
  · rintro c ⟨⟩
    rfl
  · rintro c ⟨⟩
    rfl

theorem AtLineEnd.isBlankLine {text : List Char} (h : AtLineEnd text) :
    Margin.isBlankLine (Piece.cut text) = true := by
  refine LineOver.isBlankLine fun c hc => ?_
  have hends := h.endsComment c hc
  simp only [Piece.endsComment, Bool.or_eq_true, beq_iff_eq] at hends
  exact hends.imp_right .inl

theorem exists_unclosed {before rest : List Char} (hrest : AtLineEnd rest) {q : Piece}
    (hq : q ∈ (Piece.cut before).getLast?) (hshape : q.shape = .unclosed) :
    ∃ r ∈ Piece.cut (before ++ rest), r.shape = .unclosed := by
  have hmem := List.mem_of_getLast? hq
  rcases hrest with rfl | ⟨more, rfl | rfl⟩
  · rw [List.append_nil]
    exact ⟨q, hmem, hshape⟩
  · refine ⟨q, ?_, hshape⟩
    rw [Piece.cut_append]
    · exact List.mem_append_left _ hmem
    · rw [hq]
      rintro r ⟨⟩ c ⟨⟩
      rw [hshape]
      rfl
  · obtain ⟨qs, hqs⟩ := List.getLast?_eq_some_iff.mp hq
    have hbefore : before = qs.flatMap Piece.text ++ (q.text ++ []) := by
      rw [← Piece.cut_flatten before, hqs, List.flatMap_append]
      rfl
    rw [hbefore] at hqs
    obtain ⟨c, body, htext, htail, -⟩ := Piece.tail_of_cut (Piece.cut_behind hqs)
    rw [hshape] at htail
    have hlike : Alike (q.text ++ []) (q.text ++ '\r' :: '\n' :: more) := by
      refine .append (by simp [htext]) fun hpoint d hd hdigit => ?_
      cases hd
      cases hdigit
    refine ⟨⟨.unclosed, c :: (body ++ ['\r'])⟩, ?_, rfl⟩
    rw [hbefore, List.append_nil, List.append_assoc, Piece.cut_swap hqs (.inl hlike), htext,
      List.cons_append, Piece.cut_cons, Piece.tail_unclosed_return htail]
    exact List.mem_append_right _ List.mem_cons_self

theorem not_faultless_of_unclosed {r : Piece} (hr : r ∈ qs) (hshape : r.shape = .unclosed)
    (atStart : Bool) : ¬ Faultless (items m atStart p qs) := by
  obtain ⟨qs₁, qs₂, rfl⟩ := List.append_of_mem hr
  intro hfaultless
  have hitem : item? (p.after (qs₁.flatMap Piece.text)) r =
      some (.error ⟨.unterminatedText, p.after (qs₁.flatMap Piece.text)⟩) := by
    rw [item?, hshape]
  have hmem := @mem_found_of_item? p r _ qs₁ qs₂ hitem
  rw [← items_written m atStart] at hmem
  have hfault := mem_faultsOf.mpr (List.mem_filter.mp hmem).1
  rw [faultsOf, hfaultless] at hfault
  cases hfault

theorem cut_atLineEnd {before rest : List Char} (hrest : AtLineEnd rest)
    (hclosed : ∀ q ∈ (Piece.cut before).getLast?, q.shape ≠ .unclosed) :
    Piece.cut (before ++ rest) = Piece.cut before ++ Piece.cut rest ∨
      ∃ qs more, Piece.cut before = qs ++ [⟨.carriage, ['\r']⟩] ∧ rest = '\n' :: more ∧
        Piece.cut (before ++ rest) = qs ++ ⟨.lineBreak, ['\r', '\n']⟩ :: Piece.cut more := by
  rcases hrest with rfl | ⟨more, rfl | rfl⟩
  · refine .inl ?_
    rw [List.append_nil, Piece.cut, List.append_nil]
  · have hwhole : WholeLines (before ++ ['\n']) := by simp [WholeLines]
    rw [List.append_cons, Piece.cut_join hwhole, Piece.cut_lineFeed]
    rcases Piece.cut_line before with hcut | ⟨qs, hqs, hcut⟩
    · exact .inl (by rw [hcut, List.append_assoc, List.singleton_append])
    · exact .inr ⟨qs, more, hqs, rfl, by rw [hcut, List.append_assoc, List.singleton_append]⟩
  · refine .inl (Piece.cut_append ?_)
    rintro q hq c ⟨⟩
    exact Piece.stopsAt_return (hclosed q hq)

theorem exists_comment {before rest : List Char} (hrest : AtLineEnd rest) {q : Piece}
    (hq : q ∈ (Piece.cut before).getLast?) (hshape : q.shape = .comment) (m : Margin)
    (atStart : Bool) : ∃ t ∈ tokensOf (items m atStart .start (Piece.cut (before ++ rest))),
      t.kind = .comment ∧ t.pos.line = (Position.behind before).line := by
  obtain ⟨qs, hqs⟩ := List.getLast?_eq_some_iff.mp hq
  have hbefore : before = qs.flatMap Piece.text ++ q.text := by
    rw [← Piece.cut_flatten before, hqs, List.flatMap_append]
    simp
  have hcut : Piece.cut (before ++ rest) = qs ++ q :: Piece.cut rest := by
    rw [Piece.cut_append, hqs, List.append_assoc, List.singleton_append]
    rw [hq]
    rintro r ⟨⟩ c hc
    rw [hshape]
    exact hrest.endsComment c hc
  have hitem : item? (Position.start.after (qs.flatMap Piece.text)) q =
      some (token .comment (Position.start.after (qs.flatMap Piece.text)) q.text none) := by
    rw [item?, hshape]
  have hmem := @mem_found_of_item? .start q _ qs (Piece.cut rest) hitem
  rw [← hcut, ← items_written m atStart] at hmem
  refine ⟨_, mem_tokensOf.mpr (List.mem_filter.mp hmem).1, rfl, ?_⟩
  have hsteps := Piece.cut_steps before q (List.mem_of_getLast? hq)
    (Position.start.after (qs.flatMap Piece.text))
  rw [hshape, ← Position.after_append, ← hbefore, Position.start_after before] at hsteps
  exact hsteps.symm

theorem noBreak_comment {comment : List Char} (h : Lexeme.comment.Matches comment) :
    '\n' ∉ comment := by
  obtain ⟨body, rfl, hbody⟩ := h
  simpa using fun hmem => (hbody _ hmem).1 rfl

theorem items_appended {comment rest : List Char} (h : Lexeme.comment.Matches comment)
    (hrest : AtLineEnd rest) (m : Margin) (atStart : Bool) (p : Position) :
    items m atStart p (⟨.comment, comment⟩ :: Piece.cut rest) =
      [.ok ⟨.comment, .ofList comment, none, p⟩] ++
        (items m atStart p (Piece.cut rest)).map (moveItem (p.shift comment.length)) := by
  rw [@items_over m p _ atStart hrest.isBlankLine, items_comment,
    Position.after_noBreak (noBreak_comment h), items_move (p.shift_after _), List.singleton_append]

theorem items_appended_return {comment : List Char} (h : Lexeme.comment.Matches comment)
    (more : List Char) (m : Margin) (atStart : Bool) (p : Position) :
    items m atStart p
        (⟨.carriage, ['\r']⟩ :: ⟨.comment, comment⟩ :: Piece.cut ('\n' :: more)) =
      [.ok ⟨.comment, .ofList comment, none, p.after ['\r']⟩] ++
        (items m atStart p (⟨.lineBreak, ['\r', '\n']⟩ :: Piece.cut more)).map
          (moveItem (p.shift ('\r' :: comment).length)) := by
  have hnoBreak : '\n' ∉ '\r' :: comment := by simpa using noBreak_comment h
  have hreturn : items m atStart p (⟨.lineBreak, ['\r', '\n']⟩ :: Piece.cut more) =
      items m false p (Piece.cut ('\n' :: more)) := by
    rw [Piece.cut_lineFeed, items_lineBreak, items_lineBreak]
    rfl
  have hafter : (p.after ['\r']).after comment = p.shift ('\r' :: comment).length p := by
    rw [← Position.after_append]
    exact Position.after_noBreak hnoBreak p
  rw [hreturn, items_carriage, items_comment, hafter, items_move (p.shift_after _),
    List.singleton_append]

/-- A comment at the end of a line without one adds its token, and moves the end of the line. -/
theorem scan_commented {s s' before rest comment : List Char} (hfaultless : Faultless (scan s))
    (hnone : ∀ t ∈ tokensOf (scan s), t.kind = .comment →
      t.pos.line ≠ (Position.behind before).line)
    (hs : withoutMark s = before ++ rest) (hrest : AtLineEnd rest)
    (hcomment : Lexeme.comment.Matches comment)
    (hs' : withoutMark s' = before ++ (comment ++ rest)) :
    ∃ f : Position → Position, (∀ q, (f q).line = q.line) ∧ ∃ us vs,
      scan s = us ++ vs ∧ us.map (moveItem f) = us ∧
      scan s' = us ++ .ok ⟨.comment, .ofList comment, none, .behind before⟩ ::
        vs.map (moveItem f) := by
  unfold scan at hfaultless hnone
  rw [hs] at hfaultless hnone
  have hclosed : ∀ q ∈ (Piece.cut before).getLast?, q.shape ≠ .unclosed := by
    intro q hq hshape
    obtain ⟨r, hr, hopen⟩ := exists_unclosed hrest hq hshape
    exact not_faultless_of_unclosed hr hopen false hfaultless
  have hnoComment : ∀ q ∈ (Piece.cut before).getLast?, q.shape ≠ .comment := by
    intro q hq hshape
    obtain ⟨t, ht, hk, hline⟩ := exists_comment hrest hq hshape .outermost false
    exact hnone t ht hk hline
  have hcut' : Piece.cut (before ++ (comment ++ rest)) =
      Piece.cut before ++ ⟨.comment, comment⟩ :: Piece.cut rest := by
    rw [Piece.cut_append, cut_comment hcomment hrest.endsComment]
    obtain ⟨body, rfl, -⟩ := hcomment
    rintro q hq c ⟨⟩
    exact stopsAt_numberSign (hnoComment q hq) (hclosed q hq)
  have hne : ∀ q ∈ Piece.cut before, q.text ≠ [] := fun q hq => (Piece.cut_genuine _ q hq).ne_nil
  have hflat := Piece.cut_flatten before
  rw [scan, scan, hs, hs', hcut']
  rcases cut_atLineEnd hrest hclosed with hcut | ⟨qs, more, hqs, rfl, hcut⟩
  · obtain ⟨us, vs, hscan, hus, hscan'⟩ := items_insert (m := .outermost) (p := .start) hne
      (.inr hrest.isBlankLine) (.inr rfl) fun m => items_appended hcomment hrest m _ _
    rw [hflat, Position.start_after] at hus hscan'
    exact ⟨_, Position.line_shift _ _, us, vs, by rw [hcut, hscan], hus, hscan'⟩
  · -- the carriage return belongs to the line break only as long as there is no comment
    rw [hqs] at hne ⊢
    obtain ⟨us, vs, hscan, hus, hscan'⟩ := items_insert (m := .outermost) (p := .start)
      (fun q hq => hne q (List.mem_append_left _ hq)) (.inr rfl) (.inr rfl)
      fun m => items_appended_return hcomment more m _ _
    have hbehind : (Position.start.after (qs.flatMap Piece.text)).after ['\r'] =
        .behind before := by
      rw [← Position.after_append, ← Position.start_after, ← hflat, hqs, List.flatMap_append]
      rfl
    rw [hbehind] at hscan'
    refine ⟨_, Position.line_shift _ _, us, vs, by rw [hcut, hscan], hus, ?_⟩
    rw [List.append_assoc]
    exact hscan'

end Source

end Offside
