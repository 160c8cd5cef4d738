import Offside.Proofs.Source.Nesting

/-!
# Lines of the same width

Two lines with code that follow one another and are equally wide are in the same block if a block of
their width is open, or if they stand at the left edge. There need not be such a block: a line may
go out to a width that no open block has. It is accepted there, but it opens none, and so the next
line of that width is further in than the innermost block, and opens one.

* `Source.isOpen` says from the tokens and the text which widths have an open block.
* `Source.Over.mem_widths`: the margin keeps these widths. The induction is on the lines.
* `neighbours_layout`: what layout stands between two such lines.
-/

namespace Offside

/-! ## The widths that the margin keeps -/

namespace Margin

variable {ws : List Nat} {w x : Nat}

theorem settle_decreasing (h : ws.Pairwise (· > ·)) : (settle ws w).Pairwise (· > ·) := by
  unfold settle
  split_ifs with hw
  · refine List.pairwise_cons.mpr ⟨fun x hx => ?_, h⟩
    exact Nat.lt_of_le_of_lt (Settled.le_headD h hx) hw
  · exact h.sublist (List.dropWhile_sublist _)

theorem mem_settle (h : ws.Pairwise (· > ·)) :
    x ∈ settle ws w ↔ x ∈ ws ∧ x ≤ w ∨ ws.headD 0 < w ∧ w = x := by
  unfold settle
  split_ifs with hw
  · rw [List.mem_cons, and_iff_right hw, or_comm, eq_comm]
    refine or_congr_left (and_iff_left_of_imp fun hx => ?_).symm
    exact Nat.le_of_lt (Nat.lt_of_le_of_lt (Settled.le_headD h hx) hw)
  · rw [Settled.mem_dropWhile h, or_iff_left fun hx => hw hx.1]

end Margin

namespace Source

/-- Whether a block begins at the start of the line `k`. -/
def hasIndent (ts : List Token) (k : Nat) : Bool :=
  ts.any fun t => t.kind == .indent && t.pos.line == k

/-- Whether a block of width `w` is open behind some lines with code: it begins at one of them, of
that width, and none of those behind it is further out. -/
def isOpen (ts : List Token) (w : Nat) : List (List Char × Nat) → Bool
  | [] => false
  | l :: ls => leadingWidth l == w && hasIndent ts l.2 && ls.all (w ≤ leadingWidth ·) ||
      isOpen ts w ls

/-! ## Where blocks begin -/

theorem hasIndent_append (us vs : List Token) (k : Nat) :
    hasIndent (us ++ vs) k = (hasIndent us k || hasIndent vs k) :=
  List.any_append

theorem hasIndent_of_forall {us : List Token} {k : Nat}
    (h : ∀ u ∈ us, u.kind = .indent → u.pos.line ≠ k) : hasIndent us k = false := by
  rw [hasIndent, List.any_eq_false]
  intro u hu
  simpa using h u hu

theorem lineStart_line {m : Margin} {k : Nat} {qs : List Piece} :
    ∀ t ∈ (lineStart m k qs).2, t.pos.line = k := by
  unfold lineStart
  split_ifs
  · exact fun t ht => absurd ht List.not_mem_nil
  · exact fun t ht => (startLine_pos ht).1

theorem hasIndent_lineStart {b : Char} {m : Margin} {l : List Char × Nat} (hm : Counted b m.unit)
    (hb : IndentedWith b l) (hcode : isBare (Piece.cut l.1) = false) :
    hasIndent (lineStart m l.2 (Piece.cut l.1)).2 l.2 =
      decide (m.widths.headD 0 < leadingWidth l) := by
  unfold lineStart leadingWidth
  by_cases hk : l.2 = 1
  · simp [if_pos hk, hasIndent]
  · rw [if_neg hk, if_neg hk]
    obtain ⟨hin, hout⟩ := @layout_startLine b m (Position.start.onLine l.2) l.1 hm (hb hk) hcode
    by_cases hlt : m.widths.headD 0 < (l.1.takeWhile Piece.isBlank).length
    · obtain ⟨t, ht, hkind⟩ := hin hlt
      have hpos : t.pos.line = l.2 :=
        (@startLine_pos m (Position.start.onLine l.2) (Piece.cut l.1) t (by simp [ht])).1
      rw [ht, decide_eq_true hlt]
      simp [hasIndent, hkind, hpos]
    · rw [hout (Nat.le_of_not_lt hlt), decide_eq_false hlt]
      refine hasIndent_of_forall fun u hu hkind => ?_
      obtain ⟨_, -, rfl⟩ := List.mem_map.mp hu
      cases hkind

section ended

variable {b : Char} {m m' : Margin} {ls : List (List Char × Nat)} {is : List Item}

theorem hasIndent_line {l : List Char × Nat} (hbreak : '\n' ∉ l.1) {t : Token}
    (ht : t.kind = .newline) (k : Nat) (rest : List Token) :
    hasIndent ((lineStart m l.2 (Piece.cut l.1)).2 ++
      (tokensOf (found (Position.start.onLine l.2) (Piece.cut l.1)) ++ t :: rest)) k =
        (hasIndent (lineStart m l.2 (Piece.cut l.1)).2 k || hasIndent rest k) := by
  have hfound := hasIndent_of_forall (k := k) fun u hu hk =>
    absurd hk (@noLayout_found l.1 l.2 hbreak t ht u hu).1
  rw [hasIndent_append, ← List.singleton_append, ← List.append_assoc, hasIndent_append _ rest,
    hfound, Bool.false_or]

theorem Over.hasIndent (h : Over m ls is m') (hbreak : ∀ l ∈ ls, '\n' ∉ l.1) {k : Nat}
    (hk : ∀ l ∈ ls, l.2 ≠ k) : hasIndent (tokensOf is) k = false := by
  induction h with
  | nil => rfl
  | @cons m m' l ls is t hfirst ht h ih =>
    rw [List.forall_mem_cons] at hbreak hk
    rw [tokensOf_line, hasIndent_line hbreak.1 ht, ih hbreak.2 hk.2, Bool.or_false]
    exact hasIndent_of_forall fun u hu _ hline => hk.1 ((lineStart_line u hu).symm.trans hline)

/-- A width is kept behind some lines if it was before them and none is further out, or if a block
of this width begins in them and is still open. -/
theorem Over.mem_widths (h : Over m ls is m') (hm : Counted b m.unit)
    (hb : ∀ l ∈ ls, IndentedWith b l) (hbreak : ∀ l ∈ ls, '\n' ∉ l.1)
    (hline : ls.Pairwise (·.2 < ·.2)) (hdecreasing : m.widths.Pairwise (· > ·)) {ts : List Token}
    (hts : ∀ l ∈ ls, Source.hasIndent ts l.2 = Source.hasIndent (tokensOf is) l.2) {x : Nat} :
    x ∈ m'.widths ↔
      (x ∈ m.widths ∧ ∀ l ∈ ls.filter fun l => !isBare (Piece.cut l.1), x ≤ leadingWidth l) ∨
        isOpen ts x (ls.filter fun l => !isBare (Piece.cut l.1)) = true := by
  induction h with
  | nil => simp [isOpen]
  | @cons m m' l ls is t hfirst ht h ih =>
    rw [List.forall_mem_cons] at hb hbreak hts
    rw [List.pairwise_cons] at hline
    have hwidths := widths_lineStart hm hfirst hb.1
    have hnext : ∀ l' ∈ ls, l'.2 ≠ l.2 := fun l' hl' => Nat.ne_of_gt (hline.1 l' hl')
    have hlater : ∀ l' ∈ ls, Source.hasIndent ts l'.2 = Source.hasIndent (tokensOf is) l'.2 := by
      intro l' hl'
      have hstart : Source.hasIndent (lineStart m l.2 (Piece.cut l.1)).2 l'.2 = false :=
        hasIndent_of_forall fun u hu _ hpos =>
          hnext l' hl' (hpos.symm.trans (lineStart_line u hu))
      rw [hts.2 l' hl', tokensOf_line, hasIndent_line hbreak.1 ht, hstart, Bool.false_or]
    have hrest := @ih (lineStart_counted hm hb.1) hb.2 hbreak.2 hline.2
    cases hbare : isBare (Piece.cut l.1) with
    | true =>
      rw [if_pos hbare] at hwidths
      rw [List.filter_cons_of_neg (by simp [hbare]), hrest (by rwa [hwidths]) hlater, hwidths]
    | false =>
      rw [if_neg (by simp [hbare])] at hwidths
      have hopens : Source.hasIndent ts l.2 = decide (m.widths.headD 0 < leadingWidth l) := by
        rw [hts.1, tokensOf_line, hasIndent_line hbreak.1 ht, h.hasIndent hbreak.2 hnext,
          Bool.or_false, hasIndent_lineStart hm hb.1 hbare]
      rw [List.filter_cons_of_pos (by simp [hbare]),
        hrest (by rw [hwidths]; exact Margin.settle_decreasing hdecreasing) hlater, hwidths,
        Margin.mem_settle hdecreasing, isOpen, hopens, List.forall_mem_cons]
      simp only [Bool.or_eq_true, Bool.and_eq_true, beq_iff_eq, decide_eq_true_eq,
        List.all_eq_true]
      rw [or_and_right, or_assoc, and_assoc, @and_comm (m.widths.headD 0 < _)]

theorem Over.decreasing (h : Over m ls is m') (hm : Counted b m.unit)
    (hb : ∀ l ∈ ls, IndentedWith b l) (hdecreasing : m.widths.Pairwise (· > ·)) :
    m'.widths.Pairwise (· > ·) := by
  induction h with
  | nil => exact hdecreasing
  | cons hfirst ht h ih =>
    rw [List.forall_mem_cons] at hb
    refine ih (lineStart_counted hm hb.1) hb.2 ?_
    rw [widths_lineStart hm hfirst hb.1]
    split_ifs
    · exact hdecreasing
    · exact Margin.settle_decreasing hdecreasing

theorem Over.noLayout (h : Over m ls is m') (hbreak : ∀ l ∈ ls, '\n' ∉ l.1)
    (hbare : ∀ l ∈ ls, isBare (Piece.cut l.1) = true) :
    ∀ u ∈ tokensOf is, u.kind ≠ .indent ∧ u.kind ≠ .dedent := by
  induction h with
  | nil => exact fun u hu => absurd hu List.not_mem_nil
  | @cons m m' l ls is t hfirst ht h ih =>
    rw [List.forall_mem_cons] at hbreak hbare
    rw [tokensOf_line, lineStart_bare hbare.1, List.nil_append, ← List.singleton_append,
      ← List.append_assoc, List.forall_mem_append]
    exact ⟨noLayout_found hbreak.1 ht, ih hbreak.2 hbare.2⟩

end ended

theorem isOpen_le {ts : List Token} {w : Nat} {ls : List (List Char × Nat)} {l : List Char × Nat}
    (h : isOpen ts w (ls ++ [l]) = true) : w ≤ leadingWidth l := by
  induction ls with
  | nil =>
    simp only [List.nil_append, isOpen, Bool.or_false, Bool.and_eq_true, beq_iff_eq] at h
    exact h.1.1.ge
  | cons l' ls ih =>
    rw [List.cons_append, isOpen, Bool.or_eq_true, Bool.and_eq_true, List.all_eq_true] at h
    rcases h with h | h
    · simpa using h.2 l (by simp)
    · exact ih h

theorem layout_lineStart {b : Char} {m : Margin} {l : List Char × Nat} (hm : Counted b m.unit)
    (hb : IndentedWith b l) (hcode : isBare (Piece.cut l.1) = false)
    (hdecreasing : m.widths.Pairwise (· > ·)) (hle : ∀ x ∈ m.widths, x ≤ leadingWidth l) :
    countKind .dedent (lineStart m l.2 (Piece.cut l.1)).2 = 0 ∧
      countKind .indent (lineStart m l.2 (Piece.cut l.1)).2 =
        if leadingWidth l = 0 ∨ leadingWidth l ∈ m.widths then 0 else 1 := by
  unfold lineStart leadingWidth at *
  by_cases hk : l.2 = 1
  · simp [if_pos hk]
  · rw [if_neg hk] at hle ⊢
    rw [if_neg hk]
    obtain ⟨hin, hout⟩ := @layout_startLine b m (Position.start.onLine l.2) l.1 hm (hb hk) hcode
    generalize (l.1.takeWhile Piece.isBlank).length = w at *
    by_cases hlt : m.widths.headD 0 < w
    · obtain ⟨t, ht, hkind⟩ := hin hlt
      have hnone : ¬ (w = 0 ∨ w ∈ m.widths) := by
        rintro (rfl | hmem)
        · exact Nat.not_lt_zero _ hlt
        · exact Nat.not_lt_of_le (Settled.le_headD hdecreasing hmem) hlt
      rw [ht, if_neg hnone]
      simp [countKind_cons, hkind]
    · have hopen : w = 0 ∨ w ∈ m.widths := by
        cases hwidths : m.widths with
        | nil =>
          rw [hwidths] at hlt
          exact .inl (Nat.eq_zero_of_not_pos hlt)
        | cons y ys =>
          rw [hwidths] at hlt hle
          have hy : w = y := Nat.le_antisymm (Nat.le_of_not_lt hlt) (hle y List.mem_cons_self)
          exact .inr (hy ▸ List.mem_cons_self)
      have hnone : m.widths.takeWhile (w < ·) = [] := by
        rw [List.eq_nil_iff_forall_not_mem]
        intro x hx
        have hwx : w < x := by simpa using List.mem_takeWhile_imp hx
        exact Nat.not_lt_of_le (hle x (List.takeWhile_sublist _ |>.subset hx)) hwx
      rw [hout (Nat.le_of_not_lt hlt), hnone, if_pos hopen]
      exact ⟨rfl, rfl⟩

/-- What stands between two lines with code if the lines between them have none: no layout but that
of the second line. -/
theorem exists_between {source : String} {ts : List Token} (hts : tokenize source = .ok ts)
    {past mid later : List (List Char × Nat)} {l l' : List Char × Nat}
    (hsplit : (lines source).zipIdx 1 = (past ++ l :: mid) ++ l' :: later)
    (hcode : isBare (Piece.cut l.1) = false) (hcode' : isBare (Piece.cut l'.1) = false)
    (hmid : ∀ l ∈ mid, isBare (Piece.cut l.1) = true) :
    ∃ is m us, Over .outermost (past ++ l :: mid) is m ∧
      (∀ l₀ ∈ past ++ l :: mid, hasIndent ts l₀.2 = hasIndent (tokensOf is) l₀.2) ∧
      (∀ u ∈ us, u.kind ≠ .indent ∧ u.kind ≠ .dedent) ∧
      beforeLine l'.2 ts =
        beforeLine l.2 ts ++ (us ++ (lineStart m l'.2 (Piece.cut l'.1)).2) := by
  have hbreak := noBreak_zipIdx source
  have hsplit₀ : (lines source).zipIdx 1 = past ++ l :: (mid ++ l' :: later) := by
    rw [hsplit, List.append_assoc, List.cons_append]
  rw [hsplit, List.forall_mem_append, List.forall_mem_append, List.forall_mem_cons,
    List.forall_mem_cons] at hbreak
  obtain ⟨is, m, rest, hover, -, htokens, hrest⟩ := tokens_over hts hsplit
  have hindent : ∀ l₀ ∈ past ++ l :: mid,
      hasIndent ts l₀.2 = hasIndent (tokensOf is) l₀.2 := by
    intro l₀ hl₀
    -- the tokens from the second line on are further down
    have hlater : hasIndent ((lineStart m l'.2 (Piece.cut l'.1)).2 ++
        (tokensOf (found (Position.start.onLine l'.2) (Piece.cut l'.1)) ++ rest)) l₀.2 = false := by
      refine hasIndent_of_forall fun u hu _ =>
        Nat.ne_of_gt (Nat.lt_of_lt_of_le (lt_of_zipIdx hsplit hl₀) ?_)
      rcases List.mem_append.mp hu with hu | hu
      · exact (lineStart_line u hu).ge
      · rcases List.mem_append.mp hu with hu | hu
        · exact (of_mem_found_onLine hbreak.2.1 hu).2.ge
        · exact hrest u hu
    rw [htokens, hasIndent_append, hlater, Bool.or_false]
  have hbefore' := beforeLine_code hts hsplit hcode' hover htokens
  obtain ⟨is₁, m₁, is₂, h₁, h₂, rfl⟩ := hover.split
  cases h₂ with
  | @cons _ _ _ _ is₃ t _ ht h₃ =>
    have hbefore := beforeLine_code hts hsplit₀ hcode h₁ (htokens.trans (by
      rw [tokensOf_append, tokensOf_line, List.append_assoc, List.append_assoc, List.append_assoc]))
    refine ⟨_, m, (tokensOf (found (Position.start.onLine l.2) (Piece.cut l.1)) ++ [t]) ++
      tokensOf is₃, hover, hindent, ?_, ?_⟩
    · exact List.forall_mem_append.mpr
        ⟨noLayout_found hbreak.1.2.1 ht, h₃.noLayout hbreak.1.2.2 hmid⟩
    · rw [hbefore', hbefore, tokensOf_append, tokensOf_line]
      simp

end Source

open Source

/-- **Lines of the same width.** Let a text without faults be indented with one kind of blank, and
let two of its lines with code be equally wide, with no line with code between them. Then no block
ends between the two. None begins either if they stand at the left edge or a block of their width is
open at the first one; otherwise the second one opens a block. -/
theorem neighbours_layout {source : String} {ts : List Token} {b : Char}
    (hts : tokenize source = .ok ts)
    (hb : ∀ l ∈ (lines source).tail, ∀ c ∈ l.takeWhile Piece.isBlank, c = b)
    {before after : List (List Char × Nat)} {l l' : List Char × Nat}
    (hl : ((lines source).zipIdx 1).filter (beginsCode ·.1) = before ++ l :: l' :: after)
    (hwidth : leadingWidth l' = leadingWidth l) :
    ∃ between, beforeLine l'.2 ts = beforeLine l.2 ts ++ between ∧
      countKind .dedent between = 0 ∧
      countKind .indent between =
        if leadingWidth l = 0 ∨ isOpen ts (leadingWidth l) (before ++ [l]) = true then 0
        else 1 := by
  have hcode : ((lines source).zipIdx 1).filter (fun l => !isBare (Piece.cut l.1)) =
      before ++ l :: l' :: after := by
    simp only [isBare_cut]
    exact hl
  obtain ⟨past, rest, hsplit, hpast, hbare, hrest⟩ := filter_eq_append_cons hcode
  obtain ⟨mid, later, rfl, hmid, hbare', -⟩ := List.filter_eq_cons_iff.mp hrest
  rw [← List.cons_append, ← List.append_assoc] at hsplit
  rw [Bool.not_eq_true'] at hbare hbare'
  have hindented := indentedWith_of_tail hb
  have hbreak := noBreak_zipIdx source
  have hpairwise := zipIdx_pairwise (lines source) 1
  rw [hsplit, List.forall_mem_append, List.forall_mem_cons] at hindented hbreak
  rw [hsplit, List.pairwise_append] at hpairwise
  obtain ⟨is, m, us, hover, hindent, hus, hbetween⟩ := exists_between hts hsplit hbare hbare'
    (by simpa using hmid)
  have hlines : (past ++ l :: mid).filter (fun l => !isBare (Piece.cut l.1)) = before ++ [l] := by
    rw [List.filter_append, hpast, List.filter_cons_of_pos (by simp [hbare]),
      List.filter_eq_nil_iff.mpr hmid]
  have hmem : ∀ x, x ∈ m.widths ↔ isOpen ts x (before ++ [l]) = true := by
    intro x
    rw [hover.mem_widths (counted_outermost b) hindented.1 hbreak.1 hpairwise.1 .nil hindent,
      hlines]
    simp [Margin.outermost]
  obtain ⟨hdedent, hlayout⟩ := layout_lineStart
    (hover.counted (counted_outermost b) hindented.1) hindented.2.1 hbare'
    (hover.decreasing (counted_outermost b) hindented.1 .nil)
    (fun x hx => hwidth ▸ isOpen_le ((hmem x).mp hx))
  simp only [hwidth, hmem] at hlayout
  refine ⟨_, hbetween, ?_, ?_⟩
  · rw [countKind_append, hdedent, countKind_eq_zero fun u hu => (hus u hu).2]
  · rw [countKind_append, hlayout, countKind_eq_zero fun u hu => (hus u hu).1, Nat.zero_add]

/-- A line further out than the block before it and further in than the left edge, and two more of
its width, with an empty line and a comment before them. -/
def overhang : String := "IF a\n    A\n  B\n\n# c\n  C\n  D\n"

/-- The first line of this width opens no block, the second does, and the third is in it. -/
theorem neighbours_layout_overhang :
    (((lines overhang).zipIdx 1).filter (beginsCode ·.1)).map (fun l => (l.2, leadingWidth l)) =
      [(1, 0), (2, 4), (3, 2), (6, 2), (7, 2)] ∧
    (∃ between, beforeLine 6 (tokens overhang) = beforeLine 3 (tokens overhang) ++ between ∧
      countKind .dedent between = 0 ∧ countKind .indent between = 1) ∧
    ∃ between, beforeLine 7 (tokens overhang) = beforeLine 6 (tokens overhang) ++ between ∧
      countKind .dedent between = 0 ∧ countKind .indent between = 0 := by
  have hlines : ((lines overhang).zipIdx 1).filter (beginsCode ·.1) =
      [("IF a".toList, 1), ("    A".toList, 2), ("  B".toList, 3), ("  C".toList, 6),
        ("  D".toList, 7)] := by
    with_unfolding_all rfl
  have hblanks : ∀ l ∈ (lines overhang).tail, ∀ c ∈ l.takeWhile Piece.isBlank, c = ' ' := by
    have hall : ((lines overhang).tail.all fun l =>
        (l.takeWhile Piece.isBlank).all (· == ' ')) = true := by
      with_unfolding_all rfl
    simpa only [List.all_eq_true, beq_iff_eq] using hall
  have hopen : isOpen (tokens overhang) 2
      [("IF a".toList, 1), ("    A".toList, 2), ("  B".toList, 3)] = false ∧
      isOpen (tokens overhang) 2 [("IF a".toList, 1), ("    A".toList, 2), ("  B".toList, 3),
        ("  C".toList, 6)] = true := by
    constructor
    · with_unfolding_all rfl
    · with_unfolding_all rfl
  obtain ⟨ts, hts⟩ := @exists_tokens overhang (by with_unfolding_all rfl)
  have htokens : tokens overhang = ts := by rw [tokens, hts]
  rw [htokens] at hopen ⊢
  have hfirst := @neighbours_layout overhang ts ' ' hts hblanks
    [("IF a".toList, 1), ("    A".toList, 2)] [("  D".toList, 7)] ("  B".toList, 3)
    ("  C".toList, 6) hlines (by decide)
  have hsecond := @neighbours_layout overhang ts ' ' hts hblanks
    [("IF a".toList, 1), ("    A".toList, 2), ("  B".toList, 3)] [] ("  C".toList, 6)
    ("  D".toList, 7) hlines (by decide)
  have hwidth : leadingWidth ("  B".toList, 3) = 2 ∧ leadingWidth ("  C".toList, 6) = 2 := by
    decide
  rw [hwidth.1, if_neg (by simpa using hopen.1)] at hfirst
  rw [hwidth.2, if_pos (.inr hopen.2)] at hsecond
  exact ⟨by rw [hlines]; decide, hfirst, hsecond⟩

/-- Two lines of the same width one behind the other, and a block begins between them. -/
theorem unknown_width_reopened :
    ((lines "A\n    B\n  C\n  D\n").zipIdx 1).filter (beginsCode ·.1) =
      [("A".toList, 1), ("    B".toList, 2), ("  C".toList, 3), ("  D".toList, 4)] ∧
    leadingWidth ("  C".toList, 3) = leadingWidth ("  D".toList, 4) ∧
    ∃ ts between, tokenize "A\n    B\n  C\n  D\n" = .ok ts ∧
      beforeLine 4 ts = beforeLine 3 ts ++ between ∧ countKind .indent between = 1 := by
  have hlines : ((lines "A\n    B\n  C\n  D\n").zipIdx 1).filter (beginsCode ·.1) =
      [("A".toList, 1), ("    B".toList, 2), ("  C".toList, 3), ("  D".toList, 4)] := by
    with_unfolding_all rfl
  refine ⟨hlines, by decide, tokens "A\n    B\n  C\n  D\n", ?_⟩
  refine ⟨(beforeLine 4 (tokens "A\n    B\n  C\n  D\n")).drop 6, ?_, ?_, ?_⟩
  · obtain ⟨ts, hts⟩ := @exists_tokens "A\n    B\n  C\n  D\n" (by with_unfolding_all rfl)
    rw [tokens, hts]
  · with_unfolding_all rfl
  · with_unfolding_all rfl

end Offside
