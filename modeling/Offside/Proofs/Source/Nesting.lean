import Mathlib.Data.Finset.Card
import Offside.Proofs.Source.LineByLine

/-!
# How deep the lines of a text are nested

The margin is a stack of widths. A line further in than the last one puts its width on top, one
further out takes the wider ones off. What is left can be said without the stack: a block is open at
a line if its width is the least of all widths from some line on (`suffixMinima`). This holds as
long as no line goes out to a width that is not open (`ReturnsToOpen`).

* `Settled`: what the stack holds, kept by every line.
* `Source.Over.netDepth`: the tokens of some lines open as many blocks as the stack gets more. The
  induction is on the lines.
* `depth_of_widths` puts the two together.
-/

namespace Offside

/-! ## The widths that are open -/

/-- The least width from each line on, up to the last one. -/
def suffixMinima (ws : List Nat) : List Nat := ws.tails.filterMap List.min?

/-- How many blocks the widths of lines say are open at the last one: the least widths from each
line on that are not zero, each counted once. -/
def depthOf (ws : List Nat) : Nat := ((suffixMinima ws).toFinset.erase 0).card

/-- A line that is further out than the one before goes back to the left edge, or to a width that is
still open. -/
def ReturnsToOpen (ws : List Nat) : Prop :=
  ∀ i < ws.length, ∀ v ∈ ws[i]?, ∀ w ∈ ws[i + 1]?, w < v →
    w = 0 ∨ w ∈ suffixMinima (ws.take (i + 1))

instance (ws : List Nat) : Decidable (ReturnsToOpen ws) :=
  inferInstanceAs (Decidable (∀ i < ws.length, ∀ v ∈ ws[i]?, ∀ w ∈ ws[i + 1]?, w < v →
    w = 0 ∨ w ∈ suffixMinima (ws.take (i + 1))))

theorem mem_suffixMinima_concat {us : List Nat} {w x : Nat} :
    x ∈ suffixMinima (us ++ [w]) ↔ x = w ∨ ∃ y ∈ suffixMinima us, x = min y w := by
  unfold suffixMinima
  induction us with
  | nil => simp [List.tails, List.min?]
  | cons u us ih =>
    have hfirst : (u :: us ++ [w]).min? = some (min (us.foldl min u) w) := by
      rw [List.cons_append, List.min?_cons', List.foldl_append]
      rfl
    rw [List.cons_append, List.tails_cons, List.tails_cons, ← List.cons_append,
      List.filterMap_cons_some hfirst, List.filterMap_cons_some List.min?_cons',
      List.mem_cons, ih]
    constructor
    · rintro (rfl | rfl | ⟨y, hy, rfl⟩)
      · exact .inr ⟨_, List.mem_cons_self, rfl⟩
      · exact .inl rfl
      · exact .inr ⟨y, List.mem_cons_of_mem _ hy, rfl⟩
    · rintro (rfl | ⟨y, hy, rfl⟩)
      · exact .inr (.inl rfl)
      · rcases List.mem_cons.mp hy with rfl | hy
        · exact .inl rfl
        · exact .inr (.inr ⟨y, hy, rfl⟩)

theorem ReturnsToOpen.of_append {us vs : List Nat} (h : ReturnsToOpen (us ++ vs)) :
    ReturnsToOpen us := by
  intro i hi v hv w hw hlt
  have hi' : i + 1 < us.length := (List.getElem?_eq_some_iff.mp hw).1
  have hstep := h i (by simp; omega) v (by rwa [List.getElem?_append_left hi]) w
    (by rwa [List.getElem?_append_left hi']) hlt
  rwa [List.take_append_of_le_length hi'.le] at hstep

theorem ReturnsToOpen.last {us : List Nat} {w : Nat} (h : ReturnsToOpen (us ++ [w]))
    (hlt : w < us.getLastD 0) : w = 0 ∨ w ∈ suffixMinima us := by
  rcases List.eq_nil_or_concat us with rfl | ⟨vs, v, rfl⟩
  · cases hlt
  · have hstep := h vs.length (by simp) v (by simp) w (by simp) (by simpa using hlt)
    rwa [List.take_left' (by simp)] at hstep

/-- The open blocks are the ones that the widths of the lines so far tell of, and the innermost is
as wide as the last line. -/
structure Settled (ws stack : List Nat) : Prop where
  decreasing : stack.Pairwise (· > ·)
  mem : ∀ x, x ∈ stack ↔ x ∈ suffixMinima ws ∧ x ≠ 0
  top : stack.headD 0 = ws.getLastD 0

namespace Settled

variable {ws stack : List Nat} {w : Nat}

theorem le_headD {x : Nat} (h : stack.Pairwise (· > ·)) (hx : x ∈ stack) : x ≤ stack.headD 0 := by
  cases stack with
  | nil => cases hx
  | cons y stack =>
    rcases List.mem_cons.mp hx with rfl | hx
    · exact le_rfl
    · exact Nat.le_of_lt (List.rel_of_pairwise_cons h hx)

theorem mem_dropWhile {x : Nat} (h : stack.Pairwise (· > ·)) :
    x ∈ stack.dropWhile (w < ·) ↔ x ∈ stack ∧ x ≤ w := by
  induction stack with
  | nil => simp
  | cons y stack ih =>
    have hbelow : ∀ z ∈ stack, z < y := fun z hz => List.rel_of_pairwise_cons h hz
    by_cases hy : w < y
    · rw [List.dropWhile_cons_of_pos (by simpa using hy), ih h.of_cons, List.mem_cons]
      refine and_congr_left fun hx => ⟨.inr, fun hmem => hmem.resolve_left ?_⟩
      omega
    · rw [List.dropWhile_cons_of_neg (by simpa using hy)]
      refine ⟨fun hx => ⟨hx, ?_⟩, And.left⟩
      rcases List.mem_cons.mp hx with rfl | hx
      · omega
      · have := hbelow x hx
        omega

theorem le_top (h : Settled ws stack) {x : Nat} (hx : x ∈ suffixMinima ws) :
    x ≤ stack.headD 0 := by
  by_cases hzero : x = 0
  · omega
  · exact le_headD h.decreasing ((h.mem x).mpr ⟨hx, hzero⟩)

theorem push (h : Settled ws stack) (hw : stack.headD 0 < w) :
    Settled (ws ++ [w]) (w :: stack) where
  decreasing := by
    refine List.pairwise_cons.mpr ⟨fun x hx => ?_, h.decreasing⟩
    have := le_headD h.decreasing hx
    omega
  mem x := by
    rw [List.mem_cons, mem_suffixMinima_concat, h.mem]
    constructor
    · rintro (rfl | ⟨hx, hzero⟩)
      · exact ⟨.inl rfl, by omega⟩
      · have := h.le_top hx
        exact ⟨.inr ⟨x, hx, by omega⟩, hzero⟩
    · rintro ⟨rfl | ⟨y, hy, rfl⟩, hzero⟩
      · exact .inl rfl
      · have hmin : min y w = y := by
          have := h.le_top hy
          omega
        rw [hmin] at hzero ⊢
        exact .inr ⟨hy, hzero⟩
  top := by simp

theorem pop (h : Settled ws stack) (hw : w ≤ stack.headD 0)
    (hopen : w < ws.getLastD 0 → w = 0 ∨ w ∈ suffixMinima ws) :
    Settled (ws ++ [w]) (stack.dropWhile (w < ·)) := by
  have hmem : w ≠ 0 → w ∈ stack := by
    intro hzero
    rcases Nat.lt_or_eq_of_le hw with hlt | heq
    · rw [h.top] at hlt
      exact (h.mem w).mpr ⟨(hopen hlt).resolve_left hzero, hzero⟩
    · cases stack with
      | nil => exact absurd heq hzero
      | cons y stack => exact List.mem_cons.mpr (.inl heq)
  have hdecreasing : (stack.dropWhile (w < ·)).Pairwise (· > ·) :=
    h.decreasing.sublist (List.dropWhile_sublist _)
  refine ⟨hdecreasing, fun x => ?_, ?_⟩
  · rw [mem_dropWhile h.decreasing, mem_suffixMinima_concat]
    constructor
    · rintro ⟨hx, hle⟩
      obtain ⟨hx, hzero⟩ := (h.mem x).mp hx
      exact ⟨.inr ⟨x, hx, by omega⟩, hzero⟩
    · rintro ⟨rfl | ⟨y, hy, rfl⟩, hzero⟩
      · exact ⟨hmem hzero, le_rfl⟩
      · refine ⟨?_, min_le_right y w⟩
        rcases Nat.le_total y w with hle | hle
        · rw [Nat.min_eq_left hle] at hzero ⊢
          exact (h.mem y).mpr ⟨hy, hzero⟩
        · rw [Nat.min_eq_right hle] at hzero ⊢
          exact hmem hzero
  · rw [List.getLastD_concat]
    have hle : ∀ x ∈ stack.dropWhile (w < ·), x ≤ w :=
      fun x hx => ((mem_dropWhile h.decreasing).mp hx).2
    have hself : w ≠ 0 → w ∈ stack.dropWhile (w < ·) :=
      fun hzero => (mem_dropWhile h.decreasing).mpr ⟨hmem hzero, le_rfl⟩
    refine Nat.le_antisymm ?_ ?_
    · generalize stack.dropWhile (w < ·) = rest at hle
      cases rest with
      | nil => exact Nat.zero_le w
      | cons y rest => exact hle y List.mem_cons_self
    · by_cases hzero : w = 0
      · omega
      · exact le_headD hdecreasing (hself hzero)

theorem settle (h : Settled ws stack)
    (hopen : w < ws.getLastD 0 → w = 0 ∨ w ∈ suffixMinima ws) :
    Settled (ws ++ [w]) (Margin.settle stack w) := by
  unfold Margin.settle
  split_ifs with hw
  · exact h.push hw
  · exact h.pop (Nat.le_of_not_lt hw) hopen

theorem of_returnsToOpen (h : ReturnsToOpen ws) : Settled ws (ws.foldl Margin.settle []) := by
  induction ws using List.reverseRecOn with
  | nil => exact ⟨.nil, by simp [suffixMinima], rfl⟩
  | append_singleton us w ih =>
    rw [List.foldl_concat]
    exact (ih h.of_append).settle h.last

theorem length_eq (h : Settled ws stack) : stack.length = depthOf ws := by
  have hnodup : stack.Nodup := h.decreasing.imp fun hlt => Nat.ne_of_gt hlt
  have hset : (suffixMinima ws).toFinset.erase 0 = stack.toFinset := by
    ext x
    rw [Finset.mem_erase, List.mem_toFinset, List.mem_toFinset, h.mem, and_comm]
  rw [depthOf, hset, List.toFinset_card_of_nodup hnodup]

end Settled

/-! ## The lines of a text -/

namespace Source

/-- How many more blocks the tokens open than they close. -/
def netDepth (ts : List Token) : Int := countKind .indent ts - countKind .dedent ts

theorem netDepth_append (us vs : List Token) : netDepth (us ++ vs) = netDepth us + netDepth vs := by
  rw [netDepth, countKind_append, countKind_append, netDepth, netDepth]
  omega

theorem netDepth_of_forall {us : List Token} (h : ∀ u ∈ us, u.kind ≠ .indent ∧ u.kind ≠ .dedent) :
    netDepth us = 0 := by
  rw [netDepth, countKind_eq_zero fun u hu => (h u hu).1, countKind_eq_zero fun u hu => (h u hu).2]
  rfl

def hasCode (ts : List Token) (k : Nat) : Bool :=
  ts.any fun t => t.kind.isCode && t.pos.line == k

def codeLines (source : String) (ts : List Token) : List (List Char × Nat) :=
  ((lines source).zipIdx 1).filter fun l => hasCode ts l.2

/-! ## The start of a line -/

section margin

variable {b : Char} {m : Margin} {p : Position} {qs : List Piece}

theorem netDepth_dedents (p : Position) (ws : List Nat) :
    netDepth (ws.map fun _ => Margin.dedent p) = -ws.length := by
  induction ws with
  | nil => rfl
  | cons w ws ih =>
    have hone : netDepth [Margin.dedent p] = -1 := rfl
    rw [List.map_cons, ← List.singleton_append, netDepth_append, hone, ih, List.length_cons]
    omega

theorem netDepth_startLine (m : Margin) (p : Position) (qs : List Piece) :
    netDepth (m.startLine p qs).2 + m.widths.length = (m.startLine p qs).1.widths.length := by
  cases qs with
  | nil => exact Int.zero_add _
  | cons q qs =>
    rcases startLine_cases m p q qs with ⟨hw, ht⟩ | ⟨w, t, hw, ht, hk, -⟩ | ⟨w, hw, ht⟩
    · rw [hw, ht]
      exact Int.zero_add _
    · have hone : netDepth [t] = 1 := by simp [netDepth, countKind_cons, hk]
      rw [hw, ht, hone, List.length_cons]
      omega
    · have hlength := congrArg List.length
        (List.takeWhile_append_dropWhile (p := (w < ·)) (l := m.widths))
      rw [List.length_append] at hlength
      rw [hw, ht, netDepth_dedents]
      omega

end margin

/-! ## Code on a line -/

section code

variable {b : Char} {p : Position} {qs : List Piece}

theorem noCode_of_isBlankLine {atStart : Bool} (hregular : Piece.Regular b atStart qs)
    (hline : ∀ q ∈ qs, q.shape ≠ .lineBreak) (h : Margin.isBlankLine qs = true) :
    ∀ t ∈ tokensOf (found p qs), t.kind.isCode = false := by
  induction qs generalizing p atStart with
  | nil => exact fun t ht => absurd ht List.not_mem_nil
  | cons q qs ih =>
    obtain ⟨hcarriage, hcomment, -, hrest⟩ := hregular
    rw [List.forall_mem_cons] at hline
    have hq : q.shape = .comment := by
      simpa [Margin.isBlankLine, hline.1, hcarriage] using h
    have hitem : item? p q = some (token .comment p q.text none) := by simp [item?, hq]
    intro t ht
    rw [found, hitem] at ht
    rcases List.mem_cons.mp ht with rfl | ht
    · rfl
    · exact ih hrest hline.2 (hcomment hq) t ht

theorem noCode_of_isBare {atStart : Bool} (hregular : Piece.Regular b atStart qs)
    (hline : ∀ q ∈ qs, q.shape ≠ .lineBreak) (h : isBare qs = true) :
    ∀ t ∈ tokensOf (found p qs), t.kind.isCode = false := by
  cases qs with
  | nil => exact noCode_of_isBlankLine hregular hline rfl
  | cons q qs =>
    rw [isBare] at h
    split_ifs at h with hq
    · have hnone : item? p q = none := by simp [item?, hq]
      rw [found, hnone]
      exact noCode_of_isBlankLine hregular.2.2.2 (List.forall_mem_cons.mp hline).2 h
    · exact noCode_of_isBlankLine hregular hline h

end code

/-! ## Line by line -/

theorem netDepth_lineStart (m : Margin) (k : Nat) (qs : List Piece) :
    netDepth (lineStart m k qs).2 + m.widths.length = (lineStart m k qs).1.widths.length := by
  unfold lineStart
  split_ifs
  · exact Int.zero_add _
  · exact netDepth_startLine m _ qs

/-- The tokens of some lines open as many blocks as the margin gets more. -/
theorem Over.netDepth {m m' : Margin} {ls : List (List Char × Nat)} {is : List Item}
    (h : Over m ls is m') (hbreak : ∀ l ∈ ls, '\n' ∉ l.1) :
    netDepth (tokensOf is) + m.widths.length = m'.widths.length := by
  induction h with
  | nil => exact Int.zero_add _
  | @cons m m' l ls is t hfirst ht h ih =>
    rw [List.forall_mem_cons] at hbreak
    have hrest := ih hbreak.2
    have hline := netDepth_lineStart m l.2 (Piece.cut l.1)
    have hfound := netDepth_of_forall (@noLayout_found l.1 l.2 hbreak.1 t ht)
    rw [tokensOf_line, netDepth_append, ← List.singleton_append, ← List.append_assoc,
      netDepth_append, hfound]
    omega

/-! ## Lines with code -/

theorem mem_of_mem_splitOn (cs : List Char) : ∀ l ∈ cs.splitOn '\n', l ⊆ cs := by
  induction cs with
  | nil => simp
  | cons c cs ih =>
    obtain ⟨l, ls, hls⟩ := List.exists_cons_of_ne_nil (List.splitOn_ne_nil '\n' cs)
    rw [List.splitOn, List.splitOnP_cons_eq_if_modifyHead, ← List.splitOn, hls]
    rw [hls, List.forall_mem_cons] at ih
    have hrest : ∀ l ∈ ls, l ⊆ c :: cs := fun l hl => List.subset_cons_of_subset c (ih.2 l hl)
    split_ifs
    · exact List.forall_mem_cons.mpr ⟨List.nil_subset _,
        List.forall_mem_cons.mpr ⟨List.subset_cons_of_subset c ih.1, hrest⟩⟩
    · exact List.forall_mem_cons.mpr ⟨List.cons_subset_cons c ih.1, hrest⟩

section source

variable {source : String} {ts : List Token}

theorem noCarriage_lines (hr : '\r' ∉ source.toList) : ∀ l ∈ lines source, '\r' ∉ l := by
  obtain ⟨mark, hmark, -⟩ := withoutMark_split source.toList
  intro l hl hmem
  refine hr ?_
  rw [hmark]
  exact List.mem_append_right _ (mem_of_mem_splitOn _ l hl hmem)

theorem mem_tokens_iff (hts : tokenize source = .ok ts) {t : Token} (ht : t.kind.isInLine = true) :
    t ∈ ts ↔ ∃ l ∈ (lines source).zipIdx 1,
      t ∈ tokensOf (found (Position.start.onLine l.2) (Piece.cut l.1)) := by
  obtain ⟨-, rfl⟩ := tokenize_eq_ok.mp hts
  have hfilter : t ∈ tokensOf (scan source.toList) ↔
      t ∈ (tokensOf (scan source.toList)).filter (·.kind.isInLine) := by
    rw [List.mem_filter, and_iff_left ht]
  rw [hfilter, ← tokensOf_keeps, scan_inLines, tokensOf, List.filterMap_flatMap, List.mem_flatMap]
  rfl

theorem hasCode_eq (hts : tokenize source = .ok ts) (hr : '\r' ∉ source.toList)
    {l : List Char × Nat} (hl : l ∈ (lines source).zipIdx 1) :
    hasCode ts l.2 = !isBare (Piece.cut l.1) := by
  have hmem : l.1 ∈ lines source := List.fst_mem_of_mem_zipIdx hl
  have hbreak := noBreak_zipIdx source l hl
  rw [Bool.eq_iff_iff, Bool.not_eq_true', hasCode, List.any_eq_true]
  constructor
  · rintro ⟨t, ht, hcode⟩
    rw [Bool.and_eq_true, beq_iff_eq] at hcode
    obtain ⟨l', hl', ht'⟩ := (mem_tokens_iff hts (isInLine_of_isCode hcode.1)).mp ht
    have hpos := (of_mem_found_onLine (noBreak_zipIdx source l' hl') ht').2
    obtain rfl : l' = l := eq_of_mem_zipIdx hl' hl (hpos.symm.trans hcode.2)
    by_contra hbare
    have hregular : Piece.Regular ' ' false (Piece.cut l'.1) := by
      refine @Piece.cut_regular ' ' [] l'.1 (noCarriage_lines hr _ hmem) ?_ false
        (fun h => absurd h Bool.false_ne_true)
      rintro before line heq
      rw [List.nil_append] at heq
      exact absurd (by rw [heq]; simp) hbreak
    have hnone := noCode_of_isBare hregular (shape_of_noBreak hbreak) (by simpa using hbare) t ht'
    rw [hcode.1] at hnone
    cases hnone
  · intro hbare
    obtain ⟨t, ht, hcode⟩ :=
      exists_code_of_isBare (Piece.cut_apart l.1) (faultless_line hts hl) hbare
    obtain ⟨hinLine, hpos⟩ := of_mem_found_onLine hbreak ht
    exact ⟨t, (mem_tokens_iff hts hinLine).mpr ⟨l, hl, ht⟩, by simp [hcode, hpos]⟩

theorem netDepth_codeLine {b : Char} (hts : tokenize source = .ok ts) (hr : '\r' ∉ source.toList)
    (hb : ∀ l ∈ (lines source).tail, ∀ c ∈ l.takeWhile Piece.isBlank, c = b)
    {before after : List (List Char × Nat)} {l : List Char × Nat}
    (hl : codeLines source ts = before ++ l :: after) :
    netDepth (beforeLine l.2 ts) =
      (((before ++ [l]).map leadingWidth).foldl Margin.settle []).length := by
  have hcode : codeLines source ts =
      ((lines source).zipIdx 1).filter fun l => !isBare (Piece.cut l.1) :=
    List.filter_congr fun l hl => hasCode_eq hts hr hl
  obtain ⟨past, later, hsplit, hpast, hbare, -⟩ := filter_eq_append_cons (hcode.symm.trans hl)
  rw [Bool.not_eq_true'] at hbare
  have hindented := indentedWith_of_tail hb
  have hbreak := noBreak_zipIdx source
  rw [hsplit, List.forall_mem_append, List.forall_mem_cons] at hindented hbreak
  obtain ⟨is, m, rest, hover, hfirst, htokens, -⟩ := tokens_over hts hsplit
  have hlast : ((before ++ [l]).map leadingWidth).foldl Margin.settle [] =
      Margin.settle m.widths (leadingWidth l) := by
    rw [List.map_append, List.foldl_append, hover.widths (counted_outermost b) hindented.1, hpast]
    rfl
  have hnet := hover.netDepth hbreak.1
  have hline := netDepth_lineStart m l.2 (Piece.cut l.1)
  have hnone : Margin.outermost.widths.length = 0 := rfl
  rw [widths_lineStart (hover.counted (counted_outermost b) hindented.1) hfirst hindented.2.1,
    if_neg (by simp [hbare])] at hline
  rw [beforeLine_code hts hsplit hbare hover htokens, netDepth_append, hlast]
  omega

end source

end Source

open Source

/-- **Depth from widths.** Let a text without faults and carriage returns be indented with one kind
of blank, and let each line with code that is further out than the one before go back to the left
edge or to a width that is still open. Then as many blocks are open where a line with code begins
as there are widths above zero among the least widths from each line with code on, up to it. -/
theorem depth_of_widths {source : String} {ts : List Token} {b : Char}
    (hts : tokenize source = .ok ts) (hr : '\r' ∉ source.toList)
    (hb : ∀ l ∈ (lines source).tail, ∀ c ∈ l.takeWhile Piece.isBlank, c = b)
    (hopen : ReturnsToOpen ((codeLines source ts).map leadingWidth)) :
    ∀ i, ∀ l ∈ (codeLines source ts)[i]?,
      netDepth (beforeLine l.2 ts) =
        depthOf (((codeLines source ts).map leadingWidth).take (i + 1)) := by
  intro i l hl
  obtain ⟨hi, hget⟩ := List.getElem?_eq_some_iff.mp hl
  have hsplit : codeLines source ts =
      (codeLines source ts).take i ++ l :: (codeLines source ts).drop (i + 1) := by
    rw [← hget, List.cons_getElem_drop_succ, List.take_append_drop]
  have hwidths : (((codeLines source ts).take i) ++ [l]).map leadingWidth =
      ((codeLines source ts).map leadingWidth).take (i + 1) := by
    rw [← List.map_take, List.take_succ_eq_append_getElem hi, hget]
  rw [netDepth_codeLine hts hr hb hsplit, hwidths]
  rw [← List.take_append_drop (i + 1) ((codeLines source ts).map leadingWidth)] at hopen
  rw [(Settled.of_returnsToOpen hopen.of_append).length_eq]

/-- Two blocks; behind the inner one there are an empty line and one with a comment. -/
def staircase : String := "IF a\n  IF b\n      A\n\n # c\n  B\nC\n"

/-- Where the outer block goes on, one block is open. -/
theorem depth_of_widths_staircase :
    (codeLines staircase (tokens staircase)).map leadingWidth = [0, 2, 6, 2, 0] ∧
    (codeLines staircase (tokens staircase))[3]? = some ("  B".toList, 6) ∧
    netDepth (beforeLine 6 (tokens staircase)) = depthOf [0, 2, 6, 2] := by
  have hlines : codeLines staircase (tokens staircase) = [("IF a".toList, 1), ("  IF b".toList, 2),
      ("      A".toList, 3), ("  B".toList, 6), ("C".toList, 7)] := by
    with_unfolding_all rfl
  obtain ⟨ts, hts⟩ := @exists_tokens staircase (by with_unfolding_all rfl)
  have htokens : tokens staircase = ts := by rw [tokens, hts]
  have hwidths : (codeLines staircase ts).map leadingWidth = [0, 2, 6, 2, 0] := by
    rw [← htokens, hlines]
    decide
  rw [htokens] at hlines ⊢
  have hfourth : (codeLines staircase ts)[3]? = some ("  B".toList, 6) := by
    rw [hlines]
    rfl
  have hblanks : ∀ l ∈ (lines staircase).tail, ∀ c ∈ l.takeWhile Piece.isBlank, c = ' ' := by
    have hall : ((lines staircase).tail.all fun l =>
        (l.takeWhile Piece.isBlank).all (· == ' ')) = true := by
      with_unfolding_all rfl
    simpa only [List.all_eq_true, beq_iff_eq] using hall
  have hdepth := @depth_of_widths staircase ts ' ' hts (by decide) hblanks
    (by rw [hwidths]; decide) 3 _ hfourth
  rw [hwidths] at hdepth
  exact ⟨hwidths, hfourth, hdepth⟩

end Offside
