import Offside.Proofs.Source.BlankLines

/-!
# A text line by line

At the start of each line the margin adds layout tokens (`Source.lineStart`), and then come the
tokens that are found in the line alone. So what the scanner finds in a text can be taken apart at
any of its lines (`Source.exists_over`): the lines before it lead from one margin to another
(`Source.Over`), and the scanner goes on from there.
-/

namespace Offside

namespace Source

/-- The tokens before the first one on the line `k` that is not layout. -/
def beforeLine (k : Nat) (ts : List Token) : List Token :=
  ts.takeWhile fun t => !(t.kind.isInLine && t.pos.line == k)

/-- How many blanks a line begins with. The blanks of the first line do not count. -/
def leadingWidth (l : List Char × Nat) : Nat :=
  if l.2 = 1 then 0 else (l.1.takeWhile Piece.isBlank).length

/-- The line begins with no other blanks than `b`, unless it is the first one. -/
def IndentedWith (b : Char) (l : List Char × Nat) : Prop :=
  l.2 ≠ 1 → ∀ c ∈ l.1.takeWhile Piece.isBlank, c = b

/-! ## The start of a line -/

section margin

variable {b : Char} {m : Margin} {p : Position} {qs : List Piece}

theorem startLine_notInLine {t : Token} (ht : t ∈ (m.startLine p qs).2) :
    t.kind.isInLine = false := by
  cases qs with
  | nil => cases ht
  | cons q qs =>
    rcases startLine_cases m p q qs with ⟨-, hts⟩ | ⟨w, t', -, hts, hk, -⟩ | ⟨w, -, hts⟩
    · rw [hts] at ht
      cases ht
    · rw [hts, List.mem_singleton] at ht
      rw [ht, hk]
      rfl
    · rw [hts, List.mem_map] at ht
      obtain ⟨_, -, rfl⟩ := ht
      rfl

theorem measured_of_forall {text : List Char} (h : ∀ c ∈ text, c = b) :
    Margin.measured b text = text := by
  cases text with
  | nil => rfl
  | cons c cs =>
    rw [Margin.measured, List.takeWhile_eq_self_iff.mpr]
    exact fun d hd => by simpa using h d (List.mem_cons_of_mem c hd)

/-- The width of a line with code decides which blocks are open behind its start. -/
theorem widths_startLine {l : List Char} (hm : Counted b m.unit)
    (hb : ∀ c ∈ l.takeWhile Piece.isBlank, c = b) :
    (m.startLine p (Piece.cut l)).1.widths =
      if isBare (Piece.cut l) then m.widths
      else Margin.settle m.widths (l.takeWhile Piece.isBlank).length := by
  cases hcut : Piece.cut l with
  | nil => rfl
  | cons q qs =>
    have hblanks := takeWhile_isBlank hcut
    rw [hblanks] at hb ⊢
    unfold Margin.startLine isBare
    by_cases hq : q.shape = .blanks
    · rw [if_pos hq] at hb
      simp only [if_pos hq]
      split_ifs
      · rfl
      · rw [moveTo_fst, measured_unitAfter hm hb, measured_of_forall hb]
    · simp only [if_neg hq]
      split_ifs
      · rfl
      · rfl

theorem startLine_bare (h : isBare qs = true) : (m.startLine p qs).2 = [] := by
  cases qs with
  | nil => rfl
  | cons q qs =>
    rw [isBare] at h
    unfold Margin.startLine
    by_cases hq : q.shape = .blanks
    · simp only [if_pos hq] at h ⊢
      rw [if_pos h]
    · simp only [if_neg hq] at h ⊢
      rw [if_pos h]

theorem layout_moveTo (m : Margin) (shown : List Char) (p : Position) :
    (m.widths.headD 0 < shown.length → ∃ t, (m.moveTo shown p).2 = [t] ∧ t.kind = .indent) ∧
      (shown.length ≤ m.widths.headD 0 → (m.moveTo shown p).2 =
        (m.widths.takeWhile (shown.length < ·)).map fun _ => Margin.dedent p) := by
  unfold Margin.moveTo Margin.width
  constructor
  · intro hlt
    rw [if_pos hlt]
    exact ⟨_, rfl, rfl⟩
  · intro hle
    rw [if_neg (Nat.not_lt.mpr hle)]
    rfl

/-- The layout of a line with code: an indent if it is further in than the innermost block, and
otherwise the ends of the blocks that are wider. -/
theorem layout_startLine {l : List Char} (hm : Counted b m.unit)
    (hb : ∀ c ∈ l.takeWhile Piece.isBlank, c = b) (hcode : isBare (Piece.cut l) = false) :
    (m.widths.headD 0 < (l.takeWhile Piece.isBlank).length →
      ∃ t, (m.startLine p (Piece.cut l)).2 = [t] ∧ t.kind = .indent) ∧
    ((l.takeWhile Piece.isBlank).length ≤ m.widths.headD 0 →
      (m.startLine p (Piece.cut l)).2 =
        (m.widths.takeWhile ((l.takeWhile Piece.isBlank).length < ·)).map
          fun _ => Margin.dedent p) := by
  cases hcut : Piece.cut l with
  | nil =>
    rw [hcut] at hcode
    cases hcode
  | cons q qs =>
    rw [hcut, isBare] at hcode
    rw [takeWhile_isBlank hcut] at hb ⊢
    unfold Margin.startLine
    by_cases hq : q.shape = .blanks
    · rw [if_pos hq] at hcode hb
      simp only [if_pos hq, hcode]
      have hlayout := layout_moveTo ⟨m.widths, m.unitAfter q.text⟩
        (Margin.measured ((m.unitAfter q.text).getD ' ') q.text) p
      rw [measured_unitAfter hm hb, measured_of_forall hb] at hlayout ⊢
      exact hlayout
    · rw [if_neg hq] at hcode
      simp only [if_neg hq, hcode]
      exact ⟨fun h => absurd h (Nat.not_lt_zero _), fun _ => rfl⟩

end margin

/-! ## Code on a line -/

section code

variable {p : Position} {qs : List Piece}

theorem item?_code {q : Piece} (hq : q.shape ≠ .blanks)
    (hcode : Margin.isBlankLine (q :: qs) = false) (hf : Faultless (item? p q).toList) :
    ∃ t, item? p q = some (.ok t) ∧ t.kind.isCode = true := by
  simp only [Margin.isBlankLine, Bool.or_eq_false_iff, beq_eq_false_iff_ne] at hcode
  obtain ⟨⟨hbreak, hcarriage⟩, hcomment⟩ := hcode
  cases hi : item? p q with
  | none => rcases shape_of_item?_eq_none hi with h | h <;> contradiction
  | some i =>
    cases i with
    | error f => simp [hi, Faultless, fault?] at hf
    | ok t =>
      refine ⟨t, rfl, ?_⟩
      rcases kind_of_item?_eq_some hi with ⟨h, -⟩ | ⟨h, -⟩ | ⟨-, -, h⟩
      · exact absurd h hbreak
      · exact absurd h hcomment
      · exact h

theorem exists_code_of_isBare (hapart : Piece.Apart qs) (hf : Faultless (found p qs))
    (h : isBare qs = false) : ∃ t ∈ tokensOf (found p qs), t.kind.isCode = true := by
  have hfirst : ∀ (p : Position) (q : Piece) (rest : List Piece), q.shape ≠ .blanks →
      Margin.isBlankLine (q :: rest) = false → Faultless (found p (q :: rest)) →
      ∃ t ∈ tokensOf (found p (q :: rest)), t.kind.isCode = true := by
    intro p q rest hq hcode hf
    rw [found, faultless_append] at hf
    obtain ⟨t, hi, ht⟩ := item?_code hq hcode hf.1
    refine ⟨t, ?_, ht⟩
    rw [found, hi]
    exact List.mem_cons_self
  cases qs with
  | nil => cases h
  | cons q qs =>
    rw [isBare] at h
    split_ifs at h with hq
    · -- blanks give no item, and code follows them
      cases qs with
      | nil => cases h
      | cons q' qs =>
        have hnone : item? p q = none := by simp [item?, hq]
        rw [found, hnone] at hf ⊢
        exact hfirst _ q' qs ((Piece.apart_cons.mp hapart).1 hq q' rfl) h hf
    · exact hfirst p q qs hq h hf

end code

/-! ## One line -/

section line

variable {b : Char} {m : Margin} {p : Position} {l : List Char} {k : Nat}

theorem of_mem_found_onLine (hbreak : '\n' ∉ l) {t : Token}
    (ht : t ∈ tokensOf (found (Position.start.onLine k) (Piece.cut l))) :
    t.kind.isInLine = true ∧ t.pos.line = k := by
  constructor
  · rw [← found_isInLine hbreak, tokensOf_keeps] at ht
    exact (List.mem_filter.mp ht).2
  · rw [found_onLine k hbreak, tokensOf_move] at ht
    obtain ⟨u, -, rfl⟩ := List.mem_map.mp ht
    rfl

theorem noLayout_found (hbreak : '\n' ∉ l) {t : Token} (ht : t.kind = .newline) :
    ∀ u ∈ tokensOf (found (Position.start.onLine k) (Piece.cut l)) ++ [t],
      u.kind ≠ .indent ∧ u.kind ≠ .dedent := by
  intro u hu
  rcases List.mem_append.mp hu with hu | hu
  · have hinLine := (of_mem_found_onLine hbreak hu).1
    constructor
    · rintro hk
      rw [hk] at hinLine
      cases hinLine
    · rintro hk
      rw [hk] at hinLine
      cases hinLine
  · rw [List.mem_singleton.mp hu, ht]
    simp

/-- The margin behind the start of the line `k`, and the layout tokens there. The first line has
none. -/
def lineStart (m : Margin) (k : Nat) (qs : List Piece) : Margin × List Token :=
  if k = 1 then (m, []) else m.startLine (Position.start.onLine k) qs

theorem items_lineStart {qs rest : List Piece} (hline : ∀ q ∈ qs, q.shape ≠ .lineBreak)
    (hrest : Margin.isBlankLine rest = true) :
    items m (k != 1) (Position.start.onLine k) (qs ++ rest) =
      (lineStart m k qs).2.map .ok ++ (found (Position.start.onLine k) qs ++
        items (lineStart m k qs).1 false
          ((Position.start.onLine k).after (qs.flatMap Piece.text)) rest) := by
  unfold lineStart
  by_cases hk : k = 1
  · rw [if_pos hk, bne_eq_false_iff_eq.mpr hk, items_line hline]
    rfl
  · rw [if_neg hk, bne_iff_ne.mpr hk]
    cases qs with
    | nil => exact items_over hrest
    | cons q qs =>
      rw [List.cons_append, items_atStart, startLine_join (.inr hrest), ← items_inLine,
        ← List.cons_append, items_line hline]

theorem lineStart_join {qs rest : List Piece} (hrest : Margin.isBlankLine rest = true) :
    lineStart m k (qs ++ rest) = lineStart m k qs := by
  unfold lineStart
  split_ifs
  · rfl
  · cases qs with
    | nil => exact startLine_over hrest
    | cons q qs => exact startLine_join (.inr hrest)

theorem lineStart_bare {qs : List Piece} (h : isBare qs = true) : (lineStart m k qs).2 = [] := by
  unfold lineStart
  split_ifs
  · rfl
  · exact startLine_bare h

theorem lineStart_notInLine {qs : List Piece} {t : Token} (ht : t ∈ (lineStart m k qs).2) :
    t.kind.isInLine = false := by
  unfold lineStart at ht
  split_ifs at ht
  · cases ht
  · exact startLine_notInLine ht

theorem lineStart_counted {l : List Char × Nat} (hm : Counted b m.unit) (hb : IndentedWith b l) :
    Counted b (lineStart m l.2 (Piece.cut l.1)).1.unit := by
  unfold lineStart
  split_ifs with hk
  · exact hm
  · have hblanks := hb hk
    cases hcut : Piece.cut l.1 with
    | nil => exact hm
    | cons q qs =>
      rw [takeWhile_isBlank hcut] at hblanks
      refine startLine_counted _ q qs hm fun hq => ?_
      rwa [if_pos hq] at hblanks

theorem widths_lineStart {l : List Char × Nat} (hm : Counted b m.unit)
    (hfirst : l.2 = 1 → m.widths = []) (hb : IndentedWith b l) :
    (lineStart m l.2 (Piece.cut l.1)).1.widths =
      if isBare (Piece.cut l.1) then m.widths else Margin.settle m.widths (leadingWidth l) := by
  unfold lineStart leadingWidth
  by_cases hk : l.2 = 1
  · simp only [if_pos hk, hfirst hk]
    split_ifs
    · rfl
    · rfl
  · simp only [if_neg hk]
    exact widths_startLine hm (hb hk)

theorem tokensOf_line (us : List Token) (is js : List Item) (t : Token) :
    tokensOf (us.map .ok ++ (is ++ .ok t :: js)) = us ++ (tokensOf is ++ t :: tokensOf js) := by
  rw [tokensOf_append, tokensOf_map_ok, tokensOf_append]
  rfl

theorem beforeLine_here (hbreak : '\n' ∉ l) (rest : List Token)
    (hf : Faultless (found (Position.start.onLine k) (Piece.cut l)))
    (hcode : isBare (Piece.cut l) = false) :
    beforeLine k ((lineStart m k (Piece.cut l)).2 ++
      (tokensOf (found (Position.start.onLine k) (Piece.cut l)) ++ rest)) =
        (lineStart m k (Piece.cut l)).2 := by
  obtain ⟨t, ht, -⟩ := exists_code_of_isBare (Piece.cut_apart l) hf hcode
  obtain ⟨u, us, hus⟩ := List.exists_cons_of_ne_nil (List.ne_nil_of_mem ht)
  have hu := @of_mem_found_onLine l k hbreak u (by rw [hus]; exact List.mem_cons_self)
  have hlayout : ∀ t ∈ (lineStart m k (Piece.cut l)).2,
      (!(t.kind.isInLine && t.pos.line == k)) = true := by
    intro t ht
    rw [lineStart_notInLine ht]
    rfl
  rw [beforeLine, List.takeWhile_append_of_pos hlayout, hus, List.cons_append,
    List.takeWhile_cons_of_neg (by simp [hu]), List.append_nil]

end line

theorem items_lines {m : Margin} {k : Nat} (hk : 1 ≤ k) {l : List Char} (hbreak : '\n' ∉ l)
    (ls : List (List Char)) :
    ∃ rest, items m (k != 1) (Position.start.onLine k)
        (Piece.cut (List.intercalate ['\n'] (l :: ls))) =
          (lineStart m k (Piece.cut l)).2.map .ok ++
            (found (Position.start.onLine k) (Piece.cut l) ++ rest) ∧
      (ls ≠ [] → ∃ t : Token, t.kind = .newline ∧ rest = .ok t ::
        items (lineStart m k (Piece.cut l)).1 (k + 1 != 1) (Position.start.onLine (k + 1))
          (Piece.cut (List.intercalate ['\n'] ls))) := by
  have hline := shape_of_noBreak hbreak
  cases ls with
  | nil =>
    have htext : List.intercalate ['\n'] [l] = l := by simp [List.intercalate]
    have hitems := @items_lineStart m k _ [] hline rfl
    rw [List.append_nil] at hitems
    exact ⟨_, by rw [htext, hitems], fun h => absurd rfl h⟩
  | cons l' ls =>
    have htext : List.intercalate ['\n'] (l :: l' :: ls) =
        (l ++ ['\n']) ++ List.intercalate ['\n'] (l' :: ls) := by
      simp [List.intercalate, List.intersperse]
    have hlater : (k + 1 != 1) = true := bne_iff_ne.mpr (by omega)
    have hflat := Piece.cut_flatten (l ++ ['\n'])
    rw [htext, Piece.cut_join (by simp [WholeLines]), hlater, ← Position.after_line k hbreak]
    generalize Piece.cut (List.intercalate ['\n'] (l' :: ls)) = more
    rcases Piece.cut_line l with hcut | ⟨qs, hqs, hcut⟩
    · rw [hcut] at hflat ⊢
      rw [← hflat, List.append_assoc, List.singleton_append, items_lineStart hline rfl,
        items_lineBreak, List.flatMap_append, Position.after_append]
      exact ⟨_, rfl, fun _ => ⟨_, rfl, rfl⟩⟩
    · -- a carriage return at the end of the line belongs to the line break
      rw [hqs] at hline ⊢
      rw [hcut] at hflat ⊢
      have hline' : ∀ q ∈ qs, q.shape ≠ .lineBreak := fun q hq =>
        hline q (List.mem_append_left _ hq)
      have hfound : found (Position.start.onLine k) (qs ++ [⟨.carriage, ['\r']⟩]) =
          found (Position.start.onLine k) qs := by
        rw [found_append]
        exact List.append_nil _
      rw [← hflat, List.append_assoc, List.singleton_append, items_lineStart hline' rfl,
        items_lineBreak, List.flatMap_append, Position.after_append, lineStart_join rfl, hfound]
      exact ⟨_, rfl, fun _ => ⟨_, rfl, rfl⟩⟩

/-! ## From line to line -/

/-- Some lines that are ended, each with its number: from which margin they lead to which, and what
the scanner finds in them. -/
inductive Over : Margin → List (List Char × Nat) → List Item → Margin → Prop
  | nil {m : Margin} : Over m [] [] m
  | cons {m m' : Margin} {l : List Char × Nat} {ls : List (List Char × Nat)} {is : List Item}
      {t : Token} (hfirst : l.2 = 1 → m.widths = []) (ht : t.kind = .newline)
      (h : Over (lineStart m l.2 (Piece.cut l.1)).1 ls is m') :
      Over m (l :: ls) ((lineStart m l.2 (Piece.cut l.1)).2.map .ok ++
        (found (Position.start.onLine l.2) (Piece.cut l.1) ++ .ok t :: is)) m'

theorem eq_of_mem_zipIdx {ls : List (List Char)} {k : Nat} {l l' : List Char × Nat}
    (hl : l ∈ ls.zipIdx k) (hl' : l' ∈ ls.zipIdx k) (h : l.2 = l'.2) : l = l' := by
  obtain ⟨line, j⟩ := l
  obtain ⟨line', j'⟩ := l'
  obtain rfl : j = j' := h
  obtain ⟨-, -, hline⟩ := List.mem_zipIdx hl
  obtain ⟨-, -, hline'⟩ := List.mem_zipIdx hl'
  rw [hline, hline']

/-- What the scanner finds in some lines is taken apart at one of them. -/
theorem exists_over {past later : List (List Char × Nat)} {l : List Char × Nat}
    {ls : List (List Char)} {k : Nat} (h : ls.zipIdx k = past ++ l :: later) (hk : 1 ≤ k)
    (hbreak : ∀ l ∈ ls, '\n' ∉ l) {m : Margin} (hfirst : k = 1 → m.widths = []) :
    ∃ is m', Over m past is m' ∧ (l.2 = 1 → m'.widths = []) ∧
      items m (k != 1) (Position.start.onLine k) (Piece.cut (List.intercalate ['\n'] ls)) =
        is ++ items m' (l.2 != 1) (Position.start.onLine l.2)
          (Piece.cut (List.intercalate ['\n'] (l.1 :: later.map Prod.fst))) := by
  induction past generalizing ls k m with
  | nil =>
    cases ls with
    | nil => cases h
    | cons l₀ ls =>
      rw [List.zipIdx_cons, List.nil_append] at h
      obtain ⟨rfl, rfl⟩ := List.cons.inj h
      rw [List.zipIdx_map_fst]
      exact ⟨[], m, .nil, hfirst, rfl⟩
  | cons l₀ past ih =>
    cases ls with
    | nil => cases h
    | cons l₁ ls =>
      rw [List.zipIdx_cons, List.cons_append] at h
      obtain ⟨rfl, hrest⟩ := List.cons.inj h
      rw [List.forall_mem_cons] at hbreak
      obtain ⟨rest, hitems, hnext⟩ := @items_lines m k hk l₁ hbreak.1 ls
      obtain ⟨t, ht, rfl⟩ := hnext (by rintro rfl; simp at hrest)
      obtain ⟨is, m', hover, hfirst', his⟩ := @ih ls (k + 1) hrest (Nat.le_add_left 1 k) hbreak.2
        (lineStart m k (Piece.cut l₁)).1 (fun h => absurd h (by omega))
      refine ⟨_, m', .cons hfirst ht hover, hfirst', ?_⟩
      rw [hitems, his]
      simp

section ended

variable {b : Char} {m m' : Margin} {ls : List (List Char × Nat)} {is : List Item}

theorem counted_outermost (b : Char) : Counted b Margin.outermost.unit :=
  fun c hc => absurd hc (Option.not_mem_none c)

theorem Over.counted (h : Over m ls is m') (hm : Counted b m.unit)
    (hb : ∀ l ∈ ls, IndentedWith b l) : Counted b m'.unit := by
  induction h with
  | nil => exact hm
  | cons hfirst ht h ih =>
    rw [List.forall_mem_cons] at hb
    exact ih (lineStart_counted hm hb.1) hb.2

theorem Over.widths (h : Over m ls is m') (hm : Counted b m.unit)
    (hb : ∀ l ∈ ls, IndentedWith b l) :
    m'.widths = ((ls.filter fun l => !isBare (Piece.cut l.1)).map leadingWidth).foldl
      Margin.settle m.widths := by
  induction h with
  | nil => rfl
  | @cons m m' l ls is t hfirst ht h ih =>
    rw [List.forall_mem_cons] at hb
    rw [ih (lineStart_counted hm hb.1) hb.2, widths_lineStart hm hfirst hb.1]
    cases hbare : isBare (Piece.cut l.1) with
    | true => rw [List.filter_cons_of_neg (by simp [hbare]), if_pos rfl]
    | false =>
      rw [List.filter_cons_of_pos (by simp [hbare]), if_neg Bool.false_ne_true]
      rfl

theorem Over.mem_line (h : Over m ls is m') (hbreak : ∀ l ∈ ls, '\n' ∉ l.1) {t : Token}
    (ht : t ∈ tokensOf is) (hinLine : t.kind.isInLine = true) : ∃ l ∈ ls, t.pos.line = l.2 := by
  induction h with
  | nil => cases ht
  | @cons m m' l ls is u hfirst hu h ih =>
    rw [List.forall_mem_cons] at hbreak
    rw [tokensOf_line, List.mem_append, List.mem_append] at ht
    rcases ht with ht | ht | ht
    · rw [lineStart_notInLine ht] at hinLine
      cases hinLine
    · exact ⟨l, List.mem_cons_self, (of_mem_found_onLine hbreak.1 ht).2⟩
    · rcases List.mem_cons.mp ht with rfl | ht
      · rw [hu] at hinLine
        cases hinLine
      · obtain ⟨l', hl', hline⟩ := ih hbreak.2 ht
        exact ⟨l', List.mem_cons_of_mem l hl', hline⟩

theorem Over.split {ls' : List (List Char × Nat)} (h : Over m (ls ++ ls') is m') :
    ∃ is₁ m₁ is₂, Over m ls is₁ m₁ ∧ Over m₁ ls' is₂ m' ∧ is = is₁ ++ is₂ := by
  induction ls generalizing m is with
  | nil => exact ⟨[], m, is, .nil, h, rfl⟩
  | cons l ls ih =>
    cases h with
    | cons hfirst ht h =>
      obtain ⟨is₁, m₁, is₂, h₁, h₂, rfl⟩ := ih h
      exact ⟨_, m₁, is₂, .cons hfirst ht h₁, h₂, by simp⟩

theorem Over.beforeLine (h : Over m ls is m') (hbreak : ∀ l ∈ ls, '\n' ∉ l.1) {k : Nat}
    (hk : ∀ l ∈ ls, l.2 ≠ k) (rest : List Token) :
    beforeLine k (tokensOf is ++ rest) = tokensOf is ++ Source.beforeLine k rest := by
  refine List.takeWhile_append_of_pos fun t ht => ?_
  cases hinLine : t.kind.isInLine with
  | false => rfl
  | true =>
    obtain ⟨l, hl, hline⟩ := h.mem_line hbreak ht hinLine
    simp [hline, hk l hl]

end ended

/-! ## The lines of a text -/

theorem filter_eq_append_cons {α : Type} {p : α → Bool} {zs before after : List α} {z : α}
    (h : zs.filter p = before ++ z :: after) :
    ∃ past later, zs = past ++ z :: later ∧ past.filter p = before ∧ p z = true ∧
      later.filter p = after := by
  obtain ⟨us, vs, rfl, hus, hvs⟩ := List.filter_eq_append_iff.mp h
  obtain ⟨ws, later, rfl, hws, hz, hafter⟩ := List.filter_eq_cons_iff.mp hvs
  refine ⟨us ++ ws, later, by rw [List.append_assoc], ?_, hz, hafter⟩
  rw [List.filter_append, hus, List.filter_eq_nil_iff.mpr hws, List.append_nil]

theorem zipIdx_pairwise (ls : List (List Char)) (k : Nat) :
    (ls.zipIdx k).Pairwise (·.2 < ·.2) := by
  have hnumbers : ((ls.zipIdx k).map Prod.snd).Pairwise (· < ·) := by
    rw [List.zipIdx_map_snd]
    exact List.pairwise_lt_range'
  exact List.pairwise_map.mp hnumbers

theorem lt_of_zipIdx {ls : List (List Char)} {k : Nat} {past later : List (List Char × Nat)}
    {l l' : List Char × Nat} (h : ls.zipIdx k = past ++ l :: later) (hl' : l' ∈ past) :
    l'.2 < l.2 := by
  have hnumbers := zipIdx_pairwise ls k
  rw [h, List.pairwise_append] at hnumbers
  exact hnumbers.2.2 l' hl' l List.mem_cons_self

section source

variable {source : String} {ts : List Token}

theorem noBreak_zipIdx (source : String) : ∀ l ∈ (lines source).zipIdx 1, '\n' ∉ l.1 :=
  fun l hl => not_mem_splitOn _ l.1 (List.fst_mem_of_mem_zipIdx hl)

theorem indentedWith_of_tail {b : Char}
    (hb : ∀ l ∈ (lines source).tail, ∀ c ∈ l.takeWhile Piece.isBlank, c = b) :
    ∀ l ∈ (lines source).zipIdx 1, IndentedWith b l := by
  intro l hl hne
  cases hlines : lines source with
  | nil =>
    rw [hlines] at hl
    cases hl
  | cons l₀ ls =>
    rw [hlines, List.zipIdx_cons, List.mem_cons] at hl
    rw [hlines] at hb
    refine hb l.1 (List.fst_mem_of_mem_zipIdx (hl.resolve_left fun h => hne ?_))
    rw [h]

theorem scan_inLines (source : String) :
    (scan source.toList).filter (keeps Kind.isInLine) =
      ((lines source).zipIdx 1).flatMap fun l =>
        found (Position.start.onLine l.2) (Piece.cut l.1) := by
  rw [scan_lines, foundInLines]
  refine List.flatMap_congr fun l hl => ?_
  exact (found_onLine l.2 (noBreak_zipIdx source l hl)).symm

theorem faultless_line (hts : tokenize source = .ok ts) {l : List Char × Nat}
    (hl : l ∈ (lines source).zipIdx 1) :
    Faultless (found (Position.start.onLine l.2) (Piece.cut l.1)) := by
  have hnone := (tokenize_eq_ok.mp hts).1
  rw [← faultsOf_keeps Kind.isInLine, scan_inLines, faultsOf, List.filterMap_flatMap,
    List.flatMap_eq_nil_iff] at hnone
  exact hnone l hl

theorem tokens_over (hts : tokenize source = .ok ts) {past later : List (List Char × Nat)}
    {l : List Char × Nat} (h : (lines source).zipIdx 1 = past ++ l :: later) :
    ∃ is m rest, Over .outermost past is m ∧ (l.2 = 1 → m.widths = []) ∧
      ts = tokensOf is ++ ((lineStart m l.2 (Piece.cut l.1)).2 ++
        (tokensOf (found (Position.start.onLine l.2) (Piece.cut l.1)) ++ rest)) ∧
      ∀ t ∈ rest, l.2 ≤ t.pos.line := by
  obtain ⟨-, rfl⟩ := tokenize_eq_ok.mp hts
  have htext : List.intercalate ['\n'] (lines source) = withoutMark source.toList :=
    List.intercalate_splitOn '\n'
  have hmem : l ∈ (lines source).zipIdx 1 := by
    rw [h]
    simp
  obtain ⟨is, m, hover, hfirst, hitems⟩ := exists_over h le_rfl (not_mem_splitOn _)
    (m := .outermost) fun _ => rfl
  obtain ⟨rest, hline, -⟩ := @items_lines m l.2 (List.le_snd_of_mem_zipIdx hmem) l.1
    (noBreak_zipIdx source l hmem) (later.map Prod.fst)
  have hlined := (@items_lined m (Position.start.onLine l.2) _ (Piece.cut_steps
    (List.intercalate ['\n'] (l.1 :: later.map Prod.fst))) (l.2 != 1)).le
  rw [hline, tokensOf_append, tokensOf_append, List.forall_mem_append,
    List.forall_mem_append] at hlined
  rw [htext, hline] at hitems
  refine ⟨is, m, tokensOf rest, hover, hfirst, (congrArg tokensOf hitems).trans ?_, hlined.2.2⟩
  rw [tokensOf_append, tokensOf_append, tokensOf_map_ok, tokensOf_append]

/-- The tokens before a line with code are those of the lines before it, and its layout. -/
theorem beforeLine_code (hts : tokenize source = .ok ts) {past later : List (List Char × Nat)}
    {l : List Char × Nat} (h : (lines source).zipIdx 1 = past ++ l :: later)
    (hcode : isBare (Piece.cut l.1) = false) {m m' : Margin} {is : List Item}
    (hover : Over m past is m') {rest : List Token}
    (hsplit : ts = tokensOf is ++ ((lineStart m' l.2 (Piece.cut l.1)).2 ++
      (tokensOf (found (Position.start.onLine l.2) (Piece.cut l.1)) ++ rest))) :
    beforeLine l.2 ts = tokensOf is ++ (lineStart m' l.2 (Piece.cut l.1)).2 := by
  have hfaultless := @faultless_line source ts hts l (by rw [h]; simp)
  have hbreak := noBreak_zipIdx source
  rw [h, List.forall_mem_append, List.forall_mem_cons] at hbreak
  rw [hsplit, hover.beforeLine hbreak.1 fun l' hl' => Nat.ne_of_lt (lt_of_zipIdx h hl'),
    beforeLine_here hbreak.2.1 rest hfaultless hcode]

end source

end Source

end Offside
