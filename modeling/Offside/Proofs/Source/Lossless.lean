import Offside.Proofs.Source.Layout

/-!
# Scanning loses nothing

A text without faults is its tokens, one behind the other, with nothing between them but blanks and
carriage returns (`Covers`). Every token is at the position where its characters begin, and that is
the position one gets by counting: lines by the line feeds before, columns by the characters since
the last of them (`Position.behind`). Faults are at such positions too, each further on than the one
before (`Faulted`).

The scanner never counts. It moves a position along as it passes over the pieces of the text, and
what has to be shown is that this is the same, whatever the pieces are.
-/

namespace Offside

/-! ## Positions by counting -/

namespace Position

/-- The position behind some characters, by counting them. -/
def behind (before : List Char) : Position :=
  ⟨1 + before.count '\n', 1 + (before.reverse.takeWhile (· != '\n')).length⟩

theorem next_behind (before : List Char) (c : Char) :
    (behind before).next c = behind (before ++ [c]) := by
  unfold behind next
  by_cases hc : c = '\n'
  · simp [hc, Nat.add_assoc]
  · have hcount : [c].count '\n' = 0 := by
      rw [List.count_eq_zero]
      simpa using fun h => hc h.symm
    simp [hc, hcount]
    omega

theorem after_behind (before cs : List Char) :
    (behind before).after cs = behind (before ++ cs) := by
  induction cs generalizing before with
  | nil => simp
  | cons c cs ih => rw [after_cons, next_behind, ih, List.append_assoc, List.singleton_append]

theorem start_after (cs : List Char) : start.after cs = behind cs := after_behind [] cs

/-- The order of the text. -/
def Before (p q : Position) : Prop := p.line < q.line ∨ p.line = q.line ∧ p.column < q.column

theorem Before.trans {p q r : Position} (h : p.Before q) (h' : q.Before r) : p.Before r := by
  unfold Before at *
  omega

theorem before_next (p : Position) (c : Char) : p.Before (p.next c) := by
  unfold Before next
  split_ifs
  · exact .inl (Nat.lt_succ_self _)
  · exact .inr ⟨rfl, Nat.lt_succ_self _⟩

theorem before_after (p : Position) {cs : List Char} (h : cs ≠ []) : p.Before (p.after cs) := by
  induction cs generalizing p with
  | nil => exact absurd rfl h
  | cons c cs ih =>
    rw [after_cons]
    by_cases hcs : cs = []
    · rw [hcs, after_nil]
      exact p.before_next c
    · exact (p.before_next c).trans (ih (p.next c) hcs)

end Position

/-! ## Tokens and the text -/

/-- What may stand between tokens. -/
def isGap (c : Char) : Bool := Piece.isBlank c || c == '\r'

/-- The characters `text`, with `before` in front of them, are those of a token. A newline is a line
feed, with a carriage return or without; an indent is blanks at the start of a line, not always all
of them; the ends of blocks and of the input have no characters; and every other token is exactly
its lexeme. -/
def Token.Spells (t : Token) (before text : List Char) : Prop :=
  match t.kind with
  | .newline => t.lexeme = "\n" ∧ (text = ['\n'] ∨ text = ['\r', '\n'])
  | .indent => t.lexeme.toList = text ∧ text ≠ [] ∧ (∀ c ∈ text, Piece.isBlank c = true) ∧
      before.getLast? = some '\n'
  | .dedent | .endOfInput => t.lexeme = "" ∧ text = []
  | _ => t.lexeme.toList = text ∧ text ≠ []

/-- Behind the characters `before`, the tokens `ts` are the whole rest of the text, in their order
and each at the position where its characters begin. -/
inductive Covers : List Char → List Token → List Char → Prop
  | nil {before} : Covers before [] []
  | gap {before c ts rest} (hc : isGap c = true) (h : Covers (before ++ [c]) ts rest) :
      Covers before ts (c :: rest)
  | token {before t text ts rest} (hpos : t.pos = .behind before) (ht : t.Spells before text)
      (h : Covers (before ++ text) ts rest) : Covers before (t :: ts) (text ++ rest)

/-- The characters that a fault is about, or the first of them. -/
def Fault.Cause.text : Fault.Cause → List Char
  | unexpectedCharacter c => [c]
  | unterminatedText => ['"']
  | mixedCase name => name.toList
  | invalidOperator text => text.toList

/-- The faults `fs` are in a text, in its order and each at the position where its characters begin.
-/
structure Faulted (text : List Char) (fs : List Fault) : Prop where
  increasing : fs.Pairwise fun f g => f.pos.Before g.pos
  placed : ∀ f ∈ fs, ∃ before rest, text = before ++ (f.cause.text ++ rest) ∧ f.pos = .behind before

namespace Covers

variable {before cs rest : List Char} {ts : List Token}

theorem gaps (hcs : ∀ c ∈ cs, isGap c = true) (h : Covers (before ++ cs) ts rest) :
    Covers before ts (cs ++ rest) := by
  induction cs generalizing before with
  | nil => simpa using h
  | cons c cs ih =>
    rw [List.forall_mem_cons] at hcs
    refine .gap hcs.1 (ih hcs.2 ?_)
    simpa using h

theorem nothing {t : Token} (hpos : t.pos = .behind before) (ht : t.Spells before [])
    (h : Covers before ts rest) : Covers before (t :: ts) rest := by
  have hbefore : Covers (before ++ []) ts rest := by rwa [List.append_nil]
  exact .token hpos ht hbefore

theorem dedents (ws : List Nat) (h : Covers before ts rest) :
    Covers before (ws.map (fun _ => Margin.dedent (.behind before)) ++ ts) rest := by
  induction ws with
  | nil => exact h
  | cons w ws ih => exact .nothing rfl ⟨rfl, rfl⟩ ih

end Covers

/-! ## Pieces -/

namespace Piece

/-- A piece is made of the characters that its shape promises. -/
def Genuine (q : Piece) : Prop :=
  match q.shape with
  | .blanks => q.text ≠ [] ∧ ∀ c ∈ q.text, isBlank c = true
  | .carriage => q.text = ['\r']
  | .lineBreak => q.text = ['\n'] ∨ q.text = ['\r', '\n']
  | .unclosed => ['"'] <+: q.text
  | .stray c => q.text = [c]
  | _ => q.text ≠ []

theorem of_mem_run {p : Char → Bool} {c : Char} {cs : List Char} (h : c ∈ (run p cs).1) :
    p c = true :=
  List.all_eq_true.mp List.all_takeWhile c h

theorem quoteTail_genuine (cs : List Char) :
    Genuine ⟨(quoteTail cs).1, '"' :: (quoteTail cs).2.1⟩ := by
  unfold quoteTail
  split
  · simp [Genuine]
  · simp [Genuine, List.cons_prefix_cons]

theorem symbolTail_genuine (c : Char) (cs : List Char) :
    Genuine ⟨(symbolTail c cs).1, c :: (symbolTail c cs).2.1⟩ := by
  cases cs with
  | nil =>
    simp only [symbolTail]
    split <;> simp [Genuine]
  | cons d cs =>
    simp only [symbolTail]
    split
    · simp [Genuine]
    · split <;> simp [Genuine]

theorem tail_genuine (c : Char) (cs : List Char) :
    Genuine ⟨(tail c cs).1, c :: (tail c cs).2.1⟩ := by
  unfold tail
  split_ifs with hn hr hb hc hq hd hw
  · exact .inl (by rw [hn])
  · split
    · exact .inr (by rw [hr])
    · show [c] = ['\r']
      rw [hr]
  · refine ⟨by simp, ?_⟩
    rw [List.forall_mem_cons]
    exact ⟨hb, fun x hx => of_mem_run hx⟩
  · simp [Genuine]
  · rw [hq]
    exact quoteTail_genuine cs
  · simp [Genuine]
  · simp [Genuine]
  · exact symbolTail_genuine c cs

theorem cut_genuine (cs : List Char) : ∀ q ∈ cut cs, q.Genuine := by
  fun_induction cut cs with
  | case1 => simp
  | case2 c cs r ih => exact List.forall_mem_cons.mpr ⟨tail_genuine c cs, ih⟩

theorem Genuine.ne_nil {q : Piece} (h : q.Genuine) : q.text ≠ [] := by
  unfold Genuine at h
  split at h
  · exact h.1
  · simp [h]
  · rcases h with h | h <;> simp [h]
  · intro hnil
    simp [hnil] at h
  · simp [h]
  · exact h

theorem Genuine.blanks {q : Piece} (h : q.Genuine) (hq : q.shape = .blanks) :
    ∀ c ∈ q.text, isBlank c = true := by
  simp only [Genuine, hq] at h
  exact h.2

theorem Genuine.carriage {q : Piece} (h : q.Genuine) (hq : q.shape = .carriage) :
    q.text = ['\r'] := by
  simpa only [Genuine, hq] using h

theorem Genuine.lineBreak {q : Piece} (h : q.Genuine) (hq : q.shape = .lineBreak) :
    q.text = ['\n'] ∨ q.text = ['\r', '\n'] := by
  simpa only [Genuine, hq] using h

theorem Genuine.getLast? {q : Piece} (h : q.Genuine) (hq : q.shape = .lineBreak) :
    q.text.getLast? = some '\n' := by
  rcases h.lineBreak hq with h | h <;> simp [h]

end Piece

namespace Source

/-! ## The token or fault of a piece -/

variable {p : Position} {q : Piece}

theorem gap_of_item?_eq_none (hq : q.Genuine) (h : item? p q = none) :
    ∀ c ∈ q.text, isGap c = true := by
  rcases shape_of_item?_eq_none h with hs | hs
  · exact fun c hc => by simp [isGap, hq.blanks hs c hc]
  · simp [hq.carriage hs, isGap]

theorem word_spells {text : List Char} {t : Token} (h : word p text = .ok t) :
    t.pos = p ∧ t.lexeme.toList = text := by
  unfold word token at h
  simp only at h
  split at h
  · cases h
    exact ⟨rfl, String.toList_ofList⟩
  · split_ifs at h
    · cases h
      exact ⟨rfl, String.toList_ofList⟩
    · cases h
      exact ⟨rfl, String.toList_ofList⟩

theorem spells_of_lexeme {t : Token} {before text : List Char}
    (hk : t.kind.isCode = true ∨ t.kind = .comment) (ht : t.lexeme.toList = text)
    (htext : text ≠ []) : t.Spells before text := by
  unfold Token.Spells
  split <;> simp_all [Kind.isCode]

theorem spells_of_item? {t : Token} (hq : q.Genuine) (h : item? p q = some (.ok t))
    (before : List Char) : t.pos = p ∧ t.Spells before q.text := by
  have hne := hq.ne_nil
  unfold item? token at h
  split at h
  case h_1 => cases h
  case h_2 => cases h
  case h_3 hs =>
    cases h
    simp only [Piece.Genuine, hs] at hq
    exact ⟨rfl, rfl, hq⟩
  case h_6 => cases h
  case h_8 =>
    have hw := Option.some.inj h
    exact ⟨(word_spells hw).1, spells_of_lexeme (.inl (word_isCode hw)) (word_spells hw).2 hne⟩
  case h_10 => exact absurd (Option.some.inj h) stray_ne_ok
  all_goals
    cases h
    exact ⟨rfl, String.toList_ofList, hne⟩

theorem fault_of_item? {f : Fault} (hq : q.Genuine) (h : item? p q = some (.error f)) :
    f.pos = p ∧ f.cause.text <+: q.text := by
  unfold item? token at h
  split at h
  case h_6 hs =>
    cases h
    simp only [Piece.Genuine, hs] at hq
    exact ⟨rfl, hq⟩
  case h_8 =>
    unfold word token at h
    simp only [Option.some.injEq] at h
    split at h
    · cases h
    · split_ifs at h
      cases h
      exact ⟨rfl, by simp [Fault.Cause.text]⟩
  case h_10 c hs =>
    simp only [Piece.Genuine, hs] at hq
    unfold stray at h
    simp only [Option.some.injEq] at h
    split_ifs at h with hc
    · cases h
      exact ⟨rfl, by simp [hq, hc, Fault.Cause.text]⟩
    · cases h
      exact ⟨rfl, by simp [hq, Fault.Cause.text]⟩
  all_goals cases h

/-! ## Tokens -/

section cover

variable {m : Margin} {qs : List Piece} {before : List Char}

/-- The layout tokens at the start of a line are the ends of blocks, or an indent made of blanks
that the line starts with. -/
theorem startLine_layout (m : Margin) (p : Position) (q : Piece) (qs : List Piece) :
    (∃ ws : List Nat, (m.startLine p (q :: qs)).2 = ws.map fun _ => Margin.dedent p) ∨
    ∃ shown, (m.startLine p (q :: qs)).2 = [⟨.indent, String.ofList shown, none, p⟩] ∧
      shown <+: q.text ∧ shown ≠ [] ∧ q.shape = .blanks := by
  have hmeasured : ∀ u, Margin.measured u q.text <+: q.text := by
    intro u
    cases q.text with
    | nil => exact List.prefix_refl _
    | cons c cs => exact (List.prefix_cons_inj c).mpr (List.takeWhile_prefix _)
  unfold Margin.startLine
  simp only
  split_ifs with hq hb hb
  · exact .inl ⟨[], rfl⟩
  · unfold Margin.moveTo
    split_ifs with hw
    · refine .inr ⟨_, rfl, hmeasured _, ?_, hq⟩
      exact List.ne_nil_of_length_pos (Nat.zero_lt_of_lt hw)
    · exact .inl ⟨_, rfl⟩
  · exact .inl ⟨[], rfl⟩
  · exact .inl ⟨_, rfl⟩

/-- What the pieces `qs` give covers their text, if they are read at the start of a line only behind
a line feed. -/
def CoversAll (qs : List Piece) : Prop :=
  ∀ m atStart before, (atStart = true → before.getLast? = some '\n') →
    Faultless (items m atStart (.behind before) qs) →
    Covers before (tokensOf (items m atStart (.behind before) qs)) (qs.flatMap Piece.text)

theorem itemsFrom_covers (ih : CoversAll qs) (hq : q.Genuine)
    (hf : Faultless (itemsFrom m (.behind before) q qs)) :
    Covers before (tokensOf (itemsFrom m (.behind before) q qs))
      (q.text ++ qs.flatMap Piece.text) := by
  unfold itemsFrom at hf ⊢
  rw [faultless_append, Position.after_behind] at hf
  rw [tokensOf_append, Position.after_behind]
  have hlast : (q.shape == .lineBreak) = true → (before ++ q.text).getLast? = some '\n' := by
    intro hs
    rw [List.getLast?_append, hq.getLast? (by simpa using hs), Option.some_or]
  have hrest := ih m (q.shape == .lineBreak) (before ++ q.text) hlast hf.2
  cases hi : item? (.behind before) q with
  | none => exact .gaps (gap_of_item?_eq_none hq hi) hrest
  | some i =>
    cases i with
    | error f => simp [hi, Faultless, fault?] at hf
    | ok t =>
      obtain ⟨hpos, hspells⟩ := spells_of_item? hq hi before
      exact .token hpos hspells hrest

/-- The first line of a block: some of its blanks are the indent, and the others a gap. -/
theorem indent_covers (ih : CoversAll qs) (hq : q.Genuine) {shown : List Char}
    (hshown : shown <+: q.text) (hne : shown ≠ []) (hs : q.shape = .blanks)
    (hbefore : before.getLast? = some '\n') (hf : Faultless (itemsFrom m (.behind before) q qs)) :
    Covers before (⟨.indent, String.ofList shown, none, .behind before⟩ ::
      tokensOf (itemsFrom m (.behind before) q qs)) (q.text ++ qs.flatMap Piece.text) := by
  have hnext :
      itemsFrom m (.behind before) q qs = items m false (.behind (before ++ q.text)) qs := by
    have hbreak : (Shape.blanks == .lineBreak) = false := rfl
    simp [itemsFrom, item?, hs, hbreak, Position.after_behind]
  rw [hnext] at hf ⊢
  have hblanks := hq.blanks hs
  have hrest := ih m false (before ++ q.text) (by simp) hf
  obtain ⟨others, hothers⟩ := hshown
  rw [← hothers] at hblanks hrest ⊢
  have hblank : ∀ c ∈ shown, Piece.isBlank c = true := fun c hc => hblanks c (by simp [hc])
  have hgap : ∀ c ∈ others, isGap c = true := fun c hc => by
    simp [isGap, hblanks c (by simp [hc])]
  rw [List.append_assoc]
  refine .token rfl ⟨String.toList_ofList, hne, hblank, hbefore⟩ (.gaps hgap ?_)
  rwa [List.append_assoc]

theorem coversAll (hqs : ∀ q ∈ qs, q.Genuine) : CoversAll qs := by
  induction qs with
  | nil =>
    intro m atStart before _ _
    rw [items, tokensOf_append, tokensOf_map_ok, Margin.closeTo]
    exact .dedents _ (.nothing rfl ⟨rfl, rfl⟩ .nil)
  | cons q qs ih =>
    intro m atStart before hbefore hf
    rw [List.forall_mem_cons] at hqs
    rw [List.flatMap_cons]
    cases atStart with
    | false =>
      rw [items_inLine] at hf ⊢
      exact itemsFrom_covers (ih hqs.2) hqs.1 hf
    | true =>
      rw [items_atStart, faultless_append] at hf
      rw [items_atStart, tokensOf_append, tokensOf_map_ok]
      rcases startLine_layout m (.behind before) q qs with ⟨ws, hws⟩ | ⟨shown, hshow, hpre, hne, hs⟩
      · rw [hws]
        exact .dedents ws (itemsFrom_covers (ih hqs.2) hqs.1 hf.2)
      · rw [hshow]
        exact indent_covers (ih hqs.2) hqs.1 hpre hne hs (hbefore rfl) hf.2

end cover

/-! ## Faults -/

section faults

variable {m : Margin} {atStart : Bool} {qs : List Piece} {before : List Char} {f : Fault}

theorem faults_cons (m : Margin) (atStart : Bool) (p : Position) (q : Piece) (qs : List Piece) :
    ∃ m', (items m atStart p (q :: qs)).filterMap fault? =
      (item? p q).toList.filterMap fault? ++
        (items m' (q.shape == .lineBreak) (p.after q.text) qs).filterMap fault? := by
  have hlayout : ∀ ts : List Token, (ts.map Except.ok : List Item).filterMap fault? = [] := by
    intro ts
    rw [List.filterMap_map]
    exact List.filterMap_eq_nil_iff.mpr fun _ _ => rfl
  cases atStart with
  | false => exact ⟨m, by rw [items_inLine, itemsFrom, List.filterMap_append]⟩
  | true =>
    refine ⟨(m.startLine p (q :: qs)).1, ?_⟩
    rw [items_atStart, itemsFrom, List.filterMap_append, List.filterMap_append, hlayout,
      List.nil_append]

theorem faults_nil (m : Margin) (atStart : Bool) (p : Position) :
    (items m atStart p []).filterMap fault? = [] := by
  rw [items]
  simp [fault?, Function.comp_def]

theorem mem_item? (h : f ∈ (item? p q).toList.filterMap fault?) : item? p q = some (.error f) := by
  obtain ⟨i, hi, hf⟩ := List.mem_filterMap.mp h
  cases i with
  | ok t => cases hf
  | error g =>
    cases hf
    simpa using hi

theorem placed_of_mem (hqs : ∀ q ∈ qs, q.Genuine)
    (h : f ∈ (items m atStart (.behind before) qs).filterMap fault?) :
    ∃ passed rest, qs.flatMap Piece.text = passed ++ (f.cause.text ++ rest) ∧
      f.pos = .behind (before ++ passed) := by
  induction qs generalizing m atStart before with
  | nil =>
    rw [faults_nil] at h
    cases h
  | cons q qs ih =>
    rw [List.forall_mem_cons] at hqs
    rw [List.flatMap_cons]
    obtain ⟨m', hsplit⟩ := faults_cons m atStart (.behind before) q qs
    rw [hsplit, List.mem_append, Position.after_behind] at h
    rcases h with h | h
    · obtain ⟨hpos, rest, hrest⟩ := fault_of_item? hqs.1 (mem_item? h)
      refine ⟨[], rest ++ qs.flatMap Piece.text, ?_, by simpa using hpos⟩
      rw [← hrest, List.nil_append, List.append_assoc]
    · obtain ⟨passed, rest, htext, hpos⟩ := ih hqs.2 h
      refine ⟨q.text ++ passed, rest, ?_, ?_⟩
      · rw [htext, List.append_assoc]
      · rw [hpos, List.append_assoc]

theorem faults_increasing (hqs : ∀ q ∈ qs, q.Genuine) :
    ((items m atStart (.behind before) qs).filterMap fault?).Pairwise
      fun f g => f.pos.Before g.pos := by
  induction qs generalizing m atStart before with
  | nil =>
    rw [faults_nil]
    exact .nil
  | cons q qs ih =>
    rw [List.forall_mem_cons] at hqs
    obtain ⟨m', hsplit⟩ := faults_cons m atStart (.behind before) q qs
    rw [hsplit, Position.after_behind, List.pairwise_append]
    refine ⟨?_, ih hqs.2, fun f hf g hg => ?_⟩
    · cases item? (.behind before) q with
      | none => exact .nil
      | some i =>
        cases i with
        | ok t => exact .nil
        | error f => exact List.pairwise_singleton _ _
    · obtain ⟨hpos, -⟩ := fault_of_item? hqs.1 (mem_item? hf)
      obtain ⟨passed, rest, -, hpos'⟩ := placed_of_mem hqs.2 hg
      -- whatever is behind the piece is behind its first character
      have hne : q.text ++ passed ≠ [] := by simp [hqs.1.ne_nil]
      rw [hpos, hpos', List.append_assoc, ← Position.after_behind]
      exact Position.before_after _ hne

end faults

/-- What counts of a text is all of it, but for one byte order mark in front. -/
theorem withoutMark_eq_iff {s cs : List Char} :
    withoutMark s = cs ↔ s = '\ufeff' :: cs ∨ s = cs ∧ s.head? ≠ some '\ufeff' := by
  cases s with
  | nil => simp [withoutMark]
  | cons c rest =>
    rw [withoutMark]
    split_ifs with hc
    · simp [hc]
    · simp [hc]

end Source

open Source in
/-- **Scanning loses nothing.** A text without faults is covered by its tokens: they are in its
order, at the positions where their characters begin, and nothing but blanks and carriage returns is
left between them. If there are faults, they are in the order of the text, each further on than the
one before and at the position where its characters begin. A byte order mark in front does not
count. -/
theorem tokenize_lossless (source : String) :
    (∀ ts, tokenize source = .ok ts → Covers [] ts (withoutMark source.toList)) ∧
    ∀ fs, tokenize source = .error fs → Faulted (withoutMark source.toList) fs := by
  have hgenuine := Piece.cut_genuine (withoutMark source.toList)
  have hstart : Position.start = .behind [] := rfl
  unfold tokenize scan
  rw [hstart]
  simp only
  constructor
  · intro ts h
    split at h
    · rename_i hfaults
      cases h
      have hcovers := coversAll hgenuine .outermost false [] (by simp) hfaults
      rwa [Piece.cut_flatten] at hcovers
    · cases h
  · intro fs h
    split at h
    · cases h
    · cases h
      refine ⟨faults_increasing hgenuine, fun f hf => ?_⟩
      obtain ⟨before, rest, htext, hpos⟩ := placed_of_mem hgenuine hf
      rw [Piece.cut_flatten] at htext
      exact ⟨before, rest, htext, by simpa using hpos⟩

/-- Two lines with characters of several bytes behind a mark, the second further in by a tab and two
spaces of which only the tab counts; and a text with two faults on different lines. Of two marks the
second is a fault. -/
theorem tokenize_lossless_wide :
    Covers []
      [⟨.text, "\"é\"", some (.text "é"), ⟨1, 1⟩⟩, ⟨.newline, "\n", none, ⟨1, 5⟩⟩,
        ⟨.indent, "\t", none, ⟨2, 1⟩⟩, ⟨.keyword .passStmt, "PASS", none, ⟨2, 4⟩⟩,
        ⟨.comment, "#é", none, ⟨2, 9⟩⟩, ⟨.dedent, "", none, ⟨2, 11⟩⟩,
        ⟨.endOfInput, "", none, ⟨2, 11⟩⟩]
      "\"é\" \r\n\t  PASS #é".toList ∧
    Faulted "é\n Ab".toList
      [⟨.unexpectedCharacter 'é', ⟨1, 1⟩⟩, ⟨.mixedCase "Ab", ⟨2, 2⟩⟩] ∧
    Faulted "\ufeff".toList [⟨.unexpectedCharacter '\ufeff', ⟨1, 1⟩⟩] :=
  ⟨(tokenize_lossless "\ufeff\"é\" \r\n\t  PASS #é").1 _ (by with_unfolding_all rfl),
    (tokenize_lossless "é\n Ab").2 _ (by with_unfolding_all rfl),
    (tokenize_lossless "\ufeff\ufeff").2 _ (by with_unfolding_all rfl)⟩

end Offside
