import Offside.Proofs.Source.Lexemes

/-!
# The scanner takes the longest match

Each piece that a text is cut into is what the lexical grammar has next there (`Piece.tail_next`),
so the scanner finds what the grammar says (`Source.found_lexed`). Layout tokens have no characters
of their own. Without them, what is found depends on the pieces alone (`Source.items_written`).
-/

namespace Offside

/-! ## The pieces of a text -/

namespace Piece

variable {p : Position} {c : Char} {cs : List Char}

theorem isGap_of_isBlank (h : isBlank c = true) : isGap c = true := by
  simp [isGap, h]

theorem next_lineBreak {w rest : List Char} (hw : w = ['\n'] ∨ w = ['\r', '\n']) :
    Next p w (Source.item? p ⟨.lineBreak, w⟩) rest := by
  refine .lexeme (.of_class (k := .lineBreak) hw (List.prefix_append _ _) fun w' h' hw' => ?_)
    .lineBreak
  rcases hw with rfl | rfl
  · rcases h' with rfl | rfl
    · exact Nat.le_refl _
    · exact absurd (List.cons_prefix_cons.mp hw').1 (by decide)
  · rcases h' with rfl | rfl <;> decide

theorem next_carriage {rest : List Char} (hrest : ∀ more, rest ≠ '\n' :: more) :
    Next p ['\r'] (Source.item? p ⟨.carriage, ['\r']⟩) rest := by
  refine .gap rfl fun k w h hw => ?_
  obtain ⟨d, ds, rfl⟩ := h.exists_cons
  obtain ⟨rfl, hds⟩ := List.cons_prefix_cons.mp hw
  obtain rfl : k = .lineBreak := h.eq_ofChar
  rcases h with h | h
  · cases h
  · cases h
    obtain ⟨more, rfl⟩ := hds
    exact hrest more rfl

theorem next_blank {rest : List Char} (hc : isBlank c = true) : Next p [c] none rest := by
  refine .gap (isGap_of_isBlank hc) fun k w h hw => ?_
  obtain ⟨d, ds, rfl⟩ := h.exists_cons
  obtain ⟨rfl, -⟩ := List.cons_prefix_cons.mp hw
  have hchar : d = ' ' ∨ d = '\t' := by simpa [isBlank] using hc
  have hclass : Lexeme.ofChar d = .operator := by rcases hchar with rfl | rfl <;> rfl
  rw [h.eq_ofChar, hclass] at h
  obtain ⟨s, hs⟩ := h
  have hall : ∀ d ∈ s.text.toList.head?, isBlank d = false := by
    cases s <;> rintro d ⟨⟩ <;> rfl
  rw [hall d (by rw [← hs]; rfl)] at hc
  cases hc

theorem next_comment :
    Next p ('#' :: (run (!endsComment ·) cs).1)
      (Source.item? p ⟨.comment, '#' :: (run (!endsComment ·) cs).1⟩)
      (run (!endsComment ·) cs).2 := by
  refine .lexeme (.of_class (k := .comment) ⟨_, rfl, fun x hx => ?_⟩ (List.prefix_append _ _)
    fun w' h' hw' => ?_) .comment
  · exact not_endsComment.mp (of_mem_run hx)
  · obtain ⟨body, rfl, hbody⟩ := h'
    rw [List.cons_append, run_append] at hw'
    have hfront := prefix_takeWhile (fun x hx => not_endsComment.mpr (hbody x hx))
      (List.cons_prefix_cons.mp hw').2
    exact Nat.succ_le_succ hfront.length_le

theorem next_quote :
    Next p ('"' :: (quoteTail cs).2.1)
      (Source.item? p ⟨(quoteTail cs).1, '"' :: (quoteTail cs).2.1⟩) (quoteTail cs).2.2 := by
  have happend := run_append (!endsQuote ·) cs
  have hall : ∀ x ∈ (run (!endsQuote ·) cs).1, x ≠ '"' ∧ x ≠ '\n' := fun x hx =>
    not_endsQuote.mp (of_mem_run hx)
  have hhead := List.head?_dropWhile_not (!endsQuote ·) cs
  have hrest : (run (!endsQuote ·) cs).2 = cs.dropWhile (!endsQuote ·) := rfl
  rw [← hrest] at hhead
  generalize hr : run (!endsQuote ·) cs = r at happend hall hhead
  obtain ⟨body, rest⟩ := r
  simp only at happend hall hhead
  by_cases hquote : ∃ more, rest = '"' :: more
  · obtain ⟨more, rfl⟩ := hquote
    rw [quoteTail_quoted hr]
    have htext : (Source.item? p ⟨.quoted, '"' :: (body ++ ['"'])⟩) =
        some (.ok ⟨.text, .ofList ('"' :: (body ++ ['"'])), some (.text (.ofList body)), p⟩) := by
      simp [Source.item?, Source.token]
    rw [htext]
    refine .lexeme (.of_class (k := .quoted) ⟨body, rfl, hall⟩ (List.prefix_append _ _)
      fun w' h' hw' => ?_) (.quoted rfl)
    obtain ⟨inner, rfl, hinner⟩ := h'
    have hcs : '"' :: (body ++ ['"']) ++ more = '"' :: cs := by simp [← happend]
    rw [hcs] at hw'
    obtain ⟨more', hrun⟩ := Lexeme.quoted_run hinner (List.cons_prefix_cons.mp hw').2
    rw [hr, Prod.mk.injEq] at hrun
    rw [hrun.1]
  · rw [quoteTail_unclosed hr fun more heq => hquote ⟨more, heq⟩]
    refine .unclosed hall fun x hx => ?_
    rw [hx] at hhead
    have hne : x ≠ '"' := by
      rintro rfl
      obtain ⟨more, hmore⟩ := List.head?_eq_some_iff.mp hx
      exact hquote ⟨more, hmore⟩
    by_contra hbreak
    have hin : (!endsQuote x) = true := not_endsQuote.mpr ⟨hne, hbreak⟩
    simp [hin] at hhead

theorem run_of_point {d : Char} {ds fs : List Char} (hds : Digits ds) (hfs : Digits fs)
    (h : ds ++ '.' :: fs <+: d :: cs) :
    ∃ es f more, ds = d :: es ∧ run Char.isDigit cs = (es, '.' :: f :: more) ∧
      f.isDigit = true ∧ fs <+: f :: more := by
  obtain ⟨e, es, rfl⟩ := List.exists_cons_of_ne_nil hds.1
  obtain ⟨f, fs, rfl⟩ := List.exists_cons_of_ne_nil hfs.1
  obtain ⟨rest, hrest⟩ := h
  simp only [List.cons_append, List.append_assoc, List.cons.injEq] at hrest
  obtain ⟨rfl, rfl⟩ := hrest
  have hall : ∀ x ∈ es, x.isDigit = true := fun x hx => hds.2 x (List.mem_cons_of_mem _ hx)
  refine ⟨es, f, fs ++ rest, rfl, run_of_boundary hall ?_, hfs.2 f List.mem_cons_self,
    List.prefix_append (f :: fs) rest⟩
  rintro x ⟨⟩
  rfl

theorem digits_run {c : Char} (hc : c.isDigit = true) (cs : List Char) :
    Digits (c :: (run Char.isDigit cs).1) := by
  refine ⟨List.cons_ne_nil _ _, List.forall_mem_cons.mpr ⟨hc, fun x hx => ?_⟩⟩
  exact of_mem_run hx

theorem length_le_run {ds : List Char} (hc : c.isDigit = true) (hds : Digits ds)
    (h : ds <+: c :: cs) : ds.length ≤ (run Char.isDigit cs).1.length + 1 := by
  have hfront := prefix_takeWhile hds.2 h
  rw [List.takeWhile_cons_of_pos hc] at hfront
  exact hfront.length_le

theorem matches_number (hc : c.isDigit = true) (cs : List Char) :
    Lexeme.number.Matches (c :: (numberTail cs).1) := by
  rcases numberTail_cases cs with hnumber | ⟨ds, d, more, hrun, hd, hnumber⟩
  · rw [hnumber]
    exact .inl (digits_run hc cs)
  · have hds := digits_run hc cs
    rw [hrun] at hds
    rw [hnumber]
    refine .inr ⟨c :: ds, (run Char.isDigit (d :: more)).1, rfl, hds, ?_⟩
    rw [run, List.takeWhile_cons_of_pos hd]
    exact digits_run hd more

theorem length_le_numberTail {w : List Char} (hc : c.isDigit = true) (hw : Lexeme.number.Matches w)
    (h : w <+: c :: cs) : w.length ≤ (numberTail cs).1.length + 1 := by
  rcases hw with hw | ⟨ds, fs, rfl, hds, hfs⟩
  · have hle := length_le_run hc hw h
    rcases numberTail_cases cs with hnumber | ⟨ds, d, more, hrun, hd, hnumber⟩
    · rw [hnumber]
      exact hle
    · simp only [hrun] at hle
      simp only [hnumber, List.length_append]
      omega
  · obtain ⟨es, f, more, rfl, hrun, hf, hfront⟩ := run_of_point hds hfs h
    have hle := (prefix_takeWhile hfs.2 hfront).length_le
    rw [numberTail_point hrun hf]
    simp only [List.length_append, List.length_cons, run]
    omega

theorem next_number (hc : c.isDigit = true) :
    Next p (c :: (numberTail cs).1) (Source.item? p ⟨.number, c :: (numberTail cs).1⟩)
      (numberTail cs).2 := by
  refine .lexeme (.of_class (k := .number) (matches_number hc cs) (List.prefix_append _ _)
    fun w' h' hw' => ?_) .number
  rw [List.cons_append, numberTail_append] at hw'
  exact length_le_numberTail hc h' hw'

theorem means_word (p : Position) (w : List Char) : Lexeme.word.Means p w (Source.word p w) := by
  unfold Source.word Source.token
  simp only
  split
  · rename_i k hk
    have htext : k.text = String.ofList w := by simpa using List.find?_some hk
    exact .reserved (by rw [htext, String.toList_ofList])
  · rename_i hnone
    have hfree : ∀ k : Keyword, w ≠ k.text.toList := by
      rintro k rfl
      rw [String.ofList_toList, Keyword.ofText?_text] at hnone
      cases hnone
    split_ifs with hlower hupper
    · exact .command hfree (by simpa using hlower)
    · exact .identifier hfree (by simpa using hlower) (by simpa using hupper)
    · exact .mixed hfree (by simpa using hlower) (by simpa using hupper)

theorem next_word (hd : c.isDigit = false) (hc : isWordChar c = true) :
    Next p (c :: (run isWordChar cs).1) (Source.item? p ⟨.word, c :: (run isWordChar cs).1⟩)
      (run isWordChar cs).2 := by
  refine .lexeme (.of_class (k := .word) ⟨c, _, rfl, hd, ?_⟩ (List.prefix_append _ _)
    fun w' h' hw' => ?_) (means_word _ _)
  · exact List.forall_mem_cons.mpr ⟨hc, fun x hx => of_mem_run hx⟩
  · obtain ⟨d, rest, rfl, -, hall⟩ := h'
    rw [List.cons_append, run_append] at hw'
    have hfront := prefix_takeWhile hall hw'
    rw [List.takeWhile_cons_of_pos hc] at hfront
    exact hfront.length_le

theorem ofText?_ne_none {w : List Char} (h : Lexeme.operator.Matches w) :
    Symbol.ofText? (.ofList w) ≠ none := by
  obtain ⟨s, rfl⟩ := h
  rw [String.ofList_toList, Symbol.ofText?_text]
  exact Option.some_ne_none s

theorem length_operator_le {w : List Char} (h : Lexeme.operator.Matches w) : w.length ≤ 2 := by
  obtain ⟨s, rfl⟩ := h
  cases s <;> decide

theorem not_operator_of_single (h : Symbol.ofText? (.ofList [c]) = none) (hc : c ≠ '!')
    (w : List Char) : ¬ Lexeme.operator.Matches (c :: w) := by
  rintro ⟨s, hs⟩
  have hall : ∀ d ∈ s.text.toList.head?, d = '!' ∨ Symbol.ofText? (.ofList [d]) ≠ none := by
    cases s <;> rintro d ⟨⟩ <;> decide
  exact (hall c (by rw [← hs]; rfl)).elim hc fun hne => hne h

theorem next_operator {s : Symbol} {w rest : List Char} (hw : w = s.text.toList)
    (hmax : ∀ w', Lexeme.operator.Matches w' → w' <+: w ++ rest → w'.length ≤ w.length) :
    Next p w (Source.item? p ⟨.symbol s, w⟩) rest :=
  .lexeme (.of_class (k := .operator) ⟨s, hw⟩ (List.prefix_append _ _) hmax) (.operator hw)

theorem next_stray {rest : List Char} (hclass : Lexeme.ofChar c = .operator)
    (hgap : isGap c = false) (hsingle : Symbol.ofText? (.ofList [c]) = none)
    (hdouble : ∀ d more, rest = d :: more → Symbol.ofText? (.ofList [c, d]) = none) :
    Next p [c] (Source.item? p ⟨.stray c, [c]⟩) rest := by
  unfold Source.item? Source.stray
  by_cases hc : c = '!'
  · subst hc
    refine .bang fun d hd => ?_
    rintro rfl
    obtain ⟨more, hmore⟩ := List.head?_eq_some_iff.mp hd
    exact absurd (hdouble '=' more hmore) (by decide)
  · simp only [if_neg hc]
    refine .stray hgap fun k w h => ?_
    rw [h.eq_ofChar, hclass] at h
    exact not_operator_of_single hsingle hc w h

theorem symbolTail_alone {s : Symbol} (hs : s.text.toList = [c])
    (hpairs : ∀ s' : Symbol, s'.text.toList.length = 2 → s'.text.toList.head? ≠ some c) :
    symbolTail c cs = (.symbol s, [], cs) := by
  have hsingle : Symbol.ofText? (.ofList [c]) = some s := by
    rw [← hs, String.ofList_toList, Symbol.ofText?_text]
  rcases symbolTail_cases c cs with
    ⟨d, rest, s', -, hdouble, -⟩ | ⟨-, ⟨s', hs', htail⟩ | ⟨hnone, -⟩⟩
  · have htext := text_of_ofText? hdouble
    exact absurd (by rw [← htext]; rfl) (hpairs s' (by rw [← htext]; rfl))
  · rw [hsingle, Option.some_inj] at hs'
    rw [htail, hs']
  · rw [hsingle] at hnone
    cases hnone

theorem next_symbol (hclass : Lexeme.ofChar c = .operator) (hgap : isGap c = false) :
    Next p (c :: (symbolTail c cs).2.1)
      (Source.item? p ⟨(symbolTail c cs).1, c :: (symbolTail c cs).2.1⟩) (symbolTail c cs).2.2 := by
  rcases symbolTail_cases c cs with ⟨d, rest, s, rfl, hs, heq⟩ | ⟨hdouble, ⟨s, hs, heq⟩ | ⟨hs, heq⟩⟩
  · rw [heq]
    exact next_operator (text_of_ofText? hs) fun w' h' _ => length_operator_le h'
  · rw [heq]
    refine next_operator (text_of_ofText? hs) fun w' h' hw' => ?_
    obtain ⟨d, ds, rfl⟩ := h'.exists_cons
    obtain ⟨rfl, hds⟩ := List.cons_prefix_cons.mp hw'
    have hle := length_operator_le h'
    cases ds with
    | nil => exact Nat.le_refl _
    | cons e es =>
      obtain rfl : es = [] := List.eq_nil_of_length_eq_zero (by simpa using hle)
      obtain ⟨more, hmore⟩ := hds
      exact absurd (hdouble e more hmore.symm) (ofText?_ne_none h')
  · rw [heq]
    exact next_stray hclass hgap hs hdouble

theorem tail_next (hc : isBlank c = false) (p : Position) (cs : List Char) :
    Next p (c :: (tail c cs).2.1) (Source.item? p ⟨(tail c cs).1, c :: (tail c cs).2.1⟩)
      (tail c cs).2.2 := by
  unfold tail
  rw [if_neg (show ¬isBlank c = true by simp [hc])]
  split_ifs with hn hr hcomment hquote hd hw
  · subst hn
    exact next_lineBreak (.inl rfl)
  · subst hr
    split
    · exact next_lineBreak (.inr rfl)
    · rename_i hrest
      exact next_carriage fun more heq => hrest more heq
  · subst hcomment
    exact next_comment
  · subst hquote
    exact next_quote
  · exact next_number hd
  · exact next_word (by simpa using hd) hw
  · have hclass : Lexeme.ofChar c = .operator := by
      simp [Lexeme.ofChar, hd, hw, hn, hr, hcomment, hquote]
    exact next_symbol hclass (by simp [isGap, hc, hr])

end Piece

namespace Source

/-- The tokens and faults of the pieces from `p` on, without those that only show the layout. -/
def found (p : Position) : List Piece → List Item
  | [] => []
  | q :: qs => (item? p q).toList ++ found (p.after q.text) qs

theorem lexed_blanks {p : Position} {w rest : List Char} {is : List Item}
    (hw : ∀ c ∈ w, Piece.isBlank c = true) (h : Lexed (p.after w) rest is) :
    Lexed p (w ++ rest) is := by
  induction w generalizing p with
  | nil => exact h
  | cons c w ih =>
    rw [List.forall_mem_cons] at hw
    exact .next (w := [c]) (i := none) rfl (Piece.next_blank hw.1) (ih hw.2 h)

/-- The scanner finds what the grammar says. -/
theorem found_lexed (p : Position) (text : List Char) :
    Lexed p text (found p (Piece.cut text)) := by
  fun_induction Piece.cut text generalizing p with
  | case1 => exact .nil
  | case2 c cs r ih =>
    have htext : c :: cs = (c :: (Piece.tail c cs).2.1) ++ (Piece.tail c cs).2.2 := by
      rw [List.cons_append, Piece.tail_append]
    cases hc : Piece.isBlank c with
    | false => exact .next htext (Piece.tail_next hc p cs) (ih _)
    | true =>
      have htail := Piece.tail_of_isBlank hc cs
      have hblanks : ∀ x ∈ c :: (Piece.tail c cs).2.1, Piece.isBlank x = true := by
        rw [htail, List.forall_mem_cons]
        exact ⟨hc, fun x hx => Piece.of_mem_run hx⟩
      have hnone : item? p ⟨(Piece.tail c cs).1, c :: (Piece.tail c cs).2.1⟩ = none := by
        rw [htail]
        rfl
      rw [htext, found, hnone]
      exact lexed_blanks hblanks (ih _)

/-! ## Layout apart -/

end Source

/-- Whether a token has characters of its own, which the indents and ends of blocks do not have. -/
def Kind.isWritten : Kind → Bool
  | .indent | .dedent | .endOfInput => false
  | _ => true

namespace Source

/-- Leaves out the tokens of other kinds. Faults stay. -/
def keeps (g : Kind → Bool) : Item → Bool
  | .ok t => g t.kind
  | .error _ => true

theorem isWritten_of_isCode {k : Kind} (h : k.isCode = true) : k.isWritten = true := by
  revert h
  cases k <;> simp [Kind.isCode, Kind.isWritten]

theorem item?_written {p : Position} {q : Piece} {i : Item} (h : item? p q = some i) :
    keeps Kind.isWritten i = true := by
  cases i with
  | error f => rfl
  | ok t =>
    show t.kind.isWritten = true
    rcases kind_of_item?_eq_some h with ⟨-, hk⟩ | ⟨-, hk⟩ | ⟨-, -, hk⟩
    · rw [hk]
      rfl
    · rw [hk]
      rfl
    · exact isWritten_of_isCode hk

theorem startLine_written (m : Margin) (p : Position) (q : Piece) (qs : List Piece) :
    ((m.startLine p (q :: qs)).2.map Except.ok : List Item).filter (keeps Kind.isWritten) = [] := by
  rw [List.filter_eq_nil_iff]
  intro i hi
  obtain ⟨t, ht, rfl⟩ := List.mem_map.mp hi
  rcases startLine_cases m p q qs with ⟨-, hts⟩ | ⟨w, u, -, hts, hk, -⟩ | ⟨w, -, hts⟩
  · rw [hts] at ht
    cases ht
  · rw [hts, List.mem_singleton] at ht
    simp [ht, keeps, hk, Kind.isWritten]
  · rw [hts, List.mem_map] at ht
    obtain ⟨_, -, rfl⟩ := ht
    simp [keeps, Margin.dedent, Kind.isWritten]

/-- Without layout, what the scanner finds does not depend on the margin. -/
theorem items_written (m : Margin) (atStart : Bool) (p : Position) (qs : List Piece) :
    (items m atStart p qs).filter (keeps Kind.isWritten) = found p qs := by
  induction qs generalizing m atStart p with
  | nil =>
    rw [items, found, List.filter_eq_nil_iff]
    intro i hi
    rcases List.mem_append.mp hi with hi | hi
    · obtain ⟨t, ht, rfl⟩ := List.mem_map.mp hi
      rw [Margin.closeTo, List.mem_map] at ht
      obtain ⟨_, -, rfl⟩ := ht
      simp [keeps, Margin.dedent, Kind.isWritten]
    · rw [List.mem_singleton] at hi
      simp [hi, keeps, Kind.isWritten]
  | cons q qs ih =>
    have hfrom : ∀ m, (itemsFrom m p q qs).filter (keeps Kind.isWritten) = found p (q :: qs) := by
      intro m
      rw [itemsFrom, List.filter_append, ih, found, List.filter_eq_self.mpr]
      exact fun i hi => item?_written (Option.mem_toList.mp hi)
    cases atStart with
    | false => exact hfrom m
    | true => rw [items_atStart, List.filter_append, startLine_written, List.nil_append, hfrom]

def faultsOf (is : List Item) : List Fault := is.filterMap fault?

theorem faultsOf_keeps (g : Kind → Bool) (is : List Item) :
    faultsOf (is.filter (keeps g)) = faultsOf is := by
  induction is with
  | nil => rfl
  | cons i is ih =>
    cases i with
    | error f => exact congrArg (f :: ·) ih
    | ok t =>
      rw [List.filter_cons]
      split
      · exact ih
      · exact ih

theorem tokensOf_keeps (g : Kind → Bool) (is : List Item) :
    tokensOf (is.filter (keeps g)) = (tokensOf is).filter (g ·.kind) := by
  induction is with
  | nil => rfl
  | cons i is ih =>
    cases i with
    | error f => exact ih
    | ok t =>
      have hcons : tokensOf (.ok t :: is) = t :: tokensOf is := rfl
      rw [hcons, List.filter_cons, List.filter_cons, ← ih]
      show tokensOf (if g t.kind = true then _ else _) = _
      split
      · rfl
      · rfl

theorem map_tokensOf {is : List Item} (h : faultsOf is = []) : (tokensOf is).map .ok = is := by
  induction is with
  | nil => rfl
  | cons i is ih =>
    cases i with
    | error f => cases h
    | ok t => exact congrArg (.ok t :: ·) (ih h)

theorem mem_faultsOf {is : List Item} {f : Fault} : f ∈ faultsOf is ↔ .error f ∈ is := by
  unfold faultsOf
  rw [List.mem_filterMap]
  constructor
  · rintro ⟨i, hi, hf⟩
    cases i with
    | ok t => cases hf
    | error g =>
      cases hf
      exact hi
  · exact fun h => ⟨_, h, rfl⟩

end Source

open Source

theorem tokenize_eq_ok {source : String} {ts : List Token} :
    tokenize source = .ok ts ↔
      faultsOf (scan source.toList) = [] ∧ tokensOf (scan source.toList) = ts := by
  unfold tokenize faultsOf tokensOf
  simp only
  cases (scan source.toList).filterMap fault? with
  | nil => simp
  | cons f fs => simp

theorem tokenize_eq_error {source : String} {fs : List Fault} :
    tokenize source = .error fs ↔ fs ≠ [] ∧ faultsOf (scan source.toList) = fs := by
  unfold tokenize faultsOf
  simp only
  cases (scan source.toList).filterMap fault? with
  | nil =>
    simp only [reduceCtorEq, false_iff, not_and]
    exact fun hne heq => hne heq.symm
  | cons f fs' =>
    simp only [Except.error.injEq, ne_eq]
    exact ⟨fun h => ⟨by simp [← h], h⟩, fun h => h.2⟩

/-- **The longest match.** The grammar allows one list of tokens and faults for a source text, and
that is what the scanner finds: if there are no faults in it, its tokens with the layout tokens
among them, and otherwise all its faults and nothing else. A byte order mark in front does not
count. -/
theorem tokenize_longest (source : String) :
    ∃ is, (∀ js, Lexed .start (withoutMark source.toList) js ↔ js = is) ∧
      ((∃ fs, tokenize source = .error fs) ↔ ∃ f, .error f ∈ is) ∧
      (∀ fs, tokenize source = .error fs → fs = faultsOf is) ∧
      ∀ ts, tokenize source = .ok ts → is = (ts.filter (·.kind.isWritten)).map .ok := by
  have hlexed := found_lexed .start (withoutMark source.toList)
  have hwritten : (scan source.toList).filter (keeps Kind.isWritten) = _ :=
    items_written .outermost false .start _
  rw [← hwritten] at hlexed
  have hfaults := faultsOf_keeps Kind.isWritten (scan source.toList)
  refine ⟨_, fun js => ⟨fun h => h.unique hlexed, fun h => h ▸ hlexed⟩, ⟨?_, ?_⟩, ?_, ?_⟩
  · rintro ⟨fs, h⟩
    obtain ⟨hne, rfl⟩ := tokenize_eq_error.mp h
    obtain ⟨f, hf⟩ := List.exists_mem_of_ne_nil _ hne
    rw [← hfaults] at hf
    exact ⟨f, mem_faultsOf.mp hf⟩
  · rintro ⟨f, hf⟩
    have hmem := mem_faultsOf.mpr hf
    rw [hfaults] at hmem
    exact ⟨_, tokenize_eq_error.mpr ⟨List.ne_nil_of_mem hmem, rfl⟩⟩
  · intro fs h
    rw [hfaults]
    exact (tokenize_eq_error.mp h).2.symm
  · intro ts h
    obtain ⟨hnone, rfl⟩ := tokenize_eq_ok.mp h
    rw [← tokensOf_keeps, map_tokensOf (hfaults.trans hnone)]

/-- Two stars are one operator and the mark in front is nothing; a name of mixed case is a fault,
and does not end where its case changes. -/
theorem tokenize_longest_stars :
    (∀ js, Lexed .start "x**y".toList js ↔
      js = [.ok ⟨.identifier, "x", some (.text "x"), ⟨1, 1⟩⟩,
        .ok ⟨.symbol .starStar, "**", none, ⟨1, 2⟩⟩,
        .ok ⟨.identifier, "y", some (.text "y"), ⟨1, 4⟩⟩]) ∧
    ∃ is, (∀ js, Lexed .start "Ab*é".toList js ↔ js = is) ∧
      faultsOf is = [⟨.mixedCase "Ab", ⟨1, 1⟩⟩, ⟨.unexpectedCharacter 'é', ⟨1, 4⟩⟩] := by
  obtain ⟨is, hlexed, -, -, htokens⟩ := tokenize_longest "\ufeffx**y"
  obtain ⟨is', hlexed', -, hfaults, -⟩ := tokenize_longest "Ab*é"
  have hstars : tokenize "\ufeffx**y" = .ok [⟨.identifier, "x", some (.text "x"), ⟨1, 1⟩⟩,
      ⟨.symbol .starStar, "**", none, ⟨1, 2⟩⟩, ⟨.identifier, "y", some (.text "y"), ⟨1, 4⟩⟩,
      ⟨.endOfInput, "", none, ⟨1, 5⟩⟩] := by with_unfolding_all rfl
  have hfaulty : tokenize "Ab*é" = .error
      [⟨.mixedCase "Ab", ⟨1, 1⟩⟩, ⟨.unexpectedCharacter 'é', ⟨1, 4⟩⟩] := by with_unfolding_all rfl
  refine ⟨?_, is', hlexed', (hfaults _ hfaulty).symm⟩
  rw [htokens _ hstars] at hlexed
  exact hlexed

end Offside
