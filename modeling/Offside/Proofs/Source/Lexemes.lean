import Offside.Proofs.Source.Lines

/-!
# The lexical grammar

A source text is read from left to right. What comes next is the longest lexeme of any class
(`Lexeme.Longest`), a blank or carriage return between lexemes, or something that is no lexeme: a
quote that is not closed, an exclamation mark alone, or a character that begins no lexeme at all
(`Next`). `Lexed` follows this to the end of the text and lists the tokens and faults on the way.

Nothing here mentions the scanner. The grammar leaves no choice: a text has one list of tokens and
faults (`Lexed.unique`).
-/

namespace Offside

/-! ## Lexemes -/

/-- The classes of lexemes. -/
inductive Lexeme
  | lineBreak
  | comment
  | quoted
  | number
  | word
  | operator
deriving DecidableEq, Repr

def Digits (w : List Char) : Prop := w ≠ [] ∧ ∀ c ∈ w, c.isDigit = true

namespace Lexeme

/-- The characters are a lexeme of the class. A number may go on with a point if digits are behind
it. What begins with a digit is no word. -/
def Matches : Lexeme → List Char → Prop
  | lineBreak, w => w = ['\n'] ∨ w = ['\r', '\n']
  | comment, w => ∃ body, w = '#' :: body ∧ ∀ c ∈ body, c ≠ '\n' ∧ c ≠ '\r'
  | quoted, w => ∃ body, w = '"' :: (body ++ ['"']) ∧ ∀ c ∈ body, c ≠ '"' ∧ c ≠ '\n'
  | number, w => Digits w ∨ ∃ ds fs, w = ds ++ '.' :: fs ∧ Digits ds ∧ Digits fs
  | word, w => ∃ c rest, w = c :: rest ∧ c.isDigit = false ∧ ∀ x ∈ w, Piece.isWordChar x = true
  | operator, w => ∃ s : Symbol, w = s.text.toList

/-- The characters `w` are a lexeme at the beginning of `text`, and no lexeme there is longer. -/
structure Longest (k : Lexeme) (w text : List Char) : Prop where
  fits : k.Matches w
  ahead : w <+: text
  longest : ∀ k' w', Matches k' w' → w' <+: text → w'.length ≤ w.length

/-- What a lexeme at `p` is. All are tokens but words that are not reserved and have letters of both
cases. -/
inductive Means (p : Position) (w : List Char) : Lexeme → Source.Item → Prop
  | lineBreak : Means p w .lineBreak (.ok ⟨.newline, "\n", none, p⟩)
  | comment : Means p w .comment (.ok ⟨.comment, .ofList w, none, p⟩)
  | quoted {body} (hw : w = '"' :: (body ++ ['"'])) :
      Means p w .quoted (.ok ⟨.text, .ofList w, some (.text (.ofList body)), p⟩)
  | number : Means p w .number (.ok ⟨.number, .ofList w, some (.number (Source.number w)), p⟩)
  | operator {s : Symbol} (hw : w = s.text.toList) :
      Means p w .operator (.ok ⟨.symbol s, .ofList w, none, p⟩)
  | reserved {k : Keyword} (hw : w = k.text.toList) :
      Means p w .word (.ok ⟨.keyword k, .ofList w, none, p⟩)
  | command (hfree : ∀ k : Keyword, w ≠ k.text.toList) (hlower : ∀ c ∈ w, c.isLower = false) :
      Means p w .word (.ok ⟨.command, .ofList w, some (.text (.ofList w)), p⟩)
  | identifier (hfree : ∀ k : Keyword, w ≠ k.text.toList) (hlower : ∃ c ∈ w, c.isLower = true)
      (hupper : ∀ c ∈ w, c.isUpper = false) :
      Means p w .word (.ok ⟨.identifier, .ofList w, some (.text (.ofList w)), p⟩)
  | mixed (hfree : ∀ k : Keyword, w ≠ k.text.toList) (hlower : ∃ c ∈ w, c.isLower = true)
      (hupper : ∃ c ∈ w, c.isUpper = true) : Means p w .word (.error ⟨.mixedCase (.ofList w), p⟩)

end Lexeme

/-- What comes next at `p` in front of `rest`: its characters and, unless they are between lexemes,
the token or fault that they are. -/
inductive Next (p : Position) : List Char → Option Source.Item → List Char → Prop
  | lexeme {k w i rest} (hw : Lexeme.Longest k w (w ++ rest)) (hi : Lexeme.Means p w k i) :
      Next p w (some i) rest
  | gap {c rest} (hc : isGap c = true) (hnone : ∀ k w, Lexeme.Matches k w → ¬ w <+: c :: rest) :
      Next p [c] none rest
  | unclosed {body rest} (hbody : ∀ c ∈ body, c ≠ '"' ∧ c ≠ '\n')
      (hrest : ∀ c ∈ rest.head?, c = '\n') :
      Next p ('"' :: body) (some (.error ⟨.unterminatedText, p⟩)) rest
  | bang {rest} (hrest : ∀ c ∈ rest.head?, c ≠ '=') :
      Next p ['!'] (some (.error ⟨.invalidOperator "!", p⟩)) rest
  | stray {c rest} (hc : isGap c = false) (hnone : ∀ k w, ¬ Lexeme.Matches k (c :: w)) :
      Next p [c] (some (.error ⟨.unexpectedCharacter c, p⟩)) rest

/-- The tokens and faults of a text that begins at `p`. -/
inductive Lexed : Position → List Char → List Source.Item → Prop
  | nil {p} : Lexed p [] []
  | next {p text w i rest is} (htext : text = w ++ rest) (hw : Next p w i rest)
      (h : Lexed (p.after w) rest is) : Lexed p text (i.toList ++ is)

/-! ## The grammar leaves no choice -/

theorem Keyword.ofText?_text (k : Keyword) : Keyword.ofText? k.text = some k := by
  cases k <;> decide

theorem Symbol.ofText?_text (s : Symbol) : Symbol.ofText? s.text = some s := by
  cases s <;> decide

theorem Keyword.text_injective {k k' : Keyword} (h : k.text.toList = k'.text.toList) : k = k' := by
  have htext : k.text = k'.text := String.toList_injective h
  rw [← Option.some_inj, ← ofText?_text k, htext, ofText?_text]

theorem Symbol.text_injective {s s' : Symbol} (h : s.text.toList = s'.text.toList) : s = s' := by
  have htext : s.text = s'.text := String.toList_injective h
  rw [← Option.some_inj, ← ofText?_text s, htext, ofText?_text]

theorem prefix_takeWhile {p : Char → Bool} {w cs : List Char} (hw : ∀ c ∈ w, p c = true)
    (h : w <+: cs) : w <+: cs.takeWhile p := by
  obtain ⟨rest, rfl⟩ := h
  rw [List.takeWhile_append_of_pos hw]
  exact List.prefix_append _ _

theorem not_endsQuote {c : Char} : (!Piece.endsQuote c) = true ↔ c ≠ '"' ∧ c ≠ '\n' := by
  simp [Piece.endsQuote]

theorem not_endsComment {c : Char} : (!Piece.endsComment c) = true ↔ c ≠ '\n' ∧ c ≠ '\r' := by
  simp [Piece.endsComment]

namespace Lexeme

/-- The class of the lexemes that begin with a character, if any do. -/
def ofChar (c : Char) : Lexeme :=
  if c.isDigit then .number
  else if Piece.isWordChar c then .word
  else if c = '\n' ∨ c = '\r' then .lineBreak
  else if c = '#' then .comment
  else if c = '"' then .quoted
  else .operator

theorem Matches.exists_cons {k : Lexeme} {w : List Char} (h : k.Matches w) :
    ∃ c rest, w = c :: rest := by
  apply List.exists_cons_of_ne_nil
  rintro rfl
  cases k with
  | lineBreak => simp [Matches] at h
  | comment => simp [Matches] at h
  | quoted => simp [Matches] at h
  | number => simp [Matches, Digits] at h
  | word => simp [Matches] at h
  | operator =>
    obtain ⟨s, hs⟩ := h
    revert hs
    cases s <;> decide

theorem Matches.eq_ofChar {k : Lexeme} {c : Char} {w : List Char} (h : k.Matches (c :: w)) :
    k = ofChar c := by
  cases k with
  | lineBreak =>
    rcases h with h | h
    · cases h
      rfl
    · cases h
      rfl
  | comment =>
    obtain ⟨body, hw, -⟩ := h
    cases hw
    rfl
  | quoted =>
    obtain ⟨body, hw, -⟩ := h
    cases hw
    rfl
  | number =>
    have hc : c.isDigit = true := by
      rcases h with h | ⟨ds, fs, hw, ⟨hne, hds⟩, -⟩
      · exact h.2 c List.mem_cons_self
      · obtain ⟨d, ds, rfl⟩ := List.exists_cons_of_ne_nil hne
        cases hw
        exact hds c List.mem_cons_self
    rw [ofChar, if_pos hc]
  | word =>
    obtain ⟨d, rest, hw, hd, hall⟩ := h
    have hc := hall c List.mem_cons_self
    cases hw
    rw [ofChar, if_neg (by simp [hd]), if_pos hc]
  | operator =>
    obtain ⟨s, hs⟩ := h
    have hhead : s.text.toList.head? = some c := by rw [← hs]; rfl
    have hall : ∀ d ∈ s.text.toList.head?, ofChar d = .operator := by
      cases s <;> rintro d ⟨⟩ <;> rfl
    exact (hall c hhead).symm

theorem Matches.class_eq {k k' : Lexeme} {w w' text : List Char} (h : k.Matches w)
    (hw : w <+: text) (h' : k'.Matches w') (hw' : w' <+: text) : k = k' := by
  obtain ⟨c, rest, rfl⟩ := h.exists_cons
  obtain ⟨c', rest', rfl⟩ := h'.exists_cons
  have hc : c = c' := by
    obtain ⟨u, rfl⟩ := hw
    exact (List.cons_prefix_cons.mp hw').1.symm
  rw [h.eq_ofChar, h'.eq_ofChar, hc]

/-- It is enough to compare with lexemes of the same class. -/
theorem Longest.of_class {k : Lexeme} {w text : List Char} (hfits : k.Matches w)
    (hahead : w <+: text) (hmax : ∀ w', k.Matches w' → w' <+: text → w'.length ≤ w.length) :
    k.Longest w text := by
  refine ⟨hfits, hahead, fun k' w' h' hw' => ?_⟩
  obtain rfl := hfits.class_eq hahead h' hw'
  exact hmax w' h' hw'

theorem Longest.eq {k k' : Lexeme} {w w' text : List Char} (h : k.Longest w text)
    (h' : k'.Longest w' text) : w = w' ∧ k = k' := by
  have hlength : w.length = w'.length :=
    Nat.le_antisymm (h'.longest k w h.fits h.ahead) (h.longest k' w' h'.fits h'.ahead)
  have hfront := List.prefix_of_prefix_length_le h.ahead h'.ahead (Nat.le_of_eq hlength)
  exact ⟨hfront.eq_of_length hlength, h.fits.class_eq h.ahead h'.fits h'.ahead⟩

theorem Means.unique {p : Position} {w : List Char} {k : Lexeme} {i j : Source.Item}
    (hi : k.Means p w i) (hj : k.Means p w j) : i = j := by
  cases hi with
  | lineBreak | comment | number =>
    cases hj
    rfl
  | quoted hw =>
    cases hj with
    | quoted hw' =>
      rw [hw, List.cons.injEq, List.append_cancel_right_eq] at hw'
      rw [hw'.2]
  | operator hw =>
    cases hj with
    | operator hw' => rw [Symbol.text_injective (hw.symm.trans hw')]
  | reserved hw =>
    cases hj with
    | reserved hw' => rw [Keyword.text_injective (hw.symm.trans hw')]
    | command hfree | identifier hfree | mixed hfree => exact absurd hw (hfree _)
  | command hfree hlower =>
    cases hj with
    | reserved hw' => exact absurd hw' (hfree _)
    | command => rfl
    | identifier _ hlower' | mixed _ hlower' =>
      obtain ⟨c, hc, htrue⟩ := hlower'
      simp [hlower c hc] at htrue
  | identifier hfree hlower hupper =>
    cases hj with
    | reserved hw' => exact absurd hw' (hfree _)
    | command _ hlower' =>
      obtain ⟨c, hc, htrue⟩ := hlower
      simp [hlower' c hc] at htrue
    | identifier => rfl
    | mixed _ _ hupper' =>
      obtain ⟨c, hc, htrue⟩ := hupper'
      simp [hupper c hc] at htrue
  | mixed hfree hlower hupper =>
    cases hj with
    | reserved hw' => exact absurd hw' (hfree _)
    | command _ hlower' =>
      obtain ⟨c, hc, htrue⟩ := hlower
      simp [hlower' c hc] at htrue
    | identifier _ _ hupper' =>
      obtain ⟨c, hc, htrue⟩ := hupper
      simp [hupper' c hc] at htrue
    | mixed => rfl

theorem quoted_run {body cs : List Char} (hbody : ∀ c ∈ body, c ≠ '"' ∧ c ≠ '\n')
    (h : body ++ ['"'] <+: cs) :
    ∃ rest, Piece.run (!Piece.endsQuote ·) cs = (body, '"' :: rest) := by
  obtain ⟨rest, rfl⟩ := h
  rw [List.append_assoc, List.singleton_append]
  have hall : ∀ c ∈ body, (!Piece.endsQuote c) = true := fun c hc => not_endsQuote.mpr (hbody c hc)
  refine ⟨rest, Prod.ext (takeWhile_eq_of_boundary hall ?_) ?_⟩
  · rintro c ⟨⟩
    rfl
  · rw [Piece.run, List.dropWhile_append_of_pos hall]
    rfl

end Lexeme

namespace Next

variable {p : Position} {w w' rest rest' : List Char} {i i' : Option Source.Item}

theorem ne_nil (h : Next p w i rest) : w ≠ [] := by
  cases h with
  | lexeme hw hi =>
    obtain ⟨c, rest, rfl⟩ := hw.fits.exists_cons
    exact List.cons_ne_nil c rest
  | gap | unclosed | bang | stray => exact List.cons_ne_nil _ _

theorem no_lexeme_unclosed {body rest : List Char} (hbody : ∀ c ∈ body, c ≠ '"' ∧ c ≠ '\n')
    (hrest : ∀ c ∈ rest.head?, c = '\n') (k : Lexeme) (w : List Char) (h : k.Matches w) :
    ¬ w <+: '"' :: (body ++ rest) := by
  intro hw
  obtain ⟨c, cs, rfl⟩ := h.exists_cons
  obtain ⟨rfl, hcs⟩ := List.cons_prefix_cons.mp hw
  obtain rfl : k = .quoted := h.eq_ofChar
  obtain ⟨inner, heq, hinner⟩ := h
  cases heq
  -- the run of characters that do not end a quoted text is the same, read either way
  obtain ⟨more, hrun⟩ := Lexeme.quoted_run hinner hcs
  have hall : ∀ c ∈ body, (!Piece.endsQuote c) = true := fun c hc => not_endsQuote.mpr (hbody c hc)
  have hdrop : (body ++ rest).dropWhile (!Piece.endsQuote ·) = rest := by
    rw [List.dropWhile_append_of_pos hall]
    cases rest with
    | nil => rfl
    | cons d rest => rw [List.dropWhile_cons_of_neg (by rw [hrest d rfl]; decide)]
  have hquote : rest = '"' :: more := hdrop.symm.trans (congrArg Prod.snd hrun)
  have hbreak := hrest '"' (by rw [hquote]; rfl)
  exact absurd hbreak (by decide)

theorem no_lexeme_bang {rest : List Char} (hrest : ∀ c ∈ rest.head?, c ≠ '=') (k : Lexeme)
    (w : List Char) (h : k.Matches w) : ¬ w <+: '!' :: rest := by
  intro hw
  obtain ⟨c, cs, rfl⟩ := h.exists_cons
  obtain ⟨rfl, hcs⟩ := List.cons_prefix_cons.mp hw
  obtain rfl : k = .operator := h.eq_ofChar
  obtain ⟨s, hs⟩ := h
  have hall : ∀ s : Symbol, s.text.toList.head? = some '!' → s.text.toList = ['!', '='] := by
    intro s
    cases s <;> decide
  have htext := hall s (by rw [← hs]; rfl)
  rw [htext] at hs
  cases hs
  obtain ⟨more, rfl⟩ := hcs
  exact hrest '=' rfl rfl

theorem no_lexeme_stray {c : Char} {rest : List Char} (hnone : ∀ k w, ¬ Lexeme.Matches k (c :: w))
    (k : Lexeme) (w : List Char) (h : k.Matches w) : ¬ w <+: c :: rest := by
  intro hw
  obtain ⟨d, ds, rfl⟩ := h.exists_cons
  obtain ⟨rfl, -⟩ := List.cons_prefix_cons.mp hw
  exact hnone k ds h

theorem lexeme_or_none (h : Next p w i rest) :
    (∃ k j, Lexeme.Longest k w (w ++ rest) ∧ Lexeme.Means p w k j ∧ i = some j) ∨
      ∀ k v, Lexeme.Matches k v → ¬ v <+: w ++ rest := by
  cases h with
  | lexeme hw hi => exact .inl ⟨_, _, hw, hi, rfl⟩
  | gap hc hnone => exact .inr hnone
  | unclosed hbody hrest => exact .inr (no_lexeme_unclosed hbody hrest)
  | bang hrest => exact .inr (no_lexeme_bang hrest)
  | stray hc hnone => exact .inr (no_lexeme_stray hnone)

theorem matches_quotes : Lexeme.quoted.Matches ['"', '"'] := ⟨[], rfl, by simp⟩

theorem matches_bangEqual : Lexeme.operator.Matches ['!', '='] := ⟨.bangEqual, rfl⟩

theorem unique_of_none (h : Next p w i rest) (h' : Next p w' i' rest')
    (heq : w ++ rest = w' ++ rest') (hnone : ∀ k v, Lexeme.Matches k v → ¬ v <+: w ++ rest) :
    w = w' ∧ i = i' := by
  have hnone' : ∀ k v, Lexeme.Matches k v → ¬ v <+: w' ++ rest' := heq ▸ hnone
  cases h with
  | lexeme hw hi => exact absurd hw.ahead (hnone _ _ hw.fits)
  | gap hc =>
    cases h' with
    | lexeme hw hi => exact absurd hw.ahead (hnone' _ _ hw.fits)
    | gap hc' => exact ⟨by rw [(List.cons.inj heq).1], rfl⟩
    | unclosed hbody => rw [(List.cons.inj heq).1] at hc; cases hc
    | bang hrest => rw [(List.cons.inj heq).1] at hc; cases hc
    | stray hc' => rw [(List.cons.inj heq).1, hc'] at hc; cases hc
  | unclosed hbody hrest =>
    cases h' with
    | lexeme hw hi => exact absurd hw.ahead (hnone' _ _ hw.fits)
    | gap hc' => rw [← (List.cons.inj heq).1] at hc'; cases hc'
    | unclosed hbody' hrest' =>
      have hrun : ∀ {body rest : List Char}, (∀ c ∈ body, c ≠ '"' ∧ c ≠ '\n') →
          (∀ c ∈ rest.head?, c = '\n') → (body ++ rest).takeWhile (!Piece.endsQuote ·) = body := by
        intro body rest hbody hrest
        refine takeWhile_eq_of_boundary (fun c hc => not_endsQuote.mpr (hbody c hc)) fun c hc => ?_
        rw [hrest c hc]
        decide
      have hsame := congrArg (List.takeWhile (!Piece.endsQuote ·)) (List.cons.inj heq).2
      rw [← hrun hbody hrest, ← hrun hbody' hrest']
      exact ⟨congrArg _ hsame, rfl⟩
    | bang => exact absurd (List.cons.inj heq).1 (by decide)
    | stray hc' hstray => exact absurd ((List.cons.inj heq).1 ▸ matches_quotes) (hstray _ _)
  | bang hrest =>
    cases h' with
    | lexeme hw hi => exact absurd hw.ahead (hnone' _ _ hw.fits)
    | gap hc' => rw [← (List.cons.inj heq).1] at hc'; cases hc'
    | unclosed => exact absurd (List.cons.inj heq).1 (by decide)
    | bang => exact ⟨rfl, rfl⟩
    | stray hc' hstray => exact absurd ((List.cons.inj heq).1 ▸ matches_bangEqual) (hstray _ _)
  | stray hc hstray =>
    cases h' with
    | lexeme hw hi => exact absurd hw.ahead (hnone' _ _ hw.fits)
    | gap hc' => rw [← (List.cons.inj heq).1, hc] at hc'; cases hc'
    | unclosed => exact absurd ((List.cons.inj heq).1 ▸ matches_quotes) (hstray _ _)
    | bang => exact absurd ((List.cons.inj heq).1 ▸ matches_bangEqual) (hstray _ _)
    | stray hc' => rw [(List.cons.inj heq).1]; exact ⟨rfl, rfl⟩

theorem unique (h : Next p w i rest) (h' : Next p w' i' rest') (heq : w ++ rest = w' ++ rest') :
    w = w' ∧ i = i' ∧ rest = rest' := by
  have hsame : w = w' ∧ i = i' := by
    rcases h.lexeme_or_none with ⟨k, j, hw, hj, hi⟩ | hnone
    · rcases h'.lexeme_or_none with ⟨k', j', hw', hj', hi'⟩ | hnone'
      · rw [heq] at hw
        obtain ⟨rfl, rfl⟩ := hw.eq hw'
        rw [hi, hi', hj.unique hj']
        exact ⟨rfl, rfl⟩
      · exact absurd (heq ▸ hw.ahead) (hnone' k w hw.fits)
    · exact h.unique_of_none h' heq hnone
  obtain ⟨rfl, rfl⟩ := hsame
  exact ⟨rfl, rfl, List.append_cancel_left heq⟩

end Next

/-- A text has one list of tokens and faults. -/
theorem Lexed.unique {p : Position} {text : List Char} {is js : List Source.Item}
    (h : Lexed p text is) (h' : Lexed p text js) : is = js := by
  induction h generalizing js with
  | nil =>
    cases h' with
    | nil => rfl
    | next htext hw => exact absurd (List.append_eq_nil_iff.mp htext.symm).1 hw.ne_nil
  | next htext hw h ih =>
    cases h' with
    | nil => exact absurd (List.append_eq_nil_iff.mp htext.symm).1 hw.ne_nil
    | next htext' hw' h' =>
      obtain ⟨rfl, rfl, rfl⟩ := hw.unique hw' (htext.symm.trans htext')
      rw [ih h']

end Offside
