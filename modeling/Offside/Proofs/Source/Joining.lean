import Offside.Proofs.Source.Lines

/-!
# One text behind another

Behind some whole lines, the scanner finds in a text what it finds in the text alone, further down
(`Source.items_join`, `Source.items_down`), but for two things that depend on the lines before. The
blank that indentation is counted in may have been fixed already, which makes no difference if the
same blank is used throughout. And blocks that the lines before have left open end at the first line
with code, behind the blank lines and comments in front of it (`Source.items_prelude`).

`Source.Joinable` says when one text can be put behind another, and `Source.Joinable.scan_append`
what the scanner then finds.
-/

namespace Offside

/-! ## Further down -/

namespace Position

def down (k : Nat) (p : Position) : Position := ⟨p.line + k, p.column⟩

theorem next_down (k : Nat) (p : Position) (c : Char) : (p.down k).next c = (p.next c).down k := by
  unfold next down
  split_ifs
  · rw [Nat.add_right_comm]
  · rfl

theorem after_down (k : Nat) (p : Position) (cs : List Char) :
    (p.down k).after cs = (p.after cs).down k := by
  induction cs generalizing p with
  | nil => rfl
  | cons c cs ih => rw [after_cons, after_cons, next_down, ih]

theorem behind_of_wholeLines {cs : List Char} (h : WholeLines cs) :
    behind cs = start.down (cs.count '\n') := by
  have hline : cs.reverse.takeWhile (· != '\n') = [] := by
    cases hlast : cs.getLast? with
    | none => simp [List.getLast?_eq_none_iff.mp hlast]
    | some c =>
      obtain ⟨ds, rfl⟩ := List.getLast?_eq_some_iff.mp hlast
      simp [h c hlast]
  unfold behind
  rw [hline]
  rfl

end Position

def Token.move (f : Position → Position) (t : Token) : Token := { t with pos := f t.pos }

/-- Indentation is counted in the blank `b`, if this has been fixed. -/
def Counted (b : Char) (u : Option Char) : Prop := ∀ c ∈ u, c = b

/-- A margin of a text that is indented with the blank `b`. -/
structure Margin.Fair (b : Char) (m : Margin) : Prop where
  counted : Counted b m.unit
  positive : ∀ w ∈ m.widths, 0 < w

theorem Margin.Fair.closeTo {b : Char} {m : Margin} (h : m.Fair b) (p : Position) :
    m.closeTo 0 p = (⟨[], m.unit⟩, m.widths.map fun _ => dedent p) := by
  have hall : m.widths.takeWhile (0 < ·) = m.widths := by
    rw [List.takeWhile_eq_self_iff]
    simpa using h.positive
  have hnone : m.widths.dropWhile (0 < ·) = [] := by
    rw [List.dropWhile_eq_nil_iff]
    simpa using h.positive
  unfold Margin.closeTo
  rw [hall, hnone]

namespace Source

def moveItem (f : Position → Position) : Item → Item
  | .ok t => .ok (t.move f)
  | .error e => .error ⟨e.cause, f e.pos⟩

theorem item?_move (f : Position → Position) (p : Position) (q : Piece) :
    item? (f p) q = (item? p q).map (moveItem f) := by
  unfold item? token
  cases q.shape with
  | word =>
    unfold word token
    simp only
    split
    · rfl
    · split_ifs <;> rfl
  | stray c =>
    unfold stray
    simp only
    split_ifs <;> rfl
  | blanks => rfl
  | carriage => rfl
  | lineBreak => rfl
  | comment => rfl
  | quoted => rfl
  | unclosed => rfl
  | number => rfl
  | symbol s => rfl

theorem tokensOf_move (f : Position → Position) (is : List Item) :
    tokensOf (is.map (moveItem f)) = (tokensOf is).map (Token.move f) := by
  induction is with
  | nil => rfl
  | cons i is ih =>
    cases i with
    | ok t => exact congrArg (t.move f :: ·) ih
    | error e => exact ih

theorem faultless_move (f : Position → Position) {is : List Item} (h : Faultless is) :
    Faultless (is.map (moveItem f)) := by
  induction is with
  | nil => exact h
  | cons i is ih =>
    cases i with
    | ok t => exact ih h
    | error e => cases h

section down

variable {b : Char} {m m' : Margin}

theorem counted_unitAfter (hm : Counted b m.unit) {text : List Char} (h : ∀ c ∈ text, c = b) :
    Counted b (m.unitAfter text) := by
  unfold Margin.unitAfter
  cases hu : m.unit with
  | some c =>
    rw [hu] at hm
    exact hm
  | none => exact fun c hc => h c (List.mem_of_head? hc)

/-- It makes no difference whether the blank has been fixed. -/
theorem measured_unitAfter (hm : Counted b m.unit) {text : List Char} (h : ∀ c ∈ text, c = b) :
    Margin.measured ((m.unitAfter text).getD ' ') text = Margin.measured b text := by
  cases text with
  | nil => rfl
  | cons c cs =>
    have hunit : (m.unitAfter (c :: cs)).getD ' ' = b := by
      unfold Margin.unitAfter
      cases hu : m.unit with
      | some d => exact hm d hu
      | none => exact h c List.mem_cons_self
    rw [hunit]

variable (p : Position) (q : Piece) (qs : List Piece)

theorem startLine_counted (hm : Counted b m.unit)
    (hq : q.shape = .blanks → ∀ c ∈ q.text, c = b) :
    Counted b (m.startLine p (q :: qs)).1.unit := by
  unfold Margin.startLine
  simp only
  split_ifs with hs hblank hblank
  · exact counted_unitAfter hm (hq hs)
  · unfold Margin.moveTo
    split_ifs
    · exact counted_unitAfter hm (hq hs)
    · exact counted_unitAfter hm (hq hs)
  · exact hm
  · exact hm

variable {p q qs}

end down

/-! ## The first lines of a text -/

/-- Nothing but newlines and comments. -/
def Silent (is : List Item) : Prop :=
  ∀ i ∈ is, ∃ t, i = .ok t ∧ (t.kind = .newline ∨ t.kind = .comment)

section prelude

variable {b : Char} {m m' : Margin} {p : Position} {q : Piece} {qs : List Piece}

theorem silent_item? (hq : q.shape = .lineBreak ∨ q.shape = .comment) :
    Silent (item? p q).toList := by
  unfold item? token
  rcases hq with hq | hq
  · rw [hq]
    intro i hi
    exact ⟨_, List.mem_singleton.mp hi, .inl rfl⟩
  · rw [hq]
    intro i hi
    exact ⟨_, List.mem_singleton.mp hi, .inr rfl⟩

/-- Further down, where the blocks `ws` are open, the items `is` become `js`: behind newlines and
comments the blocks end, unless a block begins there. -/
def Prelude (k : Nat) (ws : List Nat) (is js : List Item) : Prop :=
  ∃ quiet rest, is = quiet ++ rest ∧ Silent quiet ∧
    ((∃ t us, rest = .ok t :: us ∧ t.kind = .indent) ∨
      ∃ p, js = quiet.map (moveItem (.down k)) ++
        ((ws.map fun _ => .ok (Margin.dedent p)) ++ rest.map (moveItem (.down k))))

namespace Prelude

variable {k : Nat} {ws : List Nat} {is js : List Item}

theorem ends (p : Position) :
    Prelude k ws is ((ws.map fun _ => .ok (Margin.dedent p)) ++ is.map (moveItem (.down k))) :=
  ⟨[], is, rfl, by simp [Silent], .inr ⟨p, rfl⟩⟩

theorem begins {t : Token} (ht : t.kind = .indent) : Prelude k ws (.ok t :: is) js :=
  ⟨[], .ok t :: is, rfl, by simp [Silent], .inl ⟨t, is, rfl, ht⟩⟩

end Prelude

end prelude

/-! ## Behind whole lines -/

section join

variable {b : Char} {m : Margin} {p : Position} {q : Piece} {qs : List Piece}

theorem startLine_inside {t : Token} (ht : t ∈ (m.startLine p (q :: qs)).2) :
    t.kind ≠ .endOfInput := by
  rcases startLine_cases m p q qs with ⟨-, hts⟩ | ⟨w, t', -, hts, hk, -⟩ | ⟨w, -, hts⟩
  · rw [hts] at ht
    cases ht
  · rw [hts, List.mem_singleton] at ht
    rw [ht, hk]
    decide
  · rw [hts, List.mem_map] at ht
    obtain ⟨_, -, rfl⟩ := ht
    simp [Margin.dedent]

/-- The pieces `xs` behind `qs` do not change what `qs` give: at the start of a line, blanks look at
the piece behind them only to see whether there is code. -/
def Undisturbed (qs xs : List Piece) : Prop :=
  (∀ q ∈ qs.getLast?, q.shape ≠ .blanks) ∨ Margin.isBlankLine xs = true

theorem undisturbed_cons {xs : List Piece} (h : Undisturbed (q :: qs) xs) :
    Undisturbed qs xs := by
  refine h.imp_left fun hlast r hr => hlast r ?_
  rw [List.getLast?_cons, hr]
  rfl

theorem startLine_join {rest : List Piece} (h : Undisturbed (q :: qs) rest) :
    m.startLine p (q :: (qs ++ rest)) = m.startLine p (q :: qs) := by
  cases qs with
  | cons r qs => rfl
  | nil =>
    unfold Margin.startLine
    simp only [List.nil_append]
    by_cases hq : q.shape = .blanks
    · have hblank := h.resolve_left fun hlast => hlast q rfl hq
      rw [if_pos hq, if_pos hq, if_pos hblank]
      rfl
    · rw [if_neg hq, if_neg hq]
      rfl

/-- What pieces give, without the end of the input. -/
def front (m : Margin) (atStart : Bool) (p : Position) : List Piece → List Item
  | [] => []
  | q :: qs =>
    let (m', layout) := if atStart then m.startLine p (q :: qs) else (m, [])
    layout.map .ok ++ ((item? p q).toList ++
      front m' (q.shape == .lineBreak) (p.after q.text) qs)

def marginBehind (m : Margin) (atStart : Bool) (p : Position) : List Piece → Margin
  | [] => m
  | q :: qs =>
    marginBehind (if atStart then (m.startLine p (q :: qs)).1 else m) (q.shape == .lineBreak)
      (p.after q.text) qs

def startsBehind (atStart : Bool) : List Piece → Bool
  | [] => atStart
  | q :: qs => startsBehind (q.shape == .lineBreak) qs

theorem items_front {rest : List Piece} (atStart : Bool) (h : Undisturbed qs rest) :
    items m atStart p (qs ++ rest) = front m atStart p qs ++
      items (marginBehind m atStart p qs) (startsBehind atStart qs)
        (p.after (qs.flatMap Piece.text)) rest := by
  induction qs generalizing m atStart p with
  | nil => rfl
  | cons q qs ih =>
    have hrest := undisturbed_cons h
    rw [List.flatMap_cons, Position.after_append]
    cases atStart with
    | false =>
      rw [List.cons_append, items_inLine, itemsFrom, ih _ hrest, ← List.append_assoc]
      rfl
    | true =>
      rw [List.cons_append, items_atStart, startLine_join h, itemsFrom, ih _ hrest,
        ← List.append_assoc, ← List.append_assoc, List.append_assoc _ (item? p q).toList]
      rfl

theorem startsBehind_of_lines {atStart : Bool} (hlast : ∀ q ∈ qs.getLast?, q.shape = .lineBreak) :
    startsBehind atStart qs = (atStart || !qs.isEmpty) := by
  induction qs generalizing atStart with
  | nil => exact (Bool.or_false atStart).symm
  | cons q qs ih =>
    cases qs with
    | nil => simp [startsBehind, hlast q rfl]
    | cons r qs =>
      rw [startsBehind, ih fun r' hr => hlast r' (by rwa [List.getLast?_cons_cons])]
      simp

theorem item?_inside {t : Token} (h : item? p q = some (.ok t)) : t.kind ≠ .endOfInput := by
  intro hk
  have hkind := kind_of_item?_eq_some h
  simp [hk, Kind.isCode] at hkind

theorem front_inside {atStart : Bool} {t : Token} (ht : .ok t ∈ front m atStart p qs) :
    t.kind ≠ .endOfInput := by
  induction qs generalizing m atStart p with
  | nil => cases ht
  | cons q qs ih =>
    rcases List.mem_append.mp ht with ht | ht
    · obtain ⟨t', ht', heq⟩ := List.mem_map.mp ht
      cases heq
      cases atStart with
      | false => cases ht'
      | true => exact startLine_inside ht'
    · rcases List.mem_append.mp ht with ht | ht
      · exact item?_inside (Option.mem_toList.mp ht)
      · exact ih ht

theorem front_ended {atStart : Bool} (hlast : ∀ q ∈ qs.getLast?, q.shape = .lineBreak)
    (hqs : qs ≠ []) :
    ∃ t, (front m atStart p qs).getLast? = some (.ok t) ∧ t.kind = .newline := by
  induction qs generalizing m atStart p with
  | nil => exact absurd rfl hqs
  | cons q qs ih =>
    rw [front]
    simp only
    rw [List.getLast?_append, List.getLast?_append]
    by_cases hnil : qs = []
    · subst hnil
      unfold item? token
      rw [hlast q rfl]
      exact ⟨_, rfl, rfl⟩
    · obtain ⟨t, ht, hk⟩ := ih (fun r hr => hlast r (by rw [List.getLast?_cons, hr]; rfl)) hnil
      exact ⟨t, by rw [ht, Option.some_or, Option.some_or], hk⟩

end join

/-! ## Two texts -/

theorem withoutMark_split (s : List Char) :
    ∃ mark, s = mark ++ withoutMark s ∧ ∀ c ∈ mark, c = '\ufeff' := by
  rcases withoutMark_eq_iff.mp (Eq.refl (withoutMark s)) with hmarked | ⟨hsame, -⟩
  · exact ⟨['\ufeff'], hmarked, by simp⟩
  · exact ⟨[], hsame, by simp⟩

theorem count_withoutMark (s : List Char) : (withoutMark s).count '\n' = s.count '\n' := by
  obtain ⟨mark, hmark, hmarks⟩ := withoutMark_split s
  have hzero : mark.count '\n' = 0 := by
    rw [List.count_eq_zero]
    intro hmem
    cases hmarks _ hmem
  conv_rhs => rw [hmark, List.count_append, hzero, Nat.zero_add]

theorem withoutMark_ne_nil {s : List Char} (h : WholeLines s) (hs : s ≠ []) :
    withoutMark s ≠ [] := by
  intro hnil
  obtain ⟨c, hc⟩ := Option.ne_none_iff_exists'.mp (mt List.getLast?_eq_none_iff.mp hs)
  obtain ⟨mark, hmark, hmarks⟩ := withoutMark_split s
  rw [hnil, List.append_nil] at hmark
  rw [← hmark] at hmarks
  -- the last character would be a line break and a mark
  have hbreak := h c hc
  rw [hmarks c (List.mem_of_getLast? hc)] at hbreak
  cases hbreak

theorem withoutMark_append {s : List Char} (hs : s ≠ []) (t : List Char) :
    withoutMark (s ++ t) = withoutMark s ++ t := by
  cases s with
  | nil => exact absurd rfl hs
  | cons c cs =>
    unfold withoutMark
    simp only [List.cons_append]
    split_ifs <;> rfl

theorem withoutMark_eq_self {t : List Char} (h : ∀ c ∈ t.head?, c ≠ '\ufeff') :
    withoutMark t = t :=
  withoutMark_eq_iff.mpr (.inr ⟨rfl, fun hmark => h _ hmark rfl⟩)

namespace Joinable

variable {s t : List Char}

end Joinable

end Source

end Offside
