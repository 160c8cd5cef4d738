import Mathlib.Data.Option.Basic
import Offside.Proofs.Source.Insertion

/-!
# How deep the lines of a text are

The blanks in front of a line with code, counted in the unit of the text, say how many blocks the
line is in. The depths of all the lines (`depths`) are computed from the characters alone. They are
what the layout tokens show and no more: if two margins go over the same pieces, the tokens have the
same kinds exactly if the lines have the same depths (`Source.kinds_items_iff`).
-/

namespace Offside

/-! ## The unit of a text -/

/-- The first blank at the start of a line; `atStart` says that a line begins with these
characters. -/
def firstIndent (atStart : Bool) : List Char → Option Char
  | [] => none
  | c :: cs => if atStart && Piece.isBlank c then some c else firstIndent (c == '\n') cs

/-- The blank that a text is indented with: the first one at the start of a line after the first. -/
def unitOf (text : List Char) : Option Char := firstIndent false text

theorem firstIndent_noBreak {w : List Char} (hw : '\n' ∉ w) (rest : List Char) :
    firstIndent false (w ++ rest) = firstIndent false rest := by
  induction w with
  | nil => rfl
  | cons c w ih =>
    rw [List.mem_cons, not_or] at hw
    have hc : (c == '\n') = false := by simpa using Ne.symm hw.1
    rw [List.cons_append, firstIndent, Bool.false_and, if_neg Bool.false_ne_true, hc, ih hw.2]

namespace Source

/-- The first blank of the first piece that indents a line. -/
def firstUnit (atStart : Bool) : List Piece → Option Char
  | [] => none
  | q :: qs =>
    (if atStart && q.shape == .blanks then q.text.head? else none).or
      (firstUnit (q.shape == .lineBreak) qs)

theorem firstUnit_append (atStart : Bool) (qs rest : List Piece) :
    firstUnit atStart (qs ++ rest) =
      (firstUnit atStart qs).or (firstUnit (startsBehind atStart qs) rest) := by
  induction qs generalizing atStart with
  | nil => rfl
  | cons q qs ih => rw [List.cons_append, firstUnit, ih, firstUnit, startsBehind, Option.or_assoc]

theorem firstIndent_piece {c : Char} {atStart : Bool} {cs : List Char}
    (hc : (atStart && Piece.isBlank c) = false) :
    firstIndent atStart (c :: cs) =
      firstIndent ((Piece.tail c cs).1 == .lineBreak) (Piece.tail c cs).2.2 := by
  have htext : c :: cs = (c :: (Piece.tail c cs).2.1) ++ (Piece.tail c cs).2.2 := by
    rw [List.cons_append, Piece.tail_append]
  have hgenuine := Piece.tail_genuine c cs
  by_cases hbreak : (Piece.tail c cs).1 = .lineBreak
  · simp only [Piece.Genuine, hbreak] at hgenuine
    rw [htext, hbreak]
    rcases hgenuine with hline | hline
    · rw [hline]
      cases atStart <;> rfl
    · rw [hline]
      cases atStart <;> rfl
  · have hnone := Piece.tail_noBreak hbreak
    rw [beq_false_of_ne hbreak, ← firstIndent_noBreak hnone, ← htext, firstIndent, firstIndent, hc]
    rfl

theorem firstUnit_cut (atStart : Bool) (text : List Char) :
    firstUnit atStart (Piece.cut text) = firstIndent atStart text := by
  fun_induction Piece.cut text generalizing atStart with
  | case1 => rfl
  | case2 c cs r ih =>
    rw [firstUnit, ih]
    by_cases hc : (atStart && Piece.isBlank c) = true
    · obtain ⟨rfl, hblank⟩ := (Bool.and_eq_true_iff).mp hc
      rw [firstIndent, if_pos hc]
      simp [r, Piece.tail_of_isBlank hblank]
    · rw [Bool.not_eq_true] at hc
      have hblanks : (atStart && r.1 == .blanks) = false := by
        cases atStart with
        | false => rfl
        | true => simpa using Piece.tail_shape hc cs
      rw [firstIndent_piece hc, hblanks]
      rfl

end Source

namespace Source

/-! ## Kinds and positions -/

/-- The kind of a token; a fault has none. -/
def kind? : Item → Option Kind
  | .ok t => some t.kind
  | .error _ => none

theorem kind?_move (f : Position → Position) (i : Item) : kind? (moveItem f i) = kind? i := by
  cases i <;> rfl

theorem kinds_items (m : Margin) (atStart : Bool) (p p' : Position) (qs : List Piece) :
    (items m atStart p qs).map kind? = (items m atStart p' qs).map kind? := by
  induction qs generalizing m atStart p p' with
  | nil =>
    rw [items, items, List.map_append, List.map_append, List.map_map, List.map_map]
    unfold Margin.closeTo
    rw [List.map_map, List.map_map]
    rfl
  | cons q qs ih =>
    have hfrom : ∀ m, (itemsFrom m p q qs).map kind? = (itemsFrom m p' q qs).map kind? := by
      intro m
      have hitem := item?_move (fun _ => p') p q
      unfold itemsFrom
      rw [hitem, List.map_append, List.map_append, ih m _ _ (p'.after q.text), Option.toList_map,
        List.map_map]
      congr 2
      funext i
      exact (kind?_move _ i).symm
    cases atStart with
    | false => exact hfrom m
    | true =>
      have hlayout := @startLine_move m p (q :: qs) fun _ => p'
      rw [items_atStart, items_atStart, hlayout, List.map_append, List.map_append, hfrom,
        List.map_map, List.map_map, List.map_map]
      rfl

theorem kinds_keeps (g : Kind → Bool) (is : List Item) :
    (is.filter (keeps g)).map kind? = (is.map kind?).filter (Option.all g) := by
  rw [List.filter_map]
  congr 2
  funext i
  cases i <;> rfl

theorem kinds_found (p p' : Position) (qs : List Piece) :
    (found p qs).map kind? = (found p' qs).map kind? := by
  rw [← items_written .outermost false p, ← items_written .outermost false p', kinds_keeps,
    kinds_keeps, kinds_items .outermost false p p']

theorem kinds_tokensOf (is : List Item) :
    (tokensOf is).map Token.kind = (is.map kind?).filterMap id := by
  unfold tokensOf
  rw [List.map_filterMap, List.filterMap_map]
  congr 1
  funext i
  cases i <;> rfl

theorem kinds_eq_iff {is js : List Item} (his : faultsOf is = []) (hjs : faultsOf js = []) :
    is.map kind? = js.map kind? ↔ (tokensOf is).map Token.kind = (tokensOf js).map Token.kind := by
  have hkinds : ∀ {is : List Item}, faultsOf is = [] →
      is.map kind? = ((tokensOf is).map Token.kind).map some := by
    intro is hnone
    conv_lhs => rw [← map_tokensOf hnone]
    rw [List.map_map, List.map_map]
    rfl
  rw [hkinds his, hkinds hjs, (Option.some_injective Kind).list_map.eq_iff]

theorem faultsOf_eq_nil_iff {is : List Item} : faultsOf is = [] ↔ none ∉ is.map kind? := by
  unfold faultsOf
  rw [List.filterMap_eq_nil_iff, List.mem_map]
  constructor
  · rintro h ⟨i, hi, hnone⟩
    have hi := h i hi
    cases i with
    | ok t => cases hnone
    | error e => cases hi
  · intro h i hi
    cases i with
    | ok t => rfl
    | error e => exact absurd ⟨_, hi, rfl⟩ h

end Source

/-! ## Where code begins -/

/-- No code begins these characters: the line ends here, or a comment follows. -/
def LineOver (text : List Char) : Prop := ∀ c ∈ text.head?, c = '\n' ∨ c = '\r' ∨ c = '#'

theorem LineOver.isBlankLine {text : List Char} (h : LineOver text) :
    Margin.isBlankLine (Piece.cut text) = true := by
  cases text with
  | nil => rw [Piece.cut]; rfl
  | cons c cs =>
    rw [Piece.cut_cons]
    rcases h c rfl with rfl | rfl | rfl
    · rfl
    · by_cases hcs : ∃ rest, cs = '\n' :: rest
      · obtain ⟨rest, rfl⟩ := hcs
        rfl
      · rw [Piece.tail_carriage fun rest heq => hcs ⟨rest, heq⟩]
        rfl
    · rfl

namespace Source

/-- Whether code is the first thing on a line behind its blanks. A carriage return ends the line. -/
def beginsCode (l : List Char) : Bool :=
  (l.dropWhile Piece.isBlank).head?.any fun c => c != '\n' && c != '\r' && c != '#'

/-- Pieces of a line without code. -/
def isBare : List Piece → Bool
  | [] => true
  | q :: qs => if q.shape = .blanks then Margin.isBlankLine qs else Margin.isBlankLine (q :: qs)

theorem takeWhile_isBlank {l : List Char} {q : Piece} {qs : List Piece}
    (h : Piece.cut l = q :: qs) :
    l.takeWhile Piece.isBlank = if q.shape = .blanks then q.text else [] := by
  cases l with
  | nil =>
    rw [Piece.cut] at h
    cases h
  | cons c cs =>
    rw [Piece.cut_cons] at h
    obtain ⟨rfl, -⟩ := List.cons.inj h
    by_cases hc : Piece.isBlank c = true
    · rw [List.takeWhile_cons_of_pos hc, Piece.tail_of_isBlank hc]
      rfl
    · rw [List.takeWhile_cons_of_neg hc, if_neg (Piece.tail_shape (by simpa using hc) cs)]

theorem isBlankLine_cut {text : List Char} :
    Margin.isBlankLine (Piece.cut text) = true ↔ LineOver text := by
  refine ⟨fun h => ?_, LineOver.isBlankLine⟩
  cases text with
  | nil => exact fun c hc => absurd hc (Option.not_mem_none c)
  | cons c cs =>
    intro d hd
    obtain rfl : c = d := Option.some.inj hd
    have hgenuine := Piece.tail_genuine c cs
    rw [Piece.cut_cons] at h
    simp only [Margin.isBlankLine, Bool.or_eq_true, beq_iff_eq] at h
    rcases h with (h | h) | h
    · rcases hgenuine.lineBreak h with h | h
      · exact .inl (List.cons.inj h).1
      · exact .inr (.inl (List.cons.inj h).1)
    · exact .inr (.inl (List.cons.inj (hgenuine.carriage h)).1)
    · exact .inr (.inr (Piece.tail_comment h).1)

theorem beginsCode_eq_false {l : List Char} :
    beginsCode l = false ↔ LineOver (l.dropWhile Piece.isBlank) := by
  simp [beginsCode, LineOver, Option.any_eq_false, or_iff_not_imp_left]

theorem isBare_cut (l : List Char) : (!isBare (Piece.cut l)) = beginsCode l := by
  rw [Bool.eq_iff_iff, Bool.not_eq_true', ← not_iff_not, Bool.not_eq_false, Bool.not_eq_true,
    beginsCode_eq_false, ← isBlankLine_cut]
  cases l with
  | nil => rw [List.dropWhile_nil, Piece.cut]; rfl
  | cons c cs =>
    by_cases hc : Piece.isBlank c = true
    · rw [List.dropWhile_cons_of_pos hc, Piece.cut_cons, Piece.tail_of_isBlank hc]
      rfl
    · rw [List.dropWhile_cons_of_neg hc, Piece.cut_cons, isBare,
        if_neg (Piece.tail_shape (by simpa using hc) cs)]

end Source

/-! ## Depths -/

/-- The blocks open behind a line of width `w`, the innermost first. -/
def Margin.settle (ws : List Nat) (w : Nat) : List Nat :=
  if ws.headD 0 < w then w :: ws else ws.dropWhile (w < ·)

/-- The blanks in front of each line with code; `atStart` says that a line begins with these
characters. -/
def indents (atStart : Bool) : List Char → List (List Char)
  | [] => []
  | c :: cs =>
    if atStart && Source.beginsCode (c :: cs) then
      (c :: cs).takeWhile Piece.isBlank :: indents (c == '\n') cs
    else indents (c == '\n') cs

/-- How many blocks are open behind the start of each line. The lines begin with these blanks,
counted in `u`, and blocks of the widths `ws` are open in front of them. -/
def depthsFrom (u : Char) (ws : List Nat) : List (List Char) → List Nat
  | [] => []
  | blanks :: later =>
    (Margin.settle ws (Margin.measured u blanks).length).length ::
      depthsFrom u (Margin.settle ws (Margin.measured u blanks).length) later

/-- In how many blocks each line with code is, from the second line on. -/
def depths (text : List Char) : List Nat :=
  depthsFrom ((unitOf text).getD ' ') [] (indents false text)

theorem indents_noBreak {w : List Char} (hw : '\n' ∉ w) (rest : List Char) :
    indents false (w ++ rest) = indents false rest := by
  induction w with
  | nil => rfl
  | cons c w ih =>
    rw [List.mem_cons, not_or] at hw
    have hc : (c == '\n') = false := by simpa using Ne.symm hw.1
    rw [List.cons_append, indents, Bool.false_and, if_neg Bool.false_ne_true, hc, ih hw.2]

theorem indents_of_firstIndent {atStart : Bool} {text : List Char}
    (h : firstIndent atStart text = none) : ∀ blanks ∈ indents atStart text, blanks = [] := by
  induction text generalizing atStart with
  | nil => simp [indents]
  | cons c cs ih =>
    rw [firstIndent] at h
    split_ifs at h with hc
    rw [indents]
    split_ifs with hcode
    · rw [Bool.and_eq_true] at hc hcode
      have hblank : Piece.isBlank c ≠ true := fun hblank => hc ⟨hcode.1, hblank⟩
      rw [List.forall_mem_cons, List.takeWhile_cons_of_neg hblank]
      exact ⟨rfl, ih h⟩
    · exact ih h

namespace Source

/-- The blanks in front of each line with code, read off the pieces. -/
def pieceIndents (atStart : Bool) : List Piece → List (List Char)
  | [] => []
  | q :: qs =>
    if atStart && !isBare (q :: qs) then
      (if q.shape = .blanks then q.text else []) :: pieceIndents (q.shape == .lineBreak) qs
    else pieceIndents (q.shape == .lineBreak) qs

theorem isBare_append {q : Piece} {qs rest : List Piece} (h : Undisturbed (q :: qs) rest) :
    isBare (q :: (qs ++ rest)) = isBare (q :: qs) := by
  cases qs with
  | cons r qs => rfl
  | nil =>
    rw [isBare, isBare, List.nil_append]
    split_ifs with hq
    · exact h.resolve_left fun hlast => hlast q rfl hq
    · rfl

theorem pieceIndents_append {qs rest : List Piece} (atStart : Bool) (h : Undisturbed qs rest) :
    pieceIndents atStart (qs ++ rest) =
      pieceIndents atStart qs ++ pieceIndents (startsBehind atStart qs) rest := by
  induction qs generalizing atStart with
  | nil => rfl
  | cons q qs ih =>
    rw [List.cons_append, pieceIndents, isBare_append h, ih _ (undisturbed_cons h), pieceIndents,
      startsBehind]
    split_ifs <;> rfl

theorem indents_piece (c : Char) (cs : List Char) :
    indents (c == '\n') cs =
      indents ((Piece.tail c cs).1 == .lineBreak) (Piece.tail c cs).2.2 := by
  have htext := Piece.tail_append c cs
  by_cases hbreak : (Piece.tail c cs).1 = .lineBreak
  · rw [hbreak]
    rcases (Piece.tail_genuine c cs).lineBreak hbreak with hline | hline
    · obtain ⟨rfl, hnil⟩ := List.cons.inj hline
      rw [hnil] at htext
      rw [← htext]
      rfl
    · obtain ⟨rfl, hnil⟩ := List.cons.inj hline
      rw [hnil] at htext
      conv_lhs => rw [← htext]
      rfl
  · have hnone := Piece.tail_noBreak hbreak
    rw [List.mem_cons, not_or] at hnone
    have hc : (c == '\n') = false := by simpa using Ne.symm hnone.1
    rw [beq_false_of_ne hbreak, hc]
    conv_lhs => rw [← htext, indents_noBreak hnone.2]

theorem pieceIndents_cut (atStart : Bool) (text : List Char) :
    pieceIndents atStart (Piece.cut text) = indents atStart text := by
  fun_induction Piece.cut text generalizing atStart with
  | case1 => rfl
  | case2 c cs r ih =>
    have hcut : Piece.cut (c :: cs) = ⟨r.1, c :: r.2.1⟩ :: Piece.cut r.2.2 := Piece.cut_cons c cs
    rw [pieceIndents, ih, ← hcut, isBare_cut, ← takeWhile_isBlank hcut, ← indents_piece, indents]

/-! ## The layout of a line -/

section layout

variable {m : Margin} {p : Position} {q : Piece} {qs : List Piece} {ws : List Nat} {w : Nat}

theorem moveTo_fst (m : Margin) (shown : List Char) (p : Position) :
    (m.moveTo shown p).1 = ⟨Margin.settle m.widths shown.length, m.unit⟩ := by
  unfold Margin.moveTo Margin.settle Margin.width
  split_ifs
  · rfl
  · rfl

theorem length_settle_le : (Margin.settle ws w).length ≤ ws.length + 1 := by
  unfold Margin.settle
  split_ifs
  · exact le_rfl
  · exact (List.dropWhile_suffix _).length_le.trans (Nat.le_succ _)

theorem settle_pos (h : ∀ x ∈ ws, 0 < x) : ∀ x ∈ Margin.settle ws w, 0 < x := by
  unfold Margin.settle
  split_ifs with hw
  · exact List.forall_mem_cons.mpr ⟨Nat.zero_lt_of_lt hw, h⟩
  · exact fun x hx => h x ((List.dropWhile_suffix _).subset hx)

/-- The kinds of the layout tokens that lead from one depth to another. -/
def layoutKinds (n n' : Nat) : List Kind :=
  if n < n' then [.indent] else List.replicate (n - n') .dedent

theorem layoutKinds_eq_iff {n a b : Nat} (ha : a ≤ n + 1) (hb : b ≤ n + 1) :
    layoutKinds n a = layoutKinds n b ↔ a = b := by
  unfold layoutKinds
  have hdiffer : ∀ k, [Kind.indent] ≠ List.replicate k .dedent := by
    intro k h
    have hmem : Kind.indent ∈ List.replicate k Kind.dedent := h ▸ List.mem_singleton_self _
    cases List.eq_of_mem_replicate hmem
  split_ifs with hna hnb hnb
  · exact iff_of_true rfl (by omega)
  · exact iff_of_false (hdiffer _) (by omega)
  · exact iff_of_false (hdiffer _).symm (by omega)
  · rw [List.replicate_inj]
    exact ⟨fun h => by omega, fun h => ⟨by omega, .inr rfl⟩⟩

theorem mem_layoutKinds {n n' : Nat} :
    ∀ k ∈ (layoutKinds n n').map some, k = some .indent ∨ k = some .dedent := by
  unfold layoutKinds
  split_ifs
  · simp
  · rw [List.map_replicate]
    exact fun k hk => .inr (List.eq_of_mem_replicate hk)

theorem kinds_moveTo (m : Margin) (shown : List Char) (p : Position) :
    ((m.moveTo shown p).2.map .ok).map kind? =
      (layoutKinds m.widths.length (Margin.settle m.widths shown.length).length).map some := by
  rw [List.map_map]
  show (m.moveTo shown p).2.map (some ∘ Token.kind) = _
  rw [← List.map_map]
  congr 1
  unfold Margin.moveTo Margin.settle Margin.width layoutKinds
  split_ifs with hlt hle hle
  · rfl
  · simp at hle
  · exact absurd hle (Nat.not_lt.mpr (List.dropWhile_suffix _).length_le)
  · have hlength := congrArg List.length
      (m.widths.takeWhile_append_dropWhile (p := (shown.length < ·)))
    rw [List.length_append] at hlength
    rw [Margin.closeTo, List.map_map, List.eq_replicate_iff, List.length_map]
    refine ⟨by omega, fun k hk => ?_⟩
    obtain ⟨x, -, rfl⟩ := List.mem_map.mp hk
    rfl

theorem unitAfter_of_known {blanks : List Char} (h : m.unit = none → blanks.head? = none) :
    m.unitAfter blanks = m.unit := by
  unfold Margin.unitAfter
  cases hunit : m.unit with
  | none => exact h hunit
  | some c => rfl

theorem startLine_known (h : m.unit = none → firstUnit true (q :: qs) = none) :
    m.startLine p (q :: qs) =
      if isBare (q :: qs) then (m, [])
      else
        m.moveTo (Margin.measured (m.unit.getD ' ')
          (if q.shape = .blanks then q.text else [])) p := by
  unfold Margin.startLine isBare
  by_cases hq : q.shape = .blanks
  · have hunit : m.unitAfter q.text = m.unit := by
      refine unitAfter_of_known fun hnone => ?_
      have hfirst := h hnone
      rw [firstUnit, hq] at hfirst
      exact (Option.or_eq_none_iff.mp hfirst).1
    simp only [if_pos hq, hunit]
  · simp only [if_neg hq]
    rfl

theorem kinds_itemsFrom (hcode : isBare (q :: qs) = false) (hapart : Piece.Apart (q :: qs)) :
    ∃ k ks, (itemsFrom m p q qs).map kind? = k :: ks ∧ k ≠ some .indent ∧ k ≠ some .dedent := by
  have hfirst : ∀ (p : Position) (q : Piece) (rest : List Piece), q.shape ≠ .blanks →
      Margin.isBlankLine (q :: rest) = false →
      ∃ k ks, (itemsFrom m p q rest).map kind? = k :: ks ∧ k ≠ some .indent ∧ k ≠ some .dedent := by
    intro p q rest hq hcode
    simp only [Margin.isBlankLine, Bool.or_eq_false_iff, beq_eq_false_iff_ne] at hcode
    unfold itemsFrom
    cases hi : item? p q with
    | none => exact absurd (shape_of_item?_eq_none hi) (by simp [hq, hcode])
    | some i =>
      refine ⟨_, _, rfl, ?_⟩
      cases i with
      | error f => simp [kind?]
      | ok t =>
        have hkind := kind_of_item?_eq_some hi
        constructor
        · intro hk
          simp [Option.some.inj hk, Kind.isCode] at hkind
        · intro hk
          simp [Option.some.inj hk, Kind.isCode] at hkind
  rw [isBare] at hcode
  split_ifs at hcode with hq
  · -- blanks give no item, and code follows them
    cases qs with
    | nil => cases hcode
    | cons q' qs =>
      have hnext : itemsFrom m p q (q' :: qs) = itemsFrom m (p.after q.text) q' qs := by
        simp [itemsFrom, item?, hq, items]
      rw [hnext]
      exact hfirst _ q' qs ((Piece.apart_cons.mp hapart).1 hq q' rfl) hcode
  · exact hfirst p q qs hq hcode

end layout

/-! ## Depths decide on kinds -/

theorem append_eq_append_iff_of_layout {L L' X X' : List (Option Kind)}
    (hL : ∀ k ∈ L, k = some .indent ∨ k = some .dedent)
    (hL' : ∀ k ∈ L', k = some .indent ∨ k = some .dedent)
    (hX : ∃ k ks, X = k :: ks ∧ k ≠ some .indent ∧ k ≠ some .dedent)
    (hX' : ∃ k ks, X' = k :: ks ∧ k ≠ some .indent ∧ k ≠ some .dedent) :
    L ++ X = L' ++ X' ↔ L = L' ∧ X = X' := by
  have htake : ∀ {L X : List (Option Kind)}, (∀ k ∈ L, k = some .indent ∨ k = some .dedent) →
      (∃ k ks, X = k :: ks ∧ k ≠ some .indent ∧ k ≠ some .dedent) →
      (L ++ X).takeWhile (fun k => k == some .indent || k == some .dedent) = L := by
    rintro L X hL ⟨k, ks, rfl, hi, hd⟩
    rw [List.takeWhile_append_of_pos (by simpa using hL),
      List.takeWhile_cons_of_neg (by simp [hi, hd]), List.append_nil]
  constructor
  · intro h
    have hlayout : L = L' := by rw [← htake hL hX, h, htake hL' hX']
    subst hlayout
    exact ⟨rfl, List.append_cancel_left h⟩
  · rintro ⟨rfl, rfl⟩
    rfl

theorem kinds_closing {ws : List Nat} (hpos : ∀ w ∈ ws, 0 < w) (u : Option Char) (atStart : Bool)
    (p : Position) :
    (items ⟨ws, u⟩ atStart p []).map kind? =
      List.replicate ws.length (some .dedent) ++ [some .endOfInput] := by
  have hall : ws.takeWhile (0 < ·) = ws := by
    rw [List.takeWhile_eq_self_iff]
    simpa using hpos
  rw [items, Margin.closeTo, hall, List.map_append, List.map_map, List.map_map]
  congr 1
  rw [List.eq_replicate_iff, List.length_map]
  refine ⟨rfl, fun k hk => ?_⟩
  obtain ⟨x, -, rfl⟩ := List.mem_map.mp hk
  rfl

theorem kinds_codeLine_iff {m m' : Margin} {shown shown' : List Char} {p : Position} {q : Piece}
    {qs : List Piece} (hcode : isBare (q :: qs) = false) (hapart : Piece.Apart (q :: qs))
    (hlength : m.widths.length = m'.widths.length) :
    ((m.moveTo shown p).2.map Except.ok ++ itemsFrom (m.moveTo shown p).1 p q qs).map kind? =
        ((m'.moveTo shown' p).2.map Except.ok ++
          itemsFrom (m'.moveTo shown' p).1 p q qs).map kind? ↔
      (Margin.settle m.widths shown.length).length =
          (Margin.settle m'.widths shown'.length).length ∧
        (itemsFrom (m.moveTo shown p).1 p q qs).map kind? =
          (itemsFrom (m'.moveTo shown' p).1 p q qs).map kind? := by
  -- the layout ends where code begins, and its kinds tell the depth that it leads to
  rw [List.map_append, List.map_append, kinds_moveTo, kinds_moveTo,
    append_eq_append_iff_of_layout mem_layoutKinds mem_layoutKinds (kinds_itemsFrom hcode hapart)
      (kinds_itemsFrom hcode hapart),
    (Option.some_injective Kind).list_map.eq_iff, ← hlength,
    layoutKinds_eq_iff length_settle_le (hlength ▸ length_settle_le)]

/-- Two margins with equally many blocks lead to tokens of the same kinds exactly if the lines have
the same depths. -/
theorem kinds_items_iff {ws ws' : List Nat} {u u' : Option Char} {atStart : Bool} {p : Position}
    {qs : List Piece} (hapart : Piece.Apart qs) (hu : u = none → firstUnit atStart qs = none)
    (hu' : u' = none → firstUnit atStart qs = none) (hpos : ∀ w ∈ ws, 0 < w)
    (hpos' : ∀ w ∈ ws', 0 < w) (hlength : ws.length = ws'.length) :
    (items ⟨ws, u⟩ atStart p qs).map kind? = (items ⟨ws', u'⟩ atStart p qs).map kind? ↔
      depthsFrom (u.getD ' ') ws (pieceIndents atStart qs) =
        depthsFrom (u'.getD ' ') ws' (pieceIndents atStart qs) := by
  induction qs generalizing ws ws' atStart p with
  | nil => rw [kinds_closing hpos, kinds_closing hpos', hlength]; simp [pieceIndents, depthsFrom]
  | cons q qs ih =>
    have hlater : ∀ v : Option Char, (v = none → firstUnit atStart (q :: qs) = none) →
        v = none → firstUnit (q.shape == .lineBreak) qs = none := by
      intro v hv hnone
      have hfirst := hv hnone
      rw [firstUnit] at hfirst
      exact (Option.or_eq_none_iff.mp hfirst).2
    -- behind the layout the same item follows, whatever the margin
    have hfrom : ∀ {ws ws' : List Nat}, (∀ w ∈ ws, 0 < w) → (∀ w ∈ ws', 0 < w) →
        ws.length = ws'.length →
        ((itemsFrom ⟨ws, u⟩ p q qs).map kind? = (itemsFrom ⟨ws', u'⟩ p q qs).map kind? ↔
          depthsFrom (u.getD ' ') ws (pieceIndents (q.shape == .lineBreak) qs) =
            depthsFrom (u'.getD ' ') ws' (pieceIndents (q.shape == .lineBreak) qs)) := by
      intro ws ws' hpos hpos' hlength
      unfold itemsFrom
      rw [List.map_append, List.map_append, List.append_cancel_left_eq]
      exact ih (Piece.apart_cons.mp hapart).2 (hlater u hu) (hlater u' hu') hpos hpos' hlength
    cases atStart with
    | false => exact hfrom hpos hpos' hlength
    | true =>
      rw [items_atStart, items_atStart, startLine_known hu, startLine_known hu', pieceIndents]
      cases hbare : isBare (q :: qs) with
      | true => exact hfrom hpos hpos' hlength
      | false =>
        generalize (if q.shape = .blanks then q.text else []) = blanks
        have hmargins : (Margin.mk ws u).widths.length = (Margin.mk ws' u').widths.length := hlength
        rw [if_neg Bool.false_ne_true, if_neg Bool.false_ne_true, Bool.not_false, Bool.and_self,
          if_pos rfl, kinds_codeLine_iff hbare hapart hmargins, moveTo_fst, moveTo_fst, depthsFrom,
          depthsFrom, List.cons.injEq]
        exact and_congr_right (hfrom (settle_pos hpos) (settle_pos hpos'))

end Source

end Offside
