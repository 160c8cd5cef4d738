import Offside.Proofs.Source.Separation

/-!
# Texts of whole lines

No piece of a text goes beyond the end of its line. So whole lines are cut into pieces on their own,
whatever is behind them (`Piece.cut_join`), and the last piece of whole lines is a line break.

`Piece.Regular` says what is left of a text without carriage returns and with one kind of blank in
its margin when it has been cut.
-/

namespace Offside

/-! ## Whole lines -/

/-- A text of whole lines. -/
def WholeLines (cs : List Char) : Prop := ∀ c ∈ cs.getLast?, c = '\n'

theorem WholeLines.mem {c : Char} {cs : List Char} (h : WholeLines (c :: cs)) (hc : c ≠ '\n') :
    '\n' ∈ cs := by
  cases cs with
  | nil => exact absurd (h c rfl) hc
  | cons d ds =>
    have hlast := List.getLast?_eq_some_getLast (List.cons_ne_nil d ds)
    have hbreak := h _ (by rw [List.getLast?_cons_cons, hlast]; rfl)
    rw [← hbreak]
    exact List.getLast_mem _

theorem WholeLines.of_append {cs ds : List Char} (h : WholeLines (cs ++ ds)) : WholeLines ds := by
  intro c hc
  refine h c ?_
  rw [List.getLast?_append, hc]
  rfl

namespace Piece

theorem mem_run {p : Char → Bool} {cs : List Char} (hp : p '\n' = false) (h : '\n' ∈ cs) :
    '\n' ∈ (run p cs).2 := by
  have hsplit := run_append p cs
  rw [← hsplit, List.mem_append] at h
  rcases h with h | h
  · have hall := of_mem_run h
    rw [hp] at hall
    cases hall
  · exact h

theorem numberTail_mem {cs : List Char} (h : '\n' ∈ cs) : '\n' ∈ (numberTail cs).2 := by
  have hmem := mem_run (p := Char.isDigit) (by decide) h
  unfold numberTail
  split
  · rename_i ds d rest heq
    rw [heq] at hmem
    have hmem' : '\n' ∈ d :: rest := by simpa using hmem
    split_ifs
    · exact mem_run (by decide) hmem'
    · exact hmem
  · rename_i heq
    rw [heq] at hmem
    exact hmem

theorem quoteTail_mem {cs : List Char} (h : '\n' ∈ cs) : '\n' ∈ (quoteTail cs).2.2 := by
  have hmem := mem_run (p := (!endsQuote ·)) (by decide) h
  unfold quoteTail
  split
  · rename_i heq
    rw [heq] at hmem
    simpa using hmem
  · rename_i heq
    rw [heq] at hmem
    exact hmem

theorem symbolTail_mem {c : Char} {cs : List Char} (h : '\n' ∈ cs) :
    '\n' ∈ (symbolTail c cs).2.2 := by
  cases cs with
  | nil => cases h
  | cons d cs =>
    simp only [symbolTail]
    split
    · rename_i s heq
      have htext : s.text = String.ofList [c, d] := by
        simpa using List.find?_some heq
      have hd : d ≠ '\n' := by
        rintro rfl
        have hnone : ∀ s : Symbol, '\n' ∉ s.text.toList := by
          intro s
          cases s <;> decide
        refine hnone s ?_
        rw [htext, String.toList_ofList]
        simp
      exact (List.mem_cons.mp h).resolve_left fun heq => hd heq.symm
    · split <;> exact h

theorem tail_mem {c : Char} {cs : List Char} (h : '\n' ∈ cs) :
    (tail c cs).1 = .lineBreak ∨ '\n' ∈ (tail c cs).2.2 := by
  unfold tail
  split_ifs
  · exact .inl rfl
  · split
    · exact .inl rfl
    · exact .inr h
  · exact .inr (mem_run (by decide) h)
  · exact .inr (mem_run (by decide) h)
  · exact .inr (quoteTail_mem h)
  · exact .inr (numberTail_mem h)
  · exact .inr (mem_run (by decide) h)
  · exact .inr (symbolTail_mem h)

theorem cut_wholeLines {cs : List Char} (h : WholeLines cs) :
    ∀ q ∈ (cut cs).getLast?, q.shape = .lineBreak := by
  fun_induction cut cs with
  | case1 => simp
  | case2 c cs r ih =>
    have hsplit : c :: cs = (c :: r.2.1) ++ r.2.2 := by
      rw [List.cons_append, tail_append]
    have hrest : WholeLines r.2.2 := by
      rw [hsplit] at h
      exact h.of_append
    intro q hq
    rw [List.getLast?_cons] at hq
    cases hlast : (cut r.2.2).getLast? with
    | some q' =>
      rw [hlast] at hq
      cases hq
      exact ih hrest _ hlast
    | none =>
      rw [hlast] at hq
      cases hq
      have hnil : r.2.2 = [] := by
        have hflat := cut_flatten r.2.2
        rw [List.getLast?_eq_none_iff.mp hlast] at hflat
        exact hflat.symm
      by_cases hc : c = '\n'
      · subst hc
        rfl
      · refine (tail_mem (h.mem hc)).resolve_right ?_
        rw [hnil]
        exact List.not_mem_nil

/-- Texts of whole lines are cut on their own. -/
theorem cut_join {cs : List Char} (h : WholeLines cs) (rest : List Char) :
    cut (cs ++ rest) = cut cs ++ cut rest := by
  refine cut_append fun q hq c _ => ?_
  rw [cut_wholeLines h q hq]
  rfl

/-! ## Regular pieces -/

/-- Pieces from a place on, at the start of a line or not: no carriage return stands alone, a
comment goes up to the end of its line, and lines are indented with the blank `b` only. -/
def Regular (b : Char) : Bool → List Piece → Prop
  | _, [] => True
  | atStart, q :: qs =>
    q.shape ≠ .carriage ∧ (q.shape = .comment → Margin.isBlankLine qs = true) ∧
      (atStart = true → q.shape = .blanks → q.text ≠ [] ∧ ∀ c ∈ q.text, c = b) ∧
      Regular b (q.shape == .lineBreak) qs

theorem symbolTail_ne_comment (c : Char) (cs : List Char) : (symbolTail c cs).1 ≠ .comment := by
  cases cs with
  | nil =>
    simp only [symbolTail]
    split <;> simp
  | cons d cs =>
    simp only [symbolTail]
    split
    · simp
    · split <;> simp

theorem tail_comment {c : Char} {cs : List Char} (h : (tail c cs).1 = .comment) :
    c = '#' ∧ (tail c cs).2 = run (!endsComment ·) cs := by
  have hc : c = '#' := by
    unfold tail at h
    split_ifs at h with hn hr hb hc hq hd hw
    · split at h <;> cases h
    · exact hc
    · unfold quoteTail at h
      split at h <;> cases h
    · exact absurd h (symbolTail_ne_comment c cs)
  subst hc
  exact ⟨rfl, rfl⟩

/-- Lines behind the first are indented with the blank `b` only. -/
def IndentedBy (b : Char) (text : List Char) : Prop :=
  ∀ before line, text = before ++ '\n' :: line → ∀ c ∈ line.takeWhile isBlank, c = b

def isIndentedBy (b : Char) : List Char → Bool
  | [] => true
  | c :: cs => (c != '\n' || (cs.takeWhile isBlank).all (· == b)) && isIndentedBy b cs

theorem isIndentedBy_iff {b : Char} {text : List Char} :
    isIndentedBy b text = true ↔ IndentedBy b text := by
  induction text with
  | nil => simp [isIndentedBy, IndentedBy]
  | cons c cs ih =>
    rw [isIndentedBy, Bool.and_eq_true, ih]
    constructor
    · rintro ⟨hfirst, hrest⟩ before line heq
      cases before with
      | nil =>
        cases heq
        simpa using hfirst
      | cons d before =>
        rw [List.cons_append, List.cons.injEq] at heq
        exact hrest before line heq.2
    · intro h
      refine ⟨?_, fun before line heq => h (c :: before) line (by rw [heq]; rfl)⟩
      by_cases hc : c = '\n'
      · have hline := h [] cs (by rw [hc]; rfl)
        simpa [hc] using hline
      · simp [hc]

instance (b : Char) (text : List Char) : Decidable (IndentedBy b text) :=
  decidable_of_iff _ isIndentedBy_iff

theorem cut_regular {b : Char} {before cs : List Char} (hr : '\r' ∉ cs)
    (hb : IndentedBy b (before ++ cs)) {atStart : Bool}
    (hstart : atStart = true → before.getLast? = some '\n') : Regular b atStart (cut cs) := by
  fun_induction cut cs generalizing before atStart with
  | case1 => trivial
  | case2 c cs r =>
    rename_i ih
    have hsplit : c :: cs = (c :: (tail c cs).2.1) ++ (tail c cs).2.2 := by
      rw [List.cons_append, tail_append]
    have hgenuine := tail_genuine c cs
    rw [hsplit] at hb
    rw [hsplit, List.mem_append, not_or] at hr
    refine ⟨fun hq => ?_, fun hq => ?_, fun hs hq => ⟨hgenuine.ne_nil, fun x hx => ?_⟩, ?_⟩
    · have htext := hgenuine.carriage hq
      simp only at htext
      rw [htext] at hr
      exact hr.1 List.mem_cons_self
    · have hhead := (of_run_eq (tail_comment hq).2.symm).2
      cases hcs : (tail c cs).2.2 with
      | nil =>
        rw [cut]
        rfl
      | cons d ds =>
        rw [hcs] at hhead hr
        have hd : d = '\n' := by
          have hne : d ≠ '\r' := fun h => hr.2 (by rw [h]; exact List.mem_cons_self)
          simpa [endsComment, hne] using hhead d rfl
        rw [hd, cut_cons]
        rfl
    · obtain ⟨start, hlast⟩ := List.getLast?_eq_some_iff.mp (hstart hs)
      refine hb start ((c :: (tail c cs).2.1) ++ (tail c cs).2.2) ?_ x ?_
      · rw [hlast, List.append_assoc, List.singleton_append]
      · rw [List.takeWhile_append_of_pos (hgenuine.blanks hq)]
        exact List.mem_append_left _ hx
    · rw [← List.append_assoc] at hb
      refine ih hr.2 hb fun hbreak => ?_
      rw [List.getLast?_append, hgenuine.getLast? (by simpa using hbreak), Option.some_or]

end Piece

end Offside
