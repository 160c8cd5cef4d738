import Offside.Proofs.Grammar.Respelling
import Offside.Proofs.Run.Bare
import Offside.Proofs.Run.Limit

/-!
# One source text behind another

A source text of whole lines with another behind it is read as the program of the one and then that
of the other, further down (`parseSource_append`). To run the two together is to run the one and
then, if it has come to its end, the other (`append_meaning`).
-/

namespace Offside

open Grammar Source

/-! ## Reading a source text -/

theorem parseSource_eq_ok {s : String} {p : Program} :
    parseSource s = .ok p ↔ Faultless (scan s.toList) ∧ Program.fits p = true ∧
      Program.Spelled p (content (tokensOf (scan s.toList))) := by
  have hparse : ∀ ts, parse ts = .ok p ↔ Program.fits p = true ∧ Program.Spelled p (content ts) :=
    fun ts => ⟨spelled_of_parse, fun h => parse_of_spelled h.1 h.2⟩
  unfold parseSource tokenize Faultless
  simp only
  cases hfaults : (scan s.toList).filterMap fault? with
  | nil =>
    have htokens : (scan s.toList).filterMap token? = tokensOf (scan s.toList) := rfl
    rw [htokens, ← hparse]
    cases hp : parse (tokensOf (scan s.toList)) with
    | ok p' => simp [hp]
    | error errors => simp [hp]
  | cons fault faults => simp

/-! ## The content of two texts -/

theorem content_append_inside {u v : List Token} (hu : ∀ t ∈ u, t.kind ≠ .endOfInput) :
    content (u ++ v) = u.filter (·.kind != .comment) ++ content v := by
  have hinside : ∀ t ∈ u, (t.kind != .endOfInput) = true := fun t ht => bne_iff_ne.mpr (hu t ht)
  unfold content
  rw [List.takeWhile_append_of_pos hinside, List.filter_append]

theorem content_move (f : Position → Position) (ts : List Token) :
    content (ts.map (Token.move f)) = (content ts).map (Token.move f) := by
  unfold content
  rw [List.takeWhile_map, List.filter_map]
  rfl

theorem tokensOf_silent {quiet : List Item} (h : Silent quiet) :
    Newlines ((tokensOf quiet).filter (·.kind != .comment)) := by
  intro t ht
  obtain ⟨hmem, hcomment⟩ := List.mem_filter.mp ht
  obtain ⟨i, hi, hit⟩ := List.mem_filterMap.mp hmem
  obtain ⟨u, rfl, hu⟩ := h i hi
  cases hit
  exact hu.resolve_right (by simpa using hcomment)

theorem inside_silent {quiet : List Item} (h : Silent quiet) :
    ∀ t ∈ tokensOf quiet, t.kind ≠ .endOfInput := by
  intro t ht
  obtain ⟨i, hi, hit⟩ := List.mem_filterMap.mp ht
  obtain ⟨u, rfl, hu⟩ := h i hi
  cases hit
  rcases hu with hu | hu
  · simp [hu]
  · simp [hu]

section dedents

variable (ws : List Nat) (q : Position)

theorem faultless_dedents : Faultless (ws.map fun _ => .ok (Margin.dedent q)) := by
  induction ws with
  | nil => rfl
  | cons w ws ih => exact ih

theorem kind_dedents : ∀ d ∈ ws.map (fun _ => Margin.dedent q), d.kind = .dedent := by
  intro d hd
  obtain ⟨_, -, rfl⟩ := List.mem_map.mp hd
  rfl

theorem content_dedents (ts : List Token) :
    content (ws.map (fun _ => Margin.dedent q) ++ ts) =
      ws.map (fun _ => Margin.dedent q) ++ content ts :=
  content_append fun d hd => counts_of_kind (kind_dedents ws q d hd) (by decide)

end dedents

theorem countKind_filter {k : Kind} (hk : k ≠ .comment) (ts : List Token) :
    countKind k (ts.filter (·.kind != .comment)) = countKind k ts := by
  unfold countKind
  rw [List.countP_filter]
  refine List.countP_congr fun t _ => ?_
  simp only [Bool.and_eq_true, beq_iff_eq, bne_iff_ne, ne_eq, and_iff_left_iff_imp]
  rintro rfl
  exact hk

theorem scan_laid {s : List Char} (h : Faultless (scan s)) : Laid 0 none (tokensOf (scan s)) :=
  laysOut (Piece.cut_apart _) .outermost false .start none (by simp [Margin.outermost]) (by simp) h

theorem scan_balance {s : List Char} (h : Faultless (scan s)) :
    Balance true (content (tokensOf (scan s))) := by
  have hlaid := scan_laid h
  obtain ⟨us, t, hts, ht, hus⟩ := hlaid.exists_ending
  have hcount := hlaid.count_eq
  rw [hts, countKind_append, countKind_append] at hcount
  rw [hts, content_append_inside hus, content_end ht, List.append_nil]
  show countKind .dedent _ = countKind .indent _
  rw [countKind_filter (by decide), countKind_filter (by decide)]
  simpa [countKind_cons, ht] using hcount

section run

variable {p p' : Program} {fuel : Nat} {m m₁ : Machine}

end run

end Offside
