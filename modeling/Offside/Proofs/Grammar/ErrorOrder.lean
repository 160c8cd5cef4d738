import Offside.Proofs.Grammar.ErrorPlaces
import Offside.Proofs.Source.LongestMatch

/-!
# The order of errors

Errors of the grammar are met one behind the other, so the tokens they stand in front of get fewer
and fewer (`Meets.exists_suffixes`). Counted from the front of the list, these tokens are places
that increase, up to the first end of input (`InOrder`). Tokens of a text are in its order, and so
their errors are, too.
-/

namespace Offside

/-! ## Tokens of a text -/

theorem Position.not_before_of_after {p q : Position} (cs : List Char)
    (h : ¬q.Before (p.after cs)) : ¬q.Before p := by
  intro hq
  by_cases hcs : cs = []
  · rw [hcs, after_nil] at h
    exact h hq
  · exact h (hq.trans (p.before_after hcs))

theorem Covers.ordered {before rest : List Char} {ts : List Token} (h : Covers before ts rest) :
    (∀ t ∈ ts, ¬t.pos.Before (.behind before)) ∧ ts.Pairwise fun t u => ¬u.pos.Before t.pos := by
  have hback : ∀ {before : List Char} (cs : List Char) {ts : List Token},
      (∀ t ∈ ts, ¬t.pos.Before (.behind (before ++ cs))) →
        ∀ t ∈ ts, ¬t.pos.Before (.behind before) := fun cs _ h t ht => by
    have hbehind := h t ht
    rw [← Position.after_behind] at hbehind
    exact Position.not_before_of_after cs hbehind
  induction h with
  | nil => exact ⟨fun _ ht => absurd ht List.not_mem_nil, .nil⟩
  | gap _ _ ih => exact ⟨hback _ ih.1, ih.2⟩
  | token hpos _ _ ih =>
    have hrest := hback _ ih.1
    refine ⟨List.forall_mem_cons.mpr ⟨?_, hrest⟩, List.pairwise_cons.mpr ⟨?_, ih.2⟩⟩
    · rw [hpos, Position.Before]
      omega
    · rwa [hpos]

open Source in
theorem tokenize_ordered {source : String} {ts : List Token} (h : tokenize source = .ok ts) :
    ts.Pairwise fun t u => ¬u.pos.Before t.pos := by
  obtain ⟨hnone, rfl⟩ := tokenize_eq_ok.mp h
  exact (coversAll (Piece.cut_genuine _) .outermost false [] (by simp) hnone).ordered.2

namespace Grammar

/-! ## Places -/

/-- The tokens in front of which errors are met: behind each error some are left, and the next one
is among them. -/
theorem Meets.exists_suffixes {stop : Position} {ts us : List Token} {es : List SyntaxError}
    (h : Meets stop ts es us) :
    ∃ vss : List (List Token), List.Forall₂ (fun e vs => e.pos = position stop vs) es vss ∧
      (∀ vs ∈ vss, vs <:+ ts) ∧ vss.Pairwise fun vs ws => vs.tail ≠ [] ∧ ws <:+ vs.tail := by
  induction h with
  | done _ => exact ⟨[], .nil, fun _ h => absurd h List.not_mem_nil, .nil⟩
  | @error ts vs us e es hvs hpos _ hlast _ ih =>
    obtain ⟨vss, hposs, hsuffix, hpairs⟩ := ih
    refine ⟨vs :: vss, .cons hpos hposs, ?_, List.pairwise_cons.mpr ⟨fun ws hws => ?_, hpairs⟩⟩
    · refine List.forall_mem_cons.mpr ⟨hvs, fun ws hws => ?_⟩
      exact ((hsuffix ws hws).trans (List.tail_suffix _)).trans hvs
    · refine ⟨fun htail => ?_, hsuffix ws hws⟩
      obtain rfl := hlast htail
      cases hposs
      cases hws

/-- The place of the first of some tokens that come last before the end of input. If there are none
of them, it is that of the end of input, or of the last token if the end is missing. -/
def place (ts vs : List Token) : Nat :=
  min ((ts.takeWhile Token.isInside).length - vs.length) (ts.length - 1)

section place

variable {ts vs ws : List Token}

theorem place_lt_place (hvs : vs <:+ ts.takeWhile Token.isInside) (htail : vs.tail ≠ [])
    (hws : ws <:+ vs.tail) : place ts vs < place ts ws := by
  have hlength := hvs.length_le
  have hinside := (List.takeWhile_prefix (l := ts) Token.isInside).length_le
  have hle := hws.length_le
  have hpos := List.length_pos_iff.mpr htail
  rw [List.length_tail] at hle hpos
  unfold place
  omega

theorem isInside_of_mem_take {t : Token} (ht : t ∈ ts.take (place ts vs)) : t.isInside = true := by
  have hprefix := List.takeWhile_prefix (l := ts) Token.isInside
  have htake : ts.take (place ts vs) <+: ts.takeWhile Token.isInside := by
    refine List.prefix_of_prefix_length_le (List.take_prefix _ _) hprefix ?_
    rw [List.length_take]
    unfold place
    omega
  exact List.mem_takeWhile_imp (htake.subset ht)

theorem exists_token_at_place (hts : ts ≠ []) (hvs : vs <:+ ts.takeWhile Token.isInside) :
    ∃ t, ts[place ts vs]? = some t ∧ t.pos = position (endPosition ts) vs := by
  have hpos := List.length_pos_iff.mpr hts
  have hprefix := List.takeWhile_prefix (l := ts) Token.isInside
  cases vs with
  | cons t vs =>
    obtain ⟨us, hus⟩ := hvs
    obtain ⟨rest, hrest⟩ := hprefix
    have hplace : place ts (t :: vs) = us.length := by
      have hlength := congrArg List.length hrest
      rw [← hus] at hlength
      rw [place, ← hus]
      simp only [List.length_append, List.length_cons] at hlength ⊢
      omega
    refine ⟨t, ?_, rfl⟩
    rw [hplace, ← hrest, ← hus, List.append_assoc, List.cons_append]
    simp
  | nil =>
    rcases first_end_cases ts with hinside | ⟨us, e, rest, rfl, hus, he⟩
    · have hall : ts.takeWhile Token.isInside = ts :=
        List.takeWhile_eq_self_iff.mpr fun t ht => by simpa [Token.isInside] using hinside t ht
      have hplace : place ts [] = ts.length - 1 := by
        rw [place, hall]
        simp
      refine ⟨ts.getLast hts, ?_, ?_⟩
      · rw [hplace, ← List.getLast?_eq_getElem?, List.getLast?_eq_some_getLast hts]
      · rw [position, endPosition_inside hinside, List.getLast?_eq_some_getLast hts]
        rfl
    · have hplace : place (us ++ e :: rest) [] = us.length := by
        rw [place, takeWhile_first_end hus he]
        simp
      exact ⟨e, by simp [hplace], by rw [position, endPosition_first_end hus he]⟩

end place

/-- Errors stand at places of a token list, each further on than the one before. None is behind the
first end of input, and so an error at it has no other behind. -/
structure InOrder (ts : List Token) (es : List SyntaxError) (places : List Nat) : Prop where
  tokens : List.Forall₂ (fun e p => ∃ t, ts[p]? = some t ∧ t.pos = e.pos) es places
  increasing : places.Pairwise (· < ·)
  inside : ∀ p ∈ places, ∀ t ∈ ts.take p, t.kind ≠ .endOfInput

theorem Meets.exists_places {ts us : List Token} {es : List SyntaxError} (hts : ts ≠ [])
    (h : Meets (endPosition ts) (ts.takeWhile Token.isInside) es us) :
    ∃ places, InOrder ts es places := by
  obtain ⟨vss, hpos, hsuffix, hpairs⟩ := h.exists_suffixes
  refine ⟨vss.map (place ts), ?_, ?_, ?_⟩
  · rw [List.forall₂_map_right_iff, List.forall₂_iff_zip]
    refine ⟨hpos.length_eq, fun {e vs} hmem => ?_⟩
    obtain ⟨t, ht, hat⟩ := exists_token_at_place hts (hsuffix vs (List.of_mem_zip hmem).2)
    exact ⟨t, ht, hat.trans ((List.forall₂_iff_zip.mp hpos).2 hmem).symm⟩
  · rw [List.pairwise_map]
    exact hpairs.imp_of_mem fun hvs _ h => place_lt_place (hsuffix _ hvs) h.1 h.2
  · rintro p hp t ht
    obtain ⟨vs, -, rfl⟩ := List.mem_map.mp hp
    simpa [Token.isInside] using isInside_of_mem_take ht

theorem InOrder.last {ts : List Token} {es : List SyntaxError} {places : List Nat}
    (h : InOrder ts es places) :
    places.Pairwise fun p _ => ∀ t, ts[p]? = some t → t.kind ≠ .endOfInput := by
  refine h.increasing.imp_of_mem fun {p q} _ hq hlt t ht => h.inside q hq t ?_
  obtain ⟨hp, rfl⟩ := List.getElem?_eq_some_iff.mp ht
  exact List.mem_take_iff_getElem.mpr ⟨p, by omega, rfl⟩

theorem InOrder.pairwise {R : Position → Position → Prop} {ts : List Token} {es : List SyntaxError}
    {places : List Nat} (h : InOrder ts es places) (hts : ts.Pairwise fun t u => R t.pos u.pos) :
    es.Pairwise fun d e => R d.pos e.pos := by
  rw [List.pairwise_iff_getElem] at hts ⊢
  intro i j hi hj hij
  have hlength := h.tokens.length_eq
  have hlt := List.pairwise_iff_getElem.mp h.increasing i j (by omega) (by omega) hij
  obtain ⟨t, ht, hpos⟩ := h.tokens.get hi (by omega)
  obtain ⟨u, hu, hpos'⟩ := h.tokens.get hj (by omega)
  obtain ⟨hp, rfl⟩ := List.getElem?_eq_some_iff.mp ht
  obtain ⟨hq, rfl⟩ := List.getElem?_eq_some_iff.mp hu
  have hrel := hts _ _ hp hq hlt
  rwa [hpos, hpos'] at hrel

end Grammar

open Grammar

theorem filter_comment_ne_nil {tokens : List Token} {es : List SyntaxError}
    (h : parse tokens = .error es) : tokens.filter (·.kind != .comment) ≠ [] := by
  intro hnil
  rw [parse, hnil] at h
  simp [skipNewlines, statements] at h

theorem errors_ordered {source : String} {tokens : List Token} {es : List SyntaxError}
    (hsource : tokenize source = .ok tokens) (h : parse tokens = .error es) :
    es.Pairwise fun d e => ¬e.pos.Before d.pos := by
  obtain ⟨-, rest, hmeets⟩ := meets_of_parse h
  obtain ⟨places, hplaces⟩ := hmeets.exists_places (filter_comment_ne_nil h)
  have hordered := (tokenize_ordered hsource).sublist
    (List.filter_sublist (p := (·.kind != .comment)))
  exact hplaces.pairwise (R := fun p q => ¬q.Before p) hordered

/-- **Errors are in order.** If a token list cannot be parsed, there are errors, and they stand at
tokens of the list without comments, each further on than the one before and none behind the first
end of input; so no two stand at one token, and only the last can stand at the end of input. The
errors of a text are in its order. -/
theorem parse_errors_inOrder {tokens : List Token} {es : List SyntaxError}
    (h : parse tokens = .error es) :
    es ≠ [] ∧
      (∃ places, InOrder (tokens.filter (·.kind != .comment)) es places ∧
        places.Pairwise fun p _ => ∀ t, (tokens.filter (·.kind != .comment))[p]? = some t →
          t.kind ≠ .endOfInput) ∧
      ∀ source, tokenize source = .ok tokens → es.Pairwise fun d e => ¬e.pos.Before d.pos := by
  obtain ⟨hne, rest, hmeets⟩ := meets_of_parse h
  obtain ⟨places, hplaces⟩ := hmeets.exists_places (filter_comment_ne_nil h)
  exact ⟨hne, ⟨places, hplaces, hplaces.last⟩, fun source hsource => errors_ordered hsource h⟩

/-- The tokens of a condition whose block has a lone `not` in it, which is reported one token back,
whose other branch is broken, and behind which a condition ends with the text. -/
def threefold : List Token :=
  [⟨.keyword .ifStmt, "IF", none, ⟨1, 1⟩⟩, ⟨.identifier, "a", some (.text "a"), ⟨1, 4⟩⟩,
    ⟨.newline, "\n", none, ⟨1, 5⟩⟩, ⟨.indent, "  ", none, ⟨2, 1⟩⟩,
    ⟨.identifier, "a", some (.text "a"), ⟨2, 3⟩⟩, ⟨.keyword .notOp, "not", none, ⟨2, 5⟩⟩,
    ⟨.identifier, "b", some (.text "b"), ⟨2, 9⟩⟩, ⟨.newline, "\n", none, ⟨2, 10⟩⟩,
    ⟨.dedent, "", none, ⟨3, 1⟩⟩, ⟨.keyword .elseStmt, "ELSE", none, ⟨3, 1⟩⟩,
    ⟨.symbol .rightParen, ")", none, ⟨3, 6⟩⟩, ⟨.newline, "\n", none, ⟨3, 7⟩⟩,
    ⟨.keyword .ifStmt, "IF", none, ⟨4, 1⟩⟩, ⟨.identifier, "a", some (.text "a"), ⟨4, 4⟩⟩,
    ⟨.endOfInput, "", none, ⟨4, 5⟩⟩]

def threefoldErrors : List SyntaxError :=
  [⟨.notWithoutIn, ⟨2, 5⟩⟩, ⟨.expected .newlineAfterElse "')'", ⟨3, 6⟩⟩,
    ⟨.expected .newlineAfterCondition "end of input", ⟨4, 5⟩⟩]

theorem parse_errors_inOrder_threefold :
    tokenize "IF a\n  a not b\nELSE )\nIF a" = .ok threefold ∧
    parse threefold = .error threefoldErrors ∧
    ∃ places, InOrder (threefold.filter (·.kind != .comment)) threefoldErrors places := by
  have hparse : parse threefold = .error threefoldErrors := by with_unfolding_all rfl
  obtain ⟨-, ⟨places, hplaces, -⟩, -⟩ := parse_errors_inOrder hparse
  exact ⟨by with_unfolding_all rfl, hparse, places, hplaces⟩

end Offside
