import Offside.Proofs.Grammar.ErrorOrder

/-!
# Errors of a text with an empty line put in

The errors of a text with an empty line put in are the errors of the text, and at most one more, at
the empty line. It is there exactly if the last error on the line before has lost the rest of that
line: nothing on it takes up a statement again (`parseSource_insert_error`).
-/

namespace Offside.Grammar

section gains

variable {all : List Token} {k : Nat} {past past' : Bool} {es es' : List SyntaxError}

theorem Gains.of_past (h : Gains all k true past' es es') :
    es' = es.map (.move (.below k)) ∧ ∀ e ∈ es, k ≤ e.pos.line := by
  generalize hpast : true = past at h
  induction h with
  | nil => exact ⟨rfl, by simp⟩
  | same he hkept h ih =>
    obtain ⟨rfl, hes⟩ := ih hpast
    exact ⟨rfl, List.forall_mem_cons.mpr ⟨he hpast.symm, hes⟩⟩
  | more => cases hpast

/-- No error on the line before has lost the rest of it, or else there is one error more, behind the
last of them. -/
theorem Gains.cases (h : Gains all k past past' es es') :
    es' = es.map (.move (.below k)) ∧ (∀ e ∈ es, e.pos.line + 1 = k → ∃ rest, Leaves all e rest ∧
        (losesLine rest = true → ∀ t ∈ rest, t.kind ≠ .newline)) ∨
      ∃ before e after rest, es = before ++ e :: after ∧ e.pos.line + 1 = k ∧
        (∀ e' ∈ after, k ≤ e'.pos.line) ∧ Leaves all e rest ∧ losesLine rest = true ∧
        es' = before.map (.move (.below k)) ++
          e.move (.below k) :: emptyLineError k :: after.map (.move (.below k)) := by
  induction h with
  | nil => exact .inl ⟨rfl, by simp⟩
  | @same past past' e es es' he hkept h ih =>
    obtain ⟨rfl, hall⟩ | ⟨before, f, after, rest, rfl, hf, hafter, hleaves, hloses, rfl⟩ := ih
    · exact .inl ⟨rfl, List.forall_mem_cons.mpr ⟨hkept, hall⟩⟩
    · exact .inr ⟨e :: before, f, after, rest, rfl, hf, hafter, hleaves, hloses, rfl⟩
  | @more past' e es es' he hlost h =>
    obtain ⟨rest, hleaves, hloses⟩ := hlost
    obtain ⟨rfl, hes⟩ := h.of_past
    exact .inr ⟨[], e, es, rest, rfl, he, hes, hleaves, hloses, rfl⟩

end gains

/-! ## Tokens of a text -/

section tokens

variable {k l : Nat} {u : Token} {us vs : List Token}

theorem mem_of_ending {xs : List Token} {e : Token} (h : us ++ u :: vs = xs ++ [e]) (hu : u ≠ e) :
    e ∈ vs := by
  rcases List.eq_nil_or_concat vs with rfl | ⟨ws, v, rfl⟩
  · have hlast := (List.append_inj' h rfl).2
    exact absurd (List.cons.inj hlast).1 hu
  · rw [List.concat_eq_append, ← List.cons_append, ← List.append_assoc] at h
    have hlast := (List.append_inj' h rfl).2
    rw [(List.cons.inj hlast).1]
    simp

theorem content_of_ending {e : Token} (hus : ∀ t ∈ us, t.kind ≠ .endOfInput)
    (he : e.kind = .endOfInput) : content (us ++ [e]) = us.filter (·.kind != .comment) := by
  rw [content_append_inside hus, content_end he, List.append_nil]

theorem parse_stretch {e : Token} {es : List SyntaxError} (h : Lined l (us ++ [e]))
    (hus : ∀ t ∈ us, t.kind ≠ .endOfInput) (he : e.kind = .endOfInput) (hk : k ≤ e.pos.line)
    (hparse : parse (us ++ [e]) = .error es) :
    ∃ es' past', parse (stretch k (us ++ [e])) = .error es' ∧
      Gains (content (us ++ [e])) k false past' es es' := by
  obtain ⟨hne, herrors⟩ := (parse_eq_error hus he).mp hparse
  have hstretch : stretch k (us ++ [e]) = stretch k us ++ [e.move (.below k)] := by
    rw [stretch_append, stretch_cons (by simp [he])]
    rfl
  have hinside : ∀ t ∈ stretch k us, t.kind ≠ .endOfInput := by
    intro t ht
    rcases mem_stretch ht with hkind | ⟨v, hv, hkind⟩
    · simp [hkind]
    · rw [hkind]
      exact hus v hv
  rw [content_of_ending hus he]
  have hcode : Stretched (us.filter (·.kind != .comment)) k false (us.filter (·.kind != .comment))
      ((stretch k us).filter (·.kind != .comment)) :=
    ⟨List.suffix_refl _, ⟨l, (Lined.append.mp h).1.filter, by simp⟩, stretch_filter us⟩
  obtain ⟨past', hgains, -⟩ : Statements.Tracks (us.filter (·.kind != .comment)) k false
      (statements e.pos false (skipNewlines (us.filter (·.kind != .comment))))
      (statements (e.pos.below k) false
        (skipNewlines ((stretch k us).filter (·.kind != .comment)))) :=
    (statementsTrack hk _).statements (Nat.lt_succ_self _) hcode.skipNewlines
  rw [herrors] at hgains
  have he' : (e.move (.below k)).kind = .endOfInput := he
  refine ⟨_, past', ?_, hgains⟩
  rw [hstretch, parse_eq_error hinside he']
  refine ⟨fun hnil => hne ?_, rfl⟩
  have hnil' : Gains (us.filter (·.kind != .comment)) k false past' es [] := hnil ▸ hgains
  cases hnil'
  rfl

theorem Leaves.mem_newline {all rest : List Token} {e : SyntaxError} (h : Leaves all e rest)
    (hall : Lined l all) (hu : u ∈ all) (hkind : u.kind = .newline)
    (hline : u.pos.line = e.pos.line) : u ∈ rest := by
  have hmem : ∀ {t : Token} {vs : List Token}, t :: vs <:+ all → t.pos.line = u.pos.line →
      u ∈ t :: vs := by
    rintro t vs ⟨us, rfl⟩ hpos
    rcases List.mem_append.mp hu with hus | hvs
    · obtain ⟨xs, ys, rfl⟩ := List.append_of_mem hus
      rw [List.append_assoc, List.cons_append] at hall
      have hlt := hall.lt_of_newline hkind t (by simp)
      omega
    · exact hvs
  cases h with
  | found h _ => exact hmem h hline.symm
  | indent h _ => exact hmem h hline.symm
  | @behind t us h ht =>
    refine (List.mem_cons.mp (hmem h hline.symm)).resolve_left ?_
    rintro rfl
    rw [ht] at hkind
    cases hkind

theorem exists_last {es : List SyntaxError} (h : ∃ e ∈ es, e.pos.line + 1 = k) :
    ∃ before e after, es = before ++ e :: after ∧ e.pos.line + 1 = k ∧
      ∀ e' ∈ after, e'.pos.line + 1 ≠ k := by
  induction es with
  | nil =>
    obtain ⟨e, he, -⟩ := h
    cases he
  | cons f es ih =>
    by_cases hmore : ∃ e ∈ es, e.pos.line + 1 = k
    · obtain ⟨before, e, after, rfl, he, hafter⟩ := ih hmore
      exact ⟨f :: before, e, after, rfl, he, hafter⟩
    · obtain ⟨e, he, hline⟩ := h
      rcases List.mem_cons.mp he with rfl | he
      · exact ⟨[], e, es, rfl, hline, fun e' he' hline' => hmore ⟨e', he', hline'⟩⟩
      · exact absurd ⟨e, he, hline⟩ hmore

/-- Where the line before the empty line is ended, the last error on it decides. -/
theorem Gains.outcome {all : List Token} {past past' : Bool} {es es' : List SyntaxError}
    (h : Gains all k past past' es es') (hall : Lined l all) (hu : u ∈ all)
    (hkind : u.kind = .newline) (hline : u.pos.line + 1 = k)
    (hordered : es.Pairwise fun d e => ¬e.pos.Before d.pos) :
    (∀ e ∈ es, e.pos.line + 1 ≠ k) ∧ es' = es.map (.move (.below k)) ∨
      ∃ before e after rest, es = before ++ e :: after ∧ e.pos.line + 1 = k ∧
        (∀ e' ∈ after, k ≤ e'.pos.line) ∧ Leaves all e rest ∧
        es' = before.map (.move (.below k)) ++
          e :: ((if losesLine rest then [emptyLineError k] else []) ++
            after.map (.move (.below k))) := by
  have hstay : ∀ {f : SyntaxError}, f.pos.line + 1 = k → f.move (.below k) = f :=
    fun hf => SyntaxError.move_below_of_lt (by omega)
  obtain ⟨rfl, hkept⟩ | ⟨before, f, after, rest, rfl, hf, hafter, hleaves, hloses, rfl⟩ := h.cases
  · by_cases hsome : ∃ e ∈ es, e.pos.line + 1 = k
    · obtain ⟨before, f, after, rfl, hf, hafter⟩ := exists_last hsome
      obtain ⟨rest, hleaves, hnone⟩ := hkept f (by simp) hf
      -- the newline that ends the line is left, so the line would not have been all that is lost
      have hends := hleaves.mem_newline hall hu hkind (by omega)
      have hloses : losesLine rest = false := by
        rw [← Bool.not_eq_true]
        exact fun hloses => hnone hloses u hends hkind
      refine .inr ⟨before, f, after, rest, rfl, hf, fun e' he' => ?_, hleaves, ?_⟩
      · have hbehind := (List.pairwise_append.mp hordered).2.1
        have hle : f.pos.line ≤ e'.pos.line :=
          Nat.not_lt.mp fun hlt => List.rel_of_pairwise_cons hbehind he' (.inl hlt)
        have hne := hafter e' he'
        omega
      · rw [hloses, List.map_append, List.map_cons, hstay hf]
        rfl
    · exact .inl ⟨fun e he hline => hsome ⟨e, he, hline⟩, rfl⟩
  · refine .inr ⟨before, f, after, rest, rfl, hf, hafter, hleaves, ?_⟩
    rw [hloses, hstay hf]
    rfl

end tokens

end Offside.Grammar

namespace Offside

open Grammar Source

theorem parseSource_insert_gains {s₁ s₂ : String} {es : List SyntaxError}
    (hlast : s₁.toList.getLast? = some '\n')
    (h : parseSource (s₁ ++ s₂) = .error (.syntactic es)) :
    ∃ ts u es' past', tokenize (s₁ ++ s₂) = .ok ts ∧ parse ts = .error es ∧ Lined 1 (content ts) ∧
      u ∈ content ts ∧ u.kind = .newline ∧ u.pos.line = s₁.toList.count '\n' ∧
      parseSource (s₁ ++ "\n" ++ s₂) = .error (.syntactic es') ∧
      Gains (content ts) (s₁.toList.count '\n' + 1) false past' es es' := by
  obtain ⟨hne, hlines⟩ := wholeLines_of_getLast? hlast
  have hlist : (s₁ ++ s₂).toList = s₁.toList ++ s₂.toList := String.toList_append
  have hlist' : (s₁ ++ "\n" ++ s₂).toList = s₁.toList ++ ([] ++ '\n' :: s₂.toList) := by
    simp [String.toList_append]
  rw [parseSource_eq_syntactic, hlist] at h
  obtain ⟨hfaultless, hparse⟩ := h
  have htokenize : tokenize (s₁ ++ s₂) = .ok (tokensOf (scan (s₁.toList ++ s₂.toList))) :=
    tokenize_eq_ok.mpr ⟨by rwa [hlist], by rw [hlist]⟩
  obtain ⟨us, u, vs, htokens, hu, huline, -, hinsert⟩ := tokens_insert hne hlines s₂.toList
  obtain ⟨htokens', hfaultless'⟩ := hinsert [] (.inl rfl)
  have hlined := scan_lined (s₁.toList ++ s₂.toList)
  obtain ⟨xs, e, hts, he, hxs⟩ := (scan_laid hfaultless).exists_ending
  have hue : u ≠ e := fun hue => by simp [← hue, hu] at he
  have hline : u.pos.line < e.pos.line := by
    rw [htokens] at hlined hts
    exact hlined.lt_of_newline hu e (mem_of_ending hts hue)
  have hstretch : tokensOf (scan (s₁.toList ++ ([] ++ '\n' :: s₂.toList))) =
      stretch (s₁.toList.count '\n' + 1) (xs ++ [e]) := by
    rw [← hts, htokens', htokens, cut_empty]
    rw [htokens] at hlined
    exact (stretch_newline hlined hu (by rw [huline])).symm
  have hk : s₁.toList.count '\n' + 1 ≤ e.pos.line := by omega
  have humem : u ∈ content (xs ++ [e]) := by
    have hmem : u ∈ xs ++ [e] := by simp [← hts, htokens]
    rw [content_of_ending hxs he, List.mem_filter]
    exact ⟨(List.mem_append.mp hmem).resolve_right (by simpa using hue), by simp [hu]⟩
  rw [hts] at hlined hparse htokenize
  have hcontent : Lined 1 (content (xs ++ [e])) := by
    rw [content_of_ending hxs he]
    exact (Lined.append.mp hlined).1.filter
  obtain ⟨es', past', hparse', hgains⟩ := parse_stretch hlined hxs he hk hparse
  have hresult : parseSource (s₁ ++ "\n" ++ s₂) = .error (.syntactic es') := by
    rw [parseSource_eq_syntactic, hlist', hstretch]
    exact ⟨hfaultless' hfaultless, hparse'⟩
  exact ⟨_, u, es', past', htokenize, hparse, hcontent, humem, hu, huline, hresult, hgains⟩

/-- **Errors and empty lines.** If a source text has syntax errors, and an empty line is put in
behind one of its line feeds, the errors are the same with the lines further down moved. If there
are errors on the line before, one more may follow the last of them, at the empty line. It does if
recovery from that error passes over the rest of the line. -/
theorem parseSource_insert_error {s₁ s₂ : String} {es : List SyntaxError}
    (hlast : s₁.toList.getLast? = some '\n')
    (h : parseSource (s₁ ++ s₂) = .error (.syntactic es)) :
    ∃ ts, tokenize (s₁ ++ s₂) = .ok ts ∧
      ((∀ e ∈ es, e.pos.line ≠ s₁.toList.count '\n') ∧
          parseSource (s₁ ++ "\n" ++ s₂) =
            .error (.syntactic (es.map (.move (.below (s₁.toList.count '\n' + 1))))) ∨
        ∃ before e after rest, es = before ++ e :: after ∧ e.pos.line = s₁.toList.count '\n' ∧
          (∀ e' ∈ after, s₁.toList.count '\n' < e'.pos.line) ∧ Leaves (content ts) e rest ∧
          parseSource (s₁ ++ "\n" ++ s₂) =
            .error (.syntactic (before.map (.move (.below (s₁.toList.count '\n' + 1))) ++
              e :: ((if losesLine rest then
                  [⟨.expectedExpression "newline", ⟨s₁.toList.count '\n' + 1, 1⟩⟩] else []) ++
                after.map (.move (.below (s₁.toList.count '\n' + 1))))))) := by
  obtain ⟨ts, u, es', past', hts, hparse, hlined, hu, hkind, huline, hresult, hgains⟩ :=
    parseSource_insert_gains hlast h
  have hordered := errors_ordered hts hparse
  refine ⟨ts, hts, ?_⟩
  rw [hresult]
  obtain ⟨hnone, rfl⟩ | ⟨before, e, after, rest, rfl, he, hafter, hleaves, rfl⟩ :=
    hgains.outcome hlined hu hkind (by rw [huline]) hordered
  · exact .inl ⟨fun e he hline => hnone e he (by rw [hline]), rfl⟩
  · exact .inr ⟨before, e, after, rest, rfl, Nat.succ.inj he, hafter, hleaves, rfl⟩

-- the error loses no line: `SET` takes up a statement, and that ends with the line
example : parseSource ("INIT ) SET x y\n" ++ "\n" ++ "PASS\n") =
    .error (.syntactic [⟨.expected .variableName "')'", ⟨1, 6⟩⟩]) := by with_unfolding_all rfl

/-- The empty line is put in behind a line without an error, between two errors. -/
theorem parseSource_insert_error_between :
    parseSource ("INIT INIT\nPASS\n" ++ "INIT\n") =
        .error (.syntactic [⟨.expected .variableName "'INIT'", ⟨1, 6⟩⟩,
          ⟨.expected .variableName "newline", ⟨3, 5⟩⟩]) ∧
      parseSource ("INIT INIT\nPASS\n" ++ "\n" ++ "INIT\n") =
        .error (.syntactic [⟨.expected .variableName "'INIT'", ⟨1, 6⟩⟩,
          ⟨.expected .variableName "newline", ⟨4, 5⟩⟩]) := by
  have h : parseSource ("INIT INIT\nPASS\n" ++ "INIT\n") =
      .error (.syntactic [⟨.expected .variableName "'INIT'", ⟨1, 6⟩⟩,
        ⟨.expected .variableName "newline", ⟨3, 5⟩⟩]) := by with_unfolding_all rfl
  refine ⟨h, ?_⟩
  obtain ⟨ts, -, ⟨-, hsame⟩ | ⟨before, e, after, rest, hes, hline, -⟩⟩ :=
    parseSource_insert_error rfl h
  · exact hsame
  · -- neither error is on the second line
    have he : e ∈ before ++ e :: after := by simp
    rw [← hes, List.mem_cons, List.mem_singleton] at he
    rcases he with rfl | rfl <;> cases hline

/-- Behind a line with an error, the empty line is one error more. -/
theorem empty_line_error :
    ¬ ∀ (s₁ s₂ : String) (es : List SyntaxError), s₁.toList.getLast? = some '\n' →
      parseSource (s₁ ++ s₂) = .error (.syntactic es) →
      parseSource (s₁ ++ "\n" ++ s₂) =
        .error (.syntactic (es.map (.move (.below (s₁.toList.count '\n' + 1))))) := by
  intro h
  have hone : parseSource ("INIT\n" ++ "PASS\n") =
      .error (.syntactic [⟨.expected .variableName "newline", ⟨1, 5⟩⟩]) := by with_unfolding_all rfl
  have htwo : parseSource ("INIT\n" ++ "\n" ++ "PASS\n") =
      .error (.syntactic [⟨.expected .variableName "newline", ⟨1, 5⟩⟩,
        ⟨.expectedExpression "newline", ⟨2, 1⟩⟩]) := by with_unfolding_all rfl
  have hsame := h "INIT\n" "PASS\n" _ rfl hone
  rw [htwo] at hsame
  cases hsame

end Offside
