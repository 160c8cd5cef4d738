import Offside.Proofs.Run.Concatenation
import Offside.Proofs.Source.Insertion

/-!
# Lines without code

A program does not change when an empty line or a comment is put in between two of its lines, but
for the positions further down, and not at all when its last line is ended (`parseSource_insert`).
In between two lines there is a newline, and more newlines can be put in wherever there is one
(`Clause.Spelled.padded`). The last line may have none. A newline there comes before the ends of the
blocks that are open, so it ends the last statement in the innermost of them
(`Clause.Spelled.newline`).
-/

namespace Offside

open Grammar Source

/-! ## A newline at the end -/

/-- Tokens `v` in front of the ends of blocks. They do not end where a block has just begun. -/
structure Ending (v ds : List Token) : Prop where
  dedents : ∀ d ∈ ds, d.kind = .dedent
  ne_nil : v ≠ []
  last : ∀ u ∈ v.getLast?, u.kind ≠ .indent

namespace Ending

variable {v ds w x : List Token}

theorem split (h : Ending v ds) (heq : x ++ w = v ++ ds)
    (hw : ∃ u w', w = u :: w' ∧ u.kind ≠ .dedent) :
    ∃ z, v = x ++ z ∧ w = z ++ ds ∧ Ending z ds := by
  obtain ⟨u, w', rfl, hu⟩ := hw
  have hmem : u ∉ ds := fun hmem => hu (h.dedents u hmem)
  rcases List.append_eq_append_iff.mp heq with ⟨z, rfl, hz⟩ | ⟨z, rfl, hz⟩
  · have hne : z ≠ [] := by
      rintro rfl
      rw [List.nil_append] at hz
      exact hmem (hz ▸ List.mem_cons_self)
    refine ⟨z, rfl, hz, h.dedents, hne, ?_⟩
    rw [← List.getLast?_append_of_ne_nil x hne]
    exact h.last
  · refine absurd ?_ hmem
    rw [hz]
    exact List.mem_append_right z List.mem_cons_self

theorem not_code (h : Ending v ds) (hds : ds ≠ []) (hcode : ∀ u ∈ v ++ ds, u.kind.isCode = true) :
    False := by
  obtain ⟨d, hd⟩ := List.exists_mem_of_ne_nil ds hds
  have htrue := hcode d (List.mem_append_right v hd)
  rw [h.dedents d hd] at htrue
  cases htrue

theorem eq_nil_of_newlines (h : Ending v ds) (hds : ds ≠ []) (hw : Newlines w)
    (heq : x ++ w = v ++ ds) : w = [] := by
  by_contra hne
  have hlast : w.getLast? = ds.getLast? := by
    rw [← List.getLast?_append_of_ne_nil x hne, heq, List.getLast?_append_of_ne_nil v hds]
  rw [List.getLast?_eq_some_getLast hds] at hlast
  have hnewline := hw _ (List.mem_of_getLast? hlast)
  rw [h.dedents _ (List.getLast_mem hds)] at hnewline
  cases hnewline

end Ending

/-- Whether a clause is a list of statements, behind which there can be newlines. -/
def Clause.isList : Clause → Bool
  | .statements _ => true
  | _ => false

theorem Clause.Spelled.not_dedent {c : Clause} {closed : Bool} {w : List Token}
    (h : c.Spelled closed w) (hlist : c.isList = false) :
    ∃ u w', w = u :: w' ∧ u.kind ≠ .dedent := by
  have hcode : ∀ {u : Token} {w' : List Token}, u.kind.isCode = true →
      ∃ u' w'', u :: w' = u' :: w'' ∧ u'.kind ≠ .dedent := by
    intro u w' hu
    refine ⟨u, w', rfl, fun hk => ?_⟩
    rw [hk] at hu
    cases hu
  have hphrase : ∀ {e : Expr} {u v : List Token}, (Phrase.expr e).Spelled u →
      ∃ u' w', u ++ v = u' :: w' ∧ u'.kind ≠ .dedent := by
    intro e u v he
    obtain ⟨t, u', rfl, -⟩ := spelled_opens he
    exact hcode (he.isCode t List.mem_cons_self)
  cases h with
  | init ht | set ht | ret ht | retValue ht | pass ht | call ht | definition ht | loop ht
  | condition ht => exact hcode (isCode_of_kind ht rfl)
  | expression he =>
    have hfirst := hphrase (v := []) he
    rwa [List.append_nil] at hfirst
  | noElse he => exact hphrase he
  | withElse he | elseIf he | elsif he =>
    rw [List.append_assoc]
    exact hphrase he
  | closedBlock hnl | openBlock hnl => exact ⟨_, _, rfl, by rw [hnl]; decide⟩
  | nil | cons => cases hlist

theorem Clause.Spelled.statements_not_dedent {p : List Stmt} {closed : Bool} {w : List Token}
    (h : (Clause.statements p).Spelled closed w) (hp : p ≠ []) :
    ∃ u w', w = u :: w' ∧ u.kind ≠ .dedent := by
  obtain ⟨s, rest, rfl⟩ := List.exists_cons_of_ne_nil hp
  obtain ⟨u, n, v, rfl, _, hs⟩ := h.begins
  obtain ⟨x, u', rfl, hx⟩ := hs.not_dedent rfl
  exact ⟨x, u' ++ n ++ v, by simp, hx⟩

theorem Clause.Spelled.newline {c : Clause} {closed : Bool} {w v ds : List Token} {t : Token}
    (h : c.Spelled closed w) (hclosed : closed = true) (hw : w = v ++ ds) (hend : Ending v ds)
    (hlist : c.isList = false → ds ≠ []) (ht : t.kind = .newline) :
    c.Spelled true (v ++ t :: ds) := by
  induction h generalizing v ds with
  | init hk hn he | set hk hn he =>
    refine (hend.not_code (hlist rfl) ?_).elim
    rw [← hw, List.forall_mem_cons, List.forall_mem_cons]
    exact ⟨isCode_of_kind hk rfl, isCode_of_kind hn rfl, he.isCode⟩
  | ret hk | pass hk =>
    refine (hend.not_code (hlist rfl) ?_).elim
    rw [← hw, List.forall_mem_singleton]
    exact isCode_of_kind hk rfl
  | retValue hk he =>
    refine (hend.not_code (hlist rfl) ?_).elim
    rw [← hw, List.forall_mem_cons]
    exact ⟨isCode_of_kind hk rfl, he.isCode⟩
  | call hn hs =>
    refine (hend.not_code (hlist rfl) ?_).elim
    rw [← hw, List.forall_mem_cons]
    exact ⟨isCode_of_kind hn rfl, hs.isCode⟩
  | expression he =>
    refine (hend.not_code (hlist rfl) ?_).elim
    rw [← hw]
    exact he.isCode
  | definition hk hn hps hb ih =>
    obtain ⟨z, rfl, hz, hend'⟩ := hend.split hw (hb.not_dedent rfl)
    rw [List.append_assoc]
    exact .definition hk hn hps (ih hclosed hz hend' fun _ => hlist rfl)
  | loop hk he hb ih =>
    obtain ⟨z, rfl, hz, hend'⟩ := hend.split hw (hb.not_dedent rfl)
    rw [List.append_assoc]
    exact .loop hk he (ih hclosed hz hend' fun _ => hlist rfl)
  | @condition k s _ w hk hs ih =>
    obtain ⟨z, rfl, hz, hend'⟩ := hend.split (x := [k]) hw (hs.not_dedent rfl)
    exact .condition hk (ih hclosed hz hend' fun _ => hlist rfl)
  | noElse he hb ih =>
    obtain ⟨z, rfl, hz, hend'⟩ := hend.split hw (hb.not_dedent rfl)
    rw [List.append_assoc]
    exact .noElse he (ih hclosed hz hend' fun _ => hlist rfl)
  | @withElse k test body other _ u v' w he hb hk ho ihb iho =>
    rw [List.append_cons] at hw
    obtain ⟨z, rfl, hz, hend'⟩ := hend.split hw (ho.not_dedent rfl)
    have hother := iho hclosed hz hend' fun _ => hlist rfl
    have hall := Clause.Spelled.withElse he hb hk hother
    simpa using hall
  | @elseIf k k' test body s _ u v' w he hb hk hk' hs ihb ihs =>
    rw [List.append_cons, List.append_cons] at hw
    obtain ⟨z, rfl, hz, hend'⟩ := hend.split hw (hs.not_dedent rfl)
    have hother := ihs hclosed hz hend' fun _ => hlist rfl
    have hall := Clause.Spelled.elseIf he hb hk hk' hother
    simpa using hall
  | @elsif k test body s _ u v' w he hb hk hs ihb ihs =>
    rw [List.append_cons] at hw
    obtain ⟨z, rfl, hz, hend'⟩ := hend.split hw (hs.not_dedent rfl)
    have hother := ihs hclosed hz hend' fun _ => hlist rfl
    have hall := Clause.Spelled.elsif he hb hk hother
    simpa using hall
  | @closedBlock n k i d body w hnl hn hi hb hd ih =>
    obtain ⟨ds, d', rfl⟩ := (List.eq_nil_or_concat' ds).resolve_left (hlist rfl)
    rw [← List.append_assoc] at hw
    obtain ⟨hw, hdd⟩ := List.append_inj' hw rfl
    have hinner : Ending v ds :=
      ⟨fun x hx => hend.dedents x (List.mem_append_left _ hx), hend.ne_nil, hend.last⟩
    obtain ⟨z, rfl, hz, hz'⟩ := hinner.split hw ⟨i, w, rfl, by rw [hi]; decide⟩
    obtain ⟨j, z, rfl⟩ := List.exists_cons_of_ne_nil hz'.ne_nil
    obtain ⟨rfl, hbody⟩ := List.cons.inj hz
    -- the block has statements, since its first line has code
    have hne : z ≠ [] := by
      rintro rfl
      exact hz'.last i rfl hi
    have hlast : ∀ u ∈ z.getLast?, u.kind ≠ .indent := by
      intro u hu
      exact hz'.last u (by rw [List.getLast?_cons, hu]; rfl)
    have hstatements := ih rfl hbody ⟨hinner.dedents, hne, hlast⟩ (by simp [Clause.isList])
    rw [← List.cons.inj hdd |>.1]
    have hall := Clause.Spelled.closedBlock hnl hn hi hstatements hd
    simpa using hall
  | openBlock => cases hclosed
  | nil => exact absurd (List.append_eq_nil_iff.mp hw.symm).1 hend.ne_nil
  | @cons s rest n _ _ u v' hs hn hr hends hopen ihs ihr =>
    obtain ⟨rfl, rfl⟩ := Bool.and_eq_true_iff.mp hclosed
    by_cases hrest : rest = []
    · subst hrest
      obtain rfl := hr.of_nil
      rw [List.append_nil] at hw
      by_cases hds : ds = []
      · subst hds
        rw [List.append_nil] at hw
        have hn' : Newlines (n ++ [t]) := List.forall_mem_append.mpr ⟨hn, by simpa using ht⟩
        have hall := Clause.Spelled.cons hs hn' hr (.inl (by simp)) (by simp)
        rw [← hw]
        simpa using hall
      · obtain rfl := hend.eq_nil_of_newlines hds hn hw
        rw [List.append_nil] at hw
        have hlast := Clause.Spelled.cons (ihs rfl hw hend fun _ => hds) hn hr hends (by simp)
        simpa using hlast
    · have hfirst := hr.statements_not_dedent hrest
      obtain ⟨z, rfl, hz, hend'⟩ := hend.split hw hfirst
      have hstatements := ihr rfl hz hend' (by simp [Clause.isList])
      have hall := Clause.Spelled.cons hs hn hstatements hends (by simp)
      simpa using hall

/-- A newline at the end of a program, and the ends of its blocks elsewhere. -/
theorem Program.Spelled.newline {p : Program} {v ds ds' : List Token} {t : Token}
    (h : Program.Spelled p (v ++ ds)) (hbalance : Balance true (v ++ ds))
    (hds : ∀ d ∈ ds, d.kind = .dedent) (hds' : ∀ d ∈ ds', d.kind = .dedent)
    (hlength : ds.length = ds'.length) (hlast : ∀ u ∈ v.getLast?, u.kind ≠ .indent)
    (ht : t.kind = .newline) : Program.Spelled p (v ++ t :: ds') := by
  obtain ⟨n, w, heq, hn, hw⟩ := h.closed hbalance
  have hhere : Program.Spelled p (v ++ t :: ds) := by
    by_cases hp : p = []
    · subst hp
      obtain rfl := hw.of_nil
      rw [List.append_nil] at heq
      -- there are only newlines
      have hnil : ds = [] := by
        rw [List.eq_nil_iff_forall_not_mem]
        intro d hd
        have hnewline := hn d (heq ▸ List.mem_append_right v hd)
        rw [hds d hd] at hnewline
        cases hnewline
      subst hnil
      rw [List.append_nil] at heq
      refine ⟨v ++ [t], [], true, by simp, List.forall_mem_append.mpr ⟨?_, by simpa using ht⟩, hw⟩
      rw [heq]
      exact hn
    · have hv : v ≠ [] := by
        rintro rfl
        obtain ⟨u, w', rfl, hu⟩ := hw.statements_not_dedent hp
        rw [List.nil_append] at heq
        exact hu (hds u (heq ▸ List.mem_append_right n List.mem_cons_self))
      obtain ⟨z, rfl, hz, hend⟩ :=
        Ending.split ⟨hds, hv, hlast⟩ heq.symm (hw.statements_not_dedent hp)
      refine ⟨n, z ++ t :: ds, true, List.append_assoc .., hn, ?_⟩
      exact hw.newline rfl hz hend (by simp [Clause.isList]) ht
  have hpadded : Padded (fun p => p) (v ++ t :: ds) (v ++ t :: ds') := by
    rw [List.append_cons v t ds, List.append_cons v t ds']
    exact (Padded.refl _).append (Padded.dedents hds hds' hlength)
  have hsame : recastAll (.moved fun p => p) p = p := recastAll_same p
  rw [← hsame]
  exact hhere.padded hpadded

/-! ## Reading a text with a line more -/

section read

variable {s : String} {p : Program}

theorem content_newline {t : Token} (ht : t.kind = .newline) (ts : List Token) :
    content (t :: ts) = t :: content ts :=
  content_append (w := [t]) (by simpa using counts_of_kind ht (by decide))

/-- The content of a text, and its content when a line without code has been put in. -/
theorem padded_insert {s₁ : List Char} (hs : s₁ ≠ []) (hlines : WholeLines s₁) (s₂ : List Char)
    {line : List Char} (hline : Unseen line) :
    Padded (.below (s₁.count '\n' + 1)) (content (tokensOf (scan (s₁ ++ s₂))))
      (content (tokensOf (scan (s₁ ++ (line ++ '\n' :: s₂))))) := by
  obtain ⟨us, u, vs, htokens, hu, -, hus, hinsert⟩ := tokens_insert hs hlines s₂
  have hmoved : ∀ t ∈ us.map (Token.move (.below (s₁.count '\n' + 1))), t.kind ≠ .endOfInput := by
    intro t ht
    obtain ⟨t', ht', rfl⟩ := List.mem_map.mp ht
    exact hus t' ht'
  have hsilent := silent_found (p := ⟨s₁.count '\n' + 1, 1⟩) hline
  rw [htokens, (hinsert line hline).1, content_append_inside hus, content_append_inside hmoved,
    content_newline hu, content_newline (t := u.move _) hu,
    content_append_inside (inside_silent hsilent), content_move, List.filter_map]
  refine (Padded.map_move _).append ?_
  have hkind : u.kind.isCode = false := by
    rw [hu]
    rfl
  exact .layout hkind rfl (tokensOf_silent hsilent) (fun _ => hu) (.map_move _)

theorem parseSource_below {s₁ s₂ line : List Char} (hs : s.toList = s₁ ++ s₂) (hne : s₁ ≠ [])
    (hlines : WholeLines s₁) (hline : Unseen line) (h : parseSource s = .ok p) :
    parseSource (.ofList (s₁ ++ (line ++ '\n' :: s₂))) =
      .ok (recastAll (.moved (.below (s₁.count '\n' + 1))) p) := by
  rw [parseSource_eq_ok, hs] at h
  obtain ⟨hfaultless, hfits, hspelled⟩ := h
  obtain ⟨us, u, vs, -, -, -, -, hinsert⟩ := tokens_insert hne hlines s₂
  rw [parseSource_eq_ok, String.toList_ofList]
  exact ⟨(hinsert line hline).2 hfaultless, (fitBody_moved _ p).trans hfits,
    hspelled.padded (padded_insert hne hlines s₂ hline)⟩

theorem last_ne_indent {before : List Item} {m : Margin} {q : Position} {cs : List Char}
    (hscan : scan cs = before ++ items m false q []) (h : Faultless (scan cs)) :
    ∀ u ∈ ((tokensOf before).filter (·.kind != .comment)).getLast?, u.kind ≠ .indent := by
  intro u hu hindent
  obtain ⟨ys, hys⟩ := List.getLast?_eq_some_iff.mp hu
  obtain ⟨xs, zs, htokens, -, hzs⟩ := List.filter_eq_append_iff.mp hys
  obtain ⟨xs', zs', rfl, -, -, hcomments⟩ := List.filter_eq_cons_iff.mp hzs
  have hlaid := scan_laid h
  rw [hscan, tokensOf_append, htokens, List.append_assoc, List.append_assoc,
    ← List.append_assoc] at hlaid
  obtain ⟨n, hn⟩ := hlaid.exists_at (List.cons_ne_nil _ _)
  obtain ⟨-, c, hc, hcode⟩ := hn.at_indent hindent
  -- behind the indent there are comments, ends of blocks, and the end of the input
  have hmem : c ∈ zs' ++ tokensOf (items m false q []) := List.mem_of_head? hc
  rcases List.mem_append.mp hmem with hmem | hmem
  · have hcomment : c.kind = .comment := by
      simpa using List.filter_eq_nil_iff.mp hcomments c hmem
    rw [hcomment] at hcode
    cases hcode
  · rw [items, tokensOf_append, tokensOf_map_ok, List.mem_append] at hmem
    rcases hmem with hmem | hmem
    · obtain ⟨_, -, rfl⟩ := List.mem_map.mp hmem
      cases hcode
    · rw [List.mem_singleton.mp hmem] at hcode
      cases hcode

theorem faultless_closing (m : Margin) (b : Bool) (q : Position) : Faultless (items m b q []) := by
  rw [items]
  refine faultless_append.mpr ⟨?_, rfl⟩
  rw [Margin.closeTo, List.map_map]
  exact faultless_dedents _ q

theorem content_closing (m : Margin) (b : Bool) (q : Position) :
    content (tokensOf (items m b q [])) =
      (m.widths.takeWhile (0 < ·)).map fun _ => Margin.dedent q := by
  have hend : content (tokensOf [.ok ⟨.endOfInput, "", none, q⟩]) = [] := rfl
  rw [items, tokensOf_append, tokensOf_map_ok, Margin.closeTo, content_dedents, hend,
    List.append_nil]

theorem parseSource_newline (h : parseSource s = .ok p) : parseSource (s ++ "\n") = .ok p := by
  obtain ⟨hfaultless, hfits, hspelled⟩ := parseSource_eq_ok.mp h
  have hbalance := scan_balance hfaultless
  obtain ⟨before, m, q, q', r, hinside, hscan, hnewline⟩ := scan_newline s.toList
  have hlast := last_ne_indent hscan hfaultless
  have hfront : ∀ t ∈ tokensOf before, t.kind ≠ .endOfInput := by
    intro t ht
    obtain ⟨i, hi, hit⟩ := List.mem_filterMap.mp ht
    cases i with
    | error e => cases hit
    | ok t' =>
      cases hit
      exact hinside t hi
  rw [hscan, faultless_append] at hfaultless
  rw [hscan, tokensOf_append, content_append_inside hfront, content_closing] at hspelled hbalance
  have hlist : (s ++ "\n").toList = s.toList ++ ['\n'] := String.toList_append
  rw [parseSource_eq_ok, hlist, hnewline]
  refine ⟨faultless_append.mpr ⟨hfaultless.1, faultless_closing m true q'⟩, hfits, ?_⟩
  have htokens : tokensOf (.ok ⟨.newline, "\n", none, r⟩ :: items m true q' []) =
      ⟨.newline, "\n", none, r⟩ :: tokensOf (items m true q' []) := rfl
  rw [tokensOf_append, content_append_inside hfront, htokens, content_newline rfl, content_closing]
  exact hspelled.newline hbalance (kind_dedents _ q) (kind_dedents _ q') (by simp) hlast rfl

end read

/-- **Lines without code.** If a source text is a program, it is the same program, with the lines
further down moved, when an empty line or a comment that begins in the first column is put in behind
one of its line feeds. A line feed at its end changes nothing. -/
theorem parseSource_insert {s : String} {p : Program} (h : parseSource s = .ok p) :
    (∀ s₁ s₂ line, s = s₁ ++ s₂ → s₁.toList.getLast? = some '\n' → Unseen line.toList →
      parseSource (s₁ ++ (line ++ "\n") ++ s₂) =
        .ok (recastAll (.moved (.below (s₁.toList.count '\n' + 1))) p)) ∧
    parseSource (s ++ "\n") = .ok p := by
  refine ⟨fun s₁ s₂ line hs hlast hline => ?_, parseSource_newline h⟩
  obtain ⟨hne, hlines⟩ := wholeLines_of_getLast? hlast
  have hlist : s.toList = s₁.toList ++ s₂.toList := by rw [hs, String.toList_append]
  have htext : s₁ ++ (line ++ "\n") ++ s₂ =
      .ofList (s₁.toList ++ (line.toList ++ '\n' :: s₂.toList)) := by
    rw [← String.ofList_toList (s := s₁ ++ (line ++ "\n") ++ s₂)]
    simp [String.toList_append]
  rw [htext]
  exact parseSource_below hlist hne hlines hline h

/-- A comment is put in between a header and its block, and the call below moves. A line feed at the
end of the text leaves it where it is. -/
theorem parseSource_insert_block :
    parseSource ("DEF F # f\n" ++ ("#" ++ "\n") ++ "  PASS\nF") =
        .ok [.definition ⟨"F", ⟨1, 5⟩⟩ [] [.pass], .expression (.call ⟨"F", ⟨4, 1⟩⟩ [])] ∧
      parseSource ("DEF F # f\n  PASS\nF" ++ "\n") =
        .ok [.definition ⟨"F", ⟨1, 5⟩⟩ [] [.pass], .expression (.call ⟨"F", ⟨3, 1⟩⟩ [])] := by
  have h : parseSource "DEF F # f\n  PASS\nF" =
      .ok [.definition ⟨"F", ⟨1, 5⟩⟩ [] [.pass], .expression (.call ⟨"F", ⟨3, 1⟩⟩ [])] := by
    with_unfolding_all rfl
  have hall := parseSource_insert h
  exact ⟨hall.1 "DEF F # f\n" "  PASS\nF" "#" rfl rfl (.inr ⟨[], rfl, by simp⟩), hall.2⟩

end Offside
