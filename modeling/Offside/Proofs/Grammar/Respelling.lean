import Mathlib.Data.Option.Basic
import Offside.Proofs.Grammar.Programs
import Offside.Proofs.Source.Joining
import Offside.Proofs.Syntax.Recast

/-!
# Spellings elsewhere

What a program is does not depend on where its tokens stand, and one newline is as good as several.
Tokens that have been moved, with more newlines behind those there were, spell the program with its
positions moved (`Clause.Spelled.padded`).

Two programs one after the other are spelled by the tokens of the one and then those of the other,
if all blocks of the first are closed and its last line is ended (`Program.Spelled.append`).
-/

namespace Offside

open Grammar

/-! ## Trees elsewhere -/

section moved

variable (f : Position → Position)

theorem recastArgs_eq_map (τ : Recast) (es : List Expr) :
    recastArgs τ es = es.map (·.recast τ) := by
  induction es with
  | nil => rfl
  | cons e es ih => rw [recastArgs, ih, List.map_cons]

namespace Expr

theorem tier_moved (e : Expr) : (e.recast (.moved f)).tier = e.tier := by
  cases e <;> simp [Expr.recast, tier]

theorem leading_moved (e : Expr) : (e.recast (.moved f)).leading = e.leading.recast (.moved f) := by
  fun_induction leading e with
  | case1 left op p right ih => simpa [Expr.recast, leading] using ih
  | case2 first links ih => simpa [Expr.recast, leading] using ih
  | case3 condition left right ih => simpa [Expr.recast, leading] using ih
  | case4 e hbinary hcomparison hternary =>
    cases e with
    | binary left op p right => exact absurd rfl (hbinary left op p right)
    | comparison first links => exact absurd rfl (hcomparison first links)
    | ternary condition left right => exact absurd rfl (hternary condition left right)
    | _ => simp [Expr.recast, leading]

theorem startsWithCommand_moved (e : Expr) :
    (e.recast (.moved f)).startsWithCommand = e.startsWithCommand := by
  unfold startsWithCommand
  rw [leading_moved]
  cases e.leading with
  | name k n => cases k <;> simp [Expr.recast]
  | _ => simp [Expr.recast]

theorem startsWithSign_moved (e : Expr) :
    (e.recast (.moved f)).startsWithSign = e.startsWithSign := by
  unfold startsWithSign
  rw [leading_moved]
  cases e.leading <;> simp [Expr.recast]

end Expr

mutual

theorem Expr.fits_moved : ∀ e : Expr, (e.recast (.moved f)).fits = e.fits
  | .literal _ => by simp [Expr.recast]
  | .name _ _ => by simp [Expr.recast, Expr.fits]
  | .group inner => by
    simp [Expr.recast, Expr.fits, Expr.fits_moved inner, inner.startsWithCommand_moved]
  | .unary _ _ right => by
    simp [Expr.recast, Expr.fits, Expr.fits_moved right, right.tier_moved]
  | .binary left _ _ right => by
    simp [Expr.recast, Expr.fits, Expr.fits_moved left, Expr.fits_moved right, left.tier_moved,
      right.tier_moved]
  | .comparison first links => by
    have hempty : (recastLinks (.moved f) links).isEmpty = links.isEmpty := by
      cases links <;> simp [recastLinks]
    simp [Expr.recast, Expr.fits, Expr.fits_moved first, fitLinks_moved links, first.tier_moved,
      hempty]
  | .ternary condition left right => by
    simp [Expr.recast, Expr.fits, Expr.fits_moved condition, Expr.fits_moved left,
      Expr.fits_moved right, left.tier_moved]
  | .call _ args => by
    have htail : (recastArgs (.moved f) args).tail.all (!·.startsWithSign) =
        args.tail.all (!·.startsWithSign) := by
      rw [recastArgs_eq_map, ← List.map_tail, List.all_map]
      simp [Function.comp_def, Expr.startsWithSign_moved]
    simp [Expr.recast, Expr.fits, fitAll_moved args, htail]

theorem fitLinks_moved : ∀ links : List (Link Expr),
    fitLinks (recastLinks (.moved f) links) = fitLinks links
  | [] => by simp [recastLinks]
  | ⟨_, _, right⟩ :: links => by
    simp [recastLinks, fitLinks, Expr.fits_moved right, right.tier_moved, fitLinks_moved links]

theorem fitAll_moved : ∀ es : List Expr, fitAll (recastArgs (.moved f) es) = fitAll es
  | [] => by simp [recastArgs]
  | e :: es => by simp [recastArgs, fitAll, Expr.fits_moved e, fitAll_moved es]

end

theorem fitBody_append (p p' : List Stmt) :
    fitBody (p ++ p') = (fitBody p && fitBody p') := by
  induction p with
  | nil => rfl
  | cons s p ih => rw [List.cons_append, fitBody, fitBody, ih, Bool.and_assoc]

mutual

theorem Stmt.fits_moved : ∀ s : Stmt, fitBody (s.recast (.moved f)) = s.fits
  | .init _ e => by simp [Stmt.recast, fitBody, Stmt.fits, e.fits_moved]
  | .set _ e => by simp [Stmt.recast, fitBody, Stmt.fits, e.fits_moved]
  | .condition test thenBody none => by
    simp [Stmt.recast, fitBody, Stmt.fits, test.fits_moved, fitBody_moved thenBody]
  | .condition test thenBody (some elseBody) => by
    simp [Stmt.recast, fitBody, Stmt.fits, test.fits_moved, fitBody_moved thenBody,
      fitBody_moved elseBody]
  | .loop test body => by
    simp [Stmt.recast, fitBody, Stmt.fits, test.fits_moved, fitBody_moved body]
  | .definition _ _ body => by simp [Stmt.recast, fitBody, Stmt.fits, fitBody_moved body]
  | .ret _ none => by simp [Stmt.recast, fitBody, Stmt.fits]
  | .ret _ (some e) => by simp [Stmt.recast, fitBody, Stmt.fits, e.fits_moved]
  | .expression e => by
    simp [Stmt.recast, fitBody, Stmt.fits, e.fits_moved, e.startsWithCommand_moved]
  | .body stmts => by simp [Stmt.recast, fitBody, Stmt.fits]
  | .pass => by simp [Stmt.recast, fitBody, Stmt.fits]

theorem fitBody_moved : ∀ p : List Stmt, fitBody (recastAll (.moved f) p) = fitBody p
  | [] => by simp [recastAll]
  | s :: rest => by
    simp [recastAll, fitBody, fitBody_append, Stmt.fits_moved s, fitBody_moved rest]

end

end moved

/-! ## Tokens elsewhere -/

/-- The tokens `w` at other positions, and perhaps with more newlines behind those there are. Only
the positions of code matter. -/
inductive Padded (f : Position → Position) : List Token → List Token → Prop
  | nil : Padded f [] []
  | code {t w w'} (ht : t.kind.isCode = true) (h : Padded f w w') :
      Padded f (t :: w) (t.move f :: w')
  | layout {t t' n w w'} (ht : t.kind.isCode = false) (hkind : t'.kind = t.kind) (hn : Newlines n)
      (hpad : n ≠ [] → t.kind = .newline) (h : Padded f w w') : Padded f (t :: w) (t' :: n ++ w')

namespace Padded

variable {f : Position → Position} {t : Token} {u v w w' : List Token}

theorem eq_nil (h : Padded f [] w') : w' = [] := by
  cases h
  rfl

theorem append {u' v' : List Token} (hu : Padded f u u') (hv : Padded f v v') :
    Padded f (u ++ v) (u' ++ v') := by
  induction hu with
  | nil => exact hv
  | code ht h ih => exact .code ht ih
  | layout ht hkind hn hpad h ih =>
    rw [List.append_assoc]
    exact .layout ht hkind hn hpad ih

theorem of_append (h : Padded f (u ++ v) w') :
    ∃ u' v', w' = u' ++ v' ∧ Padded f u u' ∧ Padded f v v' := by
  induction u generalizing w' with
  | nil => exact ⟨[], w', rfl, .nil, h⟩
  | cons t u ih =>
    cases h with
    | code ht h =>
      obtain ⟨u', v', rfl, hu, hv⟩ := ih h
      exact ⟨t.move f :: u', v', rfl, .code ht hu, hv⟩
    | @layout _ t' n _ _ ht hkind hn hpad h =>
      obtain ⟨u', v', rfl, hu, hv⟩ := ih h
      exact ⟨t' :: n ++ u', v', (List.append_assoc ..).symm, .layout ht hkind hn hpad hu, hv⟩

theorem of_code (h : Padded f (t :: w) w') {k : Kind} (ht : t.kind = k) (hk : k.isCode = true) :
    ∃ v, w' = t.move f :: v ∧ Padded f w v := by
  cases h with
  | code _ h => exact ⟨_, rfl, h⟩
  | layout ht' => simp [ht, hk] at ht'

theorem of_isCode (h : Padded f w w') (hw : ∀ t ∈ w, t.kind.isCode = true) :
    w' = w.map (Token.move f) := by
  induction h with
  | nil => rfl
  | code ht h ih => rw [ih (List.forall_mem_cons.mp hw).2, List.map_cons]
  | layout ht => simp [(List.forall_mem_cons.mp hw).1] at ht

theorem of_kind (h : Padded f (t :: w) w') {k : Kind} (ht : t.kind = k)
    (hk : k.isCode = false ∧ k ≠ .newline) :
    ∃ t' v, w' = t' :: v ∧ t'.kind = k ∧ Padded f w v := by
  cases h with
  | code ht' => simp [ht, hk.1] at ht'
  | @layout _ t' n _ _ _ hkind hn hpad h =>
    obtain rfl : n = [] := by
      by_contra hne
      exact hk.2 (ht ▸ hpad hne)
    exact ⟨t', _, rfl, hkind.trans ht, h⟩

theorem newlines (h : Padded f w w') (hw : Newlines w) :
    Newlines w' ∧ (w ≠ [] → w' ≠ []) := by
  induction h with
  | nil => exact ⟨hw, id⟩
  | code ht => simp [hw _ List.mem_cons_self, Kind.isCode] at ht
  | layout ht hkind hn hpad h ih =>
    obtain ⟨hnewline, hw⟩ := List.forall_mem_cons.mp hw
    have hrest := List.forall_mem_append.mpr ⟨hn, (ih hw).1⟩
    exact ⟨List.forall_mem_cons.mpr ⟨hkind.trans hnewline, hrest⟩, by simp⟩

theorem header {n : List Token} (h : Padded f (t :: n) w') (ht : t.kind = .newline)
    (hn : Newlines n) : ∃ t' n', w' = t' :: n' ∧ t'.kind = .newline ∧ Newlines n' := by
  obtain ⟨hnewlines, hne⟩ := h.newlines (List.forall_mem_cons.mpr ⟨ht, hn⟩)
  obtain ⟨t', n', rfl⟩ := List.exists_cons_of_ne_nil (hne (List.cons_ne_nil t n))
  exact ⟨t', n', rfl, List.forall_mem_cons.mp hnewlines⟩

theorem newline {n : List Token} (ht : t.kind = .newline) (hn : Newlines n) :
    Padded f [t] (t :: n) := by
  have hpadded : Padded f [t] (t :: n ++ []) :=
    .layout (by rw [ht]; rfl) rfl hn (fun _ => ht) .nil
  rwa [List.append_nil] at hpadded

theorem map_move (w : List Token) : Padded f w (w.map (Token.move f)) := by
  induction w with
  | nil => exact .nil
  | cons t w ih =>
    by_cases ht : t.kind.isCode = true
    · exact .code ht ih
    · exact .layout (n := []) (by simpa using ht) rfl newlines_nil (by simp) ih

theorem refl (w : List Token) : Padded (fun p => p) w w := by
  have hmove := map_move (f := fun p => p) w
  rwa [show Token.move (fun p => p) = id from rfl, List.map_id] at hmove

theorem dedents {ds ds' : List Token} (hds : ∀ d ∈ ds, d.kind = .dedent)
    (hds' : ∀ d ∈ ds', d.kind = .dedent) (hlength : ds.length = ds'.length) :
    Padded f ds ds' := by
  induction ds generalizing ds' with
  | nil =>
    rw [List.eq_nil_of_length_eq_zero hlength.symm]
    exact .nil
  | cons d ds ih =>
    cases ds' with
    | nil => cases hlength
    | cons d' ds' =>
      obtain ⟨hd, hds⟩ := List.forall_mem_cons.mp hds
      obtain ⟨hd', hds'⟩ := List.forall_mem_cons.mp hds'
      have hrest := ih hds hds' (Nat.succ.inj hlength)
      exact .layout (n := []) (by rw [hd]; rfl) (hd'.trans hd.symm) newlines_nil (by simp) hrest

end Padded

/-! ## Spellings of expressions -/

def Phrase.move (f : Position → Position) : Phrase → Phrase
  | .expr e => .expr (e.recast (.moved f))
  | .links ls => .links (recastLinks (.moved f) ls)
  | .args es => .args (recastArgs (.moved f) es)

section expressions

variable {f : Position → Position}

theorem Literal.SpelledBy.move {v : Literal} {t : Token} (h : v.SpelledBy t) :
    v.SpelledBy (t.move f) := by
  cases v with
  | boolean b => cases b <;> exact h
  | _ => exact h

theorem BinaryOp.SpelledAt.move {op : BinaryOp} {p : Position} {o : List Token}
    (h : op.SpelledAt p o) : op.SpelledAt (f p) (o.map (Token.move f)) := by
  obtain ⟨hwords, hpos⟩ := h
  refine ⟨?_, ?_⟩
  · rw [← hwords, List.map_map]
    rfl
  · cases o with
    | nil => cases hpos
    | cons t o =>
      cases hpos
      rfl

theorem Phrase.Spelled.move {ph : Phrase} {w : List Token} (h : ph.Spelled w) :
    (ph.move f).Spelled (w.map (Token.move f)) := by
  induction h with
  | literal ht =>
    simp only [Phrase.move, Expr.recast]
    exact .literal ht.move
  | name ht =>
    simp only [Phrase.move, Expr.recast]
    exact .name (t := Token.move f _) ht
  | group ht he hu ihe =>
    simp only [Phrase.move, Expr.recast, List.map_append, List.map_cons]
    exact .group ht ihe hu
  | call ht hn hs hu ihs =>
    simp only [Phrase.move, Expr.recast, List.map_append, List.map_cons]
    exact .call (n := Token.move f _) ht hn ihs hu
  | unary ht he ihe =>
    simp only [Phrase.move, Expr.recast, List.map_cons]
    exact .unary (t := Token.move f _) ht ihe
  | binary hl ho hr ihl ihr =>
    simp only [Phrase.move, Expr.recast, List.map_append]
    exact .binary ihl ho.move ihr
  | comparison hf hs ihf ihs =>
    simp only [Phrase.move, Expr.recast, List.map_append]
    exact .comparison ihf ihs
  | ternary hl ht hc ht' hr ihl ihc ihr =>
    simp only [Phrase.move, Expr.recast, List.map_append, List.map_cons]
    exact .ternary ihl ht ihc ht' ihr
  | noLink => exact .noLink
  | link ho hr hs ihr ihs =>
    simp only [Phrase.move, recastLinks, List.map_append]
    exact .link ho.move ihr ihs
  | noArg => exact .noArg
  | arg he hs ihe ihs =>
    simp only [Phrase.move, recastArgs, List.map_append]
    exact .arg ihe ihs

theorem Phrase.Spelled.padded {ph : Phrase} {w w' : List Token} (h : ph.Spelled w)
    (hw : Padded f w w') : (ph.move f).Spelled w' := by
  rw [hw.of_isCode h.isCode]
  exact h.move

end expressions

/-! ## Spellings of statements -/

def Stmt.move (f : Position → Position) (s : Stmt) : Stmt := (s.recast (.moved f)).headD .pass

theorem Stmt.recast_moved_eq (f : Position → Position) (s : Stmt) :
    s.recast (.moved f) = [s.move f] := by
  unfold Stmt.move
  cases s with
  | condition test thenBody elseBody? => cases elseBody? <;> simp [Stmt.recast]
  | ret p value? => cases value? <;> simp [Stmt.recast]
  | _ => simp [Stmt.recast]

theorem recastAll_moved_eq (f : Position → Position) (p : List Stmt) :
    recastAll (.moved f) p = p.map (Stmt.move f) := by
  induction p with
  | nil => rfl
  | cons s p ih => rw [recastAll, ih, Stmt.recast_moved_eq, List.map_cons, List.singleton_append]

def Clause.move (f : Position → Position) : Clause → Clause
  | .statement s => .statement (s.move f)
  | .condition s => .condition (s.move f)
  | .block body => .block (recastAll (.moved f) body)
  | .statements body => .statements (recastAll (.moved f) body)

section statements

variable {f : Position → Position}

theorem Stmt.move_else (test : Expr) (body other : List Stmt) :
    (Stmt.condition test body (some other)).move f =
      .condition (test.recast (.moved f)) (recastAll (.moved f) body)
        (some (recastAll (.moved f) other)) := by
  simp [Stmt.move, Stmt.recast]

theorem Stmt.startsWithSign_move (s : Stmt) : (s.move f).startsWithSign = s.startsWithSign := by
  unfold Stmt.move
  cases s with
  | expression e =>
    simp only [Stmt.recast, List.headD_cons, Stmt.startsWithSign]
    exact e.startsWithSign_moved f
  | condition test thenBody elseBody? => cases elseBody? <;> simp [Stmt.recast, Stmt.startsWithSign]
  | ret p value? => cases value? <;> simp [Stmt.recast, Stmt.startsWithSign]
  | _ => simp [Stmt.recast, Stmt.startsWithSign]

theorem Stmt.EndsBefore.move {s : Stmt} {n n' : List Token} {rest : List Stmt}
    (h : s.EndsBefore n rest) (hn : n ≠ [] → n' ≠ []) :
    (s.move f).EndsBefore n' (rest.map (Stmt.move f)) := by
  rcases h with h | rfl | h
  · exact .inl (hn h)
  · exact .inr (.inl rfl)
  · refine .inr (.inr ?_)
    cases s with
    | condition test thenBody elseBody? => cases elseBody? <;> simp [Stmt.move, Stmt.recast]
    | ret p value? =>
      cases value? with
      | none => cases h
      | some e =>
        have hmove : (Stmt.ret p (some e)).move f = .ret (f p) (some (e.recast (.moved f))) := by
          simp [Stmt.move, Stmt.recast]
        rw [hmove]
        intro s' hs'
        rw [List.head?_map, Option.mem_map] at hs'
        obtain ⟨s, hs, rfl⟩ := hs'
        rw [Stmt.startsWithSign_move]
        exact h s hs
    | loop | definition => simp [Stmt.move, Stmt.recast]
    | _ => cases h

/-- Tokens that have been moved, with more newlines, spell the clause there. -/
theorem Clause.Spelled.padded {c : Clause} {closed : Bool} {w w' : List Token}
    (h : c.Spelled closed w) (hw : Padded f w w') : (c.move f).Spelled closed w' := by
  induction h generalizing w' with
  | init ht hn he =>
    obtain ⟨w', rfl, hw'⟩ := hw.of_code ht rfl
    obtain ⟨w', rfl, hrest⟩ := hw'.of_code hn rfl
    exact .init (n := Token.move f _) ht hn (he.padded hrest)
  | set ht hn he =>
    obtain ⟨w', rfl, hw'⟩ := hw.of_code ht rfl
    obtain ⟨w', rfl, hrest⟩ := hw'.of_code hn rfl
    exact .set (n := Token.move f _) ht hn (he.padded hrest)
  | ret ht =>
    obtain ⟨w', rfl, hrest⟩ := hw.of_code ht rfl
    rw [hrest.eq_nil]
    exact .ret (t := Token.move f _) ht
  | retValue ht he =>
    obtain ⟨w', rfl, hrest⟩ := hw.of_code ht rfl
    exact .retValue (t := Token.move f _) ht (he.padded hrest)
  | pass ht =>
    obtain ⟨w', rfl, hrest⟩ := hw.of_code ht rfl
    rw [hrest.eq_nil]
    exact .pass ht
  | call hn hs =>
    obtain ⟨w', rfl, hrest⟩ := hw.of_code hn rfl
    exact .call (n := Token.move f _) hn (hs.padded hrest)
  | expression he => exact .expression (he.padded hw)
  | @definition t n params body closed w ht hn hps hb ih =>
    obtain ⟨u', v', rfl, hu, hv⟩ := hw.of_append
    obtain ⟨u', rfl, hu'⟩ := hu.of_code ht rfl
    obtain ⟨u', rfl, hparams⟩ := hu'.of_code hn rfl
    have hcode : ∀ p ∈ params, p.kind.isCode = true := fun p hp => isCode_of_kind (hps p hp) rfl
    rw [hparams.of_isCode hcode]
    have hdef : (Clause.statement (.definition (nameOf (n.move f))
        ((params.map (Token.move f)).map nameOf) (recastAll (.moved f) body))).Spelled closed
        (t.move f :: n.move f :: params.map (Token.move f) ++ v') :=
      .definition ht hn (by simpa [Token.move] using hps) (ih hv)
    have hnames : (params.map (Token.move f)).map nameOf =
        (params.map nameOf).map (·.recast (.moved f)) := by
      rw [List.map_map, List.map_map]
      rfl
    rw [hnames] at hdef
    exact hdef
  | loop ht he hb ih =>
    obtain ⟨u', v', rfl, hu, hv⟩ := hw.of_append
    obtain ⟨u', rfl, htest⟩ := hu.of_code ht rfl
    exact .loop ht (he.padded htest) (ih hv)
  | condition ht hs ih =>
    obtain ⟨w', rfl, hrest⟩ := hw.of_code ht rfl
    exact .condition ht (ih hrest)
  | noElse he hb ih =>
    obtain ⟨u', v', rfl, hu, hv⟩ := hw.of_append
    exact .noElse (he.padded hu) (ih hv)
  | withElse he hb ht ho ihb iho =>
    obtain ⟨x, y, rfl, hx, hy⟩ := hw.of_append
    obtain ⟨u', v', rfl, hu, hv⟩ := hx.of_append
    obtain ⟨w', rfl, hother⟩ := hy.of_code ht rfl
    exact .withElse (he.padded hu) (ihb hv) ht (iho hother)
  | elseIf he hb ht ht' hs ihb ihs =>
    obtain ⟨x, y, rfl, hx, hy⟩ := hw.of_append
    obtain ⟨u', v', rfl, hu, hv⟩ := hx.of_append
    obtain ⟨y, rfl, hy'⟩ := hy.of_code ht rfl
    obtain ⟨w', rfl, hrest⟩ := hy'.of_code ht' rfl
    rw [Clause.move, Stmt.move_else, recastAll_moved_eq f [_]]
    exact .elseIf (he.padded hu) (ihb hv) ht ht' (ihs hrest)
  | elsif he hb ht hs ihb ihs =>
    obtain ⟨x, y, rfl, hx, hy⟩ := hw.of_append
    obtain ⟨u', v', rfl, hu, hv⟩ := hx.of_append
    obtain ⟨w', rfl, hrest⟩ := hy.of_code ht rfl
    rw [Clause.move, Stmt.move_else, recastAll_moved_eq f [_]]
    exact .elsif (he.padded hu) (ihb hv) ht (ihs hrest)
  | closedBlock hnl hn hi hb hd ih =>
    obtain ⟨x, z, rfl, hx, hz⟩ := hw.of_append
    obtain ⟨y, x, rfl, hy, hx'⟩ := hx.of_append
    obtain ⟨t', n', rfl, hnl', hn'⟩ := hy.header hnl hn
    obtain ⟨i', w', rfl, hi', hbody⟩ := hx'.of_kind hi (by decide)
    obtain ⟨d', z, rfl, hd', hend⟩ := hz.of_kind hd (by decide)
    rw [hend.eq_nil]
    exact .closedBlock hnl' hn' hi' (ih hbody) hd'
  | openBlock hnl hn hi hb ih =>
    obtain ⟨y, x, rfl, hy, hx⟩ := hw.of_append
    obtain ⟨t', n', rfl, hnl', hn'⟩ := hy.header hnl hn
    obtain ⟨i', w', rfl, hi', hbody⟩ := hx.of_kind hi (by decide)
    exact .openBlock hnl' hn' hi' (ih hbody)
  | nil =>
    rw [hw.eq_nil]
    exact .nil
  | @cons s rest n closed closed' u v hs hn hr hend hopen ihs ihr =>
    obtain ⟨x, v', rfl, hx, hv⟩ := hw.of_append
    obtain ⟨u', n', rfl, hu, hnn⟩ := hx.of_append
    obtain ⟨hn', hne⟩ := hnn.newlines hn
    have hr' := ihr hv
    simp only [Clause.move, recastAll_moved_eq] at hr' ⊢
    refine .cons (ihs hu) hn' hr' (hend.move hne) fun hc => ?_
    obtain ⟨rfl, rfl⟩ := hopen hc
    exact ⟨hnn.eq_nil, rfl⟩

end statements

/-! ## Open and closed blocks -/

/-- Every block that begins in `w` ends there; or one of them does not, if `closed` is false. -/
def Balance (closed : Bool) (w : List Token) : Prop :=
  if closed then countKind .dedent w = countKind .indent w
  else countKind .dedent w < countKind .indent w

namespace Balance

variable {closed : Bool} {u v w : List Token}

theorem of_flat (h : ∀ t ∈ w, t.kind ≠ .indent ∧ t.kind ≠ .dedent) : Balance true w := by
  have hi : countKind .indent w = 0 := countKind_eq_zero fun t ht => (h t ht).1
  have hd : countKind .dedent w = 0 := countKind_eq_zero fun t ht => (h t ht).2
  exact hd.trans hi.symm

theorem of_isCode (h : ∀ t ∈ w, t.kind.isCode = true) : Balance true w := by
  refine of_flat fun t ht => ⟨fun hk => ?_, fun hk => ?_⟩
  all_goals
    have hcode := h t ht
    rw [hk] at hcode
    cases hcode

theorem of_newlines (h : Newlines w) : Balance true w := by
  refine of_flat fun t ht => ?_
  rw [h t ht]
  decide

theorem append (hu : Balance true u) (hv : Balance closed v) : Balance closed (u ++ v) := by
  have hu' : countKind .dedent u = countKind .indent u := hu
  unfold Balance at hv ⊢
  rw [countKind_append, countKind_append]
  split_ifs at hv ⊢ <;> omega

theorem cons {t : Token} (ht : t.kind.isCode = true) (hw : Balance closed w) :
    Balance closed (t :: w) :=
  append (u := [t]) (of_isCode (by simpa using ht)) hw

end Balance

/-- Whether the blocks of a clause are closed can be told from its layout. -/
theorem Clause.Spelled.balance {c : Clause} {closed : Bool} {w : List Token}
    (h : c.Spelled closed w) : Balance closed w := by
  induction h with
  | init ht hn he =>
    exact .cons (isCode_of_kind ht rfl) (.cons (isCode_of_kind hn rfl) (.of_isCode he.isCode))
  | set ht hn he =>
    exact .cons (isCode_of_kind ht rfl) (.cons (isCode_of_kind hn rfl) (.of_isCode he.isCode))
  | ret ht | pass ht => exact .of_isCode (by simpa using isCode_of_kind ht rfl)
  | retValue ht he => exact .cons (isCode_of_kind ht rfl) (.of_isCode he.isCode)
  | call hn hs => exact .cons (isCode_of_kind hn rfl) (.of_isCode hs.isCode)
  | expression he => exact .of_isCode he.isCode
  | definition ht hn hps hb ih =>
    have hparams := Balance.of_isCode fun p hp => isCode_of_kind (hps p hp) rfl
    exact .cons (isCode_of_kind ht rfl) (.cons (isCode_of_kind hn rfl) (hparams.append ih))
  | loop ht he hb ih =>
    exact .cons (isCode_of_kind ht rfl) ((Balance.of_isCode he.isCode).append ih)
  | condition ht hs ih => exact .cons (isCode_of_kind ht rfl) ih
  | noElse he hb ih => exact (Balance.of_isCode he.isCode).append ih
  | withElse he hb ht ho ihb iho =>
    exact ((Balance.of_isCode he.isCode).append ihb).append (.cons (isCode_of_kind ht rfl) iho)
  | elseIf he hb ht ht' hs ihb ihs =>
    exact ((Balance.of_isCode he.isCode).append ihb).append
      (.cons (isCode_of_kind ht rfl) (.cons (isCode_of_kind ht' rfl) ihs))
  | elsif he hb ht hs ihb ihs =>
    exact ((Balance.of_isCode he.isCode).append ihb).append (.cons (isCode_of_kind ht rfl) ihs)
  | @closedBlock n t i d body w hnl hn hi hb hd ih =>
    have hheader : Balance true (t :: n) := .of_newlines (List.forall_mem_cons.mpr ⟨hnl, hn⟩)
    have hblock : Balance true (i :: w ++ [d]) := by
      have hw : countKind .dedent w = countKind .indent w := ih
      simp only [Balance, if_true, countKind_append, countKind_cons, countKind_nil, hi, hd]
      simp [hw]
    rw [List.append_assoc]
    exact hheader.append hblock
  | @openBlock n t i body closed w hnl hn hi hb ih =>
    have hheader : Balance true (t :: n) := .of_newlines (List.forall_mem_cons.mpr ⟨hnl, hn⟩)
    have hle : countKind .dedent w ≤ countKind .indent w := by
      unfold Balance at ih
      split_ifs at ih <;> omega
    have hblock : Balance false (i :: w) := by
      simp only [Balance, Bool.false_eq_true, if_false, countKind_cons, hi, reduceCtorEq, if_true]
      omega
    exact hheader.append hblock
  | nil => rfl
  | @cons s rest n closed closed' u v hs hn hr hend hopen ihs ihr =>
    cases closed with
    | true =>
      rw [Bool.true_and]
      exact (ihs.append (.of_newlines hn)).append ihr
    | false =>
      obtain ⟨rfl, rfl⟩ := hopen rfl
      cases hr
      simpa using ihs

/-! ## One program behind another -/

theorem Clause.Spelled.of_nil {closed : Bool} {w : List Token}
    (h : (Clause.statements []).Spelled closed w) : w = [] := by
  cases h
  rfl

theorem Clause.Spelled.begins {s : Stmt} {rest : List Stmt} {closed : Bool} {w : List Token}
    (h : (Clause.statements (s :: rest)).Spelled closed w) :
    ∃ u n v, w = u ++ n ++ v ∧ ∃ closed, (Clause.statement s).Spelled closed u := by
  cases h with
  | @cons _ _ n closed closed' u v hs => exact ⟨u, n, v, rfl, closed, hs⟩

theorem Clause.Spelled.of_cons {s : Stmt} {rest : List Stmt} {w : List Token}
    (h : (Clause.statements (s :: rest)).Spelled true w) :
    ∃ u n v, w = u ++ n ++ v ∧ (Clause.statement s).Spelled true u ∧ Newlines n ∧
      (Clause.statements rest).Spelled true v ∧ s.EndsBefore n rest := by
  generalize hc : true = c at h
  cases h with
  | @cons _ _ n closed closed' u v hs hn hr hend hopen =>
    obtain ⟨rfl, rfl⟩ := Bool.and_eq_true_iff.mp hc.symm
    exact ⟨u, n, v, rfl, hs, hn, hr, hend⟩

theorem Clause.Spelled.opens {s : Stmt} {closed : Bool} {w : List Token}
    (h : (Clause.statement s).Spelled closed w) : ∃ t v, w = t :: v ∧ t.kind.isCode = true := by
  cases h with
  | init ht | set ht | ret ht | retValue ht | pass ht | call ht | definition ht | loop ht
  | condition ht => exact ⟨_, _, rfl, isCode_of_kind ht rfl⟩
  | expression he =>
    obtain ⟨t, v, rfl, -⟩ := spelled_opens he
    exact ⟨t, v, rfl, he.isCode t List.mem_cons_self⟩

/-- A statement without blocks is all code, and one with blocks needs nothing behind it. -/
theorem Clause.Spelled.isCode_or {s : Stmt} {closed : Bool} {w : List Token}
    (h : (Clause.statement s).Spelled closed w) :
    (∀ t ∈ w, t.kind.isCode = true) ∨ ∀ n rest, s.EndsBefore n rest := by
  cases h with
  | init ht hn he | set ht hn he =>
    simp only [List.forall_mem_cons]
    exact .inl ⟨isCode_of_kind ht rfl, isCode_of_kind hn rfl, he.isCode⟩
  | ret ht | pass ht => exact .inl (by simpa using isCode_of_kind ht rfl)
  | retValue ht he => exact .inl (List.forall_mem_cons.mpr ⟨isCode_of_kind ht rfl, he.isCode⟩)
  | call hn hs => exact .inl (List.forall_mem_cons.mpr ⟨isCode_of_kind hn rfl, hs.isCode⟩)
  | expression he => exact .inl he.isCode
  | definition | loop => exact .inr fun n rest => .inr (.inr trivial)
  | condition ht hs => cases hs <;> exact .inr fun n rest => .inr (.inr trivial)

theorem Stmt.EndsBefore.append {s : Stmt} {n : List Token} {rest : List Stmt}
    (h : s.EndsBefore n rest) (hrest : rest ≠ []) (more : List Stmt) :
    s.EndsBefore n (rest ++ more) := by
  rcases h with h | h | h
  · exact .inl h
  · exact absurd h hrest
  · refine .inr (.inr ?_)
    rw [List.head?_append_of_ne_nil _ hrest]
    exact h

theorem Clause.Spelled.append {p p' : List Stmt} {closed : Bool} {w n w' : List Token}
    (h : (Clause.statements p).Spelled true w) (hp : p ≠ [])
    (hlast : ∀ t ∈ w.getLast?, t.kind.isCode = false) (hn : Newlines n)
    (h' : (Clause.statements p').Spelled closed w') :
    (Clause.statements (p ++ p')).Spelled closed (w ++ n ++ w') := by
  induction p generalizing w with
  | nil => exact absurd rfl hp
  | cons s rest ih =>
    obtain ⟨u, n₀, v, rfl, hs, hn₀, hr, hend⟩ := h.of_cons
    obtain ⟨t, u', hu, -⟩ := hs.opens
    by_cases hrest : rest = []
    · subst hrest
      obtain rfl := hr.of_nil
      have hends : s.EndsBefore (n₀ ++ n) p' := by
        by_cases hnil : n₀ ++ n = []
        · obtain ⟨rfl, rfl⟩ := List.append_eq_nil_iff.mp hnil
          rcases hs.isCode_or with hcode | hends
          · -- the last line is ended, so the statement is not all code
            exfalso
            simp only [List.append_nil] at hlast
            obtain ⟨x, hx⟩ := Option.ne_none_iff_exists'.mp
              (mt List.getLast?_eq_none_iff.mp (hu ▸ List.cons_ne_nil t u'))
            have hfalse := hlast x hx
            rw [hcode x (List.mem_of_getLast? hx)] at hfalse
            cases hfalse
          · exact hends _ _
        · exact .inl hnil
      have hall := Clause.Spelled.cons hs (List.forall_mem_append.mpr ⟨hn₀, hn⟩) h' hends (by simp)
      simpa using hall
    · have hv : v ≠ [] := by
        rintro rfl
        exact hrest (eq_nil_of_spelled hr)
      have hlast' : ∀ t ∈ v.getLast?, t.kind.isCode = false := by
        rwa [List.getLast?_append_of_ne_nil _ hv] at hlast
      have hall := Clause.Spelled.cons hs hn₀ (ih hr hrest hlast') (hend.append hrest p') (by simp)
      simpa using hall

/-- The tokens of a program whose blocks are closed and whose last line is ended, and those of
another program, spell the two programs one after the other. -/
theorem Program.Spelled.append {p p' : Program} {n v w' : List Token} (hn : Newlines n)
    (h : (Clause.statements p).Spelled true v)
    (hlast : ∀ t ∈ (n ++ v).getLast?, t.kind.isCode = false) (h' : Program.Spelled p' w') :
    Program.Spelled (p ++ p') (n ++ v ++ w') := by
  obtain ⟨n', v', closed, rfl, hn', hv'⟩ := h'
  by_cases hp : p = []
  · subst hp
    obtain rfl := h.of_nil
    refine ⟨n ++ n', v', closed, by simp, List.forall_mem_append.mpr ⟨hn, hn'⟩, ?_⟩
    exact hv'
  · have hlast' : ∀ t ∈ v.getLast?, t.kind.isCode = false := by
      intro t ht
      exact hlast t (by rw [List.getLast?_append, ht]; rfl)
    exact ⟨n, v ++ n' ++ v', closed, by simp, hn, h.append hp hlast' hn' hv'⟩

theorem Program.Spelled.padded {p : Program} {w w' : List Token} {f : Position → Position}
    (h : Program.Spelled p w) (hw : Padded f w w') :
    Program.Spelled (recastAll (.moved f) p) w' := by
  obtain ⟨n, v, closed, rfl, hn, hv⟩ := h
  obtain ⟨n', v', rfl, hnn, hvv⟩ := hw.of_append
  exact ⟨n', v', closed, rfl, (hnn.newlines hn).1, hv.padded hvv⟩

theorem Program.Spelled.move {p : Program} {w : List Token} (f : Position → Position)
    (h : Program.Spelled p w) :
    Program.Spelled (recastAll (.moved f) p) (w.map (Token.move f)) :=
  h.padded (Padded.map_move w)

theorem Clause.Spelled.closed_of_balance {c : Clause} {closed : Bool} {n w : List Token}
    (h : c.Spelled closed w) (hn : Newlines n) (hbalance : Balance true (n ++ w)) :
    closed = true := by
  have hbefore : countKind .dedent n = countKind .indent n := Balance.of_newlines hn
  have hall : countKind .dedent (n ++ w) = countKind .indent (n ++ w) := hbalance
  rw [countKind_append, countKind_append] at hall
  cases closed with
  | true => rfl
  | false =>
    have hopen : countKind .dedent w < countKind .indent w := h.balance
    omega

theorem Program.Spelled.closed {p : Program} {w : List Token} (h : Program.Spelled p w)
    (hbalance : Balance true w) :
    ∃ n v, w = n ++ v ∧ Newlines n ∧ (Clause.statements p).Spelled true v := by
  obtain ⟨n, v, closed, rfl, hn, hv⟩ := h
  obtain rfl := hv.closed_of_balance hn hbalance
  exact ⟨n, v, rfl, hn, hv⟩

theorem Program.Spelled.of_append {p : Program} {n w : List Token} (hn : Newlines n)
    (h : Program.Spelled p (n ++ w)) : Program.Spelled p w := by
  obtain ⟨n', v, closed, heq, hn', hv⟩ := h
  have hend : StatementsEnd false [] := ahead_nil _
  have hskip := skipNewlines_statements hv hend
  rw [List.append_nil] at hskip
  have hrest : skipNewlines w = v := by
    rw [← skipNewlines_append hn, heq, skipNewlines_append hn', hskip]
  obtain ⟨n₁, hw, hn₁⟩ := skipNewlines_split w
  rw [hrest] at hw
  exact ⟨n₁, v, closed, hw, hn₁, hv⟩

theorem Program.Spelled.opens {p : Program} {t : Token} {w : List Token}
    (h : Program.Spelled p (t :: w)) : t.kind = .newline ∨ t.kind.isCode = true := by
  obtain ⟨n, v, closed, heq, hn, hv⟩ := h
  cases n with
  | cons t' n =>
    cases heq
    exact .inl (hn t List.mem_cons_self)
  | nil =>
    rw [List.nil_append] at heq
    rw [← heq] at hv
    cases p with
    | nil => cases hv.of_nil
    | cons s rest =>
      obtain ⟨u, n, x, heq', closed, hs⟩ := hv.begins
      obtain ⟨t', u', rfl, ht⟩ := hs.opens
      cases heq'
      exact .inr ht

/-- The blocks of a program may end further down, behind more newlines, and then another program may
follow. -/
theorem Program.Spelled.behind {p p' : Program} {front ds ds' n w : List Token} {t : Token}
    (h : Program.Spelled p (front ++ [t] ++ ds)) (ht : t.kind = .newline)
    (hds : ∀ d ∈ ds, d.kind = .dedent) (hds' : ∀ d ∈ ds', d.kind = .dedent)
    (hlength : ds.length = ds'.length) (hbalance : Balance true (front ++ [t] ++ ds))
    (hn : Newlines n) (h' : Program.Spelled p' w) :
    Program.Spelled (p ++ p') (front ++ t :: n ++ ds' ++ w) := by
  obtain ⟨n₁, v, heq, hn₁, hv⟩ := h.closed hbalance
  have hpadded : Padded (fun p => p) (n₁ ++ v) (front ++ t :: n ++ ds') := by
    rw [← heq]
    exact ((Padded.refl front).append (Padded.newline ht hn)).append
      (Padded.dedents hds hds' hlength)
  obtain ⟨n₂, v', heq', hnn, hvv⟩ := hpadded.of_append
  have hsame : recastAll (.moved fun p => p) p = p := recastAll_same p
  have hv' : (Clause.statements (recastAll (.moved fun p => p) p)).Spelled true v' := hv.padded hvv
  rw [hsame] at hv'
  have hlast : ∀ u ∈ (n₂ ++ v').getLast?, u.kind.isCode = false := by
    rw [← heq', List.append_assoc, List.getLast?_append_of_ne_nil _ (by simp)]
    intro u hu
    have hmem : u ∈ t :: n ++ ds' := List.mem_of_getLast? hu
    simp only [List.cons_append, List.mem_cons, List.mem_append] at hmem
    rcases hmem with rfl | hmem | hmem
    · rw [ht]
      rfl
    · rw [hn u hmem]
      rfl
    · rw [hds' u hmem]
      rfl
  rw [heq']
  exact .append (hnn.newlines hn₁).1 hv' hlast h'

end Offside
