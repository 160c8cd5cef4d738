import Offside.Proofs.Syntax.Unprinting
import Offside.Proofs.Source.LongestMatch

/-!
# Printed programs can be told apart

Two programs that are read from source texts are printed alike just if they differ in nothing but
their positions (`print_eq_iff`). Their names and literals are legible, because the scanner sees to
it (`Token.Legible`) and trees have no others than their tokens (`Phrase.Spelled.legible`,
`Clause.Spelled.legible`).
-/

namespace Offside

open Grammar Source Double

/-! ## Legible tokens -/

/-- The name or literal that a token writes is such as source texts have. -/
structure Token.Legible (t : Token) : Prop where
  name : ∀ k : NameKind, t.kind = k.kind → k.legible t.lexeme = true
  literal : ∀ l : Literal, l.SpelledBy t → l.legible = true

theorem Lexed.means {p : Position} {text : List Char} {is : List Item} (h : Lexed p text is)
    {t : Token} (ht : .ok t ∈ is) :
    ∃ q w k, Lexeme.Matches k w ∧ Lexeme.Means q w k (.ok t) := by
  induction h with
  | nil => cases ht
  | @next p text w i rest is htext hw h ih =>
    rcases List.mem_append.mp ht with ht | ht
    · rw [Option.mem_toList] at ht
      subst ht
      cases hw with
      | lexeme hw hi => exact ⟨p, w, _, hw.fits, hi⟩
    · exact ih ht

theorem legible_of_word {k : NameKind} {w : List Char} (hw : Lexeme.word.Matches w)
    (hfree : ∀ k : Keyword, w ≠ k.text.toList) (hcased : k.cased (.ofList w) = true) :
    k.legible (.ofList w) = true := by
  obtain ⟨c, rest, rfl, hc, hall⟩ := hw
  have hkeyword : Keyword.ofText? (.ofList (c :: rest)) = none := by
    cases hk : Keyword.ofText? (.ofList (c :: rest)) with
    | none => rfl
    | some k =>
      have htext : k.text = String.ofList (c :: rest) := by simpa using List.find?_some hk
      exact absurd (by rw [htext, String.toList_ofList]) (hfree k)
  simp only [NameKind.legible, hkeyword, hcased, String.toList_ofList, Bool.and_eq_true,
    List.all_eq_true]
  exact ⟨⟨⟨hall, by simp [hc]⟩, rfl⟩, trivial⟩

theorem legible_number (w : List Char) : (Literal.number (number w)).legible = true := by
  have hcode : readDigits (w.takeWhile Char.isDigit) ((w.dropWhile Char.isDigit).drop 1) ≤
      infinityCode := Nat.min_le_right _ _
  simp only [Literal.legible, number, isNegative_ofCode hcode, code_ofCode hcode, Bool.and_eq_true,
    decide_eq_true_eq]
  exact ⟨rfl, hcode⟩

theorem Token.Legible.of_payload {t : Token}
    (hname : ∀ k : NameKind, t.kind = k.kind → k.legible t.lexeme = true)
    (hnumber : ∀ x, t.payload = some (.number x) → (Literal.number x).legible = true)
    (htext : ∀ s, t.kind = .number ∨ t.kind = .text → t.payload = some (.text s) →
      (Literal.text s).legible = true) : t.Legible := by
  refine ⟨hname, fun l hl => ?_⟩
  cases l with
  | number x => exact hnumber x hl.2
  | text s => exact htext s hl.1 hl.2
  | boolean b => rfl
  | none => rfl

theorem Lexeme.Means.legible {p : Position} {w : List Char} {k : Lexeme} {t : Token}
    (h : k.Means p w (.ok t)) (hw : k.Matches w) : t.Legible := by
  cases h with
  | lineBreak | comment | operator | reserved =>
    exact .of_payload (by rintro (_ | _) ⟨⟩) (by simp) (by simp)
  | @quoted body hbody =>
    obtain ⟨body', hw, hall⟩ := hw
    have heq : body = body' := by simpa using hbody.symm.trans hw
    refine .of_payload (by rintro (_ | _) ⟨⟩) (by simp) ?_
    rintro s - ⟨⟩
    have hquote : '"' ∉ body := fun hmem => (hall _ (heq ▸ hmem)).1 rfl
    simpa [Literal.legible] using hquote
  | number =>
    refine .of_payload (by rintro (_ | _) ⟨⟩) ?_ (by simp)
    rintro x ⟨⟩
    exact legible_number w
  | command hfree hlower =>
    refine .of_payload ?_ (by simp) (by simp)
    rintro (_ | _) ⟨⟩
    exact legible_of_word hw hfree (by simpa [NameKind.cased] using hlower)
  | identifier hfree hlower hupper =>
    refine .of_payload ?_ (by simp) (by simp)
    rintro (_ | _) ⟨⟩
    exact legible_of_word hw hfree (by simpa [NameKind.cased] using ⟨hlower, hupper⟩)

theorem Token.Legible.of_unwritten {t : Token} (h : t.kind.isWritten = false) : t.Legible := by
  have hkind : ∀ k : Kind, k.isWritten = true → t.kind ≠ k := by
    rintro k hk rfl
    rw [h] at hk
    cases hk
  have hliteral : ¬(t.kind = .number ∨ t.kind = .text) := by
    rintro (hk | hk)
    · exact hkind _ rfl hk
    · exact hkind _ rfl hk
  refine ⟨fun k hk => ?_, fun l hl => ?_⟩
  · cases k <;> exact absurd hk (hkind _ rfl)
  · cases l with
    | number x => exact absurd hl.1 hliteral
    | text s => exact absurd hl.1 hliteral
    | boolean b => rfl
    | none => rfl

theorem legible_of_mem_scan {source : List Char} {t : Token} (h : t ∈ tokensOf (scan source)) :
    t.Legible := by
  have hmem : .ok t ∈ scan source := by
    obtain ⟨i, hi, hit⟩ := List.mem_filterMap.mp h
    cases i with
    | ok u =>
      cases hit
      exact hi
    | error f => cases hit
  cases hwritten : t.kind.isWritten with
  | false => exact .of_unwritten hwritten
  | true =>
    have hkept : .ok t ∈ (scan source).filter (keeps Kind.isWritten) :=
      List.mem_filter.mpr ⟨hmem, hwritten⟩
    rw [scan, items_written] at hkept
    obtain ⟨q, w, k, hw, hmeans⟩ := (found_lexed _ _).means hkept
    exact hmeans.legible hw

/-! ## Legible programs -/

def Phrase.legible : Phrase → Bool
  | .expr e => e.legible
  | .links ls => legibleLinks ls
  | .args es => legibleAll es

theorem Phrase.Spelled.legible {φ : Phrase} {w : List Token} (h : φ.Spelled w)
    (hw : ∀ t ∈ w, t.Legible) : φ.legible = true := by
  induction h with
  | literal ht => exact (hw _ List.mem_cons_self).literal _ ht
  | name ht => exact (hw _ List.mem_cons_self).name _ ht
  | group ht he hu ih =>
    simp only [List.cons_append, List.forall_mem_cons, List.forall_mem_append] at hw
    exact ih hw.2.1
  | call ht hn hs hu ih =>
    simp only [List.cons_append, List.forall_mem_cons, List.forall_mem_append] at hw
    simp only [Phrase.legible, Expr.legible, Bool.and_eq_true]
    exact ⟨hw.2.1.name .command hn, ih hw.2.2.1⟩
  | unary ht he ih =>
    rw [List.forall_mem_cons] at hw
    exact ih hw.2
  | binary hl ho hr ihl ihr =>
    simp only [List.forall_mem_append] at hw
    simp only [Phrase.legible, Expr.legible, Bool.and_eq_true]
    exact ⟨ihl hw.1.1, ihr hw.2⟩
  | comparison hf hs ihf ihs =>
    rw [List.forall_mem_append] at hw
    simp only [Phrase.legible, Expr.legible, Bool.and_eq_true]
    exact ⟨ihf hw.1, ihs hw.2⟩
  | ternary hl ht hc ht' hr ihl ihc ihr =>
    simp only [List.forall_mem_append, List.forall_mem_cons] at hw
    simp only [Phrase.legible, Expr.legible, Bool.and_eq_true]
    exact ⟨⟨ihc hw.1.2.2, ihl hw.1.1⟩, ihr hw.2.2⟩
  | noLink => rfl
  | link ho hr hs ihr ihs =>
    simp only [List.forall_mem_append] at hw
    simp only [Phrase.legible, legibleLinks, Bool.and_eq_true]
    exact ⟨ihr hw.1.2, ihs hw.2⟩
  | noArg => rfl
  | arg he hs ihe ihs =>
    rw [List.forall_mem_append] at hw
    simp only [Phrase.legible, legibleAll, Bool.and_eq_true]
    exact ⟨ihe hw.1, ihs hw.2⟩

def Clause.legible : Clause → Bool
  | .statement s | .condition s => s.legible
  | .block body | .statements body => legibleBody body

theorem Clause.Spelled.legible {c : Clause} {closed : Bool} {w : List Token}
    (h : c.Spelled closed w) (hw : ∀ t ∈ w, t.Legible) : c.legible = true := by
  induction h with
  | init ht hn he =>
    simp only [List.forall_mem_cons] at hw
    simp only [Clause.legible, Stmt.legible, Bool.and_eq_true]
    exact ⟨hw.2.1.name .variable hn, he.legible hw.2.2⟩
  | set ht hn he =>
    simp only [List.forall_mem_cons] at hw
    simp only [Clause.legible, Stmt.legible, Bool.and_eq_true]
    exact ⟨hw.2.1.name .variable hn, he.legible hw.2.2⟩
  | ret ht => rfl
  | retValue ht he =>
    rw [List.forall_mem_cons] at hw
    exact he.legible hw.2
  | pass ht => rfl
  | call hn hs =>
    rw [List.forall_mem_cons] at hw
    simp only [Clause.legible, Stmt.legible, Expr.legible, Bool.and_eq_true]
    exact ⟨hw.1.name .command hn, hs.legible hw.2⟩
  | expression he => exact he.legible hw
  | @definition t n params body closed w ht hn hps hb ih =>
    simp only [List.cons_append, List.forall_mem_cons, List.forall_mem_append] at hw
    have hparams : ((params.map nameOf).all fun p => NameKind.variable.legible p.text) = true := by
      rw [List.all_map, List.all_eq_true]
      exact fun p hp => (hw.2.2.1 p hp).name .variable (hps p hp)
    simp only [Clause.legible, Stmt.legible, Bool.and_eq_true]
    exact ⟨⟨hw.2.1.name .command hn, hparams⟩, ih hw.2.2.2⟩
  | loop ht he hb ih =>
    simp only [List.cons_append, List.forall_mem_cons, List.forall_mem_append] at hw
    simp only [Clause.legible, Stmt.legible, Bool.and_eq_true]
    exact ⟨he.legible hw.2.1, ih hw.2.2⟩
  | condition ht hs ih =>
    rw [List.forall_mem_cons] at hw
    exact ih hw.2
  | noElse he hb ih =>
    rw [List.forall_mem_append] at hw
    simp only [Clause.legible, Stmt.legible, Bool.and_eq_true]
    exact ⟨he.legible hw.1, ih hw.2⟩
  | withElse he hb ht ho ihb iho =>
    simp only [List.forall_mem_append, List.forall_mem_cons] at hw
    simp only [Clause.legible, Stmt.legible, Bool.and_eq_true]
    exact ⟨⟨he.legible hw.1.1, ihb hw.1.2⟩, iho hw.2.2⟩
  | elseIf he hb ht ht' hs ihb ihs =>
    simp only [List.forall_mem_append, List.forall_mem_cons] at hw
    simp only [Clause.legible, Stmt.legible, legibleBody, Bool.and_eq_true]
    exact ⟨⟨he.legible hw.1.1, ihb hw.1.2⟩, ihs hw.2.2.2, trivial⟩
  | elsif he hb ht hs ihb ihs =>
    simp only [List.forall_mem_append, List.forall_mem_cons] at hw
    simp only [Clause.legible, Stmt.legible, legibleBody, Bool.and_eq_true]
    exact ⟨⟨he.legible hw.1.1, ihb hw.1.2⟩, ihs hw.2.2, trivial⟩
  | closedBlock hnl hn hi hb hd ih =>
    simp only [List.cons_append, List.forall_mem_cons, List.forall_mem_append] at hw
    exact ih hw.2.1.2.2
  | openBlock hnl hn hi hb ih =>
    simp only [List.cons_append, List.forall_mem_cons, List.forall_mem_append] at hw
    exact ih hw.2.2.2
  | nil => rfl
  | cons hs hn hr hend hopen ihs ihr =>
    simp only [List.forall_mem_append] at hw
    simp only [Clause.legible, legibleBody, Bool.and_eq_true]
    exact ⟨ihs hw.1.1, ihr hw.2⟩

/-- A program that is read from a source text is legible. -/
theorem parseSource_legible {source : String} {p : Program} (h : parseSource source = .ok p) :
    fitBody p = true ∧ legibleBody p = true := by
  obtain ⟨-, hfits, n, w, closed, hcontent, -, hw⟩ := parseSource_eq_ok.mp h
  refine ⟨hfits, hw.legible fun t ht => ?_⟩
  have hmem : t ∈ content (tokensOf (scan source.toList)) := by
    rw [hcontent]
    exact List.mem_append_right n ht
  exact legible_of_mem_scan ((List.takeWhile_sublist _).subset (List.mem_of_mem_filter hmem))

/-! ## Positions are not printed -/

section moved

variable (f : Position → Position)

mutual

theorem Expr.print_moved : ∀ e : Expr, (e.recast (.moved f)).print = e.print
  | .literal l => by simp [Expr.recast]
  | .name k n => by simp [Expr.recast, Expr.print, Name.recast]
  | .group inner => by simp [Expr.recast, Expr.print, Expr.print_moved inner]
  | .unary op p right => by simp [Expr.recast, Expr.print, Expr.print_moved right]
  | .binary left op p right => by
    simp [Expr.recast, Expr.print, Expr.print_moved left, Expr.print_moved right]
  | .comparison first links => by
    simp [Expr.recast, Expr.print, Expr.print_moved first, printLinks_moved links]
  | .ternary c left right => by
    simp [Expr.recast, Expr.print, Expr.print_moved c, Expr.print_moved left,
      Expr.print_moved right]
  | .call n args => by simp [Expr.recast, Expr.print, Name.recast, printAll_moved args]

theorem printLinks_moved : ∀ (links : List (Link Expr)) (left : String),
    printLinks left (recastLinks (.moved f) links) = printLinks left links
  | [], left => by simp [recastLinks]
  | ⟨op, p, right⟩ :: links, left => by
    simp [recastLinks, printLinks, Expr.print_moved right, printLinks_moved links]

theorem printAll_moved : ∀ es : List Expr, printAll (recastArgs (.moved f) es) = printAll es
  | [] => by simp [recastArgs]
  | e :: es => by simp [recastArgs, printAll, Expr.print_moved e, printAll_moved es]

end

mutual

theorem Stmt.print_moved : ∀ s : Stmt, ∃ s', s.recast (.moved f) = [s'] ∧
    ∀ depth, s'.print depth = s.print depth
  | .init n e => by simp [Stmt.recast, Stmt.print, Name.recast, Expr.print_moved f e]
  | .set n e => by simp [Stmt.recast, Stmt.print, Name.recast, Expr.print_moved f e]
  | .condition test thenBody none => by
    simp [Stmt.recast, Stmt.print, Expr.print_moved f test, printBody_moved thenBody]
  | .condition test thenBody (some elseBody) => by
    simp [Stmt.recast, Stmt.print, Expr.print_moved f test, printBody_moved thenBody,
      printBody_moved elseBody]
  | .loop test body => by
    simp [Stmt.recast, Stmt.print, Expr.print_moved f test, printBody_moved body]
  | .definition n params body => by
    simp [Stmt.recast, Stmt.print, Name.recast, printBody_moved body, Function.comp_def]
  | .ret p none => by simp [Stmt.recast, Stmt.print]
  | .ret p (some e) => by simp [Stmt.recast, Stmt.print, Expr.print_moved f e]
  | .expression e => by simp [Stmt.recast, Stmt.print, Expr.print_moved f e]
  | .body stmts => by simp [Stmt.recast, Stmt.print, printBody_moved stmts]
  | .pass => by simp [Stmt.recast]

theorem printBody_moved : ∀ (ss : List Stmt) (depth : Nat),
    printBody depth (recastAll (.moved f) ss) = printBody depth ss
  | [], depth => by simp [recastAll]
  | s :: ss, depth => by
    obtain ⟨s', hs, hprint⟩ := Stmt.print_moved s
    simp [recastAll, hs, printBody, hprint, printBody_moved ss]

end

theorem Program.print_moved (p : Program) : Program.print (recastAll (.moved f) p) = p.print := by
  induction p with
  | nil => rfl
  | cons s p ih =>
    obtain ⟨s', hs, hprint⟩ := Stmt.print_moved f s
    simp only [Program.print] at ih
    simp [recastAll, hs, Program.print, hprint, ih]

end moved

/-! ## Programs with one printed text -/

/-- **Printing loses nothing but positions.** Two programs that are read from source texts are
printed alike just if they differ in nothing but their positions. -/
theorem print_eq_iff {s₁ s₂ : String} {p₁ p₂ : Program} (h₁ : parseSource s₁ = .ok p₁)
    (h₂ : parseSource s₂ = .ok p₂) :
    p₁.print = p₂.print ↔ recastAll .unplaced p₁ = recastAll .unplaced p₂ := by
  constructor
  · intro hprint
    obtain ⟨hfits₁, hlegible₁⟩ := parseSource_legible h₁
    obtain ⟨hfits₂, hlegible₂⟩ := parseSource_legible h₂
    have hwrites := Program.writes hlegible₁
    rw [hprint] at hwrites
    have hforms := hwrites.unique (Program.writes hlegible₂)
    rw [← Option.some_inj, ← stmts?_forms p₁ hfits₁ hlegible₁, hforms,
      stmts?_forms p₂ hfits₂ hlegible₂]
  · intro hrecast
    have hprint := Program.print_moved (fun _ => .start) p₁
    rw [← hprint, ← Program.print_moved (fun _ => .start) p₂]
    exact congrArg Program.print hrecast

/-- The program `SET x -y is not "(z"`, with its operators at these columns. -/
def unequal (minus is : Nat) : Program :=
  [.set ⟨"x", ⟨1, 5⟩⟩ (.comparison (.unary .negate ⟨1, minus⟩ (.name .variable ⟨"y", ⟨1, 8⟩⟩))
    [⟨.isNot, ⟨1, is⟩, .literal (.text "(z")⟩])]

/-- Spaces do not show. -/
theorem print_eq_iff_spaced :
    parseSource "SET x -y is not \"(z\"" = .ok (unequal 7 10) ∧
    parseSource "SET x- y  is\tnot \"(z\" # z" = .ok (unequal 6 11) ∧
    (unequal 7 10).print = (unequal 6 11).print := by
  have h₁ : parseSource "SET x -y is not \"(z\"" = .ok (unequal 7 10) := by with_unfolding_all rfl
  have h₂ : parseSource "SET x- y  is\tnot \"(z\" # z" = .ok (unequal 6 11) := by
    with_unfolding_all rfl
  exact ⟨h₁, h₂, (print_eq_iff h₁ h₂).mpr rfl⟩

end Offside
