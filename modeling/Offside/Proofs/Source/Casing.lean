import Offside.Session
import Offside.Proofs.Source.Layout
import Offside.Proofs.Grammar.Programs
import Offside.Proofs.Run.Judgement

/-!
# Letters of names

Commands and variables are told apart by their letters alone: the name of a command has no lower
case letter, that of a variable has one. The scanner sees to it (`tokenize_cased`), and the grammar
keeps the two kinds of names apart: what is declared by `DEF` or called is a command, what is
declared by `INIT`, set, or a parameter is a variable (`Clause.Spelled.obeys`). So in every program
that is read from a source text, names are where their letters allow them to be
(`parseSource_cased`).
-/

namespace Offside

open Grammar Source

/-! ## Names and tokens -/

/-- The name of a command: one without lower case letters. -/
def isCommandName (x : String) : Bool := !x.toList.any Char.isLower

/-- Commands have the names of commands, and variables have others. -/
def Rules.cased : Rules := ⟨fun n => !isCommandName n.text, fun n => isCommandName n.text, true⟩

/-- The name that a token writes, if it writes one, is allowed. -/
def Token.Allowed (r : Rules) (t : Token) : Prop :=
  (t.kind = .command → r.commandName (nameOf t) = true) ∧
    (t.kind = .identifier → r.variableName (nameOf t) = true)

theorem Token.allowed_of_kind {r : Rules} {t : Token} (hc : t.kind ≠ .command)
    (hv : t.kind ≠ .identifier) : t.Allowed r :=
  ⟨fun h => absurd h hc, fun h => absurd h hv⟩

theorem word_cased {p : Position} {text : List Char} {t : Token} (h : Source.word p text = .ok t) :
    t.Allowed .cased := by
  unfold Source.word token at h
  simp only at h
  split at h
  · cases h
    exact Token.allowed_of_kind (by simp) (by simp)
  · split_ifs at h with hlower hupper
    · cases h
      refine ⟨fun _ => ?_, by simp⟩
      simpa [Rules.cased, isCommandName, nameOf] using hlower
    · cases h
      refine ⟨by simp, fun _ => ?_⟩
      simpa [Rules.cased, isCommandName, nameOf] using hlower

theorem item?_cased {p : Position} {q : Piece} {t : Token} (h : item? p q = some (.ok t)) :
    t.Allowed .cased := by
  unfold item? token at h
  split at h
  case h_8 => exact word_cased (by simpa using h)
  case h_10 => exact absurd (by simpa using h) stray_ne_ok
  all_goals
    cases h
    try exact Token.allowed_of_kind (by simp) (by simp)

theorem startLine_cased {m : Margin} {p : Position} {qs : List Piece} {t : Token}
    (h : t ∈ (m.startLine p qs).2) : t.Allowed .cased := by
  cases qs with
  | nil => cases h
  | cons q qs =>
    rcases startLine_cases m p q qs with ⟨-, hts⟩ | ⟨w, u, -, hts, hu, -⟩ | ⟨w, -, hts⟩
    · rw [hts] at h
      cases h
    · rw [hts, List.mem_singleton] at h
      rw [h]
      exact Token.allowed_of_kind (by simp [hu]) (by simp [hu])
    · rw [hts, List.mem_map] at h
      obtain ⟨_, -, rfl⟩ := h
      exact Token.allowed_of_kind (by simp [Margin.dedent]) (by simp [Margin.dedent])

theorem items_cased {m : Margin} {atStart : Bool} {p : Position} {qs : List Piece} {t : Token}
    (h : .ok t ∈ items m atStart p qs) : t.Allowed .cased := by
  induction qs generalizing m atStart p with
  | nil =>
    rw [items, List.mem_append, List.mem_map, List.mem_singleton] at h
    rcases h with ⟨u, hu, hut⟩ | h
    · cases hut
      rw [Margin.closeTo, List.mem_map] at hu
      obtain ⟨_, -, rfl⟩ := hu
      exact Token.allowed_of_kind (by simp [Margin.dedent]) (by simp [Margin.dedent])
    · cases h
      exact Token.allowed_of_kind (by simp) (by simp)
  | cons q qs ih =>
    simp only [items, List.mem_append, List.mem_map, Option.mem_toList] at h
    rcases h with ⟨u, hu, hut⟩ | hi | hrest
    · cases hut
      split at hu
      · exact startLine_cased hu
      · cases hu
    · exact item?_cased hi
    · exact ih hrest

theorem tokenize_cased {source : String} {ts : List Token} (h : tokenize source = .ok ts)
    {t : Token} (ht : t ∈ ts) : t.Allowed .cased := by
  unfold tokenize at h
  simp only at h
  split at h
  · cases h
    obtain ⟨i, hi, hit⟩ := List.mem_filterMap.mp ht
    cases i with
    | ok u =>
      cases hit
      exact items_cased hi
    | error f => cases hit
  · cases h

/-! ## Programs -/

def Phrase.obeys (r : Rules) : Phrase → Bool
  | .expr e => e.obeys r
  | .links ls => linksObey r ls
  | .args es => argsObey r es

theorem Phrase.Spelled.obeys {r : Rules} {φ : Phrase} {w : List Token} (h : φ.Spelled w)
    (hw : ∀ t ∈ w, t.Allowed r) : φ.obeys r = true := by
  induction h with
  | literal ht => rfl
  | name ht => rfl
  | group ht he hu ih =>
    simp only [List.cons_append, List.forall_mem_cons, List.forall_mem_append] at hw
    exact ih hw.2.1
  | call ht hn hs hu ih =>
    simp only [List.cons_append, List.forall_mem_cons, List.forall_mem_append] at hw
    simp only [Phrase.obeys, Expr.obeys, Bool.and_eq_true]
    exact ⟨hw.2.1.1 hn, ih hw.2.2.1⟩
  | unary ht he ih =>
    rw [List.forall_mem_cons] at hw
    exact ih hw.2
  | binary hl ho hr ihl ihr =>
    simp only [List.forall_mem_append] at hw
    simp only [Phrase.obeys, Expr.obeys, Bool.and_eq_true]
    exact ⟨ihl hw.1.1, ihr hw.2⟩
  | comparison hf hs ihf ihs =>
    rw [List.forall_mem_append] at hw
    simp only [Phrase.obeys, Expr.obeys, Bool.and_eq_true]
    exact ⟨ihf hw.1, ihs hw.2⟩
  | ternary hl ht hc ht' hr ihl ihc ihr =>
    simp only [List.forall_mem_append, List.forall_mem_cons] at hw
    simp only [Phrase.obeys, Expr.obeys, Bool.and_eq_true]
    exact ⟨⟨ihc hw.1.2.2, ihl hw.1.1⟩, ihr hw.2.2⟩
  | noLink => rfl
  | link ho hr hs ihr ihs =>
    simp only [List.forall_mem_append] at hw
    simp only [Phrase.obeys, linksObey, Bool.and_eq_true]
    exact ⟨ihr hw.1.2, ihs hw.2⟩
  | noArg => rfl
  | arg he hs ihe ihs =>
    rw [List.forall_mem_append] at hw
    simp only [Phrase.obeys, argsObey, Bool.and_eq_true]
    exact ⟨ihe hw.1, ihs hw.2⟩

def Clause.obeys (r : Rules) : Clause → Bool
  | .statement s | .condition s => s.obeys r
  | .block body | .statements body => bodyObeys r body

theorem Clause.Spelled.obeys {r : Rules} (hr : r.loops = true) {c : Clause} {closed : Bool}
    {w : List Token} (h : c.Spelled closed w) (hw : ∀ t ∈ w, t.Allowed r) : c.obeys r = true := by
  induction h with
  | init ht hn he =>
    simp only [List.forall_mem_cons] at hw
    simp only [Clause.obeys, Stmt.obeys, Bool.and_eq_true]
    exact ⟨hw.2.1.2 hn, he.obeys hw.2.2⟩
  | set ht hn he =>
    simp only [List.forall_mem_cons] at hw
    simp only [Clause.obeys, Stmt.obeys, Bool.and_eq_true]
    exact ⟨hw.2.1.2 hn, he.obeys hw.2.2⟩
  | ret ht => rfl
  | retValue ht he =>
    rw [List.forall_mem_cons] at hw
    exact he.obeys hw.2
  | pass ht => rfl
  | call hn hs =>
    rw [List.forall_mem_cons] at hw
    simp only [Clause.obeys, Stmt.obeys, Expr.obeys, Bool.and_eq_true]
    exact ⟨hw.1.1 hn, hs.obeys hw.2⟩
  | expression he => exact he.obeys hw
  | @definition t n params body closed w ht hn hps hb ih =>
    simp only [List.cons_append, List.forall_mem_cons, List.forall_mem_append] at hw
    have hparams : (params.map nameOf).all r.variableName = true := by
      rw [List.all_map, List.all_eq_true]
      exact fun p hp => (hw.2.2.1 p hp).2 (hps p hp)
    simp only [Clause.obeys, Stmt.obeys, Bool.and_eq_true]
    exact ⟨⟨hw.2.1.1 hn, hparams⟩, ih hw.2.2.2⟩
  | loop ht he hb ih =>
    simp only [List.cons_append, List.forall_mem_cons, List.forall_mem_append] at hw
    simp only [Clause.obeys, Stmt.obeys, Bool.and_eq_true]
    exact ⟨⟨hr, he.obeys hw.2.1⟩, ih hw.2.2⟩
  | condition ht hs ih =>
    rw [List.forall_mem_cons] at hw
    exact ih hw.2
  | noElse he hb ih =>
    rw [List.forall_mem_append] at hw
    simp only [Clause.obeys, Stmt.obeys, Bool.and_eq_true]
    exact ⟨he.obeys hw.1, ih hw.2⟩
  | withElse he hb ht ho ihb iho =>
    simp only [List.forall_mem_append, List.forall_mem_cons] at hw
    simp only [Clause.obeys, Stmt.obeys, Bool.and_eq_true]
    exact ⟨⟨he.obeys hw.1.1, ihb hw.1.2⟩, iho hw.2.2⟩
  | elseIf he hb ht ht' hs ihb ihs =>
    simp only [List.forall_mem_append, List.forall_mem_cons] at hw
    simp only [Clause.obeys, Stmt.obeys, bodyObeys, Bool.and_eq_true]
    exact ⟨⟨he.obeys hw.1.1, ihb hw.1.2⟩, ihs hw.2.2.2, trivial⟩
  | elsif he hb ht hs ihb ihs =>
    simp only [List.forall_mem_append, List.forall_mem_cons] at hw
    simp only [Clause.obeys, Stmt.obeys, bodyObeys, Bool.and_eq_true]
    exact ⟨⟨he.obeys hw.1.1, ihb hw.1.2⟩, ihs hw.2.2, trivial⟩
  | closedBlock hnl hn hi hb hd ih =>
    simp only [List.cons_append, List.forall_mem_cons, List.forall_mem_append] at hw
    exact ih hw.2.1.2.2
  | openBlock hnl hn hi hb ih =>
    simp only [List.cons_append, List.forall_mem_cons, List.forall_mem_append] at hw
    exact ih hw.2.2.2
  | nil => rfl
  | cons hs hn hr hend hopen ihs ihr =>
    simp only [List.forall_mem_append] at hw
    simp only [Clause.obeys, bodyObeys, Bool.and_eq_true]
    exact ⟨ihs hw.1.1, ihr hw.2⟩

/-- In a program that is read from a source text, commands have the names of commands, and variables
have others. -/
theorem parseSource_cased {source : String} {p : Program} (h : parseSource source = .ok p) :
    bodyObeys .cased p = true := by
  unfold parseSource at h
  split at h
  · cases h
  · rename_i ts hts
    split at h
    · cases h
    · rename_i hp
      cases h
      obtain ⟨-, n, w, closed, hcontent, -, hw⟩ := spelled_of_parse hp
      refine hw.obeys rfl fun t ht => tokenize_cased hts ?_
      have hmem : t ∈ content ts := by
        rw [hcontent]
        exact List.mem_append_right n ht
      exact (List.takeWhile_sublist _).subset (List.mem_of_mem_filter hmem)

end Offside
