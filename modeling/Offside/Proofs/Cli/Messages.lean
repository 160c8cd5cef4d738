import Mathlib.Data.String.Basic
import Offside.Cli.Report
import Offside.Proofs.Source.Nesting
import Offside.Proofs.Source.Lookahead
import Offside.Proofs.Grammar.ErrorPlaces

/-!
# Messages of one line

A message about a source text is one line, whatever the text: all that it takes from the text is a
name, a character or a token, and these never go over the end of a line.

* `Fault.oneLine_message` and `SyntaxError.oneLine_message`: the messages of a text.
* `Cli.lines_intercalate`: so as many messages are as many lines.
-/

namespace Offside

def OneLine (s : String) : Prop := '\n' ∉ s.toList

instance (s : String) : Decidable (OneLine s) := inferInstanceAs (Decidable ('\n' ∉ s.toList))

theorem OneLine.append {a b : String} (ha : OneLine a) (hb : OneLine b) : OneLine (a ++ b) := by
  unfold OneLine at *
  rw [String.toList_append, List.mem_append, not_or]
  exact ⟨ha, hb⟩

/-! ## Positions -/

theorem toList_toString_nat (n : Nat) : (toString n).toList = Nat.toDigits 10 n := Nat.toList_repr

theorem isDigit_of_mem_toString {n : Nat} {c : Char} (h : c ∈ (toString n).toList) :
    c.isDigit = true := by
  rw [toList_toString_nat] at h
  exact Nat.isDigit_of_mem_toDigits (by decide) (by decide) h

theorem oneLine_toString (n : Nat) : OneLine (toString n) :=
  fun h => absurd (isDigit_of_mem_toString h) (by decide)

namespace Position

variable (p : Position) {message : String}

theorem locate_eq (message : String) :
    p.locate message =
      message ++ (" at " ++ ("line " ++ toString p.line ++ ", column ")) ++ toString p.column := by
  unfold locate text
  simp only [String.append_assoc]
  rfl

theorem oneLine_locate (h : OneLine message) : OneLine (p.locate message) := by
  rw [locate_eq]
  have hline : OneLine ("line " ++ toString p.line ++ ", column ") :=
    (OneLine.append (by decide) (oneLine_toString _)).append (by decide)
  exact (h.append (OneLine.append (by decide) hline)).append (oneLine_toString _)

theorem getLast?_locate (message : String) :
    ∃ c ∈ (p.locate message).toList.getLast?, c.isDigit = true := by
  have hne : (toString p.column).toList ≠ [] := by
    rw [toList_toString_nat]
    exact Nat.toDigits_ne_nil
  refine ⟨(toString p.column).toList.getLast hne, ?_,
    isDigit_of_mem_toString (List.getLast_mem hne)⟩
  rw [locate_eq, String.toList_append, List.getLast?_append_of_ne_nil _ hne,
    List.getLast?_eq_some_getLast hne]
  rfl

end Position

/-! ## What messages take from a text -/

namespace Source

/-- What is found in a text comes from pieces without a line feed. -/
theorem unbroken_piece {source : String} {i : Item}
    (h : i ∈ (scan source.toList).filter (keeps Kind.isInLine)) :
    ∃ p q, Piece.Genuine q ∧ '\n' ∉ q.text ∧ item? p q = some i := by
  rw [scan_inLines, List.mem_flatMap] at h
  obtain ⟨l, hl, hi⟩ := h
  obtain ⟨qs₁, q, qs₂, hcut, hi⟩ := exists_piece hi
  have hq : q ∈ Piece.cut l.1 := by
    rw [hcut]
    simp
  have hbreak := noBreak_zipIdx source l hl
  exact ⟨_, q, Piece.cut_genuine _ q hq, not_mem_text hbreak q hq, hi⟩

variable {source : String}

theorem noBreak_of_fault {fs : List Fault} (h : tokenize source = .error fs) {f : Fault}
    (hf : f ∈ fs) : '\n' ∉ f.cause.text := by
  obtain ⟨-, rfl⟩ := tokenize_eq_error.mp h
  have hmem : (.error f : Item) ∈ (scan source.toList).filter (keeps Kind.isInLine) := by
    refine List.mem_filter.mpr ⟨?_, rfl⟩
    obtain ⟨i, hi, hfault⟩ := List.mem_filterMap.mp hf
    cases i with
    | ok t => cases hfault
    | error e =>
      cases hfault
      exact hi
  obtain ⟨p, q, hq, hbreak, hi⟩ := unbroken_piece hmem
  exact fun hmem => hbreak ((fault_of_item? hq hi).2.subset hmem)

theorem oneLine_lexeme {ts : List Token} (h : tokenize source = .ok ts) {t : Token} (ht : t ∈ ts)
    (hk : t.kind.isInLine = true) : OneLine t.lexeme := by
  obtain ⟨-, rfl⟩ := tokenize_eq_ok.mp h
  have hmem : (.ok t : Item) ∈ (scan source.toList).filter (keeps Kind.isInLine) :=
    List.mem_filter.mpr ⟨mem_tokensOf.mp ht, hk⟩
  obtain ⟨p, q, hq, hbreak, hi⟩ := unbroken_piece hmem
  have hspells := (spells_of_item? hq hi []).2
  unfold Token.Spells at hspells
  split at hspells
  all_goals simp_all [Kind.isInLine, OneLine]

end Source

open Source

/-! ## Messages of a text -/

theorem Fault.oneLine_message {source : String} {fs : List Fault}
    (h : tokenize source = .error fs) : ∀ f ∈ fs, OneLine f.message := by
  intro f hf
  refine f.pos.oneLine_locate ?_
  have hbreak := noBreak_of_fault h hf
  cases hcause : f.cause with
  | unexpectedCharacter c =>
    rw [hcause] at hbreak
    refine OneLine.append (by decide) ?_
    rwa [OneLine, String.toList_singleton]
  | unterminatedText => exact (by decide : OneLine "unterminated string")
  | mixedCase name =>
    rw [hcause] at hbreak
    exact (OneLine.append (by decide) hbreak).append (by decide)
  | invalidOperator text =>
    rw [hcause] at hbreak
    exact OneLine.append (by decide) hbreak

theorem Token.oneLine_describe {source : String} {ts : List Token} (h : tokenize source = .ok ts)
    {t : Token} (ht : t ∈ ts) : OneLine t.describe := by
  unfold Token.describe
  split
  · decide
  · decide
  · decide
  · decide
  · rename_i hnewline hend hindent hdedent
    have hk : t.kind.isInLine = true := by
      revert hnewline hend hindent hdedent
      cases t.kind <;> simp [Kind.isInLine]
    exact (OneLine.append (by decide) (oneLine_lexeme h ht hk)).append (by decide)

theorem SyntaxError.oneLine_message {source : String} {ts : List Token} {es : List SyntaxError}
    (hts : tokenize source = .ok ts) (h : parse ts = .error es) :
    ∀ e ∈ es, OneLine e.message := by
  intro e he
  obtain ⟨us, hus, -, hfound⟩ := names_of_parse h e he
  have hdescribe : OneLine (Grammar.describe us) := by
    cases us with
    | nil => exact (by decide : OneLine "end of input")
    | cons t us =>
      have hmem := (List.takeWhile_prefix _).subset (hus.subset List.mem_cons_self)
      exact Token.oneLine_describe hts (List.mem_filter.mp hmem).1
  refine e.pos.oneLine_locate ?_
  cases hcause : e.cause with
  | expected what found =>
    have hwhat : OneLine what.text := by cases what <;> decide
    rw [hfound found (by rw [hcause]; rfl)]
    exact ((OneLine.append (by decide) hwhat).append (by decide)).append hdescribe
  | expectedExpression found =>
    rw [hfound found (by rw [hcause]; rfl)]
    exact OneLine.append (by decide) hdescribe
  | unexpectedIndent => exact (by decide : OneLine "unexpected indent")
  | notWithoutIn => exact (by decide : OneLine "invalid syntax, expected 'in' after 'not'")

/-! ## Lines of messages -/

namespace Cli

theorem withoutReturn_of_digit {m : String} (h : ∃ c ∈ m.toList.getLast?, c.isDigit = true) :
    withoutReturn m = m := by
  obtain ⟨c, hc, hdigit⟩ := h
  refine if_neg fun hreturn => ?_
  rw [Option.mem_def, hreturn] at hc
  cases hc
  cases hdigit

/-- Messages of one line each that end with a digit, one behind the other, are as many lines. -/
theorem lines_intercalate {ms : List String} (hne : ms ≠ []) (hline : ∀ m ∈ ms, OneLine m)
    (hlast : ∀ m ∈ ms, ∃ c ∈ m.toList.getLast?, c.isDigit = true) :
    lines ("\n".intercalate ms) = ms := by
  have hparts : ("\n".intercalate ms).splitToList (· == '\n') = ms := by
    have hsplit : (['\n'].intercalate (ms.map String.toList)).splitOn '\n' =
        ms.map String.toList := by
      refine List.splitOn_intercalate '\n' ?_ (by simpa using hne)
      simpa [OneLine] using hline
    rw [String.splitToList_of_valid, String.toList_intercalate]
    show ((['\n'].intercalate (ms.map String.toList)).splitOn '\n').map String.ofList = ms
    rw [hsplit, List.map_map]
    simp
  have hkept : ms.dropLast.map withoutReturn = ms.dropLast := by
    rw [List.map_congr_left fun m hm =>
      withoutReturn_of_digit (hlast m (List.dropLast_subset _ hm))]
    exact List.map_id _
  have hend : (!(ms.getLast hne).isEmpty) = true := by
    obtain ⟨c, hc, -⟩ := hlast _ (List.getLast_mem hne)
    rw [Bool.not_eq_true', String.isEmpty_eq_false_iff]
    intro hempty
    rw [hempty] at hc
    cases hc
  unfold lines
  simp only [hparts, hkept, List.getLast?_eq_some_getLast hne, Option.toList_some]
  rw [List.filter_cons_of_pos (p := fun m : String => !m.isEmpty) hend, List.filter_nil,
    List.dropLast_append_getLast]

end Cli

end Offside
