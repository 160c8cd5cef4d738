import Mathlib
import Offside.Proofs.Run.Room

/-!
# The error that is reported

An error ends a run, wherever it is met: what was being done is given up, call by call, up to the
statements of the program. So a run meets no second error, but for one place: the output is flushed
at the end, behind an error too, and this can fail. Then the error of the flush takes the place of
the one that ended the statements (`flush_hides_error`). If this flush works, the error that was met
is the error of the run, also if it was an earlier flush or a write that failed.
-/

namespace Offside

open Run

/-- An error that a run meets at any moment is the error that its statements end with: the cause is
the same, and so is the position, unless it got one on the way. -/
theorem statementsOf_failed_of_reaches {p : Program} {fuel n : Nat} {m : Machine} {b : Moment}
    {e : RuntimeError} (hend : statementsOf p fuel m ≠ .exhausted)
    (hb : Reaches ((Job.program p).start fuel m) n b) (he : b.FailsWith e) :
    ∃ e' m', statementsOf p fuel m = .failed e' m' ∧ Outward (some e) (some e') := by
  obtain ⟨r, hr, hout⟩ := hb.stop? he
  cases r with
  | none => exact absurd (Outcome.stop?_eq_exhausted.mp hr) hend
  | some e' =>
    obtain ⟨m', hm'⟩ := Outcome.stop?_eq_error.mp hr
    exact ⟨e', m', hm', hout⟩

theorem exists_raises_of_statementsOf {p : Program} {fuel : Nat} {m m' : Machine}
    {e : RuntimeError} (h : statementsOf p fuel m = .failed e m') :
    ∃ n b, Reaches ((Job.program p).start fuel m) n b ∧ b.Raises e := by
  refine Moment.raised (t := .stmts p) rfl ?_
  exact Outcome.stop?_eq_error.mpr ⟨m', h⟩

/-- **The first error is the one that is reported.** An error that is met at any moment of a program
that comes to its end, however deep in calls, is the error its statements end with, and the
statements end with no error that was not raised at some moment. If the flush behind them works, the
program ends with this very error, whatever other flushes and writes came to; if it fails, the
program ends with the error of this flush. If the statements end without an error, the program ends
as the flush does. -/
theorem first_error_reported {p : Program} {fuel : Nat} {m : Machine}
    (hend : statementsOf p fuel m ≠ .exhausted) :
    (∀ n b e, Reaches ((Job.program p).start fuel m) n b → b.FailsWith e →
      ∃ e' m₁, statementsOf p fuel m = .failed e' m₁ ∧ Outward (some e) (some e')) ∧
    (∀ e m₁, statementsOf p fuel m = .failed e m₁ →
      (∃ n b, Reaches ((Job.program p).start fuel m) n b ∧ b.Raises e) ∧
      (∀ m₂, flush m₁ = .done () m₂ → Ends (runOf p) m (.failed e m₂)) ∧
      ∀ e' m₂, flush m₁ = .failed e' m₂ → Ends (runOf p) m (.failed e' m₂)) ∧
    ∀ flow m₁, statementsOf p fuel m = .done flow m₁ → Ends (runOf p) m (flush m₁) := by
  refine ⟨fun n b e hb he => statementsOf_failed_of_reaches hend hb he, fun e m₁ h => ?_,
    fun flow m₁ h => ?_⟩
  · refine ⟨exists_raises_of_statementsOf h, fun m₂ hflush => ?_, fun e' m₂ hflush => ?_⟩
    · refine ⟨by simp, fuel, ?_⟩
      rw [runOf_apply, h, Outcome.flushed_failed hflush]
    · refine ⟨by simp, fuel, ?_⟩
      rw [runOf_apply, h, Outcome.flushed_hidden hflush]
  · have hrun : runOf p fuel m = flush m₁ := by
      rw [runOf_apply, h]
      rfl
    refine ⟨?_, fuel, hrun⟩
    rcases flush_cases m₁ with ⟨-, hflush⟩ | ⟨e, -, hflush⟩ <;> rw [hflush] <;> simp

/-- A sink that fails when it is flushed for the time `k`, counted from zero, and only then. -/
def balking (k : Nat) : Sink where
  state := .empty
  writing := .upTo none
  flushing s := (s.memory + 1, if s.memory = k then some .cannotFlush else none)

/-- A command that clears the screen and evaluates a variable which is not declared. -/
def clearing : Definition where
  name := ⟨"F", ⟨1, 5⟩⟩
  params := []
  body := [.expression (.call ⟨"CLEAR", ⟨2, 3⟩⟩ []), .expression (.name .variable ⟨"x", ⟨3, 3⟩⟩)]

def clearingProgram : Program :=
  [.definition clearing.name [] clearing.body, .expression (.call ⟨"F", ⟨4, 1⟩⟩ [])]

/-- If the flush of `CLEAR` fails, its error ends the program, though the last flush works. If the
last one alone fails, its error hides that of the variable. -/
theorem first_error_reported_clearing :
    let start := fun k => Machine.standard 1 (balking k) fun _ => 0
    let e : RuntimeError := ⟨.output .cannotFlush, some ⟨2, 3⟩⟩
    (∃ b, Reaches ((Job.program clearingProgram).start 2 (start 0)) 1 b ∧ b.FailsWith e) ∧
      (∃ m₁, statementsOf clearingProgram 2 (start 0) = .failed e m₁) ∧
      (∃ m₂, Ends (runOf clearingProgram) (start 0) (.failed e m₂)) ∧
      (∃ m₁, statementsOf clearingProgram 2 (start 1) =
        .failed ⟨.undefinedVariable "x", some ⟨3, 3⟩⟩ m₁) ∧
      ∃ m₂, Ends (runOf clearingProgram) (start 1) (.failed ⟨.output .cannotFlush, none⟩ m₂) := by
  intro start e
  obtain ⟨m₁, m₂, hfailed, hflush⟩ : ∃ m₁ m₂,
      statementsOf clearingProgram 2 (start 0) = .failed e m₁ ∧ flush m₁ = .done () m₂ :=
    ⟨_, _, by cbv, by cbv⟩
  obtain ⟨m₁', m₂', hfailed', hflush'⟩ : ∃ m₁ m₂,
      statementsOf clearingProgram 2 (start 1) =
        .failed ⟨.undefinedVariable "x", some ⟨3, 3⟩⟩ m₁ ∧
      flush m₁ = .failed ⟨.output .cannotFlush, none⟩ m₂ := ⟨_, _, by cbv, by cbv⟩
  -- the machine behind the declaration, from which the body of the command is entered
  obtain ⟨m₃, hdefined, hcallee, hlimit, hbody⟩ : ∃ m₃,
      exec (apply 2) 2 (.definition clearing.name [] clearing.body) (start 0) = .done .normal m₃ ∧
      callee ⟨"F", ⟨4, 1⟩⟩ m₃ = .done (.command 3 (.defined clearing 0)) m₃ ∧
      m₃.depth < m₃.limit ∧
      Moment.FailsWith ⟨1, .stmts clearing.body, Machine.entering
        { m₃ with store := m₃.store.push ⟨some 0, []⟩ } m₃.store.next⟩ e :=
    ⟨_, rfl, by cbv, by decide, by cbv⟩
  have hcall : Reaches ⟨2, .expr (.call ⟨"F", ⟨4, 1⟩⟩ []), m₃⟩ 1 _ :=
    .inside (.call hcallee rfl rfl) (.enter rfl rfl hlimit .here)
  have hreaches : Reaches ((Job.program clearingProgram).start 2 (start 0)) 1 _ :=
    .inside (.tail hdefined) (.inside .head (.inside (.value rfl) hcall))
  have hend : statementsOf clearingProgram 2 (start 0) ≠ .exhausted := by simp [hfailed]
  have hend' : statementsOf clearingProgram 2 (start 1) ≠ .exhausted := by simp [hfailed']
  obtain ⟨hmoments, herrors, -⟩ := first_error_reported hend
  obtain ⟨-, herrors', -⟩ := first_error_reported hend'
  obtain ⟨e', m₄, hstatements, hout⟩ := hmoments 1 _ e hreaches hbody
  rw [hout.eq_of_pos rfl] at hstatements
  exact ⟨⟨_, hreaches, hbody⟩, ⟨m₄, hstatements⟩,
    ⟨m₂, (herrors e m₁ hfailed).2.1 m₂ hflush⟩, ⟨m₁', hfailed'⟩,
    m₂', (herrors' _ m₁' hfailed').2.2 _ m₂' hflush'⟩

/-- A program that is no more than a variable which is not declared. -/
def undeclared : Program := [.expression (.name .variable ⟨"x", ⟨1, 1⟩⟩)]

/-- Where the output cannot be flushed, the error that ended the statements is not the one that is
reported. -/
theorem flush_hides_error :
    ¬ ∀ (p : Program) (m m' : Machine) (e : RuntimeError),
      Ends (statementsOf p) m (.failed e m') → Ends (runOf p) m (.failed e m') := by
  intro h
  have hstatements : statementsOf undeclared 0 (.standard 1 ⟨.empty, .upTo none, true⟩ fun _ => 0) =
      .failed ⟨.undefinedVariable "x", some ⟨1, 1⟩⟩
        (.standard 1 ⟨.empty, .upTo none, true⟩ fun _ => 0) :=
    by cbv
  have hrun : runOf undeclared 0 (.standard 1 ⟨.empty, .upTo none, true⟩ fun _ => 0) =
      .failed ⟨.output .cannotFlush, none⟩
        (.standard 1 ⟨.empty, .upTo none, true⟩ fun _ => 0) := by cbv
  have hclaimed := h undeclared _ _ _ ⟨by simp, 0, hstatements⟩
  have heq := hclaimed.unique ⟨by simp, 0, hrun⟩
  cases heq

end Offside
