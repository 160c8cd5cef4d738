import Offside.Proofs.Run.Judgement
import Offside.Session

/-!
# The machines that a run goes through

A trace is a run with a record of the machines it comes to, one behind each basic step and one
wherever the frame or the depth changes, and of the machine at which its error arose, if it has one.
Evaluation in traces is evaluation: it only adds the record (`Trace.forgets`). A run that does not
come to an end within its fuel has a record all the same, of the machines it has come to by then.
-/

namespace Offside

open Run

/-- A run with its record. -/
structure Trace (α : Type) where
  outcome : Run α
  /-- The machines it comes to, behind the one it begins with. -/
  states : Machine → List Machine
  /-- The machine at which its error arose, before anything was undone. -/
  origin? : Machine → Option Machine

namespace Trace

variable {α β : Type}

protected def pure (a : α) : Trace α := ⟨pure a, fun _ => [], fun _ => none⟩

protected def bind (y : Trace α) (g : α → Trace β) : Trace β where
  outcome := y.outcome >>= fun a => (g a).outcome
  states m := y.states m ++
    match y.outcome m with
    | .done a m' => (g a).states m'
    | _ => []
  origin? m :=
    match y.outcome m with
    | .done a m' => (g a).origin? m'
    | _ => y.origin? m

instance : Monad Trace where
  pure := Trace.pure
  bind := Trace.bind

section bind

variable {y : Trace α} {g : α → Trace β} {m m' : Machine}

theorem bind_of_done {a : α} (h : y.outcome m = .done a m') :
    (y >>= g).outcome m = (g a).outcome m' ∧
      (y >>= g).states m = y.states m ++ (g a).states m' ∧
      (y >>= g).origin? m = (g a).origin? m' := by
  show (Run.bind _ _ m = _) ∧ (Trace.bind y g).states m = _ ∧ (Trace.bind y g).origin? m = _
  unfold Trace.bind Run.bind
  simp only [h, and_self]

theorem bind_of_failed {e : RuntimeError} (h : y.outcome m = .failed e m') :
    (y >>= g).outcome m = .failed e m' ∧ (y >>= g).states m = y.states m ∧
      (y >>= g).origin? m = y.origin? m := by
  show (Run.bind _ _ m = _) ∧ (Trace.bind y g).states m = _ ∧ (Trace.bind y g).origin? m = _
  unfold Trace.bind Run.bind
  simp only [h, List.append_nil, and_self]

theorem bind_of_exhausted (h : y.outcome m = .exhausted) :
    (y >>= g).outcome m = .exhausted ∧ (y >>= g).states m = y.states m ∧
      (y >>= g).origin? m = y.origin? m := by
  show (Run.bind _ _ m = _) ∧ (Trace.bind y g).states m = _ ∧ (Trace.bind y g).origin? m = _
  unfold Trace.bind Run.bind
  simp only [h, List.append_nil, and_self]

end bind

/-- The machines of a part that begins at another machine, up to where it comes back. -/
def detour (y : Trace α) (go : Machine) (back : Outcome α) : List Machine :=
  go :: y.states go ++ back.machine?.toList

/-- The machine of a basic step that fails. -/
def failing (m : Machine) : Outcome α → Option Machine
  | .failed _ _ => some m
  | _ => none

theorem mem_failing {m s : Machine} {o : Outcome α} (h : s ∈ failing m o) : s = m := by
  cases o <;> cases h
  rfl

instance : Interpretation Trace where
  step x := ⟨x, fun m => (x m).machine?.toList, fun m => failing m (x m)⟩
  located p y := ⟨located p y.outcome, y.states, y.origin?⟩
  nested y :=
    ⟨nested y.outcome,
      fun m =>
        if m.limit ≤ m.depth then []
        else y.detour { m with depth := m.depth + 1 } (nested y.outcome m),
      fun m =>
        if m.limit ≤ m.depth then some m else y.origin? { m with depth := m.depth + 1 }⟩
  inFrame f y :=
    ⟨inFrame f y.outcome, fun m => y.detour { m with current := f } (inFrame f y.outcome m),
      fun m => y.origin? { m with current := f }⟩

theorem forgets : Forgets fun (α : Type) (y : Trace α) => y.outcome :=
  ⟨fun _ => rfl, fun _ _ => rfl, fun _ => rfl, fun _ _ => rfl, fun _ => rfl, fun _ _ => rfl⟩

end Trace

def Program.trace (p : Program) (fuel : Nat) : Trace Flow := execAllIn (applyIn fuel) fuel p

theorem Program.trace_outcome (p : Program) (fuel : Nat) :
    (Program.trace p fuel).outcome = execAll (apply fuel) fuel p :=
  Trace.forgets.execAllIn fuel p

/-- All machines of a session while it runs a source text, in their order; the last one is that of
the end, when the output has been flushed. If the text cannot be read, nothing is run. -/
def Session.states (fuel : Nat) (source : String) (m : Machine) : List Machine :=
  match parseSource source with
  | .error _ => [m]
  | .ok program =>
    m :: ((Program.trace program fuel).states m ++ (interpret fuel program m).machine?.toList)

/-- The machine at which the error arose that ended the statements of a source text. -/
def Session.origin? (fuel : Nat) (source : String) (m : Machine) : Option Machine :=
  match parseSource source with
  | .error _ => none
  | .ok program => (Program.trace program fuel).origin? m

end Offside
