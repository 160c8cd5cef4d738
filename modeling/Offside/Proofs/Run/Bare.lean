import Offside.Proofs.Run.Mirroring
import Offside.Proofs.Run.Fuel

/-!
# What a program says

Two programs with the same bare form differ in their positions, in parentheses and in statements
that only hold statements together. From the same machine they do the same: what they write, how
they end and the frames they leave are the same, except that the commands they have declared have
bodies that differ in the same way (`bare_meaning`).

Both are mirrored by what they are recast to, which runs from the machine with the commands in its
frames recast. So the same holds of any two programs that are recast to the same (`runOf_recast`).
-/

namespace Offside

open Run

/-! ## Machines with recast commands -/

def Value.recast (τ : Recast) (v : Value) : Value := v.onCommand (Command.recast τ)

def Frame.recast (τ : Recast) (f : Frame) : Frame := f.map (fun g => g) (Value.recast τ)

def Store.recast (τ : Recast) (s : Store) : Store := ⟨s.frames.map (Frame.recast τ)⟩

/-- A machine with the commands in its frames recast. All else is as it was, output included. -/
def Machine.recast (τ : Recast) (m : Machine) : Machine := { m with store := m.store.recast τ }

def Flow.recast (τ : Recast) : Flow → Flow
  | normal => normal
  | returned v => returned (v.recast τ)

/-- How a run ends, recast and without the position of an error. -/
def Outcome.recast {α : Type} (τ : Recast) (h : α → α) : Outcome α → Outcome α
  | done a m => done (h a) (m.recast τ)
  | failed e m => failed ⟨e.cause, none⟩ (m.recast τ)
  | exhausted => exhausted

@[simp] theorem Machine.recast_sink (τ : Recast) (m : Machine) : (m.recast τ).sink = m.sink := rfl

section outcome

variable {α : Type} {τ : Recast} (h : α → α)

@[simp] theorem Outcome.recast_done (a : α) (m : Machine) :
    (Outcome.done a m).recast τ h = .done (h a) (m.recast τ) := rfl

@[simp] theorem Outcome.recast_failed (e : RuntimeError) (m : Machine) :
    (Outcome.failed e m).recast τ h = .failed ⟨e.cause, none⟩ (m.recast τ) := rfl

@[simp] theorem Outcome.recast_exhausted :
    (Outcome.exhausted : Outcome α).recast τ h = .exhausted := rfl

variable {h}

theorem Outcome.recast_cases {o o' : Outcome α} (hsame : o.recast τ h = o'.recast τ h) :
    (∃ a a' m m', o = .done a m ∧ o' = .done a' m' ∧ m.recast τ = m'.recast τ) ∨
    (∃ e e' m m', o = .failed e m ∧ o' = .failed e' m' ∧ e.cause = e'.cause ∧
      m.recast τ = m'.recast τ) ∨
    (o = .exhausted ∧ o' = .exhausted) := by
  cases o with
  | done a m =>
    cases o' with
    | done a' m' =>
      rw [recast_done, recast_done, done.injEq] at hsame
      exact .inl ⟨a, a', m, m', rfl, rfl, hsame.2⟩
    | failed e' m' => simp at hsame
    | exhausted => simp at hsame
  | failed e m =>
    cases o' with
    | done a' m' => simp at hsame
    | failed e' m' =>
      rw [recast_failed, recast_failed, failed.injEq] at hsame
      have hcause : e.cause = e'.cause := by simpa using hsame.1
      exact .inr (.inl ⟨e, e', m, m', rfl, rfl, hcause, hsame.2⟩)
    | exhausted => simp at hsame
  | exhausted =>
    cases o' with
    | done a' m' => simp at hsame
    | failed e' m' => simp at hsame
    | exhausted => exact .inr (.inr ⟨rfl, rfl⟩)

end outcome

/-- A program is mirrored by what it is recast to, in the same frames. -/
def Mirror.still (τ : Recast) : Mirror where
  recast := τ
  frame g := g
  live _ := True
  top := 0
  base := .empty
  increasing _ _ := Iff.rfl
  fresh _ := trivial
  frame_succ _ := rfl

namespace Mirror

variable {τ : Recast}

theorem still_value (v : Value) : (still τ).value v = v.recast τ := by
  have hcommand : (still τ).command = Command.recast τ := by
    funext c
    cases c <;> rfl
  unfold value Value.recast
  rw [hcommand]

theorem still_image (f : Frame) : (still τ).image f = f.recast τ := by
  have hvalue : (still τ).value = Value.recast τ := funext still_value
  unfold image Frame.recast
  rw [hvalue]
  rfl

theorem stores_still (s : Store) : (still τ).Stores s (s.recast τ) := by
  refine ⟨?_, Nat.zero_le _, fun {g} _ => ?_, fun _ _ => ?_, fun hg => absurd trivial hg⟩
  · simp [Store.next, Store.recast, still]
  · have himage : (still τ).image = Frame.recast τ := funext still_image
    rw [himage]
    exact Array.getElem?_map
  · exact ⟨fun _ _ => trivial, fun _ _ => lives_of_home fun _ _ _ _ => trivial⟩

theorem machines_still (m : Machine) : (still τ).Machines m (m.recast τ) :=
  ⟨trivial, m.store.recast τ, stores_still m.store, rfl⟩

theorem recast_of_machines {m m' : Machine} (h : (still τ).Machines m m') : m' = m.recast τ := by
  obtain ⟨-, s', hs, rfl⟩ := h
  have hstore : s' = m.store.recast τ := by
    have himage : (still τ).image = Frame.recast τ := funext still_image
    have hframes : s'.frames = m.store.frames.map (Frame.recast τ) := by
      apply Array.ext_getElem?
      intro g
      have hg : s'.frames[g]? = _ := hs.frames (g := g) trivial
      rw [hg, himage, Array.getElem?_map]
    unfold Store.recast
    rw [← hframes]
  rw [hstore]
  rfl

theorem recast_of_flows {flow flow' : Flow} (h : (still τ).Flows flow flow') :
    flow' = flow.recast τ := by
  cases h with
  | normal => rfl
  | returned hv =>
    rw [hv.1, still_value]
    rfl

theorem recast_of_outcomes {o₁ o₂ o : Outcome Flow}
    (h₁ : (still τ).Outcomes (still τ).Flows o₁ o) (h₂ : (still τ).Outcomes (still τ).Flows o₂ o) :
    o₁.recast τ (Flow.recast τ) = o₂.recast τ (Flow.recast τ) := by
  cases h₁ with
  | done hflow hm =>
    cases h₂ with
    | done hflow₂ hm₂ =>
      rw [Outcome.recast_done, Outcome.recast_done, ← recast_of_flows hflow,
        ← recast_of_flows hflow₂, ← recast_of_machines hm, ← recast_of_machines hm₂]
  | failed he hm =>
    cases h₂ with
    | failed he₂ hm₂ =>
      rw [Outcome.recast_failed, Outcome.recast_failed, ← he.cause, ← he₂.cause,
        ← recast_of_machines hm, ← recast_of_machines hm₂]
  | exhausted =>
    cases h₂
    rfl

theorem recast_of_states {ms ms' : List Machine} (h : List.Forall₂ (still τ).Machines ms ms') :
    ms' = ms.map (Machine.recast τ) := by
  induction h with
  | nil => rfl
  | cons hm _ ih => rw [List.map_cons, recast_of_machines hm, ih]

end Mirror

/-! ## Programs that are recast to the same -/

section alike

variable {τ : Recast} {p p' : Program} (h : recastAll τ p = recastAll τ p') (fuel : Nat)
  (m : Machine)

include h

theorem statements_recast :
    (statementsOf p fuel m).recast τ (Flow.recast τ) =
      (statementsOf p' fuel m).recast τ (Flow.recast τ) := by
  have hp := ((Mirror.still τ).statements p fuel).runs m (m.recast τ) (Mirror.machines_still m)
  have hp' := ((Mirror.still τ).statements p' fuel).runs m (m.recast τ) (Mirror.machines_still m)
  have hsame : recastAll (Mirror.still τ).recast p = recastAll (Mirror.still τ).recast p' := h
  rw [Program.trace_outcome, Program.trace_outcome] at hp hp'
  rw [← hsame] at hp'
  exact Mirror.recast_of_outcomes hp hp'

theorem states_recast :
    ((Program.trace p fuel).states m).map (Machine.recast τ) =
      ((Program.trace p' fuel).states m).map (Machine.recast τ) := by
  have hp := ((Mirror.still τ).statements p fuel).states (Mirror.machines_still m)
  have hp' := ((Mirror.still τ).statements p' fuel).states (Mirror.machines_still m)
  have hsame : recastAll (Mirror.still τ).recast p = recastAll (Mirror.still τ).recast p' := h
  rw [← hsame] at hp'
  rw [← Mirror.recast_of_states hp, ← Mirror.recast_of_states hp']

end alike

theorem flushed_recast (τ : Recast) (o : Outcome Flow) :
    o.flushed.recast τ id = (o.recast τ (Flow.recast τ)).flushed := by
  have hflush : ∀ m : Machine, (flush m).recast τ id = flush (m.recast τ) := by
    intro m
    unfold flush request
    simp only [Machine.recast_sink]
    cases m.sink.flush.2 <;> rfl
  cases o with
  | done flow m => exact hflush m
  | failed e m =>
    have herror : (m.recast τ).flushError? = m.flushError? := rfl
    rw [Outcome.recast_failed, Outcome.flushed, Outcome.flushed, Outcome.recast_failed, herror]
    rcases flush_cases m with ⟨h, -⟩ | ⟨err, h, -⟩ <;> rw [h] <;> rfl
  | exhausted => rfl

/-- Programs that are recast to the same end in the same way, with the same fuel. -/
theorem runOf_recast {τ : Recast} {p p' : Program} (h : recastAll τ p = recastAll τ p')
    (fuel : Nat) (m : Machine) :
    (runOf p fuel m).recast τ id = (runOf p' fuel m).recast τ id := by
  rw [runOf_apply, runOf_apply, flushed_recast, flushed_recast, statements_recast h]

/-- Two runs both succeed, or both fail for the same reason, or both run forever. The machines they
end with are recast to the same: they have the same output, and differ at most in the words of the
commands in their frames. -/
def EndAlike (τ : Recast) (x x' : Nat → Run Unit) (m m' : Machine) : Prop :=
  (∃ m₁ m₂, Ends x m (.done () m₁) ∧ Ends x' m' (.done () m₂) ∧ m₁.recast τ = m₂.recast τ) ∨
  (∃ e₁ e₂ m₁ m₂, Ends x m (.failed e₁ m₁) ∧ Ends x' m' (.failed e₂ m₂) ∧ e₁.cause = e₂.cause ∧
    m₁.recast τ = m₂.recast τ) ∨
  (∀ fuel, x fuel m = .exhausted) ∧ ∀ fuel, x' fuel m' = .exhausted

/-- It is enough to compare the runs with much fuel. -/
theorem endAlike_of_recast {τ : Recast} {p p' : Program} {m m' : Machine} (n : Nat)
    (h : ∀ fuel, n ≤ fuel → (runOf p fuel m).recast τ id = (runOf p' fuel m').recast τ id) :
    EndAlike τ (runOf p) (runOf p') m m' := by
  by_cases hend : ∃ fuel, n ≤ fuel ∧ runOf p fuel m ≠ .exhausted
  · obtain ⟨fuel, hn, hfuel⟩ := hend
    rcases Outcome.recast_cases (h fuel hn) with ⟨_, _, m₁, m₂, ho, ho', hm⟩ |
        ⟨e₁, e₂, m₁, m₂, ho, ho', hcause, hm⟩ | ⟨ho, -⟩
    · exact .inl ⟨m₁, m₂, ⟨by simp, fuel, ho⟩, ⟨by simp, fuel, ho'⟩, hm⟩
    · exact .inr (.inl ⟨e₁, e₂, m₁, m₂, ⟨by simp, fuel, ho⟩, ⟨by simp, fuel, ho'⟩, hcause, hm⟩)
    · exact absurd ho hfuel
  · have hnever : ∀ fuel, n ≤ fuel → runOf p fuel m = .exhausted := by
      intro fuel hn
      by_contra hne
      exact hend ⟨fuel, hn, hne⟩
    have hnever' : ∀ fuel, n ≤ fuel → runOf p' fuel m' = .exhausted := by
      intro fuel hn
      rcases Outcome.recast_cases (h fuel hn) with ⟨_, _, m₁, m₂, ho, -⟩ |
          ⟨_, _, m₁, m₂, ho, -⟩ | ⟨-, ho'⟩
      · rw [hnever fuel hn] at ho
        cases ho
      · rw [hnever fuel hn] at ho
        cases ho
      · exact ho'
    exact .inr (.inr ⟨exhausted_of_le hnever, exhausted_of_le hnever'⟩)

/-- **Positions, parentheses and statements that only hold others together have no meaning.** From
the same machine, two programs that say the same end alike. They go through the same machines, too,
but for the words of commands, and so write the same whether they come to an end or not. -/
theorem bare_meaning {p p' : Program} (h : Program.bare p = Program.bare p') (m : Machine) :
    EndAlike .plain (runOf p) (runOf p') m m ∧
    ∀ fuel, ((Program.trace p fuel).states m).map (Machine.recast .plain) =
      ((Program.trace p' fuel).states m).map (Machine.recast .plain) :=
  ⟨endAlike_of_recast 0 fun fuel _ => runOf_recast h fuel m, fun fuel => states_recast h fuel m⟩

/-- A command that prints a text in parentheses, declared and called in a statement that only holds
these two together. -/
def wordy : Program :=
  [.body [
    .definition ⟨"F", ⟨1, 5⟩⟩ []
      [.body [.expression (.call ⟨"PRINT", ⟨2, 3⟩⟩ [.group (.literal (.text "a"))])], .pass],
    .expression (.call ⟨"F", ⟨3, 1⟩⟩ [])]]

/-- The same without parentheses, on one line. -/
def terse : Program :=
  [.definition ⟨"F", ⟨1, 5⟩⟩ []
      [.expression (.call ⟨"PRINT", ⟨1, 7⟩⟩ [.literal (.text "a")]), .pass],
    .expression (.call ⟨"F", ⟨1, 20⟩⟩ [])]

theorem bare_meaning_wordy :
    let m := Machine.standard 1 .unlimited fun _ => 0
    Program.bare wordy = Program.bare terse ∧
      EndAlike .plain (runOf wordy) (runOf terse) m m ∧
      ∀ fuel, ((Program.trace wordy fuel).states m).map (Machine.recast .plain) =
        ((Program.trace terse fuel).states m).map (Machine.recast .plain) := by
  have h : Program.bare wordy = Program.bare terse := rfl
  exact ⟨h, bare_meaning h _⟩

end Offside
