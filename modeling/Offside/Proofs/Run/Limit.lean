import Mathlib
import Offside.Session
import Offside.Proofs.Run.Curbs

/-!
# The limit on call depth

A run that does not come to its limit does not notice it: with a higher limit it ends in the same
way, with the same output and the same frames. A run that comes to its limit has done, up to there,
what a run with a higher limit does, so what it has written is the beginning of what that run
writes.

The lower limit is a curb (`Curb.depth`): it shows only where a call would go deeper than it allows,
and there it ends the run.
-/

namespace Offside

open Run

/-! ## Limits -/

def Machine.withLimit (m : Machine) (n : Nat) : Machine := { m with limit := n }

namespace Outcome

variable {α : Type}

def withLimit (n : Nat) : Outcome α → Outcome α
  | done a m => done a (m.withLimit n)
  | failed e m => failed e (m.withLimit n)
  | exhausted => exhausted

/-- A run has ended because it came to the limit `n`. -/
def HitsLimit (n : Nat) (o : Outcome α) : Prop :=
  ∃ pos m, o = .failed ⟨.recursionLimit n, pos⟩ m

end Outcome

/-! ## The limit as a curb -/

/-- A limit on call depth that is not higher than the one there is. -/
def Curb.depth (n : Nat) : Curb where
  limit _ := n
  sink s := s
  cause := .recursionLimit n
  slack limit _ := n ≤ limit
  past s₀ s := ∃ bytes, s.written = s₀.written ++ bytes
  past_grows := by
    rintro s₀ s s' ⟨b, hb⟩ ⟨b', hb'⟩
    exact ⟨b ++ b', by rw [hb', hb, ByteArray.append_assoc]⟩

theorem Outcome.onMachine_depth {α : Type} (n : Nat) (o : Outcome α) :
    o.onMachine (Curb.depth n).on = o.withLimit n := by
  cases o <;> rfl

theorem request_withLimit (ask : Sink → Sink × Option SinkError) (m : Machine) (n : Nat) :
    request ask (m.withLimit n) = (request ask m).withLimit n := by
  unfold request Machine.withLimit
  simp only
  cases (ask m.sink).2 <;> rfl

theorem Curb.depth_follows {n : Nat} {x : Run Unit} {m : Machine} (hx : Keeps Onward x)
    (hlimit : x (m.withLimit n) = (x m).withLimit n) :
    (Curb.depth n).Follows Unit m (fun _ _ => True) x x := by
  refine ⟨hx m, fun _ _ _ => trivial, fun hslack => .inl ⟨?_, fun m' hm' => ?_⟩⟩
  · rw [Outcome.onMachine_depth]
    exact hlimit
  · rw [(hx m m' hm').limit]
    exact hslack

theorem Curb.depth_lawful (n : Nat) : (Curb.depth n).Lawful where
  write text m := depth_follows (.write text) (request_withLimit _ m n)
  flush m := depth_follows .flush (request_withLimit _ m n)
  nested {α m P x y} h := by
    have honward := Onward.nested (fun m => (h m).onward) m
    refine ⟨honward, fun _ _ _ => trivial, fun hslack => ?_⟩
    by_cases hdepth : m.depth < n
    · have hlimit : m.depth < m.limit := Nat.lt_of_lt_of_le hdepth hslack
      exact (Follows.nested_of_lt h hlimit hdepth).same hslack
    · -- one call deeper, the lower limit is reached first
      have hy : nested y (m.withLimit n) = .failed ⟨.recursionLimit n, none⟩ (m.withLimit n) :=
        nested_limit (m := m.withLimit n) y (Nat.le_of_not_lt hdepth)
      exact .inr ⟨none, m.withLimit n, hy, fun m' hm' => (honward m' hm').wrote⟩

/-! ## Programs -/

/-- The run that ended with `o'` was cut short by the limit `n`, when it had written no more than
the run that ended with `o`. -/
def CutShort {α : Type} (n : Nat) (o o' : Outcome α) : Prop :=
  ∃ pos m, o' = .failed ⟨.recursionLimit n, pos⟩ m ∧ ∀ m' ∈ o.machine?, WroteMore m m'

/-- From the machine `m`, and from the same with the limit `n`, two runs end in the same way, or the
second is cut short. -/
structure Shadowed (n : Nat) {α : Type} (m : Machine) (x y : Run α) : Prop where
  onward : ∀ m' ∈ (x m).machine?, Onward m m'
  same : y (m.withLimit n) = (x m).withLimit n ∨ CutShort n (x m) (y (m.withLimit n))

/-- A program with the limit `n` does the same as with a limit that is not lower, as far as its
statements go, or it is cut short. -/
theorem statements_shadowed {n k : Nat} (hnk : n ≤ k) (fuel : Nat) (p : Program) (m : Machine) :
    Shadowed n (m.withLimit k) (statementsOf p fuel) (statementsOf p fuel) := by
  obtain ⟨honward, -, hsame⟩ :=
    Curb.statements_follow (Curb.depth_lawful n) fuel p (m.withLimit k)
  refine ⟨honward, ?_⟩
  rcases hsame hnk with ⟨hsame, -⟩ | hcut
  · rw [Outcome.onMachine_depth] at hsame
    exact .inl hsame
  · exact .inr hcut

namespace Outcome

theorem flushed_withLimit (n : Nat) (o : Outcome Flow) :
    (o.withLimit n).flushed = o.flushed.withLimit n := by
  cases o with
  | done flow m => exact request_withLimit _ m n
  | failed e m => rfl
  | exhausted => rfl

theorem withLimit_withLimit {α : Type} (n k : Nat) (o : Outcome α) :
    (o.withLimit n).withLimit k = o.withLimit k := by
  cases o <;> rfl

theorem withLimit_eq_self {α : Type} {k : Nat} {o : Outcome α}
    (h : ∀ m ∈ o.machine?, m.limit = k) : o.withLimit k = o := by
  cases o with
  | done a m => rw [← h m rfl]; rfl
  | failed e m => rw [← h m rfl]; rfl
  | exhausted => rfl

end Outcome

section programs

variable {n k : Nat} (hnk : n ≤ k) {fuel : Nat} {p : Program} {m : Machine}

include hnk

theorem statementsOf_withLimit (hfree : ¬ (statementsOf p fuel (m.withLimit n)).HitsLimit n) :
    statementsOf p fuel (m.withLimit k) = (statementsOf p fuel (m.withLimit n)).withLimit k := by
  obtain ⟨honward, hsame⟩ := statements_shadowed hnk fuel p m
  have hback : (m.withLimit k).withLimit n = m.withLimit n := rfl
  rw [hback] at hsame
  rcases hsame with hsame | ⟨pos, m₀, hcut, -⟩
  · rw [hsame, Outcome.withLimit_withLimit]
    exact (Outcome.withLimit_eq_self fun m' hm' => (honward m' hm').limit).symm
  · exact absurd ⟨pos, m₀, hcut⟩ hfree

theorem statementsOf_wroteMore {m₁ m₂ : Machine}
    (hm₁ : m₁ ∈ (statementsOf p fuel (m.withLimit n)).machine?)
    (hm₂ : m₂ ∈ (statementsOf p fuel (m.withLimit k)).machine?) : WroteMore m₁ m₂ := by
  obtain ⟨-, hsame⟩ := statements_shadowed hnk fuel p m
  have hback : (m.withLimit k).withLimit n = m.withLimit n := rfl
  rw [hback] at hsame
  rcases hsame with hsame | ⟨pos, m₀, hcut, hwrote⟩
  · rw [hsame] at hm₁
    cases hk : statementsOf p fuel (m.withLimit k) with
    | done flow m' =>
      rw [hk] at hm₁ hm₂
      cases hm₁
      cases hm₂
      exact .refl _
    | failed e m' =>
      rw [hk] at hm₁ hm₂
      cases hm₁
      cases hm₂
      exact .refl _
    | exhausted =>
      rw [hk] at hm₂
      cases hm₂
  · rw [hcut] at hm₁
    cases hm₁
    exact hwrote m₂ hm₂

end programs

/-- **The limit on call depth is transparent.** A run that ends otherwise than at its limit `n` ends
in the same way, with the same output and the same frames, with any limit that is not lower, unless
its statements came to the limit and the output could not be flushed then, for the error of the
flush hides this. And a run that ends at its limit has written the beginning of what the run with a
limit that is not lower has written at its end. -/
theorem limit_transparent (p : Program) (m : Machine) {n k : Nat} (hnk : n ≤ k) {o : Outcome Unit}
    (ho : Ends (runOf p) (m.withLimit n) o) :
    (¬ o.HitsLimit n →
      (∀ pos m₁, Ends (statementsOf p) (m.withLimit n) (.failed ⟨.recursionLimit n, pos⟩ m₁) →
        ∃ m₂, flush m₁ = .done () m₂) →
      Ends (runOf p) (m.withLimit k) (o.withLimit k)) ∧
    (o.HitsLimit n → ∀ o', Ends (runOf p) (m.withLimit k) o' →
      ∀ m₁ ∈ o.machine?, ∀ m₂ ∈ o'.machine?, WroteMore m₁ m₂) := by
  obtain ⟨hend, fuel, rfl⟩ := ho
  rw [runOf_apply] at hend ⊢
  constructor
  · intro hfree hflush
    have hstatements : ¬ (statementsOf p fuel (m.withLimit n)).HitsLimit n := by
      rintro ⟨pos, m₁, hhit⟩
      obtain ⟨m₂, hm₂⟩ := hflush pos m₁ ⟨by simp, fuel, hhit⟩
      -- the flush at the end hides nothing
      rw [hhit, Outcome.flushed] at hfree
      rcases flush_cases m₁ with ⟨herror, -⟩ | ⟨e, -, hfails⟩
      · rw [herror] at hfree
        exact hfree ⟨pos, _, rfl⟩
      · rw [hfails] at hm₂
        cases hm₂
    refine ⟨fun h => hend ?_, fuel, ?_⟩
    · cases hfl : (statementsOf p fuel (m.withLimit n)).flushed with
      | exhausted => rfl
      | done a m' => simp [hfl, Outcome.withLimit] at h
      | failed e m' => simp [hfl, Outcome.withLimit] at h
    · rw [runOf_apply, statementsOf_withLimit hnk hstatements, Outcome.flushed_withLimit]
  · rintro - o' ⟨hend', fuel', rfl⟩ _ hflushed _ hflushed'
    rw [runOf_apply] at hend' hflushed'
    rw [Outcome.machine?_flushed] at hflushed hflushed'
    obtain ⟨m₁, hm₁, rfl⟩ := Option.map_eq_some_iff.mp hflushed
    obtain ⟨m₂, hm₂, rfl⟩ := Option.map_eq_some_iff.mp hflushed'
    rw [ne_eq, Outcome.flushed_eq_exhausted] at hend hend'
    -- both runs are the same with the fuel of the one that had more
    have hle := Nat.le_max_left fuel fuel'
    have hle' := Nat.le_max_right fuel fuel'
    rw [statementsOf, ← execAll_mono hle hend] at hm₁
    rw [statementsOf, ← execAll_mono hle' hend'] at hm₂
    have hwrote : WroteMore m₁ m₂ := statementsOf_wroteMore hnk hm₁ hm₂
    exact hwrote

/-- A command that prints an empty line, and a call of it. -/
def greeting : Program :=
  [.definition ⟨"F", ⟨1, 5⟩⟩ [] [.expression (.call ⟨"PRINT", ⟨2, 3⟩⟩ [])],
    .expression (.call ⟨"F", ⟨3, 1⟩⟩ [])]

/-- Nothing printed so far, on a sink that fails to flush, or does not. -/
def unprinted (fails : Bool) : Machine :=
  .standard 0 ⟨.empty, .upTo none, .failing fails⟩ fun _ => 0

theorem limit_transparent_greeting :
    (∃ m', Ends (runOf greeting) ((unprinted false).withLimit 1) (.done () m') ∧
      Ends (runOf greeting) ((unprinted false).withLimit 2) (.done () (m'.withLimit 2))) ∧
    ∃ m₁, Ends (runOf greeting) ((unprinted false).withLimit 0)
        (.failed ⟨.recursionLimit 0, some ⟨3, 1⟩⟩ m₁) ∧
      ∀ o', Ends (runOf greeting) ((unprinted false).withLimit 2) o' →
        ∀ m₂ ∈ o'.machine?, WroteMore m₁ m₂ := by
  have hone : ∃ m', runOf greeting 2 ((unprinted false).withLimit 1) = .done () m' :=
    ⟨_, by cbv⟩
  have hzero : ∃ m₁, runOf greeting 1 ((unprinted false).withLimit 0) =
      .failed ⟨.recursionLimit 0, some ⟨3, 1⟩⟩ m₁ := ⟨_, by cbv⟩
  obtain ⟨m', hone⟩ := hone
  obtain ⟨m₁, hzero⟩ := hzero
  have hends : Ends (runOf greeting) ((unprinted false).withLimit 1) (.done () m') :=
    ⟨by simp, 2, hone⟩
  have hends' : Ends (runOf greeting) ((unprinted false).withLimit 0)
      (.failed ⟨.recursionLimit 0, some ⟨3, 1⟩⟩ m₁) := ⟨by simp, 1, hzero⟩
  refine ⟨⟨m', hends, ?_⟩, m₁, hends', fun o' ho' => ?_⟩
  · refine (limit_transparent greeting (unprinted false) (by decide) hends).1 ?_ ?_
    · rintro ⟨pos, m, h⟩
      cases h
    · rintro pos m₁ ⟨-, fuel, hfuel⟩
      have honward := (statements_shadowed (Nat.le_refl 1) fuel greeting (unprinted false)).onward
        m₁ (by rw [hfuel]; rfl)
      exact ⟨m₁, flush_of_failing honward.flushing⟩
  · exact (limit_transparent greeting (unprinted false) (by decide) hends').2 ⟨_, m₁, rfl⟩ o' ho'
      m₁ rfl

/-- Where the output cannot be flushed, a run that comes to its limit ends with the error of the
flush, and its end is not the one it has with a higher limit. -/
theorem flush_hides_limit :
    ¬ ∀ (p : Program) (m : Machine) (n k : Nat) (o : Outcome Unit), n ≤ k →
      Ends (runOf p) (m.withLimit n) o → ¬ o.HitsLimit n →
      Ends (runOf p) (m.withLimit k) (o.withLimit k) := by
  intro h
  have hzero : ∃ m₁, runOf greeting 1 ((unprinted true).withLimit 0) =
      .failed ⟨.output .cannotFlush, none⟩ m₁ ∧ m₁.sink.written.size = 0 := ⟨_, by cbv, by cbv⟩
  have hone : ∃ m₂, runOf greeting 2 ((unprinted true).withLimit 1) =
      .failed ⟨.output .cannotFlush, none⟩ m₂ ∧ m₂.sink.written.size = 1 := ⟨_, by cbv, by cbv⟩
  obtain ⟨m₁, hzero, hsize₁⟩ := hzero
  obtain ⟨m₂, hone, hsize₂⟩ := hone
  have hsame := h greeting (unprinted true) 0 1 _ (by decide) ⟨by simp, 1, hzero⟩ (by
    rintro ⟨pos, m, hhit⟩
    cases hhit)
  have hends : Ends (runOf greeting) ((unprinted true).withLimit 1)
      (.failed ⟨.output .cannotFlush, none⟩ m₂) := ⟨by simp, 2, hone⟩
  have heq := hsame.unique hends
  simp only [Outcome.withLimit, Outcome.failed.injEq, true_and] at heq
  rw [← heq] at hsize₂
  change m₁.sink.written.size = 1 at hsize₂
  omega

end Offside
