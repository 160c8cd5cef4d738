import Offside.Proofs.Run.Judgement

/-!
# Fuel

Fuel bounds a run from outside: a run that comes to its end does not depend on how much of it there
was (`execAll_mono`, `interpret_mono`). So it makes sense to say how a program ends, without naming
the fuel (`Ends`), and there is only one way (`Ends.unique`).
-/

namespace Offside

open Run

/-! ## More fuel -/

/-- Unless the first run is exhausted, the second ends in the same way. -/
def SameEnd : Relation Run := fun _ m P x y =>
  (x m ≠ .exhausted → y m = x m) ∧ ∀ a m', x m = .done a m' → P m' a

namespace SameEnd

variable {α β : Type} {m : Machine} {P : Machine → α → Prop} {P' : Machine → β → Prop}

theorem refl {x : Run α} (h : ∀ a m', x m = .done a m' → P m' a) : SameEnd α m P x x :=
  ⟨fun _ => rfl, h⟩

theorem exhaust (y : Run α) : SameEnd α m P exhaust y :=
  ⟨fun h => absurd rfl h, fun _ _ h => by cases h⟩

theorem bind {x y : Run α} {f g : α → Run β} (h : SameEnd α m P x y)
    (hf : ∀ m' a, True → P m' a → SameEnd β m' P' (f a) (g a)) :
    SameEnd β m P' (x >>= f) (y >>= g) := by
  obtain ⟨hxy, hP⟩ := h
  show (Run.bind x f m ≠ _ → Run.bind y g m = Run.bind x f m) ∧ ∀ a m', Run.bind x f m = _ → _
  unfold Run.bind
  cases hx : x m with
  | exhausted => exact ⟨fun h => absurd rfl h, fun _ _ h => by cases h⟩
  | failed e m' =>
    have hy : y m = .failed e m' := by rw [hxy (by simp [hx]), hx]
    rw [hy]
    exact ⟨fun _ => rfl, fun _ _ h => by cases h⟩
  | done a m' =>
    have hy : y m = .done a m' := by rw [hxy (by simp [hx]), hx]
    rw [hy]
    exact hf m' a trivial (hP a m' hx)

theorem located {x y : Run α} (p : Position) (h : SameEnd α m P x y) :
    SameEnd α m P (located p x) (located p y) := by
  obtain ⟨hxy, hP⟩ := h
  unfold SameEnd Run.located
  cases hx : x m with
  | exhausted => exact ⟨fun h => absurd rfl h, fun _ _ h => by cases h⟩
  | failed e m' =>
    have hy : y m = .failed e m' := by rw [hxy (by simp [hx]), hx]
    rw [hy]
    exact ⟨fun _ => rfl, fun _ _ h => by cases h⟩
  | done a m' =>
    have hy : y m = .done a m' := by rw [hxy (by simp [hx]), hx]
    rw [hy]
    exact ⟨fun _ => rfl, fun b m₁ h => by cases h; exact hP a m' hx⟩

theorem judgement : Judgement (.plain (· ≤ ·) fun _ _ => True) SameEnd where
  plain _ := trivial
  persists _ _ := trivial
  pure h := refl fun _ _ ha => by cases ha; exact h
  bind := bind
  located := located
  fail _ _ := refl fun _ _ ha => by cases ha
  variableValue _ := refl fun _ _ _ => trivial
  callee _ := refl fun _ _ _ => ⟨trivial, trivial⟩
  notCallable _ _ _ := refl fun _ _ ha => by cases ha
  native _ _ := refl fun _ _ _ => trivial
  declare _ _ := refl fun _ _ _ => trivial
  assign _ _ := refl fun _ _ _ => trivial
  define _ := refl fun _ _ _ => trivial
  stop _ _ _ := exhaust _
  next h := ⟨_, (Nat.succ_pred_eq_of_pos (Nat.zero_lt_of_lt h)).symm, Nat.le_pred_of_lt h⟩

theorem inFrame {x y : Run α} (f : FrameId) (h : ∀ m, SameEnd α m (fun _ _ => True) x y) :
    SameEnd α m (fun _ _ => True) (inFrame f x) (inFrame f y) := by
  refine ⟨?_, fun _ _ _ => trivial⟩
  rw [inFrame_apply, inFrame_apply, ne_eq, Outcome.onMachine_eq_exhausted]
  intro hx
  rw [(h _).1 hx]

theorem nested {x y : Run α} (h : ∀ m, SameEnd α m (fun _ _ => True) x y) :
    SameEnd α m (fun _ _ => True) (nested x) (nested y) := by
  refine ⟨?_, fun _ _ _ => trivial⟩
  by_cases hlimit : m.limit ≤ m.depth
  · rw [nested_limit x hlimit, nested_limit y hlimit]
    exact fun _ => rfl
  · have hlt : m.depth < m.limit := by omega
    rw [nested_apply x hlt, nested_apply y hlt, ne_eq, Outcome.onMachine_eq_exhausted]
    intro hx
    rw [(h _).1 hx]

theorem enters : Judgement.Enters (.plain (· ≤ ·) fun _ _ => True) SameEnd where
  obeys _ := bodyObeys_free _
  enter _ _ hbody := by
    rw [enterIn_runs]
    refine bind (P := fun _ _ => True) (refl fun _ _ _ => trivial) fun _ f _ _ => ?_
    refine bind (P := fun _ _ => True) (refl fun _ _ _ => trivial) fun _ _ _ _ => ?_
    refine bind (P := fun _ _ => True) (nested fun _ => inFrame f hbody) fun _ _ _ _ => ?_
    exact refl fun _ _ _ => trivial
  exhaust _ := exhaust _

end SameEnd

theorem execAll_mono {n k : Nat} (h : n ≤ k) {ss : List Stmt} {m : Machine}
    (hend : execAll (apply n) n ss m ≠ .exhausted) :
    execAll (apply k) k ss m = execAll (apply n) n ss m := by
  have happly := SameEnd.judgement.apply SameEnd.enters h
  rw [← execAllIn_runs k]
  exact (SameEnd.judgement.execAll happly h ss (bodyObeys_free ss)).1 hend

theorem interpret_mono {n k : Nat} (h : n ≤ k) {p : Program} {m : Machine}
    (hend : interpret n p m ≠ .exhausted) : interpret k p m = interpret n p m := by
  have hp : execAll (apply n) n p m ≠ .exhausted := by
    intro hp
    apply hend
    rw [interpret, hp]
  rw [interpret, interpret, execAll_mono h hp]

/-! ## How runs end -/

/-- A run that may be granted any fuel ends this way. -/
def Ends {α : Type} (x : Nat → Run α) (m : Machine) (o : Outcome α) : Prop :=
  o ≠ .exhausted ∧ ∃ fuel, x fuel m = o

/-- The statements of a program, with any fuel. -/
def statementsOf (p : Program) (fuel : Nat) : Run Flow := execAll (apply fuel) fuel p

/-- A program, with any fuel. -/
def runOf (p : Program) (fuel : Nat) : Run Unit := interpret fuel p

theorem Ends.unique {p : Program} {m : Machine} {o o' : Outcome Unit} (h : Ends (runOf p) m o)
    (h' : Ends (runOf p) m o') : o = o' := by
  obtain ⟨ho, n, rfl⟩ := h
  obtain ⟨ho', k, rfl⟩ := h'
  rcases Nat.le_total n k with hnk | hkn
  · exact (interpret_mono hnk ho).symm
  · exact interpret_mono hkn ho'

theorem exhausted_of_le {p : Program} {m : Machine} {n : Nat}
    (h : ∀ fuel, n ≤ fuel → runOf p fuel m = .exhausted) (fuel : Nat) :
    runOf p fuel m = .exhausted := by
  apply Classical.byContradiction
  intro hend
  have hmore : runOf p (max fuel n) m = runOf p fuel m :=
    interpret_mono (Nat.le_max_left fuel n) hend
  rw [← hmore] at hend
  exact hend (h _ (Nat.le_max_right fuel n))

/-! ## The flush at the end -/

/-- The machine when its output has been flushed, whether this worked or not. -/
def Machine.flushed (m : Machine) : Machine := { m with sink := m.sink.flush.1 }

def Machine.flushError? (m : Machine) : Option RuntimeError :=
  m.sink.flush.2.map fun e => ⟨.output e, none⟩

theorem flush_cases (m : Machine) :
    (m.flushError? = none ∧ flush m = .done () m.flushed) ∨
    ∃ e, m.flushError? = some ⟨.output e, none⟩ ∧
      flush m = .failed ⟨.output e, none⟩ m.flushed := by
  unfold flush request Machine.flushError? Machine.flushed
  simp only
  cases m.sink.flush.2 with
  | none => exact .inl ⟨rfl, rfl⟩
  | some e => exact .inr ⟨e, rfl, rfl⟩

theorem flush_eq_failed {m m' : Machine} {e : RuntimeError} (h : flush m = .failed e m') :
    ∃ err, e = ⟨.output err, none⟩ := by
  rcases flush_cases m with ⟨-, hdone⟩ | ⟨err, -, hfailed⟩
  · rw [hdone] at h
    cases h
  · rw [hfailed] at h
    cases h
    exact ⟨err, rfl⟩

theorem flush_of_failing {m : Machine} (h : m.sink.flushing = .failing false) :
    flush m = .done () m := by
  obtain ⟨store, current, depth, limit, ⟨state, writing, flushing⟩, _⟩ := m
  cases h
  rfl

/-- What a run of statements comes to when the output has been flushed. -/
def Outcome.flushed : Outcome Flow → Outcome Unit
  | done _ m => flush m
  | failed e m => .failed (m.flushError?.getD e) m.flushed
  | exhausted => .exhausted

theorem Outcome.flushed_failed {e : RuntimeError} {m m' : Machine} (h : flush m = .done () m') :
    (Outcome.failed e m).flushed = .failed e m' := by
  rcases flush_cases m with ⟨herror, hflush⟩ | ⟨err, herror, hflush⟩
  · rw [hflush] at h
    cases h
    rw [flushed, herror, Option.getD_none]
  · rw [hflush] at h
    cases h

/-- If the flush fails, its error takes the place of the one that was there. -/
theorem Outcome.flushed_hidden {e e' : RuntimeError} {m m' : Machine}
    (h : flush m = .failed e' m') : (Outcome.failed e m).flushed = .failed e' m' := by
  rcases flush_cases m with ⟨herror, hflush⟩ | ⟨err, herror, hflush⟩
  · rw [hflush] at h
    cases h
  · rw [hflush] at h
    cases h
    rw [flushed, herror, Option.getD_some]

theorem runOf_apply (p : Program) (fuel : Nat) (m : Machine) :
    runOf p fuel m = (statementsOf p fuel m).flushed := by
  unfold runOf interpret statementsOf
  cases execAll (apply fuel) fuel p m with
  | done flow m' => rfl
  | exhausted => rfl
  | failed e m' =>
    rcases flush_cases m' with ⟨-, hflush⟩ | ⟨err, -, hflush⟩
    · rw [Outcome.flushed_failed hflush]
      simp only [hflush]
    · rw [Outcome.flushed_hidden hflush]
      simp only [hflush]

namespace Outcome

theorem machine?_flushed (o : Outcome Flow) :
    o.flushed.machine? = o.machine?.map Machine.flushed := by
  cases o with
  | done flow m => exact machine?_request Sink.flush m
  | failed e m => rfl
  | exhausted => rfl

theorem flushed_eq_exhausted {o : Outcome Flow} : o.flushed = .exhausted ↔ o = .exhausted := by
  have hmachine := machine?_flushed o
  constructor
  · intro h
    rw [h] at hmachine
    cases o with
    | exhausted => rfl
    | done flow m => cases hmachine
    | failed e m => cases hmachine
  · rintro rfl
    rfl

/-- An error at the end is that of the statements, if flushing works behind it, or that of the
flush. -/
theorem flushed_eq_failed {o : Outcome Flow} {e : RuntimeError} {m : Machine}
    (h : o.flushed = .failed e m) :
    (∃ m₁, o = .failed e m₁ ∧ flush m₁ = .done () m) ∨
      ∃ m₁ ∈ o.machine?, flush m₁ = .failed e m := by
  cases o with
  | done flow m₁ => exact .inr ⟨m₁, rfl, h⟩
  | failed e₁ m₁ =>
    rw [flushed] at h
    rcases flush_cases m₁ with ⟨herror, hflush⟩ | ⟨err, herror, hflush⟩
    · rw [herror] at h
      cases h
      exact .inl ⟨m₁, rfl, hflush⟩
    · rw [herror] at h
      cases h
      exact .inr ⟨m₁, rfl, hflush⟩
  | exhausted => cases h

end Outcome

end Offside
