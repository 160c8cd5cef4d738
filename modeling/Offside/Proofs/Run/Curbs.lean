import Offside.Proofs.Run.Fuel

/-!
# Runs that are held back

A program cannot see how deep its calls may be nested, or how much room there is for its output. So
two runs of it that differ in these things do the same, step by step, as long as neither is ended by
what holds it back. Once one of them is ended, the other goes on alone, and all that matters of it
is that output is never taken back.

What holds a run back is a *curb*: a change of the limit and the sink of a machine, with the error
that it ends runs with. Most steps look neither at the limit nor at the sink (`Blind`). For those
that do, a lawful curb says that the run with the curb follows the one without (`Curb.Lawful`), and
then this holds of whole programs (`Curb.statements_follow`).
-/

namespace Offside

open Run

/-! ## Onward -/

/-- The second machine has written what the first has, and maybe more. -/
def WroteMore (m m' : Machine) : Prop := ∃ bytes, m'.sink.written = m.sink.written ++ bytes

namespace WroteMore

theorem refl (m : Machine) : WroteMore m m := ⟨.empty, by simp⟩

theorem trans {m₁ m₂ m₃ : Machine} (h : WroteMore m₁ m₂) (h' : WroteMore m₂ m₃) :
    WroteMore m₁ m₃ := by
  obtain ⟨b, hb⟩ := h
  obtain ⟨b', hb'⟩ := h'
  exact ⟨b ++ b', by rw [hb', hb, ByteArray.append_assoc]⟩

end WroteMore

/-- What holds between a machine and a later one of the same run. -/
structure Onward (m m' : Machine) : Prop where
  limit : m'.limit = m.limit
  flushing : m'.sink.flushing = m.sink.flushing
  wrote : WroteMore m m'

namespace Onward

theorem refl (m : Machine) : Onward m m := ⟨rfl, rfl, .refl m⟩

theorem trans {m₁ m₂ m₃ : Machine} (h : Onward m₁ m₂) (h' : Onward m₂ m₃) : Onward m₁ m₃ :=
  ⟨h'.limit.trans h.limit, h'.flushing.trans h.flushing, h.wrote.trans h'.wrote⟩

theorem of_eq {m m' : Machine} (hlimit : m'.limit = m.limit) (hsink : m'.sink = m.sink) :
    Onward m m' := ⟨hlimit, by rw [hsink], .empty, by simp [hsink]⟩

theorem request {ask : Sink → Sink × Option SinkError}
    (hflushing : ∀ s, (ask s).1.flushing = s.flushing)
    (hwritten : ∀ s, ∃ bytes, (ask s).1.written = s.written ++ bytes) :
    Keeps Onward (request ask) := by
  intro m m' hm
  rw [machine?_request] at hm
  cases hm
  exact ⟨rfl, hflushing m.sink, hwritten m.sink⟩

/-- Output is never taken back. -/
theorem write (text : String) : Keeps Onward (write text) :=
  request (fun _ => rfl) fun _ => ⟨_, rfl⟩

theorem flush : Keeps Onward flush :=
  request (fun _ => rfl) fun _ => ⟨.empty, by rw [ByteArray.append_empty]; rfl⟩

theorem nested {α : Type} {x : Run α} (hx : Keeps Onward x) : Keeps Onward (nested x) := by
  intro m m' hm'
  by_cases hlimit : m.depth < m.limit
  · rw [nested_apply x hlimit, Outcome.mem_machine?_onMachine] at hm'
    obtain ⟨m₁, hm₁, rfl⟩ := hm'
    have hdeeper : Onward m { m with depth := m.depth + 1 } := .of_eq rfl rfl
    exact (hdeeper.trans (hx _ m₁ hm₁)).trans (.of_eq rfl rfl)
  · rw [nested_limit x (by omega)] at hm'
    cases hm'
    exact .refl m

end Onward

/-! ## Steps that see neither limit nor sink -/

def Machine.withOutside (limit : Nat) (sink : Sink) (m : Machine) : Machine :=
  { m with limit := limit, sink := sink }

/-- A run neither looks at the limit and the sink nor changes them. -/
def Blind {α : Type} (x : Run α) : Prop :=
  ∀ m limit sink, x (m.withOutside limit sink) = (x m).onMachine (Machine.withOutside limit sink)

namespace Blind

variable {α β : Type}

theorem outside {x : Run α} (hx : Blind x) {m m' : Machine} (h : m' ∈ (x m).machine?) :
    m'.limit = m.limit ∧ m'.sink = m.sink := by
  have hself : x m = (x m).onMachine (Machine.withOutside m.limit m.sink) := hx m m.limit m.sink
  rw [hself, Outcome.mem_machine?_onMachine] at h
  obtain ⟨m₁, -, rfl⟩ := h
  exact ⟨rfl, rfl⟩

theorem pure (a : α) : Blind (pure a : Run α) := fun _ _ _ => rfl

theorem fail (cause : RuntimeError.Cause) (pos : Option Position) :
    Blind (Run.fail cause pos : Run α) := fun _ _ _ => rfl

theorem exhaust : Blind (Run.exhaust : Run α) := fun _ _ _ => rfl

theorem bind {x : Run α} {f : α → Run β} (hx : Blind x) (hf : ∀ a, Blind (f a)) :
    Blind (x >>= f) := by
  intro m limit sink
  show Run.bind x f (m.withOutside limit sink) = (Run.bind x f m).onMachine _
  unfold Run.bind
  rw [hx]
  cases x m with
  | done a m' => exact hf a m' limit sink
  | failed e m' => rfl
  | exhausted => rfl

theorem declareIn (f : FrameId) (n : Name) (v : Value) : Blind (declareIn f n v) := by
  intro m limit sink
  unfold Run.declareIn Machine.withOutside
  simp only
  split <;> rfl

theorem declare (n : Name) (v : Value) : Blind (declare n v) := fun m limit sink =>
  declareIn m.current n v m limit sink

theorem assign (n : Name) (v : Value) : Blind (assign n v) := by
  intro m limit sink
  unfold Run.assign Machine.withOutside
  simp only
  split <;> rfl

theorem variableValue (n : Name) : Blind (variableValue n) := by
  refine bind (fun _ _ _ => rfl) fun v => ?_
  split
  · exact pure _
  · exact fail _ _

theorem callee (n : Name) : Blind (callee n) := by
  refine bind (fun _ _ _ => rfl) fun v => ?_
  split
  · exact fail _ _
  · exact fail _ _
  · exact pure _

theorem hostResult (r : HostResult) (vs : List Value) : Blind (r.run vs) := by
  cases r with
  | value l => exact pure _
  | argument i => exact pure _
  | failure e => exact fail _ _

theorem bindParams (f : FrameId) (ns : List Name) (vs : List Value) :
    Blind (bindParams f ns vs) := by
  induction ns generalizing vs with
  | nil => exact pure ()
  | cons n ns ih =>
    cases vs with
    | nil => exact pure ()
    | cons v vs =>
      rw [Run.bindParams]
      exact bind (declareIn f n v) fun _ => ih vs

end Blind

/-! ## A run and one that is held back -/

/-- Something that holds a run back. -/
structure Curb where
  /-- What it makes of the limit on call depth. -/
  limit : Nat → Nat
  /-- What it makes of the sink. -/
  sink : Sink → Sink
  /-- What it ends runs with. -/
  cause : RuntimeError.Cause
  /-- It has not ended the run up to here. -/
  slack : Nat → Sink → Prop
  /-- Where it ended the run, and what the run without it has come to since. -/
  past : Sink → Sink → Prop
  past_grows {s₀ s s' : Sink} (h : past s₀ s) (h' : ∃ bytes, s'.written = s.written ++ bytes) :
    past s₀ s'

namespace Curb

variable {C : Curb} {α β : Type}

def on (C : Curb) (m : Machine) : Machine := m.withOutside (C.limit m.limit) (C.sink m.sink)

/-- The run that ended with `o'` was ended by the curb, when the run that ended with `o` had not
come further. -/
def Cut (C : Curb) (o o' : Outcome α) : Prop :=
  ∃ pos m₀, o' = .failed ⟨C.cause, pos⟩ m₀ ∧ ∀ m' ∈ o.machine?, C.past m₀.sink m'.sink

/-- The second run, with the curb, follows the first. As long as the curb has not ended it, the two
end in the same way, or the curb ends the second. -/
structure Follows (C : Curb) (α : Type) (m : Machine) (P : Machine → α → Prop) (x y : Run α) :
    Prop where
  onward : ∀ m' ∈ (x m).machine?, Onward m m'
  result : ∀ a m', x m = .done a m' → P m' a
  same : C.slack m.limit m.sink →
    (y (C.on m) = (x m).onMachine C.on ∧ ∀ m' ∈ (x m).machine?, C.slack m'.limit m'.sink) ∨
      C.Cut (x m) (y (C.on m))

/-- The steps that see the limit or the sink follow themselves. -/
structure Lawful (C : Curb) : Prop where
  write (text : String) (m : Machine) :
    C.Follows Unit m (fun _ _ => True) (write text) (write text)
  flush (m : Machine) : C.Follows Unit m (fun _ _ => True) flush flush
  nested {α : Type} {m : Machine} {P : Machine → α → Prop} {x y : Run α}
    (h : ∀ m, C.Follows α m P x y) :
    C.Follows α m (fun _ _ => True) (nested x) (nested y)

namespace Follows

variable {m : Machine} {P : Machine → α → Prop} {P' : Machine → β → Prop}

theorem of_blind {x : Run α} (hx : Blind x) (h : ∀ a m', x m = .done a m' → P m' a) :
    C.Follows α m P x x := by
  have hout : ∀ m' ∈ (x m).machine?, m'.limit = m.limit ∧ m'.sink = m.sink := fun _ => hx.outside
  refine ⟨fun m' hm' => .of_eq (hout m' hm').1 (hout m' hm').2, h, fun hslack => .inl ⟨?_, ?_⟩⟩
  · rw [on, hx m]
    cases hxm : x m with
    | done a m' =>
      obtain ⟨hlimit, hsink⟩ := hout m' (by rw [hxm]; rfl)
      rw [Outcome.onMachine, Outcome.onMachine, on, hlimit, hsink]
    | failed e m' =>
      obtain ⟨hlimit, hsink⟩ := hout m' (by rw [hxm]; rfl)
      rw [Outcome.onMachine, Outcome.onMachine, on, hlimit, hsink]
    | exhausted => rfl
  · intro m' hm'
    rw [(hout m' hm').1, (hout m' hm').2]
    exact hslack

theorem bind {x y : Run α} {f g : α → Run β} (h : C.Follows α m P x y)
    (hf : ∀ m' a, Onward m m' → P m' a → C.Follows β m' P' (f a) (g a)) :
    C.Follows β m P' (x >>= f) (y >>= g) := by
  obtain ⟨honward, hresult, hsame⟩ := h
  have hbind : ∀ m, (x >>= f) m = Run.bind x f m := fun _ => rfl
  have hbind' : ∀ m, (y >>= g) m = Run.bind y g m := fun _ => rfl
  cases hx : x m with
  | exhausted =>
    have hxf : (x >>= f) m = .exhausted := by rw [hbind, Run.bind, hx]
    refine ⟨by simp [hxf, Outcome.machine?], by simp [hxf], fun hslack => ?_⟩
    rw [hx] at hsame
    rw [hxf, hbind', Run.bind]
    rcases hsame hslack with ⟨hy, hslack'⟩ | ⟨pos, m₀, hy, hpast⟩
    · rw [hy]
      exact .inl ⟨rfl, hslack'⟩
    · rw [hy]
      exact .inr ⟨pos, m₀, rfl, hpast⟩
  | failed e m₁ =>
    have hxf : (x >>= f) m = .failed e m₁ := by rw [hbind, Run.bind, hx]
    rw [hx] at honward hsame
    refine ⟨by rw [hxf]; exact honward, by simp [hxf], fun hslack => ?_⟩
    rw [hxf, hbind', Run.bind]
    rcases hsame hslack with ⟨hy, hslack'⟩ | ⟨pos, m₀, hy, hpast⟩
    · rw [hy]
      exact .inl ⟨rfl, hslack'⟩
    · rw [hy]
      exact .inr ⟨pos, m₀, rfl, hpast⟩
  | done a m₁ =>
    have hxf : (x >>= f) m = f a m₁ := by rw [hbind, Run.bind, hx]
    have hm₁ : Onward m m₁ := honward m₁ (by simp [hx, Outcome.machine?])
    obtain ⟨honward', hresult', hsame'⟩ := hf m₁ a hm₁ (hresult a m₁ hx)
    rw [hx] at hsame
    refine ⟨?_, by rw [hxf]; exact hresult', fun hslack => ?_⟩
    · rw [hxf]
      exact fun m₂ hm₂ => hm₁.trans (honward' m₂ hm₂)
    · rw [hxf, hbind', Run.bind]
      rcases hsame hslack with ⟨hy, hslack'⟩ | ⟨pos, m₀, hy, hpast⟩
      · rw [hy]
        exact hsame' (hslack' m₁ rfl)
      · -- the second run has ended, and the first goes on alone
        rw [hy]
        refine .inr ⟨pos, m₀, rfl, fun m₂ hm₂ => ?_⟩
        exact C.past_grows (hpast m₁ rfl) (honward' m₂ hm₂).wrote

theorem located {x y : Run α} (p : Position) (h : C.Follows α m P x y) :
    C.Follows α m P (located p x) (located p y) := by
  obtain ⟨honward, hresult, hsame⟩ := h
  have hmachine : (Run.located p x m).machine? = (x m).machine? := by
    unfold Run.located
    cases x m <;> rfl
  refine ⟨by rw [hmachine]; exact honward, fun a m' ha => hresult a m' ?_, fun hslack => ?_⟩
  · unfold Run.located at ha
    cases hx : x m with
    | done b m₁ => rwa [hx] at ha
    | failed e m₁ => simp [hx] at ha
    | exhausted => simp [hx] at ha
  · unfold Cut
    rw [hmachine]
    rcases hsame hslack with ⟨hy, hslack'⟩ | ⟨pos, m₀, hy, hpast⟩
    · refine .inl ⟨?_, hslack'⟩
      unfold Run.located
      rw [hy]
      cases x m <;> rfl
    · refine .inr ⟨pos <|> some p, m₀, ?_, hpast⟩
      unfold Run.located
      rw [hy]
      rfl

/-- Going somewhere and coming back, with changes that have nothing to do with limit and sink. -/
theorem around {x y x' y' : Run α} {m' : Machine} {back : Machine → Machine}
    (hx : x' m = (x m').onMachine back) (hy : y' (C.on m) = (y (C.on m')).onMachine back)
    (h : C.Follows α m' P x y) (hlimit : m'.limit = m.limit) (hsink : m'.sink = m.sink)
    (hback : ∀ m limit sink, back (m.withOutside limit sink) = (back m).withOutside limit sink) :
    C.Follows α m (fun _ _ => True) x' y' := by
  obtain ⟨honward, -, hsame⟩ := h
  -- the way back takes limit and sink along, so it leaves them alone
  have houtside : ∀ m, (back m).limit = m.limit ∧ (back m).sink = m.sink := by
    intro m
    have hself : back m = (back m).withOutside m.limit m.sink := hback m m.limit m.sink
    rw [hself]
    exact ⟨rfl, rfl⟩
  have hon : ∀ m, back (C.on m) = C.on (back m) := by
    intro m
    rw [on, on, hback, (houtside m).1, (houtside m).2]
  refine ⟨fun m₁ hm₁ => ?_, fun _ _ _ => trivial, fun hslack => ?_⟩
  · rw [hx, Outcome.mem_machine?_onMachine] at hm₁
    obtain ⟨m₂, hm₂, rfl⟩ := hm₁
    have hgo : Onward m m' := .of_eq hlimit hsink
    have hreturn : Onward m₂ (back m₂) := .of_eq (houtside m₂).1 (houtside m₂).2
    exact (hgo.trans (honward m₂ hm₂)).trans hreturn
  · rw [← hlimit, ← hsink] at hslack
    rw [hx, hy]
    rcases hsame hslack with ⟨hsame, hslack'⟩ | ⟨pos, m₀, hcut, hpast⟩
    · refine .inl ⟨?_, fun m₁ hm₁ => ?_⟩
      · rw [hsame]
        cases x m' with
        | done a m₁ => exact congrArg (Outcome.done a) (hon m₁)
        | failed e m₁ => exact congrArg (Outcome.failed e) (hon m₁)
        | exhausted => rfl
      · rw [Outcome.mem_machine?_onMachine] at hm₁
        obtain ⟨m₂, hm₂, rfl⟩ := hm₁
        rw [(houtside m₂).1, (houtside m₂).2]
        exact hslack' m₂ hm₂
    · refine .inr ⟨pos, back m₀, by rw [hcut]; rfl, fun m₁ hm₁ => ?_⟩
      rw [Outcome.mem_machine?_onMachine] at hm₁
      obtain ⟨m₂, hm₂, rfl⟩ := hm₁
      rw [(houtside m₀).2, (houtside m₂).2]
      exact hpast m₂ hm₂

theorem inFrame {x y : Run α} (f : FrameId) (h : ∀ m, C.Follows α m P x y) :
    C.Follows α m (fun _ _ => True) (inFrame f x) (inFrame f y) :=
  around (inFrame_apply f x m) (inFrame_apply f y _) (h { m with current := f }) rfl rfl
    fun _ _ _ => rfl

theorem nested_of_lt {x y : Run α} (h : ∀ m, C.Follows α m P x y) (hm : m.depth < m.limit)
    (hm' : m.depth < C.limit m.limit) :
    C.Follows α m (fun _ _ => True) (nested x) (nested y) :=
  around (nested_apply x hm) (nested_apply (m := C.on m) y hm') (h { m with depth := m.depth + 1 })
    rfl rfl fun _ _ _ => rfl

theorem nested_of_eq {x y : Run α} (h : ∀ m, C.Follows α m P x y) (hm : C.limit m.limit = m.limit) :
    C.Follows α m (fun _ _ => True) (nested x) (nested y) := by
  by_cases hdepth : m.depth < m.limit
  · exact nested_of_lt h hdepth (by rw [hm]; exact hdepth)
  · refine ⟨Onward.nested (fun m => (h m).onward) m, fun _ _ _ => trivial, fun hslack => .inl ?_⟩
    rw [nested_limit x (by omega), nested_limit y (by show C.limit m.limit ≤ m.depth; omega)]
    refine ⟨?_, fun m' hm' => ?_⟩
    · show Outcome.failed ⟨.recursionLimit (C.limit m.limit), none⟩ (C.on m) = _
      rw [hm]
      rfl
    · cases hm'
      exact hslack

end Follows

/-! ## Programs -/

section programs

variable (hC : C.Lawful)

include hC

theorem native (n : Native) (vs : List Value) (m : Machine) :
    C.Follows Value m (fun _ _ => True) (n.run vs) (n.run vs) := by
  have hpure : ∀ (m : Machine) (v : Value),
      C.Follows Value m (fun _ _ => True) (pure v) (pure v) :=
    fun _ v => .of_blind (.pure v) fun _ _ _ => trivial
  cases n with
  | print => exact .bind (hC.write _ m) fun m' _ _ _ => hpure m' _
  | clear =>
    exact .bind (hC.write _ m) fun m' _ _ _ => .bind (hC.flush m') fun m' _ _ _ => hpure m' _
  | clock => exact .of_blind (.bind (fun _ _ _ => rfl) fun _ => .pure _) fun _ _ _ => trivial
  | host c =>
    have hsome : C.Follows Unit m (fun _ _ => True) (writeSome (c.output (vs.map Value.seen)))
        (writeSome (c.output (vs.map Value.seen))) := by
      cases c.output (vs.map Value.seen) with
      | none => exact .of_blind (.pure ()) fun _ _ _ => trivial
      | some text => exact hC.write text m
    exact .bind hsome fun m' _ _ _ => .of_blind (.hostResult _ vs) fun _ _ _ => trivial

theorem judgement : Judgement (.plain (· = ·) Onward) C.Follows where
  plain _ := trivial
  persists _ _ := trivial
  pure {_ _ _ a} h := .of_blind (.pure a) fun _ _ ha => by cases ha; exact h
  bind := .bind
  located := .located
  fail _ _ := .of_blind (.fail _ _) fun _ _ ha => by cases ha
  variableValue n := .of_blind (.variableValue n) fun _ _ _ => trivial
  callee {_ n} _ := .of_blind (.callee n) fun _ _ _ => ⟨trivial, trivial⟩
  notCallable _ _ _ := .of_blind (.fail _ _) fun _ _ ha => by cases ha
  native {m _ n vs} _ _ := native hC n vs m
  declare _ _ := .of_blind (.declare _ _) fun _ _ _ => trivial
  assign _ _ := .of_blind (.assign _ _) fun _ _ _ => trivial
  define {_ d} _ := .of_blind (.bind (fun _ _ _ => rfl) (.declare d.name)) fun _ _ _ => trivial
  stop {m P k y} _ hk hy := by
    subst hk
    rw [hy]
    exact .of_blind .exhaust fun _ _ ha => by cases ha
  next {n k} h := ⟨n, h.symm, rfl⟩

theorem enters : Judgement.Enters (.plain (· = ·) Onward) C.Follows where
  obeys _ := bodyObeys_free _
  enter {m i d home vs x y} _ _ hbody := by
    have hopen : Blind (openFrame home) := fun _ _ _ => rfl
    rw [enterIn_runs]
    refine .bind (P := fun _ _ => True) (.of_blind hopen fun _ _ _ => trivial) fun _ f _ _ => ?_
    refine .bind (P := fun _ _ => True) (.of_blind (.bindParams f d.params vs) fun _ _ _ => trivial)
      fun _ _ _ _ => ?_
    refine .bind (hC.nested fun _ => .inFrame f hbody) fun _ _ _ _ => ?_
    exact .of_blind (.pure _) fun _ _ _ => trivial
  exhaust hk := by
    subst hk
    exact .of_blind .exhaust fun _ _ ha => by cases ha

/-- The statements of a program with a curb follow those without. -/
theorem statements_follow (fuel : Nat) (p : Program) (m : Machine) :
    C.Follows Flow m (Flow.Has fun _ _ => True) (statementsOf p fuel) (statementsOf p fuel) := by
  have happly := (judgement hC).apply (enters hC) (rfl : fuel = fuel)
  have hp := (judgement hC).execAll happly (rfl : fuel = fuel) p (m := m) (bodyObeys_free p)
  rwa [execAllIn_runs] at hp

end programs

end Curb

end Offside
