import Offside.Proofs.Run.Interpretation

/-!
# Judging runs along the program

Much of what is said about runs is said by walking along the program: of one run (what it does to a
machine, that it ends), of a run and a record of it, or of two runs of the same program that differ
in something else (in their fuel, in a limit). The walk is always the same. Here it is made once,
for any *judgement* on a run and its counterpart in an interpretation, which passes through steps
one after the other and holds of the basic steps (`Judgement`).

A judgement may ask for something of the program (`Rules`), and promises something of the values
that come up, which may depend on the machine and has to persist as the run goes on.

* `Judgement.eval`, `Judgement.execAll`: the walk, for any handlers that the judgement holds of.
* `Judgement.apply`: the handler `apply`, provided that the judgement goes through entering a
  command.
* `execAllIn_runs`: evaluation in runs is the evaluation that programs are run by.
-/

namespace Offside

open Run

/-! ## Rules for programs -/

/-- What is allowed in a program. -/
structure Rules where
  /-- The names of variables, where they are declared, set or parameters. -/
  variableName : Name → Bool
  /-- The names of commands, where they are declared or called. -/
  commandName : Name → Bool
  /-- Whether there may be loops. -/
  loops : Bool

def Rules.free : Rules := ⟨fun _ => true, fun _ => true, true⟩

@[simp] theorem Rules.free_variableName (n : Name) : Rules.free.variableName n = true := rfl

@[simp] theorem Rules.free_commandName (n : Name) : Rules.free.commandName n = true := rfl

@[simp] theorem Rules.free_loops : Rules.free.loops = true := rfl

mutual

def Expr.obeys (r : Rules) : Expr → Bool
  | .literal _ | .name _ _ => true
  | .group inner => inner.obeys r
  | .unary _ _ right => right.obeys r
  | .binary left _ _ right => left.obeys r && right.obeys r
  | .comparison first links => first.obeys r && linksObey r links
  | .ternary condition left right => condition.obeys r && left.obeys r && right.obeys r
  | .call n args => r.commandName n && argsObey r args

def linksObey (r : Rules) : List (Link Expr) → Bool
  | [] => true
  | ⟨_, _, right⟩ :: links => right.obeys r && linksObey r links

def argsObey (r : Rules) : List Expr → Bool
  | [] => true
  | e :: es => e.obeys r && argsObey r es

end

mutual

/-- A statement is allowed, with all that is in it. -/
def Stmt.obeys (r : Rules) : Stmt → Bool
  | .init n e => r.variableName n && e.obeys r
  | .set n e => r.variableName n && e.obeys r
  | .condition test thenBody none => test.obeys r && bodyObeys r thenBody
  | .condition test thenBody (some elseBody) =>
    test.obeys r && bodyObeys r thenBody && bodyObeys r elseBody
  | .loop test body => r.loops && test.obeys r && bodyObeys r body
  | .definition n params body =>
    r.commandName n && params.all r.variableName && bodyObeys r body
  | .ret _ none => true
  | .ret _ (some e) => e.obeys r
  | .expression e => e.obeys r
  | .body stmts => bodyObeys r stmts
  | .pass => true

def bodyObeys (r : Rules) : List Stmt → Bool
  | [] => true
  | s :: rest => s.obeys r && bodyObeys r rest

end

def Definition.obeys (r : Rules) (d : Definition) : Bool :=
  r.commandName d.name && d.params.all r.variableName && bodyObeys r d.body

theorem Definition.obeys_iff {r : Rules} {d : Definition} :
    d.obeys r = true ↔ r.commandName d.name = true ∧ d.params.all r.variableName = true ∧
      bodyObeys r d.body = true := by
  rw [obeys, Bool.and_eq_true, Bool.and_eq_true, and_assoc]

mutual

theorem Expr.obeys_free : ∀ e : Expr, e.obeys .free = true
  | .literal _ => by simp [Expr.obeys]
  | .name _ _ => by simp [Expr.obeys]
  | .group inner => by simp [Expr.obeys, Expr.obeys_free inner]
  | .unary _ _ right => by simp [Expr.obeys, Expr.obeys_free right]
  | .binary left _ _ right => by simp [Expr.obeys, Expr.obeys_free left, Expr.obeys_free right]
  | .comparison first links => by simp [Expr.obeys, Expr.obeys_free first, linksObey_free links]
  | .ternary condition left right => by
    simp [Expr.obeys, Expr.obeys_free condition, Expr.obeys_free left, Expr.obeys_free right]
  | .call _ args => by simp [Expr.obeys, argsObey_free args]

theorem linksObey_free : ∀ links : List (Link Expr), linksObey .free links = true
  | [] => by simp [linksObey]
  | ⟨_, _, right⟩ :: links => by simp [linksObey, Expr.obeys_free right, linksObey_free links]

theorem argsObey_free : ∀ es : List Expr, argsObey .free es = true
  | [] => by simp [argsObey]
  | e :: es => by simp [argsObey, Expr.obeys_free e, argsObey_free es]

end

mutual

theorem Stmt.obeys_free : ∀ s : Stmt, s.obeys .free = true
  | .init _ e => by simp [Stmt.obeys, Expr.obeys_free e]
  | .set _ e => by simp [Stmt.obeys, Expr.obeys_free e]
  | .condition test thenBody none => by
    simp [Stmt.obeys, Expr.obeys_free test, bodyObeys_free thenBody]
  | .condition test thenBody (some elseBody) => by
    simp [Stmt.obeys, Expr.obeys_free test, bodyObeys_free thenBody, bodyObeys_free elseBody]
  | .loop test body => by simp [Stmt.obeys, Expr.obeys_free test, bodyObeys_free body]
  | .definition _ _ body => by simp [Stmt.obeys, bodyObeys_free body]
  | .ret _ none => by simp [Stmt.obeys]
  | .ret _ (some e) => by simp [Stmt.obeys, Expr.obeys_free e]
  | .expression e => by simp [Stmt.obeys, Expr.obeys_free e]
  | .body stmts => by simp [Stmt.obeys, bodyObeys_free stmts]
  | .pass => by simp [Stmt.obeys]

theorem bodyObeys_free : ∀ ss : List Stmt, bodyObeys .free ss = true
  | [] => by simp [bodyObeys]
  | s :: rest => by simp [bodyObeys, Stmt.obeys_free s, bodyObeys_free rest]

end

/-! ## Going somewhere and coming back -/

def Outcome.onMachine {α : Type} (g : Machine → Machine) : Outcome α → Outcome α
  | done a m => done a (g m)
  | failed e m => failed e (g m)
  | exhausted => exhausted

section onMachine

variable {α : Type} {g : Machine → Machine} {o : Outcome α}

theorem Outcome.onMachine_eq_exhausted : o.onMachine g = .exhausted ↔ o = .exhausted := by
  cases o <;> simp [onMachine]

theorem Outcome.onMachine_eq_done {a : α} {m' : Machine} :
    o.onMachine g = .done a m' ↔ ∃ m, o = .done a m ∧ g m = m' := by
  cases o with
  | done b m =>
    simp only [onMachine, done.injEq]
    constructor
    · rintro ⟨rfl, rfl⟩
      exact ⟨m, ⟨rfl, rfl⟩, rfl⟩
    · rintro ⟨m₁, ⟨rfl, rfl⟩, rfl⟩
      exact ⟨rfl, rfl⟩
  | failed e m => simp [onMachine]
  | exhausted => simp [onMachine]

theorem Outcome.onMachine_eq_failed {e : RuntimeError} {m' : Machine} :
    o.onMachine g = .failed e m' ↔ ∃ m, o = .failed e m ∧ g m = m' := by
  cases o with
  | done a m => simp [onMachine]
  | failed e' m =>
    simp only [onMachine, failed.injEq]
    constructor
    · rintro ⟨rfl, rfl⟩
      exact ⟨m, ⟨rfl, rfl⟩, rfl⟩
    · rintro ⟨m₁, ⟨rfl, rfl⟩, rfl⟩
      exact ⟨rfl, rfl⟩
  | exhausted => simp [onMachine]

theorem Outcome.mem_machine?_onMachine {m' : Machine} :
    m' ∈ (o.onMachine g).machine? ↔ ∃ m ∈ o.machine?, g m = m' := by
  cases o <;> simp [onMachine, machine?]

theorem inFrame_apply (f : FrameId) (x : Run α) (m : Machine) :
    inFrame f x m =
      (x { m with current := f }).onMachine fun m' => { m' with current := m.current } := by
  unfold inFrame
  simp only
  cases x { m with current := f } <;> rfl

theorem nested_apply (x : Run α) {m : Machine} (h : m.depth < m.limit) :
    nested x m =
      (x { m with depth := m.depth + 1 }).onMachine fun m' =>
        { m' with depth := m'.depth - 1 } := by
  unfold nested
  rw [if_neg (Nat.not_le_of_lt h)]
  cases x { m with depth := m.depth + 1 } <;> rfl

theorem nested_limit (x : Run α) {m : Machine} (h : m.limit ≤ m.depth) :
    nested x m = .failed ⟨.recursionLimit m.limit, none⟩ m := by
  unfold nested
  rw [if_pos h]

end onMachine

/-! ## Results and errors of basic steps -/

/-- A call has nothing to run. -/
def RuntimeError.Cause.aboutCommand : RuntimeError.Cause → Bool
  | commandNotFound _ | notCallable _ => true
  | _ => false

theorem BinaryOp.type_of_apply {op : BinaryOp} {a b v : Value} (h : op.apply a b = .ok v) :
    v.type ≠ .command := by
  cases op <;> cases a <;> cases b <;> cases h <;> simp [Value.type]

theorem UnaryOp.type_of_apply {op : UnaryOp} {a v : Value} (h : op.apply a = .ok v) :
    v.type ≠ .command := by
  cases op <;> cases a <;> cases h <;> simp [Value.type]

theorem BinaryOp.error_of_apply {op : BinaryOp} {a b : Value} {cause : RuntimeError.Cause}
    (h : op.apply a b = .error cause) : cause.aboutCommand = false := by
  cases op <;> cases a <;> cases b <;> cases h <;> rfl

theorem UnaryOp.error_of_apply {op : UnaryOp} {a : Value} {cause : RuntimeError.Cause}
    (h : op.apply a = .error cause) : cause.aboutCommand = false := by
  cases op <;> cases a <;> cases h <;> rfl

/-! ## Judgements -/

open Interpretation

/-- What can be said of a run from a machine on and of its counterpart in an interpretation, with
what holds of a result and of the machine it comes with. -/
abbrev Relation (Y : Type → Type) :=
  (α : Type) → Machine → (Machine → α → Prop) → Run α → Y α → Prop

/-- The value of a command whose body ends this way has a property. -/
def Flow.Has (ok : Machine → Value → Prop) (m : Machine) (flow : Flow) : Prop := ok m flow.value

/-- What a judgement is about. -/
structure Setting where
  rules : Rules
  /-- Loops that may go round `n` times are compared with loops that may go round `k` times. -/
  fuels : Nat → Nat → Prop
  /-- A machine, and a later one of the same run. -/
  later : Machine → Machine → Prop
  /-- The values that come up. -/
  ok : Machine → Value → Prop
  /-- The values that are called. -/
  called : Value → Prop

/-- Nothing is asked of programs and values. -/
abbrev Setting.plain (fuels : Nat → Nat → Prop) (later : Machine → Machine → Prop) : Setting :=
  ⟨.free, fuels, later, fun _ _ => True, fun _ => True⟩

/-- A relation between runs and their counterparts that passes through steps one after the other and
holds of the basic steps. -/
structure Judgement {Y : Type → Type} [Interpretation Y] (S : Setting) (J : Relation Y) :
    Prop where
  plain {m : Machine} {v : Value} (h : v.type ≠ .command) : S.ok m v
  persists {m m' : Machine} {v : Value} (h : S.later m m') (hv : S.ok m v) : S.ok m' v
  pure {α : Type} {m : Machine} {P : Machine → α → Prop} {a : α} (h : P m a) :
    J α m P (pure a) (pure a)
  bind {α β : Type} {m : Machine} {P : Machine → α → Prop} {P' : Machine → β → Prop} {x : Run α}
    {y : Y α} {f : α → Run β} {g : α → Y β} (h : J α m P x y)
    (hf : ∀ m' a, S.later m m' → P m' a → J β m' P' (f a) (g a)) : J β m P' (x >>= f) (y >>= g)
  located {α : Type} {m : Machine} {P : Machine → α → Prop} {x : Run α} {y : Y α} (p : Position)
    (h : J α m P x y) : J α m P (Run.located p x) (located p y)
  fail {α : Type} {m : Machine} {P : Machine → α → Prop} {cause : RuntimeError.Cause}
    (h : cause.aboutCommand = false) (pos : Option Position) :
    J α m P (fail cause pos) (step (fail cause pos))
  variableValue {m : Machine} (n : Name) :
    J Value m S.ok (variableValue n) (step (variableValue n))
  callee {m : Machine} {n : Name} (hn : S.rules.commandName n = true) :
    J Value m (fun m' v => S.ok m' v ∧ S.called v) (callee n) (step (callee n))
  notCallable {α : Type} {m : Machine} {P : Machine → α → Prop} {v : Value} (hv : S.called v)
    (h : v.type ≠ .command) (pos : Option Position) :
    J α m P (Run.fail (.notCallable v.type) pos) (step (Run.fail (.notCallable v.type) pos))
  native {m : Machine} {i : Nat} {n : Native} {vs : List Value}
    (hn : S.ok m (.command i (.native n))) (hvs : ∀ v ∈ vs, S.ok m v) :
    J Value m S.ok (n.run vs) (step (n.run vs))
  declare {m : Machine} {n : Name} {v : Value} (hn : S.rules.variableName n = true)
    (hv : S.ok m v) : J Unit m (fun _ _ => True) (declare n v) (step (declare n v))
  assign {m : Machine} {n : Name} {v : Value} (hn : S.rules.variableName n = true)
    (hv : S.ok m v) : J Unit m (fun _ _ => True) (assign n v) (step (assign n v))
  define {m : Machine} {d : Definition} (hd : d.obeys S.rules = true) :
    J Unit m (fun _ _ => True) (closure d >>= Run.declare d.name)
      (step (closure d >>= Run.declare d.name))
  /-- Where the fuel of one loop is used up. -/
  stop {m : Machine} {P : Machine → Flow → Prop} {k : Nat} {y : Nat → Y Flow}
    (hr : S.rules.loops = true) (hk : S.fuels 0 k) (hy : y 0 = step exhaust) :
    J Flow m P exhaust (y k)
  next {n k : Nat} (h : S.fuels (n + 1) k) : ∃ k', k = k' + 1 ∧ S.fuels n k'

theorem bind_assoc {α β γ : Type} (x : Run α) (f : α → Run β) (g : β → Run γ) :
    x >>= f >>= g = x >>= fun a => f a >>= g := by
  funext m
  show Run.bind (Run.bind x f) g m = Run.bind x (fun a => Run.bind (f a) g) m
  unfold Run.bind
  cases x m <;> rfl

/-! ## Expressions -/

section walk

variable {Y : Type → Type} [Interpretation Y] {S : Setting} {J : Relation Y}

/-- A relation holds of a handler and its counterpart. -/
def Handles (ok : Machine → Value → Prop) (J : Relation Y) (call : Handler)
    (call' : Command → List Value → Y Value) : Prop :=
  ∀ m i c vs, ok m (.command i c) → (∀ v ∈ vs, ok m v) → J Value m ok (call c vs) (call' c vs)

namespace Judgement

theorem ofExcept (hJ : Judgement S J) {α : Type} {m : Machine} {P : Machine → α → Prop}
    {pos : Option Position} {r : Except RuntimeError.Cause α} (h : ∀ a, r = .ok a → P m a)
    (herror : ∀ cause, r = .error cause → cause.aboutCommand = false) :
    J α m P (ofExcept pos r) (ofExceptIn pos r) := by
  cases r with
  | ok a => exact hJ.pure (h a rfl)
  | error cause => exact hJ.fail (herror cause rfl) pos

variable {call : Handler} {call' : Command → List Value → Y Value}

theorem invoke (hJ : Judgement S J) (hcall : Handles S.ok J call call') {m : Machine} (n : Name)
    {v : Value} {vs : List Value} (hv : S.ok m v) (hv' : S.called v) (hvs : ∀ v ∈ vs, S.ok m v) :
    J Value m S.ok (invoke call n v vs) (invokeIn call' n v vs) := by
  cases v with
  | command i c =>
    unfold Offside.invoke invokeIn
    simp only
    split_ifs
    · exact hJ.located _ (hcall m _ _ _ hv hvs)
    · exact hJ.fail rfl _
  | number x => exact hJ.notCallable hv' (by simp [Value.type]) _
  | text s => exact hJ.notCallable hv' (by simp [Value.type]) _
  | boolean b => exact hJ.notCallable hv' (by simp [Value.type]) _
  | none => exact hJ.notCallable hv' (by simp [Value.type]) _

mutual

theorem eval (hJ : Judgement S J) (hcall : Handles S.ok J call call') :
    ∀ (e : Expr) {m : Machine}, e.obeys S.rules = true →
      J Value m S.ok (eval call e) (evalIn call' e)
  | .literal l, _, _ => hJ.pure (hJ.plain (by cases l <;> simp [Value.ofLiteral, Value.type]))
  | .name _ n, _, _ => hJ.variableValue n
  | .group inner, _, h => hJ.eval hcall inner (by simpa only [Expr.obeys] using h)
  | .unary _ _ right, _, h => by
    rw [Expr.obeys] at h
    exact hJ.bind (hJ.eval hcall right h) fun _ _ _ _ =>
      hJ.ofExcept (fun _ hop => hJ.plain (UnaryOp.type_of_apply hop))
        fun _ hop => UnaryOp.error_of_apply hop
  | .binary left _ _ right, _, h => by
    rw [Expr.obeys, Bool.and_eq_true] at h
    exact hJ.bind (hJ.eval hcall left h.1) fun _ _ _ _ =>
      hJ.bind (hJ.eval hcall right h.2) fun _ _ _ _ =>
        hJ.ofExcept (fun _ hop => hJ.plain (BinaryOp.type_of_apply hop))
          fun _ hop => BinaryOp.error_of_apply hop
  | .comparison first links, _, h => by
    rw [Expr.obeys, Bool.and_eq_true] at h
    exact hJ.evalChain hcall (fun _ => hJ.eval hcall first h.1) links h.2
  | .ternary condition left right, _, h => by
    rw [Expr.obeys, Bool.and_eq_true, Bool.and_eq_true] at h
    refine hJ.bind (hJ.eval hcall condition h.1.1) fun _ c _ _ => ?_
    split_ifs
    · exact hJ.eval hcall left h.1.2
    · exact hJ.eval hcall right h.2
  | .call n args, _, h => by
    rw [Expr.obeys, Bool.and_eq_true] at h
    refine hJ.bind (hJ.callee h.1) fun _ v _ hv => ?_
    -- the command is found before its arguments are evaluated, and stays what it is
    refine hJ.bind (hJ.evalAll hcall args h.2) fun _ vs hlater hvs => ?_
    exact hJ.invoke hcall n (hJ.persists hlater hv.1) hv.2 hvs

theorem evalChain (hJ : Judgement S J) (hcall : Handles S.ok J call call') {left : Run Value}
    {left' : Y Value} (hleft : ∀ m, J Value m S.ok left left') :
    ∀ (links : List (Link Expr)) {m : Machine}, linksObey S.rules links = true →
      J Value m S.ok (evalChain call left links) (evalChainIn call' left' links)
  | [], _, _ => hJ.pure (hJ.plain (by simp [Value.type]))
  | ⟨_, _, right⟩ :: rest, m, h => by
    rw [linksObey, Bool.and_eq_true] at h
    refine hJ.bind (hleft m) fun _ a _ _ => hJ.bind (hJ.eval hcall right h.1) fun _ b _ _ => ?_
    refine hJ.bind (P := fun _ _ => True)
      (hJ.ofExcept (fun _ _ => trivial) fun _ hop => BinaryOp.error_of_apply hop)
      fun _ v _ _ => ?_
    split_ifs
    · exact hJ.evalChain hcall (fun _ => hJ.eval hcall right h.1) rest h.2
    · exact hJ.pure (hJ.plain (by simp [Value.type]))

theorem evalAll (hJ : Judgement S J) (hcall : Handles S.ok J call call') :
    ∀ (es : List Expr) {m : Machine}, argsObey S.rules es = true →
      J (List Value) m (fun m' vs => ∀ v ∈ vs, S.ok m' v) (evalAll call es) (evalAllIn call' es)
  | [], _, _ => hJ.pure (by simp)
  | e :: es, _, h => by
    rw [argsObey, Bool.and_eq_true] at h
    refine hJ.bind (hJ.eval hcall e h.1) fun _ v _ hv => ?_
    refine hJ.bind (hJ.evalAll hcall es h.2) fun _ vs hlater hvs => hJ.pure ?_
    exact List.forall_mem_cons.mpr ⟨hJ.persists hlater hv, hvs⟩

end

/-! ## Statements -/

theorem followedBy (hJ : Judgement S J) {rest : Run Flow} {rest' : Y Flow}
    (h : ∀ m, J Flow m (Flow.Has S.ok) rest rest') {m : Machine} {flow : Flow}
    (hflow : flow.Has S.ok m) :
    J Flow m (Flow.Has S.ok) (flow.followedBy rest) (flow.followedByIn rest') := by
  cases flow with
  | normal => exact h m
  | returned v => exact hJ.pure hflow

theorem iterate (hJ : Judgement S J) (hr : S.rules.loops = true) {test : Run Value}
    {test' : Y Value} {body : Run Flow} {body' : Y Flow} (htest : ∀ m, J Value m S.ok test test')
    (hbody : ∀ m, J Flow m (Flow.Has S.ok) body body') {n k : Nat} (hnk : S.fuels n k)
    (m : Machine) : J Flow m (Flow.Has S.ok) (iterate test body n) (iterateIn test' body' k) := by
  induction n generalizing k m with
  | zero => exact hJ.stop (y := iterateIn test' body') hr hnk rfl
  | succ n ih =>
    obtain ⟨k, rfl, hpred⟩ := hJ.next hnk
    rw [iterate_succ, iterateIn]
    refine hJ.bind (htest m) fun _ v _ _ => ?_
    split_ifs
    · exact hJ.bind (hbody _) fun _ flow _ hflow => hJ.followedBy (ih hpred) hflow
    · exact hJ.pure (hJ.plain (by simp [Flow.value, Value.type]))

theorem normal (hJ : Judgement S J) {m : Machine} :
    J Flow m (Flow.Has S.ok) (Pure.pure .normal) (Pure.pure .normal) :=
  hJ.pure (hJ.plain (by simp [Flow.value, Value.type]))

mutual

theorem exec (hJ : Judgement S J) (hcall : Handles S.ok J call call') {n k : Nat}
    (hnk : S.fuels n k) : ∀ (s : Stmt) {m : Machine}, s.obeys S.rules = true →
      J Flow m (Flow.Has S.ok) (exec call n s) (execIn call' k s)
  | .init _ e, _, h => by
    rw [Stmt.obeys, Bool.and_eq_true] at h
    exact hJ.bind (hJ.eval hcall e h.2) fun _ v _ hv =>
      hJ.bind (hJ.declare h.1 hv) fun _ _ _ _ => hJ.normal
  | .set _ e, _, h => by
    rw [Stmt.obeys, Bool.and_eq_true] at h
    exact hJ.bind (hJ.eval hcall e h.2) fun _ v _ hv =>
      hJ.bind (hJ.assign h.1 hv) fun _ _ _ _ => hJ.normal
  | .condition test thenBody none, _, h => by
    rw [Stmt.obeys, Bool.and_eq_true] at h
    refine hJ.bind (hJ.eval hcall test h.1) fun _ v _ _ => ?_
    split_ifs
    · exact hJ.execAll hcall hnk thenBody h.2
    · exact hJ.normal
  | .condition test thenBody (some elseBody), _, h => by
    rw [Stmt.obeys, Bool.and_eq_true, Bool.and_eq_true] at h
    refine hJ.bind (hJ.eval hcall test h.1.1) fun _ v _ _ => ?_
    split_ifs
    · exact hJ.execAll hcall hnk thenBody h.1.2
    · exact hJ.execAll hcall hnk elseBody h.2
  | .loop test body, m, h => by
    rw [Stmt.obeys, Bool.and_eq_true, Bool.and_eq_true] at h
    exact hJ.iterate h.1.1 (fun _ => hJ.eval hcall test h.1.2)
      (fun _ => hJ.execAll hcall hnk body h.2) hnk m
  | .definition name params body, m, h => by
    have hd : (Definition.mk name params body).obeys S.rules = true := by
      simpa only [Stmt.obeys, Definition.obeys] using h
    have hdef : J Flow m (Flow.Has S.ok) _ _ := hJ.bind (hJ.define hd) fun _ _ _ _ => hJ.normal
    rwa [bind_assoc] at hdef
  | .ret _ none, _, _ => hJ.pure (hJ.plain (by simp [Flow.value, Value.type]))
  | .ret _ (some e), _, h => by
    rw [Stmt.obeys] at h
    exact hJ.bind (hJ.eval hcall e h) fun _ v _ hv => hJ.pure hv
  | .expression e, _, h => by
    rw [Stmt.obeys] at h
    exact hJ.bind (hJ.eval hcall e h) fun _ _ _ _ => hJ.normal
  | .body stmts, _, h => hJ.execAll hcall hnk stmts (by simpa only [Stmt.obeys] using h)
  | .pass, _, _ => hJ.normal

theorem execAll (hJ : Judgement S J) (hcall : Handles S.ok J call call') {n k : Nat}
    (hnk : S.fuels n k) : ∀ (ss : List Stmt) {m : Machine}, bodyObeys S.rules ss = true →
      J Flow m (Flow.Has S.ok) (execAll call n ss) (execAllIn call' k ss)
  | [], _, _ => hJ.normal
  | s :: rest, m, h => by
    rw [bodyObeys, Bool.and_eq_true] at h
    rw [execAll_cons]
    exact hJ.bind (hJ.exec hcall hnk s h.1) fun _ flow _ hflow =>
      hJ.followedBy (fun _ => hJ.execAll hcall hnk rest h.2) hflow

end

/-! ## Commands -/

/-- What is needed to go from the bodies of commands to calls of them. -/
structure Enters (S : Setting) (J : Relation Y) : Prop where
  obeys {m : Machine} {i : Nat} {d : Definition} {home : FrameId}
    (h : S.ok m (.command i (.defined d home))) : bodyObeys S.rules d.body = true
  enter {m : Machine} {i : Nat} {d : Definition} {home : FrameId} {vs : List Value}
    {x : Run Flow} {y : Y Flow} (h : S.ok m (.command i (.defined d home)))
    (hvs : ∀ v ∈ vs, S.ok m v) (hbody : ∀ m, J Flow m (Flow.Has S.ok) x y) :
    J Value m S.ok (enter d home vs x) (enterIn d home vs y)
  /-- Where the fuel for one call is used up. -/
  exhaust {m : Machine} {k : Nat} {d : Definition} {home : FrameId} {vs : List Value}
    (hk : S.fuels 0 k) : J Value m S.ok Run.exhaust (applyIn k (.defined d home) vs)

theorem apply (hJ : Judgement S J) (hE : Enters S J) {n k : Nat} (hnk : S.fuels n k) :
    Handles S.ok J (apply n) (applyIn k) := by
  induction n generalizing k with
  | zero =>
    intro m i c vs hc hvs
    cases c with
    | native n =>
      rw [applyIn]
      exact hJ.native hc hvs
    | defined d home => exact hE.exhaust hnk
  | succ n ih =>
    intro m i c vs hc hvs
    obtain ⟨k, rfl, hpred⟩ := hJ.next hnk
    cases c with
    | native n => exact hJ.native hc hvs
    | defined d home =>
      exact hE.enter hc hvs fun _ => hJ.execAll (ih hpred) hpred d.body (hE.obeys hc)

end Judgement

end walk

/-! ## Forgetting what an interpretation adds -/

/-- A way back from an interpretation to runs. -/
structure Forgets {Y : Type → Type} [Interpretation Y] (forget : (α : Type) → Y α → Run α) :
    Prop where
  pure {α : Type} (a : α) : forget α (pure a) = pure a
  bind {α β : Type} (y : Y α) (g : α → Y β) :
    forget β (y >>= g) = forget α y >>= fun a => forget β (g a)
  step {α : Type} (x : Run α) : forget α (step x) = x
  located {α : Type} (p : Position) (y : Y α) : forget α (located p y) = Run.located p (forget α y)
  nested {α : Type} (y : Y α) : forget α (nested y) = Run.nested (forget α y)
  inFrame {α : Type} (f : FrameId) (y : Y α) : forget α (inFrame f y) = Run.inFrame f (forget α y)

/-- The counterpart is the run itself, but for what the interpretation adds. -/
def Forgotten {Y : Type → Type} (forget : (α : Type) → Y α → Run α) : Relation Y :=
  fun α m P x y => forget α y m = x m ∧ ∀ a m', x m = .done a m' → P m' a

namespace Forgets

variable {Y : Type → Type} [Interpretation Y] {forget : (α : Type) → Y α → Run α}
  (hY : Forgets forget)

include hY

theorem basic {α : Type} {m : Machine} {P : Machine → α → Prop} (x : Run α)
    (h : ∀ a m', x m = .done a m' → P m' a) : Forgotten forget α m P x (Interpretation.step x) :=
  ⟨by rw [hY.step], h⟩

theorem andThen {α β : Type} {m : Machine} {P : Machine → α → Prop} {P' : Machine → β → Prop}
    {x : Run α} {y : Y α} {f : α → Run β} {g : α → Y β} (h : Forgotten forget α m P x y)
    (hf : ∀ m' a, True → P m' a → Forgotten forget β m' P' (f a) (g a)) :
    Forgotten forget β m P' (x >>= f) (y >>= g) := by
  obtain ⟨hxy, hP⟩ := h
  have hx : ∀ m, (x >>= f) m = Run.bind x f m := fun _ => rfl
  have hy : forget β (y >>= g) m = Run.bind (forget α y) (fun a => forget β (g a)) m := by
    rw [hY.bind]
    rfl
  unfold Forgotten
  rw [hx, hy, Run.bind, Run.bind, hxy]
  cases hm : x m with
  | exhausted => exact ⟨rfl, fun _ _ h => by cases h⟩
  | failed e m' => exact ⟨rfl, fun _ _ h => by cases h⟩
  | done a m' => exact hf m' a trivial (hP a m' hm)

theorem judgement :
    Judgement (.plain (· = ·) fun _ _ => True) (Forgotten forget) where
  plain _ := trivial
  persists _ _ := trivial
  pure {_ m P a} h := ⟨by rw [hY.pure], fun _ _ ha => by cases ha; exact h⟩
  bind := hY.andThen
  located {_ m P x y} p h := by
    obtain ⟨hxy, hP⟩ := h
    unfold Forgotten
    rw [hY.located, Run.located, Run.located, hxy]
    cases hm : x m with
    | exhausted => exact ⟨rfl, fun _ _ h => by cases h⟩
    | failed e m' => exact ⟨rfl, fun _ _ h => by cases h⟩
    | done a m' => exact ⟨rfl, fun b m₁ h => by cases h; exact hP a m' hm⟩
  fail _ _ := hY.basic _ fun _ _ h => by cases h
  variableValue _ := hY.basic _ fun _ _ _ => trivial
  callee _ := hY.basic _ fun _ _ _ => ⟨trivial, trivial⟩
  notCallable _ _ _ := hY.basic _ fun _ _ h => by cases h
  native _ _ := hY.basic _ fun _ _ _ => trivial
  declare _ _ := hY.basic _ fun _ _ _ => trivial
  assign _ _ := hY.basic _ fun _ _ _ => trivial
  define _ := hY.basic _ fun _ _ _ => trivial
  stop {m P k y} _ hk hy := by
    subst hk
    rw [hy]
    exact hY.basic _ fun _ _ h => by cases h
  next {n k} h := ⟨n, h.symm, rfl⟩

theorem bindParams (f : FrameId) (ns : List Name) (vs : List Value) {m : Machine} :
    Forgotten forget Unit m (fun _ _ => True) (bindParams f ns vs) (bindParamsIn f ns vs) := by
  induction ns generalizing vs m with
  | nil => exact hY.judgement.pure trivial
  | cons n ns ih =>
    cases vs with
    | nil => exact hY.judgement.pure trivial
    | cons v vs =>
      rw [Run.bindParams, bindParamsIn]
      exact hY.andThen (P := fun _ _ => True) (hY.basic _ fun _ _ _ => trivial) fun _ _ _ _ => ih vs

theorem enters : Judgement.Enters (.plain (· = ·) fun _ _ => True) (Forgotten forget) where
  obeys _ := bodyObeys_free _
  enter {m i d home vs x y} _ _ hbody := by
    have hforget : forget Flow y = x := funext fun m => (hbody m).1
    refine hY.andThen (P := fun _ _ => True) (hY.basic _ fun _ _ _ => trivial) fun _ f _ _ => ?_
    refine hY.andThen (hY.bindParams f d.params vs) fun _ _ _ _ => ?_
    refine hY.andThen (P := fun _ _ => True) ⟨?_, fun _ _ _ => trivial⟩ fun _ _ _ _ => ?_
    · rw [hY.nested, hY.inFrame, hforget]
    · exact hY.judgement.pure trivial
  exhaust {m k d home vs} hk := by
    subst hk
    exact hY.basic _ fun _ _ h => by cases h

/-- Evaluation in an interpretation is evaluation, but for what the interpretation adds. -/
theorem execAllIn (fuel : Nat) (ss : List Stmt) :
    forget Flow (Offside.execAllIn (applyIn fuel) fuel ss) = execAll (apply fuel) fuel ss := by
  funext m
  have happly := hY.judgement.apply hY.enters (rfl : fuel = fuel)
  exact (hY.judgement.execAll happly rfl ss (bodyObeys_free ss)).1

theorem evalIn (fuel : Nat) (e : Expr) :
    forget Value (Offside.evalIn (applyIn fuel) e) = eval (apply fuel) e := by
  funext m
  have happly := hY.judgement.apply hY.enters (rfl : fuel = fuel)
  exact (hY.judgement.eval happly e e.obeys_free).1

end Forgets

/-! ## Evaluation in runs -/

theorem Forgets.runs : Forgets (Y := Run) fun _ y => y :=
  ⟨fun _ => rfl, fun _ _ => rfl, fun _ => rfl, fun _ _ => rfl, fun _ => rfl, fun _ _ => rfl⟩

theorem enterIn_runs (d : Definition) (home : FrameId) (vs : List Value) (body : Run Flow) :
    (enterIn d home vs body : Run Value) = enter d home vs body := by
  have hparams : ∀ f, (bindParamsIn f d.params vs : Run Unit) = bindParams f d.params vs :=
    fun f => funext fun _ => (Forgets.runs.bindParams f d.params vs).1
  unfold enterIn enter
  simp only [hparams]
  rfl

/-- Evaluation in runs is the evaluation that programs are run by. -/
theorem execAllIn_runs (fuel : Nat) (ss : List Stmt) :
    (execAllIn (applyIn fuel) fuel ss : Run Flow) = execAll (apply fuel) fuel ss :=
  Forgets.runs.execAllIn fuel ss

end Offside
