import Mathlib.Tactic.SplitIfs
import Offside.Run.Eval

/-!
# What runs keep

A relation between machines is *kept* by a run if it holds between the machine at the start and the
machine at the end, whether the run ends with a result or with an error (`Keeps`). Evaluation does
nothing to a machine but a few basic steps, one after the other. So a relation that holds along
chains of steps and is kept by each of them is kept by every expression and statement
(`eval_keeps`, `execAll_keeps`), provided that the handler keeps it; and by the handler `apply`,
provided that entering a command keeps it (`apply_keeps`).
-/

namespace Offside

open Run

/-! ## Keeping a relation -/

/-- The machine that a run leaves, if it ends. -/
def Outcome.machine? {α : Type} : Outcome α → Option Machine
  | done _ m => some m
  | failed _ m => some m
  | exhausted => none

theorem machine?_request (ask : Sink → Sink × Option SinkError) (m : Machine) :
    (request ask m).machine? = some { m with sink := (ask m.sink).1 } := by
  unfold request
  simp only
  cases (ask m.sink).2 <;> rfl

/-- However the run ends, it leaves a machine that is related to the one at the start. -/
def Keeps {α : Type} (R : Machine → Machine → Prop) (x : Run α) : Prop :=
  ∀ m, ∀ m' ∈ (x m).machine?, R m m'

/-- A relation that holds along chains of steps and is kept by the basic steps of evaluation. -/
structure Steady (R : Machine → Machine → Prop) : Prop where
  refl (m : Machine) : R m m
  trans {m₁ m₂ m₃ : Machine} (h : R m₁ m₂) (h' : R m₂ m₃) : R m₁ m₃
  declare (n : Name) (v : Value) : Keeps R (declare n v)
  assign (n : Name) (v : Value) : Keeps R (assign n v)
  closure (d : Definition) : Keeps R (closure d)
  request (ask : Sink → Sink × Option SinkError) : Keeps R (request ask)
  readClock : Keeps R readClock

namespace Keeps

variable {α : Type} {R : Machine → Machine → Prop} {x : Run α} {m m' : Machine}

theorem done (h : Keeps R x) {a : α} (hx : x m = .done a m') : R m m' :=
  h m m' (by rw [hx]; rfl)

theorem failed (h : Keeps R x) {e : RuntimeError} (hx : x m = .failed e m') : R m m' :=
  h m m' (by rw [hx]; rfl)

theorem exhaust : Keeps R (exhaust : Run α) := by
  intro m m' hm
  cases hm

theorem located (p : Position) (hx : Keeps R x) : Keeps R (located p x) := by
  intro m m' hm
  unfold Run.located at hm
  cases hr : x m with
  | done a m₁ =>
    rw [hr] at hm
    cases hm
    exact hx.done hr
  | failed e m₁ =>
    rw [hr] at hm
    cases hm
    exact hx.failed hr
  | exhausted =>
    rw [hr] at hm
    cases hm

end Keeps

namespace Steady

variable {α β : Type} {R : Machine → Machine → Prop} (hR : Steady R)

include hR

theorem pure (a : α) : Keeps R (pure a : Run α) := by
  intro m m' hm
  cases hm
  exact hR.refl m

theorem fail (cause : RuntimeError.Cause) (pos : Option Position) :
    Keeps R (fail cause pos : Run α) := by
  intro m m' hm
  cases hm
  exact hR.refl m

theorem ofExcept (pos : Option Position) (r : Except RuntimeError.Cause α) :
    Keeps R (ofExcept pos r) := by
  cases r with
  | ok a => exact hR.pure a
  | error cause => exact hR.fail cause pos

theorem lookup? (n : String) : Keeps R (lookup? n) := by
  intro m m' hm
  cases hm
  exact hR.refl m

theorem bind {x : Run α} {f : α → Run β} (hx : Keeps R x) (hf : ∀ a, Keeps R (f a)) :
    Keeps R (x >>= f) := by
  intro m m' hm
  have hbind : (x >>= f) m = match x m with
    | .done a m' => f a m'
    | .failed e m' => .failed e m'
    | .exhausted => .exhausted := rfl
  rw [hbind] at hm
  cases hr : x m with
  | done a m₁ =>
    rw [hr] at hm
    exact hR.trans (hx.done hr) (hf a m₁ m' hm)
  | failed e m₁ =>
    rw [hr] at hm
    cases hm
    exact hx.failed hr
  | exhausted =>
    rw [hr] at hm
    cases hm

theorem write (text : String) : Keeps R (write text) := hR.request _

theorem flush : Keeps R flush := hR.request _

theorem writeSome (text : Option String) : Keeps R (writeSome text) := by
  cases text with
  | none => exact hR.pure ()
  | some text => exact hR.write text

theorem hostResult (r : HostResult) (args : List Value) : Keeps R (r.run args) := by
  cases r with
  | value l => exact hR.pure _
  | argument i => exact hR.pure _
  | failure e => exact hR.fail _ _

theorem native (n : Native) (args : List Value) : Keeps R (n.run args) := by
  cases n with
  | print => exact hR.bind (hR.write _) fun _ => hR.pure _
  | clear => exact hR.bind (hR.write _) fun _ => hR.bind hR.flush fun _ => hR.pure _
  | clock => exact hR.bind hR.readClock fun _ => hR.pure _
  | host c => exact hR.bind (hR.writeSome _) fun _ => hR.hostResult _ args

theorem callee (n : Name) : Keeps R (callee n) := by
  refine hR.bind (hR.lookup? _) fun v => ?_
  split
  · exact hR.fail _ _
  · exact hR.fail _ _
  · exact hR.pure _

theorem variableValue (n : Name) : Keeps R (variableValue n) := by
  refine hR.bind (hR.lookup? _) fun v => ?_
  split
  · exact hR.pure _
  · exact hR.fail _ _

end Steady

/-! ## Sequences as chains of steps -/

/-- Goes on with `rest` unless the command has returned. -/
def Flow.followedBy (rest : Run Flow) : Flow → Run Flow
  | .normal => rest
  | .returned v => pure (.returned v)

theorem execAll_cons (call : Handler) (fuel : Nat) (s : Stmt) (rest : List Stmt) :
    execAll call fuel (s :: rest) =
      exec call fuel s >>= Flow.followedBy (execAll call fuel rest) := by
  funext m
  show _ = Run.bind (exec call fuel s) (Flow.followedBy (execAll call fuel rest)) m
  rw [execAll]
  unfold Run.bind
  simp only
  cases exec call fuel s m with
  | done flow m' => cases flow <;> rfl
  | failed e m' => rfl
  | exhausted => rfl

theorem iterate_succ (test : Run Value) (body : Run Flow) (n : Nat) :
    iterate test body (n + 1) = test >>= fun v =>
      if v.isTruthy then body >>= Flow.followedBy (iterate test body n) else pure .normal := by
  funext m
  show _ = Run.bind test _ m
  rw [iterate]
  unfold Run.bind
  cases test m with
  | failed e m' => rfl
  | exhausted => rfl
  | done v m' =>
    simp only
    split_ifs
    · show _ = Run.bind body _ m'
      unfold Run.bind
      cases body m' with
      | failed e m'' => rfl
      | exhausted => rfl
      | done flow m'' => cases flow <;> rfl
    · rfl

/-! ## Evaluation -/

section handler

variable {R : Machine → Machine → Prop} {call : Handler}

theorem invoke_keeps (hR : Steady R) (hcall : ∀ c vs, Keeps R (call c vs)) (n : Name) (v : Value)
    (vs : List Value) : Keeps R (invoke call n v vs) := by
  unfold invoke
  split
  · split_ifs
    · exact (hcall _ _).located _
    · exact hR.fail _ _
  · exact hR.fail _ _

mutual

theorem eval_keeps (hR : Steady R) (hcall : ∀ c vs, Keeps R (call c vs)) :
    ∀ e : Expr, Keeps R (eval call e)
  | .literal _ => hR.pure _
  | .name _ n => hR.variableValue n
  | .group inner => eval_keeps hR hcall inner
  | .unary _ _ right => hR.bind (eval_keeps hR hcall right) fun _ => hR.ofExcept _ _
  | .binary left _ _ right =>
    hR.bind (eval_keeps hR hcall left) fun _ =>
      hR.bind (eval_keeps hR hcall right) fun _ => hR.ofExcept _ _
  | .comparison first links => evalChain_keeps hR hcall (eval_keeps hR hcall first) links
  | .ternary condition left right => by
    refine hR.bind (eval_keeps hR hcall condition) fun c => ?_
    split_ifs
    · exact eval_keeps hR hcall left
    · exact eval_keeps hR hcall right
  | .call n args =>
    hR.bind (hR.callee n) fun v =>
      hR.bind (evalAll_keeps hR hcall args) fun vs => invoke_keeps hR hcall n v vs

theorem evalChain_keeps (hR : Steady R) (hcall : ∀ c vs, Keeps R (call c vs)) {left : Run Value}
    (hleft : Keeps R left) : ∀ links : List (Link Expr), Keeps R (evalChain call left links)
  | [] => hR.pure _
  | ⟨_, _, right⟩ :: rest => by
    refine hR.bind hleft fun a => hR.bind (eval_keeps hR hcall right) fun b =>
      hR.bind (hR.ofExcept _ _) fun v => ?_
    split_ifs
    · exact evalChain_keeps hR hcall (eval_keeps hR hcall right) rest
    · exact hR.pure _

theorem evalAll_keeps (hR : Steady R) (hcall : ∀ c vs, Keeps R (call c vs)) :
    ∀ es : List Expr, Keeps R (evalAll call es)
  | [] => hR.pure _
  | e :: es =>
    hR.bind (eval_keeps hR hcall e) fun _ =>
      hR.bind (evalAll_keeps hR hcall es) fun _ => hR.pure _

end

theorem followedBy_keeps (hR : Steady R) {rest : Run Flow} (h : Keeps R rest) (flow : Flow) :
    Keeps R (flow.followedBy rest) := by
  cases flow with
  | normal => exact h
  | returned v => exact hR.pure _

theorem iterate_keeps (hR : Steady R) {test : Run Value} {body : Run Flow} (htest : Keeps R test)
    (hbody : Keeps R body) (n : Nat) : Keeps R (iterate test body n) := by
  induction n with
  | zero => exact .exhaust
  | succ n ih =>
    rw [iterate_succ]
    refine hR.bind htest fun v => ?_
    split_ifs
    · exact hR.bind hbody (followedBy_keeps hR ih)
    · exact hR.pure _

mutual

theorem exec_keeps (hR : Steady R) (hcall : ∀ c vs, Keeps R (call c vs)) (fuel : Nat) :
    ∀ s : Stmt, Keeps R (exec call fuel s)
  | .init n e =>
    hR.bind (eval_keeps hR hcall e) fun v => hR.bind (hR.declare n v) fun _ => hR.pure _
  | .set n e =>
    hR.bind (eval_keeps hR hcall e) fun v => hR.bind (hR.assign n v) fun _ => hR.pure _
  | .condition test thenBody none => by
    refine hR.bind (eval_keeps hR hcall test) fun v => ?_
    split_ifs
    · exact execAll_keeps hR hcall fuel thenBody
    · exact hR.pure _
  | .condition test thenBody (some elseBody) => by
    refine hR.bind (eval_keeps hR hcall test) fun v => ?_
    split_ifs
    · exact execAll_keeps hR hcall fuel thenBody
    · exact execAll_keeps hR hcall fuel elseBody
  | .loop test body =>
    iterate_keeps hR (eval_keeps hR hcall test) (execAll_keeps hR hcall fuel body) fuel
  | .definition n params body =>
    hR.bind (hR.closure ⟨n, params, body⟩) fun v => hR.bind (hR.declare n v) fun _ => hR.pure _
  | .ret _ none => hR.pure _
  | .ret _ (some e) => hR.bind (eval_keeps hR hcall e) fun _ => hR.pure _
  | .expression e => hR.bind (eval_keeps hR hcall e) fun _ => hR.pure _
  | .body stmts => execAll_keeps hR hcall fuel stmts
  | .pass => hR.pure _

theorem execAll_keeps (hR : Steady R) (hcall : ∀ c vs, Keeps R (call c vs)) (fuel : Nat) :
    ∀ ss : List Stmt, Keeps R (execAll call fuel ss)
  | [] => hR.pure _
  | s :: rest => by
    rw [execAll_cons]
    exact hR.bind (exec_keeps hR hcall fuel s)
      (followedBy_keeps hR (execAll_keeps hR hcall fuel rest))

end

end handler

/-! ## Commands and programs -/

section apply

variable {R : Machine → Machine → Prop} (hR : Steady R)
  (henter : ∀ d home vs (body : Run Flow), Keeps R body → Keeps R (enter d home vs body))

include hR henter

theorem apply_keeps (fuel : Nat) (c : Command) (vs : List Value) : Keeps R (apply fuel c vs) := by
  induction fuel generalizing c vs with
  | zero =>
    cases c with
    | native n => exact hR.native n vs
    | defined d home => exact .exhaust
  | succ fuel ih =>
    cases c with
    | native n => exact hR.native n vs
    | defined d home => exact henter d home vs _ (execAll_keeps hR ih fuel d.body)

theorem interpret_keeps (fuel : Nat) (p : Program) : Keeps R (interpret fuel p) := by
  intro m m' hm
  have hp : Keeps R (execAll (apply fuel) fuel p) :=
    execAll_keeps hR (apply_keeps hR henter fuel) fuel p
  unfold interpret at hm
  cases hr : execAll (apply fuel) fuel p m with
  | done flow m₁ =>
    rw [hr] at hm
    exact hR.trans (hp.done hr) (hR.flush m₁ m' hm)
  | failed e m₁ =>
    rw [hr] at hm
    simp only at hm
    -- the output is flushed behind an error too
    have hflush : ∀ m₂ ∈ (flush m₁).machine?, R m m₂ := fun m₂ hm₂ =>
      hR.trans (hp.failed hr) (hR.flush m₁ m₂ hm₂)
    cases hf : flush m₁ with
    | done u m₂ =>
      rw [hf] at hm hflush
      exact hflush m' hm
    | failed e' m₂ =>
      rw [hf] at hm hflush
      exact hflush m' hm
    | exhausted =>
      rw [hf] at hm
      cases hm
  | exhausted =>
    rw [hr] at hm
    cases hm

end apply

end Offside
