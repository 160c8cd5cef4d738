import Offside.Proofs.Run.Mirror

/-!
# Mirrored programs

The walk along a program and its recast form: if the handlers of commands mirror each other, so do
expressions and statements, and from that it follows that the commands do. The two programs need not
have the same shape. What stood in parentheses may stand without them, and one statement may have
become several, so a statement is compared with a list of statements.

* `Mirror.statements`, `Mirror.expression`: whole runs, with their ends and with all machines that
  they go through.
-/

namespace Offside

open Run Interpretation

/-! ## Statements behind each other -/

namespace Trace

variable {α β γ : Type}

theorem bind_assoc (y : Trace α) (f : α → Trace β) (g : β → Trace γ) :
    y >>= f >>= g = y >>= fun a => f a >>= g := by
  show Trace.bind (Trace.bind y f) g = Trace.bind y fun a => Trace.bind (f a) g
  have houtcome := Offside.bind_assoc y.outcome (fun a => (f a).outcome) fun b => (g b).outcome
  have hbind : ∀ m, (y.outcome >>= fun a => (f a).outcome) m =
      Run.bind y.outcome (fun a => (f a).outcome) m := fun _ => rfl
  unfold Trace.bind
  simp only [Trace.mk.injEq, houtcome, hbind, Run.bind, true_and]
  constructor
  · funext m
    cases y.outcome m with
    | done a m' => rw [List.append_assoc]
    | failed e m' => simp
    | exhausted => simp
  · funext m
    cases y.outcome m <;> rfl

theorem execAllIn_append (call : Command → List Value → Trace Value) (fuel : Nat)
    (ss ts : List Stmt) :
    execAllIn call fuel (ss ++ ts) =
      execAllIn call fuel ss >>= Flow.followedByIn (execAllIn call fuel ts) := by
  induction ss with
  | nil => rfl
  | cons s ss ih =>
    rw [List.cons_append, execAllIn, execAllIn, bind_assoc, ih]
    refine congrArg _ (funext fun flow => ?_)
    cases flow <;> rfl

end Trace

namespace Mirror

variable {β : Mirror}

/-! ## Traces one after the other -/

section traces

variable {α γ : Type} {R : α → α → Prop} {Q : γ → γ → Prop}

theorem Outcomes.machine? {o o' : Outcome α} (h : β.Outcomes R o o') :
    List.Forall₂ β.Machines o.machine?.toList o'.machine?.toList := by
  cases h with
  | done ha hm => exact .cons hm .nil
  | failed he hm => exact .cons hm .nil
  | exhausted => exact .nil

namespace Traces

theorem pure {a a' : α} (h : R a a') : β.Traces R (Pure.pure a) (Pure.pure a') :=
  ⟨Runs.pure h, fun _ => .nil⟩

theorem step {x x' : Run α} (h : β.Runs R x x') :
    β.Traces R (Interpretation.step x) (Interpretation.step x') :=
  ⟨h, fun hm => (h _ _ hm).machine?⟩

theorem bind {y y' : Trace α} {g g' : α → Trace γ} (h : β.Traces R y y')
    (hg : ∀ a a', R a a' → β.Traces Q (g a) (g' a')) : β.Traces Q (y >>= g) (y' >>= g') := by
  refine ⟨h.runs.bind fun a a' ha => (hg a a' ha).runs, fun {m m'} hm => ?_⟩
  have hy := h.runs m m' hm
  have hstates := h.states hm
  generalize ho : y.outcome m = o, ho' : y'.outcome m' = o' at hy
  cases hy with
  | done ha hm₁ =>
    rw [(Trace.bind_of_done ho).2.1, (Trace.bind_of_done ho').2.1]
    exact List.rel_append hstates ((hg _ _ ha).states hm₁)
  | failed he hm₁ => rwa [(Trace.bind_of_failed ho).2.1, (Trace.bind_of_failed ho').2.1]
  | exhausted => rwa [(Trace.bind_of_exhausted ho).2.1, (Trace.bind_of_exhausted ho').2.1]

theorem located {y y' : Trace α} (p : Position) (h : β.Traces R y y') :
    β.Traces R (Interpretation.located p y) (Interpretation.located (β.recast.place p) y') :=
  ⟨h.runs.located p, h.states⟩

theorem detour {y y' : Trace α} (h : β.Traces R y y') {go go' : Machine}
    (hgo : β.Machines go go') {back back' : Outcome α} (hback : β.Outcomes R back back') :
    List.Forall₂ β.Machines (y.detour go back) (y'.detour go' back') :=
  List.rel_append (.cons hgo (h.states hgo)) hback.machine?

theorem inFrame {f : FrameId} (hf : β.live f) {y y' : Trace α} (h : β.Traces R y y') :
    β.Traces R (Interpretation.inFrame f y) (Interpretation.inFrame (β.frame f) y') :=
  ⟨h.runs.inFrame hf, fun hm => h.detour (hm.goTo hf) (h.runs.inFrame hf _ _ hm)⟩

theorem nested {y y' : Trace α} (h : β.Traces R y y') :
    β.Traces R (Interpretation.nested y) (Interpretation.nested y') := by
  refine ⟨h.runs.nested, fun {m m'} hm => ?_⟩
  show List.Forall₂ β.Machines (if m.limit ≤ m.depth then _ else _)
    (if m'.limit ≤ m'.depth then _ else _)
  by_cases hlimit : m.limit ≤ m.depth
  · rw [if_pos hlimit, if_pos (hm.atLimit.mpr hlimit)]
    exact .nil
  · rw [if_neg hlimit, if_neg (mt hm.atLimit.mp hlimit)]
    exact h.detour hm.deeper (h.runs.nested _ _ hm)

theorem last {y y' : Trace α} (h : β.Traces R y y') : β.Traces R y (y' >>= Pure.pure) := by
  refine ⟨fun m m' hm => ?_, fun {m m'} hm => ?_⟩
  · have hy := h.runs m m' hm
    generalize ho : y.outcome m = o, ho' : y'.outcome m' = o' at hy
    cases hy with
    | done ha hm₁ =>
      rw [(Trace.bind_of_done ho').1]
      exact .done ha hm₁
    | failed he hm₁ =>
      rw [(Trace.bind_of_failed ho').1]
      exact .failed he hm₁
    | exhausted =>
      rw [(Trace.bind_of_exhausted ho').1]
      exact .exhausted
  · have hstates : (y' >>= Pure.pure).states m' = y'.states m' := by
      cases ho' : y'.outcome m' with
      | done a m₁ =>
        rw [(Trace.bind_of_done ho').2.1]
        exact List.append_nil _
      | failed e m₁ => exact (Trace.bind_of_failed ho').2.1
      | exhausted => exact (Trace.bind_of_exhausted ho').2.1
    rw [hstates]
    exact h.states hm

end Traces

end traces

/-! ## Expressions -/

def Handles (β : Mirror) (call call' : Command → List Value → Trace Value) : Prop :=
  ∀ i c vs, β.Lives (.command i c) → (∀ v ∈ vs, β.Lives v) →
    β.Traces β.Values (call c vs) (call' (β.command c) (vs.map β.value))

theorem fail {α : Type} {R : α → α → Prop} (cause : RuntimeError.Cause) (p : Position) :
    β.Traces R (step (Run.fail cause (some p)))
      (step (Run.fail cause (some (β.recast.place p)))) :=
  .step (Runs.fail cause (some p))

theorem ofExcept {r r' : Except RuntimeError.Cause Value} (p : Position) (hr : r' = r)
    (h : ∀ v, r = .ok v → v.type ≠ .command) :
    β.Traces β.Values (ofExceptIn (some p) r) (ofExceptIn (some (β.recast.place p)) r') := by
  rw [hr]
  cases r with
  | ok v => exact .pure (values_of_type (h v rfl))
  | error cause => exact fail cause p

theorem unary (op : UnaryOp) (p : Position) {v v' : Value} (h : β.Values v v') :
    β.Traces β.Values (ofExceptIn (some p) (op.apply v))
      (ofExceptIn (some (β.recast.place p)) (op.apply v')) := by
  obtain ⟨rfl, -⟩ := h
  exact ofExcept p (op.apply_onCommand _ v) fun _ hv => UnaryOp.type_of_apply hv

theorem binary (op : BinaryOp) (p : Position) {a a' b b' : Value} (ha : β.Values a a')
    (hb : β.Values b b') :
    β.Traces β.Values (ofExceptIn (some p) (op.apply a b))
      (ofExceptIn (some (β.recast.place p)) (op.apply a' b')) := by
  obtain ⟨rfl, -⟩ := ha
  obtain ⟨rfl, -⟩ := hb
  exact ofExcept p (op.apply_onCommand _ a b) fun _ hv => BinaryOp.type_of_apply hv

theorem Values.isTruthy {v v' : Value} (h : β.Values v v') : v'.isTruthy = v.isTruthy := by
  rw [h.1]
  exact Value.isTruthy_onCommand _ v

variable {call call' : Command → List Value → Trace Value}

theorem invoke (hcall : β.Handles call call') (n : Name) {v v' : Value} {vs vs' : List Value}
    (hv : β.Values v v') (hvs : β.Lists vs vs') :
    β.Traces β.Values (invokeIn call n v vs) (invokeIn call' (n.recast β.recast) v' vs') := by
  obtain ⟨rfl, hlives⟩ := hv
  obtain ⟨rfl, hall⟩ := hvs
  cases v with
  | command i c =>
    show β.Traces β.Values (if c.arity.accepts vs.length then _ else _)
      (if (β.command c).arity.accepts (vs.map β.value).length then _ else _)
    rw [arity_command, List.length_map]
    split_ifs
    · exact (hcall i c vs hlives hall).located n.pos
    · exact fail _ n.pos
  | number x => exact fail _ n.pos
  | text t => exact fail _ n.pos
  | boolean b => exact fail _ n.pos
  | none => exact fail _ n.pos

mutual

theorem evalIn (hcall : β.Handles call call') : ∀ e : Expr,
    β.Traces β.Values (Offside.evalIn call e) (Offside.evalIn call' (e.recast β.recast))
  | .literal l => by
    rw [Expr.recast, Offside.evalIn, Offside.evalIn]
    exact .pure (values_of_type (by cases l <;> simp [Value.ofLiteral, Value.type]))
  | .name _ n => by
    rw [Expr.recast, Offside.evalIn, Offside.evalIn]
    exact .step (variableValue n)
  | .group inner => by
    rw [Expr.recast, Offside.evalIn]
    split_ifs
    · exact evalIn hcall inner
    · rw [Offside.evalIn]
      exact evalIn hcall inner
  | .unary op p right => by
    rw [Expr.recast, Offside.evalIn, Offside.evalIn]
    exact (evalIn hcall right).bind fun _ _ hv => unary op p hv
  | .binary left op p right => by
    rw [Expr.recast, Offside.evalIn, Offside.evalIn]
    exact (evalIn hcall left).bind fun _ _ ha =>
      (evalIn hcall right).bind fun _ _ hb => binary op p ha hb
  | .comparison first links => by
    rw [Expr.recast, Offside.evalIn, Offside.evalIn]
    exact evalChainIn hcall (evalIn hcall first) links
  | .ternary condition left right => by
    rw [Expr.recast, Offside.evalIn, Offside.evalIn]
    refine (evalIn hcall condition).bind fun _ _ hc => ?_
    rw [hc.isTruthy]
    split_ifs
    · exact evalIn hcall left
    · exact evalIn hcall right
  | .call n args => by
    rw [Expr.recast, Offside.evalIn, Offside.evalIn]
    exact (Traces.step (callee n)).bind fun _ _ hv =>
      (evalAllIn hcall args).bind fun _ _ hvs => invoke hcall n hv hvs

theorem evalChainIn (hcall : β.Handles call call') {left left' : Trace Value}
    (hleft : β.Traces β.Values left left') : ∀ links : List (Link Expr),
    β.Traces β.Values (Offside.evalChainIn call left links)
      (Offside.evalChainIn call' left' (recastLinks β.recast links))
  | [] => by
    rw [recastLinks, Offside.evalChainIn, Offside.evalChainIn]
    exact .pure ⟨rfl, trivial⟩
  | ⟨op, p, right⟩ :: rest => by
    rw [recastLinks, Offside.evalChainIn, Offside.evalChainIn]
    refine hleft.bind fun _ _ ha => (evalIn hcall right).bind fun _ _ hb =>
      (binary op p ha hb).bind fun _ _ hv => ?_
    rw [hv.isTruthy]
    split_ifs
    · exact evalChainIn hcall (evalIn hcall right) rest
    · exact .pure ⟨rfl, trivial⟩

theorem evalAllIn (hcall : β.Handles call call') : ∀ es : List Expr,
    β.Traces β.Lists (Offside.evalAllIn call es) (Offside.evalAllIn call' (recastArgs β.recast es))
  | [] => by
    rw [recastArgs, Offside.evalAllIn, Offside.evalAllIn]
    exact .pure ⟨rfl, by simp⟩
  | e :: es => by
    rw [recastArgs, Offside.evalAllIn, Offside.evalAllIn]
    refine (evalIn hcall e).bind fun _ _ hv => (evalAllIn hcall es).bind fun _ _ hvs => .pure ?_
    exact ⟨by rw [hv.1, hvs.1, List.map_cons], List.forall_mem_cons.mpr ⟨hv.2, hvs.2⟩⟩

end

/-! ## Statements -/

theorem followedBy {rest rest' : Trace Flow} (h : β.Traces β.Flows rest rest') {flow flow' : Flow}
    (hflow : β.Flows flow flow') :
    β.Traces β.Flows (flow.followedByIn rest) (flow'.followedByIn rest') := by
  cases hflow with
  | normal => exact h
  | returned hv => exact .pure (.returned hv)

theorem iterateIn {test test' : Trace Value} {body body' : Trace Flow}
    (htest : β.Traces β.Values test test') (hbody : β.Traces β.Flows body body') (n : Nat) :
    β.Traces β.Flows (Offside.iterateIn test body n) (Offside.iterateIn test' body' n) := by
  induction n with
  | zero => exact .step Runs.exhaust
  | succ n ih =>
    rw [Offside.iterateIn, Offside.iterateIn]
    refine htest.bind fun _ _ hv => ?_
    rw [hv.isTruthy]
    split_ifs
    · exact hbody.bind fun _ _ hflow => followedBy ih hflow
    · exact .pure .normal

theorem single {x : Trace Flow} {fuel : Nat} {s' : Stmt}
    (h : β.Traces β.Flows x (Offside.execIn call' fuel s')) :
    β.Traces β.Flows x (Offside.execAllIn call' fuel [s']) := by
  have hnothing : Flow.followedByIn (Offside.execAllIn call' fuel []) = Pure.pure := by
    funext flow
    cases flow <;> rfl
  rw [Offside.execAllIn, hnothing]
  exact h.last

mutual

theorem execIn (hcall : β.Handles call call') (fuel : Nat) : ∀ s : Stmt,
    β.Traces β.Flows (Offside.execIn call fuel s)
      (Offside.execAllIn call' fuel (s.recast β.recast))
  | .init n e => by
    rw [Stmt.recast]
    refine single ?_
    rw [Offside.execIn, Offside.execIn]
    exact (evalIn hcall e).bind fun _ _ hv =>
      (Traces.step (declare n hv)).bind fun _ _ _ => .pure .normal
  | .set n e => by
    rw [Stmt.recast]
    refine single ?_
    rw [Offside.execIn, Offside.execIn]
    exact (evalIn hcall e).bind fun _ _ hv =>
      (Traces.step (assign n hv)).bind fun _ _ _ => .pure .normal
  | .condition test thenBody none => by
    rw [Stmt.recast]
    refine single ?_
    rw [Offside.execIn, Offside.execIn]
    refine (evalIn hcall test).bind fun _ _ hv => ?_
    rw [hv.isTruthy]
    split_ifs
    · exact execAllIn hcall fuel thenBody
    · exact .pure .normal
  | .condition test thenBody (some elseBody) => by
    rw [Stmt.recast]
    refine single ?_
    rw [Offside.execIn, Offside.execIn]
    refine (evalIn hcall test).bind fun _ _ hv => ?_
    rw [hv.isTruthy]
    split_ifs
    · exact execAllIn hcall fuel thenBody
    · exact execAllIn hcall fuel elseBody
  | .loop test body => by
    rw [Stmt.recast]
    refine single ?_
    rw [Offside.execIn, Offside.execIn]
    exact iterateIn (evalIn hcall test) (execAllIn hcall fuel body) fuel
  | .definition n params body => by
    rw [Stmt.recast]
    refine single ?_
    rw [Offside.execIn, Offside.execIn]
    exact (Traces.step ((closure ⟨n, params, body⟩).bind fun _ _ hv => declare n hv)).bind
      fun _ _ _ => .pure .normal
  | .ret _ none => by
    rw [Stmt.recast]
    refine single ?_
    rw [Offside.execIn, Offside.execIn]
    exact .pure (.returned ⟨rfl, trivial⟩)
  | .ret _ (some e) => by
    rw [Stmt.recast]
    refine single ?_
    rw [Offside.execIn, Offside.execIn]
    exact (evalIn hcall e).bind fun _ _ hv => .pure (.returned hv)
  | .expression e => by
    rw [Stmt.recast]
    refine single ?_
    rw [Offside.execIn, Offside.execIn]
    exact (evalIn hcall e).bind fun _ _ _ => .pure .normal
  | .body stmts => by
    rw [Stmt.recast, Offside.execIn]
    split_ifs
    · exact execAllIn hcall fuel stmts
    · refine single ?_
      rw [Offside.execIn]
      exact execAllIn hcall fuel stmts
  | .pass => by
    rw [Stmt.recast]
    refine single ?_
    rw [Offside.execIn, Offside.execIn]
    exact .pure .normal

theorem execAllIn (hcall : β.Handles call call') (fuel : Nat) : ∀ ss : List Stmt,
    β.Traces β.Flows (Offside.execAllIn call fuel ss)
      (Offside.execAllIn call' fuel (recastAll β.recast ss))
  | [] => by
    rw [recastAll, Offside.execAllIn, Offside.execAllIn]
    exact .pure .normal
  | s :: rest => by
    rw [recastAll, Trace.execAllIn_append, Offside.execAllIn]
    exact (execIn hcall fuel s).bind fun _ _ hflow =>
      followedBy (execAllIn hcall fuel rest) hflow

end

/-! ## Commands -/

theorem bindParamsIn {f : FrameId} (hf : β.live f) (ns : List Name) {vs vs' : List Value}
    (hvs : β.Lists vs vs') :
    β.Traces Anything (Offside.bindParamsIn f ns vs)
      (Offside.bindParamsIn (β.frame f) (ns.map (·.recast β.recast)) vs') := by
  obtain ⟨rfl, hlives⟩ := hvs
  induction ns generalizing vs with
  | nil => exact .pure trivial
  | cons n ns ih =>
    cases vs with
    | nil => exact .pure trivial
    | cons v vs =>
      rw [List.forall_mem_cons] at hlives
      rw [List.map_cons, List.map_cons, Offside.bindParamsIn, Offside.bindParamsIn]
      exact (Traces.step (declareIn hf n ⟨rfl, hlives.1⟩)).bind fun _ _ _ => ih hlives.2

theorem enterIn (d : Definition) {home : FrameId} (hhome : β.live home) {vs vs' : List Value}
    (hvs : β.Lists vs vs') {body body' : Trace Flow} (hbody : β.Traces β.Flows body body') :
    β.Traces β.Values (Offside.enterIn d home vs body)
      (Offside.enterIn (d.recast β.recast) (β.frame home) vs' body') := by
  unfold Offside.enterIn
  refine (Traces.step (openFrame hhome)).bind fun f f' hf => ?_
  obtain ⟨rfl, hlive⟩ := hf
  refine (bindParamsIn hlive d.params hvs).bind fun _ _ _ => ?_
  refine (hbody.inFrame hlive).nested.bind fun flow flow' hflow => .pure ?_
  cases hflow with
  | normal => exact ⟨rfl, trivial⟩
  | returned hv => exact hv

theorem applyIn (β : Mirror) (fuel : Nat) :
    β.Handles (Offside.applyIn fuel) (Offside.applyIn fuel) := by
  induction fuel with
  | zero =>
    intro i c vs hc hvs
    cases c with
    | native n => exact .step (native n ⟨rfl, hvs⟩)
    | defined d home => exact .step Runs.exhaust
  | succ fuel ih =>
    intro i c vs hc hvs
    cases c with
    | native n => exact .step (native n ⟨rfl, hvs⟩)
    | defined d home => exact enterIn d hc ⟨rfl, hvs⟩ (execAllIn ih fuel d.body)

/-! ## Whole runs -/

/-- Statements mirror each other, in their ends and in all machines that they go through. -/
theorem statements (β : Mirror) (p : Program) (fuel : Nat) :
    β.Traces β.Flows (Program.trace p fuel) (Program.trace (recastAll β.recast p) fuel) :=
  execAllIn (β.applyIn fuel) fuel p

theorem expression (β : Mirror) (e : Expr) (fuel : Nat) :
    β.Runs β.Values (evaluate fuel e) (evaluate fuel (e.recast β.recast)) := by
  have h := (evalIn (β.applyIn fuel) e).runs
  rwa [Trace.forgets.evalIn, Trace.forgets.evalIn] at h

end Mirror

end Offside
