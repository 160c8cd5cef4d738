import Offside.Proofs.Run.Keeping
import Offside.Session

/-!
# Where a machine stands during a run

A machine runs in a frame and at a call depth. Calls change both while they last, and every run has
them back as they were when it ends (`SamePlace`).

To say what holds while a run lasts, the run is taken apart. It is made of smaller runs: of the
parts of an expression, of the statements of a body, of the body of a command that is called.
`Starts` says which runs a run goes into directly, and at which machine, as far as the same body is
concerned. `Reaches` follows them to any depth, also into the bodies of commands, and counts the
bodies that are entered and not yet left. The moments of a run are where the runs that it is made of
begin and end; they are there whether or not the run as a whole comes to an end.

* `Reaches.depth_eq`: the call depth at every moment.
* `Moment.finishWith_eq`: no call is missed. If commands were run differently at all calls that a
  run does not come to, the run would end in the same way.
-/

namespace Offside

open Run

/-! ## Places -/

/-- Two machines stand at the same place: in the same frame, and as deep in calls. -/
structure SamePlace (m m' : Machine) : Prop where
  current : m'.current = m.current
  depth : m'.depth = m.depth
  limit : m'.limit = m.limit

namespace SamePlace

variable {α : Type}

theorem refl (m : Machine) : SamePlace m m := ⟨rfl, rfl, rfl⟩

theorem trans {m₁ m₂ m₃ : Machine} (h : SamePlace m₁ m₂) (h' : SamePlace m₂ m₃) :
    SamePlace m₁ m₃ :=
  ⟨h'.current.trans h.current, h'.depth.trans h.depth, h'.limit.trans h.limit⟩

theorem declareIn (f : FrameId) (n : Name) (v : Value) : Keeps SamePlace (declareIn f n v) := by
  intro m m' hm
  unfold Run.declareIn at hm
  split at hm
  · cases hm
    exact .refl m
  · cases hm
    exact ⟨rfl, rfl, rfl⟩

theorem assign (n : Name) (v : Value) : Keeps SamePlace (assign n v) := by
  intro m m' hm
  unfold Run.assign at hm
  split at hm
  · cases hm
    exact .refl m
  · cases hm
    exact ⟨rfl, rfl, rfl⟩

theorem request (ask : Sink → Sink × Option SinkError) : Keeps SamePlace (request ask) := by
  intro m m' hm
  rw [machine?_request] at hm
  cases hm
  exact ⟨rfl, rfl, rfl⟩

theorem steady : Steady SamePlace where
  refl := refl
  trans := trans
  declare n v m := declareIn m.current n v m
  assign := assign
  closure d m m' hm := by
    cases hm
    exact ⟨rfl, rfl, rfl⟩
  request := request
  readClock m m' hm := by
    cases hm
    exact ⟨rfl, rfl, rfl⟩

theorem openFrame (home : FrameId) : Keeps SamePlace (openFrame home) := by
  intro m m' hm
  cases hm
  exact ⟨rfl, rfl, rfl⟩

theorem bindParams (f : FrameId) (ns : List Name) (vs : List Value) :
    Keeps SamePlace (bindParams f ns vs) := by
  induction ns generalizing vs with
  | nil => exact steady.pure ()
  | cons n ns ih =>
    cases vs with
    | nil => exact steady.pure ()
    | cons v vs =>
      rw [Run.bindParams]
      exact steady.bind (declareIn f n v) fun _ => ih vs

theorem inFrame (f : FrameId) {x : Run α} (hx : Keeps SamePlace x) :
    Keeps SamePlace (inFrame f x) := by
  intro m m' hm
  unfold Run.inFrame at hm
  simp only at hm
  cases hr : x { m with current := f } with
  | done a m₁ =>
    rw [hr] at hm
    cases hm
    have h := hx.done hr
    exact ⟨rfl, h.depth, h.limit⟩
  | failed e m₁ =>
    rw [hr] at hm
    cases hm
    have h := hx.failed hr
    exact ⟨rfl, h.depth, h.limit⟩
  | exhausted =>
    rw [hr] at hm
    cases hm

theorem nested {x : Run α} (hx : Keeps SamePlace x) : Keeps SamePlace (nested x) := by
  intro m m' hm
  unfold Run.nested at hm
  split_ifs at hm
  · cases hm
    exact .refl m
  · cases hr : x { m with depth := m.depth + 1 } with
    | done a m₁ =>
      rw [hr] at hm
      cases hm
      have h := hx.done hr
      exact ⟨h.current, by simp [h.depth], h.limit⟩
    | failed e m₁ =>
      rw [hr] at hm
      cases hm
      have h := hx.failed hr
      exact ⟨h.current, by simp [h.depth], h.limit⟩
    | exhausted =>
      rw [hr] at hm
      cases hm

theorem enter (d : Definition) (home : FrameId) (vs : List Value) (body : Run Flow)
    (hbody : Keeps SamePlace body) : Keeps SamePlace (enter d home vs body) :=
  steady.bind (openFrame home) fun f => steady.bind (bindParams f d.params vs) fun _ =>
    steady.bind (nested (inFrame f hbody)) fun _ => steady.pure _

theorem apply (fuel : Nat) (c : Command) (vs : List Value) : Keeps SamePlace (apply fuel c vs) :=
  apply_keeps steady enter fuel c vs

end SamePlace

/-! ## Tasks -/

/-- What a machine can be busy with. -/
inductive Task
  | expr (e : Expr)
  /-- The comparisons of a chain, from the operand `left` on. -/
  | chain (left : Expr) (links : List (Link Expr))
  | args (es : List Expr)
  | stmt (s : Stmt)
  | stmts (ss : List Stmt)
  /-- A loop that may still go round `n` times. -/
  | loop (test : Expr) (body : List Stmt) (n : Nat)
  | call (c : Command) (vs : List Value)
  /-- Parameters are bound in a new frame. -/
  | params (f : FrameId) (ns : List Name) (vs : List Value)

/-- The machine that a task leaves, if it ends. -/
def Task.finish (call : Handler) (fuel : Nat) (m : Machine) : Task → Option Machine
  | .expr e => (eval call e m).machine?
  | .chain left links => (evalChain call (eval call left) links m).machine?
  | .args es => (evalAll call es m).machine?
  | .stmt s => (exec call fuel s m).machine?
  | .stmts ss => (execAll call fuel ss m).machine?
  | .loop test body n => (iterate (eval call test) (execAll call fuel body) n m).machine?
  | .call c vs => (call c vs m).machine?
  | .params f ns vs => (bindParams f ns vs m).machine?

/-- The expression that a statement evaluates first. -/
def Stmt.operand? : Stmt → Option Expr
  | .init _ e | .set _ e | .condition e _ _ | .ret _ (some e) | .expression e => some e
  | _ => none

/-- Inside one body, a task that is begun at one machine goes into another task at another. -/
inductive Starts (call : Handler) (fuel : Nat) : Task → Machine → Task → Machine → Prop
  | inner {e m} : Starts call fuel (.expr (.group e)) m (.expr e) m
  | operand {op p e m} : Starts call fuel (.expr (.unary op p e)) m (.expr e) m
  | left {e op p e' m} : Starts call fuel (.expr (.binary e op p e')) m (.expr e) m
  | right {e op p e' m a m₁} (h : eval call e m = .done a m₁) :
      Starts call fuel (.expr (.binary e op p e')) m (.expr e') m₁
  | chain {e ls m} : Starts call fuel (.expr (.comparison e ls)) m (.chain e ls) m
  | chainLeft {e l ls m} : Starts call fuel (.chain e (l :: ls)) m (.expr e) m
  | chainRight {e l ls m a m₁} (h : eval call e m = .done a m₁) :
      Starts call fuel (.chain e (l :: ls)) m (.expr l.right) m₁
  | chainNext {e l ls m a m₁ b m₂ v} (h : eval call e m = .done a m₁)
      (h' : eval call l.right m₁ = .done b m₂) (hop : l.op.apply a b = .ok v)
      (hv : v.isTruthy = true) : Starts call fuel (.chain e (l :: ls)) m (.chain l.right ls) m₂
  | test {c e e' m} : Starts call fuel (.expr (.ternary c e e')) m (.expr c) m
  | choice {c e e' m v m₁} (h : eval call c m = .done v m₁) :
      Starts call fuel (.expr (.ternary c e e')) m (.expr (if v.isTruthy then e else e')) m₁
  | callArgs {n es m v m₁} (h : callee n m = .done v m₁) :
      Starts call fuel (.expr (.call n es)) m (.args es) m₁
  | call {n es m i c m₁ vs m₂} (h : callee n m = .done (.command i c) m₁)
      (h' : evalAll call es m₁ = .done vs m₂) (ha : c.arity.accepts vs.length = true) :
      Starts call fuel (.expr (.call n es)) m (.call c vs) m₂
  | arg {e es m} : Starts call fuel (.args (e :: es)) m (.expr e) m
  | argsNext {e es m v m₁} (h : eval call e m = .done v m₁) :
      Starts call fuel (.args (e :: es)) m (.args es) m₁
  | value {s e m} (hs : s.operand? = some e) : Starts call fuel (.stmt s) m (.expr e) m
  | thenBody {e b o m v m₁} (h : eval call e m = .done v m₁) (hv : v.isTruthy = true) :
      Starts call fuel (.stmt (.condition e b o)) m (.stmts b) m₁
  | elseBody {e b o m v m₁} (h : eval call e m = .done v m₁) (hv : v.isTruthy = false) :
      Starts call fuel (.stmt (.condition e b (some o))) m (.stmts o) m₁
  | loop {e b m} : Starts call fuel (.stmt (.loop e b)) m (.loop e b fuel) m
  | loopTest {e b n m} : Starts call fuel (.loop e b (n + 1)) m (.expr e) m
  | loopBody {e b n m v m₁} (h : eval call e m = .done v m₁) (hv : v.isTruthy = true) :
      Starts call fuel (.loop e b (n + 1)) m (.stmts b) m₁
  | loopNext {e b n m v m₁ m₂} (h : eval call e m = .done v m₁) (hv : v.isTruthy = true)
      (h' : execAll call fuel b m₁ = .done .normal m₂) :
      Starts call fuel (.loop e b (n + 1)) m (.loop e b n) m₂
  | body {ss m} : Starts call fuel (.stmt (.body ss)) m (.stmts ss) m
  | head {s ss m} : Starts call fuel (.stmts (s :: ss)) m (.stmt s) m
  | tail {s ss m m₁} (h : exec call fuel s m = .done .normal m₁) :
      Starts call fuel (.stmts (s :: ss)) m (.stmts ss) m₁
  | params {d home args m f m₁} (h : openFrame home m = .done f m₁) :
      Starts call fuel (.call (.defined d home) args) m (.params f d.params args) m₁

/-- A machine that is about to run a task, with the fuel it is granted. -/
structure Moment where
  fuel : Nat
  task : Task
  machine : Machine

/-- The machine that the task of a moment leaves, if it ends, with handlers for each fuel. -/
def Moment.finishWith (h : Nat → Handler) (a : Moment) : Option Machine :=
  a.task.finish (h a.fuel) a.fuel a.machine

def Moment.finish (a : Moment) : Option Machine := a.finishWith apply

/-- The machine in which the body of a command runs, once its parameters are bound in `f`. -/
def Machine.entering (m : Machine) (f : FrameId) : Machine :=
  { m with current := f, depth := m.depth + 1 }

/-- The run from one moment on comes to another, where `n` bodies of commands that were entered on
the way are still running. -/
inductive Reaches : Moment → Nat → Moment → Prop
  | here {a} : Reaches a 0 a
  | inside {fuel t m t₁ m₁ n b} (h : Starts (apply fuel) fuel t m t₁ m₁)
      (hr : Reaches ⟨fuel, t₁, m₁⟩ n b) : Reaches ⟨fuel, t, m⟩ n b
  | enter {fuel d home args m f m₁ u m₂ n b} (hf : openFrame home m = .done f m₁)
      (hp : bindParams f d.params args m₁ = .done u m₂) (hlimit : m₂.depth < m₂.limit)
      (hr : Reaches ⟨fuel, .stmts d.body, m₂.entering f⟩ n b) :
      Reaches ⟨fuel + 1, .call (.defined d home) args, m⟩ (n + 1) b

section place

variable {call : Handler} (hcall : ∀ c vs, Keeps SamePlace (call c vs)) {fuel : Nat}
  {m m' : Machine}

include hcall

theorem Task.finish_samePlace {t : Task} (h : m' ∈ t.finish call fuel m) : SamePlace m m' := by
  have heval := eval_keeps SamePlace.steady hcall
  have hexec := execAll_keeps SamePlace.steady hcall fuel
  cases t with
  | expr e => exact heval e m m' h
  | chain left links => exact evalChain_keeps SamePlace.steady hcall (heval left) links m m' h
  | args es => exact evalAll_keeps SamePlace.steady hcall es m m' h
  | stmt s => exact exec_keeps SamePlace.steady hcall fuel s m m' h
  | stmts ss => exact hexec ss m m' h
  | loop test body n => exact iterate_keeps SamePlace.steady (heval test) (hexec body) n m m' h
  | call c vs => exact hcall c vs m m' h
  | params f ns vs => exact SamePlace.bindParams f ns vs m m' h

theorem Starts.samePlace {t t' : Task} (h : Starts call fuel t m t' m') : SamePlace m m' := by
  have heval := eval_keeps SamePlace.steady hcall
  have hexec := execAll_keeps SamePlace.steady hcall fuel
  cases h with
  | inner | operand | left | chain | chainLeft | test | arg | value | loop | loopTest | body
  | head => exact .refl m
  | right h => exact (heval _).done h
  | chainRight h => exact (heval _).done h
  | chainNext h h' => exact ((heval _).done h).trans ((heval _).done h')
  | choice h => exact (heval _).done h
  | callArgs h => exact (SamePlace.steady.callee _).done h
  | call h h' =>
    have hargs := evalAll_keeps SamePlace.steady hcall
    exact ((SamePlace.steady.callee _).done h).trans ((hargs _).done h')
  | argsNext h => exact (heval _).done h
  | thenBody h => exact (heval _).done h
  | elseBody h => exact (heval _).done h
  | loopBody h => exact (heval _).done h
  | loopNext h hv h' => exact ((heval _).done h).trans ((hexec _).done h')
  | tail h => exact (exec_keeps SamePlace.steady hcall fuel _).done h
  | params h => exact (SamePlace.openFrame _).done h

end place

/-- At every moment the depth is the depth at the start and the number of bodies running, and it
stays within the limit. -/
theorem Reaches.depth_eq {a b : Moment} {n : Nat} (h : Reaches a n b)
    (ha : a.machine.depth ≤ a.machine.limit) :
    b.machine.depth = a.machine.depth + n ∧ b.machine.limit = a.machine.limit ∧
      b.machine.depth ≤ b.machine.limit := by
  induction h with
  | here => exact ⟨rfl, rfl, ha⟩
  | @inside fuel t m t₁ m₁ n b h hr ih =>
    have hplace := h.samePlace (SamePlace.apply fuel)
    simp only at ha ih
    rw [hplace.depth, hplace.limit] at ih
    exact ih ha
  | @enter fuel d home args m f m₁ u m₂ n b hf hp hlimit hr ih =>
    have hplace := ((SamePlace.openFrame _).done hf).trans ((SamePlace.bindParams _ _ _).done hp)
    simp only [Machine.entering] at ih
    -- the limit is checked before the depth goes up, so the body begins within it
    rw [hplace.depth, hplace.limit] at ih hlimit
    obtain ⟨hdepth, hlim, hle⟩ := ih hlimit
    refine ⟨?_, hlim, hle⟩
    show b.machine.depth = m.depth + (n + 1)
    omega

/-! ## No call is missed -/

/-- A task goes into another one, directly or through others, inside one body. -/
inductive Inside (call : Handler) (fuel : Nat) : Task → Machine → Task → Machine → Prop
  | here {t m} : Inside call fuel t m t m
  | step {t m t₁ m₁ t' m'} (h : Starts call fuel t m t₁ m₁) (hr : Inside call fuel t₁ m₁ t' m') :
      Inside call fuel t m t' m'

/-- Two handlers do the same at all calls that a task makes with the first. -/
def Agree (call call' : Handler) (fuel : Nat) (t : Task) (m : Machine) : Prop :=
  ∀ c vs m', Inside call fuel t m (.call c vs) m' → call' c vs m' = call c vs m'

theorem Agree.starts {call call' : Handler} {fuel : Nat} {t t₁ : Task} {m m₁ : Machine}
    (h : Agree call call' fuel t m) (hs : Starts call fuel t m t₁ m₁) :
    Agree call call' fuel t₁ m₁ :=
  fun c vs m' hin => h c vs m' (.step hs hin)

theorem bind_congr {α β : Type} {x x' : Run α} {f f' : α → Run β} {m : Machine} (hx : x' m = x m)
    (hf : ∀ a m₁, x m = .done a m₁ → f' a m₁ = f a m₁) : (x' >>= f') m = (x >>= f) m := by
  show Run.bind x' f' m = Run.bind x f m
  unfold Run.bind
  rw [hx]
  cases h : x m with
  | done a m₁ => exact hf a m₁ h
  | failed e m₁ => rfl
  | exhausted => rfl

theorem ofExcept_eq_done {α : Type} {pos : Option Position} {r : Except RuntimeError.Cause α}
    {a : α} {m m' : Machine} (h : ofExcept pos r m = .done a m') : r = .ok a ∧ m' = m := by
  cases r with
  | ok b =>
    cases h
    exact ⟨rfl, rfl⟩
  | error cause => cases h

section congr

variable {call call' : Handler} {fuel : Nat}

theorem invoke_congr {n : Name} {v : Value} {vs : List Value} {m : Machine}
    (h : ∀ i c, v = .command i c → c.arity.accepts vs.length = true → call' c vs m = call c vs m) :
    invoke call' n v vs m = invoke call n v vs m := by
  cases v with
  | command i c =>
    unfold invoke
    simp only
    split_ifs with ha
    · unfold located
      rw [h i c rfl ha]
    · rfl
  | _ => rfl

mutual

theorem eval_congr : ∀ (e : Expr) {m : Machine}, Agree call call' fuel (.expr e) m →
    eval call' e m = eval call e m
  | .literal _, _, _ => rfl
  | .name _ _, _, _ => rfl
  | .group inner, _, h => eval_congr inner (h.starts .inner)
  | .unary _ _ right, _, h => bind_congr (eval_congr right (h.starts .operand)) fun _ _ _ => rfl
  | .binary left _ _ right, _, h =>
    bind_congr (eval_congr left (h.starts .left)) fun _ _ hl =>
      bind_congr (eval_congr right (h.starts (.right hl))) fun _ _ _ => rfl
  | .comparison first links, _, h =>
    evalChain_congr (fun _ => eval_congr first) links (h.starts .chain)
  | .ternary condition left right, _, h => by
    refine bind_congr (eval_congr condition (h.starts .test)) fun v m₁ hc => ?_
    have hchoice := h.starts (.choice hc)
    split_ifs with hv
    · rw [if_pos hv] at hchoice
      exact eval_congr left hchoice
    · rw [if_neg hv] at hchoice
      exact eval_congr right hchoice
  | .call n args, _, h => by
    refine bind_congr rfl fun v m₁ hn => ?_
    refine bind_congr (evalAll_congr args (h.starts (.callArgs hn))) fun vs m₂ hargs => ?_
    refine invoke_congr fun i c hv ha => ?_
    subst hv
    -- this is a call that the run comes to
    exact h c vs m₂ (.step (.call hn hargs ha) .here)

theorem evalChain_congr {left : Expr}
    (hleft : ∀ m, Agree call call' fuel (.expr left) m → eval call' left m = eval call left m) :
    ∀ (links : List (Link Expr)) {m : Machine}, Agree call call' fuel (.chain left links) m →
      evalChain call' (eval call' left) links m = evalChain call (eval call left) links m
  | [], _, _ => rfl
  | ⟨op, p, right⟩ :: rest, _, h => by
    refine bind_congr (hleft _ (h.starts .chainLeft)) fun a m₁ ha => ?_
    refine bind_congr (eval_congr right (h.starts (.chainRight ha))) fun b m₂ hb => ?_
    refine bind_congr rfl fun v m₃ hop => ?_
    obtain ⟨hv, rfl⟩ := ofExcept_eq_done hop
    split_ifs with htrue
    · exact evalChain_congr (fun _ => eval_congr right) rest (h.starts (.chainNext ha hb hv htrue))
    · rfl

theorem evalAll_congr : ∀ (es : List Expr) {m : Machine}, Agree call call' fuel (.args es) m →
    evalAll call' es m = evalAll call es m
  | [], _, _ => rfl
  | e :: es, _, h =>
    bind_congr (eval_congr e (h.starts .arg)) fun _ _ he =>
      bind_congr (evalAll_congr es (h.starts (.argsNext he))) fun _ _ _ => rfl

end

theorem iterate_congr {e : Expr} {b : List Stmt}
    (he : ∀ m, Agree call call' fuel (.expr e) m → eval call' e m = eval call e m)
    (hb : ∀ m, Agree call call' fuel (.stmts b) m → execAll call' fuel b m = execAll call fuel b m)
    (n : Nat) {m : Machine} (h : Agree call call' fuel (.loop e b n) m) :
    iterate (eval call' e) (execAll call' fuel b) n m =
      iterate (eval call e) (execAll call fuel b) n m := by
  induction n generalizing m with
  | zero => rfl
  | succ n ih =>
    rw [iterate_succ, iterate_succ]
    refine bind_congr (he m (h.starts .loopTest)) fun v m₁ hv => ?_
    split_ifs with htrue
    · refine bind_congr (hb m₁ (h.starts (.loopBody hv htrue))) fun flow m₂ hflow => ?_
      cases flow with
      | normal => exact ih (h.starts (.loopNext hv htrue hflow))
      | returned v => rfl
    · rfl

mutual

theorem exec_congr : ∀ (s : Stmt) {m : Machine}, Agree call call' fuel (.stmt s) m →
    exec call' fuel s m = exec call fuel s m
  | .init _ e, _, h => bind_congr (eval_congr e (h.starts (.value rfl))) fun _ _ _ => rfl
  | .set _ e, _, h => bind_congr (eval_congr e (h.starts (.value rfl))) fun _ _ _ => rfl
  | .condition test thenBody none, _, h => by
    refine bind_congr (eval_congr test (h.starts (.value rfl))) fun v m₁ hv => ?_
    split_ifs with htrue
    · exact execAll_congr thenBody (h.starts (.thenBody hv htrue))
    · rfl
  | .condition test thenBody (some elseBody), _, h => by
    refine bind_congr (eval_congr test (h.starts (.value rfl))) fun v m₁ hv => ?_
    split_ifs with htrue
    · exact execAll_congr thenBody (h.starts (.thenBody hv htrue))
    · exact execAll_congr elseBody (h.starts (.elseBody hv (Bool.eq_false_iff.mpr htrue)))
  | .loop test body, _, h =>
    iterate_congr (fun _ => eval_congr test) (fun _ => execAll_congr body) fuel (h.starts .loop)
  | .definition _ _ _, _, _ => rfl
  | .ret _ none, _, _ => rfl
  | .ret _ (some e), _, h => bind_congr (eval_congr e (h.starts (.value rfl))) fun _ _ _ => rfl
  | .expression e, _, h => bind_congr (eval_congr e (h.starts (.value rfl))) fun _ _ _ => rfl
  | .body stmts, _, h => execAll_congr stmts (h.starts .body)
  | .pass, _, _ => rfl

theorem execAll_congr : ∀ (ss : List Stmt) {m : Machine}, Agree call call' fuel (.stmts ss) m →
    execAll call' fuel ss m = execAll call fuel ss m
  | [], _, _ => rfl
  | s :: rest, m, h => by
    rw [execAll_cons, execAll_cons]
    refine bind_congr (exec_congr s (h.starts .head)) fun flow m₁ hs => ?_
    cases flow with
    | normal => exact execAll_congr rest (h.starts (.tail hs))
    | returned v => rfl

end

theorem Task.finish_congr {t : Task} {m : Machine} (h : Agree call call' fuel t m) :
    t.finish call' fuel m = t.finish call fuel m := by
  cases t with
  | expr e => exact congrArg Outcome.machine? (eval_congr e h)
  | chain left links =>
    have hchain := evalChain_congr (fun _ => eval_congr left) links h
    exact congrArg Outcome.machine? hchain
  | args es => exact congrArg Outcome.machine? (evalAll_congr es h)
  | stmt s => exact congrArg Outcome.machine? (exec_congr s h)
  | stmts ss => exact congrArg Outcome.machine? (execAll_congr ss h)
  | loop test body n =>
    have hloop := iterate_congr (fun _ => eval_congr test) (fun _ => execAll_congr body) n h
    exact congrArg Outcome.machine? hloop
  | call c vs => exact congrArg Outcome.machine? (h c vs m .here)
  | params f ns vs => rfl

end congr

theorem enter_congr {d : Definition} {home : FrameId} {vs : List Value} {body body' : Run Flow}
    {m : Machine} (h : ∀ f m₁ u m₂, openFrame home m = .done f m₁ →
      bindParams f d.params vs m₁ = .done u m₂ → m₂.depth < m₂.limit →
      body' (m₂.entering f) = body (m₂.entering f)) :
    enter d home vs body' m = enter d home vs body m := by
  refine bind_congr rfl fun f m₁ hf => bind_congr rfl fun u m₂ hp => ?_
  refine bind_congr ?_ fun _ _ _ => rfl
  unfold nested inFrame
  split_ifs with hlimit
  · rfl
  · have hbody := h f m₁ u m₂ hf hp (by omega)
    unfold Machine.entering at hbody
    rw [hbody]

theorem Reaches.trans {a b c : Moment} {n k : Nat} (h : Reaches a n b) (h' : Reaches b k c) :
    Reaches a (k + n) c := by
  induction h with
  | here => exact h'
  | inside hs hr ih => exact .inside hs (ih h')
  | enter hf hp hlimit hr ih => exact .enter hf hp hlimit (ih h')

theorem Inside.reaches {fuel : Nat} {t t' : Task} {m m' : Machine}
    (h : Inside (apply fuel) fuel t m t' m') : Reaches ⟨fuel, t, m⟩ 0 ⟨fuel, t', m'⟩ := by
  induction h with
  | here => exact .here
  | step h hr ih => exact .inside h ih

/-- A command is run as `apply` runs it, where the calls in its body are left to the handler for
less fuel. -/
def applyWith (h : Nat → Handler) : Nat → Handler
  | _, .native n, vs => n.run vs
  | 0, .defined _ _, _ => exhaust
  | fuel + 1, .defined d home, vs => enter d home vs (execAll (h fuel) fuel d.body)

/-- The handlers run commands as `apply` does at the calls that a run comes to. -/
def RunsLikeApply (h : Nat → Handler) (a : Moment) : Prop :=
  ∀ n fuel c vs m, Reaches a n ⟨fuel, .call c vs, m⟩ → h fuel c vs m = applyWith h fuel c vs m

theorem RunsLikeApply.of_reaches {h : Nat → Handler} {a b : Moment} {n : Nat}
    (ha : RunsLikeApply h a) (hr : Reaches a n b) : RunsLikeApply h b :=
  fun k fuel c vs m hb => ha (k + n) fuel c vs m (hr.trans hb)

theorem RunsLikeApply.agree {h : Nat → Handler} {fuel : Nat} {t : Task} {m : Machine}
    (ha : RunsLikeApply h ⟨fuel, t, m⟩) : Agree (apply fuel) (h fuel) fuel t m := by
  -- the body of a command runs on less fuel than the call of it
  induction fuel generalizing t m with
  | zero =>
    intro c vs m' hin
    rw [ha 0 0 c vs m' hin.reaches]
    cases c <;> rfl
  | succ fuel ih =>
    intro c vs m' hin
    have hcall := hin.reaches
    rw [ha 0 (fuel + 1) c vs m' hcall]
    cases c with
    | native k => rfl
    | defined d home =>
      refine enter_congr fun f m₁ u m₂ hf hp hlimit => execAll_congr d.body (ih ?_)
      exact (ha.of_reaches hcall).of_reaches (.enter hf hp hlimit .here)

/-- Handlers that run commands as `apply` does at the calls that a run comes to make no difference
to it, whatever they do elsewhere. -/
theorem Moment.finishWith_eq {h : Nat → Handler} {a : Moment} (ha : RunsLikeApply h a) :
    a.finishWith h = a.finish :=
  Task.finish_congr ha.agree

/-! ## Jobs -/

/-- What a machine can be asked to do. -/
inductive Job
  | program (p : Program)
  | expression (e : Expr)
  /-- Statements in a frame. -/
  | block (f : FrameId) (ss : List Stmt)

namespace Job

def finish (fuel : Nat) (m : Machine) : Job → Option Machine
  | program p => (interpret fuel p m).machine?
  | expression e => (evaluate fuel e m).machine?
  | block f ss => (runBlock fuel f ss m).machine?

def start (fuel : Nat) (m : Machine) : Job → Moment
  | program p => ⟨fuel, .stmts p, m⟩
  | expression e => ⟨fuel, .expr e, m⟩
  | block f ss => ⟨fuel, .stmts ss, { m with current := f }⟩

theorem finish_samePlace {j : Job} {fuel : Nat} {m m' : Machine} (h : m' ∈ j.finish fuel m) :
    SamePlace m m' := by
  have hcall := SamePlace.apply fuel
  cases j with
  | program p => exact interpret_keeps SamePlace.steady SamePlace.enter fuel p m m' h
  | expression e => exact eval_keeps SamePlace.steady hcall e m m' h
  | block f ss =>
    exact SamePlace.inFrame f (execAll_keeps SamePlace.steady hcall fuel ss) m m' h

theorem start_depth (j : Job) (fuel : Nat) (m : Machine) :
    (j.start fuel m).machine.depth = m.depth ∧ (j.start fuel m).machine.limit = m.limit := by
  cases j <;> exact ⟨rfl, rfl⟩

end Job

/-- **The place of a machine.** However a job ends, the machine is in the frame and at the depth it
was in before. At every moment of the job, where a run that it is made of begins or ends, the depth
is the depth before and the number of commands whose bodies are running, and it does not exceed the
limit. These are all the moments: how commands would run at other calls does not matter. -/
theorem job_place (j : Job) (fuel : Nat) (m : Machine) (hm : m.depth ≤ m.limit) :
    (∀ m' ∈ j.finish fuel m, m'.current = m.current ∧ m'.depth = m.depth) ∧
    (∀ n b, Reaches (j.start fuel m) n b →
      (b.machine.depth = m.depth + n ∧ b.machine.depth ≤ m.limit) ∧
      ∀ m' ∈ b.finish, m'.depth = m.depth + n ∧ m'.depth ≤ m.limit) ∧
    ∀ h, RunsLikeApply h (j.start fuel m) →
      (j.start fuel m).finishWith h = (j.start fuel m).finish := by
  refine ⟨fun m' hm' => ?_, fun n b h => ?_, fun h hh => Moment.finishWith_eq hh⟩
  · have hplace := Job.finish_samePlace hm'
    exact ⟨hplace.current, hplace.depth⟩
  · obtain ⟨hd, hl⟩ := j.start_depth fuel m
    have hdepth := h.depth_eq (by omega)
    rw [hd, hl] at hdepth
    obtain ⟨hb, hlimit, hle⟩ := hdepth
    refine ⟨⟨hb, by omega⟩, fun m' hm' => ?_⟩
    have hplace := Task.finish_samePlace (SamePlace.apply b.fuel) hm'
    have hend := hplace.depth
    omega

/-- A command whose body does nothing. -/
def idle : Value := .command 0 (.defined ⟨⟨"F", .start⟩, [], [.pass]⟩ 0)

/-- A machine that knows one command, and may call it but not from itself. -/
def single : Machine := .launch [("F", idle)] 1 1 .unlimited fun _ => 0

/-- The body of a command is reached one call deeper. -/
theorem job_place_single :
    ∃ b, Reaches ((Job.expression (.call ⟨"F", .start⟩ [])).start 1 single) 1 b ∧
      b.machine.depth = single.depth + 1 ∧ b.machine.depth ≤ single.limit := by
  have hframe : single.store.frames[single.current]? = some ⟨none, [("F", idle)]⟩ := rfl
  have hget : single.store.get? single.current "F" = some idle := by
    rw [Store.get?, Store.resolve]
    simp [hframe, Frame.binds, Frame.get?, Store.local?]
  have hcallee : callee ⟨"F", .start⟩ single = .done idle single := by
    simp only [callee, lookup?, Bind.bind, Run.bind, hget]
    rfl
  have hreaches : ∃ b, Reaches ((Job.expression (.call ⟨"F", .start⟩ [])).start 1 single) 1 b :=
    ⟨_, .inside (.call hcallee rfl rfl) (.enter rfl rfl (by decide) .here)⟩
  obtain ⟨b, hb⟩ := hreaches
  exact ⟨b, hb, ((job_place _ 1 single (by decide)).2.1 1 b hb).1⟩

end Offside
