import Offside.Proofs.Run.Moments
import Offside.Proofs.Run.Judgement
import Offside.Proofs.Run.Frames

/-!
# Where errors come from

An error ends everything that is running: the run in which it arises, the run that this one is part
of, and so on outwards. On the way it may be given a position, once, by the call that it comes out
of; from there on it stays as it is.

* `Reaches.stop?`: an error at any moment of a run, however deep in calls, is the error of the run,
  unless the run has not enough fuel for the calls it makes.
* `Moment.raised`: the other way round, every error of a run is raised at some moment of it
  (`Moment.Raises`): by an operation at a position of its own, by a built-in command, or by a call
  that would go too deep; in the last two cases its position is that of the call.
-/

namespace Offside

open Run

/-! ## Runs that stop short -/

namespace Outcome

variable {α : Type}

/-- What keeps a run from a result: an error, or want of fuel. -/
def stop? : Outcome α → Option (Option RuntimeError)
  | done _ _ => none
  | failed e _ => some (some e)
  | exhausted => some none

theorem stop?_eq_error {o : Outcome α} {e : RuntimeError} :
    o.stop? = some (some e) ↔ ∃ m, o = .failed e m := by
  cases o <;> simp [stop?]

theorem stop?_eq_exhausted {o : Outcome α} : o.stop? = some none ↔ o = .exhausted := by
  cases o <;> simp [stop?]

end Outcome

section steps

variable {α β : Type} {m : Machine} {r : Option RuntimeError}

theorem bind_stop? {x : Run α} {f : α → Run β} :
    ((x >>= f) m).stop? = some r ↔
      (x m).stop? = some r ∨ ∃ a m₁, x m = .done a m₁ ∧ (f a m₁).stop? = some r := by
  show (Run.bind x f m).stop? = some r ↔ _
  unfold Run.bind
  cases x m with
  | done a m₁ =>
    simp only [Outcome.stop?, reduceCtorEq, false_or]
    constructor
    · exact fun h => ⟨a, m₁, rfl, h⟩
    · rintro ⟨_, _, ⟨⟩, h⟩
      exact h
  | failed e m₁ => simp [Outcome.stop?]
  | exhausted => simp [Outcome.stop?]

theorem located_stop? {x : Run α} (p : Position) :
    (located p x m).stop? = (x m).stop?.map fun r => r.map (RuntimeError.within · p) := by
  unfold located
  cases x m <;> rfl

theorem onMachine_stop? {o : Outcome α} (g : Machine → Machine) :
    (o.onMachine g).stop? = o.stop? := by
  cases o <;> rfl

end steps

/-- What keeps a task from its end: an error, or want of fuel. -/
def Task.stop? (call : Handler) (fuel : Nat) (m : Machine) : Task → Option (Option RuntimeError)
  | .expr e => (eval call e m).stop?
  | .chain left links => (evalChain call (eval call left) links m).stop?
  | .args es => (evalAll call es m).stop?
  | .stmt s => (exec call fuel s m).stop?
  | .stmts ss => (execAll call fuel ss m).stop?
  | .loop test body n => (iterate (eval call test) (execAll call fuel body) n m).stop?
  | .call c vs => (call c vs m).stop?
  | .params f ns vs => (bindParams f ns vs m).stop?

def Moment.stop? (a : Moment) : Option (Option RuntimeError) :=
  a.task.stop? (apply a.fuel) a.fuel a.machine

def Moment.FailsWith (a : Moment) (e : RuntimeError) : Prop := a.stop? = some (some e)

/-! ## Outwards -/

/-- What stops a run, as seen further outwards. An error keeps its cause, and its position if it has
one. -/
inductive Outward : Option RuntimeError → Option RuntimeError → Prop
  | exhausted {r} : Outward r none
  | failed {e e' : RuntimeError} (hcause : e'.cause = e.cause)
      (hpos : ∀ p, e.pos = some p → e'.pos = some p) : Outward (some e) (some e')

namespace Outward

theorem refl (r : Option RuntimeError) : Outward r r := by
  cases r with
  | none => exact .exhausted
  | some e => exact .failed rfl fun _ h => h

theorem trans {r₁ r₂ r₃ : Option RuntimeError} (h : Outward r₁ r₂) (h' : Outward r₂ r₃) :
    Outward r₁ r₃ := by
  cases h' with
  | exhausted => exact .exhausted
  | failed hcause' hpos' =>
    cases h with
    | failed hcause hpos =>
      exact .failed (hcause'.trans hcause) fun p hp => hpos' p (hpos p hp)

theorem within (r : Option RuntimeError) (p : Position) :
    Outward r (r.map (RuntimeError.within · p)) := by
  cases r with
  | none => exact .exhausted
  | some e =>
    refine .failed rfl fun q hq => ?_
    show (e.pos <|> some p) = some q
    rw [hq]
    rfl

theorem eq_of_pos {e e' : RuntimeError} {p : Position} (h : Outward (some e) (some e'))
    (hp : e.pos = some p) : e' = e := by
  cases h with
  | failed hcause hpos =>
    have hpos' := hpos p hp
    cases e with
    | mk cause pos =>
      cases e' with
      | mk cause' pos' =>
        simp only at hcause hp hpos'
        rw [hcause, hpos', hp]

end Outward

theorem invoke_command (call : Handler) (n : Name) (i : Nat) (c : Command) (vs : List Value) :
    invoke call n (.command i c) vs =
      if c.arity.accepts vs.length then located n.pos (call c vs)
      else fail (.arityMismatch c.arity vs.length) (some n.pos) := rfl

theorem invoke_stop? {call : Handler} {n : Name} {i : Nat} {c : Command} {vs : List Value}
    {m : Machine} (ha : c.arity.accepts vs.length = true) :
    (invoke call n (.command i c) vs m).stop? =
      (call c vs m).stop?.map fun r => r.map (RuntimeError.within · n.pos) := by
  rw [invoke_command, if_pos ha, located_stop?]

/-- A declared command is stopped while its parameters are bound, by the limit on call depth, or in
its body. -/
theorem enter_stop? {d : Definition} {home f : FrameId} {vs : List Value} {body : Run Flow}
    {m m₁ : Machine} {r : Option RuntimeError} (hf : openFrame home m = .done f m₁) :
    (enter d home vs body m).stop? = some r ↔
      (bindParams f d.params vs m₁).stop? = some r ∨
      ∃ u m₂, bindParams f d.params vs m₁ = .done u m₂ ∧
        if m₂.depth < m₂.limit then (body (m₂.entering f)).stop? = some r
        else r = some ⟨.recursionLimit m₂.limit, none⟩ := by
  have hnested : ∀ m₂ : Machine, (nested (inFrame f body) m₂).stop? = some r ↔
      if m₂.depth < m₂.limit then (body (m₂.entering f)).stop? = some r
      else r = some ⟨.recursionLimit m₂.limit, none⟩ := by
    intro m₂
    split_ifs with hlimit
    · rw [nested_apply _ hlimit, onMachine_stop?, inFrame_apply, onMachine_stop?]
      rfl
    · rw [nested_limit _ (by omega), Outcome.stop?, Option.some_inj]
      exact eq_comm
  constructor
  · intro h
    rcases bind_stop?.mp h with h | ⟨f', m', hf', h⟩
    · rw [hf] at h
      cases h
    · rw [hf] at hf'
      cases hf'
      rcases bind_stop?.mp h with h | ⟨u, m₂, hp, h⟩
      · exact .inl h
      · rcases bind_stop?.mp h with h | ⟨flow, m₃, -, h⟩
        · exact .inr ⟨u, m₂, hp, (hnested m₂).mp h⟩
        · cases h
  · intro h
    refine bind_stop?.mpr (.inr ⟨f, m₁, hf, ?_⟩)
    rcases h with h | ⟨u, m₂, hp, h⟩
    · exact bind_stop?.mpr (.inl h)
    · exact bind_stop?.mpr (.inr ⟨u, m₂, hp, bind_stop?.mpr (.inl ((hnested m₂).mpr h))⟩)

theorem Starts.stop? {fuel : Nat} {t t₁ : Task} {m m₁ : Machine} {r : Option RuntimeError}
    (h : Starts (apply fuel) fuel t m t₁ m₁) (hr : t₁.stop? (apply fuel) fuel m₁ = some r) :
    ∃ r', t.stop? (apply fuel) fuel m = some r' ∧ Outward r r' := by
  have hsame : ∀ {t : Task}, t.stop? (apply fuel) fuel m = some r →
      ∃ r', t.stop? (apply fuel) fuel m = some r' ∧ Outward r r' := fun h => ⟨r, h, .refl r⟩
  cases h with
  | inner | chain | loop | body => exact hsame hr
  | operand | left | test | arg | chainLeft => exact hsame (bind_stop?.mpr (.inl hr))
  | right h | chainRight h | callArgs h | argsNext h =>
    exact hsame (bind_stop?.mpr (.inr ⟨_, _, h, bind_stop?.mpr (.inl hr)⟩))
  | chainNext h h' hop hv =>
    refine hsame (bind_stop?.mpr (.inr ⟨_, _, h, bind_stop?.mpr (.inr ⟨_, _, h', ?_⟩)⟩))
    refine bind_stop?.mpr (.inr ⟨_, _, by rw [hop]; rfl, ?_⟩)
    rw [if_pos hv]
    exact hr
  | choice h =>
    refine hsame (bind_stop?.mpr (.inr ⟨_, _, h, ?_⟩))
    split_ifs at hr ⊢ <;> exact hr
  | @call n es m i c m₁ vs m₂ h h' ha =>
    -- the one place where a position is added
    refine ⟨r.map (RuntimeError.within · n.pos), ?_, .within r n.pos⟩
    refine bind_stop?.mpr (.inr ⟨_, _, h, bind_stop?.mpr (.inr ⟨_, _, h', ?_⟩)⟩)
    rw [invoke_stop? ha]
    exact congrArg _ hr
  | @value s e m hs =>
    cases s with
    | init | set | expression =>
      cases hs
      exact hsame (bind_stop?.mpr (.inl hr))
    | condition test thenBody elseBody =>
      cases hs
      cases elseBody <;> exact hsame (bind_stop?.mpr (.inl hr))
    | ret p value =>
      cases value with
      | none => cases hs
      | some e =>
        cases hs
        exact hsame (bind_stop?.mpr (.inl hr))
    | loop | definition | body | pass => cases hs
  | @thenBody e b o m v m₁ h hv =>
    have hthen : ∀ x : Run Flow, ((if v.isTruthy then execAll (apply fuel) fuel b else x) m₁).stop?
        = some r := by
      intro x
      rw [if_pos hv]
      exact hr
    cases o <;> exact hsame (bind_stop?.mpr (.inr ⟨_, _, h, hthen _⟩))
  | elseBody h hv =>
    refine hsame (bind_stop?.mpr (.inr ⟨_, _, h, ?_⟩))
    rw [if_neg (by simp [hv])]
    exact hr
  | loopTest =>
    refine hsame ?_
    rw [Task.stop?, iterate_succ]
    exact bind_stop?.mpr (.inl hr)
  | loopBody h hv =>
    refine hsame ?_
    rw [Task.stop?, iterate_succ]
    refine bind_stop?.mpr (.inr ⟨_, _, h, ?_⟩)
    rw [if_pos hv]
    exact bind_stop?.mpr (.inl hr)
  | loopNext h hv h' =>
    refine hsame ?_
    rw [Task.stop?, iterate_succ]
    refine bind_stop?.mpr (.inr ⟨_, _, h, ?_⟩)
    rw [if_pos hv]
    exact bind_stop?.mpr (.inr ⟨_, _, h', hr⟩)
  | head =>
    refine hsame ?_
    rw [Task.stop?, execAll_cons]
    exact bind_stop?.mpr (.inl hr)
  | tail h =>
    refine hsame ?_
    rw [Task.stop?, execAll_cons]
    exact bind_stop?.mpr (.inr ⟨_, _, h, hr⟩)
  | params h =>
    cases fuel with
    | zero => exact ⟨none, rfl, .exhausted⟩
    | succ fuel => exact ⟨r, (enter_stop? h).mpr (.inl hr), .refl r⟩

/-- What stops a run at any moment of another stops that one. -/
theorem Reaches.stop? {a b : Moment} {n : Nat} {r : Option RuntimeError} (h : Reaches a n b)
    (hb : b.stop? = some r) : ∃ r', a.stop? = some r' ∧ Outward r r' := by
  induction h with
  | here => exact ⟨r, hb, .refl r⟩
  | inside h hr ih =>
    obtain ⟨r₁, hr₁, hout⟩ := ih hb
    obtain ⟨r₂, hr₂, hout'⟩ := h.stop? hr₁
    exact ⟨r₂, hr₂, hout.trans hout'⟩
  | enter hf hp hlimit hr ih =>
    obtain ⟨r₁, hr₁, hout⟩ := ih hb
    refine ⟨r₁, (enter_stop? hf).mpr (.inr ⟨_, _, hp, ?_⟩), hout⟩
    rw [if_pos hlimit]
    exact hr₁

/-! ## Back to the start -/

/-- Whether an error is about output. -/
def RuntimeError.Cause.aboutOutput : RuntimeError.Cause → Bool
  | output _ => true
  | _ => false

theorem BinaryOp.aboutOutput_of_apply {op : BinaryOp} {a b : Value} {cause : RuntimeError.Cause}
    (h : op.apply a b = .error cause) : cause.aboutOutput = false := by
  cases op <;> cases a <;> cases b <;> cases h <;> rfl

theorem UnaryOp.aboutOutput_of_apply {op : UnaryOp} {a : Value} {cause : RuntimeError.Cause}
    (h : op.apply a = .error cause) : cause.aboutOutput = false := by
  cases op <;> cases a <;> cases h <;> rfl

/-- The positions at which a task reports errors of its own. -/
def Task.marks : Task → List Position
  | .expr (.name _ n) | .expr (.call n _) => [n.pos]
  | .expr (.unary _ p _) | .expr (.binary _ _ p _) => [p]
  | .chain _ (l :: _) => [l.pos]
  | .stmt (.init n _) | .stmt (.set n _) | .stmt (.definition n _ _) => [n.pos]
  | .params _ ns _ => ns.map Name.pos
  | _ => []

/-- An error of a task's own: at one of its positions, and not about output. -/
structure Task.Owns (t : Task) (e : RuntimeError) : Prop where
  pos : ∃ p ∈ t.marks, e.pos = some p
  cause : e.cause.aboutOutput = false

def Task.isCall : Task → Bool
  | .call _ _ => true
  | _ => false

/-- How a task comes to fail: by an error of its own, in a part of it, or in a command that it
calls, whose errors it gives a position if they have none. -/
inductive FailsBy (call : Handler) (fuel : Nat) (m : Machine) : Task → RuntimeError → Prop
  | own {t e} (h : Task.Owns t e) : FailsBy call fuel m t e
  | part {t t₁ m₁ e} (hs : Starts call fuel t m t₁ m₁) (hc : t₁.isCall = false)
      (h : t₁.stop? call fuel m₁ = some (some e)) : FailsBy call fuel m t e
  | command {n es i c m₁ vs m₂ e} (hn : callee n m = .done (.command i c) m₁)
      (hes : evalAll call es m₁ = .done vs m₂) (ha : c.arity.accepts vs.length = true)
      (h : (call c vs m₂).stop? = some (some e)) :
      FailsBy call fuel m (.expr (.call n es)) (RuntimeError.within e n.pos)

theorem ofExcept_stop? {α : Type} {pos : Option Position} {x : Except RuntimeError.Cause α}
    {m : Machine} {r : Option RuntimeError} (h : (ofExcept pos x m).stop? = some r) :
    ∃ cause, x = .error cause ∧ r = some ⟨cause, pos⟩ := by
  cases x with
  | ok a => cases h
  | error cause =>
    cases h
    exact ⟨cause, rfl, rfl⟩

section cases

variable {call : Handler} {fuel : Nat} {m : Machine} {e : RuntimeError}

theorem Task.Owns.mk' {t : Task} {cause : RuntimeError.Cause} {p : Position} (hp : p ∈ t.marks)
    (hcause : cause.aboutOutput = false) : t.Owns ⟨cause, some p⟩ :=
  ⟨⟨p, hp, rfl⟩, hcause⟩

theorem invoke_fails {n : Name} {es : List Expr} {v : Value} {m₁ m₂ : Machine} {vs : List Value}
    (hn : callee n m = .done v m₁) (hes : evalAll call es m₁ = .done vs m₂)
    (h : (invoke call n v vs m₂).stop? = some (some e)) :
    FailsBy call fuel m (.expr (.call n es)) e := by
  have hown : ∀ cause : RuntimeError.Cause, cause.aboutOutput = false → e = ⟨cause, some n.pos⟩ →
      FailsBy call fuel m (.expr (.call n es)) e := by
    rintro cause hcause rfl
    exact .own (.mk' List.mem_cons_self hcause)
  cases v with
  | command i c =>
    by_cases ha : c.arity.accepts vs.length = true
    · rw [invoke_stop? ha] at h
      obtain ⟨r, hr, hwithin⟩ := Option.map_eq_some_iff.mp h
      obtain ⟨e₁, rfl, rfl⟩ := Option.map_eq_some_iff.mp hwithin
      exact .command hn hes ha hr
    · rw [invoke_command, if_neg ha] at h
      cases h
      exact hown _ rfl rfl
  | number x => cases h; exact hown _ rfl rfl
  | text t => cases h; exact hown _ rfl rfl
  | boolean b => cases h; exact hown _ rfl rfl
  | none => cases h; exact hown _ rfl rfl

theorem eval_fails {t : Expr} (h : (eval call t m).stop? = some (some e)) :
    FailsBy call fuel m (.expr t) e := by
  cases t with
  | literal l => cases h
  | name k n =>
    rcases variableValue_cases m n with ⟨v, -, hv⟩ | ⟨-, hv⟩
    · rw [eval, hv] at h
      cases h
    · rw [eval, hv] at h
      cases h
      exact .own (.mk' List.mem_cons_self rfl)
  | group inner => exact .part .inner rfl h
  | unary op p right =>
    rcases bind_stop?.mp h with h | ⟨a, m₁, -, h⟩
    · exact .part .operand rfl h
    · obtain ⟨cause, hop, he⟩ := ofExcept_stop? h
      cases he
      exact .own (.mk' List.mem_cons_self (UnaryOp.aboutOutput_of_apply hop))
  | binary left op p right =>
    rcases bind_stop?.mp h with h | ⟨a, m₁, ha, h⟩
    · exact .part .left rfl h
    · rcases bind_stop?.mp h with h | ⟨b, m₂, -, h⟩
      · exact .part (.right ha) rfl h
      · obtain ⟨cause, hop, he⟩ := ofExcept_stop? h
        cases he
        exact .own (.mk' List.mem_cons_self (BinaryOp.aboutOutput_of_apply hop))
  | comparison first links => exact .part .chain rfl h
  | ternary condition left right =>
    rcases bind_stop?.mp h with h | ⟨v, m₁, hv, h⟩
    · exact .part .test rfl h
    · refine .part (.choice hv) rfl ?_
      rw [Task.stop?]
      split_ifs at h ⊢ <;> exact h
  | call n es =>
    rcases bind_stop?.mp h with h | ⟨v, m₁, hn, h⟩
    · rcases callee_cases m n with ⟨v, -, hv⟩ | ⟨-, hv⟩
      · rw [hv] at h
        cases h
      · rw [hv] at h
        cases h
        exact .own (.mk' List.mem_cons_self rfl)
    · rcases bind_stop?.mp h with h | ⟨vs, m₂, hes, h⟩
      · exact .part (.callArgs hn) rfl h
      · exact invoke_fails hn hes h

theorem evalChain_fails {left : Expr} {links : List (Link Expr)}
    (h : (evalChain call (eval call left) links m).stop? = some (some e)) :
    FailsBy call fuel m (.chain left links) e := by
  cases links with
  | nil => cases h
  | cons l rest =>
    rcases bind_stop?.mp h with h | ⟨a, m₁, ha, h⟩
    · exact .part .chainLeft rfl h
    · rcases bind_stop?.mp h with h | ⟨b, m₂, hb, h⟩
      · exact .part (.chainRight ha) rfl h
      · rcases bind_stop?.mp h with h | ⟨v, m₃, hop, hrest⟩
        · obtain ⟨cause, hop, he⟩ := ofExcept_stop? h
          cases he
          exact .own (.mk' List.mem_cons_self (BinaryOp.aboutOutput_of_apply hop))
        · obtain ⟨hv, rfl⟩ := ofExcept_eq_done hop
          split_ifs at hrest with htrue
          · exact .part (.chainNext ha hb hv htrue) rfl hrest
          · cases hrest

theorem evalAll_fails {es : List Expr} (h : (evalAll call es m).stop? = some (some e)) :
    FailsBy call fuel m (.args es) e := by
  cases es with
  | nil => cases h
  | cons t es =>
    rcases bind_stop?.mp h with h | ⟨v, m₁, hv, h⟩
    · exact .part .arg rfl h
    · rcases bind_stop?.mp h with h | ⟨vs, m₂, -, h⟩
      · exact .part (.argsNext hv) rfl h
      · cases h

theorem bindParams_fails {f : FrameId} {ns : List Name} {vs : List Value}
    (h : (bindParams f ns vs m).stop? = some (some e)) : (Task.params f ns vs).Owns e := by
  induction ns generalizing vs m with
  | nil => cases h
  | cons n ns ih =>
    cases vs with
    | nil => cases h
    | cons v vs =>
      rcases bind_stop?.mp h with h | ⟨u, m₁, -, h⟩
      · rcases declareIn_cases m f n v with ⟨w, -, hdeclare⟩ | ⟨-, hdeclare⟩
        · rw [hdeclare] at h
          cases h
          exact .mk' List.mem_cons_self rfl
        · rw [hdeclare] at h
          cases h
      · obtain ⟨⟨p, hp, hpos⟩, hcause⟩ := ih h
        exact ⟨⟨p, List.mem_cons_of_mem _ hp, hpos⟩, hcause⟩

theorem iterate_fails {test : Expr} {body : List Stmt} {n : Nat}
    (h : (iterate (eval call test) (execAll call fuel body) n m).stop? = some (some e)) :
    FailsBy call fuel m (.loop test body n) e := by
  cases n with
  | zero => cases h
  | succ n =>
    rw [iterate_succ] at h
    rcases bind_stop?.mp h with h | ⟨v, m₁, hv, h⟩
    · exact .part .loopTest rfl h
    · split_ifs at h with htrue
      · rcases bind_stop?.mp h with h | ⟨flow, m₂, hflow, h⟩
        · exact .part (.loopBody hv htrue) rfl h
        · cases flow with
          | normal => exact .part (.loopNext hv htrue hflow) rfl h
          | returned v => cases h
      · cases h

theorem declare_fails {n : Name} {v : Value} (h : (declare n v m).stop? = some (some e)) :
    ∃ cause : RuntimeError.Cause, cause.aboutOutput = false ∧ e = ⟨cause, some n.pos⟩ := by
  rcases declareIn_cases m m.current n v with ⟨w, -, hdeclare⟩ | ⟨-, hdeclare⟩
  · rw [declare, hdeclare] at h
    cases h
    exact ⟨_, rfl, rfl⟩
  · rw [declare, hdeclare] at h
    cases h

theorem assign_fails {n : Name} {v : Value} (h : (assign n v m).stop? = some (some e)) :
    ∃ cause : RuntimeError.Cause, cause.aboutOutput = false ∧ e = ⟨cause, some n.pos⟩ := by
  rcases assign_cases m n v with ⟨-, hassign⟩ | ⟨g, -, hassign⟩
  · rw [hassign] at h
    cases h
    exact ⟨_, rfl, rfl⟩
  · rw [hassign] at h
    cases h

theorem exec_fails {s : Stmt} (h : (exec call fuel s m).stop? = some (some e)) :
    FailsBy call fuel m (.stmt s) e := by
  cases s with
  | init n t =>
    rcases bind_stop?.mp h with h | ⟨v, m₁, -, h⟩
    · exact .part (.value rfl) rfl h
    · rcases bind_stop?.mp h with h | ⟨u, m₂, -, h⟩
      · obtain ⟨cause, hcause, rfl⟩ := declare_fails h
        exact .own (.mk' List.mem_cons_self hcause)
      · cases h
  | set n t =>
    rcases bind_stop?.mp h with h | ⟨v, m₁, -, h⟩
    · exact .part (.value rfl) rfl h
    · rcases bind_stop?.mp h with h | ⟨u, m₂, -, h⟩
      · obtain ⟨cause, hcause, rfl⟩ := assign_fails h
        exact .own (.mk' List.mem_cons_self hcause)
      · cases h
  | condition test thenBody elseBody =>
    cases elseBody with
    | none =>
      rcases bind_stop?.mp h with h | ⟨v, m₁, hv, h⟩
      · exact .part (.value rfl) rfl h
      · split_ifs at h with htrue
        · exact .part (.thenBody hv htrue) rfl h
        · cases h
    | some elseBody =>
      rcases bind_stop?.mp h with h | ⟨v, m₁, hv, h⟩
      · exact .part (.value rfl) rfl h
      · split_ifs at h with htrue
        · exact .part (.thenBody hv htrue) rfl h
        · exact .part (.elseBody hv (by simpa using htrue)) rfl h
  | loop test body => exact .part .loop rfl h
  | definition n params body =>
    rcases bind_stop?.mp h with h | ⟨v, m₁, -, h⟩
    · cases h
    · rcases bind_stop?.mp h with h | ⟨u, m₂, -, h⟩
      · obtain ⟨cause, hcause, rfl⟩ := declare_fails h
        exact .own (.mk' List.mem_cons_self hcause)
      · cases h
  | ret p value =>
    cases value with
    | none => cases h
    | some t =>
      rcases bind_stop?.mp h with h | ⟨v, m₁, -, h⟩
      · exact .part (.value rfl) rfl h
      · cases h
  | expression t =>
    rcases bind_stop?.mp h with h | ⟨v, m₁, -, h⟩
    · exact .part (.value rfl) rfl h
    · cases h
  | body stmts => exact .part .body rfl h
  | pass => cases h

theorem execAll_fails {ss : List Stmt} (h : (execAll call fuel ss m).stop? = some (some e)) :
    FailsBy call fuel m (.stmts ss) e := by
  cases ss with
  | nil => cases h
  | cons s rest =>
    rw [execAll_cons] at h
    rcases bind_stop?.mp h with h | ⟨flow, m₁, hs, h⟩
    · exact .part .head rfl h
    · cases flow with
      | normal => exact .part (.tail hs) rfl h
      | returned v => cases h

theorem Task.failsBy {t : Task} (ht : t.isCall = false)
    (h : t.stop? call fuel m = some (some e)) : FailsBy call fuel m t e := by
  cases t with
  | expr t => exact eval_fails h
  | chain left links => exact evalChain_fails h
  | args es => exact evalAll_fails h
  | stmt s => exact exec_fails h
  | stmts ss => exact execAll_fails h
  | loop test body n => exact iterate_fails h
  | call c vs => cases ht
  | params f ns vs => exact .own (bindParams_fails h)

end cases

/-! ## Raising an error -/

/-- An error is raised at a moment, and has its position from there on. -/
inductive Moment.Raises : Moment → RuntimeError → Prop
  | own {a e} (h : Moment.FailsWith a e) (ho : a.task.Owns e) : Raises a e
  /-- A built-in command fails. -/
  | native {fuel n es m i k m₁ vs m₂ e m₃} (hn : callee n m = .done (.command i (.native k)) m₁)
      (hes : evalAll (apply fuel) es m₁ = .done vs m₂) (hk : k.run vs m₂ = .failed e m₃) :
      Raises ⟨fuel, .expr (.call n es), m⟩ (RuntimeError.within e n.pos)
  /-- A call would go too deep. -/
  | limit {fuel n es m i d home m₁ vs m₂}
      (hn : callee n m = .done (.command i (.defined d home)) m₁)
      (hes : evalAll (apply fuel) es m₁ = .done vs m₂) (hdepth : m₂.limit ≤ m₂.depth) :
      Raises ⟨fuel, .expr (.call n es), m⟩ ⟨.recursionLimit m₂.limit, some n.pos⟩

theorem RuntimeError.pos_within (e : RuntimeError) (p : Position) :
    ∃ q, (e.within p).pos = some q := by
  show ∃ q, (e.pos <|> some p) = some q
  cases e.pos with
  | none => exact ⟨p, rfl⟩
  | some q => exact ⟨q, rfl⟩

theorem RuntimeError.within_eq_self {e : RuntimeError} {q : Position} (h : e.pos = some q)
    (p : Position) : e.within p = e := by
  cases e with
  | mk cause pos =>
    cases h
    rfl

theorem Moment.Raises.pos {a : Moment} {e : RuntimeError} (h : a.Raises e) :
    ∃ q, e.pos = some q := by
  cases h with
  | own h ho =>
    obtain ⟨p, -, hp⟩ := ho.pos
    exact ⟨p, hp⟩
  | native hn hes hk => exact RuntimeError.pos_within _ _
  | limit hn hes => exact ⟨_, rfl⟩

noncomputable def Task.size : Task → Nat
  | .expr e => sizeOf e
  | .chain left links => sizeOf left + sizeOf links
  | .args es => sizeOf es
  | .stmt s => sizeOf s
  | .stmts ss => sizeOf ss
  | .loop test body _ => sizeOf test + sizeOf body
  | .call _ _ => 1
  | .params _ _ _ => 0

/-- How often a task may still go round. -/
def Task.rounds : Task → Nat
  | .loop _ _ n => n
  | _ => 0

theorem Stmt.operand?_size {s : Stmt} {e : Expr} (h : s.operand? = some e) :
    sizeOf e < sizeOf s := by
  cases s with
  | init | set | condition | expression =>
    cases h
    simp only [init.sizeOf_spec, set.sizeOf_spec, condition.sizeOf_spec, expression.sizeOf_spec]
    omega
  | ret p value =>
    cases value with
    | none => cases h
    | some e =>
      cases h
      simp only [ret.sizeOf_spec, Option.some.sizeOf_spec]
      omega
  | loop | definition | body | pass => cases h

/-- A part of a task has less text to run, or as much text and fewer rounds to go. -/
theorem Starts.smaller {call : Handler} {fuel : Nat} {t t₁ : Task} {m m₁ : Machine}
    (h : Starts call fuel t m t₁ m₁) :
    t₁.size < t.size ∨ t₁.size = t.size ∧ t₁.rounds < t.rounds := by
  have hexpr : ∀ e : Expr, 0 < sizeOf e := fun e => by cases e <;> simp +arith
  have hlist : ∀ {α : Type} [SizeOf α] (l : List α), 0 < sizeOf l := fun l => by
    cases l <;> simp +arith
  have hright : ∀ l : Link Expr, sizeOf l.right < sizeOf l := fun l => by
    cases l
    simp only [Link.mk.sizeOf_spec]
    omega
  cases h with
  | loopNext => exact .inr ⟨rfl, Nat.lt_succ_self _⟩
  | value hs => exact .inl (Stmt.operand?_size hs)
  | choice =>
    refine .inl ?_
    simp only [Task.size, Expr.ternary.sizeOf_spec]
    split_ifs <;> omega
  | _ =>
    refine .inl ?_
    simp only [Task.size, Expr.group.sizeOf_spec, Expr.unary.sizeOf_spec, Expr.binary.sizeOf_spec,
      Expr.comparison.sizeOf_spec, Expr.ternary.sizeOf_spec, Expr.call.sizeOf_spec,
      Stmt.condition.sizeOf_spec, Stmt.loop.sizeOf_spec, Stmt.body.sizeOf_spec,
      List.cons.sizeOf_spec, Option.some.sizeOf_spec]
    grind

/-- Every error of a run is raised at some moment of it. -/
theorem Moment.raised {fuel : Nat} {t : Task} {m : Machine} {e : RuntimeError}
    (ht : t.isCall = false) (h : t.stop? (apply fuel) fuel m = some (some e)) :
    ∃ n b, Reaches ⟨fuel, t, m⟩ n b ∧ b.Raises e := by
  cases Task.failsBy ht h with
  | own ho => exact ⟨0, _, .here, .own h ho⟩
  | part hs hc hpart =>
    have hsmaller := hs.smaller
    obtain ⟨n, b, hr, hb⟩ := Moment.raised hc hpart
    exact ⟨n, b, .inside hs hr, hb⟩
  | @command n es i c m₁ vs m₂ e hn hes ha hcommand =>
    cases c with
    | native k =>
      have hrun : (k.run vs m₂).stop? = some (some e) := by cases fuel <;> exact hcommand
      obtain ⟨m₃, hm₃⟩ := Outcome.stop?_eq_error.mp hrun
      exact ⟨0, _, .here, .native hn hes hm₃⟩
    | defined d home =>
      cases fuel with
      | zero => cases hcommand
      | succ fuel =>
        rcases (enter_stop? rfl).mp hcommand with hparams | ⟨u, m₃, hparams, hbody⟩
        · have ho := bindParams_fails hparams
          obtain ⟨p, -, hp⟩ := ho.pos
          rw [RuntimeError.within_eq_self hp]
          exact ⟨0, _, .inside (.call hn hes ha) (.inside (.params rfl) .here), .own hparams ho⟩
        · split_ifs at hbody with hlimit
          · -- in the body the error has got its position, and the call leaves it alone
            obtain ⟨k, b, hr, hb⟩ := Moment.raised (t := .stmts d.body) rfl hbody
            obtain ⟨p, hp⟩ := hb.pos
            rw [RuntimeError.within_eq_self hp]
            exact ⟨k + 1, b, .inside (.call hn hes ha) (.enter rfl hparams hlimit hr), hb⟩
          · cases hbody
            have hplace := (SamePlace.bindParams _ _ _).done hparams
            have hdepth : m₃.depth = m₂.depth := hplace.depth
            have hsame : m₃.limit = m₂.limit := hplace.limit
            rw [hsame]
            exact ⟨0, _, .here, .limit hn hes (by omega)⟩
termination_by (fuel, t.size, t.rounds)
decreasing_by
  · rcases hsmaller with hsize | ⟨hsize, hrounds⟩
    · exact .right _ (.left _ _ hsize)
    · rw [hsize]
      exact .right _ (.right _ hrounds)
  · exact .left _ _ (by omega)

end Offside
