import Offside.Proofs.Run.Provenance

/-!
# Which bindings a run changes

A binding has another value after a run than before only if a `SET` of its name was executed on the
way and found the name in its frame (`Moment.Sets`). All other steps leave the bindings that are
there as they are.

The proof follows the moments of the run. What a task leaves alone is what its parts and its own
step leave alone (`Task.touches`), and the moments of a part are moments of the task.
-/

namespace Offside

open Run

/-! ## Bindings that keep their values -/

/-- A machine and a later one, where only bindings in `S` may have other values. -/
def Spares (S : FrameId → String → Prop) (m m' : Machine) : Prop :=
  ∀ f x v, m.store.local? f x = some v → ¬S f x → m'.store.local? f x = some v

/-- However a run from `m` on ends, only bindings in `S` may have other values than before. -/
def Touches (S : FrameId → String → Prop) {α : Type} (m : Machine) (x : Run α) : Prop :=
  ∀ m' ∈ (x m).machine?, Spares S m m'

theorem Store.local?_of_le {s : Store} {f : FrameId} (h : s.next ≤ f) (x : String) :
    s.local? f x = none := by
  rw [local?_eq, Array.getElem?_eq_none h]
  rfl

theorem Spares.of_store_eq {S : FrameId → String → Prop} {m m' : Machine}
    (h : m'.store = m.store) : Spares S m m' := by
  intro f x v hv _
  rw [h]
  exact hv

theorem Spares.trans {S : FrameId → String → Prop} {m₁ m₂ m₃ : Machine} (h : Spares S m₁ m₂)
    (h' : Spares S m₂ m₃) : Spares S m₁ m₃ :=
  fun f x v hv hnot => h' f x v (h f x v hv hnot) hnot

namespace Touches

variable {S : FrameId → String → Prop} {α β : Type} {m : Machine}

theorem of_done {x : Run α} {a : α} {m' : Machine} (hx : x m = .done a m') (h : Spares S m m') :
    Touches S m x := by
  intro m₁ hm₁
  rw [hx] at hm₁
  cases hm₁
  exact h

theorem of_failed {x : Run α} {e : RuntimeError} {m' : Machine} (hx : x m = .failed e m')
    (h : Spares S m m') : Touches S m x := by
  intro m₁ hm₁
  rw [hx] at hm₁
  cases hm₁
  exact h

theorem pure (a : α) : Touches S m (pure a : Run α) := of_done rfl (.of_store_eq rfl)

theorem fail (cause : RuntimeError.Cause) (pos : Option Position) :
    Touches S m (Run.fail cause pos : Run α) :=
  of_failed rfl (.of_store_eq rfl)

theorem ofExcept (pos : Option Position) (r : Except RuntimeError.Cause α) :
    Touches S m (ofExcept pos r) := by
  cases r with
  | ok a => exact pure a
  | error cause => exact fail cause pos

theorem bind {x : Run α} {f : α → Run β} (hx : Touches S m x)
    (hf : ∀ a m₁, x m = .done a m₁ → Touches S m₁ (f a)) : Touches S m (x >>= f) := by
  intro m' hm'
  replace hm' : m' ∈ (Run.bind x f m).machine? := hm'
  unfold Run.bind at hm'
  cases hxm : x m with
  | done a m₁ =>
    rw [hxm] at hm'
    exact (hx m₁ (by rw [hxm]; rfl)).trans (hf a m₁ hxm m' hm')
  | failed e m₁ =>
    rw [hxm] at hm'
    exact hx m' (by rw [hxm]; exact hm')
  | exhausted =>
    rw [hxm] at hm'
    cases hm'

theorem located {x : Run α} (p : Position) (hx : Touches S m x) : Touches S m (located p x) := by
  intro m' hm'
  unfold Run.located at hm'
  cases hxm : x m with
  | done a m₁ =>
    rw [hxm] at hm'
    exact hx m' (by rw [hxm]; exact hm')
  | failed e m₁ =>
    rw [hxm] at hm'
    exact hx m' (by rw [hxm]; exact hm')
  | exhausted =>
    rw [hxm] at hm'
    cases hm'

theorem variableValue (n : Name) : Touches S m (variableValue n) := by
  rcases variableValue_cases m n with ⟨v, -, h⟩ | ⟨-, h⟩
  · exact of_done h (.of_store_eq rfl)
  · exact of_failed h (.of_store_eq rfl)

theorem callee (n : Name) : Touches S m (callee n) := by
  rcases callee_cases m n with ⟨v, -, h⟩ | ⟨-, h⟩
  · exact of_done h (.of_store_eq rfl)
  · exact of_failed h (.of_store_eq rfl)

theorem declareIn (f : FrameId) (n : Name) (v : Value) : Touches S m (declareIn f n v) := by
  rcases declareIn_cases m f n v with ⟨w, -, h⟩ | ⟨hnone, h⟩
  · exact of_failed h (.of_store_eq rfl)
  · refine of_done h fun g x w hw _ => ?_
    rw [Store.local?_bind, if_neg]
    · exact hw
    · rintro ⟨-, rfl, rfl⟩
      rw [hnone] at hw
      cases hw

theorem declare (n : Name) (v : Value) : Touches S m (declare n v) := declareIn m.current n v

theorem assign {n : Name} (v : Value)
    (h : ∀ g, m.store.resolve m.current n.text = some g → S g n.text) :
    Touches S m (assign n v) := by
  rcases assign_cases m n v with ⟨-, hassign⟩ | ⟨g, hg, hassign⟩
  · exact of_failed hassign (.of_store_eq rfl)
  · refine of_done hassign fun f x w hw hnot => ?_
    rw [Store.local?_rebind, if_neg]
    · exact hw
    · rintro ⟨rfl, rfl⟩
      exact hnot (h _ hg)

theorem native (k : Native) (vs : List Value) : Touches S m (k.run vs) := by
  obtain ⟨sink, count, ⟨v, h, -⟩ | ⟨e, h, -⟩⟩ := k.run_cases m vs
  · exact of_done h (.of_store_eq rfl)
  · exact of_failed h (.of_store_eq rfl)

theorem openFrame (home : FrameId) : Touches S m (openFrame home) := by
  refine of_done rfl fun f x v hv _ => ?_
  rw [Store.local?_push, if_neg]
  · exact hv
  · rintro rfl
    rw [Store.local?_of_le (Nat.le_refl _)] at hv
    cases hv

theorem bindParams (f : FrameId) (ns : List Name) (vs : List Value) :
    Touches S m (bindParams f ns vs) := by
  induction ns generalizing vs m with
  | nil => exact pure ()
  | cons n ns ih =>
    cases vs with
    | nil => exact pure ()
    | cons v vs =>
      rw [Run.bindParams]
      exact bind (declareIn f n v) fun _ _ _ => ih vs

theorem inNestedFrame {x : Run α} {f : FrameId}
    (h : m.depth < m.limit → Touches S (m.entering f) x) :
    Touches S m (nested (inFrame f x)) := by
  by_cases hlimit : m.depth < m.limit
  · intro m' hm'
    rw [nested_apply _ hlimit, inFrame_apply] at hm'
    obtain ⟨m₂, hm₂, rfl⟩ := Outcome.mem_machine?_onMachine.mp hm'
    obtain ⟨m₁, hm₁, rfl⟩ := Outcome.mem_machine?_onMachine.mp hm₂
    exact h hlimit m₁ hm₁
  · exact of_failed (nested_limit _ (by omega)) (.of_store_eq rfl)

end Touches

/-! ## Parts of tasks -/

section parts

variable {call : Handler} {fuel : Nat} {m : Machine} {S : FrameId → String → Prop}

/-- The parts of a task leave all bindings alone that are not in `S`. -/
def PartsTouch (S : FrameId → String → Prop) (call : Handler) (fuel : Nat) (m : Machine)
    (t : Task) : Prop :=
  ∀ t₁ m₁, Starts call fuel t m t₁ m₁ → ∀ m' ∈ t₁.finish call fuel m₁, Spares S m₁ m'

theorem invoke_touches {n : Name} {v : Value} {vs : List Value}
    (h : ∀ i c, v = .command i c → c.arity.accepts vs.length = true → Touches S m (call c vs)) :
    Touches S m (invoke call n v vs) := by
  cases v with
  | command i c =>
    rw [invoke_command]
    split_ifs with ha
    · exact .located _ (h i c rfl ha)
    · exact .fail _ _
  | number x => exact .fail _ _
  | text t => exact .fail _ _
  | boolean b => exact .fail _ _
  | none => exact .fail _ _

theorem eval_touches {e : Expr} (h : PartsTouch S call fuel m (.expr e)) :
    Touches S m (eval call e) := by
  cases e with
  | literal l => exact .pure _
  | name k n => exact .variableValue n
  | group inner => exact h _ _ .inner
  | unary op p right => exact .bind (h _ _ .operand) fun _ _ _ => .ofExcept _ _
  | binary left op p right =>
    exact .bind (h _ _ .left) fun _ _ ha => .bind (h _ _ (.right ha)) fun _ _ _ => .ofExcept _ _
  | comparison first links => exact h _ _ .chain
  | ternary condition left right =>
    refine .bind (h _ _ .test) fun v m₁ hv => ?_
    have hchoice := h _ _ (.choice hv)
    split_ifs at hchoice ⊢ <;> exact hchoice
  | call n args =>
    refine .bind (.callee n) fun v m₁ hn => .bind (h _ _ (.callArgs hn)) fun vs m₂ hargs => ?_
    refine invoke_touches fun i c hv ha => ?_
    subst hv
    exact h _ _ (.call hn hargs ha)

theorem evalChain_touches {left : Expr} {links : List (Link Expr)}
    (h : PartsTouch S call fuel m (.chain left links)) :
    Touches S m (evalChain call (eval call left) links) := by
  cases links with
  | nil => exact .pure _
  | cons l rest =>
    refine .bind (h _ _ .chainLeft) fun a m₁ ha => .bind (h _ _ (.chainRight ha)) fun b m₂ hb => ?_
    refine .bind (.ofExcept _ _) fun v m₃ hop => ?_
    obtain ⟨hv, rfl⟩ := ofExcept_eq_done hop
    split_ifs with htrue
    · exact h _ _ (.chainNext ha hb hv htrue)
    · exact .pure _

theorem evalAll_touches {es : List Expr} (h : PartsTouch S call fuel m (.args es)) :
    Touches S m (evalAll call es) := by
  cases es with
  | nil => exact .pure _
  | cons e es =>
    exact .bind (h _ _ .arg) fun _ _ hv => .bind (h _ _ (.argsNext hv)) fun _ _ _ => .pure _

theorem iterate_touches {test : Expr} {body : List Stmt} {n : Nat}
    (h : PartsTouch S call fuel m (.loop test body n)) :
    Touches S m (iterate (eval call test) (execAll call fuel body) n) := by
  cases n with
  | zero =>
    intro m' hm'
    cases hm'
  | succ n =>
    rw [iterate_succ]
    refine .bind (h _ _ .loopTest) fun v m₁ hv => ?_
    split_ifs with htrue
    · refine .bind (h _ _ (.loopBody hv htrue)) fun flow m₂ hflow => ?_
      cases flow with
      | normal => exact h _ _ (.loopNext hv htrue hflow)
      | returned v => exact .pure _
    · exact .pure _

theorem exec_touches {s : Stmt} (h : PartsTouch S call fuel m (.stmt s))
    (hset : ∀ n e v m₁ g, s = .set n e → eval call e m = .done v m₁ →
      m₁.store.resolve m₁.current n.text = some g → S g n.text) :
    Touches S m (exec call fuel s) := by
  cases s with
  | init n e =>
    exact .bind (h _ _ (.value rfl)) fun _ _ _ => .bind (.declare n _) fun _ _ _ => .pure _
  | set n e =>
    refine .bind (h _ _ (.value rfl)) fun v m₁ hv => ?_
    exact .bind (.assign v fun g => hset n e v m₁ g rfl hv) fun _ _ _ => .pure _
  | condition test thenBody elseBody =>
    cases elseBody with
    | none =>
      refine .bind (h _ _ (.value rfl)) fun v m₁ hv => ?_
      split_ifs with htrue
      · exact h _ _ (.thenBody hv htrue)
      · exact .pure _
    | some elseBody =>
      refine .bind (h _ _ (.value rfl)) fun v m₁ hv => ?_
      split_ifs with htrue
      · exact h _ _ (.thenBody hv htrue)
      · exact h _ _ (.elseBody hv (by simpa using htrue))
  | loop test body => exact h _ _ .loop
  | definition n params body =>
    refine .bind (.of_done rfl (.of_store_eq rfl)) fun v m₁ _ => ?_
    exact .bind (.declare n v) fun _ _ _ => .pure _
  | ret p value =>
    cases value with
    | none => exact .pure _
    | some e => exact .bind (h _ _ (.value rfl)) fun _ _ _ => .pure _
  | expression e => exact .bind (h _ _ (.value rfl)) fun _ _ _ => .pure _
  | body stmts => exact h _ _ .body
  | pass => exact .pure _

theorem execAll_touches {ss : List Stmt} (h : PartsTouch S call fuel m (.stmts ss)) :
    Touches S m (execAll call fuel ss) := by
  cases ss with
  | nil => exact .pure _
  | cons s rest =>
    rw [execAll_cons]
    refine .bind (h _ _ .head) fun flow m₁ hs => ?_
    cases flow with
    | normal => exact h _ _ (.tail hs)
    | returned v => exact .pure _

/-- What the parts of a task leave alone, the task leaves alone, unless it is a `SET`. -/
theorem Task.touches {t : Task} (ht : t.isCall = false) (h : PartsTouch S call fuel m t)
    (hset : ∀ n e v m₁ g, t = .stmt (.set n e) → eval call e m = .done v m₁ →
      m₁.store.resolve m₁.current n.text = some g → S g n.text) :
    ∀ m' ∈ t.finish call fuel m, Spares S m m' := by
  cases t with
  | expr e => exact eval_touches h
  | chain left links => exact evalChain_touches h
  | args es => exact evalAll_touches h
  | stmt s => exact exec_touches h fun n e v m₁ g hs => hset n e v m₁ g (congrArg Task.stmt hs)
  | stmts ss => exact execAll_touches h
  | loop test body n => exact iterate_touches h
  | call c vs => cases ht
  | params f ns vs => exact Touches.bindParams f ns vs

end parts

/-! ## Moments -/

/-- At this moment a `SET` of the name `x` is executed, and finds the name in the frame `f`. -/
def Moment.Sets (x : String) (f : FrameId) (a : Moment) : Prop :=
  ∃ n e v m₁, a.task = .stmt (.set n e) ∧ n.text = x ∧
    eval (apply a.fuel) e a.machine = .done v m₁ ∧ m₁.store.resolve m₁.current x = some f

theorem Moment.touches {S : FrameId → String → Prop} {fuel : Nat} {t : Task} {m : Machine}
    (h : ∀ n b x f, Reaches ⟨fuel, t, m⟩ n b → b.Sets x f → S f x) :
    ∀ m' ∈ t.finish (apply fuel) fuel m, Spares S m m' := by
  cases ht : t.isCall with
  | false =>
    refine Task.touches ht (fun t₁ m₁ hs => ?_) fun n e v m₁ g hset hv hg => ?_
    · have hsmaller := hs.smaller
      exact Moment.touches fun n b x f hr => h n b x f (.inside hs hr)
    · subst hset
      exact h 0 _ n.text g .here ⟨n, e, v, m₁, rfl, rfl, hv, hg⟩
  | true =>
    cases t with
    | call c vs =>
      cases c with
      | native k => cases fuel <;> exact Touches.native k vs
      | defined d home =>
        cases fuel with
        | zero =>
          intro m' hm'
          cases hm'
        | succ fuel =>
          refine Touches.bind (.openFrame home) fun f m₁ hf => ?_
          refine .bind (.bindParams f d.params vs) fun u m₂ hp => ?_
          refine .bind (.inNestedFrame fun hlimit => ?_) fun _ _ _ => .pure _
          -- the moments of the body are moments of the call
          exact Moment.touches (t := .stmts d.body)
            fun n b x f hr => h (n + 1) b x f (.enter hf hp hlimit hr)
    | expr | chain | args | stmt | stmts | loop | params => cases ht
termination_by (fuel, t.size, t.rounds)
decreasing_by
  · rcases hsmaller with hsize | ⟨hsize, hrounds⟩
    · exact .right _ (.left _ _ hsize)
    · rw [hsize]
      exact .right _ (.right _ hrounds)
  · exact .left _ _ (by omega)

/-- A binding that is changed by a run was found by a `SET` on the way. -/
theorem Moment.exists_sets {a : Moment} {m' : Machine} (hm' : m' ∈ a.finish) {f : FrameId}
    {x : String} {v : Value} (hv : a.machine.store.local? f x = some v) :
    m'.store.local? f x = some v ∨ ∃ n b, Reaches a n b ∧ b.Sets x f := by
  by_cases hset : ∃ n b, Reaches a n b ∧ b.Sets x f
  · exact .inr hset
  · exact .inl (Moment.touches (S := fun f x => ∃ n b, Reaches a n b ∧ b.Sets x f)
      (fun n b x f hr hb => ⟨n, b, hr, hb⟩) m' hm' f x v hv hset)

end Offside
