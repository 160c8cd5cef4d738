import Mathlib
import Offside.Proofs.Syntax.Positions
import Offside.Proofs.Run.Provenance
import Offside.Proofs.Run.Commands

/-!
# Errors are located

Every error of a program that is read from a source text can be found in the text: its position is
that of one of the tokens. Errors are raised by operations, which have their positions from the
text, by built-in commands, which are always called from the text, and by calls that go too deep.
All commands that a run comes across are built in or declared in the same text, so wherever a run
gets to, what it runs is part of the text (`Reaches.within`).
-/

namespace Offside

open Run

/-! ## Values that come from a text -/

/-- A command that is always there, or is declared in a text with these positions. -/
def Command.Within (ps : List Position) : Command → Prop
  | .native k => k ∈ Native.standard
  | .defined d _ => d.positions ⊆ ps

/-- A value that is no command, or one within a text. -/
def Value.Within (ps : List Position) : Value → Prop
  | .command _ c => c.Within ps
  | _ => True

/-- All commands that a machine knows are within a text. -/
def Machine.Within (ps : List Position) (m : Machine) : Prop :=
  m.store.Holds fun _ v => v.Within ps

variable {ps : List Position}

theorem Value.within_of_type {v : Value} (h : v.type ≠ .command) : v.Within ps := by
  cases v with
  | command i c => exact absurd rfl h
  | number x => trivial
  | text s => trivial
  | boolean b => trivial
  | none => trivial

theorem standard_within (limit : Nat) (sink : Sink) (readings : Nat → Float) :
    (Machine.standard limit sink readings).Within ps := by
  refine (standard_holds limit sink readings).mono ?_
  rintro x v ⟨i, n, hn, -, rfl⟩
  exact hn

/-! ## Runs within a text -/

/-- With what is within a text, a run comes to results that have a property, and to nothing that is
not within the text. -/
def Yields (ps : List Position) {α : Type} (P : α → Prop) (x : Run α) : Prop :=
  ∀ m, m.Within ps → ∀ a m', x m = .done a m' → P a ∧ m'.Within ps

namespace Yields

variable {α β : Type} {P : α → Prop} {Q : β → Prop}

theorem pure {a : α} (h : P a) : Yields ps P (pure a) := by
  intro m hm b m' hb
  cases hb
  exact ⟨h, hm⟩

theorem bind {x : Run α} {f : α → Run β} (hx : Yields ps P x) (hf : ∀ a, P a → Yields ps Q (f a)) :
    Yields ps Q (x >>= f) := by
  intro m hm b m' hb
  replace hb : Run.bind x f m = .done b m' := hb
  unfold Run.bind at hb
  cases hxm : x m with
  | done a m₁ =>
    rw [hxm] at hb
    obtain ⟨ha, hm₁⟩ := hx m hm a m₁ hxm
    exact hf a ha m₁ hm₁ b m' hb
  | failed e m₁ => simp [hxm] at hb
  | exhausted => simp [hxm] at hb

theorem located {x : Run α} (p : Position) (hx : Yields ps P x) : Yields ps P (located p x) := by
  intro m hm a m' ha
  unfold Run.located at ha
  cases hxm : x m with
  | done b m₁ =>
    rw [hxm] at ha
    cases ha
    exact hx m hm a m' hxm
  | failed e m₁ => simp [hxm] at ha
  | exhausted => simp [hxm] at ha

theorem fail (cause : RuntimeError.Cause) (pos : Option Position) :
    Yields ps P (Run.fail cause pos) := by
  intro m hm a m' ha
  cases ha

theorem exhaust : Yields ps P (Run.exhaust) := by
  intro m hm a m' ha
  cases ha

theorem ofExcept {pos : Option Position} {r : Except RuntimeError.Cause α}
    (h : ∀ a, r = .ok a → P a) : Yields ps P (ofExcept pos r) := by
  cases r with
  | ok a => exact pure (h a rfl)
  | error cause => exact fail cause pos

theorem declareIn (f : FrameId) (n : Name) {v : Value} (hv : v.Within ps) :
    Yields ps (fun _ => True) (declareIn f n v) := by
  intro m hm a m' ha
  rcases declareIn_cases m f n v with ⟨w, -, h⟩ | ⟨-, h⟩
  · rw [h] at ha
    cases ha
  · rw [h] at ha
    cases ha
    exact ⟨trivial, hm.bind f hv⟩

theorem declare (n : Name) {v : Value} (hv : v.Within ps) :
    Yields ps (fun _ => True) (declare n v) :=
  fun m hm => declareIn m.current n hv m hm

theorem assign (n : Name) {v : Value} (hv : v.Within ps) :
    Yields ps (fun _ => True) (assign n v) := by
  intro m hm a m' ha
  rcases assign_cases m n v with ⟨-, h⟩ | ⟨g, -, h⟩
  · rw [h] at ha
    cases ha
  · rw [h] at ha
    cases ha
    exact ⟨trivial, hm.rebind g hv⟩

theorem closure {d : Definition} (hd : d.positions ⊆ ps) :
    Yields ps (·.Within ps) (closure d) := by
  intro m hm a m' ha
  cases ha
  exact ⟨hd, hm⟩

theorem variableValue (n : Name) : Yields ps (·.Within ps) (variableValue n) := by
  intro m hm a m' ha
  rcases variableValue_cases m n with ⟨v, hv, h⟩ | ⟨-, h⟩
  · rw [h] at ha
    cases ha
    exact ⟨hm.get? hv, hm⟩
  · rw [h] at ha
    cases ha

theorem callee (n : Name) : Yields ps (·.Within ps) (callee n) := by
  intro m hm a m' ha
  rcases callee_cases m n with ⟨v, hv, h⟩ | ⟨-, h⟩
  · rw [h] at ha
    cases ha
    exact ⟨hm.get? hv, hm⟩
  · rw [h] at ha
    cases ha

theorem native (k : Native) {vs : List Value} (hvs : ∀ v ∈ vs, v.Within ps) :
    Yields ps (·.Within ps) (k.run vs) := by
  intro m hm a m' ha
  obtain ⟨sink, count, ⟨v, h, hv⟩ | ⟨e, h, -⟩⟩ := k.run_cases m vs
  · rw [h] at ha
    cases ha
    rcases hv with hv | hv
    · exact ⟨hvs _ hv, hm⟩
    · exact ⟨Value.within_of_type hv, hm⟩
  · rw [h] at ha
    cases ha

theorem openFrame (home : FrameId) : Yields ps (fun _ => True) (openFrame home) := by
  intro m hm a m' ha
  cases ha
  exact ⟨trivial, hm.push _⟩

theorem bindParams (f : FrameId) (ns : List Name) {vs : List Value}
    (hvs : ∀ v ∈ vs, v.Within ps) : Yields ps (fun _ => True) (bindParams f ns vs) := by
  induction ns generalizing vs with
  | nil => exact pure trivial
  | cons n ns ih =>
    cases vs with
    | nil => exact pure trivial
    | cons v vs =>
      rw [List.forall_mem_cons] at hvs
      rw [Run.bindParams]
      exact bind (declareIn f n hvs.1) fun _ _ => ih hvs.2

theorem inFrame (f : FrameId) {x : Run α} (hx : Yields ps P x) : Yields ps P (inFrame f x) := by
  intro m hm a m' ha
  rw [inFrame_apply] at ha
  obtain ⟨m₁, hm₁, rfl⟩ := Outcome.onMachine_eq_done.mp ha
  exact hx { m with current := f } hm a m₁ hm₁

theorem nested {x : Run α} (hx : Yields ps P x) : Yields ps P (nested x) := by
  intro m hm a m' ha
  by_cases hlimit : m.depth < m.limit
  · rw [nested_apply x hlimit] at ha
    obtain ⟨m₁, hm₁, rfl⟩ := Outcome.onMachine_eq_done.mp ha
    exact hx { m with depth := m.depth + 1 } hm a m₁ hm₁
  · rw [nested_limit x (by omega)] at ha
    cases ha

end Yields

/-- Commands within a text are run within it. -/
def Handler.Within (ps : List Position) (call : Handler) : Prop :=
  ∀ c vs, c.Within ps → (∀ v ∈ vs, v.Within ps) → Yields ps (·.Within ps) (call c vs)

section walk

variable {call : Handler}

theorem invoke_yields (hcall : Handler.Within ps call) (n : Name) {v : Value} {vs : List Value}
    (hv : v.Within ps) (hvs : ∀ v ∈ vs, v.Within ps) :
    Yields ps (·.Within ps) (invoke call n v vs) := by
  cases v with
  | command i c =>
    rw [invoke_command]
    split_ifs
    · exact .located _ (hcall c vs hv hvs)
    · exact .fail _ _
  | number x => exact .fail _ _
  | text t => exact .fail _ _
  | boolean b => exact .fail _ _
  | none => exact .fail _ _

mutual

theorem eval_yields (hcall : Handler.Within ps call) : ∀ e : Expr, e.positions ⊆ ps →
    Yields ps (·.Within ps) (eval call e)
  | .literal l, _ =>
    .pure (Value.within_of_type (by cases l <;> simp [Value.ofLiteral, Value.type]))
  | .name _ n, _ => .variableValue n
  | .group inner, h => eval_yields hcall inner (by simpa only [Expr.positions] using h)
  | .unary _ _ right, h => by
    rw [Expr.positions, List.cons_subset] at h
    exact .bind (eval_yields hcall right h.2) fun _ _ =>
      .ofExcept fun _ hop => Value.within_of_type (UnaryOp.type_of_apply hop)
  | .binary left _ _ right, h => by
    rw [Expr.positions, List.cons_subset, List.append_subset] at h
    exact .bind (eval_yields hcall left h.2.1) fun _ _ =>
      .bind (eval_yields hcall right h.2.2) fun _ _ =>
        .ofExcept fun _ hop => Value.within_of_type (BinaryOp.type_of_apply hop)
  | .comparison first links, h => by
    rw [Expr.positions, List.append_subset] at h
    exact evalChain_yields hcall (eval_yields hcall first h.1) links h.2
  | .ternary condition left right, h => by
    rw [Expr.positions, List.append_subset, List.append_subset] at h
    refine .bind (eval_yields hcall condition h.1.1) fun v _ => ?_
    split_ifs
    · exact eval_yields hcall left h.1.2
    · exact eval_yields hcall right h.2
  | .call n args, h => by
    rw [Expr.positions, List.cons_subset] at h
    exact .bind (.callee n) fun _ hv => .bind (evalAll_yields hcall args h.2) fun _ hvs =>
      invoke_yields hcall n hv hvs

theorem evalChain_yields (hcall : Handler.Within ps call) {left : Run Value}
    (hleft : Yields ps (·.Within ps) left) : ∀ links : List (Link Expr), linkPositions links ⊆ ps →
      Yields ps (·.Within ps) (evalChain call left links)
  | [], _ => .pure trivial
  | ⟨_, _, right⟩ :: rest, h => by
    rw [linkPositions, List.cons_subset, List.append_subset] at h
    refine .bind hleft fun _ _ => .bind (eval_yields hcall right h.2.1) fun _ _ => ?_
    refine .bind (P := fun _ => True) (.ofExcept fun _ _ => trivial) fun v _ => ?_
    split_ifs
    · exact evalChain_yields hcall (eval_yields hcall right h.2.1) rest h.2.2
    · exact .pure trivial

theorem evalAll_yields (hcall : Handler.Within ps call) : ∀ es : List Expr, argPositions es ⊆ ps →
    Yields ps (fun vs => ∀ v ∈ vs, v.Within ps) (evalAll call es)
  | [], _ => .pure (by simp)
  | e :: es, h => by
    rw [argPositions, List.append_subset] at h
    refine .bind (eval_yields hcall e h.1) fun v hv => ?_
    refine .bind (evalAll_yields hcall es h.2) fun vs hvs => ?_
    exact .pure (List.forall_mem_cons.mpr ⟨hv, hvs⟩)

end

theorem followedBy_yields {rest : Run Flow} (h : Yields ps (·.value.Within ps) rest) {flow : Flow}
    (hflow : flow.value.Within ps) : Yields ps (·.value.Within ps) (flow.followedBy rest) := by
  cases flow with
  | normal => exact h
  | returned v => exact .pure hflow

theorem iterate_yields {test : Run Value} {body : Run Flow} (htest : Yields ps (·.Within ps) test)
    (hbody : Yields ps (·.value.Within ps) body) (n : Nat) :
    Yields ps (·.value.Within ps) (iterate test body n) := by
  induction n with
  | zero => exact .exhaust
  | succ n ih =>
    rw [iterate_succ]
    refine .bind htest fun v _ => ?_
    split_ifs
    · exact .bind hbody fun flow hflow => followedBy_yields ih hflow
    · exact .pure trivial

mutual

theorem exec_yields (hcall : Handler.Within ps call) (fuel : Nat) : ∀ s : Stmt, s.positions ⊆ ps →
    Yields ps (·.value.Within ps) (exec call fuel s)
  | .init n e, h => by
    rw [Stmt.positions, List.cons_subset] at h
    exact .bind (eval_yields hcall e h.2) fun _ hv => .bind (.declare n hv) fun _ _ => .pure trivial
  | .set n e, h => by
    rw [Stmt.positions, List.cons_subset] at h
    exact .bind (eval_yields hcall e h.2) fun _ hv => .bind (.assign n hv) fun _ _ => .pure trivial
  | .condition test thenBody none, h => by
    rw [Stmt.positions, List.append_subset] at h
    refine .bind (eval_yields hcall test h.1) fun v _ => ?_
    split_ifs
    · exact execAll_yields hcall fuel thenBody h.2
    · exact .pure trivial
  | .condition test thenBody (some elseBody), h => by
    rw [Stmt.positions, List.append_subset, List.append_subset] at h
    refine .bind (eval_yields hcall test h.1.1) fun v _ => ?_
    split_ifs
    · exact execAll_yields hcall fuel thenBody h.1.2
    · exact execAll_yields hcall fuel elseBody h.2
  | .loop test body, h => by
    rw [Stmt.positions, List.append_subset] at h
    exact iterate_yields (eval_yields hcall test h.1) (execAll_yields hcall fuel body h.2) fuel
  | .definition n params body, h =>
    .bind (.closure (d := ⟨n, params, body⟩) (by
      simpa only [Stmt.positions, Definition.positions] using h)) fun _ hv =>
      .bind (.declare n hv) fun _ _ => .pure trivial
  | .ret _ none, _ => .pure trivial
  | .ret _ (some e), h => by
    rw [Stmt.positions, List.cons_subset] at h
    exact .bind (eval_yields hcall e h.2) fun _ hv => .pure hv
  | .expression e, h => by
    rw [Stmt.positions] at h
    exact .bind (eval_yields hcall e h) fun _ _ => .pure trivial
  | .body stmts, h => execAll_yields hcall fuel stmts (by simpa only [Stmt.positions] using h)
  | .pass, _ => .pure trivial

theorem execAll_yields (hcall : Handler.Within ps call) (fuel : Nat) :
    ∀ ss : List Stmt, bodyPositions ss ⊆ ps →
    Yields ps (·.value.Within ps) (execAll call fuel ss)
  | [], _ => .pure trivial
  | s :: rest, h => by
    rw [bodyPositions, List.append_subset] at h
    rw [execAll_cons]
    exact .bind (exec_yields hcall fuel s h.1) fun flow hflow =>
      followedBy_yields (execAll_yields hcall fuel rest h.2) hflow

end

end walk

theorem Definition.body_subset {d : Definition} (h : d.positions ⊆ ps) :
    d.params.map Name.pos ⊆ ps ∧ bodyPositions d.body ⊆ ps := by
  rw [positions, List.cons_subset, List.append_subset] at h
  exact h.2

theorem apply_within (fuel : Nat) : Handler.Within ps (apply fuel) := by
  induction fuel with
  | zero =>
    intro c vs hc hvs
    cases c with
    | native k => exact .native k hvs
    | defined d home => exact .exhaust
  | succ fuel ih =>
    intro c vs hc hvs
    cases c with
    | native k => exact .native k hvs
    | defined d home =>
      refine .bind (.openFrame home) fun f _ => .bind (.bindParams f d.params hvs) fun _ _ => ?_
      have hbody := execAll_yields ih fuel d.body (Definition.body_subset hc).2
      exact .bind (.nested (.inFrame f hbody)) fun flow hflow => .pure hflow

/-! ## Moments within a text -/

def Task.Within (ps : List Position) : Task → Prop
  | .expr e => e.positions ⊆ ps
  | .chain left links => left.positions ⊆ ps ∧ linkPositions links ⊆ ps
  | .args es => argPositions es ⊆ ps
  | .stmt s => s.positions ⊆ ps
  | .stmts ss => bodyPositions ss ⊆ ps
  | .loop test body _ => test.positions ⊆ ps ∧ bodyPositions body ⊆ ps
  | .call c vs => c.Within ps ∧ ∀ v ∈ vs, v.Within ps
  | .params _ ns vs => ns.map Name.pos ⊆ ps ∧ ∀ v ∈ vs, v.Within ps

/-- What a moment runs and what it knows is within a text. -/
structure Moment.Within (ps : List Position) (a : Moment) : Prop where
  task : a.task.Within ps
  machine : a.machine.Within ps

theorem Stmt.operand?_positions {s : Stmt} {e : Expr} (hs : s.operand? = some e)
    (h : s.positions ⊆ ps) : e.positions ⊆ ps := by
  cases s with
  | init n e' | set n e' =>
    cases hs
    exact (List.cons_subset.mp h).2
  | expression e' =>
    cases hs
    exact h
  | condition test thenBody elseBody =>
    cases hs
    cases elseBody with
    | none => exact (List.append_subset.mp h).1
    | some other => exact (List.append_subset.mp (List.append_subset.mp h).1).1
  | ret p value =>
    cases value with
    | none => cases hs
    | some e' =>
      cases hs
      exact (List.cons_subset.mp h).2
  | loop | definition | body | pass => cases hs

theorem Starts.within {call : Handler} {fuel : Nat} (hcall : Handler.Within ps call) {t t₁ : Task}
    {m m₁ : Machine} (h : Starts call fuel t m t₁ m₁) (ht : t.Within ps) (hm : m.Within ps) :
    t₁.Within ps ∧ m₁.Within ps := by
  have heval : ∀ {e : Expr} {m a m₁}, e.positions ⊆ ps → m.Within ps →
      eval call e m = .done a m₁ → m₁.Within ps := fun {e m a m₁} he hm h =>
    (eval_yields hcall e he m hm a m₁ h).2
  cases h with
  | inner | body => exact ⟨ht, hm⟩
  | chain | loop => exact ⟨List.append_subset.mp ht, hm⟩
  | operand => exact ⟨(List.cons_subset.mp ht).2, hm⟩
  | left => exact ⟨(List.append_subset.mp (List.cons_subset.mp ht).2).1, hm⟩
  | right h =>
    obtain ⟨hleft, hright⟩ := List.append_subset.mp (List.cons_subset.mp ht).2
    exact ⟨hright, heval hleft hm h⟩
  | chainLeft => exact ⟨ht.1, hm⟩
  | chainRight h =>
    obtain ⟨hright, -⟩ := List.append_subset.mp (List.cons_subset.mp ht.2).2
    exact ⟨hright, heval ht.1 hm h⟩
  | chainNext h h' =>
    obtain ⟨hright, hrest⟩ := List.append_subset.mp (List.cons_subset.mp ht.2).2
    exact ⟨⟨hright, hrest⟩, heval hright (heval ht.1 hm h) h'⟩
  | test => exact ⟨(List.append_subset.mp (List.append_subset.mp ht).1).1, hm⟩
  | choice h =>
    obtain ⟨hfirst, hright⟩ := List.append_subset.mp ht
    obtain ⟨hcondition, hleft⟩ := List.append_subset.mp hfirst
    refine ⟨?_, heval hcondition hm h⟩
    rw [Task.Within]
    split_ifs
    · exact hleft
    · exact hright
  | callArgs h =>
    exact ⟨(List.cons_subset.mp ht).2, (Yields.callee _ m hm _ _ h).2⟩
  | call h h' =>
    obtain ⟨hc, hm₁⟩ := Yields.callee _ m hm _ _ h
    obtain ⟨hvs, hm₂⟩ := evalAll_yields hcall _ (List.cons_subset.mp ht).2 _ hm₁ _ _ h'
    exact ⟨⟨hc, hvs⟩, hm₂⟩
  | arg => exact ⟨(List.append_subset.mp ht).1, hm⟩
  | argsNext h => exact ⟨(List.append_subset.mp ht).2, heval (List.append_subset.mp ht).1 hm h⟩
  | value hs => exact ⟨Stmt.operand?_positions hs ht, hm⟩
  | @thenBody e b o m v m₁ h =>
    have he : e.positions ⊆ ps := Stmt.operand?_positions (s := .condition e b o) rfl ht
    cases o with
    | none => exact ⟨(List.append_subset.mp ht).2, heval he hm h⟩
    | some o => exact ⟨(List.append_subset.mp (List.append_subset.mp ht).1).2, heval he hm h⟩
  | @elseBody e b o m v m₁ h =>
    have he : e.positions ⊆ ps := Stmt.operand?_positions (s := .condition e b (some o)) rfl ht
    exact ⟨(List.append_subset.mp ht).2, heval he hm h⟩
  | loopTest => exact ⟨ht.1, hm⟩
  | loopBody h => exact ⟨ht.2, heval ht.1 hm h⟩
  | loopNext h hv h' =>
    exact ⟨ht, (execAll_yields hcall fuel _ ht.2 _ (heval ht.1 hm h) _ _ h').2⟩
  | head => exact ⟨(List.append_subset.mp ht).1, hm⟩
  | tail h =>
    obtain ⟨hs, hrest⟩ := List.append_subset.mp ht
    exact ⟨hrest, (exec_yields hcall fuel _ hs m hm _ _ h).2⟩
  | params h =>
    exact ⟨⟨(Definition.body_subset ht.1).1, ht.2⟩, (Yields.openFrame _ m hm _ _ h).2⟩

/-- Wherever a run gets to, it stays within the text. -/
theorem Reaches.within {a b : Moment} {n : Nat} (h : Reaches a n b) (ha : a.Within ps) :
    b.Within ps := by
  induction h with
  | here => exact ha
  | @inside fuel t m t₁ m₁ n b hs hr ih =>
    obtain ⟨ht, hm⟩ := hs.within (apply_within fuel) ha.task ha.machine
    exact ih ⟨ht, hm⟩
  | enter hf hp hlimit hr ih =>
    obtain ⟨hc, hvs⟩ := ha.task
    have hm₁ := (Yields.openFrame _ _ ha.machine _ _ hf).2
    have hm₂ := (Yields.bindParams _ _ hvs _ hm₁ _ _ hp).2
    exact ih ⟨(Definition.body_subset hc).2, hm₂⟩

theorem Task.marks_subset {t : Task} (h : t.Within ps) : t.marks ⊆ ps := by
  cases t with
  | expr e =>
    cases e with
    | name k n => exact h
    | unary | binary | call => simpa [marks] using (List.cons_subset.mp h).1
    | literal | group | comparison | ternary => exact List.nil_subset _
  | chain left links =>
    cases links with
    | nil => exact List.nil_subset _
    | cons l rest => simpa [marks] using (List.cons_subset.mp h.2).1
  | stmt s =>
    cases s with
    | init | set | definition => simpa [marks] using (List.cons_subset.mp h).1
    | condition | loop | ret | expression | body | pass => exact List.nil_subset _
  | params f ns vs => exact h.1
  | args | stmts | loop | call => exact List.nil_subset _

theorem Native.error_of_standard {k : Native} (hk : k ∈ Native.standard) {vs : List Value}
    {m m' : Machine} {e : RuntimeError} (h : k.run vs m = .failed e m') :
    ∃ o, e = ⟨.output o, none⟩ := by
  obtain ⟨sink, count, ⟨v, hv, -⟩ | ⟨e', he', hout⟩⟩ := k.run_cases m vs
  · rw [h] at hv
    cases hv
  · rw [h] at he'
    cases he'
    exact hout hk

theorem Moment.Raises.within {a : Moment} {e : RuntimeError} (h : a.Raises e) (ha : a.Within ps) :
    ∃ p ∈ ps, e.pos = some p := by
  cases h with
  | own h ho =>
    obtain ⟨p, hp, hpos⟩ := ho.pos
    exact ⟨p, Task.marks_subset ha.task hp, hpos⟩
  | @native fuel n es m i k m₁ vs m₂ e m₃ hn hes hk =>
    have hstandard : k ∈ Native.standard := (Yields.callee n m ha.machine _ _ hn).1
    obtain ⟨o, rfl⟩ := Native.error_of_standard hstandard hk
    exact ⟨n.pos, (List.cons_subset.mp ha.task).1, rfl⟩
  | limit hn hes hdepth => exact ⟨_, (List.cons_subset.mp ha.task).1, rfl⟩

/-! ## Errors of programs -/

/-- An error that is met within a text has a position of the text; only the errors of a command that
is run may have none yet. -/
theorem Moment.pos_of_failsWith {a : Moment} {e : RuntimeError} (ha : a.Within ps)
    (h : a.FailsWith e) : (e.pos = none ∧ a.task.isCall = true) ∨ ∃ p ∈ ps, e.pos = some p := by
  obtain ⟨fuel, t, m⟩ := a
  have hraised : ∀ {fuel t m}, t.isCall = false → Moment.Within ps ⟨fuel, t, m⟩ →
      Moment.FailsWith ⟨fuel, t, m⟩ e → ∃ p ∈ ps, e.pos = some p := by
    intro fuel t m ht ha h
    obtain ⟨n, b, hr, hb⟩ := Moment.raised ht h
    exact hb.within (hr.within ha)
  by_cases ht : t.isCall = false
  · exact .inr (hraised ht ha h)
  · obtain ⟨c, vs, rfl⟩ : ∃ c vs, t = .call c vs := by
      cases t with
      | call c vs => exact ⟨c, vs, rfl⟩
      | _ => exact absurd rfl ht
    cases c with
    | native k =>
      have hrun : (k.run vs m).stop? = some (some e) := by cases fuel <;> exact h
      obtain ⟨m₁, hm₁⟩ := Outcome.stop?_eq_error.mp hrun
      obtain ⟨o, rfl⟩ := Native.error_of_standard ha.task.1 hm₁
      exact .inl ⟨rfl, rfl⟩
    | defined d home =>
      cases fuel with
      | zero => cases h
      | succ fuel =>
        obtain ⟨hd, hvs⟩ := ha.task
        rcases (enter_stop? rfl).mp h with hparams | ⟨u, m₂, hparams, hbody⟩
        · obtain ⟨p, hp, hpos⟩ := (bindParams_fails hparams).pos
          exact .inr ⟨p, (Definition.body_subset hd).1 hp, hpos⟩
        · split_ifs at hbody with hlimit
          · have hm₁ := (Yields.openFrame home m ha.machine _ _ rfl).2
            have hm₂ := (Yields.bindParams _ _ hvs _ hm₁ _ _ hparams).2
            have hin : Moment.Within ps ⟨fuel, .stmts d.body, m₂.entering m.store.next⟩ :=
              ⟨(Definition.body_subset hd).2, hm₂⟩
            exact .inr (hraised rfl hin hbody)
          · cases hbody
            exact .inl ⟨rfl, rfl⟩

theorem Session.error_of_run {source : String} {p : Program} {fuel : Nat} {m m' : Machine}
    {e : RuntimeError} (hp : parseSource source = .ok p)
    (hrun : Session.run fuel source m = (.failure (.runtime e), m')) :
    (e.pos = none ∧ ∃ m₁ ∈ (statementsOf p fuel m).machine?, flush m₁ = .failed e m') ∨
      ∃ m₁, statementsOf p fuel m = .failed e m₁ ∧ flush m₁ = .done () m' := by
  rw [Session.run_of_ok hp, Session.ofRun, runOf_apply] at hrun
  cases ho : (statementsOf p fuel m).flushed with
  | done u m₁ =>
    rw [ho] at hrun
    cases hrun
  | exhausted =>
    rw [ho] at hrun
    cases hrun
  | failed e₁ m₁ =>
    rw [ho] at hrun
    cases hrun
    rcases Outcome.flushed_eq_failed ho with hfailed | ⟨m₁, hm₁, hflush⟩
    · exact .inr hfailed
    · obtain ⟨err, rfl⟩ := flush_eq_failed hflush
      exact .inl ⟨rfl, m₁, hm₁, hflush⟩

/-- **Errors are located.** Let a source text be read and run on a fresh machine. If the run ends
with an error, then this is the error of the flush at the end, which has no position, or it is the
error that its statements end with, and stands at a token of the text; then the flush has worked.

An error that is met at any moment of the run, in any number of calls, has no position only while it
comes out of a command that is run; then the call of the command gives it one. From there on, or
from the start, it stands at a token of the text, and it is this very error, with this position,
that the statements end with, unless there is not enough fuel for what they do. -/
theorem errors_located {source : String} {ts : List Token} {p : Program}
    (hts : tokenize source = .ok ts) (hp : parseSource source = .ok p) (fuel limit : Nat)
    (sink : Sink) (readings : Nat → Float) :
    let m := Machine.standard limit sink readings
    (∀ e m', Session.run fuel source m = (.failure (.runtime e), m') →
      (e.pos = none ∧ ∃ m₁ ∈ (statementsOf p fuel m).machine?, flush m₁ = .failed e m') ∨
      (∃ t ∈ ts, e.pos = some t.pos) ∧
        ∃ m₁, statementsOf p fuel m = .failed e m₁ ∧ flush m₁ = .done () m') ∧
    ∀ n b e, Reaches ((Job.program p).start fuel m) n b → b.FailsWith e →
      (e.pos = none ∧ b.task.isCall = true) ∨
      (∃ t ∈ ts, e.pos = some t.pos) ∧
        (statementsOf p fuel m ≠ .exhausted → ∃ m', statementsOf p fuel m = .failed e m') := by
  intro m
  have hstart : ((Job.program p).start fuel m).Within (ts.map Token.pos) :=
    ⟨parseSource_positions hts hp, standard_within limit sink readings⟩
  have htoken : ∀ {e : RuntimeError}, (∃ q ∈ ts.map Token.pos, e.pos = some q) →
      ∃ t ∈ ts, e.pos = some t.pos := by
    rintro e ⟨q, hq, hpos⟩
    obtain ⟨t, ht, rfl⟩ := List.mem_map.mp hq
    exact ⟨t, ht, hpos⟩
  constructor
  · intro e m' hrun
    rcases Session.error_of_run hp hrun with hflush | ⟨m₁, hfailed, hflush⟩
    · exact .inl hflush
    · have hfails : ((Job.program p).start fuel m).FailsWith e :=
        Outcome.stop?_eq_error.mpr ⟨m₁, hfailed⟩
      rcases Moment.pos_of_failsWith hstart hfails with ⟨-, hcall⟩ | hpos
      · cases hcall
      · exact .inr ⟨htoken hpos, m₁, hfailed, hflush⟩
  · intro n b e hb hfails
    rcases Moment.pos_of_failsWith (hb.within hstart) hfails with hnone | hpos
    · exact .inl hnone
    · refine .inr ⟨htoken hpos, fun hend => ?_⟩
      obtain ⟨q, -, hq⟩ := hpos
      obtain ⟨r, hr, hout⟩ := hb.stop? hfails
      cases r with
      | none => exact absurd (Outcome.stop?_eq_exhausted.mp hr) hend
      | some e' =>
        rw [hout.eq_of_pos hq] at hr
        exact Outcome.stop?_eq_error.mp hr

/-- A command that prints a variable which is not declared, and a call of it. -/
def unbound : String := "DEF F\n  PRINT x\nF\n"

def unboundCommand : Definition where
  name := ⟨"F", ⟨1, 5⟩⟩
  params := []
  body := [.expression (.call ⟨"PRINT", ⟨2, 3⟩⟩ [.name .variable ⟨"x", ⟨2, 9⟩⟩])]

def unboundProgram : Program :=
  [.definition unboundCommand.name [] unboundCommand.body, .expression (.call ⟨"F", ⟨3, 1⟩⟩ [])]

/-- The error is met inside the command, and has its position from there. -/
theorem errors_located_unbound :
    let m := Machine.standard 1 .unlimited fun _ => 0
    let e : RuntimeError := ⟨.undefinedVariable "x", some ⟨2, 9⟩⟩
    ∃ ts, tokenize unbound = .ok ts ∧ parseSource unbound = .ok unboundProgram ∧
      (∃ m', Session.run 2 unbound m = (.failure (.runtime e), m')) ∧
      (∃ b, Reaches ((Job.program unboundProgram).start 2 m) 1 b ∧ b.FailsWith e) ∧
      (∃ t ∈ ts, e.pos = some t.pos) ∧ ∃ m', statementsOf unboundProgram 2 m = .failed e m' := by
  intro m e
  obtain ⟨ts, hts⟩ : ∃ ts, tokenize unbound = .ok ts := ⟨_, by cbv⟩
  have hp : parseSource unbound = .ok unboundProgram := by cbv
  obtain ⟨m', hrun⟩ : ∃ m', Session.run 2 unbound m = (.failure (.runtime e), m') := ⟨_, by cbv⟩
  obtain ⟨m₁, hdefined, hcallee, hlimit, hbody⟩ : ∃ m₁,
      exec (apply 2) 2 (.definition unboundCommand.name [] unboundCommand.body) m =
        .done .normal m₁ ∧
      callee ⟨"F", ⟨3, 1⟩⟩ m₁ = .done (.command 3 (.defined unboundCommand 0)) m₁ ∧
      m₁.depth < m₁.limit ∧
      Moment.FailsWith ⟨1, .stmts unboundCommand.body, Machine.entering
        { m₁ with store := m₁.store.push ⟨some 0, []⟩ } m₁.store.next⟩ e :=
    ⟨_, rfl, by cbv, by decide, by cbv⟩
  have hargs : evalAll (apply 2) [] m₁ = .done [] m₁ := rfl
  have hcall : Reaches ⟨2, .expr (.call ⟨"F", ⟨3, 1⟩⟩ []), m₁⟩ 1 _ :=
    .inside (.call hcallee hargs rfl) (.enter rfl rfl hlimit .here)
  have hreaches : Reaches ((Job.program unboundProgram).start 2 m) 1 _ :=
    .inside (.tail hdefined) (.inside .head (.inside (.value rfl) hcall))
  obtain ⟨-, hmoments⟩ := errors_located hts hp 2 1 .unlimited fun _ => 0
  rcases hmoments 1 _ e hreaches hbody with ⟨hnone, -⟩ | ⟨htoken, hend⟩
  · cases hnone
  · refine ⟨ts, hts, hp, ⟨m', hrun⟩, ⟨_, hreaches, hbody⟩, htoken, hend ?_⟩
    intro hexhausted
    rw [Session.run_of_ok hp, Session.ofRun, runOf_apply, hexhausted] at hrun
    cases hrun

end Offside
