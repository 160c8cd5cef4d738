import Mathlib.Data.List.Forall2
import Offside.Proofs.Run.Frames
import Offside.Proofs.Run.Traces
import Offside.Proofs.Syntax.Recast

/-!
# Runs that mirror each other

A second run mirrors a first if it runs the same program in other words, in frames with other
numbers, and among frames that the first does not have (`Mirror`). Only the frames that the first
run can come to have to be there in the second, and everything that it comes to is there: machines
that mirror each other stay so with every basic step (`Mirror.Machines`, `Mirror.Runs`), and with
every built-in command (`Mirror.native`).
-/

namespace Offside

open Run

/-! ## Values and frames in other words -/

def Command.recast (τ : Recast) : Command → Command
  | defined d home => defined (d.recast τ) home
  | native n => native n

def Command.renumber (ρ : FrameId → FrameId) : Command → Command
  | defined d home => defined d (ρ home)
  | native n => native n

/-- The value with another command in it, if it is one. -/
def Value.onCommand (h : Command → Command) : Value → Value
  | command i c => command i (h c)
  | v => v

def Frame.map (ρ : FrameId → FrameId) (h : Value → Value) (f : Frame) : Frame :=
  ⟨f.enclosing.map ρ, f.bindings.map fun b => (b.1, h b.2)⟩

section onCommand

variable (h : Command → Command)

@[simp] theorem Value.type_onCommand (v : Value) : (v.onCommand h).type = v.type := by
  cases v <;> rfl

@[simp] theorem Value.isTruthy_onCommand (v : Value) : (v.onCommand h).isTruthy = v.isTruthy := by
  cases v <;> rfl

theorem Value.onCommand_eq_self {v : Value} (hv : ∀ i c, v = .command i c → h c = c) :
    v.onCommand h = v := by
  cases v with
  | command i c => rw [onCommand, hv i c rfl]
  | number x => rfl
  | text s => rfl
  | boolean b => rfl
  | none => rfl

/-- Operators look at the types of values and at which command is which, not into commands. -/
theorem BinaryOp.apply_onCommand (op : BinaryOp) (a b : Value) :
    op.apply (a.onCommand h) (b.onCommand h) = op.apply a b := by
  cases op <;> cases a <;> cases b <;> rfl

theorem UnaryOp.apply_onCommand (op : UnaryOp) (a : Value) :
    op.apply (a.onCommand h) = op.apply a := by
  cases op <;> cases a <;> rfl

end onCommand

section map

variable (ρ : FrameId → FrameId) (h : Value → Value)

theorem Frame.get?_map (f : Frame) (x : String) : (f.map ρ h).get? x = (f.get? x).map h := by
  unfold Frame.map Frame.get?
  simp only
  induction f.bindings with
  | nil => rfl
  | cons b bs ih =>
    rw [List.map_cons, List.lookup_cons, List.lookup_cons, ih]
    cases x == b.1 <;> rfl

theorem Frame.binds_map (f : Frame) (x : String) : (f.map ρ h).binds x = f.binds x := by
  rw [Frame.binds, Frame.binds, Frame.get?_map, Option.isSome_map]

theorem Frame.map_bind (f : Frame) (x : String) (v : Value) :
    (f.bind x v).map ρ h = (f.map ρ h).bind x (h v) := rfl

theorem Frame.map_rebind (f : Frame) (x : String) (v : Value) :
    (f.rebind x v).map ρ h = (f.map ρ h).rebind x (h v) := by
  unfold Frame.map Frame.rebind
  simp only [List.map_map, Frame.mk.injEq, true_and]
  refine List.map_congr_left fun b _ => ?_
  simp only [Function.comp_apply]
  split_ifs <;> rfl

end map

/-! ## Mirrors -/

/-- How a second run mirrors a first. -/
structure Mirror where
  /-- The second runs the program in these words. -/
  recast : Recast
  /-- The numbers of frames in the second run. -/
  frame : FrameId → FrameId
  /-- The frames that the first run can come to. -/
  live : FrameId → Prop
  /-- How many frames the first run begins with. -/
  top : FrameId
  /-- The frames it begins with. -/
  base : Store
  increasing {g h : FrameId} (hg : live g) (hh : live h) : frame g < frame h ↔ g < h
  fresh {g : FrameId} (hg : top ≤ g) : live g
  frame_succ {g : FrameId} (hg : top ≤ g) : frame (g + 1) = frame g + 1

namespace Mirror

variable (β : Mirror)

def command (c : Command) : Command := (c.recast β.recast).renumber β.frame

def value (v : Value) : Value := v.onCommand β.command

/-- A frame in the second run. -/
def image (f : Frame) : Frame := f.map β.frame β.value

/-- The frame that a command was declared in can be come to. -/
def Lives : Value → Prop
  | .command _ (.defined _ home) => β.live home
  | _ => True

/-- A frame leads only to frames that can be come to. -/
structure Safe (f : Frame) : Prop where
  enclosing : ∀ g ∈ f.enclosing, β.live g
  bindings : ∀ b ∈ f.bindings, β.Lives b.2

/-- A value and the same in the second run. -/
def Values (v v' : Value) : Prop := v' = β.value v ∧ β.Lives v

def Lists (vs vs' : List Value) : Prop := vs' = vs.map β.value ∧ ∀ v ∈ vs, β.Lives v

/-- Both go on, or both return. -/
inductive Flows : Flow → Flow → Prop
  | normal : Flows .normal .normal
  | returned {v v' : Value} (hv : β.Values v v') : Flows (.returned v) (.returned v')

/-- The same error, at the same place of the program or at a place that has nothing to do with it.
-/
structure Errors (e e' : RuntimeError) : Prop where
  cause : e'.cause = e.cause
  pos : e'.pos = e.pos.map β.recast.place ∨ e'.pos = e.pos

/-- The frames that the first run can come to are in the second store too, and the others have not
changed since the beginning. -/
structure Stores (s s' : Store) : Prop where
  next : s'.next = β.frame s.next
  top : β.top ≤ s.next
  frames {g : FrameId} (hg : β.live g) : s'.frames[β.frame g]? = s.frames[g]?.map β.image
  safe {g : FrameId} {f : Frame} (hg : β.live g) (hf : s.frames[g]? = some f) : β.Safe f
  kept {g : FrameId} (hg : ¬β.live g) : s.frames[g]? = β.base.frames[g]?

/-- Machines that differ in their frames only. -/
def Machines (m m' : Machine) : Prop :=
  β.live m.current ∧
    ∃ s', β.Stores m.store s' ∧ m' = { m with store := s', current := β.frame m.current }

/-- Both end in the same way, or both do not end. -/
inductive Outcomes {α : Type} (R : α → α → Prop) : Outcome α → Outcome α → Prop
  | done {a a' m m'} (ha : R a a') (hm : β.Machines m m') : Outcomes R (.done a m) (.done a' m')
  | failed {e e' m m'} (he : β.Errors e e') (hm : β.Machines m m') :
      Outcomes R (.failed e m) (.failed e' m')
  | exhausted : Outcomes R .exhausted .exhausted

/-- From machines that mirror each other, both end in the same way. -/
def Runs {α : Type} (R : α → α → Prop) (x x' : Run α) : Prop :=
  ∀ m m' : Machine, β.Machines m m' → β.Outcomes R (x m) (x' m')

/-- And so do all machines on the way. -/
structure Traces {α : Type} (R : α → α → Prop) (y y' : Trace α) : Prop where
  runs : β.Runs R y.outcome y'.outcome
  states {m m' : Machine} (hm : β.Machines m m') :
    List.Forall₂ β.Machines (y.states m) (y'.states m')

variable {β}

theorem frame_inj {g h : FrameId} (hg : β.live g) (hh : β.live h) :
    β.frame g = β.frame h ↔ g = h := by
  constructor
  · intro heq
    have hgh := β.increasing hg hh
    have hhg := β.increasing hh hg
    rw [heq] at hgh hhg
    exact Nat.le_antisymm (Nat.le_of_not_lt fun h => Nat.lt_irrefl _ (hhg.mpr h))
      (Nat.le_of_not_lt fun h => Nat.lt_irrefl _ (hgh.mpr h))
  · intro heq
    rw [heq]

/-! ## Values -/

theorem display_value (v : Value) : (β.value v).display = v.display := by
  cases v with
  | command i c => cases c <;> rfl
  | number x => rfl
  | text s => rfl
  | boolean b => rfl
  | none => rfl

theorem arity_command (c : Command) : (β.command c).arity = c.arity := by
  cases c with
  | defined d home =>
    show Arity.exactly (d.params.map _).length = _
    rw [List.length_map]
    rfl
  | native n => rfl

theorem lives_of_home {v : Value}
    (hv : ∀ i d home, v = .command i (.defined d home) → β.live home) :
    β.Lives v := by
  cases v with
  | command i c =>
    cases c with
    | defined d home => exact hv i d home rfl
    | native n => trivial
  | number x => trivial
  | text s => trivial
  | boolean b => trivial
  | none => trivial

theorem values_of_type {v : Value} (hv : v.type ≠ .command) : β.Values v v := by
  constructor
  · refine (Value.onCommand_eq_self _ fun i c hc => ?_).symm
    rw [hc] at hv
    exact absurd rfl hv
  · refine lives_of_home fun i d home hc => ?_
    rw [hc] at hv
    exact absurd rfl hv

theorem getD_lists {vs vs' : List Value} (h : β.Lists vs vs') (i : Nat) :
    β.Values (vs.getD i .none) (vs'.getD i .none) := by
  obtain ⟨rfl, hlives⟩ := h
  rw [List.getD_eq_getElem?_getD, List.getD_eq_getElem?_getD, List.getElem?_map]
  cases hi : vs[i]? with
  | none => exact values_of_type (by simp [Value.type])
  | some v => exact ⟨rfl, hlives v (List.mem_of_getElem? hi)⟩

theorem seen_lists {vs vs' : List Value} (h : β.Lists vs vs') :
    vs'.map Value.seen = vs.map Value.seen := by
  rw [h.1, List.map_map]
  refine List.map_congr_left fun v _ => ?_
  unfold Value.seen
  rw [Function.comp_apply, display_value, value, Value.type_onCommand]

/-! ## Frames -/

theorem Safe.get? {f : Frame} (h : β.Safe f) {x : String} {v : Value} (hv : f.get? x = some v) :
    β.Lives v := by
  unfold Frame.get? at hv
  obtain ⟨bs, bs', hbs, -⟩ := List.lookup_eq_some_iff.mp hv
  exact h.bindings (x, v) (by simp [hbs])

theorem Safe.bind {f : Frame} (h : β.Safe f) {x : String} {v : Value} (hv : β.Lives v) :
    β.Safe (f.bind x v) :=
  ⟨h.enclosing, List.forall_mem_cons.mpr ⟨hv, h.bindings⟩⟩

theorem Safe.rebind {f : Frame} (h : β.Safe f) {x : String} {v : Value} (hv : β.Lives v) :
    β.Safe (f.rebind x v) := by
  refine ⟨h.enclosing, fun b hb => ?_⟩
  obtain ⟨c, hc, rfl⟩ := List.mem_map.mp hb
  split_ifs
  · exact hv
  · exact h.bindings c hc

namespace Stores

variable {s s' : Store} (hs : β.Stores s s')

include hs

theorem next_live : β.live s.next := β.fresh hs.top

/-- A change of a frame that can be come to, made in both stores. -/
theorem modify {f : FrameId} (hf : β.live f) {change change' : Frame → Frame}
    (himage : ∀ frame, β.image (change frame) = change' (β.image frame))
    (hsafe : ∀ frame, β.Safe frame → β.Safe (change frame)) :
    β.Stores (s.modify f change) (s'.modify (β.frame f) change') := by
  unfold Store.modify
  refine ⟨?_, ?_, fun {g} hg => ?_, fun {g frame} hg hframe => ?_, fun {g} hg => ?_⟩
  · simpa [Store.next] using hs.next
  · simpa [Store.next] using hs.top
  · simp only [Array.getElem?_modify, hs.frames hg, frame_inj hf hg]
    split_ifs
    · rw [Option.map_map, Option.map_map]
      exact congrArg (Option.map · _) (funext fun frame => (himage frame).symm)
    · rfl
  · rw [Array.getElem?_modify] at hframe
    split_ifs at hframe
    · obtain ⟨frame', hframe', rfl⟩ := Option.map_eq_some_iff.mp hframe
      exact hsafe frame' (hs.safe hg hframe')
    · exact hs.safe hg hframe
  · have hne : f ≠ g := fun h => hg (h ▸ hf)
    rw [Array.getElem?_modify, if_neg hne]
    exact hs.kept hg

theorem bind {f : FrameId} (hf : β.live f) (x : String) {v : Value} (hv : β.Lives v) :
    β.Stores (s.bind f x v) (s'.bind (β.frame f) x (β.value v)) :=
  hs.modify hf (fun frame => Frame.map_bind _ _ frame x v) fun _ h => h.bind hv

theorem rebind {f : FrameId} (hf : β.live f) (x : String) {v : Value} (hv : β.Lives v) :
    β.Stores (s.rebind f x v) (s'.rebind (β.frame f) x (β.value v)) :=
  hs.modify hf (fun frame => Frame.map_rebind _ _ frame x v) fun _ h => h.rebind hv

theorem push {home : FrameId} (hhome : β.live home) :
    β.Stores (s.push ⟨some home, []⟩) (s'.push ⟨some (β.frame home), []⟩) := by
  have hsize : s'.frames.size = β.frame s.frames.size := hs.next
  have hlive : β.live s.frames.size := hs.next_live
  refine ⟨?_, ?_, fun {g} hg => ?_, fun {g frame} hg hframe => ?_, fun {g} hg => ?_⟩
  · rw [Store.next_push, Store.next_push, hs.next, β.frame_succ hs.top]
  · rw [Store.next_push]
    exact Nat.le_succ_of_le hs.top
  · unfold Store.push
    simp only [Array.getElem?_push, hsize, frame_inj hg hlive]
    split_ifs
    · rfl
    · exact hs.frames hg
  · unfold Store.push at hframe
    simp only [Array.getElem?_push] at hframe
    split_ifs at hframe
    · cases hframe
      exact ⟨by simpa using hhome, by simp⟩
    · exact hs.safe hg hframe
  · have hne : g ≠ s.frames.size := fun h => hg (h ▸ hlive)
    unfold Store.push
    simp only [Array.getElem?_push, if_neg hne]
    exact hs.kept hg

theorem local? {g : FrameId} (hg : β.live g) (x : String) :
    s'.local? (β.frame g) x = (s.local? g x).map β.value := by
  rw [Store.local?_eq, Store.local?_eq, hs.frames hg]
  cases s.frames[g]? with
  | none => rfl
  | some frame => exact Frame.get?_map _ _ frame x

theorem lives_of_local? {g : FrameId} (hg : β.live g) {x : String} {v : Value}
    (h : s.local? g x = some v) : β.Lives v := by
  rw [Store.local?_eq] at h
  obtain ⟨frame, hframe, hv⟩ := Option.bind_eq_some_iff.mp h
  exact (hs.safe hg hframe).get? hv

theorem resolve {f : FrameId} (hf : β.live f) (x : String) :
    s'.resolve (β.frame f) x = (s.resolve f x).map β.frame ∧
      ∀ g, s.resolve f x = some g → β.live g := by
  fun_induction s.resolve f x with
  | case1 f hframe =>
    rw [Store.resolve, hs.frames hf, hframe]
    exact ⟨rfl, fun _ h => by cases h⟩
  | case2 f frame hframe hbinds =>
    rw [Store.resolve, hs.frames hf, hframe]
    simp only [Option.map_some, image, Frame.binds_map, hbinds]
    exact ⟨rfl, fun _ h => by cases h; exact hf⟩
  | case3 f frame hframe hbinds henclosing =>
    rw [Store.resolve, hs.frames hf, hframe]
    simp only [Option.map_some, image, Frame.binds_map, hbinds]
    simp only [Frame.map, henclosing]
    exact ⟨rfl, fun _ h => by cases h⟩
  | case4 f frame hframe hbinds g henclosing hlt ih =>
    have hg : β.live g := (hs.safe hf hframe).enclosing g henclosing
    rw [Store.resolve, hs.frames hf, hframe]
    simp only [Option.map_some, image, Frame.binds_map, hbinds]
    simp only [Frame.map, henclosing, Option.map_some, (β.increasing hg hf).mpr hlt]
    exact ih hg
  | case5 f frame hframe hbinds g henclosing hlt =>
    have hg : β.live g := (hs.safe hf hframe).enclosing g henclosing
    have hlt' : ¬β.frame g < β.frame f := fun h => hlt ((β.increasing hg hf).mp h)
    rw [Store.resolve, hs.frames hf, hframe]
    simp only [Option.map_some, image, Frame.binds_map, hbinds]
    simp only [Frame.map, henclosing, Option.map_some, hlt']
    exact ⟨rfl, fun _ h => by cases h⟩

theorem get? {f : FrameId} (hf : β.live f) (x : String) :
    s'.get? (β.frame f) x = (s.get? f x).map β.value ∧ ∀ v, s.get? f x = some v → β.Lives v := by
  obtain ⟨hresolve, hlive⟩ := hs.resolve hf x
  unfold Store.get?
  rw [hresolve]
  cases hr : s.resolve f x with
  | none => exact ⟨rfl, fun _ h => by cases h⟩
  | some g =>
    have hg := hlive g hr
    exact ⟨hs.local? hg x, fun v hv => hs.lives_of_local? hg hv⟩

end Stores

/-! ## Runs one after the other -/

section runs

variable {α γ : Type} {R : α → α → Prop} {Q : γ → γ → Prop}

theorem Runs.pure {a a' : α} (h : R a a') : β.Runs R (Pure.pure a) (Pure.pure a') :=
  fun _ _ hm => .done h hm

theorem Runs.bind {x x' : Run α} {f f' : α → Run γ} (h : β.Runs R x x')
    (hf : ∀ a a', R a a' → β.Runs Q (f a) (f' a')) : β.Runs Q (x >>= f) (x' >>= f') := by
  intro m m' hm
  show β.Outcomes Q (Run.bind x f m) (Run.bind x' f' m')
  have hx := h m m' hm
  unfold Run.bind
  generalize x m = o, x' m' = o' at hx ⊢
  cases hx with
  | done ha hm₁ => exact hf _ _ ha _ _ hm₁
  | failed he hm₁ => exact .failed he hm₁
  | exhausted => exact .exhausted

theorem Errors.within {e e' : RuntimeError} (he : β.Errors e e') (p : Position) :
    β.Errors (e.within p) (e'.within (β.recast.place p)) := by
  refine ⟨he.cause, ?_⟩
  have hpos := he.pos
  unfold RuntimeError.within
  simp only
  cases hp : e.pos with
  | none =>
    rw [hp] at hpos
    have hnone : e'.pos = none := by
      rcases hpos with h | h <;> exact h
    rw [hnone]
    exact .inl rfl
  | some q =>
    rw [hp] at hpos
    rcases hpos with h | h
    · rw [h]
      exact .inl rfl
    · rw [h]
      exact .inr rfl

theorem Runs.located {x x' : Run α} (p : Position) (h : β.Runs R x x') :
    β.Runs R (Run.located p x) (Run.located (β.recast.place p) x') := by
  intro m m' hm
  have hx := h m m' hm
  unfold Run.located
  generalize x m = o, x' m' = o' at hx ⊢
  cases hx with
  | done ha hm₁ => exact .done ha hm₁
  | failed he hm₁ => exact .failed (he.within p) hm₁
  | exhausted => exact .exhausted

theorem Runs.fail (cause : RuntimeError.Cause) (pos : Option Position) :
    β.Runs R (Run.fail cause pos) (Run.fail cause (pos.map β.recast.place)) :=
  fun _ _ hm => .failed ⟨rfl, .inl rfl⟩ hm

theorem Runs.exhaust : β.Runs R Run.exhaust Run.exhaust := fun _ _ _ => .exhausted

theorem Outcomes.onMachine {o o' : Outcome α} {g g' : Machine → Machine} (h : β.Outcomes R o o')
    (hg : ∀ m m', β.Machines m m' → β.Machines (g m) (g' m')) :
    β.Outcomes R (o.onMachine g) (o'.onMachine g') := by
  cases h with
  | done ha hm => exact .done ha (hg _ _ hm)
  | failed he hm => exact .failed he (hg _ _ hm)
  | exhausted => exact .exhausted

theorem Machines.goTo {m m' : Machine} (hm : β.Machines m m') {f : FrameId} (hf : β.live f) :
    β.Machines { m with current := f } { m' with current := β.frame f } := by
  obtain ⟨-, s', hs, rfl⟩ := hm
  exact ⟨hf, s', hs, rfl⟩

theorem Machines.deeper {m m' : Machine} (hm : β.Machines m m') :
    β.Machines { m with depth := m.depth + 1 } { m' with depth := m'.depth + 1 } := by
  obtain ⟨hlive, s', hs, rfl⟩ := hm
  exact ⟨hlive, s', hs, rfl⟩

theorem Machines.limit {m m' : Machine} (hm : β.Machines m m') : m'.limit = m.limit := by
  obtain ⟨-, s', -, rfl⟩ := hm
  rfl

theorem Machines.atLimit {m m' : Machine} (hm : β.Machines m m') :
    m'.limit ≤ m'.depth ↔ m.limit ≤ m.depth := by
  obtain ⟨-, s', -, rfl⟩ := hm
  rfl

theorem Runs.inFrame {f : FrameId} (hf : β.live f) {x x' : Run α} (h : β.Runs R x x') :
    β.Runs R (Run.inFrame f x) (Run.inFrame (β.frame f) x') := by
  intro m m' hm
  rw [inFrame_apply, inFrame_apply]
  refine (h _ _ (hm.goTo hf)).onMachine fun m₁ m₁' hm₁ => ?_
  obtain ⟨hlive, s', hs, rfl⟩ := hm
  exact hm₁.goTo hlive

theorem Runs.nested {x x' : Run α} (h : β.Runs R x x') :
    β.Runs R (Run.nested x) (Run.nested x') := by
  intro m m' hm
  by_cases hlimit : m.limit ≤ m.depth
  · rw [nested_limit x hlimit, nested_limit x' (hm.atLimit.mpr hlimit), hm.limit]
    exact .failed ⟨rfl, .inl rfl⟩ hm
  · have hlt' : m'.depth < m'.limit := Nat.lt_of_not_le (mt hm.atLimit.mp hlimit)
    rw [nested_apply x (Nat.lt_of_not_le hlimit), nested_apply x' hlt']
    refine (h _ _ hm.deeper).onMachine ?_
    rintro m₁ _ ⟨hlive₁, s₁, hs₁, rfl⟩
    exact ⟨hlive₁, s₁, hs₁, rfl⟩

end runs

/-! ## Basic steps -/

section steps

theorem variableValue (n : Name) :
    β.Runs β.Values (Offside.variableValue n) (Offside.variableValue (n.recast β.recast)) := by
  rintro m _ ⟨hlive, s', hs, rfl⟩
  obtain ⟨hget, hlives⟩ := hs.get? hlive n.text
  unfold Offside.variableValue
  simp only [Bind.bind, Run.bind, lookup?, Name.recast, hget]
  cases hv : m.store.get? m.current n.text with
  | none => exact .failed ⟨rfl, .inl rfl⟩ ⟨hlive, s', hs, rfl⟩
  | some v => exact .done ⟨rfl, hlives v hv⟩ ⟨hlive, s', hs, rfl⟩

theorem callee (n : Name) :
    β.Runs β.Values (Offside.callee n) (Offside.callee (n.recast β.recast)) := by
  rintro m _ ⟨hlive, s', hs, rfl⟩
  obtain ⟨hget, hlives⟩ := hs.get? hlive n.text
  have hm : β.Machines m _ := ⟨hlive, s', hs, rfl⟩
  unfold Offside.callee
  simp only [Bind.bind, Run.bind, lookup?, Name.recast, hget]
  cases hv : m.store.get? m.current n.text with
  | none => exact .failed ⟨rfl, .inl rfl⟩ hm
  | some v =>
    cases v with
    | none => exact .failed ⟨rfl, .inl rfl⟩ hm
    | command i c => exact .done ⟨rfl, hlives _ hv⟩ hm
    | number x => exact .done ⟨rfl, trivial⟩ hm
    | text t => exact .done ⟨rfl, trivial⟩ hm
    | boolean b => exact .done ⟨rfl, trivial⟩ hm

/-- Nothing is to be said of the results. -/
def Anything : Unit → Unit → Prop := fun _ _ => True

theorem declareIn {f : FrameId} (hf : β.live f) (n : Name) {v v' : Value} (hv : β.Values v v') :
    β.Runs Anything (Run.declareIn f n v) (Run.declareIn (β.frame f) (n.recast β.recast) v') := by
  rintro m _ ⟨hlive, s', hs, rfl⟩
  obtain ⟨rfl, hlives⟩ := hv
  unfold Run.declareIn
  simp only [Name.recast, hs.local? hf]
  cases m.store.local? f n.text with
  | none => exact .done trivial ⟨hlive, _, hs.bind hf n.text hlives, rfl⟩
  | some w => exact .failed ⟨rfl, .inl rfl⟩ ⟨hlive, s', hs, rfl⟩

theorem declare (n : Name) {v v' : Value} (hv : β.Values v v') :
    β.Runs Anything (Run.declare n v) (Run.declare (n.recast β.recast) v') := by
  rintro m _ ⟨hlive, s', hs, rfl⟩
  exact declareIn hlive n hv _ _ ⟨hlive, s', hs, rfl⟩

theorem assign (n : Name) {v v' : Value} (hv : β.Values v v') :
    β.Runs Anything (Run.assign n v) (Run.assign (n.recast β.recast) v') := by
  rintro m _ ⟨hlive, s', hs, rfl⟩
  obtain ⟨rfl, hlives⟩ := hv
  obtain ⟨hresolve, hfound⟩ := hs.resolve hlive n.text
  unfold Run.assign
  simp only [Name.recast, hresolve]
  cases hg : m.store.resolve m.current n.text with
  | none => exact .failed ⟨rfl, .inl rfl⟩ ⟨hlive, s', hs, rfl⟩
  | some g => exact .done trivial ⟨hlive, _, hs.rebind (hfound g hg) n.text hlives, rfl⟩

theorem closure (d : Definition) :
    β.Runs β.Values (Run.closure d) (Run.closure (d.recast β.recast)) := by
  rintro m _ ⟨hlive, s', hs, rfl⟩
  exact .done ⟨rfl, hlive⟩ ⟨hlive, s', hs, rfl⟩

theorem openFrame {home : FrameId} (hhome : β.live home) :
    β.Runs (fun f f' => f' = β.frame f ∧ β.live f) (Run.openFrame home)
      (Run.openFrame (β.frame home)) := by
  rintro m _ ⟨hlive, s', hs, rfl⟩
  exact .done ⟨hs.next, hs.next_live⟩ ⟨hlive, _, hs.push hhome, rfl⟩

theorem request (ask : Sink → Sink × Option SinkError) :
    β.Runs Anything (Run.request ask) (Run.request ask) := by
  rintro m _ ⟨hlive, s', hs, rfl⟩
  unfold Run.request
  simp only
  cases (ask m.sink).2 with
  | none => exact .done trivial ⟨hlive, s', hs, rfl⟩
  | some e => exact .failed ⟨rfl, .inl rfl⟩ ⟨hlive, s', hs, rfl⟩

theorem readClock : β.Runs (fun x x' => x' = x) Run.readClock Run.readClock := by
  rintro m _ ⟨hlive, s', hs, rfl⟩
  exact .done rfl ⟨hlive, s', hs, rfl⟩

theorem hostResult (r : HostResult) {vs vs' : List Value} (hvs : β.Lists vs vs') :
    β.Runs β.Values (r.run vs) (r.run vs') := by
  cases r with
  | value l => exact .pure (values_of_type (by cases l <;> simp [Value.ofLiteral, Value.type]))
  | argument i => exact .pure (getD_lists hvs i)
  | failure e =>
    -- its position, if it has one, is not one of the program
    exact fun _ _ hm => .failed ⟨rfl, .inr rfl⟩ hm

/-- Built-in commands see of values what both runs have in common. -/
theorem native (n : Native) {vs vs' : List Value} (hvs : β.Lists vs vs') :
    β.Runs β.Values (n.run vs) (n.run vs') := by
  have hnone : β.Values .none .none := ⟨rfl, trivial⟩
  cases n with
  | print =>
    have htext : vs'.map Value.display = vs.map Value.display := by
      rw [hvs.1, List.map_map]
      exact List.map_congr_left fun v _ => display_value v
    unfold Native.run
    simp only [htext]
    exact (request _).bind fun _ _ _ => .pure hnone
  | clear => exact (request _).bind fun _ _ _ => (request _).bind fun _ _ _ => .pure hnone
  | clock =>
    refine readClock.bind fun x x' hx => .pure ?_
    rw [hx]
    exact ⟨rfl, trivial⟩
  | host c =>
    have hsome : β.Runs Anything (writeSome (c.output (vs.map Value.seen)))
        (writeSome (c.output (vs.map Value.seen))) := by
      cases c.output (vs.map Value.seen) with
      | none => exact .pure trivial
      | some text => exact request (·.write text)
    unfold Native.run
    simp only [seen_lists hvs]
    exact hsome.bind fun _ _ _ => hostResult _ hvs

end steps

end Mirror

end Offside
