import Offside.Proofs.Run.Fuel
import Offside.Proofs.Run.Frames

/-!
# Programs without loops halt

Without loops, all that a program can repeat it repeats by calls, and each statement of a body is
run once for every time the body is entered. How deep calls are nested is limited, so the run comes
to an end, with a result or an error: `k` levels below the limit this is shown by induction on `k`
(`Halts.apply`).

Commands are values that can be passed around, so it does not matter which one is called where. What
matters is that none of those that come up has a loop, and this persists because they all come from
the text of the program.
-/

namespace Offside

open Run

/-! ## Programs and machines without loops -/

def Rules.loopless : Rules := ⟨fun _ => true, fun _ => true, false⟩

/-- A value that is no command with loops. -/
def Value.Loopless : Value → Prop
  | .command _ (.defined d _) => bodyObeys .loopless d.body = true
  | _ => True

theorem Value.loopless_of_type {v : Value} (h : v.type ≠ .command) : v.Loopless := by
  cases v with
  | command i c => exact absurd rfl h
  | number x => trivial
  | text s => trivial
  | boolean b => trivial
  | none => trivial

/-- No value that is bound to a name has loops, and calls can go at most `k` levels deeper. -/
structure Calm (k : Nat) (m : Machine) : Prop where
  loopless : m.store.Holds fun _ v => v.Loopless
  room : m.limit ≤ m.depth + k

/-! ## Halting -/

/-- From a calm machine on, the run comes to an end, and leaves a calm machine. -/
def Halts (k : Nat) {α : Type} (m : Machine) (P : Machine → α → Prop) (x : Run α) : Prop :=
  Calm k m → ∃ m', (x m).machine? = some m' ∧ Calm k m' ∧ ∀ a, x m = .done a m' → P m' a

namespace Halts

variable {k : Nat} {α β : Type} {m : Machine} {P : Machine → α → Prop} {P' : Machine → β → Prop}

theorem of_done {x : Run α} {a : α} {m' : Machine} (h : x m = .done a m')
    (hcalm : Calm k m → Calm k m') (ha : Calm k m → P m' a) : Halts k m P x := by
  intro hm
  refine ⟨m', by rw [h]; rfl, hcalm hm, fun b hb => ?_⟩
  rw [h] at hb
  cases hb
  exact ha hm

theorem of_failed {x : Run α} {e : RuntimeError} {m' : Machine} (h : x m = .failed e m')
    (hcalm : Calm k m → Calm k m') : Halts k m P x := by
  intro hm
  refine ⟨m', by rw [h]; rfl, hcalm hm, fun b hb => ?_⟩
  rw [h] at hb
  cases hb

theorem bind {x : Run α} {f : α → Run β} (h : Halts k m P x)
    (hf : ∀ m' a, P m' a → Halts k m' P' (f a)) : Halts k m P' (x >>= f) := by
  intro hm
  obtain ⟨m', hend, hm', hP⟩ := h hm
  have hbind : (x >>= f) m = Run.bind x f m := rfl
  rw [hbind, Run.bind]
  cases hx : x m with
  | exhausted =>
    rw [hx] at hend
    cases hend
  | failed e m₁ =>
    rw [hx] at hend
    cases hend
    exact ⟨m', rfl, hm', fun b hb => by cases hb⟩
  | done a m₁ =>
    rw [hx] at hend
    cases hend
    exact hf m' a (hP a hx) hm'

theorem located {x : Run α} (p : Position) (h : Halts k m P x) : Halts k m P (located p x) := by
  intro hm
  obtain ⟨m', hend, hm', hP⟩ := h hm
  unfold Run.located
  cases hx : x m with
  | exhausted =>
    rw [hx] at hend
    cases hend
  | failed e m₁ =>
    rw [hx] at hend
    exact ⟨m', hend, hm', fun b hb => by cases hb⟩
  | done a m₁ =>
    rw [hx] at hend hP
    exact ⟨m', hend, hm', hP⟩

/-! ## Basic steps -/

theorem declareIn (f : FrameId) {n : Name} {v : Value} (hv : v.Loopless) :
    Halts k m (fun _ _ => True) (declareIn f n v) := by
  rcases declareIn_cases m f n v with ⟨w, -, h⟩ | ⟨-, h⟩
  · exact of_failed h id
  · exact of_done h (fun hm => ⟨hm.loopless.bind f hv, hm.room⟩) fun _ => trivial

theorem assign {n : Name} {v : Value} (hv : v.Loopless) :
    Halts k m (fun _ _ => True) (assign n v) := by
  rcases assign_cases m n v with ⟨-, h⟩ | ⟨g, -, h⟩
  · exact of_failed h id
  · exact of_done h (fun hm => ⟨hm.loopless.rebind g hv, hm.room⟩) fun _ => trivial

theorem native {n : Native} {vs : List Value} (hvs : ∀ v ∈ vs, v.Loopless) :
    Halts k m (fun _ v => v.Loopless) (n.run vs) := by
  obtain ⟨sink, count, ⟨v, h, hv⟩ | ⟨e, h, -⟩⟩ := n.run_cases m vs
  · refine of_done h (fun hm => ⟨hm.loopless, hm.room⟩) fun _ => ?_
    rcases hv with hv | hv
    · exact hvs v hv
    · exact Value.loopless_of_type hv
  · exact of_failed h fun hm => ⟨hm.loopless, hm.room⟩

/-- Fuel, rules and values for programs without loops. -/
abbrev setting : Setting :=
  ⟨.loopless, (· = ·), fun _ _ => True, fun _ v => v.Loopless, fun _ => True⟩

theorem judgement (k : Nat) : Judgement (Y := Run) setting fun _ m P x _ => Halts k m P x where
  plain h := Value.loopless_of_type h
  persists _ hv := hv
  pure h := of_done rfl id fun _ => h
  bind h hf := bind h fun m' a => hf m' a trivial
  located := located
  fail _ _ := of_failed rfl id
  variableValue {m} n := by
    rcases variableValue_cases m n with ⟨v, hv, h⟩ | ⟨-, h⟩
    · exact of_done h id fun hm => hm.loopless.get? hv
    · exact of_failed h id
  callee {m n} _ := by
    rcases callee_cases m n with ⟨v, hv, h⟩ | ⟨-, h⟩
    · exact of_done h id fun hm => ⟨hm.loopless.get? hv, trivial⟩
    · exact of_failed h id
  notCallable _ _ _ := of_failed rfl id
  native _ hvs := native hvs
  declare {m n v} _ hv := declareIn m.current hv
  assign _ hv := assign hv
  define {m d} hd := by
    have hbody : bodyObeys .loopless d.body = true := (Definition.obeys_iff.mp hd).2.2
    refine bind (P := fun _ v => v.Loopless) (of_done rfl (fun hm => ⟨hm.loopless, hm.room⟩)
      fun _ => hbody) fun m' v hv => declareIn m'.current hv
  stop hr _ _ := by cases hr
  next {n k} h := ⟨n, h.symm, rfl⟩

/-! ## Commands -/

theorem bindParams (f : FrameId) (ns : List Name) {vs : List Value}
    (hvs : ∀ v ∈ vs, v.Loopless) : Halts k m (fun _ _ => True) (bindParams f ns vs) := by
  induction ns generalizing vs m with
  | nil => exact of_done rfl id fun _ => trivial
  | cons n ns ih =>
    cases vs with
    | nil => exact of_done rfl id fun _ => trivial
    | cons v vs =>
      rw [Run.bindParams]
      rw [List.forall_mem_cons] at hvs
      exact bind (P := fun _ _ => True) (declareIn f hvs.1) fun _ _ _ => ih hvs.2

theorem inFrame {x : Run α} {Q : α → Prop} (f : FrameId)
    (h : ∀ m, Halts k m (fun _ => Q) x) : Halts k m (fun _ => Q) (inFrame f x) := by
  intro hm
  obtain ⟨m', hend, hm', hQ⟩ := h { m with current := f } ⟨hm.loopless, hm.room⟩
  rw [inFrame_apply]
  refine ⟨{ m' with current := m.current }, ?_, ⟨hm'.loopless, hm'.room⟩, fun a ha => ?_⟩
  · exact Outcome.mem_machine?_onMachine.mpr ⟨m', hend, rfl⟩
  · obtain ⟨m₁, hm₁, -⟩ := Outcome.onMachine_eq_done.mp ha
    rw [hm₁] at hend
    cases hend
    exact hQ a hm₁

theorem nested {x : Run α} {Q : α → Prop}
    (h : ∀ j, k = j + 1 → ∀ m, Halts j m (fun _ => Q) x) :
    Halts k m (fun _ => Q) (nested x) := by
  by_cases hdepth : m.depth < m.limit
  · intro hm
    have hroom := hm.room
    obtain ⟨j, rfl⟩ : ∃ j, k = j + 1 := ⟨k - 1, by omega⟩
    have hdeeper : Calm j { m with depth := m.depth + 1 } :=
      ⟨hm.loopless, show m.limit ≤ m.depth + 1 + j by omega⟩
    obtain ⟨m', hend, hm', hQ⟩ := h j rfl { m with depth := m.depth + 1 } hdeeper
    rw [nested_apply x hdepth]
    refine ⟨{ m' with depth := m'.depth - 1 }, ?_, ⟨hm'.loopless, ?_⟩, fun a ha => ?_⟩
    · exact Outcome.mem_machine?_onMachine.mpr ⟨m', hend, rfl⟩
    · have hroom' := hm'.room
      show m'.limit ≤ m'.depth - 1 + (j + 1)
      omega
    · obtain ⟨m₁, hm₁, -⟩ := Outcome.onMachine_eq_done.mp ha
      rw [hm₁] at hend
      cases hend
      exact hQ a hm₁
  · exact of_failed (nested_limit x (by omega)) id

theorem enter {d : Definition} {home : FrameId} {vs : List Value} {x : Run Flow}
    (hvs : ∀ v ∈ vs, v.Loopless)
    (hbody : ∀ j, k = j + 1 → ∀ m, Halts j m (fun _ flow => flow.value.Loopless) x) :
    Halts k m (fun _ v => v.Loopless) (enter d home vs x) := by
  refine bind (P := fun _ _ => True) (of_done rfl (fun hm => ⟨hm.loopless.push _, hm.room⟩)
    fun _ => trivial) fun _ f _ => ?_
  refine bind (bindParams f d.params hvs) fun _ _ _ => ?_
  refine bind (nested fun j hj _ => inFrame f (hbody j hj)) fun _ flow hflow => ?_
  exact of_done rfl id fun _ => hflow

/-- With more fuel than there are levels left, every command comes to its end. -/
theorem apply {fuel : Nat} (h : k < fuel) :
    Handles setting.ok (fun _ m P x _ => Halts k m P x) (apply fuel) (apply fuel) := by
  induction fuel generalizing k with
  | zero => omega
  | succ fuel ih =>
    intro m i c vs hc hvs
    cases c with
    | native n => exact native hvs
    | defined d home =>
      refine enter hvs fun j hj m => ?_
      have hj' : j < fuel := by omega
      exact (judgement j).execAll (ih hj') rfl d.body hc

end Halts

/-! ## Programs -/

theorem standard_calm (limit : Nat) (sink : Sink) (readings : Nat → Float) :
    Calm limit (.standard limit sink readings) := by
  refine ⟨(standard_holds limit sink readings).mono ?_, Nat.le_add_left limit 0⟩
  rintro x v ⟨i, n, -, -, rfl⟩
  trivial

/-- **Programs without loops halt.** Whatever the limit on call depth, a program without loops that
is run on a fresh machine comes to an end, with success or with an error. -/
theorem loopless_halts (p : Program) (hp : bodyObeys .loopless p = true) (limit : Nat) (sink : Sink)
    (readings : Nat → Float) :
    (∃ m, Ends (runOf p) (.standard limit sink readings) (.done () m)) ∨
      ∃ e m, Ends (runOf p) (.standard limit sink readings) (.failed e m) := by
  have happly := Halts.apply (Nat.lt_succ_self limit)
  obtain ⟨m', hend, -⟩ :=
    (Halts.judgement limit).execAll happly (rfl : limit + 1 = limit + 1) p hp
      (standard_calm limit sink readings)
  have hrun : (runOf p (limit + 1) (.standard limit sink readings)).machine? =
      some m'.flushed := by
    rw [runOf_apply, Outcome.machine?_flushed]
    exact congrArg (Option.map Machine.flushed) hend
  cases ho : runOf p (limit + 1) (.standard limit sink readings) with
  | done u m => exact .inl ⟨m, by simp, limit + 1, ho⟩
  | failed e m => exact .inr ⟨e, m, by simp, limit + 1, ho⟩
  | exhausted =>
    rw [ho] at hrun
    cases hrun

/-- A command that does nothing but call itself, and a call of it. -/
def endless : Program :=
  [.definition ⟨"F", ⟨1, 5⟩⟩ [] [.expression (.call ⟨"F", ⟨2, 3⟩⟩ [])],
    .expression (.call ⟨"F", ⟨3, 1⟩⟩ [])]

theorem loopless_halts_endless :
    bodyObeys .loopless endless = true ∧
      ((∃ m, Ends (runOf endless) (.standard 3 .unlimited fun _ => 0) (.done () m)) ∨
        ∃ e m, Ends (runOf endless) (.standard 3 .unlimited fun _ => 0) (.failed e m)) :=
  ⟨by decide, loopless_halts endless (by decide) 3 .unlimited fun _ => 0⟩

end Offside
