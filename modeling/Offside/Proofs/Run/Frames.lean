import Offside.Proofs.Run.Keeping
import Offside.Session

/-!
# Bindings

What each operation on the store does to the bindings, seen through `Store.local?`: a new frame
binds nothing that was bound before, a declaration adds one binding, and an assignment changes one.
From these it follows what holds of all bindings (`Store.Holds`).

The basic steps of a run do no more than these operations (`declareIn_cases`, `assign_cases`), and
built-in commands do not touch the store (`Native.run_cases`).
-/

namespace Offside

open Run

/-! ## Frames -/

namespace Frame

theorem get?_bind (f : Frame) (x y : String) (v : Value) :
    (f.bind x v).get? y = if y = x then some v else f.get? y := by
  unfold bind get?
  by_cases h : y = x
  · simp [h]
  · have hne : (y == x) = false := beq_false_of_ne h
    simp [List.lookup_cons, h, hne]

theorem get?_rebind (f : Frame) (x y : String) (v : Value) :
    (f.rebind x v).get? y = if y = x then (f.get? y).map fun _ => v else f.get? y := by
  unfold rebind get?
  simp only
  induction f.bindings with
  | nil => simp
  | cons b bs ih =>
    obtain ⟨z, w⟩ := b
    rw [List.map_cons, List.lookup_cons, ih, List.lookup_cons]
    by_cases hzx : z = x
    · by_cases hyx : y = x
      · simp [hzx, hyx]
      · have hne : (y == x) = false := beq_false_of_ne hyx
        simp [hzx, hyx, hne]
    · by_cases hyz : y = z
      · have hyx : y ≠ x := by
          rw [hyz]
          exact hzx
        simp [hzx, hyz]
      · have hne : (y == z) = false := beq_false_of_ne hyz
        simp [hzx, hne]

theorem get?_put (f : Frame) (x y : String) (v : Value) :
    (f.put x v).get? y = if y = x then some v else f.get? y := by
  unfold put
  split_ifs with hbinds hy hy
  · obtain ⟨w, hw⟩ := Option.isSome_iff_exists.mp hbinds
    rw [get?_rebind, if_pos hy, hy, hw, Option.map_some]
  · rw [get?_rebind, if_neg hy]
  · rw [get?_bind, if_pos hy]
  · rw [get?_bind, if_neg hy]

theorem enclosing_put (f : Frame) (x : String) (v : Value) :
    (f.put x v).enclosing = f.enclosing := by
  unfold put
  split_ifs <;> rfl

theorem enclosing_ofList (bs : List (String × Value)) : (ofList bs).enclosing = none := by
  have hfold : ∀ f : Frame,
      (bs.foldl (fun f b => f.put b.1 b.2) f).enclosing = f.enclosing := by
    induction bs with
    | nil => exact fun _ => rfl
    | cons b bs ih => exact fun f => (ih (f.put b.1 b.2)).trans (enclosing_put f b.1 b.2)
  exact hfold ⟨none, []⟩

theorem mem_of_get?_ofList {bs : List (String × Value)} {x : String} {v : Value}
    (h : (ofList bs).get? x = some v) : (x, v) ∈ bs := by
  have hfold : ∀ f : Frame, (bs.foldl (fun f b => f.put b.1 b.2) f).get? x = some v →
      (x, v) ∈ bs ∨ f.get? x = some v := by
    clear h
    induction bs with
    | nil => exact fun f h => .inr h
    | cons b bs ih =>
      intro f h
      rcases ih (f.put b.1 b.2) h with hmem | hget
      · exact .inl (List.mem_cons_of_mem b hmem)
      · rw [get?_put] at hget
        split_ifs at hget with hx
        · cases hget
          rw [hx]
          exact .inl List.mem_cons_self
        · exact .inr hget
  rcases hfold ⟨none, []⟩ h with hmem | hget
  · exact hmem
  · cases hget

end Frame

/-! ## Stores -/

namespace Store

variable (s : Store)

theorem local?_eq (f : FrameId) (x : String) :
    s.local? f x = s.frames[f]?.bind fun frame => frame.get? x := by
  unfold local?
  cases s.frames[f]? <;> rfl

theorem local?_push (frame : Frame) (g : FrameId) (x : String) :
    (s.push frame).local? g x = if g = s.next then frame.get? x else s.local? g x := by
  rw [local?_eq, local?_eq]
  unfold push next
  rw [Array.getElem?_push]
  split_ifs <;> rfl

theorem local?_bind (f g : FrameId) (x y : String) (v : Value) :
    (s.bind f x v).local? g y =
      if f < s.next ∧ g = f ∧ y = x then some v else s.local? g y := by
  rw [local?_eq, local?_eq]
  unfold bind modify next
  rw [Array.getElem?_modify]
  by_cases hg : f = g
  · subst hg
    by_cases hf : f < s.frames.size
    · simp [hf, Frame.get?_bind]
    · simp [hf]
  · have hg' : g ≠ f := fun h => hg h.symm
    simp [hg, hg']

theorem local?_rebind (f g : FrameId) (x y : String) (v : Value) :
    (s.rebind f x v).local? g y =
      if g = f ∧ y = x then (s.local? g y).map fun _ => v else s.local? g y := by
  rw [local?_eq, local?_eq]
  unfold rebind modify
  rw [Array.getElem?_modify]
  by_cases hg : f = g
  · subst hg
    cases s.frames[f]? with
    | none => simp
    | some frame => simp [Frame.get?_rebind]
  · have hg' : g ≠ f := fun h => hg h.symm
    simp [hg, hg']

@[simp] theorem next_push (frame : Frame) : (s.push frame).next = s.next + 1 := by
  simp [next, push]

@[simp] theorem next_bind (f : FrameId) (x : String) (v : Value) :
    (s.bind f x v).next = s.next := by
  simp [next, bind, modify]

@[simp] theorem next_rebind (f : FrameId) (x : String) (v : Value) :
    (s.rebind f x v).next = s.next := by
  simp [next, rebind, modify]

variable {s}

theorem local?_of_resolve {f g : FrameId} {x : String} (h : s.resolve f x = some g) :
    ∃ v, s.local? g x = some v := by
  fun_induction s.resolve f x with
  | case1 => cases h
  | case2 f frame hframe hbinds =>
    cases h
    rw [local?_eq, hframe]
    exact Option.isSome_iff_exists.mp hbinds
  | case3 => cases h
  | case4 f frame hframe hbinds g henclosing hlt ih => exact ih h
  | case5 => cases h

theorem get?_eq_some {f : FrameId} {x : String} {v : Value} (h : s.get? f x = some v) :
    ∃ g, s.resolve f x = some g ∧ s.local? g x = some v := by
  unfold get? at h
  cases hr : s.resolve f x with
  | none => simp [hr] at h
  | some g =>
    rw [hr] at h
    exact ⟨g, rfl, h⟩

theorem resolve_eq_none {f : FrameId} {x : String} (h : s.get? f x = none) :
    s.resolve f x = none := by
  cases hr : s.resolve f x with
  | none => rfl
  | some g =>
    obtain ⟨v, hv⟩ := local?_of_resolve hr
    have hget : s.get? f x = s.local? g x := by
      unfold get?
      rw [hr]
    rw [hget, hv] at h
    cases h

/-! ## Chains of frames -/

/-- From the frame `f` outwards one comes to the frame `g`. -/
inductive OnChain (s : Store) : FrameId → FrameId → Prop
  | here {f : FrameId} : OnChain s f f
  | outwards {f g h : FrameId} {frame : Frame} (hf : s.frames[f]? = some frame)
      (hg : frame.enclosing = some g) (hchain : OnChain s g h) : OnChain s f h

/-- The enclosing frame of a frame was there before it. -/
def Nested (s : Store) : Prop :=
  ∀ (f : FrameId) (frame : Frame) (g : FrameId),
    s.frames[f]? = some frame → frame.enclosing = some g → g < f

theorem local?_of_resolve_eq_none (hs : s.Nested) {f g : FrameId} {x : String}
    (h : s.resolve f x = none) (hg : s.OnChain f g) : s.local? g x = none := by
  induction hg with
  | @here f =>
    rw [resolve] at h
    rw [local?_eq]
    cases hf : s.frames[f]? with
    | none => rfl
    | some frame =>
      simp only [hf] at h
      split_ifs at h with hbinds
      simpa [Frame.binds] using hbinds
  | @outwards f g h' frame hf hg hchain ih =>
    rw [resolve] at h
    simp only [hf] at h
    split_ifs at h with hbinds
    simp only [hg, if_pos (hs f frame g hf hg)] at h
    exact ih h

theorem Nested.push (hs : s.Nested) {home : FrameId} (hhome : home < s.next) :
    (s.push ⟨some home, []⟩).Nested := by
  intro f frame g hf hg
  unfold Store.push at hf
  simp only [Array.getElem?_push] at hf
  split_ifs at hf with hnew
  · cases hf
    cases hg
    rw [hnew]
    exact hhome
  · exact hs f frame g hf hg

theorem Nested.modify (hs : s.Nested) {f : FrameId} {change : Frame → Frame}
    (hchange : ∀ frame, (change frame).enclosing = frame.enclosing) :
    (s.modify f change).Nested := by
  intro f' frame g hf hg
  unfold Store.modify at hf
  simp only [Array.getElem?_modify] at hf
  split_ifs at hf with heq
  · obtain ⟨frame', hframe', rfl⟩ := Option.map_eq_some_iff.mp hf
    rw [hchange] at hg
    exact hs f' frame' g hframe' hg
  · exact hs f' frame g hf hg

/-! ## All bindings -/

def Holds (P : String → Value → Prop) (s : Store) : Prop :=
  ∀ f x v, s.local? f x = some v → P x v

namespace Holds

variable {P Q : String → Value → Prop}

theorem mono (h : s.Holds P) (hPQ : ∀ x v, P x v → Q x v) : s.Holds Q :=
  fun f x v hv => hPQ x v (h f x v hv)

theorem push (h : s.Holds P) (home : Option FrameId) : (s.push ⟨home, []⟩).Holds P := by
  intro f x v hv
  rw [local?_push] at hv
  split_ifs at hv
  · cases hv
  · exact h f x v hv

theorem bind (h : s.Holds P) (f : FrameId) {x : String} {v : Value} (hv : P x v) :
    (s.bind f x v).Holds P := by
  intro g y w hw
  rw [local?_bind] at hw
  split_ifs at hw with hg
  · cases hw
    rw [hg.2.2]
    exact hv
  · exact h g y w hw

theorem rebind (h : s.Holds P) (f : FrameId) {x : String} {v : Value} (hv : P x v) :
    (s.rebind f x v).Holds P := by
  intro g y w hw
  rw [local?_rebind] at hw
  split_ifs at hw with hg
  · obtain ⟨_, _, rfl⟩ := Option.map_eq_some_iff.mp hw
    rw [hg.2]
    exact hv
  · exact h g y w hw

theorem get? (h : s.Holds P) {f : FrameId} {x : String} {v : Value} (hv : s.get? f x = some v) :
    P x v := by
  obtain ⟨g, -, hg⟩ := get?_eq_some hv
  exact h g x v hg

end Holds

end Store

/-! ## Fresh machines -/

theorem launch_local? {bs : List (String × Value)} {n limit : Nat} {sink : Sink}
    {readings : Nat → Float} {f : FrameId} {x : String} {v : Value}
    (h : (Machine.launch bs n limit sink readings).store.local? f x = some v) : (x, v) ∈ bs := by
  unfold Machine.launch at h
  simp only [Store.local?_push] at h
  split_ifs at h
  · exact Frame.mem_of_get?_ofList h
  · simp [Store.local?_eq, Store.empty] at h

theorem launch_nested (bs : List (String × Value)) (n limit : Nat) (sink : Sink)
    (readings : Nat → Float) : (Machine.launch bs n limit sink readings).store.Nested := by
  intro f frame g hf hg
  unfold Machine.launch Store.push Store.empty at hf
  simp only [Array.getElem?_push] at hf
  split_ifs at hf
  · cases hf
    rw [Frame.enclosing_ofList] at hg
    cases hg
  · simp at hf

theorem mem_nativeBindings {start : Nat} {ns : List Native} {x : String} {v : Value}
    (h : (x, v) ∈ nativeBindings start ns) :
    ∃ i, ∃ n ∈ ns, x = n.name ∧ v = .command i (.native n) := by
  induction ns generalizing start with
  | nil => cases h
  | cons n ns ih =>
    rcases List.mem_cons.mp h with heq | hmem
    · cases heq
      exact ⟨start, n, List.mem_cons_self, rfl, rfl⟩
    · obtain ⟨i, k, hk, hname, hv⟩ := ih hmem
      exact ⟨i, k, List.mem_cons_of_mem n hk, hname, hv⟩

theorem standard_holds (limit : Nat) (sink : Sink) (readings : Nat → Float) :
    (Machine.standard limit sink readings).store.Holds fun x v =>
      ∃ i, ∃ n ∈ Native.standard, x = n.name ∧ v = .command i (.native n) :=
  fun _ _ _ h => mem_nativeBindings (launch_local? h)

/-! ## Basic steps -/

section steps

variable (m : Machine)

theorem declareIn_cases (f : FrameId) (n : Name) (v : Value) :
    (∃ w, m.store.local? f n.text = some w ∧
      declareIn f n v m = .failed ⟨.alreadyDefined n.text, some n.pos⟩ m) ∨
    (m.store.local? f n.text = none ∧
      declareIn f n v m = .done () { m with store := m.store.bind f n.text v }) := by
  unfold declareIn
  cases h : m.store.local? f n.text with
  | none => exact .inr ⟨rfl, rfl⟩
  | some w => exact .inl ⟨w, rfl, rfl⟩

theorem assign_cases (n : Name) (v : Value) :
    (m.store.resolve m.current n.text = none ∧
      assign n v m = .failed ⟨.undefinedVariable n.text, some n.pos⟩ m) ∨
    ∃ g, m.store.resolve m.current n.text = some g ∧
      assign n v m = .done () { m with store := m.store.rebind g n.text v } := by
  unfold assign
  cases h : m.store.resolve m.current n.text with
  | none => exact .inl ⟨rfl, rfl⟩
  | some g => exact .inr ⟨g, rfl, rfl⟩

theorem variableValue_cases (n : Name) :
    (∃ v, m.store.get? m.current n.text = some v ∧ variableValue n m = .done v m) ∨
    (m.store.get? m.current n.text = none ∧
      variableValue n m = .failed ⟨.undefinedVariable n.text, some n.pos⟩ m) := by
  unfold variableValue
  simp only [Bind.bind, Run.bind, lookup?]
  cases m.store.get? m.current n.text with
  | none => exact .inr ⟨rfl, rfl⟩
  | some v => exact .inl ⟨v, rfl, rfl⟩

theorem callee_cases (n : Name) :
    (∃ v, m.store.get? m.current n.text = some v ∧ callee n m = .done v m) ∨
    ((∀ v, m.store.get? m.current n.text = some v → v = .none) ∧
      callee n m = .failed ⟨.commandNotFound n.text, some n.pos⟩ m) := by
  unfold callee
  simp only [Bind.bind, Run.bind, lookup?]
  cases m.store.get? m.current n.text with
  | none =>
    refine .inr ⟨fun v hv => ?_, rfl⟩
    cases hv
  | some v =>
    cases v with
    | none => exact .inr ⟨fun v hv => (Option.some.inj hv).symm, rfl⟩
    | command i c => exact .inl ⟨_, rfl, rfl⟩
    | number x => exact .inl ⟨_, rfl, rfl⟩
    | text t => exact .inl ⟨_, rfl, rfl⟩
    | boolean b => exact .inl ⟨_, rfl, rfl⟩

/-- Whatever is asked of the sink changes no more than the sink. -/
theorem request_cases (ask : Sink → Sink × Option SinkError) :
    ∃ sink, request ask m = .done () { m with sink := sink } ∨
      ∃ e, request ask m = .failed ⟨.output e, none⟩ { m with sink := sink } := by
  refine ⟨(ask m.sink).1, ?_⟩
  unfold request
  simp only
  cases (ask m.sink).2 with
  | none => exact .inl rfl
  | some e => exact .inr ⟨e, rfl⟩

theorem writeSome_cases (text : Option String) :
    ∃ sink, writeSome text m = .done () { m with sink := sink } ∨
      ∃ e, writeSome text m = .failed ⟨.output e, none⟩ { m with sink := sink } := by
  cases text with
  | none => exact ⟨m.sink, .inl rfl⟩
  | some text => exact request_cases m (·.write text)

theorem HostResult.run_cases (r : HostResult) (vs : List Value) :
    (∃ v, r.run vs m = .done v m ∧ (v ∈ vs ∨ v.type ≠ .command)) ∨
      ∃ e, r.run vs m = .failed e m := by
  cases r with
  | value l => exact .inl ⟨_, rfl, .inr (by cases l <;> simp [Value.ofLiteral, Value.type])⟩
  | failure e => exact .inr ⟨e, rfl⟩
  | argument i =>
    refine .inl ⟨_, rfl, ?_⟩
    rw [List.getD_eq_getElem?_getD]
    cases hi : vs[i]? with
    | none => exact .inr (by simp [Value.type])
    | some v => exact .inl (List.mem_of_getElem? hi)

/-- A built-in command leaves everything but output and clock alone. It returns one of its arguments
or something that is no command, and those that are always there fail only if output does. -/
theorem Native.run_cases (n : Native) (vs : List Value) :
    ∃ sink count,
      (∃ v, n.run vs m = .done v { m with sink := sink, readCount := count } ∧
        (v ∈ vs ∨ v.type ≠ .command)) ∨
      ∃ e, n.run vs m = .failed e { m with sink := sink, readCount := count } ∧
        (n ∈ Native.standard → ∃ o, e = ⟨.output o, none⟩) := by
  have hbind : ∀ {α β : Type} (x : Run α) (f : α → Run β), (x >>= f) m = Run.bind x f m :=
    fun _ _ => rfl
  have hplain : ∀ v : Value, v.type ≠ .command → v ∈ vs ∨ v.type ≠ .command := fun _ h => .inr h
  cases n with
  | print =>
    obtain ⟨sink, h | ⟨e, h⟩⟩ :=
      request_cases m (·.write (" ".intercalate (vs.map Value.display) ++ "\n"))
    · exact ⟨sink, m.readCount, .inl ⟨.none, by rw [run, hbind, Run.bind, write, h]; rfl,
        hplain _ (by simp [Value.type])⟩⟩
    · exact ⟨sink, m.readCount, .inr ⟨_, by rw [run, hbind, Run.bind, write, h],
        fun _ => ⟨_, rfl⟩⟩⟩
  | clear =>
    obtain ⟨sink, h | ⟨e, h⟩⟩ := request_cases m (·.write "\x1b[H\x1b[2J\n")
    · have hrun : run .clear vs m =
          Run.bind flush (fun _ => pure .none) { m with sink := sink } := by
        rw [run, hbind, Run.bind, write, h]
        rfl
      obtain ⟨sink', hf | ⟨e, hf⟩⟩ := request_cases { m with sink := sink } Sink.flush
      · exact ⟨sink', m.readCount, .inl ⟨.none, by rw [hrun, Run.bind, flush, hf]; rfl,
          hplain _ (by simp [Value.type])⟩⟩
      · exact ⟨sink', m.readCount, .inr ⟨_, by rw [hrun, Run.bind, flush, hf], fun _ => ⟨_, rfl⟩⟩⟩
    · exact ⟨sink, m.readCount, .inr ⟨_, by rw [run, hbind, Run.bind, write, h],
        fun _ => ⟨_, rfl⟩⟩⟩
  | clock =>
    exact ⟨m.sink, m.readCount + 1, .inl ⟨_, rfl, hplain _ (by simp [Value.type])⟩⟩
  | host c =>
    have hout : Native.host c ∉ Native.standard := by simp [Native.standard]
    obtain ⟨sink, h | ⟨e, h⟩⟩ := writeSome_cases m (c.output (vs.map Value.seen))
    · have hrun : run (.host c) vs m =
          (c.result (vs.map Value.seen)).run vs { m with sink := sink } := by
        rw [run, hbind, Run.bind, h]
      rcases HostResult.run_cases { m with sink := sink } (c.result (vs.map Value.seen)) vs with
        ⟨v, hr, hv⟩ | ⟨e, hr⟩
      · exact ⟨sink, m.readCount, .inl ⟨v, by rw [hrun, hr], hv⟩⟩
      · exact ⟨sink, m.readCount, .inr ⟨e, by rw [hrun, hr], fun hn => absurd hn hout⟩⟩
    · exact ⟨sink, m.readCount, .inr ⟨_, by rw [run, hbind, Run.bind, h],
        fun hn => absurd hn hout⟩⟩

end steps

end Offside
