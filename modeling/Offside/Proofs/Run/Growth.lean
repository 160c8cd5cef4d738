import Mathlib
import Offside.Proofs.Run.Fuel
import Offside.Proofs.Run.Changes

/-!
# Frames only grow

A run makes new frames and adds bindings to the frames that are there. It never takes a binding
away, never binds a name twice in the same frame, and never puts a frame elsewhere (`Store.Grown`).
A new frame is enclosed by one that was there before it, since commands are declared in frames that
are there (`Machine.Housed`), so chains of frames stay finite.

The bindings of a frame are kept in the order of their declarations, so that a second declaration of
a name would be seen in them.
-/

namespace Offside

open Run

/-! ## Frames -/

namespace Frame

/-- The names of a frame, as they were declared, the last one first. -/
def names (f : Frame) : List String := f.bindings.map Prod.fst

theorem get?_eq_none_iff {f : Frame} {x : String} : f.get? x = none ↔ x ∉ f.names := by
  unfold get? names
  induction f.bindings with
  | nil => simp
  | cons b bs ih =>
    rw [List.lookup_cons, List.map_cons, List.mem_cons, not_or, ← ih]
    by_cases hx : x = b.1
    · simp [hx]
    · simp [hx, beq_false_of_ne hx]

theorem names_rebind (f : Frame) (x : String) (v : Value) : (f.rebind x v).names = f.names := by
  unfold names rebind
  rw [List.map_map]
  refine List.map_congr_left fun b _ => ?_
  simp only [Function.comp_apply]
  split_ifs <;> rfl

/-- A frame and the same frame later on: it may bind more names, each declared once. -/
structure Extends (f f' : Frame) : Prop where
  enclosing : f'.enclosing = f.enclosing
  names : ∃ fresh, f'.names = fresh ++ f.names ∧ fresh.Nodup ∧ ∀ x ∈ fresh, x ∉ f.names

namespace Extends

variable {f f₁ f₂ : Frame}

theorem refl (f : Frame) : f.Extends f := ⟨rfl, [], rfl, List.nodup_nil, by simp⟩

theorem trans (h : f.Extends f₁) (h' : f₁.Extends f₂) : f.Extends f₂ := by
  obtain ⟨henclosing, fresh, hnames, hnodup, hnew⟩ := h
  obtain ⟨henclosing', fresh', hnames', hnodup', hnew'⟩ := h'
  rw [hnames] at hnames' hnew'
  refine ⟨henclosing'.trans henclosing, fresh' ++ fresh, ?_, ?_, fun x hx => ?_⟩
  · rw [hnames', List.append_assoc]
  · refine List.nodup_append.mpr ⟨hnodup', hnodup, fun x hx y hy heq => ?_⟩
    exact hnew' x hx (List.mem_append_left _ (heq ▸ hy))
  · rcases List.mem_append.mp hx with hx | hx
    · exact fun hmem => hnew' x hx (List.mem_append_right _ hmem)
    · exact hnew x hx

theorem bind {x : String} (hx : f.get? x = none) (v : Value) : f.Extends (f.bind x v) where
  enclosing := rfl
  names := ⟨[x], rfl, by simp, by simpa using get?_eq_none_iff.mp hx⟩

theorem rebind (f : Frame) (x : String) (v : Value) : f.Extends (f.rebind x v) where
  enclosing := rfl
  names := ⟨[], names_rebind f x v, List.nodup_nil, by simp⟩

theorem get?_ne_none (h : f.Extends f₁) {x : String} (hx : f.get? x ≠ none) : f₁.get? x ≠ none := by
  obtain ⟨-, fresh, hnames, -, -⟩ := h
  rw [ne_eq, get?_eq_none_iff, Classical.not_not] at hx ⊢
  rw [hnames]
  exact List.mem_append_right _ hx

theorem nodup (h : f.Extends f₁) (hf : f.names.Nodup) : f₁.names.Nodup := by
  obtain ⟨-, fresh, hnames, hnodup, hnew⟩ := h
  rw [hnames]
  exact List.nodup_append.mpr ⟨hnodup, hf, fun x hx y hy heq => hnew x hx (heq ▸ hy)⟩

end Extends

end Frame

/-! ## Stores -/

namespace Store

/-- A store and the same store later on. -/
structure Grown (s s' : Store) : Prop where
  /-- The frames that were there are there, with all their bindings. -/
  old : ∀ (f : FrameId) (frame : Frame), s.frames[f]? = some frame →
    ∃ frame' : Frame, s'.frames[f]? = some frame' ∧ frame.Extends frame'
  /-- The others are enclosed by an earlier frame each, and declare no name twice. -/
  new : ∀ (f : FrameId) (frame : Frame), s.next ≤ f → s'.frames[f]? = some frame →
    (∃ g < f, frame.enclosing = some g) ∧ frame.names.Nodup

namespace Grown

variable {s s₁ s₂ : Store}

theorem refl (s : Store) : s.Grown s where
  old _ frame hf := ⟨frame, hf, .refl frame⟩
  new f frame hnew hf := by
    rw [Array.getElem?_eq_none hnew] at hf
    cases hf

theorem trans (h : s.Grown s₁) (h' : s₁.Grown s₂) : s.Grown s₂ where
  old f frame hf := by
    obtain ⟨frame₁, hf₁, hext⟩ := h.old f frame hf
    obtain ⟨frame₂, hf₂, hext'⟩ := h'.old f frame₁ hf₁
    exact ⟨frame₂, hf₂, hext.trans hext'⟩
  new f frame hnew hf := by
    by_cases hlt : f < s₁.next
    · -- a frame that was made in the first part and may have grown in the second
      have hf₁ : s₁.frames[f]? = some s₁.frames[f] := Array.getElem?_eq_getElem hlt
      obtain ⟨⟨g, hg, henclosing⟩, hnodup⟩ := h.new f _ hnew hf₁
      obtain ⟨frame₂, hf₂, hext⟩ := h'.old f _ hf₁
      rw [hf] at hf₂
      cases hf₂
      exact ⟨⟨g, hg, hext.enclosing.trans henclosing⟩, hext.nodup hnodup⟩
    · exact h'.new f frame (Nat.le_of_not_lt hlt) hf

theorem next_le (h : s.Grown s₁) : s.next ≤ s₁.next := by
  rcases Nat.eq_zero_or_pos s.next with hzero | hpos
  · rw [hzero]
    exact Nat.zero_le _
  · have hlt : s.next - 1 < s.frames.size := Nat.sub_lt hpos Nat.one_pos
    obtain ⟨frame, hframe, -⟩ := h.old _ _ (Array.getElem?_eq_getElem hlt)
    obtain ⟨hlt₁, -⟩ := Array.getElem?_eq_some_iff.mp hframe
    exact Nat.le_of_pred_lt hlt₁

theorem local?_ne_none (h : s.Grown s₁) {f : FrameId} {x : String} (hx : s.local? f x ≠ none) :
    s₁.local? f x ≠ none := by
  rw [local?_eq] at hx ⊢
  cases hf : s.frames[f]? with
  | none =>
    rw [hf] at hx
    exact absurd rfl hx
  | some frame =>
    rw [hf] at hx
    obtain ⟨frame₁, hf₁, hext⟩ := h.old f frame hf
    rw [hf₁]
    exact hext.get?_ne_none hx

theorem nested (h : s.Grown s₁) (hs : s.Nested) : s₁.Nested := by
  intro f frame g hf hg
  by_cases hlt : f < s.next
  · have hold : s.frames[f]? = some s.frames[f] := Array.getElem?_eq_getElem hlt
    obtain ⟨frame₁, hf₁, hext⟩ := h.old f _ hold
    rw [hf] at hf₁
    cases hf₁
    exact hs f _ g hold (hext.enclosing.symm.trans hg)
  · obtain ⟨⟨g', hg', henclosing⟩, -⟩ := h.new f frame (Nat.le_of_not_lt hlt) hf
    rw [hg] at henclosing
    cases henclosing
    exact hg'

theorem modify {f : FrameId} {change : Frame → Frame}
    (hchange : ∀ frame, s.frames[f]? = some frame → frame.Extends (change frame)) :
    s.Grown (s.modify f change) where
  old g frame hg := by
    unfold Store.modify
    simp only [Array.getElem?_modify]
    split_ifs with hfg
    · subst hfg
      exact ⟨change frame, by rw [hg, Option.map_some], hchange frame hg⟩
    · exact ⟨frame, hg, .refl frame⟩
  new g frame hnew hg := by
    have hsize : (s.modify f change).frames.size ≤ g := by
      unfold Store.modify
      rw [Array.size_modify]
      exact hnew
    rw [Array.getElem?_eq_none hsize] at hg
    cases hg

theorem bind {f : FrameId} {x : String} (hx : s.local? f x = none) (v : Value) :
    s.Grown (s.bind f x v) := by
  refine modify fun frame hframe => .bind ?_ v
  rw [local?_eq, hframe] at hx
  exact hx

theorem rebind (s : Store) (f : FrameId) (x : String) (v : Value) : s.Grown (s.rebind f x v) :=
  modify fun frame _ => .rebind frame x v

theorem push {home : FrameId} (hhome : home < s.next) : s.Grown (s.push ⟨some home, []⟩) where
  old f frame hf := by
    obtain ⟨hlt, -⟩ := Array.getElem?_eq_some_iff.mp hf
    refine ⟨frame, ?_, .refl frame⟩
    unfold Store.push
    rw [Array.getElem?_push, if_neg (by omega), hf]
  new f frame hnew hf := by
    unfold Store.push at hf
    simp only [Array.getElem?_push] at hf
    split_ifs at hf with heq
    · cases hf
      exact ⟨⟨home, by rw [heq]; exact hhome, rfl⟩, List.nodup_nil⟩
    · rw [Array.getElem?_eq_none hnew] at hf
      cases hf

end Grown

end Store

/-! ## Homes of commands -/

/-- A command that is built in, or was declared in one of the first `n` frames. -/
def Command.Housed (n : FrameId) : Command → Prop
  | .defined _ home => home < n
  | .native _ => True

/-- A value that is no command, or one that is at home in the first `n` frames. -/
def Value.Housed (n : FrameId) : Value → Prop
  | .command _ c => c.Housed n
  | _ => True

theorem Value.housed_of_type {n : FrameId} {v : Value} (h : v.type ≠ .command) : v.Housed n := by
  cases v with
  | command i c => exact absurd rfl h
  | number x => trivial
  | text s => trivial
  | boolean b => trivial
  | none => trivial

theorem Command.Housed.mono {n k : FrameId} (hnk : n ≤ k) {c : Command} (h : c.Housed n) :
    c.Housed k := by
  cases c with
  | defined d home => exact Nat.lt_of_lt_of_le h hnk
  | native k => trivial

theorem Value.Housed.mono {n k : FrameId} (hnk : n ≤ k) {v : Value} (h : v.Housed n) :
    v.Housed k := by
  cases v with
  | command i c => exact Command.Housed.mono hnk h
  | number x => trivial
  | text s => trivial
  | boolean b => trivial
  | none => trivial

/-- The machine runs in one of its frames, and all commands that it knows were declared in them. -/
structure Machine.Housed (m : Machine) : Prop where
  current : m.current < m.store.next
  values : m.store.Holds fun _ v => v.Housed m.store.next

/-! ## Growing runs -/

/-- From a machine that knows the homes of its commands on, a run only adds frames and bindings. -/
def Grows {α : Type} (m : Machine) (P : Machine → α → Prop) (x : Run α) : Prop :=
  m.Housed → ∀ m' ∈ (x m).machine?,
    m'.Housed ∧ m.store.Grown m'.store ∧ ∀ a, x m = .done a m' → P m' a

namespace Grows

variable {α β : Type} {m : Machine} {P : Machine → α → Prop} {P' : Machine → β → Prop}

theorem of_done {x : Run α} {a : α} {m' : Machine} (h : x m = .done a m')
    (hgrown : m.Housed → m'.Housed ∧ m.store.Grown m'.store) (ha : m.Housed → P m' a) :
    Grows m P x := by
  intro hm m₁ hm₁
  rw [h] at hm₁
  cases hm₁
  refine ⟨(hgrown hm).1, (hgrown hm).2, fun b hb => ?_⟩
  rw [h] at hb
  cases hb
  exact ha hm

theorem of_failed {x : Run α} {e : RuntimeError} {m' : Machine} (h : x m = .failed e m')
    (hgrown : m.Housed → m'.Housed ∧ m.store.Grown m'.store) : Grows m P x := by
  intro hm m₁ hm₁
  rw [h] at hm₁
  cases hm₁
  refine ⟨(hgrown hm).1, (hgrown hm).2, fun b hb => ?_⟩
  rw [h] at hb
  cases hb

theorem done {x : Run α} {a : α} {m' : Machine} (h : Grows m P x) (hm : m.Housed)
    (hx : x m = .done a m') : m'.Housed ∧ m.store.Grown m'.store ∧ P m' a := by
  obtain ⟨hhoused, hgrown, hP⟩ := h hm m' (by rw [hx]; rfl)
  exact ⟨hhoused, hgrown, hP a hx⟩

theorem still (hm : m.Housed) : m.Housed ∧ m.store.Grown m.store := ⟨hm, .refl m.store⟩

theorem bind {x : Run α} {f : α → Run β} (h : Grows m P x)
    (hf : ∀ m' a, m.store.next ≤ m'.store.next → P m' a → Grows m' P' (f a)) :
    Grows m P' (x >>= f) := by
  intro hm m' hm'
  have hbind : (x >>= f) m = Run.bind x f m := rfl
  rw [hbind, Run.bind] at hm' ⊢
  cases hx : x m with
  | exhausted =>
    rw [hx] at hm'
    cases hm'
  | failed e m₁ =>
    rw [hx] at hm'
    obtain ⟨hhoused, hgrown, -⟩ := h hm m' (by rw [hx]; exact hm')
    exact ⟨hhoused, hgrown, fun b hb => by cases hb⟩
  | done a m₁ =>
    rw [hx] at hm'
    obtain ⟨hhoused, hgrown, hP⟩ := h hm m₁ (by rw [hx]; rfl)
    obtain ⟨hhoused', hgrown', hP'⟩ := hf m₁ a hgrown.next_le (hP a hx) hhoused m' hm'
    exact ⟨hhoused', hgrown.trans hgrown', hP'⟩

theorem located {x : Run α} (p : Position) (h : Grows m P x) : Grows m P (located p x) := by
  intro hm m' hm'
  unfold Run.located at hm' ⊢
  cases hx : x m with
  | exhausted =>
    rw [hx] at hm'
    cases hm'
  | failed e m₁ =>
    rw [hx] at hm'
    obtain ⟨hhoused, hgrown, -⟩ := h hm m' (by rw [hx]; exact hm')
    exact ⟨hhoused, hgrown, fun b hb => by cases hb⟩
  | done a m₁ =>
    rw [hx] at hm'
    have hgrows := h hm m' (by rw [hx]; exact hm')
    rw [hx] at hgrows
    exact hgrows

/-! ## Basic steps -/

theorem declareIn {f : FrameId} {n : Name} {v : Value} (hv : v.Housed m.store.next) :
    Grows m (fun _ _ => True) (declareIn f n v) := by
  rcases declareIn_cases m f n v with ⟨w, -, h⟩ | ⟨hnone, h⟩
  · exact of_failed h still
  · refine of_done h (fun hm => ⟨⟨?_, ?_⟩, .bind hnone v⟩) fun _ => trivial
    · simpa using hm.current
    · simpa using hm.values.bind f hv

theorem assign {n : Name} {v : Value} (hv : v.Housed m.store.next) :
    Grows m (fun _ _ => True) (assign n v) := by
  rcases assign_cases m n v with ⟨-, h⟩ | ⟨g, -, h⟩
  · exact of_failed h still
  · refine of_done h (fun hm => ⟨⟨?_, ?_⟩, .rebind _ g _ v⟩) fun _ => trivial
    · simpa using hm.current
    · simpa using hm.values.rebind g hv

theorem native {n : Native} {vs : List Value} (hvs : ∀ v ∈ vs, v.Housed m.store.next) :
    Grows m (fun m' v => v.Housed m'.store.next) (n.run vs) := by
  obtain ⟨sink, count, ⟨v, h, hv⟩ | ⟨e, h, -⟩⟩ := n.run_cases m vs
  · refine of_done h (fun hm => ⟨⟨hm.current, hm.values⟩, .refl _⟩) fun _ => ?_
    rcases hv with hv | hv
    · exact hvs v hv
    · exact Value.housed_of_type hv
  · exact of_failed h fun hm => ⟨⟨hm.current, hm.values⟩, .refl _⟩

/-- Values that come up are at home in the store. -/
abbrev setting : Setting :=
  ⟨.free, (· = ·), fun m m' => m.store.next ≤ m'.store.next,
    fun m v => v.Housed m.store.next, fun _ => True⟩

theorem judgement : Judgement (Y := Run) setting fun _ m P x _ => Grows m P x where
  plain h := Value.housed_of_type h
  persists hlater hv := hv.mono hlater
  pure h := of_done rfl still fun _ => h
  bind := bind
  located := located
  fail _ _ := of_failed rfl still
  variableValue {m} n := by
    rcases variableValue_cases m n with ⟨v, hv, h⟩ | ⟨-, h⟩
    · exact of_done h still fun hm => hm.values.get? hv
    · exact of_failed h still
  callee {m n} _ := by
    rcases callee_cases m n with ⟨v, hv, h⟩ | ⟨-, h⟩
    · exact of_done h still fun hm => ⟨hm.values.get? hv, trivial⟩
    · exact of_failed h still
  notCallable _ _ _ := of_failed rfl still
  native _ hvs := native hvs
  declare _ hv := declareIn hv
  assign _ hv := assign hv
  define {m d} _ := by
    -- a command is declared in the frame that the machine runs in
    refine bind (P := fun m' v => v.Housed m'.store.next)
      (of_done rfl (fun hm => ⟨⟨hm.current, hm.values⟩, .refl _⟩) fun hm => hm.current)
      fun m' v _ hv => declareIn hv
  stop _ _ _ := fun _ _ hm' => by cases hm'
  next {n k} h := ⟨n, h.symm, rfl⟩

/-! ## Commands -/

theorem openFrame {home : FrameId} (hhome : home < m.store.next) :
    Grows m (fun m' f => f < m'.store.next) (openFrame home) := by
  refine of_done rfl (fun hm => ⟨⟨?_, ?_⟩, .push hhome⟩) fun _ => ?_
  · show m.current < (m.store.push ⟨some home, []⟩).next
    rw [Store.next_push]
    exact Nat.lt_succ_of_lt hm.current
  · show (m.store.push ⟨some home, []⟩).Holds
      fun _ v => v.Housed (m.store.push ⟨some home, []⟩).next
    rw [Store.next_push]
    exact (hm.values.push _).mono fun _ _ hv => hv.mono (Nat.le_succ _)
  · show m.store.next < (m.store.push ⟨some home, []⟩).next
    rw [Store.next_push]
    exact Nat.lt_succ_self _

theorem bindParams (f : FrameId) (ns : List Name) {vs : List Value}
    (hvs : ∀ v ∈ vs, v.Housed m.store.next) :
    Grows m (fun _ _ => True) (bindParams f ns vs) := by
  induction ns generalizing vs m with
  | nil => exact of_done rfl still fun _ => trivial
  | cons n ns ih =>
    cases vs with
    | nil => exact of_done rfl still fun _ => trivial
    | cons v vs =>
      rw [Run.bindParams]
      rw [List.forall_mem_cons] at hvs
      refine bind (P := fun _ _ => True) (declareIn hvs.1) fun _ _ hlater _ => ih fun w hw => ?_
      exact (hvs.2 w hw).mono hlater

theorem inNestedFrame {x : Run Flow} {f : FrameId} (hf : f < m.store.next)
    (h : ∀ m, Grows m (Flow.Has setting.ok) x) :
    Grows m (Flow.Has setting.ok) (nested (inFrame f x)) := by
  by_cases hlimit : m.depth < m.limit
  · intro hm m' hm'
    rw [nested_apply _ hlimit, inFrame_apply] at hm' ⊢
    obtain ⟨m₂, hm₂, rfl⟩ := Outcome.mem_machine?_onMachine.mp hm'
    obtain ⟨m₁, hm₁, rfl⟩ := Outcome.mem_machine?_onMachine.mp hm₂
    obtain ⟨hhoused, hgrown, hP⟩ := h (m.entering f) ⟨hf, hm.values⟩ m₁ hm₁
    refine ⟨⟨Nat.lt_of_lt_of_le hm.current hgrown.next_le, hhoused.values⟩, hgrown, fun a ha => ?_⟩
    obtain ⟨m₃, hm₃, -⟩ := Outcome.onMachine_eq_done.mp ha
    obtain ⟨m₄, hm₄, -⟩ := Outcome.onMachine_eq_done.mp hm₃
    rw [hm₄] at hm₁
    cases hm₁
    exact hP a hm₄
  · exact of_failed (nested_limit _ (by omega)) still

theorem enters : Judgement.Enters (Y := Run) setting fun _ m P x _ => Grows m P x where
  obeys _ := bodyObeys_free _
  enter {m i d home vs x y} h hvs hbody := by
    refine bind (openFrame h) fun _ f hlater hf => ?_
    refine bind (bindParams f d.params fun v hv => (hvs v hv).mono hlater) fun m' _ hlater' _ => ?_
    refine bind (inNestedFrame (Nat.lt_of_lt_of_le hf hlater') hbody) fun _ flow _ hflow => ?_
    exact of_done rfl still fun _ => hflow
  exhaust _ := fun _ _ hm' => by cases hm'

theorem handles (fuel : Nat) :
    Handles setting.ok (fun _ m P x _ => Grows m P x) (apply fuel) (applyIn (Y := Run) fuel) :=
  judgement.apply enters rfl

theorem eval (fuel : Nat) (e : Expr) : Grows m setting.ok (eval (apply fuel) e) :=
  judgement.eval (handles fuel) e (Expr.obeys_free e)

theorem evalAll (fuel : Nat) (es : List Expr) :
    Grows m (fun m' vs => ∀ v ∈ vs, v.Housed m'.store.next) (evalAll (apply fuel) es) :=
  judgement.evalAll (handles fuel) es (argsObey_free es)

theorem exec (fuel : Nat) (s : Stmt) : Grows m (Flow.Has setting.ok) (exec (apply fuel) fuel s) :=
  judgement.exec (handles fuel) rfl s (Stmt.obeys_free s)

theorem execAll (fuel : Nat) (ss : List Stmt) :
    Grows m (Flow.Has setting.ok) (execAll (apply fuel) fuel ss) :=
  judgement.execAll (handles fuel) rfl ss (bodyObeys_free ss)

end Grows

/-! ## Moments -/

/-- The command of a call and its arguments are at home in the first `n` frames. -/
def Task.Housed (n : FrameId) : Task → Prop
  | .call c vs => c.Housed n ∧ ∀ v ∈ vs, v.Housed n
  | .params _ _ vs => ∀ v ∈ vs, v.Housed n
  | _ => True

theorem Starts.grown {fuel : Nat} {t t₁ : Task} {m m₁ : Machine}
    (h : Starts (apply fuel) fuel t m t₁ m₁) (ht : t.Housed m.store.next) (hm : m.Housed) :
    t₁.Housed m₁.store.next ∧ m₁.Housed ∧ m.store.Grown m₁.store := by
  have heval : ∀ {e : Expr} {m₁ m₂ : Machine} {v : Value}, m₁.Housed →
      eval (apply fuel) e m₁ = .done v m₂ → m₂.Housed ∧ m₁.store.Grown m₂.store := by
    intro e m₁ m₂ v hm₁ hv
    obtain ⟨hhoused, hgrown, -⟩ := (Grows.eval fuel e).done hm₁ hv
    exact ⟨hhoused, hgrown⟩
  cases h with
  | inner | operand | left | chain | chainLeft | test | arg | value | loop | loopTest | body
  | head => exact ⟨trivial, hm, .refl _⟩
  | right h | chainRight h | choice h | argsNext h | thenBody h | elseBody h | loopBody h =>
    exact ⟨trivial, heval hm h⟩
  | chainNext h h' =>
    obtain ⟨hm₁, hgrown⟩ := heval hm h
    obtain ⟨hm₂, hgrown'⟩ := heval hm₁ h'
    exact ⟨trivial, hm₂, hgrown.trans hgrown'⟩
  | callArgs h =>
    obtain ⟨hm₁, hgrown, -⟩ := (Grows.judgement.callee rfl).done hm h
    exact ⟨trivial, hm₁, hgrown⟩
  | call h h' =>
    obtain ⟨hm₁, hgrown, hc, -⟩ := (Grows.judgement.callee rfl).done hm h
    obtain ⟨hm₂, hgrown', hvs⟩ := (Grows.evalAll fuel _).done hm₁ h'
    exact ⟨⟨Command.Housed.mono hgrown'.next_le hc, hvs⟩, hm₂, hgrown.trans hgrown'⟩
  | loopNext h hv h' =>
    obtain ⟨hm₁, hgrown⟩ := heval hm h
    obtain ⟨hm₂, hgrown', -⟩ := (Grows.execAll fuel _).done hm₁ h'
    exact ⟨trivial, hm₂, hgrown.trans hgrown'⟩
  | tail h =>
    obtain ⟨hm₁, hgrown, -⟩ := (Grows.exec fuel _).done hm h
    exact ⟨trivial, hm₁, hgrown⟩
  | params h =>
    obtain ⟨hm₁, hgrown, -⟩ := (Grows.openFrame ht.1).done hm h
    exact ⟨fun v hv => (ht.2 v hv).mono hgrown.next_le, hm₁, hgrown⟩

/-- Up to every moment of a run, frames only grow. -/
theorem Reaches.grown {a b : Moment} {n : Nat} (h : Reaches a n b)
    (ht : a.task.Housed a.machine.store.next) (hm : a.machine.Housed) :
    a.machine.store.Grown b.machine.store := by
  induction h with
  | here => exact .refl _
  | inside h hr ih =>
    obtain ⟨ht₁, hm₁, hgrown⟩ := h.grown ht hm
    exact hgrown.trans (ih ht₁ hm₁)
  | @enter fuel d home args m f m₁ u m₂ n b hf hp hlimit hr ih =>
    obtain ⟨hm₁, hgrown, hlt⟩ := (Grows.openFrame ht.1).done hm hf
    have hargs : ∀ v ∈ args, v.Housed m₁.store.next :=
      fun v hv => (ht.2 v hv).mono hgrown.next_le
    obtain ⟨hm₂, hgrown', -⟩ := (Grows.bindParams f d.params hargs).done hm₁ hp
    have hbody := ih trivial ⟨Nat.lt_of_lt_of_le hlt hgrown'.next_le, hm₂.values⟩
    exact (hgrown.trans hgrown').trans hbody

/-! ## Programs -/

/-- **Frames only grow.** At every moment of a program, and however it ends, the frames that were
there have all their bindings, are enclosed by the same frames, and got each new name once; the
frames that were made are enclosed by earlier ones. A binding that was there has another value only
if a `SET` of its name was executed and found it. -/
theorem frames_only_grow {m : Machine} (hm : m.Housed) (p : Program) (fuel : Nat) :
    (∀ n b, Reaches ((Job.program p).start fuel m) n b → m.store.Grown b.machine.store) ∧
    ∀ m' ∈ (runOf p fuel m).machine?,
      m.store.Grown m'.store ∧
      (∀ f x, m.store.local? f x ≠ none → m'.store.local? f x ≠ none) ∧
      (∀ f x v, m.store.local? f x = some v →
        m'.store.local? f x = some v ∨
          ∃ n b, Reaches ((Job.program p).start fuel m) n b ∧ b.Sets x f) ∧
      (m.store.Nested → m'.store.Nested) ∧ m'.Housed := by
  refine ⟨fun n b hb => hb.grown trivial hm, fun m' hm' => ?_⟩
  rw [runOf_apply, Outcome.machine?_flushed] at hm'
  obtain ⟨m₁, hm₁, rfl⟩ := Option.map_eq_some_iff.mp hm'
  obtain ⟨hhoused, hgrown, -⟩ := Grows.execAll fuel p hm m₁ hm₁
  exact ⟨hgrown, fun f x => hgrown.local?_ne_none,
    fun f x v hv => Moment.exists_sets (a := (Job.program p).start fuel m) hm₁ hv,
    hgrown.nested, hhoused.current, hhoused.values⟩

theorem launch_housed {bs : List (String × Value)} (h : ∀ x v, (x, v) ∈ bs → v.Housed 1)
    (n limit : Nat) (sink : Sink) (readings : Nat → Float) :
    (Machine.launch bs n limit sink readings).Housed where
  current := Nat.one_pos
  values _ x v hv := h x v (launch_local? hv)

/-- A machine that knows one name. -/
def lit : Machine := .launch [("x", .boolean false)] 0 1 .unlimited fun _ => 0

/-- A command that sets this name to its argument, and a call of it. -/
def setting : Program :=
  [.definition ⟨"F", .start⟩ [⟨"p", .start⟩] [.set ⟨"x", .start⟩ (.name .variable ⟨"p", .start⟩)],
    .expression (.call ⟨"F", .start⟩ [.literal (.boolean true)])]

/-- The call makes a frame of its own, and the name is set in the frame around it. -/
theorem frames_only_grow_call :
    lit.Housed ∧ ∃ m' ∈ (runOf setting 3 lit).machine?,
      (∃ frame, m'.store.frames[1]? = some frame ∧ (∃ g < 1, frame.enclosing = some g) ∧
        frame.names.Nodup) ∧
      m'.store.local? 0 "x" = some (.boolean true) ∧
      ∃ n b, Reaches ((Job.program setting).start 3 lit) n b ∧ b.Sets "x" 0 := by
  have hhoused : lit.Housed := launch_housed (by simp [Value.Housed]) 0 1 .unlimited _
  obtain ⟨m', frame, hrun, hframe, hset⟩ : ∃ m' frame,
      (runOf setting 3 lit).machine? = some m' ∧ m'.store.frames[1]? = some frame ∧
        m'.store.local? 0 "x" = some (.boolean true) := ⟨_, _, by cbv, by cbv, by cbv⟩
  obtain ⟨hgrown, -, hkept, -⟩ := (frames_only_grow hhoused setting 3).2 m' hrun
  refine ⟨hhoused, m', hrun, ⟨frame, hframe, hgrown.new 1 frame (Nat.le_refl 1) hframe⟩, hset, ?_⟩
  refine (hkept 0 "x" (.boolean false) rfl).resolve_left fun hfalse => ?_
  rw [hset] at hfalse
  cases hfalse

end Offside
