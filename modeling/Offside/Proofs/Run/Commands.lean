import Mathlib
import Offside.Proofs.Run.Fuel
import Offside.Proofs.Run.Frames
import Offside.Proofs.Run.Traces
import Offside.Proofs.Source.Casing

/-!
# Names of commands

A name without lower case letters that is bound anywhere, while a program runs, is bound to a
command, and it keeps its value for as long as its frame is there. Nothing but `DEF` declares such a
name and nothing sets one, because of the letters of names (`parseSource_cased`); and `DEF` does not
declare a name twice in one frame.

So a call finds a command or nothing. In the first case what it finds can be called, and in the
second the name is bound nowhere on the way outwards from the frame of the call.
-/

namespace Offside

open Run

/-! ## Machines -/

/-- The command of a value can come up where there are `n` frames: it is one that is always there,
or it is declared in one of the frames by an allowed definition. -/
def Value.Admitted (n : Nat) : Value → Prop
  | .command _ (.defined d home) => home < n ∧ d.obeys .cased = true
  | .command _ (.native k) => k ∈ Native.standard
  | _ => True

theorem Value.admitted_of_type {n : Nat} {v : Value} (h : v.type ≠ .command) : v.Admitted n := by
  cases v with
  | command i c => exact absurd rfl h
  | number x => trivial
  | text s => trivial
  | boolean b => trivial
  | none => trivial

theorem Value.eq_command {v : Value} (h : v.type = .command) : ∃ i c, v = .command i c := by
  cases v with
  | command i c => exact ⟨i, c, rfl⟩
  | number x => cases h
  | text s => cases h
  | boolean b => cases h
  | none => cases h

theorem Value.Admitted.mono {n k : Nat} (hnk : n ≤ k) {v : Value} (h : v.Admitted n) :
    v.Admitted k := by
  cases v with
  | command i c =>
    cases c with
    | defined d home => exact ⟨Nat.lt_of_lt_of_le h.1 hnk, h.2⟩
    | native j => exact h
  | number x => trivial
  | text s => trivial
  | boolean b => trivial
  | none => trivial

/-- What can be bound to a name. -/
def Bindable (n : Nat) (x : String) (v : Value) : Prop :=
  v.Admitted n ∧ (isCommandName x = true → v.type = .command)

theorem Bindable.of_not_isCommandName {n : Nat} {x : String} {v : Value}
    (hx : isCommandName x = false) (hv : v.Admitted n) : Bindable n x v := by
  refine ⟨hv, fun hc => ?_⟩
  rw [hx] at hc
  cases hc

/-- The frames of a machine are in order, and so are their bindings. -/
structure Machine.Sound (m : Machine) : Prop where
  nested : m.store.Nested
  inside : m.current < m.store.next
  bindings : m.store.Holds (Bindable m.store.next)

/-- What a store binds to the names of commands, a later one binds to them too. -/
structure Store.Kept (s s' : Store) : Prop where
  next_le : s.next ≤ s'.next
  commands : ∀ f x v, isCommandName x = true → s.local? f x = some v → s'.local? f x = some v

namespace Store.Kept

variable {s s₁ s₂ : Store}

theorem refl (s : Store) : s.Kept s := ⟨Nat.le_refl _, fun _ _ _ _ h => h⟩

theorem trans (h : s.Kept s₁) (h' : s₁.Kept s₂) : s.Kept s₂ :=
  ⟨Nat.le_trans h.next_le h'.next_le,
    fun f x v hx hv => h'.commands f x v hx (h.commands f x v hx hv)⟩

theorem push (s : Store) (frame : Frame) : s.Kept (s.push frame) := by
  refine ⟨by simp, fun f x v _ hv => ?_⟩
  rw [local?_push, if_neg]
  · exact hv
  · rintro rfl
    rw [local?_eq, next, Array.getElem?_eq_none (Nat.le_refl _)] at hv
    cases hv

theorem bind {f : FrameId} {x : String} (hfree : s.local? f x = none) (v : Value) :
    s.Kept (s.bind f x v) := by
  refine ⟨by simp, fun g y w _ hw => ?_⟩
  rw [local?_bind, if_neg]
  · exact hw
  · rintro ⟨-, rfl, rfl⟩
    rw [hfree] at hw
    cases hw

theorem rebind {x : String} (hx : isCommandName x = false) (f : FrameId) (v : Value) :
    s.Kept (s.rebind f x v) := by
  refine ⟨by simp, fun g y w hy hw => ?_⟩
  rw [local?_rebind, if_neg]
  · exact hw
  · rintro ⟨-, rfl⟩
    rw [hx] at hy
    cases hy

end Store.Kept

namespace Machine.Sound

variable {m : Machine}

theorem withStore (h : m.Sound) {s : Store} (hnested : s.Nested) (hle : m.store.next ≤ s.next)
    (hs : s.Holds (Bindable s.next)) : Sound { m with store := s } :=
  ⟨hnested, Nat.lt_of_lt_of_le h.inside hle, hs⟩

theorem openFrame (h : m.Sound) {home : FrameId} (hhome : home < m.store.next) :
    Sound { m with store := m.store.push ⟨some home, []⟩ } := by
  refine h.withStore (h.nested.push hhome) (by simp) ?_
  rw [Store.next_push]
  exact (h.bindings.push _).mono fun x v hv => ⟨hv.1.mono (Nat.le_succ _), hv.2⟩

theorem bind (h : m.Sound) (f : FrameId) {x : String} {v : Value}
    (hv : Bindable m.store.next x v) : Sound { m with store := m.store.bind f x v } := by
  refine h.withStore (h.nested.modify fun _ => rfl) (by simp) ?_
  rw [Store.next_bind]
  exact h.bindings.bind f hv

theorem rebind (h : m.Sound) (f : FrameId) {x : String} {v : Value}
    (hv : Bindable m.store.next x v) : Sound { m with store := m.store.rebind f x v } := by
  refine h.withStore (h.nested.modify fun _ => rfl) (by simp) ?_
  rw [Store.next_rebind]
  exact h.bindings.rebind f hv

theorem standard (limit : Nat) (sink : Sink) (readings : Nat → Float) :
    (Machine.standard limit sink readings).Sound where
  nested := launch_nested _ _ _ _ _
  inside := Nat.lt_succ_self 0
  bindings := by
    refine (standard_holds limit sink readings).mono ?_
    rintro x v ⟨i, n, hn, -, rfl⟩
    exact ⟨hn, fun _ => rfl⟩

end Machine.Sound

/-! ## Ways from machine to machine -/

/-- A way from one machine to another over sound machines, on which the names of commands keep their
values. -/
inductive Way : Machine → List Machine → Machine → Prop
  | here (m : Machine) : Way m [] m
  | on {m m₁ m' : Machine} {ms : List Machine} (hkept : m.store.Kept m₁.store) (hsound : m₁.Sound)
      (rest : Way m₁ ms m') : Way m (m₁ :: ms) m'

namespace Way

variable {m m₁ m' : Machine} {ms ms' : List Machine}

theorem single (hkept : m.store.Kept m'.store) (hsound : m'.Sound) : Way m [m'] m' :=
  on hkept hsound (here m')

theorem append (h : Way m ms m₁) (h' : Way m₁ ms' m') : Way m (ms ++ ms') m' := by
  induction h with
  | here m => exact h'
  | on hkept hsound rest ih => exact on hkept hsound (ih h')

theorem kept (h : Way m ms m') : m.store.Kept m'.store := by
  induction h with
  | here m => exact .refl _
  | on hkept hsound rest ih => exact hkept.trans ih

theorem sound (h : Way m ms m') (hm : m.Sound) : m'.Sound := by
  induction h with
  | here m => exact hm
  | on hkept hsound rest ih => exact ih hsound

theorem all_sound (h : Way m ms m') (hm : m.Sound) : ∀ s ∈ m :: ms, s.Sound := by
  induction h with
  | here m => simpa using hm
  | on hkept hsound rest ih => exact List.forall_mem_cons.mpr ⟨hm, ih hsound⟩

theorem all_kept (h : Way m ms m') : ∀ s ∈ m :: ms, m.store.Kept s.store := by
  induction h with
  | here m => simpa using Store.Kept.refl m.store
  | on hkept hsound rest ih =>
    exact List.forall_mem_cons.mpr ⟨.refl _, fun s hs => hkept.trans (ih s hs)⟩

theorem pairwise (h : Way m ms m') : (m :: ms).Pairwise fun s s' => s.store.Kept s'.store := by
  induction h with
  | here m => exact List.pairwise_singleton _ m
  | on hkept hsound rest ih =>
    exact List.pairwise_cons.mpr ⟨fun s hs => hkept.trans (rest.all_kept s hs), ih⟩

theorem mem_last (h : Way m ms m') : m' ∈ m :: ms := by
  induction h with
  | here m => exact List.mem_cons_self
  | on hkept hsound rest ih => exact List.mem_cons_of_mem _ ih

theorem getLast? (h : Way m ms m') : (m :: ms).getLast? = some m' := by
  induction h with
  | here m => rfl
  | on hkept hsound rest ih => rw [List.getLast?_cons_cons, ih]

end Way

/-! ## Errors -/

/-- An error that says that a call found nothing is about a name that is bound nowhere on the way
outwards from the frame in which it arose; and nothing is called that is no command. -/
def Explained (origin? : Option Machine) (cause : RuntimeError.Cause) : Prop :=
  (∀ t, cause ≠ .notCallable t) ∧
    ∀ x, cause = .commandNotFound x → ∃ s, origin? = some s ∧
      ∀ g, s.store.OnChain s.current g → s.store.local? g x = none

theorem explained_of_aboutCommand {origin? : Option Machine} {cause : RuntimeError.Cause}
    (h : cause.aboutCommand = false) : Explained origin? cause := by
  refine ⟨fun t ht => ?_, fun x hx => ?_⟩
  · rw [ht] at h
    cases h
  · rw [hx] at h
    cases h

theorem located_cases {α : Type} (p : Position) (x : Run α) (m : Machine) :
    located p x m = x m ∨
      ∃ e m', x m = .failed e m' ∧ located p x m = .failed (e.within p) m' := by
  unfold located
  cases x m with
  | done a m' => exact .inl rfl
  | failed e m' => exact .inr ⟨e, m', rfl, rfl⟩
  | exhausted => exact .inl rfl

/-! ## Orderly runs -/

/-- From a machine on, a run goes its way, with results as promised and errors that are explained.
-/
structure Orderly {α : Type} (m : Machine) (P : Machine → α → Prop) (x : Run α) (y : Trace α) :
    Prop where
  outcome : y.outcome m = x m
  way : ∃ m', Way m (y.states m) m' ∧ ∀ m₁ ∈ (x m).machine?, m₁ = m'
  origin : ∀ s ∈ y.origin? m, s ∈ m :: y.states m
  result : ∀ a m', x m = .done a m' → P m' a
  error : ∀ e m', x m = .failed e m' → Explained (y.origin? m) e.cause

namespace Orderly

open Interpretation (step)

variable {α β : Type} {m : Machine} {P : Machine → α → Prop} {P' : Machine → β → Prop}

theorem of_step {x : Run α} (hend : ∀ m' ∈ (x m).machine?, m.store.Kept m'.store ∧ m'.Sound)
    (hresult : ∀ a m', x m = .done a m' → P m' a)
    (herror : ∀ e m', x m = .failed e m' → Explained (some m) e.cause) :
    Orderly m P x (step x) where
  outcome := rfl
  way := by
    show ∃ m', Way m (x m).machine?.toList m' ∧ ∀ m₁ ∈ (x m).machine?, m₁ = m'
    cases hx : (x m).machine? with
    | none => exact ⟨m, .here m, by simp⟩
    | some m' => exact ⟨m', .single (hend m' hx).1 (hend m' hx).2, by simp⟩
  origin s hs := by
    have hfailing : s ∈ Trace.failing m (x m) := hs
    rw [Trace.mem_failing hfailing]
    exact List.mem_cons_self
  result := hresult
  error e m' he := by
    have horigin : (step x : Trace α).origin? m = Trace.failing m (x m) := rfl
    rw [horigin, he]
    exact herror e m' he

theorem of_done {x : Run α} {a : α} {m' : Machine} (h : x m = .done a m')
    (hkept : m.store.Kept m'.store) (hsound : m'.Sound) (ha : P m' a) :
    Orderly m P x (step x) := by
  refine of_step ?_ ?_ ?_ <;> rw [h]
  · rintro m₁ ⟨⟩
    exact ⟨hkept, hsound⟩
  · rintro b m₁ ⟨⟩
    exact ha
  · rintro e m₁ ⟨⟩

theorem of_failed {x : Run α} {e : RuntimeError} {m' : Machine} (h : x m = .failed e m')
    (hkept : m.store.Kept m'.store) (hsound : m'.Sound) (he : Explained (some m) e.cause) :
    Orderly m P x (step x) := by
  refine of_step ?_ ?_ ?_ <;> rw [h]
  · rintro m₁ ⟨⟩
    exact ⟨hkept, hsound⟩
  · rintro b m₁ ⟨⟩
  · rintro e₁ m₁ ⟨⟩
    exact he

theorem exhaust : Orderly m P exhaust (step exhaust) :=
  of_step (fun _ h => by cases h) (fun _ _ h => by cases h) fun _ _ h => by cases h

theorem pure {a : α} (h : P m a) : Orderly m P (pure a) (pure a) where
  outcome := rfl
  way := ⟨m, .here m, fun _ h => (Option.some.inj h).symm⟩
  origin s hs := by cases hs
  result b m' hb := by
    cases hb
    exact h
  error e m' he := by cases he

theorem bind {x : Run α} {y : Trace α} {f : α → Run β} {g : α → Trace β} (hm : m.Sound)
    (h : Orderly m P x y)
    (hf : ∀ m' a, m.store.Kept m'.store → m'.Sound → P m' a → Orderly m' P' (f a) (g a)) :
    Orderly m P' (x >>= f) (y >>= g) := by
  obtain ⟨m₁, hway, hlast⟩ := h.way
  have hrun : (x >>= f) m = Run.bind x f m := rfl
  have hxy := h.outcome
  rw [Run.bind] at hrun
  cases hx : x m with
  | exhausted =>
    rw [hx] at hrun hxy
    obtain ⟨hout, hstates, horigin⟩ := Trace.bind_of_exhausted (g := g) hxy
    have hmem : ∀ s ∈ (y >>= g).origin? m, s ∈ m :: (y >>= g).states m := by
      rw [hstates, horigin]
      exact h.origin
    refine ⟨by rw [hout, hrun], ⟨m₁, hstates ▸ hway, ?_⟩, hmem, ?_, ?_⟩ <;> rw [hrun]
    · rintro m₂ ⟨⟩
    · rintro b m₂ ⟨⟩
    · rintro e m₂ ⟨⟩
  | failed e m' =>
    have herror := h.error e m' hx
    rw [hx] at hrun hxy hlast
    obtain ⟨hout, hstates, horigin⟩ := Trace.bind_of_failed (g := g) hxy
    have hmem : ∀ s ∈ (y >>= g).origin? m, s ∈ m :: (y >>= g).states m := by
      rw [hstates, horigin]
      exact h.origin
    refine ⟨by rw [hout, hrun], ⟨m₁, hstates ▸ hway, ?_⟩, hmem, ?_, ?_⟩ <;> rw [hrun]
    · exact hlast
    · rintro b m₂ ⟨⟩
    · rintro e₂ m₂ ⟨⟩
      rw [horigin]
      exact herror
  | done a m' =>
    have hP := h.result a m' hx
    rw [hx] at hrun hxy hlast
    obtain rfl : m' = m₁ := hlast m' rfl
    have hnext := hf m' a hway.kept (hway.sound hm) hP
    obtain ⟨m₂, hway₂, hlast₂⟩ := hnext.way
    obtain ⟨hout, hstates, horigin⟩ := Trace.bind_of_done (g := g) hxy
    refine ⟨?_, ⟨m₂, ?_, ?_⟩, ?_, ?_, ?_⟩
    · rw [hout, hrun, hnext.outcome]
    · rw [hstates]
      exact hway.append hway₂
    · rw [hrun]
      exact hlast₂
    · intro s hs
      rw [hstates, ← List.cons_append]
      rw [horigin] at hs
      rcases List.mem_cons.mp (hnext.origin s hs) with rfl | hmem
      · exact List.mem_append_left _ hway.mem_last
      · exact List.mem_append_right _ hmem
    · rw [hrun]
      exact hnext.result
    · rw [hrun, horigin]
      exact hnext.error

theorem located {x : Run α} {y : Trace α} (p : Position) (h : Orderly m P x y) :
    Orderly m P (located p x) (Interpretation.located p y) := by
  obtain ⟨m₁, hway, hlast⟩ := h.way
  have hout : (Interpretation.located p y).outcome m = Run.located p x m := by
    show Run.located p y.outcome m = Run.located p x m
    rw [Run.located, Run.located, h.outcome]
  rcases located_cases p x m with heq | ⟨e, m', hx, heq⟩
  · refine ⟨hout, ⟨m₁, hway, ?_⟩, h.origin, ?_, ?_⟩ <;> rw [heq]
    · exact hlast
    · exact h.result
    · exact h.error
  · rw [hx] at hlast
    refine ⟨hout, ⟨m₁, hway, ?_⟩, h.origin, ?_, ?_⟩ <;> rw [heq]
    · exact hlast
    · rintro a m₂ ⟨⟩
    · rintro e₂ m₂ ⟨⟩
      exact h.error e m' hx

theorem detour {x z : Run α} {y w : Trace α} (go : Machine) (back : Machine → Machine)
    (hgo : go.store = m.store) (hsound : go.Sound) (h : Orderly go P x y)
    (hback : ∀ m', m'.Sound → m.store.Kept m'.store → (back m').Sound ∧ (back m').store = m'.store)
    (hP : ∀ m' a, P m' a → P (back m') a) (hz : z m = (x go).onMachine back)
    (hw : w.outcome m = (y.outcome go).onMachine back)
    (hstates : w.states m = y.detour go (w.outcome m)) (horigin : w.origin? m = y.origin? go) :
    Orderly m P z w := by
  obtain ⟨m₁, hway, hlast⟩ := h.way
  have hout : w.outcome m = z m := by rw [hw, hz, h.outcome]
  have hkept : m.store.Kept m₁.store := hgo ▸ hway.kept
  have hthere : m.store.Kept go.store := hgo ▸ .refl _
  obtain ⟨hsound₁, hstore⟩ := hback m₁ (hway.sound hsound) hkept
  have hagain : m₁.store.Kept (back m₁).store := hstore ▸ .refl _
  refine ⟨hout, ?_, ?_, ?_, ?_⟩
  · rw [hstates, hout, hz, Trace.detour]
    cases hx : x go with
    | exhausted =>
      refine ⟨m₁, .on hthere hsound (hway.append (.here m₁)), ?_⟩
      rintro m₂ ⟨⟩
    | failed e m' =>
      obtain rfl : m' = m₁ := hlast m' (by rw [hx]; rfl)
      refine ⟨back m', .on hthere hsound (hway.append (.single hagain hsound₁)), ?_⟩
      rintro m₂ ⟨⟩
      rfl
    | done a m' =>
      obtain rfl : m' = m₁ := hlast m' (by rw [hx]; rfl)
      refine ⟨back m', .on hthere hsound (hway.append (.single hagain hsound₁)), ?_⟩
      rintro m₂ ⟨⟩
      rfl
  · intro s hs
    rw [hstates]
    exact List.mem_cons_of_mem m (List.mem_append_left _ (h.origin s (horigin ▸ hs)))
  · intro a m' ha
    rw [hz] at ha
    obtain ⟨m₂, hx, rfl⟩ := Outcome.onMachine_eq_done.mp ha
    exact hP m₂ a (h.result a m₂ hx)
  · intro e m' he
    rw [hz] at he
    obtain ⟨m₂, hx, rfl⟩ := Outcome.onMachine_eq_failed.mp he
    rw [horigin]
    exact h.error e m₂ hx

theorem inFrame {x : Run α} {y : Trace α} {f : FrameId} (hm : m.Sound) (hf : f < m.store.next)
    (hP : ∀ m' a, P m' a → P { m' with current := m.current } a)
    (h : ∀ m, m.Sound → Orderly m P x y) :
    Orderly m P (inFrame f x) (Interpretation.inFrame f y) := by
  have hgo : Machine.Sound { m with current := f } := ⟨hm.nested, hf, hm.bindings⟩
  refine detour { m with current := f } (fun m' => { m' with current := m.current }) rfl hgo
    (h _ hgo) (fun m' hm' hkept => ⟨?_, rfl⟩) hP (inFrame_apply f x m)
    (inFrame_apply f y.outcome m) rfl rfl
  exact ⟨hm'.nested, Nat.lt_of_lt_of_le hm.inside hkept.next_le, hm'.bindings⟩

theorem nested {x : Run α} {y : Trace α} (hm : m.Sound)
    (hP : ∀ m' a, P m' a → P { m' with depth := m'.depth - 1 } a)
    (h : Orderly { m with depth := m.depth + 1 } P x y) :
    Orderly m P (nested x) (Interpretation.nested y) := by
  by_cases hdepth : m.depth < m.limit
  · have hlimit : ¬m.limit ≤ m.depth := Nat.not_le_of_lt hdepth
    refine detour { m with depth := m.depth + 1 } (fun m' => { m' with depth := m'.depth - 1 }) rfl
      ⟨hm.nested, hm.inside, hm.bindings⟩ h
      (fun m' hm' _ => ⟨⟨hm'.nested, hm'.inside, hm'.bindings⟩, rfl⟩) hP (nested_apply x hdepth)
      (nested_apply y.outcome hdepth) (if_neg hlimit) (if_neg hlimit)
  · have hlimit : m.limit ≤ m.depth := Nat.le_of_not_lt hdepth
    have hx := nested_limit x hlimit
    have hstates : (Interpretation.nested y : Trace α).states m = [] := if_pos hlimit
    have horigin : (Interpretation.nested y : Trace α).origin? m = some m := if_pos hlimit
    have hmem : ∀ s ∈ (Interpretation.nested y : Trace α).origin? m,
        s ∈ m :: (Interpretation.nested y : Trace α).states m := by
      rw [horigin]
      rintro s ⟨⟩
      exact List.mem_cons_self
    refine ⟨(nested_limit y.outcome hlimit).trans hx.symm, ⟨m, hstates ▸ .here m, ?_⟩, hmem, ?_,
      ?_⟩ <;> rw [hx]
    · rintro m₁ ⟨⟩
      rfl
    · rintro a m₁ ⟨⟩
    · rintro e m₁ ⟨⟩
      exact explained_of_aboutCommand rfl

/-! ## Basic steps -/

theorem of_declareIn {x : Run Unit} (m₁ : Machine) {f : FrameId} {n : Name} {v : Value}
    (h : x m = declareIn f n v m₁) (hm₁ : m₁.Sound) (hstore : m₁.store = m.store)
    (hv : Bindable m₁.store.next n.text v) : Orderly m (fun _ _ => True) x (step x) := by
  rcases declareIn_cases m₁ f n v with ⟨w, -, h'⟩ | ⟨hfree, h'⟩
  · exact of_failed (h.trans h') (hstore ▸ .refl _) hm₁ (explained_of_aboutCommand rfl)
  · exact of_done (h.trans h') (hstore ▸ .bind hfree v) (hm₁.bind f hv) trivial

theorem assign (hm : m.Sound) {n : Name} {v : Value} (hn : isCommandName n.text = false)
    (hv : v.Admitted m.store.next) :
    Orderly m (fun _ _ => True) (assign n v) (step (Run.assign n v)) := by
  rcases assign_cases m n v with ⟨-, h⟩ | ⟨g, -, h⟩
  · exact of_failed h (.refl _) hm (explained_of_aboutCommand rfl)
  · exact of_done h (.rebind hn g v) (hm.rebind g (.of_not_isCommandName hn hv)) trivial

theorem variableValue (hm : m.Sound) (n : Name) :
    Orderly m (fun m' v => v.Admitted m'.store.next) (variableValue n)
      (step (Offside.variableValue n)) := by
  rcases variableValue_cases m n with ⟨v, hv, h⟩ | ⟨-, h⟩
  · exact of_done h (.refl _) hm (hm.bindings.get? hv).1
  · exact of_failed h (.refl _) hm (explained_of_aboutCommand rfl)

theorem callee (hm : m.Sound) {n : Name} (hn : isCommandName n.text = true) :
    Orderly m (fun m' v => v.Admitted m'.store.next ∧ v.type = .command) (callee n)
      (step (Offside.callee n)) := by
  rcases callee_cases m n with ⟨v, hv, h⟩ | ⟨hnone, h⟩
  · have hbindable := hm.bindings.get? hv
    exact of_done h (.refl _) hm ⟨hbindable.1, hbindable.2 hn⟩
  · have hget : m.store.get? m.current n.text = none := by
      refine Option.eq_none_iff_forall_ne_some.mpr fun v hv => ?_
      -- a name of a command is not bound to `none`
      have htype := (hm.bindings.get? hv).2 hn
      rw [hnone v hv] at htype
      cases htype
    refine of_failed h (.refl _) hm ⟨?_, ?_⟩
    · rintro t ⟨⟩
    · rintro x ⟨⟩
      exact ⟨m, rfl, fun g hg =>
        Store.local?_of_resolve_eq_none hm.nested (Store.resolve_eq_none hget) hg⟩

theorem native (hm : m.Sound) {n : Native} {vs : List Value} (hn : n ∈ Native.standard)
    (hvs : ∀ v ∈ vs, v.Admitted m.store.next) :
    Orderly m (fun m' v => v.Admitted m'.store.next) (n.run vs) (step (n.run vs)) := by
  obtain ⟨sink, count, ⟨v, h, hv⟩ | ⟨e, h, he⟩⟩ := n.run_cases m vs
  · refine of_done h (.refl _) ⟨hm.nested, hm.inside, hm.bindings⟩ ?_
    rcases hv with hv | hv
    · exact hvs v hv
    · exact Value.admitted_of_type hv
  · obtain ⟨o, rfl⟩ := he hn
    exact of_failed h (.refl _) ⟨hm.nested, hm.inside, hm.bindings⟩ (explained_of_aboutCommand rfl)

theorem define (hm : m.Sound) {d : Definition} (hd : d.obeys .cased = true) :
    Orderly m (fun _ _ => True) (closure d >>= declare d.name)
      (step (closure d >>= declare d.name)) :=
  of_declareIn { m with nextIdentity := m.nextIdentity + 1 }
    (v := .command m.nextIdentity (.defined d m.current)) rfl
    ⟨hm.nested, hm.inside, hm.bindings⟩ rfl ⟨⟨hm.inside, hd⟩, fun _ => rfl⟩

/-- Rules, values and calls of programs in which names have their letters. -/
abbrev setting : Setting :=
  ⟨.cased, (· = ·), fun m m' => m.store.Kept m'.store, fun m v => v.Admitted m.store.next,
    fun v => v.type = .command⟩

theorem not_isCommandName {n : Name} (h : Rules.cased.variableName n = true) :
    isCommandName n.text = false := by
  simpa [Rules.cased] using h

theorem judgement :
    Judgement (Y := Trace) setting fun _ m P x y => m.Sound → Orderly m P x y where
  plain h := Value.admitted_of_type h
  persists h hv := hv.mono h.next_le
  pure h _ := pure h
  bind h hf hm := bind hm (h hm) fun m' a hkept hsound ha => hf m' a hkept ha hsound
  located p h hm := located p (h hm)
  fail h _ hm := of_failed rfl (.refl _) hm (explained_of_aboutCommand h)
  variableValue n hm := variableValue hm n
  callee hn hm := callee hm hn
  notCallable hv h _ _ := absurd hv h
  native hn hvs hm := native hm hn hvs
  declare hn hv hm := of_declareIn _ rfl hm rfl (.of_not_isCommandName (not_isCommandName hn) hv)
  assign hn hv hm := assign hm (not_isCommandName hn) hv
  define hd hm := define hm hd
  stop {m P k y} _ hk hy _ := by
    subst hk
    rw [hy]
    exact exhaust
  next {n k} h := ⟨n, h.symm, rfl⟩

/-! ## Commands -/

theorem bindParams {f : FrameId} {ns : List Name} (hns : ns.all Rules.cased.variableName = true)
    {vs : List Value} (hm : m.Sound) (hvs : ∀ v ∈ vs, v.Admitted m.store.next) :
    Orderly m (fun _ _ => True) (bindParams f ns vs) (bindParamsIn f ns vs) := by
  induction ns generalizing vs m with
  | nil => exact pure trivial
  | cons n ns ih =>
    cases vs with
    | nil => exact pure trivial
    | cons v vs =>
      rw [List.all_cons, Bool.and_eq_true] at hns
      rw [List.forall_mem_cons] at hvs
      rw [Run.bindParams, bindParamsIn]
      have hv := Bindable.of_not_isCommandName (not_isCommandName hns.1) hvs.1
      refine bind hm (of_declareIn _ rfl hm rfl hv) fun m' _ hkept hm' _ => ?_
      exact ih hns.2 hm' fun w hw => (hvs.2 w hw).mono hkept.next_le

theorem enter {d : Definition} {home : FrameId} {vs : List Value} {x : Run Flow} {y : Trace Flow}
    (hm : m.Sound) (hhome : home < m.store.next) (hd : d.obeys .cased = true)
    (hvs : ∀ v ∈ vs, v.Admitted m.store.next)
    (hbody : ∀ m, m.Sound → Orderly m (Flow.Has setting.ok) x y) :
    Orderly m setting.ok (enter d home vs x) (enterIn d home vs y) := by
  have hparams := (Definition.obeys_iff.mp hd).2.1
  have hopen : Orderly m (fun m' f => f < m'.store.next) (openFrame home)
      (step (openFrame home)) := by
    refine of_done rfl (.push _ _) (hm.openFrame hhome) ?_
    show m.store.next < (m.store.push _).next
    rw [Store.next_push]
    exact Nat.lt_succ_self _
  refine bind hm hopen fun m₁ f hkept₁ hm₁ hf => ?_
  have hvs₁ : ∀ v ∈ vs, v.Admitted m₁.store.next := fun v hv => (hvs v hv).mono hkept₁.next_le
  refine bind hm₁ (bindParams hparams hm₁ hvs₁) fun m₂ _ hkept₂ hm₂ _ => ?_
  have hf₂ : f < m₂.store.next := Nat.lt_of_lt_of_le hf hkept₂.next_le
  have hm₂' : Machine.Sound { m₂ with depth := m₂.depth + 1 } :=
    ⟨hm₂.nested, hm₂.inside, hm₂.bindings⟩
  have hnested : Orderly m₂ (Flow.Has setting.ok) (Run.nested (Run.inFrame f x))
      (Interpretation.nested (Interpretation.inFrame f y)) :=
    nested hm₂ (fun _ _ h => h) (inFrame hm₂' hf₂ (fun _ _ h => h) hbody)
  exact bind hm₂ hnested fun m₃ flow _ _ hflow => pure hflow

theorem enters : Judgement.Enters (Y := Trace) setting fun _ m P x y => m.Sound → Orderly m P x y
    where
  obeys h := (Definition.obeys_iff.mp h.2).2.2
  enter h hvs hbody hm := enter hm h.1 h.2 hvs hbody
  exhaust {m k d home vs} hk _ := by
    subst hk
    exact exhaust

/-- Whatever is allowed by the letters of its names is orderly. -/
theorem program {p : Program} (hp : bodyObeys .cased p = true) (fuel : Nat) (hm : m.Sound) :
    Orderly m (Flow.Has setting.ok) (execAll (apply fuel) fuel p) (Program.trace p fuel) :=
  judgement.execAll (judgement.apply enters (rfl : fuel = fuel)) rfl p hp hm

end Orderly

/-! ## Sessions -/

namespace Session

variable {fuel : Nat} {source : String} {m : Machine}

theorem run_of_ok {p : Program} (h : parseSource source = .ok p) :
    run fuel source m = ofRun (runOf p fuel) m := by
  unfold run withProgram
  simp only [h]
  rfl

theorem run_of_error {e : Failure} (h : parseSource source = .error e) :
    run fuel source m = (.failure e, m) := by
  unfold run withProgram
  simp only [h]

theorem parseSource_error {e : RuntimeError} (h : parseSource source = .error (.runtime e)) :
    False := by
  unfold parseSource at h
  split at h
  · cases h
  · split at h <;> cases h

theorem machine_of_run {p : Program} {verdict : Verdict Unit} {m₁ : Machine}
    (hp : parseSource source = .ok p) (h : run fuel source m = (verdict, m₁))
    (hend : verdict ≠ .exhausted) : m₁ ∈ (runOf p fuel m).machine? := by
  rw [run_of_ok hp, ofRun] at h
  cases ho : runOf p fuel m with
  | done u m₂ =>
    rw [ho] at h
    cases h
    rfl
  | failed e m₂ =>
    rw [ho] at h
    cases h
    rfl
  | exhausted =>
    rw [ho] at h
    cases h
    exact absurd rfl hend

/-- The machines of a session are a way, which ends where the run does. -/
theorem states_way (fuel : Nat) (source : String) (hm : m.Sound) :
    ∃ ms m', states fuel source m = m :: ms ∧ Way m ms m' ∧
      ∀ verdict m₁, run fuel source m = (verdict, m₁) → verdict ≠ .exhausted → m₁ = m' := by
  unfold states
  cases hp : parseSource source with
  | error e =>
    refine ⟨[], m, rfl, .here m, fun verdict m₁ h _ => ?_⟩
    rw [run_of_error hp] at h
    cases h
    rfl
  | ok p =>
    obtain ⟨m', hway, hlast⟩ := (Orderly.program (parseSource_cased hp) fuel hm).way
    have hmachine : (interpret fuel p m).machine? =
        (statementsOf p fuel m).machine?.map Machine.flushed := by
      rw [← Outcome.machine?_flushed, ← runOf_apply]
      rfl
    have hrun : ∀ verdict m₁, run fuel source m = (verdict, m₁) → verdict ≠ .exhausted →
        m₁ ∈ (interpret fuel p m).machine? := fun _ _ => machine_of_run hp
    cases ho : (statementsOf p fuel m).machine? with
    | none =>
      rw [ho] at hmachine
      refine ⟨_, m', rfl, ?_, fun verdict m₁ h hend => ?_⟩
      · rw [hmachine]
        exact hway.append (.here m')
      · have hm₁ := hrun verdict m₁ h hend
        rw [hmachine] at hm₁
        cases hm₁
    | some m₂ =>
      -- the machine of the flush has the same frames
      obtain rfl : m₂ = m' := hlast m₂ ho
      rw [ho] at hmachine
      have hsound := hway.sound hm
      refine ⟨_, m₂.flushed, rfl, ?_, fun verdict m₁ h hend => ?_⟩
      · rw [hmachine]
        exact hway.append (.single (.refl _) ⟨hsound.nested, hsound.inside, hsound.bindings⟩)
      · have hm₁ := hrun verdict m₁ h hend
        rw [hmachine] at hm₁
        exact (Option.some.inj hm₁).symm

theorem error_explained (hm : m.Sound) {e : RuntimeError} {m' : Machine}
    (h : run fuel source m = (.failure (.runtime e), m')) :
    Explained (origin? fuel source m) e.cause := by
  unfold origin?
  cases hp : parseSource source with
  | error e' =>
    rw [run_of_error hp] at h
    cases h
    exact (parseSource_error hp).elim
  | ok p =>
    have horderly := Orderly.program (parseSource_cased hp) fuel hm
    rw [run_of_ok hp, ofRun, runOf_apply] at h
    cases ho : (statementsOf p fuel m).flushed with
    | done u m₂ =>
      rw [ho] at h
      cases h
    | exhausted =>
      rw [ho] at h
      cases h
    | failed e m₂ =>
      rw [ho] at h
      cases h
      rcases Outcome.flushed_eq_failed ho with ⟨m₁, hfailed, -⟩ | ⟨m₁, -, hflush⟩
      · exact horderly.error e m₁ hfailed
      · obtain ⟨err, rfl⟩ := flush_eq_failed hflush
        exact explained_of_aboutCommand rfl

theorem origin_mem (hm : m.Sound) {s : Machine} (hs : origin? fuel source m = some s) :
    s ∈ states fuel source m := by
  unfold origin? at hs
  unfold states
  cases hp : parseSource source with
  | error e =>
    rw [hp] at hs
    cases hs
  | ok p =>
    rw [hp] at hs
    have hmem := (Orderly.program (parseSource_cased hp) fuel hm).origin s hs
    rcases List.mem_cons.mp hmem with rfl | hstep
    · exact List.mem_cons_self
    · exact List.mem_cons_of_mem m (List.mem_append_left _ hstep)

end Session

/-- **Names of commands.** On a fresh machine, whatever the source text, a name without lower case
letters that some frame binds is bound to a command at every machine that the run comes to, and has
that value from then on. So no call comes to anything but a command. A call finds nothing only if
its name is bound nowhere on the way outwards from the frame of the call. -/
theorem commands_kept (source : String) (fuel limit : Nat) (sink : Sink) (readings : Nat → Float) :
    let m := Machine.standard limit sink readings
    let states := Session.states fuel source m
    (∀ verdict m', Session.run fuel source m = (verdict, m') → verdict ≠ .exhausted →
      states.getLast? = some m') ∧
    (∀ s ∈ states, ∀ f x v, isCommandName x = true → s.store.local? f x = some v →
      ∃ i c, v = .command i c) ∧
    states.Pairwise (fun s s' => ∀ f x v, isCommandName x = true → s.store.local? f x = some v →
      s'.store.local? f x = some v) ∧
    ∀ e m', Session.run fuel source m = (.failure (.runtime e), m') →
      (∀ t, e.cause ≠ .notCallable t) ∧
      ∀ x, e.cause = .commandNotFound x →
        ∃ s ∈ states, Session.origin? fuel source m = some s ∧
          ∀ g, s.store.OnChain s.current g → s.store.local? g x = none := by
  intro m states
  have hm : m.Sound := .standard limit sink readings
  obtain ⟨ms, m', hstates, hway, hend⟩ := Session.states_way fuel source hm
  have hcons : states = m :: ms := hstates
  refine ⟨fun verdict m₁ hrun hverdict => ?_, fun s hs f x v hx hv => ?_, ?_, fun e m₁ hrun => ?_⟩
  · rw [hcons, hway.getLast?, hend verdict m₁ hrun hverdict]
  · have hsound : s.Sound := hway.all_sound hm s (hcons ▸ hs)
    exact Value.eq_command ((hsound.bindings f x v hv).2 hx)
  · rw [hcons]
    exact hway.pairwise.imp fun hkept => hkept.commands
  · obtain ⟨hcallable, hfound⟩ := Session.error_explained hm hrun
    refine ⟨hcallable, fun x hx => ?_⟩
    obtain ⟨s, hs, hnone⟩ := hfound x hx
    exact ⟨s, Session.origin_mem hm hs, hs, hnone⟩

/-- A command that calls another one, which is not declared, and a call of it. -/
def misled : String := "DEF GO\n STOP\nGO"

theorem commands_kept_misled :
    let m := Machine.standard 1 .unlimited fun _ => 0
    isCommandName "PRINT" = true ∧
      (∃ v, m.store.local? 0 "PRINT" = some v ∧ ∃ i c, v = .command i c) ∧
      ∃ m', Session.run 3 misled m =
          (.failure (.runtime ⟨.commandNotFound "STOP", some ⟨2, 2⟩⟩), m') ∧
        (Session.states 3 misled m).getLast? = some m' ∧
        ∃ s ∈ Session.states 3 misled m, Session.origin? 3 misled m = some s ∧
          ∀ g, s.store.OnChain s.current g → s.store.local? g "STOP" = none := by
  intro m
  obtain ⟨hlast, hcommand, -, herror⟩ := commands_kept misled 3 1 .unlimited fun _ => 0
  obtain ⟨ms, -, hstates, -⟩ :=
    Session.states_way 3 misled (Machine.Sound.standard 1 .unlimited fun _ => 0)
  have hmem : m ∈ Session.states 3 misled m := hstates ▸ List.mem_cons_self
  have hname : isCommandName "PRINT" = true := by decide +kernel
  obtain ⟨v, hv⟩ : ∃ v, m.store.local? 0 "PRINT" = some v := ⟨_, by cbv⟩
  obtain ⟨m', hrun⟩ : ∃ m', Session.run 3 misled m =
      (.failure (.runtime ⟨.commandNotFound "STOP", some ⟨2, 2⟩⟩), m') := ⟨_, by cbv⟩
  refine ⟨hname, ⟨v, hv, hcommand m hmem 0 "PRINT" v hname hv⟩, m', hrun, ?_, ?_⟩
  · exact hlast _ m' hrun (by simp)
  · exact (herror _ m' hrun).2 "STOP" rfl

end Offside
