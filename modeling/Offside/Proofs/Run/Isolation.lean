import Offside.Proofs.Run.Mirroring
import Offside.Proofs.Run.Fuel

/-!
# Frames that a run cannot come to

From a frame one comes to the frames around it and, through the commands that are bound in a frame,
to the frames they were declared in (`Store.Reaches`). What runs in a frame sees and changes no
other frames of those that are there when it begins. The frame of a caller is the usual case: a
command comes to it only if it was declared there.

So a run does the same in any two stores that agree on the frames it can come to. The frames it
makes get the next free numbers, and these depend on how many frames there are; so the second store
has the same frames, renumbered (`newNumber`).
-/

namespace Offside

open Run

/-! ## Frames that can be come to -/

/-- From the frame `f` one comes to another: outwards, or to where a command was declared that is
bound in a frame one comes to. -/
inductive Store.Reaches (s : Store) (f : FrameId) : FrameId → Prop
  | here : Reaches s f f
  | outwards {g h : FrameId} {frame : Frame} (hg : Reaches s f g)
      (hframe : s.frames[g]? = some frame) (hh : frame.enclosing = some h) : Reaches s f h
  | home {g home : FrameId} {frame : Frame} {x : String} {i : Nat} {d : Definition}
      (hg : Reaches s f g) (hframe : s.frames[g]? = some frame)
      (hx : (x, Value.command i (.defined d home)) ∈ frame.bindings) : Reaches s f home

/-- The frames that one comes to from `f` are there, and in both stores they are the same. -/
structure Store.AgreeFrom (s s' : Store) (f : FrameId) : Prop where
  exists_frame {g : FrameId} (hg : s.Reaches f g) : g < s.next
  same {g : FrameId} (hg : s.Reaches f g) : s'.frames[g]? = s.frames[g]?

theorem Store.AgreeFrom.lt_next {s s' : Store} {f g : FrameId} (h : s.AgreeFrom s' f)
    (hg : s.Reaches f g) : g < s'.next := by
  have hframe := h.same hg
  rw [Array.getElem?_eq_getElem (h.exists_frame hg)] at hframe
  exact (Array.getElem?_eq_some_iff.mp hframe).1

/-! ## New numbers -/

/-- The number of a frame in a store that began with `k` frames and not with `n`. -/
def newNumber (n k g : Nat) : Nat := if g < n then g else g - n + k

theorem newNumber_of_lt {n k g : Nat} (hg : g < n) : newNumber n k g = g := if_pos hg

theorem newNumber_of_le {n k g : Nat} (hg : n ≤ g) : newNumber n k g = g - n + k :=
  if_neg (Nat.not_lt_of_le hg)

theorem newNumber_lt_iff {n k g h : Nat} (hg : g < n → g < k) (hh : h < n → h < k) :
    newNumber n k g < newNumber n k h ↔ g < h := by
  unfold newNumber
  split_ifs <;> omega

theorem newNumber_succ {n k g : Nat} (hg : n ≤ g) :
    newNumber n k (g + 1) = newNumber n k g + 1 := by
  rw [newNumber_of_le hg, newNumber_of_le (Nat.le_succ_of_le hg)]
  omega

def Value.renumber (ρ : FrameId → FrameId) (v : Value) : Value := v.onCommand (Command.renumber ρ)

def Frame.renumber (ρ : FrameId → FrameId) (f : Frame) : Frame := f.map ρ (Value.renumber ρ)

def Flow.renumber (ρ : FrameId → FrameId) : Flow → Flow
  | normal => normal
  | returned v => returned (v.renumber ρ)

/-! ## Runs in two stores -/

/-- The second machine has the `live` frames of the first, renumbered, and is the same in everything
that is no frame. -/
structure Machine.SameOn (live : FrameId → Prop) (ρ : FrameId → FrameId) (m m' : Machine) :
    Prop where
  frames : ∀ g, live g → m'.store.frames[ρ g]? = m.store.frames[g]?.map (Frame.renumber ρ)
  rest : m' = { m with store := m'.store, current := ρ m.current }

inductive Outcome.SameOn {α : Type} (renumber : (FrameId → FrameId) → α → α)
    (live : FrameId → Prop) (ρ : FrameId → FrameId) : Outcome α → Outcome α → Prop
  | done {a : α} {m m' : Machine} (h : m.SameOn live ρ m') :
      SameOn renumber live ρ (.done a m) (.done (renumber ρ a) m')
  | failed {e : RuntimeError} {m m' : Machine} (h : m.SameOn live ρ m') :
      SameOn renumber live ρ (.failed e m) (.failed e m')

/-- If a run comes to an end, it leaves those frames alone that were there and that it could not
come to; and with the store `s'` it comes to the same end, with the same output and the same effect
on the frames that it could come to and on those that it made. -/
def Isolated {α : Type} (renumber : (FrameId → FrameId) → α → α) (x : Nat → Run α) (m : Machine)
    (s' : Store) : Prop :=
  ∀ o, Ends x m o →
    (∀ m₁ ∈ o.machine?, ∀ g < m.store.next, ¬m.store.Reaches m.current g →
      m₁.store.frames[g]? = m.store.frames[g]?) ∧
    ∃ o', Ends x { m with store := s' } o' ∧
      o.SameOn renumber (fun g => m.store.Reaches m.current g ∨ m.store.next ≤ g)
        (newNumber m.store.next s'.next) o'

namespace Mirror

variable {m : Machine} {s' : Store}

/-- Another store that agrees on the frames that the machine can come to. -/
def isolation (h : m.store.AgreeFrom s' m.current) : Mirror where
  recast := .same
  frame := newNumber m.store.next s'.next
  live g := m.store.Reaches m.current g ∨ m.store.next ≤ g
  top := m.store.next
  base := m.store
  increasing hg hh := by
    refine newNumber_lt_iff (fun hlt => ?_) fun hlt => ?_
    · rcases hg with hg | hg
      · exact h.lt_next hg
      · exact absurd hlt (Nat.not_lt_of_le hg)
    · rcases hh with hh | hh
      · exact h.lt_next hh
      · exact absurd hlt (Nat.not_lt_of_le hh)
  fresh hg := .inr hg
  frame_succ hg := newNumber_succ hg

variable (h : m.store.AgreeFrom s' m.current)

theorem isolation_value (v : Value) :
    (isolation h).value v = v.renumber (newNumber m.store.next s'.next) := by
  have hcommand : (isolation h).command = Command.renumber (newNumber m.store.next s'.next) := by
    funext c
    cases c with
    | defined d home =>
      show Command.defined (d.recast .same) _ = .defined d _
      rw [d.recast_same]
      rfl
    | native n => rfl
  unfold value Value.renumber
  rw [hcommand]

theorem isolation_image (f : Frame) :
    (isolation h).image f = f.renumber (newNumber m.store.next s'.next) := by
  have hvalue := funext (isolation_value h)
  unfold image Frame.renumber
  rw [hvalue]
  rfl

theorem isolation_reached {g : FrameId} (hg : m.store.Reaches m.current g) {frame : Frame}
    (hframe : m.store.frames[g]? = some frame) : (isolation h).image frame = frame := by
  have hkeep : ∀ {g}, m.store.Reaches m.current g → newNumber m.store.next s'.next g = g :=
    fun hg => newNumber_of_lt (h.exists_frame hg)
  rw [isolation_image]
  obtain ⟨enclosing, bindings⟩ := frame
  unfold Frame.renumber Frame.map
  congr 1
  · cases enclosing with
    | none => rfl
    | some g' => exact congrArg some (hkeep (hg.outwards hframe rfl))
  · have hvalues : ∀ b ∈ bindings,
        (b.1, b.2.renumber (newNumber m.store.next s'.next)) = id b := by
      rintro ⟨x, v⟩ hb
      refine congrArg (Prod.mk x) (Value.onCommand_eq_self _ fun i c hc => ?_)
      rw [show v = _ from hc] at hb
      cases c with
      | defined d home => exact congrArg (Command.defined d) (hkeep (hg.home hframe hb))
      | native n => rfl
    rw [List.map_congr_left hvalues, List.map_id]

theorem isolation_safe {g : FrameId} (hg : m.store.Reaches m.current g) {frame : Frame}
    (hframe : m.store.frames[g]? = some frame) : (isolation h).Safe frame := by
  refine ⟨fun g' hg' => .inl (hg.outwards hframe hg'), ?_⟩
  rintro ⟨x, v⟩ hb
  refine lives_of_home fun i d home hv => .inl ?_
  rw [show v = _ from hv] at hb
  exact hg.home hframe hb

theorem isolation_machines : (isolation h).Machines m { m with store := s' } := by
  have hcurrent : newNumber m.store.next s'.next m.current = m.current :=
    newNumber_of_lt (h.exists_frame .here)
  have hbeyond : ∀ {g}, m.store.next ≤ g → m.store.frames[g]? = none :=
    fun hg => Array.getElem?_eq_none hg
  refine ⟨.inl .here, s', ⟨?_, Nat.le_refl _, fun {g} hg => ?_, fun {g frame} hg hframe => ?_,
    fun _ => rfl⟩, ?_⟩
  · show s'.next = newNumber m.store.next s'.next m.store.next
    rw [newNumber_of_le (Nat.le_refl _), Nat.sub_self, Nat.zero_add]
  · show s'.frames[newNumber m.store.next s'.next g]? = _
    rcases hg with hg | hg
    · rw [newNumber_of_lt (h.exists_frame hg), h.same hg]
      cases hframe : m.store.frames[g]? with
      | none => rfl
      | some frame => rw [Option.map_some, isolation_reached h hg hframe]
    · rw [hbeyond hg, newNumber_of_le hg]
      exact Array.getElem?_eq_none (Nat.le_add_left _ _)
  · rcases hg with hg | hg
    · exact isolation_safe h hg hframe
    · rw [hbeyond hg] at hframe
      cases hframe
  · show _ = { m with store := s', current := newNumber m.store.next s'.next m.current }
    rw [hcurrent]

/-! ## Ends of mirrored runs -/

theorem isolation_sameOn {m₁ m₁' : Machine} (hm : (isolation h).Machines m₁ m₁') :
    m₁.SameOn (fun g => m.store.Reaches m.current g ∨ m.store.next ≤ g)
      (newNumber m.store.next s'.next) m₁' := by
  obtain ⟨-, s₁, hs, rfl⟩ := hm
  refine ⟨fun g hg => ?_, rfl⟩
  have himage := funext (isolation_image h)
  rw [← himage]
  exact hs.frames hg

theorem isolation_kept {m₁ m₁' : Machine} (hm : (isolation h).Machines m₁ m₁') {g : FrameId}
    (hg : g < m.store.next) (hreach : ¬m.store.Reaches m.current g) :
    m₁.store.frames[g]? = m.store.frames[g]? := by
  obtain ⟨-, s₁, hs, -⟩ := hm
  refine hs.kept ?_
  rintro (hlive | hlive)
  · exact hreach hlive
  · exact Nat.not_lt_of_le hlive hg

theorem isolated {α : Type} {R : α → α → Prop} {renumber : (FrameId → FrameId) → α → α}
    (hR : ∀ a a', R a a' → a' = renumber (newNumber m.store.next s'.next) a) {x : Nat → Run α}
    (hx : ∀ fuel, (isolation h).Runs R (x fuel) (x fuel)) : Isolated renumber x m s' := by
  rintro _ ⟨hend, fuel, rfl⟩
  have ho := hx fuel m _ (isolation_machines h)
  generalize hm : x fuel m = o, hm' : x fuel { m with store := s' } = o' at ho hend
  cases ho with
  | done ha hm₁ =>
    refine ⟨?_, _, ⟨by simp, fuel, hm'⟩, ?_⟩
    · intro m₂ hm₂ g hg hreach
      cases hm₂
      exact isolation_kept h hm₁ hg hreach
    · rw [hR _ _ ha]
      exact .done (isolation_sameOn h hm₁)
  | @failed e e' _ _ he hm₁ =>
    have herror : e' = e := by
      have hpos : e'.pos = e.pos := by
        rcases he.pos with hpos | hpos
        · rw [hpos]
          exact Option.map_id_apply
        · exact hpos
      obtain ⟨cause, pos⟩ := e
      obtain ⟨cause', pos'⟩ := e'
      rw [RuntimeError.mk.injEq]
      exact ⟨he.cause, hpos⟩
    refine ⟨?_, _, ⟨by simp, fuel, hm'⟩, ?_⟩
    · intro m₂ hm₂ g hg hreach
      cases hm₂
      exact isolation_kept h hm₁ hg hreach
    · rw [herror]
      exact .failed (isolation_sameOn h hm₁)
  | exhausted => exact absurd rfl hend

end Mirror

/-- **Runs are isolated from frames they cannot come to.** Statements or an expression that run in a
frame leave alone what was there before and cannot be come to from that frame; and with any other
store that agrees on what can be come to, they have the same result, write the same, and do the same
to these frames. -/
theorem frames_isolated {m : Machine} {s' : Store} (h : m.store.AgreeFrom s' m.current) :
    (∀ p, Isolated Flow.renumber (statementsOf p) m s') ∧
      ∀ e, Isolated Value.renumber (fun fuel => evaluate fuel e) m s' := by
  have hvalues : ∀ v v', (Mirror.isolation h).Values v v' →
      v' = v.renumber (newNumber m.store.next s'.next) := by
    intro v v' hv
    rw [hv.1, Mirror.isolation_value]
  constructor
  · intro p
    refine Mirror.isolated h (R := (Mirror.isolation h).Flows) (fun flow flow' hflow => ?_) ?_
    · cases hflow with
      | normal => rfl
      | returned hv => rw [hvalues _ _ hv, Flow.renumber]
    · intro fuel
      have hruns := ((Mirror.isolation h).statements p fuel).runs
      have hsame : recastAll (Mirror.isolation h).recast p = p := recastAll_same p
      rwa [hsame, Program.trace_outcome] at hruns
  · intro e
    refine Mirror.isolated h (R := (Mirror.isolation h).Values) hvalues fun fuel => ?_
    have hruns := (Mirror.isolation h).expression e fuel
    have hsame : e.recast (Mirror.isolation h).recast = e := e.recast_same
    rwa [hsame] at hruns

/-- A command that returns `x`, declared in a frame of its own that binds `x`. -/
def keeper : Command :=
  .defined ⟨⟨"F", ⟨1, 5⟩⟩, [], [.ret ⟨2, 3⟩ (some (.name .variable ⟨"x", ⟨2, 10⟩⟩))]⟩ 1

/-- Two frames that can be come to from the first, and another in which `x` is something else. -/
def household : Store :=
  ⟨#[⟨none, [("F", .command 0 keeper)]⟩, ⟨some 0, [("x", .text "mine")]⟩,
    ⟨some 0, [("x", .text "yours")]⟩]⟩

/-- The same two frames, and different others. -/
def neighbours : Store :=
  ⟨#[⟨none, [("F", .command 0 keeper)]⟩, ⟨some 0, [("x", .text "mine")]⟩, ⟨none, []⟩,
    ⟨some 2, [("x", .none)]⟩]⟩

theorem household_agreeFrom : household.AgreeFrom neighbours 0 := by
  have hreach : ∀ g, household.Reaches 0 g → g = 0 ∨ g = 1 := by
    intro g hg
    induction hg with
    | here => exact .inl rfl
    | outwards _ hframe hh ih =>
      rcases ih with rfl | rfl
      · cases hframe
        cases hh
      · cases hframe
        cases hh
        exact .inl rfl
    | home _ hframe hx ih =>
      rcases ih with rfl | rfl
      · cases hframe
        have hkeeper := List.mem_singleton.mp (show _ ∈ [("F", Value.command 0 keeper)] from hx)
        unfold keeper at hkeeper
        cases hkeeper
        exact .inr rfl
      · cases hframe
        have htext := List.mem_singleton.mp (show _ ∈ [("x", Value.text "mine")] from hx)
        cases htext
  constructor
  · intro g hg
    rcases hreach g hg with rfl | rfl <;> decide
  · intro g hg
    rcases hreach g hg with rfl | rfl <;> rfl

theorem frames_isolated_household :
    let m : Machine := { Machine.standard 1 .unlimited fun _ => 0 with store := household }
    m.store.AgreeFrom neighbours m.current ∧
      (∀ p, Isolated Flow.renumber (statementsOf p) m neighbours) ∧
      ∀ e, Isolated Value.renumber (fun fuel => evaluate fuel e) m neighbours :=
  ⟨household_agreeFrom, frames_isolated household_agreeFrom⟩

end Offside
