import Offside.Proofs.Run.Frames

/-!
# Scopes

Which frame a name is found in (`resolve_eq_some_iff`): the one on the way outwards that binds it
with no other in between. A declaration puts itself in the way of the lookups that come to its frame
without having met the name (`turns_bind`), and an assignment changes what the lookups find that end
where its own does (`turns_rebind`). All other lookups find what they found before.
-/

namespace Offside

open Run

namespace Store

variable {s : Store}

/-! ## The way outwards -/

namespace OnChain

theorem trans {f g h : FrameId} (hfg : s.OnChain f g) (hgh : s.OnChain g h) : s.OnChain f h := by
  induction hfg with
  | here => exact hgh
  | outwards hf hg _ ih => exact .outwards hf hg (ih hgh)

theorem le (hs : s.Nested) {f g : FrameId} (h : s.OnChain f g) : g ≤ f := by
  induction h with
  | here => exact Nat.le_refl _
  | outwards hf hg _ ih => exact Nat.le_trans ih (Nat.le_of_lt (hs _ _ _ hf hg))

theorem antisymm (hs : s.Nested) {f g : FrameId} (hfg : s.OnChain f g) (hgf : s.OnChain g f) :
    f = g :=
  Nat.le_antisymm (hgf.le hs) (hfg.le hs)

theorem total {f g h : FrameId} (hg : s.OnChain f g) (hh : s.OnChain f h) :
    s.OnChain g h ∨ s.OnChain h g := by
  induction hg with
  | here => exact .inl hh
  | outwards hf henclosing hchain ih =>
    cases hh with
    | here => exact .inr (.outwards hf henclosing hchain)
    | outwards hf' henclosing' hchain' =>
      rw [hf] at hf'
      cases hf'
      rw [henclosing] at henclosing'
      cases henclosing'
      exact ih hchain'

theorem modify {f g h : FrameId} {change : Frame → Frame}
    (hchange : ∀ frame, (change frame).enclosing = frame.enclosing) (hgh : s.OnChain g h) :
    (s.modify f change).OnChain g h := by
  induction hgh with
  | here => exact .here
  | @outwards g k h frame hg hk _ ih =>
    by_cases hfg : f = g
    · have hg' : (s.modify f change).frames[g]? = some (change frame) := by
        unfold Store.modify
        rw [Array.getElem?_modify, if_pos hfg, hg, Option.map_some]
      exact .outwards hg' ((hchange frame).trans hk) ih
    · have hg' : (s.modify f change).frames[g]? = some frame := by
        unfold Store.modify
        rw [Array.getElem?_modify, if_neg hfg, hg]
      exact .outwards hg' hk ih

theorem of_modify {f g h : FrameId} {change : Frame → Frame}
    (hchange : ∀ frame, (change frame).enclosing = frame.enclosing)
    (hgh : (s.modify f change).OnChain g h) : s.OnChain g h := by
  induction hgh with
  | here => exact .here
  | @outwards g k h frame hg hk _ ih =>
    unfold Store.modify at hg
    simp only [Array.getElem?_modify] at hg
    split_ifs at hg
    · obtain ⟨frame', hframe', rfl⟩ := Option.map_eq_some_iff.mp hg
      exact .outwards hframe' ((hchange frame').symm.trans hk) ih
    · exact .outwards hg hk ih

end OnChain

/-- The way outwards from `g` comes to `f`, and no frame before `f` binds the name `x`. -/
structure Sees (s : Store) (g f : FrameId) (x : String) : Prop where
  reaches : s.OnChain g f
  nearer : ∀ h, s.OnChain g h → s.OnChain h f → h ≠ f → s.local? h x = none

theorem Sees.here (hs : s.Nested) (f : FrameId) (x : String) : s.Sees f f x where
  reaches := .here
  nearer _ hfh hhf hne := absurd (hhf.antisymm hs hfh) hne

theorem Sees.outwards {f g h : FrameId} {x : String} {frame : Frame}
    (hf : s.frames[f]? = some frame) (hg : frame.enclosing = some g) (hx : s.local? f x = none)
    (hsees : s.Sees g h x) : s.Sees f h x where
  reaches := .outwards hf hg hsees.reaches
  nearer k hfk hkh hne := by
    cases hfk with
    | here => exact hx
    | outwards hf' hg' hchain =>
      rw [hf] at hf'
      cases hf'
      rw [hg] at hg'
      cases hg'
      exact hsees.nearer k hchain hkh hne

theorem Sees.unique {f g h : FrameId} {x : String} (hg : s.Sees f g x) (hh : s.Sees f h x)
    (hgx : s.local? g x ≠ none) (hhx : s.local? h x ≠ none) : g = h := by
  by_cases heq : g = h
  · exact heq
  · rcases hg.reaches.total hh.reaches with hgh | hhg
    · exact absurd (hh.nearer g hg.reaches hgh heq) hgx
    · exact absurd (hg.nearer h hh.reaches hhg (Ne.symm heq)) hhx

theorem sees_of_resolve (hs : s.Nested) {f g : FrameId} {x : String}
    (h : s.resolve f x = some g) : s.Sees f g x := by
  fun_induction s.resolve f x with
  | case1 => cases h
  | case2 f frame hframe hbinds =>
    cases h
    exact .here hs _ x
  | case3 => cases h
  | case4 f frame hframe hbinds g henclosing hlt ih =>
    have hx : s.local? f x = none := by
      rw [local?_eq, hframe]
      simpa [Frame.binds] using hbinds
    exact .outwards hframe henclosing hx (ih h)
  | case5 => cases h

/-- Names are found in the nearest frame that binds them. -/
theorem resolve_eq_some_iff (hs : s.Nested) {f g : FrameId} {x : String} :
    s.resolve f x = some g ↔ s.Sees f g x ∧ s.local? g x ≠ none := by
  have hfound : ∀ {k}, s.resolve f x = some k → s.Sees f k x ∧ s.local? k x ≠ none := by
    intro k hk
    obtain ⟨v, hv⟩ := local?_of_resolve hk
    exact ⟨sees_of_resolve hs hk, by simp [hv]⟩
  refine ⟨hfound, fun ⟨hsees, hx⟩ => ?_⟩
  cases hr : s.resolve f x with
  | none => exact absurd (local?_of_resolve_eq_none hs hr hsees.reaches) hx
  | some k =>
    obtain ⟨hsees', hx'⟩ := hfound hr
    rw [hsees'.unique hsees hx' hx]

theorem resolve_eq_none_iff (hs : s.Nested) {f : FrameId} {x : String} :
    s.resolve f x = none ↔ ∀ g, s.OnChain f g → s.local? g x = none := by
  refine ⟨fun h g => local?_of_resolve_eq_none hs h, fun h => ?_⟩
  cases hr : s.resolve f x with
  | none => rfl
  | some g =>
    obtain ⟨hsees, hx⟩ := (resolve_eq_some_iff hs).mp hr
    exact absurd (h g hsees.reaches) hx

theorem get?_of_resolve {f g : FrameId} {x : String} (h : s.resolve f x = some g) :
    s.get? f x = s.local? g x := by
  unfold get?
  rw [h]

theorem get?_of_resolve_eq_none {f : FrameId} {x : String} (h : s.resolve f x = none) :
    s.get? f x = none := by
  unfold get?
  rw [h]

/-! ## Declarations -/

section bind

variable {f : FrameId} {x : String} {v : Value}

theorem onChain_bind {g h : FrameId} : (s.bind f x v).OnChain g h ↔ s.OnChain g h :=
  ⟨OnChain.of_modify fun _ => rfl, OnChain.modify fun _ => rfl⟩

theorem resolve_bind_of_sees (hs : s.Nested) (hf : f < s.next) {g : FrameId}
    (hsees : s.Sees g f x) : (s.bind f x v).resolve g x = some f := by
  have hs' : (s.bind f x v).Nested := hs.modify fun _ => rfl
  refine (resolve_eq_some_iff hs').mpr ⟨⟨onChain_bind.mpr hsees.reaches, ?_⟩, ?_⟩
  · intro h hgh hhf hne
    rw [local?_bind, if_neg fun hat => hne hat.2.1]
    exact hsees.nearer h (onChain_bind.mp hgh) (onChain_bind.mp hhf) hne
  · rw [local?_bind, if_pos ⟨hf, rfl, rfl⟩]
    exact Option.some_ne_none v

theorem resolve_bind_of_not_sees (hs : s.Nested) (hx : s.local? f x = none) {g : FrameId}
    {y : String} (hnot : ¬(y = x ∧ s.Sees g f x)) :
    (s.bind f x v).resolve g y = s.resolve g y := by
  have hs' : (s.bind f x v).Nested := hs.modify fun _ => rfl
  cases hr : s.resolve g y with
  | none =>
    have hnone := (resolve_eq_none_iff hs).mp hr
    refine (resolve_eq_none_iff hs').mpr fun h hgh => ?_
    rw [onChain_bind] at hgh
    rw [local?_bind, if_neg]
    · exact hnone h hgh
    · rintro ⟨-, rfl, rfl⟩
      exact hnot ⟨rfl, hgh, fun k hgk _ _ => hnone k hgk⟩
  | some h =>
    obtain ⟨hsees, hy⟩ := (resolve_eq_some_iff hs).mp hr
    refine (resolve_eq_some_iff hs').mpr ⟨⟨onChain_bind.mpr hsees.reaches, ?_⟩, ?_⟩
    · intro k hgk hkh hne
      rw [onChain_bind] at hgk hkh
      rw [local?_bind, if_neg]
      · exact hsees.nearer k hgk hkh hne
      · rintro ⟨-, rfl, rfl⟩
        -- The new binding is nearer than `h`, so what is nearer still is nearer than `h` too.
        refine hnot ⟨rfl, hgk, fun j hgj hjk _ => hsees.nearer j hgj (hjk.trans hkh) ?_⟩
        rintro rfl
        exact hne (hkh.antisymm hs hjk)
    · rw [local?_bind, if_neg]
      · exact hy
      · rintro ⟨-, rfl, rfl⟩
        exact hy hx

end bind

/-! ## Assignments -/

section rebind

variable {f : FrameId} {x : String} {v : Value}

theorem onChain_rebind {g h : FrameId} : (s.rebind f x v).OnChain g h ↔ s.OnChain g h :=
  ⟨OnChain.of_modify fun _ => rfl, OnChain.modify fun _ => rfl⟩

theorem local?_rebind_eq_none {g : FrameId} {y : String} :
    (s.rebind f x v).local? g y = none ↔ s.local? g y = none := by
  rw [local?_rebind]
  split_ifs
  · exact Option.map_eq_none_iff
  · exact Iff.rfl

theorem sees_rebind {g h : FrameId} {y : String} :
    (s.rebind f x v).Sees g h y ↔ s.Sees g h y := by
  constructor
  · intro hsees
    refine ⟨onChain_rebind.mp hsees.reaches, fun k hgk hkh hne => ?_⟩
    exact local?_rebind_eq_none.mp
      (hsees.nearer k (onChain_rebind.mpr hgk) (onChain_rebind.mpr hkh) hne)
  · intro hsees
    refine ⟨onChain_rebind.mpr hsees.reaches, fun k hgk hkh hne => ?_⟩
    exact local?_rebind_eq_none.mpr
      (hsees.nearer k (onChain_rebind.mp hgk) (onChain_rebind.mp hkh) hne)

theorem resolve_rebind (hs : s.Nested) (g : FrameId) (y : String) :
    (s.rebind f x v).resolve g y = s.resolve g y := by
  have hs' : (s.rebind f x v).Nested := hs.modify fun _ => rfl
  ext h
  rw [resolve_eq_some_iff hs', resolve_eq_some_iff hs, sees_rebind, ne_eq, local?_rebind_eq_none]

end rebind

/-! ## What lookups find -/

/-- In `s'` the lookups that are touched find `v`, and all others find what they find in `s`. -/
def Turns (s s' : Store) (touched : FrameId → String → Prop) (v : Value) : Prop :=
  ∀ g y, (touched g y → s'.get? g y = some v) ∧ (¬touched g y → s'.get? g y = s.get? g y)

theorem turns_bind (hs : s.Nested) {f : FrameId} (hf : f < s.next) {x : String}
    (hx : s.local? f x = none) (v : Value) :
    s.Turns (s.bind f x v) (fun g y => y = x ∧ s.Sees g f x) v := by
  intro g y
  constructor
  · rintro ⟨rfl, hsees⟩
    rw [get?_of_resolve (resolve_bind_of_sees hs hf hsees), local?_bind, if_pos ⟨hf, rfl, rfl⟩]
  · intro hnot
    have hresolve := resolve_bind_of_not_sees (v := v) hs hx hnot
    cases hr : s.resolve g y with
    | none => rw [get?_of_resolve_eq_none (hresolve.trans hr), get?_of_resolve_eq_none hr]
    | some h =>
      rw [get?_of_resolve (hresolve.trans hr), get?_of_resolve hr, local?_bind, if_neg]
      rintro ⟨-, rfl, rfl⟩
      obtain ⟨w, hw⟩ := local?_of_resolve hr
      rw [hx] at hw
      cases hw

theorem turns_rebind (hs : s.Nested) {f h : FrameId} {x : String} (hf : s.resolve f x = some h)
    (v : Value) :
    s.Turns (s.rebind h x v) (fun g y => y = x ∧ s.resolve g x = s.resolve f x) v := by
  intro g y
  constructor
  · rintro ⟨rfl, hg⟩
    rw [hf] at hg
    obtain ⟨w, hw⟩ := local?_of_resolve hg
    rw [get?_of_resolve ((resolve_rebind hs g y).trans hg), local?_rebind, if_pos ⟨rfl, rfl⟩, hw,
      Option.map_some]
  · intro hnot
    have hresolve := resolve_rebind (f := h) (x := x) (v := v) hs g y
    cases hr : s.resolve g y with
    | none => rw [get?_of_resolve_eq_none (hresolve.trans hr), get?_of_resolve_eq_none hr]
    | some k =>
      rw [get?_of_resolve (hresolve.trans hr), get?_of_resolve hr, local?_rebind, if_neg]
      rintro ⟨rfl, rfl⟩
      exact hnot ⟨rfl, hr.trans hf.symm⟩

end Store

/-! ## Scope operations -/

/-- A declaration and an assignment touch one binding, seen by the lookups that end at it, and those
that fail touch none.

A declaration of `n` in the frame `f` fails if and only if this very frame binds the name. An
assignment from `f` fails if and only if the name is not found from there. -/
theorem scope_operations {m : Machine} (hs : m.store.Nested) {f : FrameId} (hf : f < m.store.next)
    (n : Name) (v : Value) :
    (m.store.local? f n.text = none → ∃ s,
      m.store.define f n.text v = .ok s ∧
      declareIn f n v m = .done () { m with store := s } ∧
      m.store.Turns s (fun g y => y = n.text ∧ m.store.Sees g f n.text) v) ∧
    (m.store.local? f n.text ≠ none →
      m.store.define f n.text v = .error (.alreadyDefined n.text) ∧
      declareIn f n v m = .failed ⟨.alreadyDefined n.text, some n.pos⟩ m) ∧
    (m.store.get? f n.text ≠ none → ∃ s,
      m.store.assign f n.text v = .ok s ∧
      assign n v { m with current := f } = .done () { m with current := f, store := s } ∧
      m.store.Turns s
        (fun g y => y = n.text ∧ m.store.resolve g n.text = m.store.resolve f n.text) v) ∧
    (m.store.get? f n.text = none →
      m.store.assign f n.text v = .error (.undefinedVariable n.text) ∧
      assign n v { m with current := f } =
        .failed ⟨.undefinedVariable n.text, some n.pos⟩ { m with current := f }) := by
  refine ⟨fun hx => ?_, fun hx => ?_, fun hx => ?_, fun hx => ?_⟩
  · refine ⟨m.store.bind f n.text v, ?_, ?_, Store.turns_bind hs hf hx v⟩
    · unfold Store.define
      rw [hx]
    · rcases declareIn_cases m f n v with ⟨w, hw, -⟩ | ⟨-, hdone⟩
      · rw [hx] at hw
        cases hw
      · exact hdone
  · rcases declareIn_cases m f n v with ⟨w, hw, hfailed⟩ | ⟨hnone, -⟩
    · refine ⟨?_, hfailed⟩
      unfold Store.define
      rw [hw]
    · exact absurd hnone hx
  · rcases assign_cases { m with current := f } n v with ⟨hnone, -⟩ | ⟨h, hresolve, hdone⟩
    · exact absurd (Store.get?_of_resolve_eq_none hnone) hx
    · refine ⟨m.store.rebind h n.text v, ?_, hdone, Store.turns_rebind hs hresolve v⟩
      unfold Store.assign
      rw [hresolve]
  · have hresolve := Store.resolve_eq_none hx
    rcases assign_cases { m with current := f } n v with ⟨-, hfailed⟩ | ⟨h, hsome, -⟩
    · refine ⟨?_, hfailed⟩
      unfold Store.assign
      rw [hresolve]
    · rw [hresolve] at hsome
      cases hsome

/-- The outermost frame binds `x`. The frame in it does not, nor does one of the two in that frame,
but the other one does. -/
def shadowed : Machine :=
  { Machine.standard 1 .unlimited fun _ => 0 with
    store := ⟨#[⟨none, [("x", .boolean false)]⟩, ⟨some 0, []⟩, ⟨some 1, [("x", .boolean false)]⟩,
      ⟨some 1, []⟩]⟩ }

theorem shadowed_nested : shadowed.store.Nested := by
  intro f frame g hf hg
  rcases f with _ | _ | _ | _ | f <;> cases hf <;> cases hg <;> decide

theorem scope_operations_shadowed :
    shadowed.store.Nested ∧
    (∃ s, shadowed.store.define 1 "x" (.boolean true) = .ok s ∧
      s.get? 1 "x" = some (.boolean true) ∧ s.get? 3 "x" = some (.boolean true) ∧
      s.get? 0 "x" = shadowed.store.get? 0 "x" ∧ s.get? 2 "x" = shadowed.store.get? 2 "x") ∧
    (∃ s, shadowed.store.assign 3 "x" (.boolean true) = .ok s ∧
      s.get? 0 "x" = some (.boolean true) ∧ s.get? 2 "x" = shadowed.store.get? 2 "x") ∧
    declareIn 2 ⟨"x", ⟨1, 1⟩⟩ .none shadowed =
      .failed ⟨.alreadyDefined "x", some ⟨1, 1⟩⟩ shadowed := by
  have hresolve : ∀ f g, shadowed.store.Sees f g "x" → shadowed.store.local? g "x" ≠ none →
      shadowed.store.resolve f "x" = some g :=
    fun f g hsees hx => (Store.resolve_eq_some_iff shadowed_nested).mpr ⟨hsees, hx⟩
  have hsees1 : shadowed.store.Sees 3 1 "x" := .outwards rfl rfl rfl (.here shadowed_nested 1 "x")
  have hsees0 : shadowed.store.Sees 3 0 "x" :=
    .outwards rfl rfl rfl (.outwards rfl rfl rfl (.here shadowed_nested 0 "x"))
  have hbound0 : shadowed.store.local? 0 "x" ≠ none := Option.some_ne_none _
  have hbound2 : shadowed.store.local? 2 "x" ≠ none := Option.some_ne_none _
  have h3 := hresolve 3 0 hsees0 hbound0
  have h0 := hresolve 0 0 (.here shadowed_nested 0 "x") hbound0
  have h2 := hresolve 2 2 (.here shadowed_nested 2 "x") hbound2
  refine ⟨shadowed_nested, ?_, ?_, ?_⟩
  · obtain ⟨s, hs, -, hturns⟩ := (scope_operations shadowed_nested (f := 1) (by decide)
      ⟨"x", ⟨1, 1⟩⟩ (.boolean true)).1 rfl
    refine ⟨s, hs, (hturns 1 "x").1 ⟨rfl, .here shadowed_nested 1 "x"⟩,
      (hturns 3 "x").1 ⟨rfl, hsees1⟩, (hturns 0 "x").2 ?_, (hturns 2 "x").2 ?_⟩
    · rintro ⟨-, hsees⟩
      exact absurd (hsees.reaches.le shadowed_nested) (by decide)
    · rintro ⟨-, hsees⟩
      exact hbound2 (hsees.nearer 2 .here hsees.reaches (by decide))
  · have hfound : shadowed.store.get? 3 "x" ≠ none := by
      rw [Store.get?_of_resolve h3]
      exact hbound0
    obtain ⟨s, hs, -, hturns⟩ := (scope_operations shadowed_nested (f := 3) (by decide)
      ⟨"x", ⟨1, 1⟩⟩ (.boolean true)).2.2.1 hfound
    refine ⟨s, hs, (hturns 0 "x").1 ⟨rfl, h0.trans h3.symm⟩, (hturns 2 "x").2 ?_⟩
    rintro ⟨-, hsame⟩
    rw [h2, h3] at hsame
    cases hsame
  · exact ((scope_operations shadowed_nested (f := 2) (by decide) ⟨"x", ⟨1, 1⟩⟩ .none).2.1
      hbound2).2

end Offside
