import Offside.Proofs.Run.Frames
import Offside.Proofs.Run.Judgement

/-!
# Chains of comparisons

A chain such as `a < b < c` compares `a` with `b` and then `b` with `c`, and each comparison
evaluates both its operands. So `b` is evaluated twice. Where `b` has no calls this cannot be seen:
an expression without calls only looks at the machine (`looks_of_callless`), and the second time it
has the same outcome as the first.

The chain then agrees with `compareOnce`, which evaluates each operand once.
-/

namespace Offside

open Run

/-! ## Expressions without calls -/

def Rules.callless : Rules := ⟨fun _ => true, fun _ => false, true⟩

/-- The run comes to its end, with a result or with an error, and leaves the machine as it was. -/
def Looks {α : Type} (x : Run α) : Prop := ∀ m, (x m).machine? = some m

namespace Looks

variable {α β : Type} {x : Run α}

theorem cases (h : Looks x) (m : Machine) :
    (∃ a, x m = .done a m) ∨ ∃ e, x m = .failed e m := by
  have hm := h m
  cases hx : x m with
  | done a m' =>
    rw [hx] at hm
    cases hm
    exact .inl ⟨a, rfl⟩
  | failed e m' =>
    rw [hx] at hm
    cases hm
    exact .inr ⟨e, rfl⟩
  | exhausted =>
    rw [hx] at hm
    cases hm

theorem pure (a : α) : Looks (pure a : Run α) := fun _ => rfl

theorem ofExcept (pos : Option Position) (r : Except RuntimeError.Cause α) :
    Looks (ofExcept pos r) := by
  intro m
  cases r <;> rfl

theorem bind {f : α → Run β} (hx : Looks x) (hf : ∀ a, Looks (f a)) : Looks (x >>= f) := by
  intro m
  show (Run.bind x f m).machine? = some m
  unfold Run.bind
  rcases hx.cases m with ⟨a, ha⟩ | ⟨e, he⟩
  · rw [ha]
    exact hf a m
  · rw [he]
    rfl

theorem variableValue (n : Name) : Looks (variableValue n) := by
  intro m
  rcases variableValue_cases m n with ⟨v, -, h⟩ | ⟨-, h⟩ <;> rw [h] <;> rfl

theorem again (hx : Looks x) (m : Machine) : (x >>= fun _ => x) m = x m := by
  show Run.bind x (fun _ => x) m = x m
  unfold Run.bind
  rcases hx.cases m with ⟨a, ha⟩ | ⟨e, he⟩
  · rw [ha]
    exact ha
  · rw [he]

end Looks

mutual

/-- An expression without calls only looks at the machine, whatever would run commands. -/
theorem looks_of_callless (call : Handler) :
    ∀ e : Expr, e.obeys .callless = true → Looks (eval call e)
  | .literal l, _ => by
    rw [eval]
    exact .pure _
  | .name k n, _ => by
    rw [eval]
    exact .variableValue n
  | .group inner, h => by
    rw [Expr.obeys] at h
    rw [eval]
    exact looks_of_callless call inner h
  | .unary op p right, h => by
    rw [Expr.obeys] at h
    rw [eval]
    exact (looks_of_callless call right h).bind fun _ => .ofExcept _ _
  | .binary left op p right, h => by
    rw [Expr.obeys, Bool.and_eq_true] at h
    rw [eval]
    refine (looks_of_callless call left h.1).bind fun _ => ?_
    exact (looks_of_callless call right h.2).bind fun _ => .ofExcept _ _
  | .comparison first links, h => by
    rw [Expr.obeys, Bool.and_eq_true] at h
    rw [eval]
    exact chain_looks call (looks_of_callless call first h.1) links h.2
  | .ternary condition left right, h => by
    rw [Expr.obeys, Bool.and_eq_true, Bool.and_eq_true] at h
    rw [eval]
    refine (looks_of_callless call condition h.1.1).bind fun c => ?_
    split
    · exact looks_of_callless call left h.1.2
    · exact looks_of_callless call right h.2
  | .call n args, h => by
    rw [Expr.obeys] at h
    cases h

theorem chain_looks (call : Handler) {left : Run Value} (hleft : Looks left) :
    ∀ links : List (Link Expr), linksObey .callless links = true →
      Looks (evalChain call left links)
  | [], _ => by
    rw [evalChain]
    exact .pure _
  | ⟨op, p, right⟩ :: links, h => by
    rw [linksObey, Bool.and_eq_true] at h
    have hright := looks_of_callless call right h.1
    rw [evalChain]
    refine hleft.bind fun _ => hright.bind fun _ => (Looks.ofExcept _ _).bind fun v => ?_
    split
    · exact chain_looks call hright links h.2
    · exact .pure _

end

/-! ## Each operand once -/

/-- Goes on with a chain behind an operand that has the value `a`. The next operand is evaluated and
compared with it. If that does not hold, no other operand is evaluated. -/
def compareFrom (call : Handler) (a : Value) : List (Link Expr) → Run Value
  | [] => return .boolean true
  | ⟨op, p, right⟩ :: links => do
    let b ← eval call right
    let v ← ofExcept (some p) (op.apply a b)
    if v.isTruthy then compareFrom call b links else return .boolean false

/-- A chain whose operands are evaluated once, from the left. -/
def compareOnce (call : Handler) (first : Expr) (links : List (Link Expr)) : Run Value := do
  let a ← eval call first
  compareFrom call a links

theorem bind_congr_at {α β : Type} {x : Run α} {f g : α → Run β} {m : Machine}
    (h : ∀ a m', x m = .done a m' → f a m' = g a m') : (x >>= f) m = (x >>= g) m := by
  show Run.bind x f m = Run.bind x g m
  unfold Run.bind
  cases hx : x m with
  | done a m' => exact h a m' hx
  | failed e m' => rfl
  | exhausted => rfl

/-- Behind the first comparison, the operand in front has been evaluated. When it is evaluated for
the next comparison, its value is the same. -/
theorem evalChain_eq (call : Handler) (left : Run Value) {links : List (Link Expr)}
    (hne : links ≠ []) (h : ∀ l ∈ links.dropLast, Looks (eval call l.right)) :
    evalChain call left links = left >>= fun a => compareFrom call a links := by
  induction links generalizing left with
  | nil => exact absurd rfl hne
  | cons l links ih =>
    obtain ⟨op, p, right⟩ := l
    funext m
    rw [evalChain]
    refine bind_congr_at fun a m₁ _ => ?_
    rw [compareFrom]
    refine bind_congr_at fun b m₂ hb => ?_
    refine bind_congr_at fun v m₃ hv => ?_
    cases links with
    | nil => rfl
    | cons l' links =>
      obtain ⟨hright, hrest⟩ := List.forall_mem_cons.mp h
      -- neither the operand nor the comparison has changed the machine
      have hm₂ : m₂ = m₁ := by
        have hend := hright m₁
        rw [hb] at hend
        exact Option.some.inj hend
      have hm₃ : m₃ = m₂ := by
        have hend := Looks.ofExcept (some p) (op.apply a b) m₂
        rw [hv] at hend
        exact Option.some.inj hend
      subst hm₃ hm₂
      split
      · rw [ih (eval call right) (by simp) hrest]
        show Run.bind (eval call right) _ m₃ = _
        unfold Run.bind
        rw [hb]
      · rfl

/-- **Chains agree with evaluating each operand once.** An expression without calls leaves the
machine as it is, with its frames, its output and its depth, comes to an end, and when it is
evaluated again it has the same outcome. So a chain of at least one comparison, with no calls in the
operands between two others, has the outcome of `compareOnce`, from every machine. -/
theorem chain_once (fuel : Nat) (m : Machine) :
    (∀ e : Expr, e.obeys .callless = true →
      (evaluate fuel e m).machine? = some m ∧
        (evaluate fuel e >>= fun _ => evaluate fuel e) m = evaluate fuel e m) ∧
    ∀ (first : Expr) (links : List (Link Expr)), links ≠ [] →
      (∀ l ∈ links.dropLast, l.right.obeys .callless = true) →
      evaluate fuel (.comparison first links) m = compareOnce (apply fuel) first links m := by
  constructor
  · intro e he
    have hlooks := looks_of_callless (apply fuel) e he
    exact ⟨hlooks m, hlooks.again m⟩
  · intro first links hne h
    have hlooks : ∀ l ∈ links.dropLast, Looks (eval (apply fuel) l.right) := fun l hl =>
      looks_of_callless (apply fuel) l.right (h l hl)
    rw [evaluate, eval, evalChain_eq (apply fuel) _ hne hlooks]
    rfl

/-- The comparisons of `true == x == false == y`. -/
def middleLinks : List (Link Expr) :=
  [⟨.equal, ⟨1, 6⟩, .name .variable ⟨"x", ⟨1, 9⟩⟩⟩, ⟨.equal, ⟨1, 11⟩, .literal (.boolean false)⟩,
    ⟨.equal, ⟨1, 20⟩, .name .variable ⟨"y", ⟨1, 23⟩⟩⟩]

/-- The first comparison holds, so the program evaluates `x` for it and for the second one. That
does not hold, and it does not matter that `y` is not bound. -/
theorem chain_once_middle :
    let m := Machine.launch [("x", .boolean true)] 0 1 .unlimited fun _ => 0
    middleLinks ≠ [] ∧ (∀ l ∈ middleLinks.dropLast, l.right.obeys .callless = true) ∧
      (evaluate 0 (.name .variable ⟨"x", ⟨1, 9⟩⟩) m).machine? = some m ∧
      evaluate 0 (.comparison (.literal (.boolean true)) middleLinks) m =
        .done (.boolean false) m := by
  intro m
  have hlinks : ∀ l ∈ middleLinks.dropLast, l.right.obeys .callless = true := by
    simp [middleLinks, Expr.obeys]
  refine ⟨by simp [middleLinks], hlinks, ?_, ?_⟩
  · exact ((chain_once 0 m).1 (.name .variable ⟨"x", ⟨1, 9⟩⟩) (by simp [Expr.obeys])).1
  · rw [(chain_once 0 m).2 _ middleLinks (by simp [middleLinks]) hlinks]
    with_unfolding_all rfl

end Offside
