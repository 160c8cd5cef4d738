import Offside.Value.Basic

/-!
# Programs in other words

A program can be recast: its positions moved, and, if it is to be bare, its parentheses and the
statements that only hold statements together left out. What is inside them takes their place.

Two programs say the same if they have the same bare form (`Program.bare`). To move a program before
it is recast makes a difference only to its positions (`recastAll_moved`).
-/

namespace Offside

/-- A way to write a program down again. -/
structure Recast where
  /-- Where the positions go. -/
  place : Position → Position
  /-- Whether parentheses and statements that only hold others together are left out. -/
  bare : Bool

namespace Recast

def same : Recast := ⟨fun p => p, false⟩

def moved (f : Position → Position) : Recast := ⟨f, false⟩

def unplaced : Recast := .moved fun _ => .start

/-- Without positions, and with nothing that is not needed. -/
def plain : Recast := ⟨fun _ => .start, true⟩

/-- Of a program whose positions have been moved. -/
def after (τ : Recast) (f : Position → Position) : Recast := ⟨fun p => τ.place (f p), τ.bare⟩

@[simp] theorem same_place (p : Position) : same.place p = p := rfl

@[simp] theorem same_bare : same.bare = false := rfl

@[simp] theorem moved_place (f : Position → Position) (p : Position) :
    (moved f).place p = f p := rfl

@[simp] theorem moved_bare (f : Position → Position) : (moved f).bare = false := rfl

@[simp] theorem after_place (τ : Recast) (f : Position → Position) (p : Position) :
    (τ.after f).place p = τ.place (f p) := rfl

@[simp] theorem after_bare (τ : Recast) (f : Position → Position) : (τ.after f).bare = τ.bare := rfl

end Recast

def Name.recast (τ : Recast) (n : Name) : Name := ⟨n.text, τ.place n.pos⟩

mutual

def Expr.recast (τ : Recast) : Expr → Expr
  | .literal l => .literal l
  | .name k n => .name k (n.recast τ)
  | .group inner => if τ.bare then inner.recast τ else .group (inner.recast τ)
  | .unary op p right => .unary op (τ.place p) (right.recast τ)
  | .binary left op p right => .binary (left.recast τ) op (τ.place p) (right.recast τ)
  | .comparison first links => .comparison (first.recast τ) (recastLinks τ links)
  | .ternary condition left right =>
    .ternary (condition.recast τ) (left.recast τ) (right.recast τ)
  | .call n args => .call (n.recast τ) (recastArgs τ args)

def recastLinks (τ : Recast) : List (Link Expr) → List (Link Expr)
  | [] => []
  | ⟨op, p, right⟩ :: links => ⟨op, τ.place p, right.recast τ⟩ :: recastLinks τ links

def recastArgs (τ : Recast) : List Expr → List Expr
  | [] => []
  | e :: es => e.recast τ :: recastArgs τ es

end

mutual

/-- A statement, recast: one statement, or those that it only held together. -/
def Stmt.recast (τ : Recast) : Stmt → List Stmt
  | .init n e => [.init (n.recast τ) (e.recast τ)]
  | .set n e => [.set (n.recast τ) (e.recast τ)]
  | .condition test thenBody none => [.condition (test.recast τ) (recastAll τ thenBody) none]
  | .condition test thenBody (some elseBody) =>
    [.condition (test.recast τ) (recastAll τ thenBody) (some (recastAll τ elseBody))]
  | .loop test body => [.loop (test.recast τ) (recastAll τ body)]
  | .definition n params body =>
    [.definition (n.recast τ) (params.map (·.recast τ)) (recastAll τ body)]
  | .ret p none => [.ret (τ.place p) none]
  | .ret p (some e) => [.ret (τ.place p) (some (e.recast τ))]
  | .expression e => [.expression (e.recast τ)]
  | .body stmts => if τ.bare then recastAll τ stmts else [.body (recastAll τ stmts)]
  | .pass => [.pass]

def recastAll (τ : Recast) : List Stmt → List Stmt
  | [] => []
  | s :: rest => s.recast τ ++ recastAll τ rest

end

def Definition.recast (τ : Recast) (d : Definition) : Definition :=
  ⟨d.name.recast τ, d.params.map (·.recast τ), recastAll τ d.body⟩

/-- What a program says: all positions are erased, an expression in parentheses stands without them,
and statements that were held together stand in the list around them. -/
def Program.bare (p : Program) : Program := recastAll .plain p

theorem recastAll_append (τ : Recast) (ss ts : List Stmt) :
    recastAll τ (ss ++ ts) = recastAll τ ss ++ recastAll τ ts := by
  induction ss with
  | nil => simp [recastAll]
  | cons s ss ih => simp [recastAll, ih]

/-! ## Nothing changed -/

@[simp] theorem Name.recast_same (n : Name) : n.recast .same = n := rfl

mutual

theorem Expr.recast_same : ∀ e : Expr, e.recast .same = e
  | .literal _ => by simp [Expr.recast]
  | .name _ _ => by simp [Expr.recast]
  | .group inner => by simp [Expr.recast, Expr.recast_same inner]
  | .unary _ _ right => by simp [Expr.recast, Expr.recast_same right]
  | .binary left _ _ right => by
    simp [Expr.recast, Expr.recast_same left, Expr.recast_same right]
  | .comparison first links => by
    simp [Expr.recast, Expr.recast_same first, recastLinks_same links]
  | .ternary condition left right => by
    simp [Expr.recast, Expr.recast_same condition, Expr.recast_same left, Expr.recast_same right]
  | .call _ args => by simp [Expr.recast, recastArgs_same args]

theorem recastLinks_same : ∀ links : List (Link Expr), recastLinks .same links = links
  | [] => by simp [recastLinks]
  | ⟨_, _, right⟩ :: links => by
    simp [recastLinks, Expr.recast_same right, recastLinks_same links]

theorem recastArgs_same : ∀ es : List Expr, recastArgs .same es = es
  | [] => by simp [recastArgs]
  | e :: es => by simp [recastArgs, Expr.recast_same e, recastArgs_same es]

end

mutual

theorem Stmt.recast_same : ∀ s : Stmt, s.recast .same = [s]
  | .init _ e => by simp [Stmt.recast, e.recast_same]
  | .set _ e => by simp [Stmt.recast, e.recast_same]
  | .condition test thenBody none => by
    simp [Stmt.recast, test.recast_same, recastAll_same thenBody]
  | .condition test thenBody (some elseBody) => by
    simp [Stmt.recast, test.recast_same, recastAll_same thenBody, recastAll_same elseBody]
  | .loop test body => by simp [Stmt.recast, test.recast_same, recastAll_same body]
  | .definition _ _ body => by simp [Stmt.recast, recastAll_same body]
  | .ret _ none => by simp [Stmt.recast]
  | .ret _ (some e) => by simp [Stmt.recast, e.recast_same]
  | .expression e => by simp [Stmt.recast, e.recast_same]
  | .body stmts => by simp [Stmt.recast, recastAll_same stmts]
  | .pass => by simp [Stmt.recast]

theorem recastAll_same : ∀ ss : List Stmt, recastAll .same ss = ss
  | [] => by simp [recastAll]
  | s :: rest => by simp [recastAll, s.recast_same, recastAll_same rest]

end

theorem Definition.recast_same (d : Definition) : d.recast .same = d := by
  simp [Definition.recast, recastAll_same]

/-! ## Moved, and then recast -/

section moved

variable (τ : Recast) (f : Position → Position)

@[simp] theorem Name.recast_moved (n : Name) :
    (n.recast (.moved f)).recast τ = n.recast (τ.after f) := rfl

mutual

theorem Expr.recast_moved : ∀ e : Expr, (e.recast (.moved f)).recast τ = e.recast (τ.after f)
  | .literal _ => by simp [Expr.recast]
  | .name _ _ => by simp [Expr.recast]
  | .group inner => by
    cases hbare : τ.bare <;> simp [Expr.recast, Expr.recast_moved inner, hbare]
  | .unary _ _ right => by simp [Expr.recast, Expr.recast_moved right]
  | .binary left _ _ right => by
    simp [Expr.recast, Expr.recast_moved left, Expr.recast_moved right]
  | .comparison first links => by
    simp [Expr.recast, Expr.recast_moved first, recastLinks_moved links]
  | .ternary condition left right => by
    simp [Expr.recast, Expr.recast_moved condition, Expr.recast_moved left,
      Expr.recast_moved right]
  | .call _ args => by simp [Expr.recast, recastArgs_moved args]

theorem recastLinks_moved : ∀ links : List (Link Expr),
    recastLinks τ (recastLinks (.moved f) links) = recastLinks (τ.after f) links
  | [] => by simp [recastLinks]
  | ⟨_, _, right⟩ :: links => by
    simp [recastLinks, Expr.recast_moved right, recastLinks_moved links]

theorem recastArgs_moved : ∀ es : List Expr,
    recastArgs τ (recastArgs (.moved f) es) = recastArgs (τ.after f) es
  | [] => by simp [recastArgs]
  | e :: es => by simp [recastArgs, Expr.recast_moved e, recastArgs_moved es]

end

mutual

theorem Stmt.recast_moved : ∀ s : Stmt,
    recastAll τ (s.recast (.moved f)) = s.recast (τ.after f)
  | .init _ e => by simp [Stmt.recast, recastAll, e.recast_moved]
  | .set _ e => by simp [Stmt.recast, recastAll, e.recast_moved]
  | .condition test thenBody none => by
    simp [Stmt.recast, recastAll, test.recast_moved, recastAll_moved thenBody]
  | .condition test thenBody (some elseBody) => by
    simp [Stmt.recast, recastAll, test.recast_moved, recastAll_moved thenBody,
      recastAll_moved elseBody]
  | .loop test body => by
    simp [Stmt.recast, recastAll, test.recast_moved, recastAll_moved body]
  | .definition _ _ body => by simp [Stmt.recast, recastAll, recastAll_moved body]
  | .ret _ none => by simp [Stmt.recast, recastAll]
  | .ret _ (some e) => by simp [Stmt.recast, recastAll, e.recast_moved]
  | .expression e => by simp [Stmt.recast, recastAll, e.recast_moved]
  | .body stmts => by
    cases hbare : τ.bare <;> simp [Stmt.recast, recastAll, recastAll_moved stmts, hbare]
  | .pass => by simp [Stmt.recast, recastAll]

theorem recastAll_moved : ∀ ss : List Stmt,
    recastAll τ (recastAll (.moved f) ss) = recastAll (τ.after f) ss
  | [] => by simp [recastAll]
  | s :: rest => by
    simp [recastAll, recastAll_append, s.recast_moved, recastAll_moved rest]

end

end moved

end Offside
