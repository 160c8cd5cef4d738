import Offside.Proofs.Syntax.Forms
import Offside.Proofs.Syntax.Recast

/-!
# Programs told from their forms

The forms of a program say everything about it but its positions: `Form.expr?` and `stmts?` get the
program back from them (`Expr.expr?_form`, `stmts?_forms`). What has to be seen is that no two kinds
of nodes look alike. Operators with one operand and with two share words and differ in the number of
parts; the words of an operator and the heads of other nodes are no names, and those of statements
are reserved.
-/

namespace Offside

open Double

/-! ## Forms as expressions and statements -/

/-- The expression that a word is: a name or a literal. -/
def wordExpr (s : String) : Expr :=
  if NameKind.variable.legible s then .name .variable ⟨s, .start⟩
  else if NameKind.command.legible s then .name .command ⟨s, .start⟩
  else if s = "true" then .literal (.boolean true)
  else if s = "false" then .literal (.boolean false)
  else if s = "none" then .literal .none
  else if s = "Infinity" then .literal (.number (ofCode false infinityCode))
  else .literal (.number (Source.number s.toList))

/-- The comparison that an operator with both operands is; the chain has the left one already. -/
def link? : Expr → Option (Link Expr)
  | .binary _ op p right => some ⟨op, p, right⟩
  | _ => none

/-- The chain that comparisons with both operands are. -/
def chain? (parts : List Expr) : Option Expr :=
  match parts with
  | .binary first _ _ _ :: _ => (parts.mapM link?).map (.comparison first)
  | _ => none

/-- The expression with this head and these parts. An operator of two words has its second word
among the parts. -/
def nodeExpr? (head : String) (parts : List Expr) : Option Expr :=
  if NameKind.command.legible head then some (.call ⟨head, .start⟩ parts)
  else if head = "comp" then chain? parts
  else
    match parts with
    | [e] =>
      if head = "group" then some (.group e)
      else (UnaryOp.ofText? head).map (.unary · .start e)
    | [left, right] => (BinaryOp.ofText? head).map (.binary left · .start right)
    | [first, left, right] =>
      if head = "ternary" then some (.ternary first left right)
      else if head = "is" then some (.binary left .isNot .start right)
      else some (.binary left .notWithin .start right)
    | _ => none

mutual

def Form.expr? : Form → Option Expr
  | .word s => some (wordExpr s)
  | .quoted s => some (.literal (.text s))
  | .node (.word head :: parts) => exprs? parts >>= nodeExpr? head
  | .node _ => none

def exprs? : List Form → Option (List Expr)
  | [] => some []
  | f :: fs => do
    let e ← f.expr?
    let es ← exprs? fs
    return e :: es

end

def Form.word? : Form → Option String
  | .word s => some s
  | _ => none

mutual

def Form.stmt? : Form → Option Stmt
  | .node (.word head :: parts) =>
    match Keyword.ofText? head, parts, bodies parts with
    | some .initStmt, [.word x, f], _ => f.expr?.map (.init ⟨x, .start⟩)
    | some .setStmt, [.word x, f], _ => f.expr?.map (.set ⟨x, .start⟩)
    | some .ifStmt, test :: _, [_, some body] => test.expr?.map (.condition · body none)
    | some .ifStmt, test :: _, [_, some body, some other] =>
      test.expr?.map (.condition · body (some other))
    | some .whileStmt, test :: _, [_, some body] => test.expr?.map (.loop · body)
    | some .defStmt, .word x :: params, bs =>
      bs.getLast?.join.map
        (.definition ⟨x, .start⟩ ((params.filterMap Form.word?).map (⟨·, .start⟩)))
    | some .returnStmt, [], _ => some (.ret .start none)
    | some .returnStmt, [f], _ => f.expr?.map fun e => .ret .start (some e)
    | some .passStmt, [], _ => some .pass
    | _, _, _ => (Form.node (.word head :: parts)).expr?.map .expression
  | f => f.expr?.map .expression

/-- The statements of each form that is a body. -/
def bodies : List Form → List (Option (List Stmt))
  | [] => []
  | .node fs :: rest => stmts? fs :: bodies rest
  | _ :: rest => none :: bodies rest

def stmts? : List Form → Option (List Stmt)
  | [] => some []
  | f :: fs => do
    let s ← f.stmt?
    let ss ← stmts? fs
    return s :: ss

end

/-! ## Expressions -/

theorem wordExpr_name {k : NameKind} {x : String} (h : k.legible x = true) :
    wordExpr x = .name k ⟨x, .start⟩ := by
  cases k with
  | «variable» => rw [wordExpr, if_pos h]
  | command =>
    have hnot : ¬NameKind.variable.legible x = true := by
      simp only [NameKind.legible, NameKind.cased, Bool.and_eq_true, Bool.not_eq_true'] at h ⊢
      rw [h.2]
      simp
    rw [wordExpr, if_neg hnot, if_pos h]

theorem wordExpr_numeral {whole fraction : List Char} (hwhole : Digits whole) :
    wordExpr (String.ofList (numeral whole fraction)) =
      .literal (.number (ofCode false (readDigits whole fraction))) := by
  obtain ⟨d, ds, rfl⟩ := List.exists_cons_of_ne_nil hwhole.1
  have hd := hwhole.2 d List.mem_cons_self
  have hhead : (String.ofList (numeral (d :: ds) fraction)).toList.head? = some d := by
    rw [String.toList_ofList, numeral_cons, List.head?_cons]
  have hname : ∀ k : NameKind,
      ¬k.legible (String.ofList (numeral (d :: ds) fraction)) = true := by
    intro k
    rw [NameKind.legible, hhead]
    simp [hd]
  have hword : ∀ (w : String) (c : Char), w.toList.head? = some c → c.isDigit = false →
      String.ofList (numeral (d :: ds) fraction) ≠ w := by
    intro w c hw hc heq
    rw [← heq, hhead, Option.some_inj] at hw
    exact ne_of_isDigit hd hc hw
  rw [wordExpr, if_neg (hname _), if_neg (hname _), if_neg (hword _ 't' (by decide) (by decide)),
    if_neg (hword _ 'f' (by decide) (by decide)), if_neg (hword _ 'n' (by decide) (by decide)),
    if_neg (hword _ 'I' (by decide) (by decide)), String.toList_ofList, number_numeral hwhole]

theorem Literal.expr?_form {l : Literal} (h : l.legible = true) :
    l.form.expr? = some (.literal l) := by
  cases l with
  | text s => rfl
  | boolean b => cases b <;> rfl
  | none => rfl
  | number x =>
    have hx := h
    simp only [Literal.legible, Bool.and_eq_true, Bool.not_eq_true', decide_eq_true_eq] at hx
    have hvalue : ofCode false (code x) = x := by rw [← hx.1, ofCode_code hx.2]
    show some (wordExpr (Literal.number x).print) = _
    rcases print_number h with ⟨whole, fraction, hwhole, -, hread, htext⟩ | ⟨hcode, htext⟩
    · rw [htext, wordExpr_numeral hwhole, hread, hvalue]
    · rw [htext, ← hvalue, hcode]
      rfl

theorem nodeExpr?_unary (op : UnaryOp) (e : Expr) :
    nodeExpr? op.text [e] = some (.unary op .start e) := by
  cases op <;> rfl

theorem expr?_binary (op : BinaryOp) {left right : Form} {a b : Expr} (ha : left.expr? = some a)
    (hb : right.expr? = some b) :
    (Form.node (op.heads ++ [left, right])).expr? = some (.binary a op .start b) := by
  cases op <;> simp [BinaryOp.heads, Form.expr?, exprs?, ha, hb] <;> rfl

theorem nodeExpr?_call {x : String} (h : NameKind.command.legible x = true) (es : List Expr) :
    nodeExpr? x es = some (.call ⟨x, .start⟩ es) := by
  unfold nodeExpr?
  exact if_pos h

/-- The comparisons of a chain, each with both operands. -/
def comparisons (left : Expr) : List (Link Expr) → List Expr
  | [] => []
  | ⟨op, p, right⟩ :: links => .binary left op p right :: comparisons right links

theorem mapM_link?_comparisons (left : Expr) (links : List (Link Expr)) :
    (comparisons left links).mapM link? = some links := by
  induction links generalizing left with
  | nil => rfl
  | cons l links ih =>
    rw [comparisons, List.mapM_cons, ih]
    rfl

theorem chain?_comparisons (first : Expr) {links : List (Link Expr)} (h : links ≠ []) :
    chain? (comparisons first links) = some (.comparison first links) := by
  obtain ⟨⟨op, p, right⟩, links, rfl⟩ := List.exists_cons_of_ne_nil h
  show (List.mapM link? (comparisons first (⟨op, p, right⟩ :: links))).map _ = _
  rw [mapM_link?_comparisons]
  rfl

mutual

/-- An expression can be told from its form, up to its positions. -/
theorem Expr.expr?_form : ∀ e : Expr, e.fits = true → e.legible = true →
    e.form.expr? = some (e.recast .unplaced)
  | .literal l, hf, h => by
    simp only [Expr.form, Expr.recast]
    exact Literal.expr?_form (by simpa only [Expr.legible] using h)
  | .name k n, hf, h => by
    simp only [Expr.form, Expr.recast, Name.form, Form.expr?]
    rw [wordExpr_name (by simpa only [Expr.legible] using h)]
    rfl
  | .group inner, hf, h => by
    simp only [Expr.fits, Bool.and_eq_true] at hf
    have hinner := Expr.expr?_form inner hf.1 (by simpa only [Expr.legible] using h)
    simp only [Expr.form, Form.expr?, exprs?, hinner]
    rfl
  | .unary op p right, hf, h => by
    simp only [Expr.fits, Bool.and_eq_true] at hf
    have hright := Expr.expr?_form right hf.1 (by simpa only [Expr.legible] using h)
    simp only [Expr.form, Form.expr?, exprs?, hright]
    exact nodeExpr?_unary op _
  | .binary left op p right, hf, h => by
    simp only [Expr.fits, Bool.and_eq_true] at hf
    simp only [Expr.legible, Bool.and_eq_true] at h
    simp only [Expr.form, Expr.recast]
    exact expr?_binary op (Expr.expr?_form left hf.1.1 h.1) (Expr.expr?_form right hf.1.2 h.2)
  | .comparison first links, hf, h => by
    simp only [Expr.fits, Bool.and_eq_true, Bool.not_eq_true', List.isEmpty_eq_false_iff] at hf
    simp only [Expr.legible, Bool.and_eq_true] at h
    have hfirst := Expr.expr?_form first hf.1.1.1 h.1
    have hne : recastLinks .unplaced links ≠ [] := by
      obtain ⟨⟨op, p, right⟩, links, rfl⟩ := List.exists_cons_of_ne_nil hf.1.2
      simp [recastLinks]
    simp only [Expr.form, Form.expr?, exprs?_formLinks links hfirst hf.2 h.2, Expr.recast]
    exact chain?_comparisons _ hne
  | .ternary c left right, hf, h => by
    simp only [Expr.fits, Bool.and_eq_true] at hf
    simp only [Expr.legible, Bool.and_eq_true] at h
    have hc := Expr.expr?_form c hf.1.1.1 h.1.1
    have hleft := Expr.expr?_form left hf.1.1.2 h.1.2
    have hright := Expr.expr?_form right hf.1.2 h.2
    simp only [Expr.form, Form.expr?, exprs?, hc, hleft, hright]
    rfl
  | .call n args, hf, h => by
    simp only [Expr.fits, Bool.and_eq_true] at hf
    simp only [Expr.legible, Bool.and_eq_true] at h
    simp only [Expr.form, Form.expr?, exprs?_formAll args hf.1 h.2, Expr.recast]
    exact nodeExpr?_call h.1 _

theorem exprs?_formLinks : ∀ (links : List (Link Expr)) {f : Form} {left : Expr},
    f.expr? = some left → fitLinks links = true → legibleLinks links = true →
    exprs? (formLinks f links) = some (comparisons left (recastLinks .unplaced links))
  | [], f, left, hleft, hf, h => by simp [formLinks, exprs?, recastLinks, comparisons]
  | ⟨op, p, right⟩ :: links, f, left, hleft, hf, h => by
    simp only [fitLinks, Bool.and_eq_true] at hf
    simp only [legibleLinks, Bool.and_eq_true] at h
    have hright := Expr.expr?_form right hf.1.1.2 h.1
    simp only [formLinks, exprs?, expr?_binary op hleft hright,
      exprs?_formLinks links hright hf.2 h.2, recastLinks, comparisons]
    rfl

theorem exprs?_formAll : ∀ es : List Expr, fitAll es = true → legibleAll es = true →
    exprs? (formAll es) = some (recastArgs .unplaced es)
  | [], hf, h => by simp [formAll, exprs?, recastArgs]
  | e :: es, hf, h => by
    simp only [fitAll, Bool.and_eq_true] at hf
    simp only [legibleAll, Bool.and_eq_true] at h
    simp only [formAll, exprs?, Expr.expr?_form e hf.1 h.1, exprs?_formAll es hf.2 h.2, recastArgs]
    rfl

end

/-! ## Statements -/

/-- The reserved words that printed statements begin with. -/
def Keyword.leads : Keyword → Bool
  | initStmt | setStmt | ifStmt | whileStmt | defStmt | returnStmt | passStmt => true
  | _ => false

/-- A form that begins like a statement. -/
def Form.leads : Form → Bool
  | .node (.word head :: _) => (Keyword.ofText? head).any Keyword.leads
  | _ => false

theorem stmt?_of_leads {f : Form} (h : f.leads = false) : f.stmt? = f.expr?.map .expression := by
  cases f with
  | word s => simp [Form.stmt?]
  | quoted s => simp [Form.stmt?]
  | node parts =>
    cases parts with
    | nil => simp [Form.stmt?]
    | cons g parts =>
      cases g with
      | word head =>
        simp only [Form.leads] at h
        cases hk : Keyword.ofText? head with
        | none => simp only [Form.stmt?, hk]
        | some k =>
          rw [hk] at h
          cases k <;> simp [Keyword.leads] at h <;> simp only [Form.stmt?, hk]
      | quoted s => simp [Form.stmt?]
      | node fs => simp [Form.stmt?]

/-- No expression is printed like a statement. -/
theorem Expr.form_leads {e : Expr} (h : e.legible = true) : e.form.leads = false := by
  cases e with
  | literal l => cases l <;> rfl
  | name k n => rfl
  | group inner => rfl
  | unary op p right => cases op <;> rfl
  | binary left op p right => cases op <;> rfl
  | comparison first links => rfl
  | ternary c left right => rfl
  | call n args =>
    simp only [Expr.legible, NameKind.legible, Bool.and_eq_true, Option.isNone_iff_eq_none] at h
    show (Keyword.ofText? n.text).any Keyword.leads = false
    rw [h.1.1.2]
    rfl

theorem bodies_cons (f : Form) (fs : List Form) : ∃ b, bodies (f :: fs) = b :: bodies fs := by
  cases f with
  | word s => exact ⟨none, by simp [bodies]⟩
  | quoted s => exact ⟨none, by simp [bodies]⟩
  | node body => exact ⟨stmts? body, by rw [bodies]⟩

theorem getLast?_bodies (fs body : List Form) :
    (bodies (fs ++ [.node body])).getLast? = some (stmts? body) := by
  induction fs with
  | nil => simp [bodies]
  | cons f fs ih =>
    obtain ⟨b, hb⟩ := bodies_cons f (fs ++ [.node body])
    rw [List.cons_append, hb, List.getLast?_cons, ih]
    rfl

theorem filterMap_word? (params : List Name) (body : List Form) :
    (params.map Name.form ++ [Form.node body]).filterMap Form.word? = params.map Name.text := by
  have hword : Form.word? ∘ Name.form = some ∘ Name.text := rfl
  rw [List.filterMap_append, List.filterMap_map, hword, List.filterMap_eq_map]
  exact List.append_nil _

mutual

theorem Stmt.stmt?_form : ∀ s : Stmt, s.fits = true → s.legible = true →
    ∃ s', s.recast .unplaced = [s'] ∧ s.form.stmt? = some s'
  | .init n e, hf, h => by
    simp only [Stmt.fits] at hf
    simp only [Stmt.legible, Bool.and_eq_true] at h
    refine ⟨_, by rw [Stmt.recast], ?_⟩
    show e.form.expr?.map _ = _
    rw [Expr.expr?_form e hf h.2]
    rfl
  | .set n e, hf, h => by
    simp only [Stmt.fits] at hf
    simp only [Stmt.legible, Bool.and_eq_true] at h
    refine ⟨_, by rw [Stmt.recast], ?_⟩
    show e.form.expr?.map _ = _
    rw [Expr.expr?_form e hf h.2]
    rfl
  | .condition test thenBody none, hf, h => by
    simp only [Stmt.fits, Bool.and_eq_true] at hf
    simp only [Stmt.legible, Bool.and_eq_true] at h
    obtain ⟨b, hb⟩ := bodies_cons test.form [.node (forms thenBody)]
    have hbody := stmts?_forms thenBody hf.2 h.2
    refine ⟨_, by rw [Stmt.recast], ?_⟩
    simp only [Stmt.form, Form.stmt?, hb, bodies, hbody]
    show test.form.expr?.map _ = _
    rw [Expr.expr?_form test hf.1 h.1]
    rfl
  | .condition test thenBody (some elseBody), hf, h => by
    simp only [Stmt.fits, Bool.and_eq_true] at hf
    simp only [Stmt.legible, Bool.and_eq_true] at h
    obtain ⟨b, hb⟩ := bodies_cons test.form [.node (forms thenBody), .node (forms elseBody)]
    have hthen := stmts?_forms thenBody hf.1.2 h.1.2
    have helse := stmts?_forms elseBody hf.2 h.2
    refine ⟨_, by rw [Stmt.recast], ?_⟩
    simp only [Stmt.form, Form.stmt?, hb, bodies, hthen, helse]
    show test.form.expr?.map _ = _
    rw [Expr.expr?_form test hf.1.1 h.1.1]
    rfl
  | .loop test body, hf, h => by
    simp only [Stmt.fits, Bool.and_eq_true] at hf
    simp only [Stmt.legible, Bool.and_eq_true] at h
    obtain ⟨b, hb⟩ := bodies_cons test.form [.node (forms body)]
    have hbody := stmts?_forms body hf.2 h.2
    refine ⟨_, by rw [Stmt.recast], ?_⟩
    simp only [Stmt.form, Form.stmt?, hb, bodies, hbody]
    show test.form.expr?.map _ = _
    rw [Expr.expr?_form test hf.1 h.1]
    rfl
  | .definition n params body, hf, h => by
    simp only [Stmt.fits] at hf
    simp only [Stmt.legible, Bool.and_eq_true] at h
    have hbody := stmts?_forms body hf h.2
    have hlast := getLast?_bodies (n.form :: params.map Name.form) (forms body)
    rw [List.cons_append] at hlast
    refine ⟨_, by rw [Stmt.recast], ?_⟩
    show (bodies (n.form :: (params.map Name.form ++ [.node (forms body)]))).getLast?.join.map
      (Stmt.definition ⟨n.text, .start⟩ (((params.map Name.form ++
        [Form.node (forms body)]).filterMap Form.word?).map fun x => ⟨x, .start⟩)) = _
    rw [hlast, hbody, filterMap_word?, List.map_map]
    rfl
  | .ret p none, hf, h => by
    exact ⟨_, by rw [Stmt.recast], by simp only [Stmt.form, Form.stmt?]; rfl⟩
  | .ret p (some e), hf, h => by
    simp only [Stmt.fits] at hf
    simp only [Stmt.legible] at h
    refine ⟨_, by rw [Stmt.recast], ?_⟩
    show e.form.expr?.map _ = _
    rw [Expr.expr?_form e hf h]
    rfl
  | .expression e, hf, h => by
    simp only [Stmt.fits, Bool.and_eq_true] at hf
    simp only [Stmt.legible] at h
    refine ⟨_, by rw [Stmt.recast], ?_⟩
    simp only [Stmt.form]
    rw [stmt?_of_leads (Expr.form_leads h), Expr.expr?_form e hf.1 h]
    rfl
  | .body stmts, hf, h => by simp [Stmt.fits] at hf
  | .pass, hf, h => by
    exact ⟨_, by rw [Stmt.recast], by simp only [Stmt.form, Form.stmt?]; rfl⟩

theorem stmts?_forms : ∀ ss : List Stmt, fitBody ss = true → legibleBody ss = true →
    stmts? (forms ss) = some (recastAll .unplaced ss)
  | [], hf, h => by simp [forms, stmts?, recastAll]
  | s :: ss, hf, h => by
    simp only [fitBody, Bool.and_eq_true] at hf
    simp only [legibleBody, Bool.and_eq_true] at h
    obtain ⟨s', hrecast, hs⟩ := Stmt.stmt?_form s hf.1 h.1
    simp only [forms, stmts?, hs, stmts?_forms ss hf.2 h.2, recastAll, hrecast]
    rfl

end

end Offside
