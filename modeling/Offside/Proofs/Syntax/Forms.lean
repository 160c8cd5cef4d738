import Offside.Proofs.Syntax.Bracketed
import Offside.Proofs.Run.Numerals

/-!
# The forms of programs

A program is printed as forms: a node for each statement and expression that has parts, with a word
in front that says what it is. The text writes these forms and no others (`Program.writes`), if the
names and literals of the program are such as source texts have (`legible`): a name is a word and no
reserved one, a text has no quote in it, a number has no sign.
-/

namespace Offside

open Double

/-! ## Names and literals -/

/-- Letters of one case: a command has none in lower case, a variable has some and no others. -/
def NameKind.cased (x : String) : NameKind → Bool
  | .command => !x.toList.any Char.isLower
  | .variable => x.toList.any Char.isLower && !x.toList.any Char.isUpper

/-- A word of a source text that is no reserved word and has the letters of its kind. -/
def NameKind.legible (k : NameKind) (x : String) : Bool :=
  x.toList.all Piece.isWordChar && (x.toList.head?.any fun c => !c.isDigit) &&
    (Keyword.ofText? x).isNone && k.cased x

/-- A literal as source texts have it. -/
def Literal.legible : Literal → Bool
  | number x => !isNegative x && code x ≤ infinityCode
  | text s => !s.toList.contains '"'
  | boolean _ | none => true

mutual

/-- The names and literals of an expression are such as source texts have. -/
def Expr.legible : Expr → Bool
  | .literal l => l.legible
  | .name k n => k.legible n.text
  | .group inner => inner.legible
  | .unary _ _ right => right.legible
  | .binary left _ _ right => left.legible && right.legible
  | .comparison first links => first.legible && legibleLinks links
  | .ternary condition left right => condition.legible && left.legible && right.legible
  | .call n args => NameKind.command.legible n.text && legibleAll args

def legibleLinks : List (Link Expr) → Bool
  | [] => true
  | ⟨_, _, right⟩ :: links => right.legible && legibleLinks links

def legibleAll : List Expr → Bool
  | [] => true
  | e :: es => e.legible && legibleAll es

end

mutual

def Stmt.legible : Stmt → Bool
  | .init n e | .set n e => NameKind.variable.legible n.text && e.legible
  | .condition test thenBody none => test.legible && legibleBody thenBody
  | .condition test thenBody (some elseBody) =>
    test.legible && legibleBody thenBody && legibleBody elseBody
  | .loop test body => test.legible && legibleBody body
  | .definition n params body =>
    NameKind.command.legible n.text && (params.all fun p => NameKind.variable.legible p.text) &&
      legibleBody body
  | .ret _ none | .pass => true
  | .ret _ (some e) | .expression e => e.legible
  | .body stmts => legibleBody stmts

def legibleBody : List Stmt → Bool
  | [] => true
  | s :: rest => s.legible && legibleBody rest

end

/-! ## Forms -/

def Name.form (n : Name) : Form := .word n.text

def Literal.form : Literal → Form
  | text s => .quoted s
  | l => .word l.print

/-- The words of an operator, as they are printed. -/
def BinaryOp.heads : BinaryOp → List Form
  | isNot => [.word "is", .word "not"]
  | notWithin => [.word "not", .word "in"]
  | op => [.word op.text]

mutual

def Expr.form : Expr → Form
  | .literal l => l.form
  | .name _ n => n.form
  | .group inner => .node [.word "group", inner.form]
  | .unary op _ right => .node [.word op.text, right.form]
  | .binary left op _ right => .node (op.heads ++ [left.form, right.form])
  | .comparison first links => .node (.word "comp" :: formLinks first.form links)
  | .ternary c left right => .node [.word "ternary", c.form, left.form, right.form]
  | .call n args => .node (.word n.text :: formAll args)

/-- The forms of a chain; `left` is the form of the operand in front. -/
def formLinks (left : Form) : List (Link Expr) → List Form
  | [] => []
  | ⟨op, _, right⟩ :: links => .node (op.heads ++ [left, right.form]) :: formLinks right.form links

def formAll : List Expr → List Form
  | [] => []
  | e :: es => e.form :: formAll es

end

mutual

def Stmt.form : Stmt → Form
  | .init n e => .node [.word "INIT", n.form, e.form]
  | .set n e => .node [.word "SET", n.form, e.form]
  | .condition test thenBody none => .node [.word "IF", test.form, .node (forms thenBody)]
  | .condition test thenBody (some elseBody) =>
    .node [.word "IF", test.form, .node (forms thenBody), .node (forms elseBody)]
  | .loop test body => .node [.word "WHILE", test.form, .node (forms body)]
  | .definition n params body =>
    .node (.word "DEF" :: n.form :: (params.map Name.form ++ [.node (forms body)]))
  | .ret _ none => .node [.word "RETURN"]
  | .ret _ (some e) => .node [.word "RETURN", e.form]
  | .expression e => e.form
  | .body stmts => .node (forms stmts)
  | .pass => .node [.word "PASS"]

def forms : List Stmt → List Form
  | [] => []
  | s :: rest => s.form :: forms rest

end

/-! ## Printed texts write the forms -/

theorem isPlain_of_isWordChar {c : Char} (hc : Piece.isWordChar c = true) :
    Mark.isPlain c = true := by
  have hne : ∀ d, Piece.isWordChar d = false → (c != d) = true := by
    intro d hd
    rw [bne_iff_ne]
    rintro rfl
    rw [hc] at hd
    cases hd
  simp only [Mark.isPlain, Bool.and_eq_true]
  exact ⟨⟨⟨⟨hne _ (by decide), hne _ (by decide)⟩, hne _ (by decide)⟩, hne _ (by decide)⟩,
    hne _ (by decide)⟩

theorem NameKind.isWord_of_legible {k : NameKind} {x : String} (h : k.legible x = true) :
    Mark.isWord x = true := by
  simp only [NameKind.legible, Bool.and_eq_true, List.all_eq_true] at h
  obtain ⟨⟨⟨hword, hhead⟩, -⟩, -⟩ := h
  simp only [Mark.isWord, Bool.and_eq_true, List.all_eq_true]
  refine ⟨?_, fun c hc => isPlain_of_isWordChar (hword c hc)⟩
  cases hx : x.toList with
  | nil =>
    rw [hx] at hhead
    cases hhead
  | cons c cs => rfl

/-- A number without a sign is printed as a numeral that reads back as it, unless it is too large to
be finite. -/
theorem print_number {x : Float} (h : (Literal.number x).legible = true) :
    (∃ whole fraction, Digits whole ∧ (∀ d ∈ fraction, d.isDigit = true) ∧
      readDigits whole fraction = code x ∧
      (Literal.number x).print = String.ofList (numeral whole fraction)) ∨
    code x = infinityCode ∧ (Literal.number x).print = "Infinity" := by
  simp only [Literal.legible, Bool.and_eq_true, Bool.not_eq_true', decide_eq_true_eq] at h
  obtain ⟨hsign, hcode⟩ := h
  rcases Nat.lt_or_eq_of_le hcode with hlt | heq
  · obtain ⟨whole, fraction, hwhole, hfraction, hread, htext⟩ := display_number hlt
    rw [hsign, if_neg (by simp), String.empty_append] at htext
    exact .inl ⟨whole, fraction, hwhole, hfraction, hread, htext⟩
  · refine .inr ⟨heq, ?_⟩
    show render printed x = _
    rw [render, heq, if_neg (lt_irrefl _), if_pos rfl, hsign]
    rfl

theorem isWord_numeral {whole fraction : List Char} (hwhole : Digits whole)
    (hfraction : ∀ d ∈ fraction, d.isDigit = true) :
    Mark.isWord (String.ofList (numeral whole fraction)) = true := by
  have hdigit : ∀ d : Char, d.isDigit = true → Mark.isPlain d = true := by
    intro d hd
    apply isPlain_of_isWordChar
    simp [Piece.isWordChar, Char.isAlphanum, hd]
  obtain ⟨d, ds, rfl⟩ := List.exists_cons_of_ne_nil hwhole.1
  simp only [Mark.isWord, String.toList_ofList, Bool.and_eq_true, List.all_eq_true]
  refine ⟨by rw [numeral_cons]; rfl, fun c hc => ?_⟩
  unfold numeral at hc
  split at hc
  · exact hdigit c (hwhole.2 c hc)
  · rcases List.mem_append.mp hc with hc | hc
    · exact hdigit c (hwhole.2 c hc)
    rcases List.mem_cons.mp hc with rfl | hc
    · decide
    · exact hdigit c (hfraction c hc)

theorem Literal.writes {l : Literal} (h : l.legible = true) : Writes l.print [l.form] := by
  cases l with
  | text s => exact .quoted (by simpa [Literal.legible] using h)
  | boolean b => cases b <;> exact .word (by decide)
  | none => exact .word (by decide)
  | number x =>
    apply Writes.word
    rcases print_number h with ⟨whole, fraction, hwhole, hfraction, -, htext⟩ | ⟨-, htext⟩
    · rw [htext]
      exact isWord_numeral hwhole hfraction
    · rw [htext]
      decide

theorem BinaryOp.writes (op : BinaryOp) : Writes op.text op.heads := by
  cases op
  case isNot => exact @Writes.spaced "is" "not" _ _ (.word (by decide)) (.word (by decide))
  case notWithin => exact @Writes.spaced "not" "in" _ _ (.word (by decide)) (.word (by decide))
  all_goals exact .word (by decide)

theorem UnaryOp.writes (op : UnaryOp) : Writes op.text [.word op.text] := by
  cases op <;> exact .word (by decide)

mutual

theorem Expr.writes : ∀ e : Expr, e.legible = true → Writes e.print [e.form]
  | .literal l, h => by
    simp only [Expr.print, Expr.form]
    exact Literal.writes (by simpa only [Expr.legible] using h)
  | .name k n, h => by
    simp only [Expr.print, Expr.form]
    exact .word (NameKind.isWord_of_legible (by simpa only [Expr.legible] using h))
  | .group inner, h => by
    have hinner := Expr.writes inner (by simpa only [Expr.legible] using h)
    simp only [Expr.print, Expr.form]
    exact .parenthesize (.word (by decide)) (.cons hinner .nil)
  | .unary op p right, h => by
    have hright := Expr.writes right (by simpa only [Expr.legible] using h)
    simp only [Expr.print, Expr.form]
    exact .parenthesize op.writes (.cons hright .nil)
  | .binary left op p right, h => by
    simp only [Expr.legible, Bool.and_eq_true] at h
    simp only [Expr.print, Expr.form]
    exact .parenthesize op.writes
      (.cons (Expr.writes left h.1) (.cons (Expr.writes right h.2) .nil))
  | .comparison first links, h => by
    simp only [Expr.legible, Bool.and_eq_true] at h
    simp only [Expr.print, Expr.form]
    exact .parenthesize (.word (by decide)) (printLinks_writes links (Expr.writes first h.1) h.2)
  | .ternary c left right, h => by
    simp only [Expr.legible, Bool.and_eq_true] at h
    simp only [Expr.print, Expr.form]
    exact .parenthesize (.word (by decide)) (.cons (Expr.writes c h.1.1)
      (.cons (Expr.writes left h.1.2) (.cons (Expr.writes right h.2) .nil)))
  | .call n args, h => by
    simp only [Expr.legible, Bool.and_eq_true] at h
    simp only [Expr.print, Expr.form]
    exact .parenthesize (.word (NameKind.isWord_of_legible h.1)) (printAll_writes args h.2)

theorem printLinks_writes : ∀ (links : List (Link Expr)) {left : String} {f : Form},
    Writes left [f] → legibleLinks links = true →
    List.Forall₂ (fun t f => Writes t [f]) (printLinks left links) (formLinks f links)
  | [], left, f, hleft, h => by
    simp only [printLinks, formLinks]
    exact .nil
  | ⟨op, p, right⟩ :: links, left, f, hleft, h => by
    simp only [legibleLinks, Bool.and_eq_true] at h
    have hright := Expr.writes right h.1
    simp only [printLinks, formLinks]
    refine .cons ?_ (printLinks_writes links hright h.2)
    exact .parenthesize op.writes (.cons hleft (.cons hright .nil))

theorem printAll_writes : ∀ es : List Expr, legibleAll es = true →
    List.Forall₂ (fun t f => Writes t [f]) (printAll es) (formAll es)
  | [], h => by
    simp only [printAll, formAll]
    exact .nil
  | e :: es, h => by
    simp only [legibleAll, Bool.and_eq_true] at h
    simp only [printAll, formAll]
    exact .cons (Expr.writes e h.1) (printAll_writes es h.2)

end

theorem lineAt_blank (depth : Nat) : ∀ c ∈ (lineAt depth).toList, c = ' ' ∨ c = '\n' := by
  intro c hc
  simp only [lineAt, String.toList_append, String.toList_join, List.mem_append,
    List.mem_flatMap, List.mem_replicate] at hc
  rcases hc with hc | ⟨t, ⟨-, rfl⟩, hc⟩
  · exact .inr (by simpa using hc)
  · exact .inl (by simpa using hc)

theorem delimited_printBody (depth : Nat) (body : List Stmt) (rest : List Char) :
    Mark.Delimited ((printBody depth body).toList ++ rest) := by
  have hline : ∀ depth text, Mark.Delimited ((lineAt depth ++ text).toList ++ rest) := by
    intro depth text
    have htext : (lineAt depth ++ text).toList ++ rest = '\n' ::
        ((String.join (List.replicate depth "  ") ++ text).toList ++ rest) := by simp [lineAt]
    rw [htext]
    exact Mark.delimited_cons (by decide) _
  cases body with
  | nil => exact hline depth _
  | cons s body =>
    rw [printBody, String.append_assoc]
    exact hline (depth + 1) _

mutual

theorem Stmt.writes : ∀ (s : Stmt) (depth : Nat), s.legible = true → Writes (s.print depth) [s.form]
  | .init n e, depth, h => by
    simp only [Stmt.legible, Bool.and_eq_true] at h
    simp only [Stmt.print, Stmt.form]
    exact .parenthesize (.word (by decide)) (.cons (.word (NameKind.isWord_of_legible h.1))
      (.cons (e.writes h.2) .nil))
  | .set n e, depth, h => by
    simp only [Stmt.legible, Bool.and_eq_true] at h
    simp only [Stmt.print, Stmt.form]
    exact .parenthesize (.word (by decide)) (.cons (.word (NameKind.isWord_of_legible h.1))
      (.cons (e.writes h.2) .nil))
  | .condition test thenBody none, depth, h => by
    simp only [Stmt.legible, Bool.and_eq_true] at h
    simp only [Stmt.print, Stmt.form]
    exact .parenthesize (.word (by decide)) (.cons (test.writes h.1)
      (.cons (.opened (printBody_read thenBody depth h.2)) .nil))
  | .condition test thenBody (some elseBody), depth, h => by
    simp only [Stmt.legible, Bool.and_eq_true] at h
    simp only [Stmt.print, Stmt.form]
    exact .parenthesize (.word (by decide)) (.cons (test.writes h.1.1)
      (.cons (.opened (printBody_read thenBody depth h.1.2))
        (.cons (.opened (printBody_read elseBody depth h.2)) .nil)))
  | .loop test body, depth, h => by
    simp only [Stmt.legible, Bool.and_eq_true] at h
    simp only [Stmt.print, Stmt.form]
    exact .parenthesize (.word (by decide)) (.cons (test.writes h.1)
      (.cons (.opened (printBody_read body depth h.2)) .nil))
  | .definition n params body, depth, h => by
    simp only [Stmt.legible, Bool.and_eq_true] at h
    simp only [Stmt.print, Stmt.form, List.cons_append]
    have hparams : List.Forall₂ (fun t f => Writes t [f]) (params.map Name.text)
        (params.map Name.form) := by
      rw [List.forall₂_map_left_iff, List.forall₂_map_right_iff, List.forall₂_same]
      exact fun p hp => .word (NameKind.isWord_of_legible (List.all_eq_true.mp h.1.2 p hp))
    exact .parenthesize (.word (by decide)) (.cons (.word (NameKind.isWord_of_legible h.1.1))
      (List.rel_append hparams (.cons (.opened (printBody_read body depth h.2)) .nil)))
  | .ret p none, depth, h => by
    simp only [Stmt.print, Stmt.form]
    exact .parenthesize (.word (by decide)) .nil
  | .ret p (some e), depth, h => by
    simp only [Stmt.print, Stmt.form]
    exact .parenthesize (.word (by decide))
      (.cons (e.writes (by simpa only [Stmt.legible] using h)) .nil)
  | .expression e, depth, h => by
    simp only [Stmt.print, Stmt.form]
    exact e.writes (by simpa only [Stmt.legible] using h)
  | .body stmts, depth, h => by
    simp only [Stmt.print, Stmt.form]
    exact .opened (printBody_read stmts depth (by simpa only [Stmt.legible] using h))
  | .pass, depth, h => by
    simp only [Stmt.print, Stmt.form]
    exact .parenthesize (.word (by decide)) .nil

theorem printBody_read : ∀ (body : List Stmt) (depth : Nat), legibleBody body = true → ∀ rest,
    Mark.read ((printBody depth body).toList ++ rest) =
      marksAll (forms body) ++ .closing :: Mark.read rest
  | [], depth, h, rest => by
    simp only [printBody, forms, marksAll, String.toList_append, List.append_assoc,
      List.nil_append]
    rw [Mark.read_blanks (lineAt_blank depth)]
    exact Mark.read_closing rest
  | s :: body, depth, h, rest => by
    simp only [legibleBody, Bool.and_eq_true] at h
    simp only [printBody, forms, marksAll, String.toList_append, List.append_assoc]
    rw [Mark.read_blanks (lineAt_blank (depth + 1)),
      Stmt.writes s (depth + 1) h.1 _ (delimited_printBody depth body rest), marksAll_singleton,
      printBody_read body depth h.2]

end

/-- The printed text of a program writes its forms. -/
theorem Program.writes {p : Program} (h : legibleBody p = true) : Writes p.print (forms p) := by
  induction p with
  | nil =>
    intro rest hrest
    rfl
  | cons s p ih =>
    simp only [legibleBody, Bool.and_eq_true] at h
    intro rest hrest
    have htext : (Program.print (s :: p)).toList ++ rest =
        (s.print 0).toList ++ '\n' :: ((Program.print p).toList ++ rest) := by
      simp [Program.print]
    rw [htext, s.writes 0 h.1 _ (Mark.delimited_cons (by decide) _), Mark.read_blank (.inr rfl),
      ih h.2 _ hrest, marksAll_singleton, forms, marksAll, List.append_assoc]

end Offside
