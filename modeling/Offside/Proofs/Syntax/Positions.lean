import Offside.Session
import Offside.Proofs.Grammar.Programs

/-!
# The positions in a program

A syntax tree records where its names, its operators and its returns stand, so that errors can be
reported there. In a program that is read from a source text these are positions of tokens of the
text (`parseSource_positions`): every rule of the spelling takes the positions of the tree from the
tokens that it spells the tree with.
-/

namespace Offside

open Grammar Source

/-! ## Positions of trees -/

mutual

/-- The positions that an expression records. -/
def Expr.positions : Expr → List Position
  | .literal _ => []
  | .name _ n => [n.pos]
  | .group inner => inner.positions
  | .unary _ p right => p :: right.positions
  | .binary left _ p right => p :: (left.positions ++ right.positions)
  | .comparison first links => first.positions ++ linkPositions links
  | .ternary condition left right => condition.positions ++ left.positions ++ right.positions
  | .call n args => n.pos :: argPositions args

def linkPositions : List (Link Expr) → List Position
  | [] => []
  | ⟨_, p, right⟩ :: links => p :: (right.positions ++ linkPositions links)

def argPositions : List Expr → List Position
  | [] => []
  | e :: es => e.positions ++ argPositions es

end

mutual

def Stmt.positions : Stmt → List Position
  | .init n e => n.pos :: e.positions
  | .set n e => n.pos :: e.positions
  | .condition test thenBody none => test.positions ++ bodyPositions thenBody
  | .condition test thenBody (some elseBody) =>
    test.positions ++ bodyPositions thenBody ++ bodyPositions elseBody
  | .loop test body => test.positions ++ bodyPositions body
  | .definition n params body => n.pos :: (params.map Name.pos ++ bodyPositions body)
  | .ret p none => [p]
  | .ret p (some e) => p :: e.positions
  | .expression e => e.positions
  | .body stmts => bodyPositions stmts
  | .pass => []

def bodyPositions : List Stmt → List Position
  | [] => []
  | s :: rest => s.positions ++ bodyPositions rest

end

def Definition.positions (d : Definition) : List Position :=
  d.name.pos :: (d.params.map Name.pos ++ bodyPositions d.body)

/-! ## Positions of spellings -/

def Phrase.positions : Phrase → List Position
  | .expr e => e.positions
  | .links ls => linkPositions ls
  | .args es => argPositions es

theorem BinaryOp.SpelledAt.mem {op : BinaryOp} {p : Position} {o : List Token}
    (h : op.SpelledAt p o) : p ∈ o.map Token.pos := by
  obtain ⟨t, ht, rfl⟩ := Option.map_eq_some_iff.mp h.2
  exact List.mem_map_of_mem (List.mem_of_mem_head? ht)

theorem Phrase.Spelled.positions {φ : Phrase} {w : List Token} (h : φ.Spelled w) :
    φ.positions ⊆ w.map Token.pos := by
  induction h with
  | literal ht => exact List.nil_subset _
  | name ht => simp [Phrase.positions, Expr.positions, nameOf]
  | group ht he hu ih => grind [Phrase.positions, Expr.positions]
  | call ht hn hs hu ih => grind [Phrase.positions, Expr.positions, nameOf]
  | unary ht he ih => grind [Phrase.positions, Expr.positions]
  | binary hl ho hr ihl ihr => grind [Phrase.positions, Expr.positions, ho.mem]
  | comparison hf hs ihf ihs => grind [Phrase.positions, Expr.positions]
  | ternary hl ht hc ht' hr ihl ihc ihr => grind [Phrase.positions, Expr.positions]
  | noLink => exact List.nil_subset _
  | link ho hr hs ihr ihs => grind [Phrase.positions, linkPositions, ho.mem]
  | noArg => exact List.nil_subset _
  | arg he hs ihe ihs => grind [Phrase.positions, argPositions]

def Clause.positions : Clause → List Position
  | .statement s | .condition s => s.positions
  | .block body | .statements body => bodyPositions body

theorem Clause.Spelled.positions {c : Clause} {closed : Bool} {w : List Token}
    (h : c.Spelled closed w) : c.positions ⊆ w.map Token.pos := by
  induction h with
  | init ht hn he =>
    grind [Clause.positions, Stmt.positions, nameOf, he.positions, Phrase.positions]
  | set ht hn he =>
    grind [Clause.positions, Stmt.positions, nameOf, he.positions, Phrase.positions]
  | ret ht => simp [Clause.positions, Stmt.positions]
  | retValue ht he => grind [Clause.positions, Stmt.positions, he.positions, Phrase.positions]
  | pass ht => exact List.nil_subset _
  | call hn hs =>
    grind [Clause.positions, Stmt.positions, Expr.positions, nameOf, hs.positions, Phrase.positions]
  | expression he => exact he.positions
  | @definition t n params body closed w ht hn hps hb ih =>
    have hparams : (params.map nameOf).map Name.pos = params.map Token.pos := by
      rw [List.map_map]
      rfl
    grind [Clause.positions, Stmt.positions, nameOf]
  | loop ht he hb ih => grind [Clause.positions, Stmt.positions, he.positions, Phrase.positions]
  | condition ht hs ih => grind [Clause.positions]
  | noElse he hb ih => grind [Clause.positions, Stmt.positions, he.positions, Phrase.positions]
  | withElse he hb ht ho ihb iho =>
    grind [Clause.positions, Stmt.positions, he.positions, Phrase.positions]
  | elseIf he hb ht ht' hs ihb ihs =>
    grind [Clause.positions, Stmt.positions, bodyPositions, he.positions, Phrase.positions]
  | elsif he hb ht hs ihb ihs =>
    grind [Clause.positions, Stmt.positions, bodyPositions, he.positions, Phrase.positions]
  | closedBlock hnl hn hi hb hd ih => grind [Clause.positions]
  | openBlock hnl hn hi hb ih => grind [Clause.positions]
  | nil => exact List.nil_subset _
  | cons hs hn hr hend hopen ihs ihr => grind [Clause.positions, bodyPositions]

/-- In a program that is read from a source text, every position is that of a token of the text. -/
theorem parseSource_positions {source : String} {ts : List Token} {p : Program}
    (hts : tokenize source = .ok ts) (hp : parseSource source = .ok p) :
    bodyPositions p ⊆ ts.map Token.pos := by
  unfold parseSource at hp
  rw [hts] at hp
  simp only at hp
  split at hp
  · cases hp
  · rename_i hparse
    cases hp
    obtain ⟨-, n, w, closed, hcontent, -, hw⟩ := spelled_of_parse hparse
    have hsub : content ts ⊆ ts := fun t ht =>
      (List.takeWhile_sublist _).subset (List.mem_filter.mp ht).1
    intro q hq
    obtain ⟨t, ht, rfl⟩ := List.mem_map.mp (hw.positions hq)
    refine List.mem_map_of_mem (hsub ?_)
    rw [hcontent]
    exact List.mem_append_right n ht

end Offside
