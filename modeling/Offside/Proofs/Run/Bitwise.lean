import Offside.Proofs.Double.Integers
import Offside.Session

/-!
# Bitwise operators

The bitwise operators are operators on integers: `BinaryOp.integer?` tells which, and the result is
the double of that integer, exactly (`Double.Exact`). Since a result goes back to the integer it is,
operators can be nested without losing anything, and expressions keep the laws of the operators on
words (`BitLaws`).
-/

namespace Offside

open Run Double

/-! ## Integers for operands -/

/-- What a bitwise operator makes of the integers of two numbers. Shifts go by the last five digits
of the second one. -/
def BinaryOp.integer? (a b : Float) : BinaryOp → Option ℤ
  | bitAnd => some (Int.land (toWord a).toInt (toWord b).toInt)
  | bitOr => some (Int.lor (toWord a).toInt (toWord b).toInt)
  | bitXor => some (Int.xor (toWord a).toInt (toWord b).toInt)
  | shiftLeft => some (((toWord a).toInt * 2 ^ ((toWord b).toNat % 32)).bmod (2 ^ 32))
  | shiftRight => some ((toWord a).toInt / 2 ^ ((toWord b).toNat % 32))
  | _ => none

theorem BinaryOp.exists_word {op : BinaryOp} {a b : Float} {i : ℤ} (h : op.integer? a b = some i) :
    ∃ w : BitVec 32, w.toInt = i ∧ op.apply (.number a) (.number b) = .ok (.number (ofWord w)) := by
  unfold integer? at h
  split at h <;> cases h
  · exact ⟨_, toInt_and _ _, rfl⟩
  · exact ⟨_, toInt_or _ _, rfl⟩
  · exact ⟨_, toInt_xor _ _, rfl⟩
  · exact ⟨_, toInt_shiftLeft _ _, rfl⟩
  · exact ⟨_, toInt_shiftRight _ _, rfl⟩

/-! ## Expressions for words -/

section expressions

variable (call : Handler) (m : Machine)

/-- The value of an expression is a number with this word. -/
def Operand (e : Expr) (w : BitVec 32) : Prop :=
  ∃ a, eval call e m = .done (.number a) m ∧ toWord a = w

/-- The value of an expression is the number that this word is. -/
def Denotes (e : Expr) (w : BitVec 32) : Prop := eval call e m = .done (.number (ofWord w)) m

variable {call m} {x y : Expr} {v w : BitVec 32}

theorem Denotes.operand (h : Denotes call m x w) : Operand call m x w :=
  ⟨ofWord w, h, toWord_ofWord w⟩

theorem Denotes.group (h : Denotes call m x w) : Operand call m (.group x) w := by
  obtain ⟨a, ha, hw⟩ := h.operand
  exact ⟨a, by rw [eval, ha], hw⟩

theorem Operand.bitNot (p : Position) (h : Operand call m x w) :
    Denotes call m (.unary .bitNot p x) (~~~w) := by
  obtain ⟨a, ha, rfl⟩ := h
  unfold Denotes
  rw [eval]
  simp only [Bind.bind, Run.bind, ha]
  rfl

theorem Operand.onWords {op : BinaryOp} {f : BitVec 32 → BitVec 32 → BitVec 32}
    (hop : ∀ a b, op.apply a b = op.onWords f a b) (p : Position) (hx : Operand call m x v)
    (hy : Operand call m y w) : Denotes call m (.binary x op p y) (f v w) := by
  obtain ⟨a, ha, rfl⟩ := hx
  obtain ⟨b, hb, rfl⟩ := hy
  unfold Denotes
  rw [eval]
  simp only [Bind.bind, Run.bind, ha, hb, hop]
  rfl

theorem Operand.bitAnd (p : Position) (hx : Operand call m x v) (hy : Operand call m y w) :
    Denotes call m (.binary x .bitAnd p y) (v &&& w) :=
  Operand.onWords (fun _ _ => rfl) p hx hy

theorem Operand.bitOr (p : Position) (hx : Operand call m x v) (hy : Operand call m y w) :
    Denotes call m (.binary x .bitOr p y) (v ||| w) :=
  Operand.onWords (fun _ _ => rfl) p hx hy

theorem Operand.bitXor (p : Position) (hx : Operand call m x v) (hy : Operand call m y w) :
    Denotes call m (.binary x .bitXor p y) (v ^^^ w) :=
  Operand.onWords (fun _ _ => rfl) p hx hy

theorem operand_zero : Operand call m (.literal (.number (ofInt 0))) 0 :=
  Denotes.operand (by rw [Denotes, eval]; rfl)

/-- A number that is a word is equal to itself, which NaN is not. -/
theorem Denotes.equal (p : Position) (hx : Denotes call m x w) (hy : Denotes call m y w) :
    eval call (.comparison x [⟨.equal, p, y⟩]) m = .done (.boolean true) m := by
  have hlower := (exact_toInt w).lower
  have hupper := (exact_toInt w).upper
  have hfinite : code (ofWord w) < infinityCode := (whole_ofInt (by omega)).finite
  have hself : (ofWord w == ofWord w) = true := beq_of_code_eq hfinite rfl (.inl rfl)
  have hequal : BinaryOp.equal.apply (.number (ofWord w)) (.number (ofWord w)) =
      .ok (.boolean true) := by
    rw [← hself]
    rfl
  unfold Denotes at hx hy
  rw [eval, evalChain]
  simp only [Bind.bind, Run.bind, hx, hy, hequal]
  rfl

end expressions

/-! ## Laws -/

section laws

variable (call : Handler) (m : Machine)

/-- Both expressions have the same value, an integer that fits into a word. -/
def SameInteger (x y : Expr) : Prop :=
  ∃ i, Exact i ∧ eval call x m = .done (.number (ofInt i)) m ∧
    eval call y m = .done (.number (ofInt i)) m

theorem Denotes.sameInteger {call m} {x y : Expr} {v w : BitVec 32} (hx : Denotes call m x v)
    (hy : Denotes call m y w) (h : v = w) : SameInteger call m x y :=
  ⟨v.toInt, exact_toInt v, hx, h ▸ hy⟩

/-- The laws of the bitwise operators for three operands, wherever the operators stand. -/
structure BitLaws (p : ℕ → Position) (x y z : Expr) : Prop where
  not_and : SameInteger call m
    (.unary .bitNot (p 0) (.group (.binary x .bitAnd (p 1) y)))
    (.binary (.unary .bitNot (p 2) x) .bitOr (p 3) (.unary .bitNot (p 4) y))
  not_or : SameInteger call m
    (.unary .bitNot (p 0) (.group (.binary x .bitOr (p 1) y)))
    (.binary (.unary .bitNot (p 2) x) .bitAnd (p 3) (.unary .bitNot (p 4) y))
  and_assoc : SameInteger call m
    (.binary (.group (.binary x .bitAnd (p 0) y)) .bitAnd (p 1) z)
    (.binary x .bitAnd (p 2) (.group (.binary y .bitAnd (p 3) z)))
  or_assoc : SameInteger call m
    (.binary (.group (.binary x .bitOr (p 0) y)) .bitOr (p 1) z)
    (.binary x .bitOr (p 2) (.group (.binary y .bitOr (p 3) z)))
  xor_assoc : SameInteger call m
    (.binary (.group (.binary x .bitXor (p 0) y)) .bitXor (p 1) z)
    (.binary x .bitXor (p 2) (.group (.binary y .bitXor (p 3) z)))
  /-- `~~x == x | 0` -/
  not_not : eval call
    (.comparison (.unary .bitNot (p 0) (.unary .bitNot (p 1) x))
      [⟨.equal, p 2, .binary x .bitOr (p 3) (.literal (.number (ofInt 0)))⟩]) m =
    .done (.boolean true) m
  /-- `(x ^ y) ^ y == x | 0` -/
  xor_xor : eval call
    (.comparison (.binary (.group (.binary x .bitXor (p 0) y)) .bitXor (p 1) y)
      [⟨.equal, p 2, .binary x .bitOr (p 3) (.literal (.number (ofInt 0)))⟩]) m =
    .done (.boolean true) m

theorem bitLaws {call m} {x y z : Expr} {u v w : BitVec 32} (hx : Operand call m x u)
    (hy : Operand call m y v) (hz : Operand call m z w) (p : ℕ → Position) :
    BitLaws call m p x y z where
  not_and := ((hx.bitAnd _ hy).group.bitNot _).sameInteger
    ((hx.bitNot _).operand.bitOr _ (hy.bitNot _).operand) BitVec.not_and
  not_or := ((hx.bitOr _ hy).group.bitNot _).sameInteger
    ((hx.bitNot _).operand.bitAnd _ (hy.bitNot _).operand) BitVec.not_or
  and_assoc := ((hx.bitAnd _ hy).group.bitAnd _ hz).sameInteger
    (hx.bitAnd _ (hy.bitAnd _ hz).group) (BitVec.and_assoc u v w)
  or_assoc := ((hx.bitOr _ hy).group.bitOr _ hz).sameInteger
    (hx.bitOr _ (hy.bitOr _ hz).group) (BitVec.or_assoc u v w)
  xor_assoc := ((hx.bitXor _ hy).group.bitXor _ hz).sameInteger
    (hx.bitXor _ (hy.bitXor _ hz).group) (BitVec.xor_assoc u v w)
  not_not := by
    have hzero : u ||| 0 = ~~~(~~~u) := by simp
    exact ((hx.bitNot _).operand.bitNot _).equal _ (hzero ▸ hx.bitOr _ operand_zero)
  xor_xor := by
    have hzero : u ||| 0 = u ^^^ v ^^^ v := by
      simp only [BitVec.xor_assoc, BitVec.xor_self, BitVec.xor_zero, BitVec.ofNat_eq_ofNat,
        BitVec.or_zero]
    exact ((hx.bitXor _ hy).group.bitXor _ hy).equal _ (hzero ▸ hx.bitOr _ operand_zero)

end laws

/-- **Bitwise operators are operators on integers**, for all numbers. The results are doubles of
integers that fit into a word, and so nested expressions have the laws of the operators. -/
theorem bitwise_operators :
    (∀ (a b : Float) (op : BinaryOp) (i : ℤ), op.integer? a b = some i →
      op.apply (.number a) (.number b) = .ok (.number (ofInt i)) ∧ Exact i) ∧
    (∀ a : Float,
      UnaryOp.bitNot.apply (.number a) = .ok (.number (ofInt (Int.lnot (toWord a).toInt))) ∧
      Exact (Int.lnot (toWord a).toInt)) ∧
    ∀ (call : Handler) (m : Machine) (x y z : Expr) (a b c : Float),
      eval call x m = .done (.number a) m → eval call y m = .done (.number b) m →
      eval call z m = .done (.number c) m → ∀ p, BitLaws call m p x y z := by
  refine ⟨fun a b op i h => ?_, fun a => ?_, fun call m x y z a b c hx hy hz => ?_⟩
  · obtain ⟨w, rfl, hw⟩ := BinaryOp.exists_word h
    exact ⟨hw, exact_toInt w⟩
  · rw [← toInt_not]
    exact ⟨rfl, exact_toInt _⟩
  · exact bitLaws ⟨a, hx, rfl⟩ ⟨b, hy, rfl⟩ ⟨c, hz, rfl⟩

/-- Minus one shifted by 33 places is minus two. The laws hold of minus one and a half, a NaN and an
infinity. -/
theorem bitwise_operators_minus :
    BinaryOp.shiftLeft.apply (.number (ofInt (-1))) (.number (ofInt 33)) =
      .ok (.number (ofInt (-2))) ∧
    BitLaws (apply 1) (Machine.standard 1 .unlimited fun _ => 0) (fun k => ⟨1, k⟩)
      (.literal (.number (.ofBits 0xBFF8000000000000)))
      (.literal (.number (.ofBits 0x7FF8000000000000)))
      (.literal (.number (.ofBits 0x7FF0000000000000))) := by
  have hword : ∀ i : ℤ, -2 ^ 31 ≤ i → i < 2 ^ 31 → toWord (ofInt i) = BitVec.ofInt 32 i := by
    intro i hlower hupper
    rw [← (exact_of_lt hlower hupper).back, BitVec.ofInt_toInt, (exact_of_lt hlower hupper).back]
  have hinteger : BinaryOp.shiftLeft.integer? (ofInt (-1)) (ofInt 33) = some (-2) := by
    rw [BinaryOp.integer?, hword (-1) (by decide) (by decide), hword 33 (by decide) (by decide)]
    decide
  exact ⟨(bitwise_operators.1 _ _ _ _ hinteger).1,
    bitwise_operators.2.2 _ _ _ _ _ _ _ _ rfl rfl rfl _⟩

end Offside
