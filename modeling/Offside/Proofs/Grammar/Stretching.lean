import Offside.Proofs.Grammar.Abreast
import Offside.Proofs.Grammar.Following
import Offside.Proofs.Source.Insertion

/-!
# Tokens with an empty line put in

When an empty line is put in before the line `k` of a text, its tokens have a newline more, behind
the newline that ends the line before, and those further down have moved (`stretch`). Here the
readers of expressions are followed on both lists of tokens. They never read a newline, so they come
to the same end, and an error is the same error where its token is now (`Traced.Tracks`).

What an error leaves begins on the line that the error is on. This says later which errors can be
followed by one more.
-/

namespace Offside

def SyntaxError.move (f : Position → Position) (e : SyntaxError) : SyntaxError :=
  ⟨e.cause, f e.pos⟩

theorem SyntaxError.move_below_of_lt {k : Nat} {e : SyntaxError} (h : e.pos.line < k) :
    e.move (.below k) = e := by
  rw [move, Position.below, if_neg (by omega)]

namespace Grammar

/-! ## The tokens -/

/-- The newline of an empty line with the number `k`. -/
def emptyLine (k : Nat) : Token := ⟨.newline, "\n", none, ⟨k, 1⟩⟩

/-- Whether a token ends the line before the line `k`. -/
def endsBefore (k : Nat) (t : Token) : Bool := t.kind == .newline && t.pos.line + 1 == k

/-- The tokens with an empty line put in before the line `k`. -/
def stretch (k : Nat) : List Token → List Token
  | [] => []
  | t :: ts =>
    t.move (.below k) :: ((if endsBefore k t then [emptyLine k] else []) ++ stretch k ts)

section stretch

variable {k l : Nat} {t u : Token} {ts us vs : List Token}

theorem stretch_cons (ht : t.kind ≠ .newline) (ts : List Token) :
    stretch k (t :: ts) = t.move (.below k) :: stretch k ts := by
  simp [stretch, endsBefore, ht]

theorem stretch_append (us vs : List Token) :
    stretch k (us ++ vs) = stretch k us ++ stretch k vs := by
  induction us with
  | nil => rfl
  | cons u us ih => simp [stretch, ih]

theorem stretch_eq_map (h : ∀ t ∈ ts, endsBefore k t = false) :
    stretch k ts = ts.map (.move (.below k)) := by
  induction ts with
  | nil => rfl
  | cons t ts ih =>
    obtain ⟨ht, hts⟩ := List.forall_mem_cons.mp h
    rw [stretch, ht, ih hts]
    rfl

theorem mem_stretch (h : t ∈ stretch k ts) :
    t.kind = .newline ∨ ∃ u ∈ ts, t.kind = u.kind := by
  induction ts with
  | nil => cases h
  | cons u ts ih =>
    rw [stretch, List.mem_cons, List.mem_append] at h
    rcases h with rfl | h | h
    · exact .inr ⟨u, by simp, rfl⟩
    · split_ifs at h
      · rw [List.mem_singleton.mp h]
        exact .inl rfl
      · cases h
    · exact (ih h).imp_right fun ⟨v, hv, hkind⟩ => ⟨v, List.mem_cons_of_mem u hv, hkind⟩

theorem stretch_filter (ts : List Token) :
    (stretch k ts).filter (·.kind != .comment) = stretch k (ts.filter (·.kind != .comment)) := by
  induction ts with
  | nil => rfl
  | cons t ts ih =>
    by_cases ht : t.kind = .comment
    · have ht' : (t.move (.below k)).kind = .comment := ht
      rw [stretch_cons (by simp [ht]), List.filter_cons_of_neg (by simp [ht']),
        List.filter_cons_of_neg (by simp [ht]), ih]
    · have ht' : (t.move (.below k)).kind ≠ .comment := ht
      rw [List.filter_cons_of_pos (by simp [ht]), stretch, stretch,
        List.filter_cons_of_pos (by simp [ht']), List.filter_append, ih]
      split_ifs <;> rfl

theorem stretch_newline (h : Lined l (us ++ u :: vs)) (hu : u.kind = .newline)
    (hk : u.pos.line + 1 = k) :
    stretch k (us ++ u :: vs) =
      us.map (.move (.below k)) ++
        u.move (.below k) :: emptyLine k :: vs.map (.move (.below k)) := by
  have hus : ∀ t ∈ us, endsBefore k t = false := by
    intro t ht
    obtain ⟨xs, ys, rfl⟩ := List.append_of_mem ht
    rw [List.append_assoc, List.cons_append] at h
    by_cases hkind : t.kind = .newline
    · have hlt := h.lt_of_newline hkind u (by simp)
      have hne : t.pos.line + 1 ≠ k := by omega
      simp [endsBefore, hne]
    · simp [endsBefore, hkind]
  have hvs : ∀ t ∈ vs, endsBefore k t = false := by
    intro t ht
    have hlt := h.lt_of_newline hu t ht
    have hne : t.pos.line + 1 ≠ k := by omega
    simp [endsBefore, hne]
  have hends : endsBefore k u = true := by simp [endsBefore, hu, hk]
  rw [stretch_append, stretch_eq_map hus, stretch, hends, stretch_eq_map hvs]
  rfl

end stretch

/-- The tokens `ts'` are the tokens `ts`, numbered by lines, with an empty line put in before the
line `k`. With `past` they are known to be on that line or further down, so that nothing is put
in. The tokens `ts` are the last ones of `all`. -/
structure Stretched (all : List Token) (k : Nat) (past : Bool) (ts ts' : List Token) : Prop where
  suffix : ts <:+ all
  lined : ∃ l, Lined l ts ∧ (past = true → k ≤ l)
  eq : ts' = stretch k ts

/-- The newline in front of `ts` has been read, and `ts'` begins with the empty line. -/
def AtEmptyLine (all : List Token) (k : Nat) (ts ts' : List Token) : Prop :=
  ∃ us', ts' = emptyLine k :: us' ∧ Stretched all k true ts us'

/-- What is left behind a token, which may be the newline before the empty line. -/
def Behind (all : List Token) (k : Nat) (past : Bool) (ts ts' : List Token) : Prop :=
  Stretched all k past ts ts' ∨ past = false ∧ AtEmptyLine all k ts ts'

namespace Stretched

variable {k : Nat} {past : Bool} {t t' : Token} {all ts ts' : List Token}

theorem eq_nil (h : Stretched all k past [] ts') : ts' = [] := h.eq

theorem head (h : Stretched all k past (t :: ts) ts') :
    ∃ us', ts' = t.move (.below k) :: us' ∧ (t.move (.below k)).kind = t.kind :=
  ⟨_, h.eq, rfl⟩

theorem weaken (h : Stretched all k true ts ts') : Stretched all k past ts ts' := by
  obtain ⟨l, hl, hpast⟩ := h.lined
  exact ⟨h.suffix, ⟨l, hl, fun _ => hpast rfl⟩, h.eq⟩

theorem le_line (h : Stretched all k past (t :: ts) ts') (hpast : past = true) :
    k ≤ t.pos.line := by
  obtain ⟨l, ⟨hline, -⟩, hl⟩ := h.lined
  rw [hline]
  exact hl hpast

theorem line (h : Stretched all k past (t :: ts) ts') (ht : t.kind ≠ .newline) :
    ∀ u ∈ ts.head?, u.pos.line = t.pos.line := by
  obtain ⟨l, ⟨hline, hl⟩, -⟩ := h.lined
  rw [if_neg ht] at hl
  intro u hu
  cases ts with
  | nil => cases hu
  | cons v ts =>
    cases hu
    rw [hl.1, hline]

theorem tail_of_not (h : Stretched all k past (t :: ts) (t' :: ts')) (ht : endsBefore k t = false) :
    Stretched all k past ts ts' := by
  obtain ⟨l, ⟨-, hl⟩, hpast⟩ := h.lined
  have heq := h.eq
  rw [stretch, ht] at heq
  refine ⟨(List.suffix_cons t ts).trans h.suffix, ⟨_, hl, fun hp => ?_⟩, (List.cons.inj heq).2⟩
  have hle := hpast hp
  split_ifs <;> omega

theorem tail (h : Stretched all k past (t :: ts) (t' :: ts')) (ht : t.kind ≠ .newline) :
    Stretched all k past ts ts' :=
  h.tail_of_not (by simp [endsBefore, ht])

theorem atEmptyLine (h : Stretched all k past (t :: ts) (t' :: ts')) (ht : endsBefore k t = true) :
    past = false ∧ t.pos.line + 1 = k ∧ AtEmptyLine all k ts ts' := by
  have hmark : t.kind = .newline ∧ t.pos.line + 1 = k := by simpa [endsBefore] using ht
  obtain ⟨l, ⟨hline, hl⟩, hpast⟩ := h.lined
  have heq := h.eq
  rw [stretch, if_pos ht] at heq
  rw [if_pos hmark.1] at hl
  have hk : k = l + 1 := by omega
  refine ⟨?_, hmark.2, stretch k ts, (List.cons.inj heq).2,
    (List.suffix_cons t ts).trans h.suffix, ⟨l + 1, hl, fun _ => hk.le⟩, rfl⟩
  cases past with
  | false => rfl
  | true =>
    have hle := hpast rfl
    omega

theorem behind (h : Stretched all k past (t :: ts) (t' :: ts')) : Behind all k past ts ts' := by
  cases ht : endsBefore k t with
  | false => exact .inl (h.tail_of_not ht)
  | true =>
    obtain ⟨hpast, -, hempty⟩ := h.atEmptyLine ht
    exact .inr ⟨hpast, hempty⟩

end Stretched

/-! ## Where recovery begins -/

/-- The tokens that are left of `all` when an error has been found: those from the one on that the
error names. A `not` without `in` is not among them, it has been read. -/
inductive Leaves (all : List Token) : SyntaxError → List Token → Prop
  | found {cause t us} (h : t :: us <:+ all) (hfound : cause.found? = some t.describe) :
      Leaves all ⟨cause, t.pos⟩ (t :: us)
  | indent {t us} (h : t :: us <:+ all) (ht : t.kind = .indent) :
      Leaves all ⟨.unexpectedIndent, t.pos⟩ (t :: us)
  | behind {t us} (h : t :: us <:+ all) (ht : t.kind = .keyword .notOp) :
      Leaves all ⟨.notWithoutIn, t.pos⟩ us

/-- Whether a token behind the first of a line takes up a statement. -/
def resumesInLine (ts : List Token) : Bool :=
  (ts.takeWhile (·.kind != .newline)).tail.any (resumesAt ·.kind)

/-- Whether recovery passes over the rest of the line that is left, and over no more. -/
def losesLine (ts : List Token) : Bool := !startsWith .indent ts && !resumesInLine ts

/-! ## Replies -/

/-- The error that an empty line is. -/
def emptyLineError (k : Nat) : SyntaxError := ⟨.expectedExpression "newline", ⟨k, 1⟩⟩

/-- The errors `es'` are the errors `es`, moved. One more may stand between those in front of the
line `k` and those further down, behind an error on the line before that has lost the rest of that
line. It is said whether the errors begin and end past that place. -/
inductive Gains (all : List Token) (k : Nat) :
    Bool → Bool → List SyntaxError → List SyntaxError → Prop
  | nil {past} : Gains all k past past [] []
  | same {past past' e es es'} (he : past = true → k ≤ e.pos.line)
      (hkept : e.pos.line + 1 = k → ∃ rest, Leaves all e rest ∧
        (losesLine rest = true → ∀ t ∈ rest, t.kind ≠ .newline))
      (h : Gains all k past past' es es') :
      Gains all k past past' (e :: es) (e.move (.below k) :: es')
  | more {past' e es es'} (he : e.pos.line + 1 = k)
      (hlost : ∃ rest, Leaves all e rest ∧ losesLine rest = true)
      (h : Gains all k true past' es es') :
      Gains all k false past' (e :: es) (e.move (.below k) :: emptyLineError k :: es')

theorem Gains.append {all : List Token} {k : Nat} {p q r : Bool} {es es' fs fs' : List SyntaxError}
    (h : Gains all k p q es es') (h' : Gains all k q r fs fs') :
    Gains all k p r (es ++ fs) (es' ++ fs') := by
  induction h with
  | nil => exact h'
  | same he hkept h ih => exact .same he hkept (ih h')
  | more he hlost h ih => exact .more he hlost (ih h')

/-- An error and the tokens it leaves, before and after the empty line has been put in. -/
structure Moved (all : List Token) (k : Nat) (past : Bool) (e : SyntaxError) (rest : List Token)
    (e' : SyntaxError) (rest' : List Token) : Prop where
  eq : e' = e.move (.below k)
  stretched : Stretched all k past rest rest'
  le : past = true → k ≤ e.pos.line
  line : ∀ u ∈ rest.head?, u.pos.line = e.pos.line
  /-- At the end of the input an error is further down. -/
  leaves : e.pos.line < k → Leaves all e rest

/-- The replies to tokens before and after the empty line has been put in. The results do not
matter. -/
def Reply.Tracks {α : Type} {i j : Nat} {ts ts' : List Token} (all : List Token)
    (k : Nat) (R : Bool → List Token → List Token → Prop) (past : Bool) :
    Reply α i ts → Reply α j ts' → Prop
  | .ok _ rest _, .ok _ rest' _ => R past rest rest'
  | .fail e rest _, .fail e' rest' _ => Moved all k past e rest e' rest'
  | _, _ => False

/-- The same with errors on the way. -/
def Traced.Tracks {α : Type} {i j : Nat} {ts ts' : List Token} (all : List Token)
    (k : Nat) (R : Bool → List Token → List Token → Prop) (past : Bool) (r : Traced α i ts)
    (r' : Traced α j ts') : Prop :=
  ∃ past', Gains all k past past' r.errors r'.errors ∧ Reply.Tracks all k R past' r.reply r'.reply

namespace Traced.Tracks

variable {α β : Type} {i i' j j' k : Nat} {past : Bool} {all ts ts' : List Token}
  {R R' : Bool → List Token → List Token → Prop}

@[simp] theorem behind_iff {t t' : Token} {r : Traced α i ts} {r' : Traced α j ts'} :
    Tracks all k R past (r.behind t) (r'.behind t') ↔ Tracks all k R past r r' := by
  obtain ⟨es, reply⟩ := r
  obtain ⟨es', reply'⟩ := r'
  cases reply <;> cases reply' <;> exact Iff.rfl

@[simp] theorem loosen_iff {r : Traced α i ts} {r' : Traced α j ts'} :
    Tracks all k R past r.loosen r'.loosen ↔ Tracks all k R past r r' := by
  obtain ⟨es, reply⟩ := r
  obtain ⟨es', reply'⟩ := r'
  cases reply <;> cases reply' <;> exact Iff.rfl

theorem ok {a b : α} {rest rest' : List Token} (h : R past rest rest')
    (hle : rest.length + i ≤ ts.length) (hle' : rest'.length + j ≤ ts'.length) :
    Tracks all k R past (Reply.ok a rest hle : Reply α i ts).quiet
      (Reply.ok b rest' hle' : Reply α j ts').quiet :=
  ⟨past, .nil, h⟩

theorem fail_cons {t : Token} {us us' : List Token} {cause : SyntaxError.Cause}
    (h : Stretched all k past (t :: us) (t.move (.below k) :: us'))
    (hleaves : Leaves all ⟨cause, t.pos⟩ (t :: us)) (hle : (t :: us).length ≤ ts.length)
    (hle' : (t.move (.below k) :: us').length ≤ ts'.length) :
    Tracks all k R past (Reply.fail ⟨cause, t.pos⟩ (t :: us) hle : Reply α i ts).quiet
      (Reply.fail ⟨cause, (t.move (.below k)).pos⟩ _ hle' : Reply α j ts').quiet :=
  ⟨past, .nil, rfl, h, h.le_line, by simp, fun _ => hleaves⟩

theorem fail_nil {stop : Position} (hstop : k ≤ stop.line) (h : Stretched all k past [] [])
    (cause : SyntaxError.Cause) (hle : [].length ≤ ts.length) (hle' : [].length ≤ ts'.length) :
    Tracks all k R past (Reply.fail ⟨cause, stop⟩ [] hle : Reply α i ts).quiet
      (Reply.fail ⟨cause, stop.below k⟩ [] hle' : Reply α j ts').quiet :=
  ⟨past, .nil, rfl, h, fun _ => hstop, by simp, fun hlt => absurd hstop (Nat.not_le.mpr hlt)⟩

theorem map (f g : α → β) {r : Traced α i ts} {r' : Traced α j ts'} (h : Tracks all k R past r r') :
    Tracks all k R past (r.map f) (r'.map g) := by
  obtain ⟨es, reply⟩ := r
  obtain ⟨es', reply'⟩ := r'
  cases reply <;> cases reply' <;> exact h

theorem andThen {r : Traced α i ts} {r' : Traced α j ts'}
    {g : (a : α) → (rest : List Token) → rest.length + i ≤ ts.length → Traced β i' rest}
    {g' : (a : α) → (rest : List Token) → rest.length + j ≤ ts'.length → Traced β j' rest}
    (h : Tracks all k R past r r')
    (hg : ∀ past a a' rest rest' hle hle', R past rest rest' →
      Tracks all k R' past (g a rest hle) (g' a' rest' hle')) :
    Tracks all k R' past (r.andThen g) (r'.andThen g') := by
  obtain ⟨es, reply⟩ := r
  obtain ⟨es', reply'⟩ := r'
  obtain ⟨past₁, hes, hreply⟩ := h
  cases reply with
  | fail e rest hle =>
    cases reply' with
    | fail e' rest' hle' => exact ⟨past₁, hes, hreply⟩
    | ok => cases hreply
  | ok a rest hle =>
    cases reply' with
    | fail => cases hreply
    | ok a' rest' hle' =>
      obtain ⟨past₂, hfs, hnext⟩ := hg past₁ a a' rest rest' hle hle' hreply
      unfold Traced.andThen
      simp only
      generalize g a rest hle = s at hfs hnext
      generalize g' a' rest' hle' = s' at hfs hnext
      obtain ⟨fs, next⟩ := s
      obtain ⟨fs', next'⟩ := s'
      refine ⟨past₂, ?_⟩
      cases next <;> cases next' <;> exact ⟨hes.append hfs, hnext⟩

end Traced.Tracks

/-! ## Reading on one line -/

section read

variable {k : Nat} {stop : Position} {past : Bool} {all ts ts' : List Token}

theorem stretched_companions (hstop : k ≤ stop.line) :
    Companions stop (stop.below k) (Stretched all k past) (Moved all k past) where
  nil h := h.eq_nil
  cons h := by
    obtain ⟨us', rfl, hkind⟩ := h.head
    exact ⟨_, us', rfl, hkind, rfl⟩
  tail h ht := h.tail ht
  error {cause ts ts'} h hfound := by
    cases ts with
    | nil =>
      obtain rfl := h.eq_nil
      exact ⟨rfl, h, fun _ => hstop, by simp, fun hlt => absurd hstop (Nat.not_le.mpr hlt)⟩
    | cons t ts =>
      obtain ⟨us', rfl, -⟩ := h.head
      exact ⟨rfl, h, h.le_line, by simp [position], fun _ => .found h.suffix hfound⟩
  behind {t t' us us'} h ht := by
    have ht' : t.kind ≠ .newline := by simp [ht]
    obtain ⟨_, heq, -⟩ := h.head
    obtain ⟨rfl, rfl⟩ := List.cons_eq_cons.mp heq
    exact ⟨rfl, h.tail ht', h.le_line, h.line ht', fun _ => .behind h.suffix ht⟩

theorem Traced.Tracks.of_abreast {α : Type} {i j : Nat}
    {R : Bool → List Token → List Token → Prop} {r : Reply α i ts} {r' : Reply α j ts'}
    (h : r.Abreast (R past) (Moved all k past) r') : r.quiet.Tracks all k R past r'.quiet := by
  refine ⟨past, .nil, ?_⟩
  cases r <;> cases r' <;> exact h

theorem Traced.Tracks.expect {kind : Kind} (hstop : k ≤ stop.line) (hne : kind ≠ .newline)
    (what : SyntaxError.Wanted) (h : Stretched all k past ts ts') :
    Tracks all k (Stretched all k) past (Grammar.expect stop kind what ts).quiet
      (Grammar.expect (stop.below k) kind what ts').quiet :=
  of_abreast ((stretched_companions hstop).expect hne what h)

theorem Traced.Tracks.expectNewline (hstop : k ≤ stop.line) (what : SyntaxError.Wanted)
    (h : Stretched all k past ts ts') :
    Tracks all k (Behind all k) past (Grammar.expect stop .newline what ts).quiet
      (Grammar.expect (stop.below k) .newline what ts').quiet :=
  of_abreast ((stretched_companions hstop).expect_of (fun _ _ _ _ _ h => h.behind) what h)

/-- An expression is read the same way with the empty line put in. -/
theorem expression_tracks (hstop : k ≤ stop.line) (tier : Tier) (h : Stretched all k past ts ts') :
    (expression stop tier ts).quiet.Tracks all k (Stretched all k) past
      (expression (stop.below k) tier ts').quiet :=
  .of_abreast ((stretched_companions hstop).expression tier h)

theorem arguments_track (hstop : k ≤ stop.line) (closes : Kind → Bool)
    (h : Stretched all k past ts ts') :
    (arguments stop closes ts).quiet.Tracks all k (Stretched all k) past
      (arguments (stop.below k) closes ts').quiet :=
  .of_abreast ((stretched_companions hstop).arguments closes h)

end read

end Grammar

end Offside
