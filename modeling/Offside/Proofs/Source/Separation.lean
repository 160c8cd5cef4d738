import Offside.Proofs.Source.Lossless

/-!
# Where pieces end

A piece depends on its own characters and on no more than two behind it: a number looks at a point
and the character behind that, and all other pieces at the next character alone. So the pieces of a
text stay when something else comes behind them, if that begins in the same way (`Alike`) or with a
character at which the last of them ends in any case (`Shape.stopsAt`).

* `Piece.tail_swap`: this for one piece.
* `Piece.cut_swap`: and for all of them. The induction is on the pieces; only the last of them sees
  that something else is behind it.
-/

namespace Offside

/-! ## What is behind a piece -/

/-- The characters that separate words, numbers and operators. -/
def isSeparator (c : Char) : Bool := isGap c || c == '\n' || c == '#'

/-- Whether a piece of the shape ends in front of the character, whatever the piece is. -/
def Shape.stopsAt : Shape → Char → Bool
  | .lineBreak, _ | .quoted, _ => true
  | .blanks, c => !Piece.isBlank c
  | .carriage, c => c != '\n'
  | .comment, c => Piece.endsComment c
  | .unclosed, c => c == '\n'
  | .number, c | .word, c | .symbol _, c | .stray _, c => isSeparator c

/-- As far as pieces look ahead, `r` begins like `r₀`: with the same character, and if that is a
point, then with a digit behind it only if `r₀` has this digit too. -/
def Alike (r₀ r : List Char) : Prop :=
  r.head? = r₀.head? ∧
    (r.head? = some '.' → ∀ d ∈ r.tail.head?, d.isDigit = true → d ∈ r₀.tail.head?)

theorem Shape.stopsAt_lineFeed {s : Shape} (h : s ≠ .carriage) : s.stopsAt '\n' = true := by
  cases s with
  | carriage => exact absurd rfl h
  | _ => rfl

theorem isSeparator_cases {c : Char} (h : isSeparator c = true) :
    c = ' ' ∨ c = '\t' ∨ c = '\r' ∨ c = '\n' ∨ c = '#' := by
  simpa [isSeparator, isGap, Piece.isBlank, or_assoc] using h

theorem not_isDigit_of_isSeparator {c : Char} (h : isSeparator c = true) : c.isDigit = false := by
  rcases isSeparator_cases h with rfl | rfl | rfl | rfl | rfl <;> rfl

theorem not_isWordChar_of_isSeparator {c : Char} (h : isSeparator c = true) :
    Piece.isWordChar c = false := by
  rcases isSeparator_cases h with rfl | rfl | rfl | rfl | rfl <;> rfl

theorem not_isSeparator_of_mem {s : Symbol} {c : Char} (h : c ∈ s.text.toList) :
    isSeparator c = false := by
  have hall : s.text.toList.all (!isSeparator ·) = true := by cases s <;> decide
  simpa using List.all_eq_true.mp hall c h

theorem Alike.append {w : List Char} (hw : w ≠ []) {r₀ r : List Char}
    (hpoint : w = ['.'] → ∀ d ∈ r.head?, d.isDigit = true → d ∈ r₀.head?) :
    Alike (w ++ r₀) (w ++ r) := by
  obtain ⟨c, w, rfl⟩ := List.exists_cons_of_ne_nil hw
  refine ⟨rfl, fun hc d hd hdigit => ?_⟩
  cases w with
  | nil => exact hpoint (by simpa using hc) d hd hdigit
  | cons x w => exact hd

/-! ## Runs up to a boundary -/

theorem takeWhile_eq_of_boundary {p : Char → Bool} {w rest : List Char} (hw : ∀ c ∈ w, p c = true)
    (hrest : ∀ c ∈ rest.head?, p c = false) : (w ++ rest).takeWhile p = w := by
  rw [List.takeWhile_append_of_pos hw]
  cases rest with
  | nil => exact List.append_nil w
  | cons c rest => rw [List.takeWhile_cons_of_neg (by simp [hrest c rfl]), List.append_nil]

namespace Piece

theorem run_of_boundary {p : Char → Bool} {w rest : List Char} (hw : ∀ c ∈ w, p c = true)
    (hrest : ∀ c ∈ rest.head?, p c = false) : run p (w ++ rest) = (w, rest) := by
  have htake : (run p (w ++ rest)).1 = w := takeWhile_eq_of_boundary hw hrest
  have hsplit := run_append p (w ++ rest)
  rw [htake] at hsplit
  exact Prod.ext htake (List.append_cancel_left hsplit)

theorem of_run_eq {p : Char → Bool} {cs w rest : List Char} (h : run p cs = (w, rest)) :
    (∀ c ∈ w, p c = true) ∧ ∀ c ∈ rest.head?, p c = false := by
  obtain ⟨rfl, rfl⟩ := Prod.mk.inj h
  refine ⟨fun c hc => of_mem_run hc, fun c hc => ?_⟩
  have hhead := List.head?_dropWhile_not p cs
  rw [hc] at hhead
  simpa using hhead

theorem numberTail_point {cs ds rest : List Char} {d : Char}
    (h : run Char.isDigit cs = (ds, '.' :: d :: rest)) (hd : d.isDigit = true) :
    numberTail cs =
      (ds ++ '.' :: (run Char.isDigit (d :: rest)).1, (run Char.isDigit (d :: rest)).2) := by
  unfold numberTail
  rw [h]
  simp only [hd, if_true]

theorem numberTail_plain {cs ds rest : List Char} (h : run Char.isDigit cs = (ds, rest))
    (hrest : ∀ d rest', rest = '.' :: d :: rest' → d.isDigit = false) :
    numberTail cs = (ds, rest) := by
  unfold numberTail
  rw [h]
  split
  · rename_i heq
    rw [Prod.mk.injEq] at heq
    rw [hrest _ _ heq.2, heq.1, heq.2]
    rfl
  · rename_i heq
    exact heq.symm

theorem numberTail_cases (cs : List Char) :
    numberTail cs = run Char.isDigit cs ∨
      ∃ ds d more, run Char.isDigit cs = (ds, '.' :: d :: more) ∧ d.isDigit = true ∧
        numberTail cs =
          (ds ++ '.' :: (run Char.isDigit (d :: more)).1, (run Char.isDigit (d :: more)).2) := by
  by_cases hpoint : ∃ d more, (run Char.isDigit cs).2 = '.' :: d :: more ∧ d.isDigit = true
  · obtain ⟨d, more, hmore, hd⟩ := hpoint
    have hrun : run Char.isDigit cs = ((run Char.isDigit cs).1, '.' :: d :: more) :=
      Prod.ext rfl hmore
    exact .inr ⟨_, d, more, hrun, hd, numberTail_point hrun hd⟩
  · refine .inl (numberTail_plain rfl fun d more hmore => ?_)
    by_contra hd
    exact hpoint ⟨d, more, hmore, by simpa using hd⟩

theorem quoteTail_quoted {cs body rest : List Char}
    (h : run (!endsQuote ·) cs = (body, '"' :: rest)) :
    quoteTail cs = (.quoted, body ++ ['"'], rest) := by
  unfold quoteTail
  rw [h]
  rfl

theorem quoteTail_unclosed {cs body rest : List Char} (h : run (!endsQuote ·) cs = (body, rest))
    (hrest : ∀ rest', rest ≠ '"' :: rest') : quoteTail cs = (.unclosed, body, rest) := by
  unfold quoteTail
  rw [h]
  split
  · rename_i heq
    rw [Prod.mk.injEq] at heq
    exact absurd heq.2 (hrest _)
  · rename_i heq
    rw [Prod.mk.injEq] at heq
    rw [heq.1, heq.2]

theorem text_of_ofText? {s : Symbol} {w : List Char} (h : Symbol.ofText? (.ofList w) = some s) :
    w = s.text.toList := by
  have htext : s.text = String.ofList w := by simpa using List.find?_some h
  rw [htext, String.toList_ofList]

theorem symbolTail_cases (c : Char) (cs : List Char) :
    (∃ d rest s, cs = d :: rest ∧ Symbol.ofText? (.ofList [c, d]) = some s ∧
      symbolTail c cs = (.symbol s, [d], rest)) ∨
    (∀ d rest, cs = d :: rest → Symbol.ofText? (.ofList [c, d]) = none) ∧
      ((∃ s, Symbol.ofText? (.ofList [c]) = some s ∧ symbolTail c cs = (.symbol s, [], cs)) ∨
        Symbol.ofText? (.ofList [c]) = none ∧ symbolTail c cs = (.stray c, [], cs)) := by
  cases cs with
  | nil =>
    refine .inr ⟨by simp, ?_⟩
    cases hsingle : Symbol.ofText? (.ofList [c]) with
    | none => exact .inr ⟨rfl, by simp only [symbolTail, String.singleton_eq_ofList, hsingle]⟩
    | some s => exact .inl ⟨s, rfl, by simp only [symbolTail, String.singleton_eq_ofList, hsingle]⟩
  | cons d rest =>
    cases hdouble : Symbol.ofText? (.ofList [c, d]) with
    | some s => exact .inl ⟨d, rest, s, rfl, hdouble, by simp only [symbolTail, hdouble]⟩
    | none =>
      refine .inr ⟨by rintro d' rest' ⟨⟩; exact hdouble, ?_⟩
      cases hsingle : Symbol.ofText? (.ofList [c]) with
      | none =>
        exact .inr ⟨rfl, by simp only [symbolTail, String.singleton_eq_ofList, hsingle, hdouble]⟩
      | some s =>
        exact .inl ⟨s, rfl, by simp only [symbolTail, String.singleton_eq_ofList, hsingle, hdouble]⟩

theorem tail_carriage {cs : List Char} (h : ∀ rest, cs ≠ '\n' :: rest) :
    tail '\r' cs = (.carriage, [], cs) := by
  have hn : '\r' ≠ '\n' := by decide
  unfold tail
  rw [if_neg hn, if_pos rfl]
  split
  · exact absurd rfl (h _)
  · rfl

/-! ## Something else behind one piece -/

section swap

variable {body r₀ r : List Char} {shape : Shape}

/-- Behind a piece of the shape there can be `r` as well as `r₀`. -/
def Swaps (shape : Shape) (r₀ r : List Char) : Prop :=
  Alike r₀ r ∨ ∀ c ∈ r.head?, shape.stopsAt c = true

theorem run_swap {p : Char → Bool} (h : run p (body ++ r₀) = (body, r₀))
    (hp : ∀ c, shape.stopsAt c = true → p c = false) (hr : Swaps shape r₀ r) :
    run p (body ++ r) = (body, r) := by
  obtain ⟨hbody, hend⟩ := of_run_eq h
  refine run_of_boundary hbody fun c hc => ?_
  rcases hr with hr | hr
  · exact hend c (hr.1 ▸ hc)
  · exact hp c (hr c hc)

theorem numberTail_swap (h : numberTail (body ++ r₀) = (body, r₀)) (hr : Swaps .number r₀ r) :
    numberTail (body ++ r) = (body, r) := by
  have hdigit : ∀ c, Shape.number.stopsAt c = true → c.isDigit = false := fun c =>
    not_isDigit_of_isSeparator
  rcases numberTail_cases (body ++ r₀) with hplain | ⟨ds, d, more, hrun, hd, hpoint⟩
  · have hrun : run Char.isDigit (body ++ r₀) = (body, r₀) := by rw [← hplain, h]
    refine numberTail_plain (run_swap hrun hdigit hr) fun d rest heq => ?_
    -- a point and a digit would have been seen before
    by_contra hd
    rw [Bool.not_eq_false] at hd
    subst heq
    rcases hr with ⟨hhead, hsecond⟩ | hstops
    · obtain ⟨rest₀, rfl⟩ := List.head?_eq_some_iff.mp hhead.symm
      obtain ⟨rest₀, rfl⟩ := List.head?_eq_some_iff.mp (hsecond rfl d rfl hd)
      rw [numberTail_point hrun hd] at h
      simp at h
    · exact absurd (hstops '.' rfl) (by decide)
  · rw [hpoint] at h
    obtain ⟨hbody, hrest⟩ := Prod.mk.inj h
    obtain ⟨fs, hfs⟩ : ∃ fs, (run Char.isDigit (d :: more)).1 = d :: fs :=
      ⟨_, List.takeWhile_cons_of_pos hd⟩
    rw [hfs] at hbody
    have hmore : run Char.isDigit (d :: fs ++ r₀) = (d :: fs, r₀) := by
      rw [← hfs, ← hrest, run_append]
    have hfraction := run_swap hmore hdigit hr
    have hwhole : run Char.isDigit (ds ++ '.' :: d :: (fs ++ r)) = (ds, '.' :: d :: (fs ++ r)) :=
      run_of_boundary (of_run_eq hrun).1 (by rintro c ⟨⟩; rfl)
    rw [← hbody, List.append_assoc]
    refine (numberTail_point hwhole hd).trans ?_
    rw [← List.cons_append, hfraction]

theorem quoteTail_swap (h : quoteTail (body ++ r₀) = (shape, body, r₀)) (hr : Swaps shape r₀ r) :
    quoteTail (body ++ r) = (shape, body, r) := by
  obtain ⟨inner, rest, hrun⟩ : ∃ inner rest, run (!endsQuote ·) (body ++ r₀) = (inner, rest) :=
    ⟨_, _, rfl⟩
  by_cases hquote : ∃ rest', rest = '"' :: rest'
  · obtain ⟨rest', rfl⟩ := hquote
    rw [quoteTail_quoted hrun] at h
    simp only [Prod.mk.injEq] at h
    obtain ⟨rfl, rfl, rfl⟩ := h
    rw [List.append_assoc, List.singleton_append]
    exact quoteTail_quoted (run_of_boundary (of_run_eq hrun).1 (by rintro c ⟨⟩; rfl))
  · have hne : ∀ rest', rest ≠ '"' :: rest' := fun rest' heq => hquote ⟨rest', heq⟩
    rw [quoteTail_unclosed hrun hne] at h
    simp only [Prod.mk.injEq] at h
    obtain ⟨rfl, rfl, rfl⟩ := h
    have hend : ∀ c, Shape.unclosed.stopsAt c = true → (!endsQuote c) = false := by
      intro c hc
      obtain rfl : c = '\n' := by simpa [Shape.stopsAt] using hc
      rfl
    refine quoteTail_unclosed (run_swap hrun hend hr) fun rest' heq => ?_
    subst heq
    rcases hr with hr | hr
    · obtain ⟨rest₀, hrest₀⟩ := List.head?_eq_some_iff.mp hr.1.symm
      exact hne rest₀ hrest₀
    · exact absurd (hr '"' rfl) (by decide)

theorem symbolTail_single {c : Char} {cs : List Char}
    (h : ∀ d rest, cs = d :: rest → Symbol.ofText? (.ofList [c, d]) = none) :
    symbolTail c cs = ((symbolTail c []).1, [], cs) := by
  cases cs with
  | nil =>
    simp only [symbolTail]
    split <;> rfl
  | cons d rest =>
    simp only [symbolTail, h d rest rfl]
    split <;> rfl

theorem stopsAt_symbolTail (c : Char) (cs : List Char) (d : Char) :
    (symbolTail c cs).1.stopsAt d = isSeparator d := by
  rcases symbolTail_cases c cs with ⟨_, _, s, -, -, heq⟩ | ⟨-, ⟨s, -, heq⟩ | ⟨-, heq⟩⟩
  · rw [heq]
    rfl
  · rw [heq]
    rfl
  · rw [heq]
    rfl

theorem symbolTail_swap {c : Char} (h : symbolTail c (body ++ r₀) = (shape, body, r₀))
    (hr : Swaps shape r₀ r) : symbolTail c (body ++ r) = (shape, body, r) := by
  rcases symbolTail_cases c (body ++ r₀) with ⟨d, rest, s, -, hs, heq⟩ | ⟨hnone, -⟩
  · rw [heq] at h
    simp only [Prod.mk.injEq] at h
    obtain ⟨rfl, rfl, rfl⟩ := h
    simp only [symbolTail, List.singleton_append, hs]
  · rw [symbolTail_single hnone] at h
    simp only [Prod.mk.injEq] at h
    obtain ⟨rfl, hbody, -⟩ := h
    subst hbody
    rw [List.nil_append] at hnone ⊢
    refine symbolTail_single fun d rest heq => ?_
    subst heq
    rcases hr with hr | hr
    · obtain ⟨rest₀, hrest₀⟩ := List.head?_eq_some_iff.mp hr.1.symm
      exact hnone d rest₀ hrest₀
    · have hd := hr d rfl
      rw [stopsAt_symbolTail] at hd
      cases hsymbol : Symbol.ofText? (.ofList [c, d]) with
      | none => rfl
      | some s =>
        have hmem : d ∈ s.text.toList := by
          rw [← text_of_ofText? hsymbol]
          simp
        rw [not_isSeparator_of_mem hmem] at hd
        cases hd

/-- What is behind a piece can be swapped. -/
theorem tail_swap {c : Char} (h : tail c (body ++ r₀) = (shape, body, r₀))
    (hr : Swaps shape r₀ r) : tail c (body ++ r) = (shape, body, r) := by
  have hrun : ∀ {p : Char → Bool} {s : Shape}, (∀ c, s.stopsAt c = true → p c = false) →
      (s, run p (body ++ r₀)) = (shape, body, r₀) →
        (s, run p (body ++ r)) = (shape, body, r) := by
    intro p s hp heq
    obtain ⟨rfl, hbody⟩ := Prod.mk.inj heq
    rw [run_swap hbody hp hr]
  by_cases hreturn : c = '\r'
  · subst hreturn
    by_cases hline : ∃ rest, body ++ r₀ = '\n' :: rest
    · obtain ⟨rest, hline⟩ := hline
      rw [hline] at h
      obtain ⟨rfl, hbody, -⟩ := (Prod.mk.inj h).imp_right Prod.mk.inj
      rw [← hbody]
      rfl
    · rw [tail_carriage fun rest heq => hline ⟨rest, heq⟩] at h
      obtain ⟨rfl, hbody, -⟩ := (Prod.mk.inj h).imp_right Prod.mk.inj
      subst hbody
      refine tail_carriage fun rest heq => ?_
      rw [List.nil_append] at heq
      subst heq
      rcases hr with hr | hr
      · exact hline (List.head?_eq_some_iff.mp hr.1.symm)
      · exact absurd (hr '\n' rfl) (by decide)
  · unfold tail at h ⊢
    rw [if_neg hreturn] at h ⊢
    split_ifs at h ⊢
    · obtain ⟨rfl, hbody, -⟩ := (Prod.mk.inj h).imp_right Prod.mk.inj
      rw [← hbody]
      rfl
    · exact hrun (fun c hc => by simpa [Shape.stopsAt] using hc) h
    · exact hrun (fun c hc => by simpa [Shape.stopsAt] using hc) h
    · exact quoteTail_swap h hr
    · obtain ⟨rfl, hnumber⟩ := Prod.mk.inj h
      rw [numberTail_swap hnumber hr]
    · exact hrun (fun c => not_isWordChar_of_isSeparator) h
    · exact symbolTail_swap h hr

end swap

/-! ## Something else behind all pieces -/

theorem cut_lineFeed (cs : List Char) : cut ('\n' :: cs) = ⟨.lineBreak, ['\n']⟩ :: cut cs :=
  cut_cons '\n' cs

theorem cut_return (cs : List Char) :
    cut ('\r' :: '\n' :: cs) = ⟨.lineBreak, ['\r', '\n']⟩ :: cut cs :=
  cut_cons '\r' ('\n' :: cs)

theorem tail_of_cut {q : Piece} {qs : List Piece} {cs : List Char}
    (h : cut (q.text ++ cs) = q :: qs) :
    ∃ c body, q.text = c :: body ∧ tail c (body ++ cs) = (q.shape, body, cs) ∧ cut cs = qs := by
  obtain ⟨shape, text⟩ := q
  have hmem : ⟨shape, text⟩ ∈ cut (text ++ cs) := by
    rw [h]
    exact List.mem_cons_self
  obtain ⟨c, body, rfl⟩ := List.exists_cons_of_ne_nil (cut_genuine _ _ hmem).ne_nil
  rw [List.cons_append, cut_cons] at h
  obtain ⟨hpiece, hrest⟩ := List.cons.inj h
  obtain ⟨hshape, htext⟩ := Piece.mk.inj hpiece
  have hbody := (List.cons.inj htext).2
  have happend := tail_append c (body ++ cs)
  rw [hbody] at happend
  have hcs := List.append_cancel_left happend
  rw [hcs] at hrest
  exact ⟨c, body, rfl, Prod.ext hshape (Prod.ext hbody hcs), hrest⟩

theorem cut_behind {cs : List Char} {qs rs : List Piece} (h : cut cs = qs ++ rs) :
    cut (rs.flatMap text) = rs := by
  induction qs generalizing cs with
  | nil =>
    rw [List.nil_append] at h
    rw [← h, cut_flatten]
  | cons q qs ih =>
    cases cs with
    | nil =>
      rw [cut] at h
      cases h
    | cons c cs =>
      rw [cut_cons, List.cons_append] at h
      exact ih (List.cons.inj h).2

/-- What is behind some pieces can be swapped, if it can be behind the last of them. -/
theorem cut_swap {qs rs : List Piece} {r₀ r : List Char}
    (h : cut (qs.flatMap text ++ r₀) = qs ++ rs)
    (hr : Alike r₀ r ∨ ∀ q ∈ qs.getLast?, ∀ c ∈ r.head?, q.shape.stopsAt c = true) :
    cut (qs.flatMap text ++ r) = qs ++ cut r := by
  induction qs with
  | nil => rfl
  | cons q qs ih =>
    rw [List.flatMap_cons, List.append_assoc] at h ⊢
    obtain ⟨c, body, hq, htail, hrest⟩ := tail_of_cut h
    have hnext : Alike r₀ r ∨ ∀ q ∈ qs.getLast?, ∀ c ∈ r.head?, q.shape.stopsAt c = true := by
      refine hr.imp_right fun hstops q' hq' => hstops q' ?_
      rw [List.getLast?_cons, hq']
      rfl
    have hswap : Swaps q.shape (qs.flatMap text ++ r₀) (qs.flatMap text ++ r) := by
      cases qs with
      | nil => exact hr.imp_right fun hstops => hstops q rfl
      | cons q' qs =>
        obtain ⟨c', body', hq', htail', -⟩ := tail_of_cut (by rwa [← List.append_assoc])
        refine .inl (.append (by simp [hq']) fun hpoint d hd hdigit => ?_)
        -- a point alone is the last piece, and a digit does not end it
        rcases hnext with hlike | hstops
        · exact hlike.1 ▸ hd
        · exfalso
          rw [List.flatMap_cons, hq', List.cons_append, List.cons.injEq] at hpoint
          obtain ⟨rfl, hnil⟩ := hpoint
          have hshape : (symbolTail '.' (body' ++ (qs.flatMap text ++ r₀))).1 = q'.shape :=
            congrArg Prod.fst htail'
          have hlast : qs = [] := by
            rw [List.eq_nil_iff_forall_not_mem]
            intro q'' hq''
            have hmem : q'' ∈ (q' :: qs).append rs :=
              List.mem_append_left rs (List.mem_cons_of_mem q' hq'')
            rw [← hrest] at hmem
            exact (cut_genuine _ q'' hmem).ne_nil
              (List.flatMap_eq_nil_iff.mp (List.append_eq_nil_iff.mp hnil).2 q'' hq'')
          subst hlast
          have hsep := hstops q' rfl d hd
          rw [← hshape, stopsAt_symbolTail] at hsep
          rw [not_isDigit_of_isSeparator hsep] at hdigit
          cases hdigit
    rw [hq, List.cons_append, cut_cons, tail_swap htail hswap, ih hrest hnext, List.cons_append,
      ← hq]

/-- A text is cut off from what begins with a character that ends its last piece. -/
theorem cut_append {cs rest : List Char}
    (h : ∀ q ∈ (cut cs).getLast?, ∀ c ∈ rest.head?, q.shape.stopsAt c = true) :
    cut (cs ++ rest) = cut cs ++ cut rest := by
  have hself : cut ((cut cs).flatMap text ++ []) = cut cs ++ [] := by
    rw [cut_flatten, List.append_nil, List.append_nil]
  have happend := cut_swap hself (.inr h)
  rwa [cut_flatten] at happend

end Piece

end Offside
