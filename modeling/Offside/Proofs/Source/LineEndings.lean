import Offside.Proofs.Source.Insertion

/-!
# Line endings

A line ends with a line feed, or with a carriage return and a line feed. Which of the two a text has
makes no difference: with carriage returns in front of its line feeds it has the same pieces
(`Piece.Returned`), but for the line breaks themselves and for a quote that is not closed, which
takes the carriage return in. The line break behind such a quote is then one column further on; but
there is a fault in front of it, and so it is never seen.

* `Piece.cut_returned`: how the pieces of the two texts are related.
* `Source.items_returned`: so they have the same faults, and the same tokens if there are none.
-/

namespace Offside

/-! ## The pieces of the two texts -/

/-- The text with a carriage return in front of each line feed. -/
def returned (cs : List Char) : List Char := cs.flatMap fun c => if c = '\n' then ['\r', c] else [c]

theorem returned_append (cs ds : List Char) : returned (cs ++ ds) = returned cs ++ returned ds :=
  List.flatMap_append

theorem returned_lineFeed (cs : List Char) : returned ('\n' :: cs) = '\r' :: '\n' :: returned cs :=
  rfl

theorem returned_cons {c : Char} (hc : c ≠ '\n') (cs : List Char) :
    returned (c :: cs) = c :: returned cs := by
  simp [returned, hc]

theorem returned_of_not_mem {cs : List Char} (h : '\n' ∉ cs) : returned cs = cs := by
  induction cs with
  | nil => rfl
  | cons c cs ih =>
    rw [List.mem_cons, not_or] at h
    rw [returned_cons (Ne.symm h.1), ih h.2]

theorem alike_returned {cs : List Char} (h : ∀ rest, cs ≠ '\n' :: rest) :
    Alike cs (returned cs) := by
  have hhead : ∀ {cs : List Char}, (∀ rest, cs ≠ '\n' :: rest) →
      (returned cs).head? = cs.head? := by
    intro cs hcs
    cases cs with
    | nil => rfl
    | cons c cs =>
      rw [returned_cons fun hc => hcs cs (by rw [hc]), List.head?_cons, List.head?_cons]
  refine ⟨hhead h, fun hpoint d hd hdigit => ?_⟩
  rw [hhead h] at hpoint
  obtain ⟨cs, rfl⟩ := List.head?_eq_some_iff.mp hpoint
  rw [returned_cons (by decide)] at hd
  by_cases hcs : ∃ rest, cs = '\n' :: rest
  · obtain ⟨rest, rfl⟩ := hcs
    cases hd
    cases hdigit
  · exact hhead (fun rest heq => hcs ⟨rest, heq⟩) ▸ hd

namespace Piece

/-- The pieces of a text, and those of the same text with carriage returns. -/
inductive Returned : List Piece → List Piece → Prop
  | nil : Returned [] []
  | lineBreak {qs rs : List Piece} : Returned qs rs →
      Returned (⟨.lineBreak, ['\n']⟩ :: qs) (⟨.lineBreak, ['\r', '\n']⟩ :: rs)
  | unclosed {w : List Char} {qs rs : List Piece} : Returned qs rs →
      Returned (⟨.unclosed, w⟩ :: ⟨.lineBreak, ['\n']⟩ :: qs)
        (⟨.unclosed, w ++ ['\r']⟩ :: ⟨.lineBreak, ['\n']⟩ :: rs)
  | same {q : Piece} {qs rs : List Piece} : q.shape ≠ .lineBreak → Returned qs rs →
      Returned (q :: qs) (q :: rs)

theorem stopsAt_return {s : Shape} (h : s ≠ .unclosed) : s.stopsAt '\r' = true := by
  cases s with
  | unclosed => exact absurd rfl h
  | _ => rfl

theorem quoteTail_of_unclosed {cs body rest : List Char}
    (h : quoteTail cs = (.unclosed, body, rest)) : run (!endsQuote ·) cs = (body, rest) := by
  unfold quoteTail at h
  split at h
  · cases h
  · rename_i heq
    cases h
    exact heq

theorem tail_of_unclosed {c : Char} {cs body rest : List Char}
    (h : tail c cs = (.unclosed, body, rest)) :
    c = '"' ∧ run (!endsQuote ·) cs = (body, rest) := by
  by_cases hc : c = '"'
  · subst hc
    exact ⟨rfl, quoteTail_of_unclosed h⟩
  · exfalso
    have hgenuine := tail_genuine c cs
    rw [h] at hgenuine
    exact hc (List.cons_prefix_cons.mp hgenuine).1.symm

/-- An open quote takes in the carriage return at the end of its line. -/
theorem tail_unclosed_return {c : Char} {cs body rest : List Char}
    (h : tail c cs = (.unclosed, body, rest)) (more : List Char) :
    tail c (body ++ '\r' :: '\n' :: more) = (.unclosed, body ++ ['\r'], '\n' :: more) := by
  obtain ⟨rfl, hbody⟩ := tail_of_unclosed h
  have hrun : run (!endsQuote ·) ((body ++ ['\r']) ++ '\n' :: more) =
      (body ++ ['\r'], '\n' :: more) := by
    refine run_of_boundary (fun d hd => ?_) (by rintro d ⟨⟩; rfl)
    rcases List.mem_append.mp hd with hd | hd
    · exact (of_run_eq hbody).1 d hd
    · rw [List.mem_singleton.mp hd]
      rfl
  have hquote := quoteTail_unclosed hrun fun rest' heq => absurd (List.cons.inj heq).1 (by decide)
  rw [List.append_assoc] at hquote
  exact hquote

theorem cut_returned {cs : List Char} (hr : '\r' ∉ cs) : Returned (cut cs) (cut (returned cs)) := by
  fun_induction cut cs with
  | case1 =>
    rw [returned, List.flatMap_nil, cut]
    exact .nil
  | case2 c cs r ih =>
    obtain ⟨shape, body, rest, htail⟩ : ∃ shape body rest, tail c cs = (shape, body, rest) :=
      ⟨_, _, _, rfl⟩
    have hsplit : body ++ rest = cs := by
      rw [← tail_append c cs, htail]
    subst hsplit
    simp only [r, htail] at ih ⊢
    rw [← List.cons_append, List.mem_append, not_or] at hr
    by_cases hbreak : shape = .lineBreak
    · have hgenuine : Genuine ⟨shape, c :: body⟩ := by
        have hpiece := tail_genuine c (body ++ rest)
        rwa [htail] at hpiece
      rcases hgenuine.lineBreak hbreak with htext | htext
      · obtain ⟨rfl, rfl⟩ := List.cons.inj htext
        rw [hbreak, List.nil_append, returned_lineFeed, cut_return]
        exact .lineBreak (ih hr.2)
      · obtain ⟨rfl, -⟩ := List.cons.inj htext
        exact absurd List.mem_cons_self hr.1
    · have hnoBreak : '\n' ∉ c :: body := by
        have hpiece := @tail_noBreak c (body ++ rest) (by rwa [htail])
        rwa [htail] at hpiece
      rw [← List.cons_append, returned_append, returned_of_not_mem hnoBreak, List.cons_append]
      by_cases hopen : shape = .unclosed ∧ ∃ more, rest = '\n' :: more
      · obtain ⟨rfl, more, rfl⟩ := hopen
        rw [returned_lineFeed, cut_lineFeed, cut_return] at ih
        rw [returned_lineFeed, cut_lineFeed, cut_cons, tail_unclosed_return htail, cut_lineFeed]
        cases ih hr.2 with
        | lineBreak hmore => exact .unclosed hmore
      · have hswap : Swaps shape rest (returned rest) := by
          by_cases hrest : ∃ more, rest = '\n' :: more
          · obtain ⟨more, rfl⟩ := hrest
            refine .inr ?_
            rintro d ⟨⟩
            exact stopsAt_return fun hshape => hopen ⟨hshape, more, rfl⟩
          · exact .inl (alike_returned fun more heq => hrest ⟨more, heq⟩)
        rw [cut_cons, tail_swap htail hswap]
        exact .same hbreak (ih hr.2)

end Piece

namespace Source

/-! ## What is found in the two texts -/

/-- The same faults, and the same tokens if there are none. -/
def Agree (is js : List Item) : Prop := faultsOf is = faultsOf js ∧ (faultsOf is = [] → is = js)

theorem Agree.refl (is : List Item) : Agree is is := ⟨rfl, fun _ => rfl⟩

theorem Agree.append {is is' js js' : List Item} (h : Agree is js) (h' : Agree is' js') :
    Agree (is ++ is') (js ++ js') := by
  refine ⟨by rw [faultsOf_append, faultsOf_append, h.1, h'.1], fun hnone => ?_⟩
  rw [faultsOf_append, List.append_eq_nil_iff] at hnone
  rw [h.2 hnone.1, h'.2 hnone.2]

theorem tokenize_of_agree {s s' : String} (h : Agree (scan s.toList) (scan s'.toList)) :
    tokenize s = tokenize s' := by
  cases hs : tokenize s with
  | ok ts =>
    obtain ⟨hnone, rfl⟩ := tokenize_eq_ok.mp hs
    exact (tokenize_eq_ok.mpr ⟨h.1 ▸ hnone, by rw [h.2 hnone]⟩).symm
  | error fs =>
    rw [tokenize_eq_error, h.1] at hs
    exact (tokenize_eq_error.mpr hs).symm

section

variable {m : Margin} {p : Position} {qs rs : List Piece}

theorem isBlankLine_returned (h : Piece.Returned qs rs) :
    Margin.isBlankLine qs = Margin.isBlankLine rs := by
  cases h <;> rfl

theorem startLine_returned (h : Piece.Returned qs rs) : m.startLine p qs = m.startLine p rs := by
  cases h with
  | nil => rfl
  | lineBreak h => rfl
  | unclosed h => rfl
  | same hq h =>
    simp only [Margin.startLine, isBlankLine_returned h]
    rfl

theorem agree_items {q r : Piece}
    (hstart : ∀ m : Margin, m.startLine p (q :: qs) = m.startLine p (r :: rs))
    (h : ∀ m, Agree (itemsFrom m p q qs) (itemsFrom m p r rs)) (atStart : Bool) :
    Agree (items m atStart p (q :: qs)) (items m atStart p (r :: rs)) := by
  cases atStart with
  | false => exact h m
  | true =>
    rw [items_atStart, items_atStart, ← hstart]
    exact (Agree.refl _).append (h _)

theorem items_returned (h : Piece.Returned qs rs) (atStart : Bool) :
    Agree (items m atStart p qs) (items m atStart p rs) := by
  induction h generalizing m p atStart with
  | nil => exact .refl _
  | lineBreak h ih =>
    exact agree_items (fun _ => startLine_returned (.lineBreak h))
      (fun _ => (Agree.refl [_]).append (ih true)) atStart
  | @unclosed w qs rs h ih =>
    refine agree_items (fun _ => startLine_returned (.unclosed h)) (fun m => ?_) atStart
    have hnext : (p.after (w ++ ['\r'])).after ['\n'] = (p.after w).after ['\n'] := by
      rw [Position.after_append]
      rfl
    have hquote : Agree [.error ⟨.unterminatedText, p⟩, .ok ⟨.newline, "\n", none, p.after w⟩]
        [.error ⟨.unterminatedText, p⟩, .ok ⟨.newline, "\n", none, p.after (w ++ ['\r'])⟩] :=
      ⟨rfl, fun hnone => by cases hnone⟩
    show Agree (_ :: _ :: items m true ((p.after w).after ['\n']) qs)
      (_ :: _ :: items m true ((p.after (w ++ ['\r'])).after ['\n']) rs)
    rw [hnext]
    exact hquote.append (ih true)
  | same hq h ih =>
    exact agree_items (fun _ => startLine_returned (.same hq h))
      (fun _ => (Agree.refl _).append (ih _)) atStart

theorem withoutMark_returned (cs : List Char) :
    withoutMark (returned cs) = returned (withoutMark cs) := by
  cases cs with
  | nil => rfl
  | cons c cs =>
    by_cases hc : c = '\n'
    · subst hc
      rfl
    · rw [returned_cons hc, withoutMark, withoutMark]
      split_ifs
      · rfl
      · rw [returned_cons hc]

end

end Source

open Source

/-- **Line endings do not matter.** A text without carriage returns has the same tokens, or the same
faults, at the same positions, when each of its lines ends with a carriage return and a line
feed. -/
theorem tokenize_returned (source : String) (h : '\r' ∉ source.toList) :
    tokenize (.ofList (returned source.toList)) = tokenize source := by
  obtain ⟨mark, hmark, -⟩ := withoutMark_split source.toList
  have hr : '\r' ∉ withoutMark source.toList := fun hmem => h (by
    rw [hmark]
    exact List.mem_append_right _ hmem)
  symm
  apply tokenize_of_agree
  rw [String.toList_ofList, scan, scan, withoutMark_returned]
  exact items_returned (Piece.cut_returned hr) false

/-- An indented block behind a comment and an empty line; and two lines with a quote that is not
closed. -/
theorem tokenize_returned_block :
    tokenize "IF a # c\r\n\r\n  B \"x\"\r\n" = tokenize "IF a # c\n\n  B \"x\"\n" ∧
    tokenize "A \"b\r\nC \"" = .error [⟨.unterminatedText, ⟨1, 3⟩⟩, ⟨.unterminatedText, ⟨2, 3⟩⟩] :=
  ⟨tokenize_returned "IF a # c\n\n  B \"x\"\n" (by decide),
    (tokenize_returned "A \"b\nC \"" (by decide)).trans (by with_unfolding_all rfl)⟩

end Offside
