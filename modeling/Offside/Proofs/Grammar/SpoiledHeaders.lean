import Offside.Proofs.Grammar.Orphans

/-!
# Headers that cannot be read

A header is read on its line: its readers do not see what stands behind the newline
(`line_companions`, `header_abreast`). So a statement that fails on the line of its header fails in
the same way whatever is below it (`statement_ends_line`). If the rest of the line has no word that
takes up a statement, the block below is passed over unread, and reading goes on behind it
(`SpoiledHeader.enters`).
-/

namespace Offside.Grammar

/-! ## Header lines -/

def opensHeader : Kind → Bool
  | .keyword .ifStmt | .keyword .whileStmt | .keyword .defStmt => true
  | _ => false

theorem opensHeader_cases {k : Kind} (h : opensHeader k = true) :
    k = .keyword .ifStmt ∨ k = .keyword .whileStmt ∨ k = .keyword .defStmt := by
  unfold opensHeader at h
  split at h <;> simp_all

/-- The rest of a line of code, with the newline that ends it. -/
def LineRest (ts : List Token) : Prop :=
  ∃ w n, ts = w ++ [n] ∧ (∀ t ∈ w, t.kind.isCode = true) ∧ n.kind = .newline

namespace LineRest

variable {t : Token} {ts : List Token}

theorem ne_nil (h : LineRest ts) : ts ≠ [] := by
  obtain ⟨w, n, rfl, -⟩ := h
  simp

theorem cons_cases (h : LineRest (t :: ts)) :
    t.kind.isCode = true ∧ LineRest ts ∨ t.kind = .newline ∧ ts = [] := by
  obtain ⟨w, n, heq, hw, hn⟩ := h
  cases w with
  | nil =>
    obtain ⟨rfl, rfl⟩ := List.cons_eq_cons.mp heq
    exact .inr ⟨hn, rfl⟩
  | cons u w =>
    obtain ⟨rfl, rfl⟩ := List.cons_eq_cons.mp heq
    obtain ⟨ht, hw⟩ := List.forall_mem_cons.mp hw
    exact .inl ⟨ht, w, n, rfl, hw, hn⟩

theorem tail (h : LineRest (t :: ts)) (ht : t.kind ≠ .newline) : LineRest ts := by
  rcases h.cons_cases with ⟨-, hts⟩ | ⟨hn, -⟩
  · exact hts
  · exact absurd hn ht

theorem eq_nil (h : LineRest (t :: ts)) (ht : t.kind = .newline) : ts = [] := by
  rcases h.cons_cases with ⟨hcode, -⟩ | ⟨-, hts⟩
  · rw [ht] at hcode
    cases hcode
  · exact hts

theorem resume_append (h : LineRest ts) (hts : ∀ t ∈ ts.tail, resumesAt t.kind = false)
    (z : List Token) : resume (ts ++ z) = skipOrphan z := by
  obtain ⟨w, n, rfl, hw, hn⟩ := h
  cases w with
  | nil => exact resume_newline hn z
  | cons q w =>
    obtain ⟨hq, hw⟩ := List.forall_mem_cons.mp hw
    have hcode : ∀ {t : Token}, t.kind.isCode = true → t.kind ≠ .newline ∧ t.kind ≠ .indent := by
      intro t ht
      constructor <;> intro hk <;> rw [hk] at ht <;> cases ht
    have hline : q :: w ++ [n] ++ z = q :: (w ++ n :: z) := by simp
    rw [hline]
    exact resume_line (hcode hq) (fun t ht => ⟨(hcode (hw t ht)).1, hts t (by simp [ht])⟩) hn z

end LineRest

/-- On one line, readers do not see what stands behind it. -/
theorem line_companions (stop stop' : Position) (z : List Token) :
    Companions stop stop' (fun us us' => us' = us ++ z ∧ LineRest us)
      (fun e us e' us' => e' = e ∧ us' = us ++ z ∧ LineRest us) where
  nil h := absurd rfl h.2.ne_nil
  cons h := ⟨_, _, h.1, rfl, rfl⟩
  tail h ht := ⟨(List.cons_eq_cons.mp h.1).2, h.2.tail ht⟩
  error {cause ts ts'} h _ := by
    obtain ⟨rfl, hline⟩ := h
    cases ts with
    | nil => exact absurd rfl hline.ne_nil
    | cons t ts => exact ⟨rfl, rfl, hline⟩
  behind h ht := by
    obtain ⟨heq, hline⟩ := h
    obtain ⟨rfl, rfl⟩ := List.cons_eq_cons.mp heq
    exact ⟨rfl, rfl, hline.tail (by simp [ht])⟩

/-! ## Headers -/

/-- Reads a header behind its word, up to and with the newline that ends it. -/
def header (stop : Position) (word : Kind) (ts : List Token) : Reply Unit 1 ts :=
  if word = .keyword .defStmt then
    (expect stop .command .commandName ts).andThen fun _ rest₁ _ =>
      (parameters rest₁).andThen fun _ rest₂ _ =>
        (expect stop .newline .newlineAfterParameters rest₂).map fun _ => ()
  else
    (expression stop .conditional ts).andThen fun _ rest₁ _ =>
      (expect stop .newline .newlineAfterCondition rest₁).map fun _ => ()

theorem header_abreast (stop stop' : Position) (word : Kind) {ts : List Token} (h : LineRest ts)
    (z : List Token) :
    (header stop word ts).Abreast (fun us _ => us = [])
      (fun e us e' us' => e' = e ∧ us' = us ++ z ∧ LineRest us)
      (header stop' word (ts ++ z)) := by
  have c := line_companions stop stop' z
  have hnewline : ∀ (what : SyntaxError.Wanted) (us us' : List Token),
      us' = us ++ z ∧ LineRest us →
      (expect stop .newline what us).Abreast (fun us _ => us = [])
        (fun e us e' us' => e' = e ∧ us' = us ++ z ∧ LineRest us)
        (expect stop' .newline what us') := fun what us us' h =>
    c.expect_of (fun t t' vs vs' ht hline => hline.2.eq_nil ht) what h
  unfold header
  split_ifs
  · refine .andThen (c.expect (by decide) _ ⟨rfl, h⟩) fun _ _ rest₁ rest₁' _ _ h₁ => ?_
    refine .andThen (c.parameters h₁) fun _ _ rest₂ rest₂' _ _ h₂ => ?_
    exact .map (hnewline _ _ _ h₂)
  · refine .andThen (c.expression _ ⟨rfl, h⟩) fun _ _ rest₁ rest₁' _ _ h₁ => ?_
    exact .map (hnewline _ _ _ h₁)

/-- A reply goes the way of a header: it fails where the header fails, and where the block below the
header fails. -/
def Heads {α β : Type} {j k : Nat} {ts ts' : List Token} (stop : Position) (h : Reply α k ts)
    (r : Traced β j ts') : Prop :=
  match h with
  | .fail e rest _ => r.Ends [] (some e) rest
  | .ok _ rest _ => ∀ es e left, (block stop rest).Ends es (some e) left → r.Ends es (some e) left

namespace Heads

variable {α α' β β' : Type} {i j k : Nat} {stop : Position} {ts ts' ts'' : List Token}

theorem map {h : Reply α k ts} {r : Traced β j ts'} (f : α → α') (hr : Heads stop h r) :
    Heads stop (h.map f) r := by
  cases h <;> exact hr

theorem lift {h : Reply α k ts} {r : Traced β j ts'} {r' : Traced β' i ts''} (hr : Heads stop h r)
    (hlift : ∀ es e left, r.Ends es (some e) left → r'.Ends es (some e) left) :
    Heads stop h r' := by
  cases h with
  | fail e rest hle => exact hlift _ _ _ hr
  | ok a rest hle => exact fun es e left hblock => hlift _ _ _ (hr es e left hblock)

theorem andThen {r : Reply α k ts}
    {f : (a : α) → (rest : List Token) → rest.length + k ≤ ts.length → Reply β j rest}
    {g : (a : α) → (rest : List Token) → rest.length + k ≤ ts.length → Traced β' i rest}
    (hfg : ∀ a rest hle, Heads stop (f a rest hle) (g a rest hle)) :
    Heads stop (r.andThen f) (r.quiet.andThen g) := by
  cases r with
  | fail e rest hle => exact ⟨rfl, rfl, rfl⟩
  | ok a rest hle =>
    have hlift : ∀ es e left, (g a rest hle).Ends es (some e) left →
        ((Reply.ok a rest hle : Reply α k ts).quiet.andThen g).Ends es (some e) left := by
      intro es e left hends
      simp only [Traced.andThen, Reply.quiet]
      generalize g a rest hle = s at hends
      obtain ⟨es', reply⟩ := s
      cases reply <;> exact hends
    have hnext := hfg a rest hle
    simp only [Reply.andThen]
    generalize f a rest hle = s at hnext
    cases s <;> exact hnext.lift hlift

end Heads

section heads

variable {stop : Position} {ts : List Token}

theorem block_missing :
    (block stop []).Ends [] (some ⟨.expected .block (describe []), stop⟩) [] := by
  obtain ⟨hle, hblock⟩ := block_nil stop (rfl : skipNewlines [] = [])
  rw [hblock]
  exact ⟨rfl, rfl, rfl⟩

theorem blockBelow_heads (what : SyntaxError.Wanted) :
    Heads stop (expect stop .newline what ts) (blockBelow stop what ts) := by
  rw [blockBelow]
  cases expect stop .newline what ts with
  | fail e rest hle => exact ⟨rfl, rfl, rfl⟩
  | ok a rest hle =>
    intro es e left hblock
    have hread : (Reply.ok a rest hle : Reply Token 1 ts).quiet.Ends [] none rest := ⟨rfl, rfl, rfl⟩
    exact hread.andThen fun _ _ => hblock

theorem statement_heads {t : Token} (ht : opensHeader t.kind = true) :
    Heads stop (header stop t.kind ts) (statement stop (t :: ts)) := by
  unfold header
  rcases opensHeader_cases ht with hk | hk | hk
  · rw [hk, if_neg (by decide), statement, hk]
    simp only
    rw [condition]
    refine Heads.lift (Heads.andThen fun test rest₁ hle => Heads.map _ ?_)
      fun _ _ _ => Traced.ends_behind
    exact (blockBelow_heads _).lift fun _ _ _ => Traced.Ends.andThen_failure
  · rw [hk, if_neg (by decide), statement, hk]
    simp only
    refine Heads.lift (Heads.andThen fun test rest₁ hle => Heads.map _ ?_)
      fun _ _ _ => Traced.ends_behind
    exact (blockBelow_heads _).lift fun _ _ _ => Traced.ends_map
  · rw [hk, if_pos rfl, statement, hk]
    simp only
    refine Heads.lift (Heads.andThen fun name rest₁ hle => Heads.andThen fun params rest₂ hle' =>
      Heads.map _ ?_) fun _ _ _ => Traced.ends_behind
    exact (blockBelow_heads _).lift fun _ _ _ => Traced.ends_map

end heads

theorem Traced.Ends.unique {α : Type} {k : Nat} {ts rest rest' : List Token} {r : Traced α k ts}
    {es es' : List SyntaxError} {failure failure' : Option SyntaxError}
    (h : r.Ends es failure rest) (h' : r.Ends es' failure' rest') :
    failure = failure' ∧ rest = rest' := by
  obtain ⟨es₁, reply⟩ := r
  cases reply <;> exact ⟨h.2.1.trans h'.2.1.symm, h.2.2.symm.trans h'.2.2⟩

/-- **The line of a header.** A statement that fails on the line of its header fails in the same way
whatever stands behind the line. -/
theorem statement_ends_line {stop : Position} {t : Token} {ts left : List Token} {e : SyntaxError}
    (ht : opensHeader t.kind = true) (hts : LineRest ts)
    (h : (statement stop (t :: ts)).Ends [] (some e) left) (hleft : left ≠ []) :
    LineRest left ∧ ∀ stop' z,
      (statement stop' (t :: (ts ++ z))).Ends [] (some e) (left ++ z) := by
  have hheads : Heads stop (header stop t.kind ts) (statement stop (t :: ts)) := statement_heads ht
  have habreast := fun stop' z => header_abreast stop stop' t.kind hts z
  generalize header stop t.kind ts = r at hheads habreast
  cases r with
  | ok a rest hle =>
    -- the header is in order, so the block below is missing, and nothing is left
    obtain rfl : rest = [] := by
      have hboth := habreast stop []
      generalize header stop t.kind (ts ++ []) = r' at hboth
      cases r' with
      | ok a rest hle => exact hboth
      | fail e rest hle => cases hboth
    exact absurd (h.unique (hheads _ _ _ block_missing)).2 hleft
  | fail e' rest hle =>
    obtain ⟨he, rfl⟩ := Traced.Ends.unique h hheads
    cases he
    have hfail : ∀ stop' z, LineRest left ∧
        (statement stop' (t :: (ts ++ z))).Ends [] (some e) (left ++ z) := by
      intro stop' z
      have hboth := habreast stop' z
      have hend : Heads stop' (header stop' t.kind (ts ++ z)) (statement stop' (t :: (ts ++ z))) :=
        statement_heads ht
      generalize header stop' t.kind (ts ++ z) = r' at hboth hend
      cases r' with
      | ok a rest hle => cases hboth
      | fail e' rest hle =>
        obtain ⟨rfl, rfl, hline⟩ := hboth
        exact ⟨hline, hend⟩
    exact ⟨(hfail stop []).1, fun stop' z => (hfail stop' z).2⟩

/-- The line of a header that cannot be read: reading the statement fails on the line, at a token of
`H` or at the newline `n` behind it, with the error `e`. Behind the token that is next then, no word
on the line takes up a statement. (Reading gives up at the token of the error or, at a lone `not`,
one token behind it.) -/
structure SpoiledHeader (H : List Token) (n : Token) (e : SyntaxError) : Prop where
  opens : ∃ t ts, H = t :: ts ∧ opensHeader t.kind = true
  isCode : ∀ t ∈ H, t.kind.isCode = true
  newline : n.kind = .newline
  fails : ∃ left, left ≠ [] ∧ (statement n.pos (H ++ [n])).Ends [] (some e) left ∧
    ∀ t ∈ left.tail, resumesAt t.kind = false

/-- Reading comes from a header at the front of `X` with the error `e` to `Y`. -/
structure Enters (stop : Position) (e : SyntaxError) (X Y : List Token) : Prop where
  opens : ∃ t ts, X = t :: ts ∧ opensHeader t.kind = true
  leads (inside : Bool) : Leads stop inside X [e] Y

theorem not_dedent_of_opensHeader {k : Kind} (h : opensHeader k = true) : k ≠ .dedent := by
  rintro rfl
  cases h

theorem SpoiledHeader.enters {H B : List Token} {n i d : Token} {e : SyntaxError}
    (h : SpoiledHeader H n e) (hi : i.kind = .indent) (hB : Nested B) (hd : d.kind = .dedent)
    (stop : Position) (R : List Token) :
    Enters stop e (H ++ n :: i :: (B ++ d :: R)) (skipNewlines R) := by
  obtain ⟨t, ts, rfl, ht⟩ := h.opens
  obtain ⟨left, hleft, hends, hwords⟩ := h.fails
  have hline : LineRest (ts ++ [n]) :=
    ⟨ts, n, rfl, fun u hu => h.isCode u (List.mem_cons_of_mem t hu), h.newline⟩
  obtain ⟨hrest, hfails⟩ := statement_ends_line ht hline hends hleft
  refine ⟨⟨t, _, rfl, ht⟩, fun inside => ?_⟩
  have happend : t :: ts ++ n :: i :: (B ++ d :: R) =
      t :: (ts ++ [n] ++ i :: (B ++ d :: R)) := by simp
  rw [happend, ← skipOrphan_block hi hB hd, ← hrest.resume_append hwords]
  exact Leads.of_failure (not_dedent_of_opensHeader ht) (hfails stop _)

end Offside.Grammar
