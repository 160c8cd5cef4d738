import Mathlib.Data.List.Forall2
import Offside.Syntax.Printer

/-!
# Bracketed texts

Printed trees are bracketed texts: words, quoted texts and brackets, with blanks between them that
have no meaning. Such a text falls apart into marks in one way (`Mark.read`), and marks fall apart
into nested forms in one way (`Form.marks_unique`). So a text that writes forms writes no others
(`Writes.unique`).
-/

namespace Offside

/-! ## Marks -/

/-- What a bracketed text is made of. -/
inductive Mark
  | opening
  | closing
  | word (s : String)
  | quoted (s : String)
deriving DecidableEq, Repr

namespace Mark

/-- The characters of words: no blanks, brackets or quotes. -/
def isPlain (c : Char) : Bool := c != ' ' && c != '\n' && c != '(' && c != ')' && c != '"'

def isWord (s : String) : Bool := !s.toList.isEmpty && s.toList.all isPlain

/-- The marks of a text. A quoted text goes up to the next quote. -/
def read : List Char → List Mark
  | [] => []
  | c :: cs =>
    if c = ' ' ∨ c = '\n' then read cs
    else if c = '(' then opening :: read cs
    else if c = ')' then closing :: read cs
    else if c = '"' then
      quoted (.ofList (cs.takeWhile (· != '"'))) :: read ((cs.dropWhile (· != '"')).drop 1)
    else word (.ofList (c :: cs.takeWhile isPlain)) :: read (cs.dropWhile isPlain)
termination_by cs => cs.length
decreasing_by
  · exact Nat.lt_succ_self _
  · exact Nat.lt_succ_self _
  · exact Nat.lt_succ_self _
  · have hle := (List.dropWhile_suffix (l := cs) (· != '"')).length_le
    rw [List.length_drop, List.length_cons]
    omega
  · have hle := (List.dropWhile_suffix (l := cs) isPlain).length_le
    rw [List.length_cons]
    omega

/-- Nothing follows that could belong to a word. -/
def Delimited (rest : List Char) : Prop := ∀ c ∈ rest.head?, isPlain c = false

theorem delimited_cons {c : Char} (hc : isPlain c = false) (rest : List Char) :
    Delimited (c :: rest) := by
  rintro d ⟨⟩
  exact hc

theorem read_blank {c : Char} (hc : c = ' ' ∨ c = '\n') (rest : List Char) :
    read (c :: rest) = read rest := by
  rw [read, if_pos hc]

theorem read_blanks {cs : List Char} (hcs : ∀ c ∈ cs, c = ' ' ∨ c = '\n') (rest : List Char) :
    read (cs ++ rest) = read rest := by
  induction cs with
  | nil => rfl
  | cons c cs ih =>
    obtain ⟨hc, hcs⟩ := List.forall_mem_cons.mp hcs
    rw [List.cons_append, read_blank hc, ih hcs]

theorem read_opening (rest : List Char) : read ('(' :: rest) = opening :: read rest := by
  rw [read]
  rfl

theorem read_closing (rest : List Char) : read (')' :: rest) = closing :: read rest := by
  rw [read]
  rfl

theorem read_quoted {body : List Char} (hbody : '"' ∉ body) (rest : List Char) :
    read ('"' :: (body ++ '"' :: rest)) = quoted (.ofList body) :: read rest := by
  have hall : ∀ c ∈ body, (c != '"') = true := by
    intro c hc
    rw [bne_iff_ne]
    rintro rfl
    exact hbody hc
  have htake : (body ++ '"' :: rest).takeWhile (· != '"') = body := by
    rw [List.takeWhile_append_of_pos hall, List.takeWhile_cons_of_neg (by decide), List.append_nil]
  have hdrop : (body ++ '"' :: rest).dropWhile (· != '"') = '"' :: rest := by
    rw [List.dropWhile_append_of_pos hall, List.dropWhile_cons_of_neg (by decide)]
  rw [read, if_neg (by decide), if_neg (by decide), if_neg (by decide), if_pos rfl, htake, hdrop]
  rfl

theorem read_word {w rest : List Char} (hne : w ≠ []) (hw : ∀ c ∈ w, isPlain c = true)
    (hrest : Delimited rest) : read (w ++ rest) = word (.ofList w) :: read rest := by
  obtain ⟨c, cs, rfl⟩ := List.exists_cons_of_ne_nil hne
  obtain ⟨hc, hcs⟩ := List.forall_mem_cons.mp hw
  simp only [isPlain, Bool.and_eq_true, bne_iff_ne, ne_eq] at hc
  obtain ⟨⟨⟨⟨hspace, hbreak⟩, hopen⟩, hclose⟩, hquote⟩ := hc
  have htake : (cs ++ rest).takeWhile isPlain = cs ∧ (cs ++ rest).dropWhile isPlain = rest := by
    rw [List.takeWhile_append_of_pos hcs, List.dropWhile_append_of_pos hcs]
    cases rest with
    | nil => exact ⟨List.append_nil cs, rfl⟩
    | cons d rest =>
      have hd : ¬isPlain d = true := by simp [hrest d rfl]
      rw [List.takeWhile_cons_of_neg hd, List.dropWhile_cons_of_neg hd]
      exact ⟨List.append_nil cs, rfl⟩
  rw [List.cons_append, read, if_neg (by simp [hspace, hbreak]), if_neg hopen, if_neg hclose,
    if_neg hquote, htake.1, htake.2]

end Mark

/-! ## Forms -/

/-- A bracketed text, without its blanks. -/
inductive Form
  | word (s : String)
  | quoted (s : String)
  | node (parts : List Form)

mutual

def Form.marks : Form → List Mark
  | .word s => [.word s]
  | .quoted s => [.quoted s]
  | .node parts => .opening :: (marksAll parts ++ [.closing])

def marksAll : List Form → List Mark
  | [] => []
  | f :: fs => f.marks ++ marksAll fs

end

@[simp] theorem marksAll_append (fs gs : List Form) :
    marksAll (fs ++ gs) = marksAll fs ++ marksAll gs := by
  induction fs with
  | nil => rfl
  | cons f fs ih => rw [List.cons_append, marksAll, marksAll, ih, List.append_assoc]

theorem marksAll_singleton (f : Form) : marksAll [f] = f.marks := by
  rw [marksAll, marksAll, List.append_nil]

mutual

/-- Marks begin with one form at most. -/
theorem Form.marks_unique : ∀ (f g : Form) {r r' : List Mark}, f.marks ++ r = g.marks ++ r' →
    f = g ∧ r = r'
  | .word s, g, r, r', h => by
    cases g <;> simp [Form.marks] at h
    simpa using h
  | .quoted s, g, r, r', h => by
    cases g <;> simp [Form.marks] at h
    simpa using h
  | .node parts, g, r, r', h => by
    cases g with
    | word s => simp [Form.marks] at h
    | quoted s => simp [Form.marks] at h
    | node parts' =>
      simp only [Form.marks, List.cons_append, List.append_assoc, List.nil_append, List.cons.injEq,
        true_and] at h
      obtain ⟨hparts, hr⟩ := marksAll_unique parts parts' h
      exact ⟨congrArg Form.node hparts, hr⟩

theorem marksAll_unique : ∀ (fs gs : List Form) {r r' : List Mark},
    marksAll fs ++ .closing :: r = marksAll gs ++ .closing :: r' → fs = gs ∧ r = r'
  | [], [], r, r', h => by simpa [marksAll] using h
  | [], g :: gs, r, r', h => by
    cases g <;> simp [marksAll, Form.marks] at h
  | f :: fs, [], r, r', h => by
    cases f <;> simp [marksAll, Form.marks] at h
  | f :: fs, g :: gs, r, r', h => by
    simp only [marksAll, List.append_assoc] at h
    obtain ⟨hf, hrest⟩ := Form.marks_unique f g h
    obtain ⟨hfs, hr⟩ := marksAll_unique fs gs hrest
    exact ⟨by rw [hf, hfs], hr⟩

end

/-! ## Texts of forms -/

/-- A text is written with the marks of these forms, if nothing behind it goes on with its last
word. -/
def Writes (text : String) (fs : List Form) : Prop :=
  ∀ rest, Mark.Delimited rest → Mark.read (text.toList ++ rest) = marksAll fs ++ Mark.read rest

namespace Writes

theorem word {s : String} (hs : Mark.isWord s = true) : Writes s [.word s] := by
  intro rest hrest
  simp only [Mark.isWord, Bool.and_eq_true, Bool.not_eq_true', List.isEmpty_eq_false_iff,
    List.all_eq_true] at hs
  rw [Mark.read_word hs.1 hs.2 hrest, String.ofList_toList]
  rfl

theorem quoted {s : String} (hs : '"' ∉ s.toList) : Writes ("\"" ++ s ++ "\"") [.quoted s] := by
  intro rest hrest
  have htext : ("\"" ++ s ++ "\"").toList ++ rest = '"' :: (s.toList ++ '"' :: rest) := by simp
  rw [htext, Mark.read_quoted hs, String.ofList_toList]
  rfl

theorem spaced {a b : String} {fs gs : List Form} (ha : Writes a fs) (hb : Writes b gs) :
    Writes (a ++ " " ++ b) (fs ++ gs) := by
  intro rest hrest
  have htext : (a ++ " " ++ b).toList ++ rest = a.toList ++ ' ' :: (b.toList ++ rest) := by simp
  rw [htext, ha _ (Mark.delimited_cons (by decide) _), Mark.read_blank (.inl rfl), hb _ hrest,
    marksAll_append, List.append_assoc]

theorem intercalate {head : String} {hs : List Form} (hhead : Writes head hs) {parts : List String}
    {fs : List Form} (hparts : List.Forall₂ (fun t f => Writes t [f]) parts fs) :
    Writes (" ".intercalate (head :: parts)) (hs ++ fs) := by
  induction hparts generalizing head hs with
  | nil =>
    rw [String.intercalate_singleton, List.append_nil]
    exact hhead
  | @cons t f parts fs ht hparts ih =>
    rw [String.intercalate_cons_cons]
    exact spaced hhead (ih ht)

theorem parenthesize {head : String} {hs : List Form} (hhead : Writes head hs)
    {parts : List String} {fs : List Form}
    (hparts : List.Forall₂ (fun t f => Writes t [f]) parts fs) :
    Writes (Offside.parenthesize head parts) [.node (hs ++ fs)] := by
  intro rest hrest
  have hinner := intercalate hhead hparts
  have htext : (Offside.parenthesize head parts).toList ++ rest =
      '(' :: ((" ".intercalate (head :: parts)).toList ++ ')' :: rest) := by
    simp [Offside.parenthesize]
  rw [htext, Mark.read_opening, hinner _ (Mark.delimited_cons (by decide) _), Mark.read_closing,
    marksAll_singleton, Form.marks, List.cons_append, List.append_assoc, List.singleton_append]

theorem opened {text : String} {fs : List Form}
    (h : ∀ rest, Mark.read (text.toList ++ rest) = marksAll fs ++ .closing :: Mark.read rest) :
    Writes ("(" ++ text) [.node fs] := by
  intro rest hrest
  have htext : ("(" ++ text).toList ++ rest = '(' :: (text.toList ++ rest) := by simp
  rw [htext, Mark.read_opening, h, marksAll_singleton, Form.marks, List.cons_append,
    List.append_assoc, List.singleton_append]

/-- A text writes one list of forms at most. -/
theorem unique {text : String} {fs gs : List Form} (hf : Writes text fs) (hg : Writes text gs) :
    fs = gs := by
  have hdelimited : Mark.Delimited [')'] := Mark.delimited_cons (by decide) []
  have hmarks := (hf _ hdelimited).symm.trans (hg _ hdelimited)
  rw [Mark.read_closing] at hmarks
  exact (marksAll_unique fs gs hmarks).1

end Writes

end Offside
