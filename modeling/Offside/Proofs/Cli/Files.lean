import Offside.Proofs.Cli.Messages

/-!
# Files are handled alone

The command line tool handles its files one after the other, and none of them makes a difference to
another: what it writes about several files is what it writes about each of them alone, in their
order (`filesReport_eq`). What it writes about a file with errors is one line for each error.
-/

namespace Offside.Cli

/-! ## Reports of several files -/

namespace Report

theorem exitCode_eq_zero {r : Report} : r.exitCode = 0 ↔ r.failed = false := by
  unfold exitCode
  cases r.failed <;> simp

theorem exitCode_any {files : List File} (report : File → Report) (stdout : ByteArray)
    (stderr : String) :
    (⟨stdout, stderr, files.any fun f => (report f).failed⟩ : Report).exitCode =
      if ∀ f ∈ files, (report f).exitCode = 0 then 0 else 1 := by
  simp only [exitCode_eq_zero]
  unfold exitCode
  simp only [List.any_eq_true]
  by_cases hfailed : ∃ f ∈ files, (report f).failed = true
  · obtain ⟨f, hf, hfail⟩ := hfailed
    rw [if_pos ⟨f, hf, hfail⟩, if_neg fun hall => ?_]
    rw [hall f hf] at hfail
    cases hfail
  · rw [if_neg hfailed, if_pos fun f hf => ?_]
    rw [Bool.eq_false_iff]
    exact fun hfail => hfailed ⟨f, hf, hfail⟩

end Report

def concat (texts : List ByteArray) : ByteArray := texts.foldl (· ++ ·) .empty

section files

variable (mode : Mode) (fuel limit : Nat) (readings : Nat → Float)

theorem filesReport_snoc (files : List File) (file : File) :
    filesReport mode (files ++ [file]) fuel limit readings =
      filesReport mode files fuel limit readings ++ fileReport mode file fuel limit readings := by
  unfold filesReport
  rw [List.foldl_concat]

theorem perform_single (file : File) :
    perform mode [file] fuel limit readings =
      ⟨(fileReport mode file fuel limit readings).exitCode,
        (fileReport mode file fuel limit readings).stdout,
        (fileReport mode file fuel limit readings).stderr⟩ := by
  have hreport : filesReport mode [file] fuel limit readings =
      fileReport mode file fuel limit readings := by
    show Report.empty ++ fileReport mode file fuel limit readings = _
    generalize fileReport mode file fuel limit readings = r
    obtain ⟨stdout, stderr, failed⟩ := r
    show (⟨ByteArray.empty ++ stdout, "" ++ stderr, false || failed⟩ : Report) = _
    rw [ByteArray.empty_append, String.empty_append, Bool.false_or]
  show (⟨(filesReport mode [file] fuel limit readings).exitCode, _, _⟩ : Answer) = _
  rw [hreport]

theorem filesReport_eq (files : List File) :
    filesReport mode files fuel limit readings =
      ⟨concat (files.map fun f => (fileReport mode f fuel limit readings).stdout),
        String.join (files.map fun f => (fileReport mode f fuel limit readings).stderr),
        files.any fun f => (fileReport mode f fuel limit readings).failed⟩ := by
  induction files using List.reverseRecOn with
  | nil => rfl
  | append_singleton files file ih =>
    rw [filesReport_snoc, ih, List.map_append, List.map_append, List.any_append, concat, concat,
      List.map_singleton, List.map_singleton, List.foldl_concat, String.join_append]
    simp only [List.any_cons, List.any_nil, Bool.or_false, String.join_cons,
      String.join_nil, String.append_empty]
    rfl

end files

/-! ## Errors of a file -/

/-- The text is these lines, each ended by a line feed. -/
def IsLines (text : String) (ls : List String) : Prop :=
  text = String.join (ls.map (· ++ "\n")) ∧ ∀ l ∈ ls, OneLine l

theorem isLines_complaint {path : String} (hpath : OneLine path) {ms : List String} (hne : ms ≠ [])
    (hline : ∀ m ∈ ms, OneLine m)
    (hlast : ∀ m ∈ ms, ∃ c ∈ m.toList.getLast?, c.isDigit = true) :
    IsLines (complaint path ("\n".intercalate ms)) (ms.map fun m => path ++ ": " ++ m) := by
  refine ⟨?_, fun l hl => ?_⟩
  · rw [complaint, lines_intercalate hne hline hlast, List.map_map]
    rfl
  · obtain ⟨m, hm, rfl⟩ := List.mem_map.mp hl
    exact (hpath.append (by decide)).append (hline m hm)

section errors

variable {source path : String} (mode : Mode) (fuel limit : Nat) (readings : Nat → Float)

theorem stderr_lexical {fs : List Fault} (h : tokenize source = .error fs) :
    (fileReport mode ⟨path, .ok source⟩ fuel limit readings).stderr =
      complaint path (Failure.lexical fs).message := by
  have hparse : parseSource source = .error (.lexical fs) := by
    rw [parseSource, h]
  unfold fileReport sourceReport
  cases mode with
  | run =>
    simp only [runReport, Session.run, Session.withProgram, hparse]
  | check => simp only [hparse, failure]
  | ast => simp only [hparse, failure]
  | tokens => simp only [h, failure]

theorem stderr_syntactic {ts : List Token} {es : List SyntaxError} (hts : tokenize source = .ok ts)
    (hes : parse ts = .error es) (hmode : mode ≠ .tokens) :
    (fileReport mode ⟨path, .ok source⟩ fuel limit readings).stderr =
      complaint path (Failure.syntactic es).message := by
  have hparse : parseSource source = .error (.syntactic es) := by
    simp only [parseSource, hts, hes]
  unfold fileReport sourceReport
  cases mode with
  | run => simp only [runReport, Session.run, Session.withProgram, hparse]
  | check => simp only [hparse, failure]
  | ast => simp only [hparse, failure]
  | tokens => exact absurd rfl hmode

theorem stderr_tokens {ts : List Token} (hts : tokenize source = .ok ts) :
    (fileReport .tokens ⟨path, .ok source⟩ fuel limit readings).stderr = "" := by
  unfold fileReport sourceReport
  simp only [hts]
  rfl

theorem isLines_lexical {fs : List Fault} (h : tokenize source = .error fs)
    (hpath : OneLine path) :
    IsLines (complaint path (Failure.lexical fs).message)
      (fs.map fun f => path ++ ": " ++ f.message) := by
  have hlines := @isLines_complaint path hpath (fs.map Fault.message)
    (by simpa using (tokenize_eq_error.mp h).1)
    (by simpa using Fault.oneLine_message h)
    (by simpa using fun f _ => f.pos.getLast?_locate f.cause.message)
  rw [List.map_map] at hlines
  exact hlines

theorem isLines_syntactic {ts : List Token} {es : List SyntaxError} (hts : tokenize source = .ok ts)
    (hes : parse ts = .error es) (hpath : OneLine path) :
    IsLines (complaint path (Failure.syntactic es).message)
      (es.map fun e => path ++ ": " ++ e.message) := by
  have hne : es ≠ [] := (meets_of_parse hes).1
  have hlines := @isLines_complaint path hpath (es.map SyntaxError.message)
    (by simpa using hne)
    (by simpa using SyntaxError.oneLine_message hts hes)
    (by simpa using fun e _ => e.pos.getLast?_locate e.cause.message)
  rw [List.map_map] at hlines
  exact hlines

end errors

/-- **Files are handled alone.** For every subcommand, limit and list of files, what is written
about the files is what is written about each of them alone, in their order, and the exit code is
zero if it is for each of them alone. A file with errors is reported with one line for each error,
of its path and the message. Where only the tokens are asked for, grammar is not looked at, and
nothing is said about a file that has tokens. -/
theorem files_alone (mode : Mode) {files : List File} (hfiles : files ≠ []) (fuel limit : Nat)
    (readings : Nat → Float) :
    (perform mode files fuel limit readings).stdout =
        concat (files.map fun f => (perform mode [f] fuel limit readings).stdout) ∧
      (perform mode files fuel limit readings).stderr =
        String.join (files.map fun f => (perform mode [f] fuel limit readings).stderr) ∧
      (perform mode files fuel limit readings).exitCode =
        (if ∀ f ∈ files, (perform mode [f] fuel limit readings).exitCode = 0 then 0 else 1) ∧
      (∀ path source, OneLine path →
        (∀ fs, tokenize source = .error fs →
          IsLines (perform mode [⟨path, .ok source⟩] fuel limit readings).stderr
            (fs.map fun f => path ++ ": " ++ f.message)) ∧
        ∀ ts es, tokenize source = .ok ts → parse ts = .error es → mode ≠ .tokens →
          IsLines (perform mode [⟨path, .ok source⟩] fuel limit readings).stderr
            (es.map fun e => path ++ ": " ++ e.message)) ∧
      ∀ path source ts, tokenize source = .ok ts → mode = .tokens →
        (perform mode [⟨path, .ok source⟩] fuel limit readings).stderr = "" := by
  have hperform : perform mode files fuel limit readings =
      ⟨(filesReport mode files fuel limit readings).exitCode,
        (filesReport mode files fuel limit readings).stdout,
        (filesReport mode files fuel limit readings).stderr⟩ :=
    if_neg (by simpa using hfiles)
  rw [hperform, filesReport_eq]
  simp only [perform_single]
  refine ⟨trivial, trivial, ?_, fun path source hpath =>
    ⟨fun fs hfs => ?_, fun ts es hts hes hmode => ?_⟩, fun path source ts hts hmode => ?_⟩
  · exact Report.exitCode_any (fun f => fileReport mode f fuel limit readings) _ _
  · rw [stderr_lexical mode fuel limit readings hfs]
    exact isLines_lexical hfs hpath
  · rw [stderr_syntactic mode fuel limit readings hts hes hmode]
    exact isLines_syntactic hts hes hpath
  · subst hmode
    exact stderr_tokens fuel limit readings hts

/-- A file that cannot be read, one with two faults, and one that is no program. -/
def mixed : List File :=
  [⟨"gone", .error .notFound⟩, ⟨"b.lin", .ok "é Ab"⟩, ⟨"c.lin", .ok ")"⟩]

/-- All of them are reported, and the one with two faults in two lines. Nothing is said about tokens
that can be read, whether they are a program or not. -/
theorem files_alone_mixed :
    (perform .check mixed Session.plenty defaultLimit fun _ => 0).stderr =
        String.join (mixed.map fun f =>
          (perform .check [f] Session.plenty defaultLimit fun _ => 0).stderr) ∧
      (perform .check mixed Session.plenty defaultLimit fun _ => 0).exitCode = 1 ∧
      IsLines (perform .check [⟨"b.lin", .ok "é Ab"⟩] Session.plenty defaultLimit fun _ => 0).stderr
        ["b.lin: " ++ Fault.message ⟨.unexpectedCharacter 'é', ⟨1, 1⟩⟩,
          "b.lin: " ++ Fault.message ⟨.mixedCase "Ab", ⟨1, 3⟩⟩] ∧
      IsLines (perform .check [⟨"c.lin", .ok ")"⟩] Session.plenty defaultLimit fun _ => 0).stderr
        ["c.lin: " ++ SyntaxError.message ⟨.expectedExpression "')'", ⟨1, 1⟩⟩] ∧
      (perform .tokens [⟨"c.lin", .ok ")"⟩] Session.plenty defaultLimit fun _ => 0).stderr = "" ∧
      (perform .tokens [⟨"d.lin", .ok "PASS"⟩] Session.plenty defaultLimit fun _ => 0).stderr =
        "" := by
  obtain ⟨-, herr, hexit, hlines, -⟩ := @files_alone .check mixed (List.cons_ne_nil _ _)
    Session.plenty defaultLimit fun _ => 0
  obtain ⟨-, -, -, -, htokens⟩ := @files_alone .tokens mixed (List.cons_ne_nil _ _)
    Session.plenty defaultLimit fun _ => 0
  have hgone : ¬ ∀ f ∈ mixed,
      (perform .check [f] Session.plenty defaultLimit fun _ => 0).exitCode = 0 :=
    fun hall => absurd (hall ⟨"gone", .error .notFound⟩ List.mem_cons_self) Nat.one_ne_zero
  rw [if_neg hgone] at hexit
  have hlexical := (hlines "b.lin" "é Ab" (by decide)).1
    [⟨.unexpectedCharacter 'é', ⟨1, 1⟩⟩, ⟨.mixedCase "Ab", ⟨1, 3⟩⟩] (by with_unfolding_all rfl)
  have hsyntactic := (hlines "c.lin" ")" (by decide)).2
    [⟨.symbol .rightParen, ")", none, ⟨1, 1⟩⟩, ⟨.endOfInput, "", none, ⟨1, 2⟩⟩]
    [⟨.expectedExpression "')'", ⟨1, 1⟩⟩] (by with_unfolding_all rfl) (by with_unfolding_all rfl)
    (by simp)
  have hpass : ∃ ts, tokenize "PASS" = .ok ts := ⟨_, by with_unfolding_all rfl⟩
  obtain ⟨ts, hpass⟩ := hpass
  exact ⟨herr, hexit, hlexical, hsyntactic, htokens "c.lin" ")" _ (by with_unfolding_all rfl) rfl,
    htokens "d.lin" "PASS" ts hpass rfl⟩

/-- Where only the tokens are asked for, an error of the grammar is not reported. -/
theorem tokens_unparsed :
    parseSource ")" = .error (.syntactic [⟨.expectedExpression "')'", ⟨1, 1⟩⟩]) ∧
      ¬ IsLines (perform .tokens [⟨"a.lin", .ok ")"⟩] Session.plenty defaultLimit fun _ => 0).stderr
        ["a.lin: " ++ SyntaxError.message ⟨.expectedExpression "')'", ⟨1, 1⟩⟩] := by
  have hstderr : (perform .tokens [⟨"a.lin", .ok ")"⟩] Session.plenty defaultLimit
      fun _ => 0).stderr = "" := by
    with_unfolding_all rfl
  refine ⟨by with_unfolding_all rfl, fun h => ?_⟩
  rw [hstderr] at h
  exact absurd h.1 (by decide)

end Offside.Cli
