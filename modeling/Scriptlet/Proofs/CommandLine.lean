import Scriptlet.CommandLine
import Scriptlet.Proofs.Session.Compile

/-!
# Faults of a text on the way to the exit code

A text that is no program is reported on, and a report starts with the first fault that there is and
invents none.  Nothing of such a text runs.  The commands that run a file and that list its tree
fail for the same files and print the same diagnostics, although each fills a queue of its own.
-/

namespace Scriptlet

open Source Grammar

variable {config : Diagnostic.QueueConfig} {source : String} {program : List Stmt}
  {e : CompileErrors} {s : Session} {clock : Nat → Float}

/-- What a report says of all that there is to be said against a text. -/
structure CompileErrors.Reports (config : Diagnostic.QueueConfig) (ds : List Diagnostic)
    (e : CompileErrors) : Prop where
  ne_nil : e.diagnostics ≠ []
  sublist : e.diagnostics.Sublist ds
  head?_eq : e.diagnostics.head? = ds.head?
  length_le : 0 < config.limit → e.diagnostics.length ≤ config.limit
  length_of_dropped : 0 < e.dropped → e.diagnostics.length = config.limit
  length_add_dropped : config.deduplicate = false →
    e.diagnostics.length + e.dropped = ds.length

theorem reports_of_compile (h : compile config source = .error e) :
    e.Reports config (SourceUnit.ofSource source).diagnostics := by
  obtain ⟨hsome, rfl⟩ := compile_eq_error_iff.mp h
  have hkeeps := Diagnostic.Queue.keeps_extend config (SourceUnit.ofSource source).diagnostics
  generalize (Diagnostic.Queue.empty config).extend (SourceUnit.ofSource source).diagnostics = q
    at hkeeps
  exact {
    ne_nil := fun hnil => hsome (hkeeps.size_eq_zero_iff.mp (by
      rw [← Diagnostic.Queue.length_toList]
      exact List.length_eq_zero_iff.mpr hnil))
    sublist := hkeeps.sublist
    head?_eq := hkeeps.head?_eq
    length_le := fun hlimit => Nat.le_trans (Nat.le_of_eq q.length_toList) (hkeeps.size_le hlimit)
    length_of_dropped := fun hdropped => q.length_toList.trans (hkeeps.size_of_dropped hdropped).2
    length_add_dropped := fun hall => by
      rw [q.length_toList]
      exact hkeeps.counted hall }

namespace Session

theorem runWith_of_compile_eq_error (h : compile s.queueConfig source = .error e) (fuel : Nat) :
    s.runWith fuel source = (.error (.compile e), s) := by
  rw [runWith, h]

theorem runWith_eq_compile_iff {fuel : Nat} :
    (s.runWith fuel source).1 = .error (.compile e) ↔
      compile s.queueConfig source = .error e := by
  refine ⟨fun h => ?_, fun h => by rw [runWith_of_compile_eq_error h]⟩
  rw [runWith] at h
  split at h
  next e' hcompile =>
    cases h
    exact hcompile
  next => split at h <;> cases h

end Session

theorem ExitCode.ofResult_eq_compileError_iff {result : Except RunError Unit} :
    ofResult result = compileError ↔ ∃ e, result = .error (.compile e) := by
  constructor
  · intro h
    rcases result with (e | e | _) | _
    · exact ⟨e, rfl⟩
    all_goals cases h
  · rintro ⟨e, rfl⟩
    rfl

/-! ## The two commands -/

theorem intercalate_append_newline {lines : List String} (h : lines ≠ []) :
    "\n".intercalate lines ++ "\n" = String.join (lines.map (· ++ "\n")) := by
  induction lines with
  | nil => exact absurd rfl h
  | cons line rest ih =>
      by_cases hrest : rest = []
      · simp [hrest]
      · rw [String.intercalate_cons_of_ne_nil hrest, List.map_cons, String.join_cons, ← ih hrest]
        simp only [String.append_assoc]

def CompileErrors.note (e : CompileErrors) : String :=
  if 0 < e.dropped then "... and " ++ toString e.dropped ++ " more error(s)\n" else ""

theorem CompileErrors.text_append_newline (h : e.diagnostics ≠ []) :
    e.text ++ "\n" = String.join (e.diagnostics.map fun d => d.text ++ "\n") ++ e.note := by
  have hlines : "\n".intercalate (e.diagnostics.map Diagnostic.text) ++ "\n" =
      String.join (e.diagnostics.map fun d => d.text ++ "\n") := by
    rw [intercalate_append_newline (mt List.map_eq_nil_iff.mp h), List.map_map]
    rfl
  rw [text, note, ← hlines]
  by_cases hdropped : 0 < e.dropped
  · have hstart : "\n... and " = "\n" ++ "... and " := rfl
    have hend : " more error(s)\n" = " more error(s)" ++ "\n" := rfl
    simp only [hdropped, if_true, hstart, hend, String.append_assoc]
  · simp only [hdropped, if_false, String.append_empty]

namespace CommandLine

theorem parseText_of_compile_eq_error (h : compile .standard source = .error e) :
    parseText source =
      ⟨Stmt.programListing (SourceUnit.ofSource source).parsed.statements,
        String.join (e.diagnostics.map fun d => d.text ++ "\n"), ExitCode.compileError⟩ := by
  obtain ⟨hsome, rfl⟩ := compile_eq_error_iff.mp h
  simp [parseText, listingOutcome, Diagnostic.Queue.hasErrors_extend_empty, hsome]

theorem parseText_of_compile_eq_ok (h : compile .standard source = .ok program) :
    parseText source = ⟨Stmt.programListing program, "", ExitCode.success⟩ := by
  obtain ⟨hlexed, hparsed⟩ := compile_eq_ok_iff.mp h
  have hnone : (SourceUnit.ofSource source).diagnostics = [] := by
    simp [SourceUnit.ofSource, SourceUnit.diagnostics, hlexed, hparsed]
  have htree : (SourceUnit.ofSource source).parsed.statements = program := by
    simp [SourceUnit.ofSource, hparsed]
  simp only [parseText, hnone, htree]
  rfl

theorem runText_of_compile_eq_error (h : compile .standard source = .error e) :
    runText clock source = ⟨"", e.text ++ "\n", ExitCode.compileError⟩ := by
  have hrun := Session.runWith_of_compile_eq_error (s := .standard clock) h Session.plentyOfFuel
  rw [runText, Session.run, hrun]
  rfl

theorem code_parseText_iff :
    (parseText source).code = ExitCode.compileError ↔
      ∃ e, compile .standard source = .error e := by
  cases h : compile .standard source with
  | ok program =>
      rw [parseText_of_compile_eq_ok h]
      exact ⟨nofun, nofun⟩
  | error e =>
      rw [parseText_of_compile_eq_error h]
      exact ⟨fun _ => ⟨e, rfl⟩, fun _ => rfl⟩

theorem code_runText_iff :
    (runText clock source).code = ExitCode.compileError ↔
      ∃ e, compile .standard source = .error e := by
  simp only [runText, ExitCode.ofResult_eq_compileError_iff, Session.run,
    Session.runWith_eq_compile_iff]
  rfl

theorem code_onFile_iff {action : Action} {path : String} {contents : Except ReadError String} :
    (onFile clock action path contents).code = ExitCode.compileError ↔
      ∃ source, contents = .ok source ∧
        (onText clock action source).code = ExitCode.compileError := by
  cases contents with
  | ok source => simp [onFile]
  | error e => simp [onFile, ExitCode.noInput, ExitCode.compileError]

end CommandLine

/-- No fault of a text is lost or invented on the way from the text to the exit code.  The texts
without faults are the programs, under every configuration; a report on any other text starts with
the first of its faults, repeats them in order and counts those for which there was no room, and
running such a text leaves the session as it is.  Running a file and listing its tree exit with 65
for the same files, and print the same diagnostics for them. -/
theorem faults_reach_exitCode (config : Diagnostic.QueueConfig) (source : String)
    (clock : Nat → Float) (files : String → Except CommandLine.ReadError ByteArray)
    (input : ByteArray) (path : String) :
    (∀ program, compile config source = .ok program ↔
      (lex source).errors = [] ∧ (parse (lex source).tokens).errors = [] ∧
        program = (parse (lex source).tokens).statements) ∧
    (∀ e, compile config source = .error e →
      e.Reports config ((lex source).errors.map Diagnostic.ofLexError ++
        (parse (lex source).tokens).errors.map SyntaxError.diagnostic) ∧
      ∀ s : Session, s.queueConfig = config → ∀ fuel,
        s.runWith fuel source = (.error (.compile e), s) ∧
          ExitCode.ofResult (s.runWith fuel source).1 = 65) ∧
    ((CommandLine.perform clock files input ["parse", path]).code = 65 ↔
      (CommandLine.perform clock files input ["run", path]).code = 65) ∧
    ((CommandLine.perform clock files input ["run", path]).code = 65 →
      ∃ text e, (files path >>= CommandLine.decode) = .ok text ∧
        compile .standard text = .error e ∧
        (CommandLine.perform clock files input ["run", path]).out = "" ∧
        (CommandLine.perform clock files input ["parse", path]).err =
          String.join (e.diagnostics.map fun d => d.text ++ "\n") ∧
        (CommandLine.perform clock files input ["run", path]).err =
          String.join (e.diagnostics.map fun d => d.text ++ "\n") ++ e.note) := by
  have hparse : CommandLine.perform clock files input ["parse", path] =
      CommandLine.onFile clock .parse path (files path >>= CommandLine.decode) := rfl
  have hrun : CommandLine.perform clock files input ["run", path] =
      CommandLine.onFile clock .run path (files path >>= CommandLine.decode) := rfl
  rw [hparse, hrun]
  refine ⟨fun program => ?programs, fun e h => ⟨reports_of_compile h, ?nothingRuns⟩, ?sameFiles,
    fun h => ?sameDiagnostics⟩
  case programs =>
    rw [compile_eq_ok_iff, Parsed.mk.injEq, and_comm (a := _ = program), eq_comm (a := program)]
  case nothingRuns =>
    rintro s rfl fuel
    rw [Session.runWith_of_compile_eq_error h]
    exact ⟨rfl, rfl⟩
  case sameFiles =>
    change _ = ExitCode.compileError ↔ _ = ExitCode.compileError
    simp only [CommandLine.code_onFile_iff, CommandLine.onText, CommandLine.code_parseText_iff,
      CommandLine.code_runText_iff]
  case sameDiagnostics =>
    obtain ⟨text, htext, hcode⟩ := CommandLine.code_onFile_iff.mp h
    obtain ⟨e, he⟩ := CommandLine.code_runText_iff.mp hcode
    have hsome := (reports_of_compile he).ne_nil
    rw [htext, CommandLine.onFile, CommandLine.onFile, CommandLine.onText, CommandLine.onText,
      CommandLine.runText_of_compile_eq_error he, CommandLine.parseText_of_compile_eq_error he]
    exact ⟨text, e, rfl, he, rfl, rfl, CompileErrors.text_append_newline hsome⟩

/-- The fault of the first line stands in the report before its syntax error; the two that follow
are only counted. -/
theorem faults_reach_exitCode_counted :
    let source := "x = @\n)\n1 = 2\n"
    let report : CompileErrors :=
      ⟨[⟨1, .line, "Unexpected character '@'."⟩, ⟨1, .endOfLine, "Expect expression."⟩], 2⟩
    let files : String → Except CommandLine.ReadError ByteArray := fun _ => .ok source.toUTF8
    let clock := Float.ofNat
    compile ⟨2, false⟩ source = .error report ∧
      report.diagnostics.length + report.dropped = 4 ∧
      (Session.mk (Session.standardSettings clock) ⟨2, false⟩ .initial).runWith 1 source =
        (.error (.compile report),
          Session.mk (Session.standardSettings clock) ⟨2, false⟩ .initial) ∧
      (CommandLine.perform clock files .empty ["run", "f"]).code = 65 ∧
      (CommandLine.perform clock files .empty ["run", "f"]).out = "" := by
  intro source report files clock
  have hcompile : compile ⟨2, false⟩ source = .error report :=
    compile_eq_error_iff.mpr (by rw [SourceUnit.ofSource_eq]; decide +kernel)
  have hparse : (CommandLine.perform clock files .empty ["parse", "f"]).code = 65 := by
    have htext : files "f" >>= CommandLine.decode = .ok source := by decide +kernel
    change (CommandLine.onFile clock .parse "f" (files "f" >>= CommandLine.decode)).code = 65
    rw [htext]
    change (CommandLine.parseText source).code = 65
    rw [CommandLine.parseText, SourceUnit.ofSource_eq]
    decide +kernel
  obtain ⟨-, hreport, hsame, hprints⟩ :=
    faults_reach_exitCode ⟨2, false⟩ source clock files .empty "f"
  obtain ⟨hreports, hnothingRuns⟩ := hreport report hcompile
  obtain ⟨-, -, -, -, hout, -⟩ := hprints (hsame.mp hparse)
  have hcounted : report.diagnostics.length + report.dropped = 4 :=
    (hreports.length_add_dropped rfl).trans (by rw [lex_eq]; decide +kernel)
  exact ⟨hcompile, hcounted, (hnothingRuns _ rfl 1).1, hsame.mp hparse, hout⟩

end Scriptlet
