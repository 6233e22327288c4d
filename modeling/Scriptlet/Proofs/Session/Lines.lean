import Mathlib
import Scriptlet.Proofs.Grammar.OriginStmt
import Scriptlet.Proofs.Machine.Lines
import Scriptlet.Proofs.Session.Regime
import Scriptlet.Proofs.Source.Lines

/-!
# Reported lines

Whatever is said of a text is said of one of its lines: faults stand where their text starts, syntax
errors and the nodes of a tree keep tokens of the text, and a run fails on the line of a token of
its program.
-/

namespace Scriptlet

open Source Grammar Diagnostic

/-- Lines are counted from one, and a newline at the end of a text starts one more. -/
def IsLineOf (source : String) (line : Nat) : Prop :=
  1 ≤ line ∧ line ≤ 1 + newlines source.toList

variable {source : String} {config : QueueConfig} {program : List Stmt}

/-! ## Tokens and faults -/

theorem isLineOf_of_placed {before : String} {p : Piece}
    (h : (before, p) ∈ placed "" (pieces source.toList)) :
    IsLineOf source (1 + newlineBytes before) := by
  obtain ⟨after, hsource, -⟩ := exists_after_of_mem_placed h
  have hcount : newlines source.toList =
      newlines before.toList + newlines (p.lexeme ++ after).toList := by
    rw [hsource, String.append_assoc, String.toList_append, newlines, List.count_append]
    rfl
  rw [IsLineOf, newlineBytes_eq, hcount]
  omega

theorem isLineOf_of_mem_tokens {t : Token} (h : t ∈ (lex source).tokens) :
    IsLineOf source t.line := by
  rw [tokens_lex, List.mem_append, List.mem_singleton] at h
  rcases h with h | rfl
  · obtain ⟨⟨before, p⟩, hplaced, ht⟩ := List.mem_filterMap.mp h
    rw [Piece.line_of_token? ht]
    exact isLineOf_of_placed hplaced
  · simp [IsLineOf, Token.eof, newlineBytes_eq]

theorem isLineOf_of_mem_errors {e : LexError} (h : e ∈ (lex source).errors) :
    IsLineOf source e.line := by
  rw [errors_lex] at h
  obtain ⟨⟨before, p⟩, hplaced, he⟩ := List.mem_filterMap.mp h
  rw [Piece.line_of_error? he]
  exact isLineOf_of_placed hplaced

/-! ## Reports -/

theorem isLineOf_of_mem_diagnostics {d : Diagnostic}
    (h : d ∈ (SourceUnit.ofSource source).diagnostics) : IsLineOf source d.line := by
  rcases List.mem_append.mp h with h | h
  · obtain ⟨e, he, rfl⟩ := List.mem_map.mp h
    exact isLineOf_of_mem_errors he
  · obtain ⟨e, he, rfl⟩ := List.mem_map.mp h
    exact isLineOf_of_mem_tokens ((parse_keeps (lex source).tokens).2 e he).1

theorem isLineOf_of_compile {e : CompileErrors} (h : compile config source = .error e) :
    ∀ d ∈ e.diagnostics, IsLineOf source d.line := by
  obtain ⟨-, rfl⟩ := compile_eq_error_iff.mp h
  intro d hd
  have hkept := Queue.keeps_extend config (SourceUnit.ofSource source).diagnostics
  exact isLineOf_of_mem_diagnostics (hkept.sublist.subset hd)

/-! ## Runs -/

theorem mem_tokens_of_has {s : Stmt} (hs : s ∈ (parse (lex source).tokens).statements) {t : Token}
    (ht : s.Has t) : t ∈ (lex source).tokens :=
  Stmt.keeps_iff.mp ((parse_keeps (lex source).tokens).1 s hs) t ht

namespace Session

theorem interpret_of_runWith {s : Session} {fuel : Nat} {e : RuntimeError}
    (h : (s.runWith fuel source).1 = .error (.runtime e)) :
    ∃ program m, compile s.queueConfig source = .ok program ∧
      Run.interpret s.settings fuel program s.machine = .error (.failed e) m := by
  cases hcompile : compile s.queueConfig source with
  | error errors =>
      simp only [runWith, hcompile] at h
      cases h
  | ok program =>
      rw [runWith_of_compile hcompile] at h
      revert h
      cases hrun : Run.interpret s.settings fuel program s.machine with
      | ok _ m => rintro ⟨⟩
      | error halt m =>
          cases halt with
          | outOfFuel => rintro ⟨⟩
          | failed e' =>
              rintro ⟨⟩
              exact ⟨program, m, rfl, hrun⟩

/-- Every token that a tree or an error keeps is one of the text, even where reading went on after
an error, and every line that is reported is one of the text.  That of a failure is the line of a
token of the program, if the host looks at no line number. -/
theorem lines_of_text {settings : Settings} (hhost : settings.IgnoresLines) (config : QueueConfig)
    {globals : List (String × Value)} (hglobals : ∀ b ∈ globals, ∀ c, ¬b.2.Holds c)
    (source : String) :
    (∀ s ∈ (parse (lex source).tokens).statements, ∀ t, s.Has t → t ∈ (lex source).tokens) ∧
    (∀ e ∈ (parse (lex source).tokens).errors, e.token ∈ (lex source).tokens) ∧
    (∀ e, compile config source = .error e → ∀ d ∈ e.diagnostics, IsLineOf source d.line) ∧
    ∀ fuel e, (runWith fuel ⟨settings, config, Machine.initial.withGlobals globals⟩ source).1 =
        .error (.runtime e) →
      IsLineOf source e.line ∧ ∃ program, compile config source = .ok program ∧
        ∃ s ∈ program, ∃ t, s.Has t ∧ t.line = e.line := by
  refine ⟨fun s hs t => mem_tokens_of_has hs, ?_, fun e => isLineOf_of_compile, ?_⟩
  · intro e he
    exact ((parse_keeps (lex source).tokens).2 e he).1
  · intro fuel e hrun
    obtain ⟨program, m, hcompile, hfailed⟩ := interpret_of_runWith hrun
    obtain ⟨s, hs, t, ht, hline⟩ := Run.exists_token_of_failed hhost hglobals hfailed
    refine ⟨?_, program, hcompile, s, hs, t, ht, hline⟩
    have hparsed := (compile_eq_ok_iff.mp hcompile).2
    rw [← hline]
    apply isLineOf_of_mem_tokens
    exact mem_tokens_of_has (by rwa [hparsed]) ht

/-- The function fails on the line of its definition, not on that of the call. -/
theorem lines_of_text_inside_call :
    let source := "def f() x end\n\nf()\n"
    let s : Session := ⟨.packing 9, .standard, Machine.initial.withGlobals builtins⟩
    (∀ b ∈ builtins, ∀ c, ¬b.2.Holds c) ∧
    (s.runWith 9 source).1 = .error (.runtime ⟨.undefinedVariable "x", 1⟩) ∧
    IsLineOf source 1 ∧ ∃ program, compile .standard source = .ok program ∧
      ∃ s ∈ program, ∃ t, s.Has t ∧ t.line = 1 := by
  intro source s
  have hlexed : lex source = ⟨[⟨.kwDef, "def", none, 1⟩, ⟨.identifier, "f", none, 1⟩,
      ⟨.leftParen, "(", none, 1⟩, ⟨.rightParen, ")", none, 1⟩, ⟨.identifier, "x", none, 1⟩,
      ⟨.kwEnd, "end", none, 1⟩, ⟨.newline, "\n", none, 1⟩, ⟨.newline, "\n", none, 2⟩,
      ⟨.identifier, "f", none, 3⟩, ⟨.leftParen, "(", none, 3⟩, ⟨.rightParen, ")", none, 3⟩,
      ⟨.newline, "\n", none, 3⟩, .eof 4], []⟩ := by
    rw [lex_eq]
    decide +kernel
  have hcompile : compile s.queueConfig source = .ok
      [.define ⟨.identifier, "f", none, 1⟩ [] [.expr (.var ⟨.identifier, "x", none, 1⟩)],
        .expr (.call (.var ⟨.identifier, "f", none, 3⟩) ⟨.rightParen, ")", none, 3⟩ [])] := by
    rw [compile_eq_ok_iff, hlexed]
    exact ⟨rfl, rfl⟩
  have hrun : (s.runWith 9 source).1 = .error (.runtime ⟨.undefinedVariable "x", 1⟩) := by
    rw [runWith_of_compile hcompile]
    cbv
  exact ⟨not_holds_builtins, hrun,
    (lines_of_text (Settings.ignoresLines_packing 9) .standard not_holds_builtins source).2.2.2 9 _
      hrun⟩

end Session

end Scriptlet
