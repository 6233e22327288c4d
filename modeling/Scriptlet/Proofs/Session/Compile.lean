import Scriptlet.Proofs.Diagnostic.Queue
import Scriptlet.Proofs.Grammar.Append
import Scriptlet.Proofs.Source.Append
import Scriptlet.Session.Compile

/-!
# Compiling texts

A text is a program exactly if there is nothing to report, whatever the queue keeps of a report.
Two programs of which the first ends its last line are a program together.
-/

namespace Scriptlet

open Source Grammar

variable {config : Diagnostic.QueueConfig} {source later : String} {program rest : List Stmt}
  {e : CompileErrors}

theorem SourceUnit.ofSource_eq (source : String) :
    ofSource source = ⟨lexChars source.toList, parse (lexChars source.toList).tokens⟩ := by
  rw [ofSource, lex_eq]

/-- A text is a program if neither its tokens nor its statements have a fault, however many faults
would be reported. -/
theorem compile_eq_ok_iff :
    compile config source = .ok program ↔
      (lex source).errors = [] ∧ parse (lex source).tokens = ⟨program, []⟩ := by
  have hnone : (SourceUnit.ofSource source).diagnostics = [] ↔
      (lex source).errors = [] ∧ (parse (lex source).tokens).errors = [] := by
    simp [SourceUnit.diagnostics, SourceUnit.ofSource]
  simp only [compile, Diagnostic.Queue.hasErrors_extend_empty]
  cases hempty : (SourceUnit.ofSource source).diagnostics.isEmpty with
  | false =>
      have hsome := mt hnone.mpr (by simpa using hempty)
      constructor
      · simp
      · rintro ⟨hlexed, hparsed⟩
        exact absurd ⟨hlexed, by rw [hparsed]⟩ hsome
  | true =>
      obtain ⟨hlexed, hparsed⟩ := hnone.mp (by simpa using hempty)
      simp only [SourceUnit.ofSource, hlexed, true_and]
      revert hparsed
      generalize parse (lex source).tokens = parsed
      obtain ⟨statements, errors⟩ := parsed
      rintro rfl
      simp

theorem compile_eq_error_iff :
    compile config source = .error e ↔
      (SourceUnit.ofSource source).diagnostics ≠ [] ∧
        e = ⟨((Diagnostic.Queue.empty config).extend
              (SourceUnit.ofSource source).diagnostics).toList,
          ((Diagnostic.Queue.empty config).extend
            (SourceUnit.ofSource source).diagnostics).dropped⟩ := by
  simp only [compile, Diagnostic.Queue.hasErrors_extend_empty]
  cases (SourceUnit.ofSource source).diagnostics with
  | nil => simp
  | cons d ds => simp [eq_comm]

/-- The lines of the second text are counted from the start of the first. -/
theorem compile_append (hline : source.toList.getLast? = some '\n')
    (hsource : compile config source = .ok program) (hlater : compile config later = .ok rest) :
    compile config (source ++ later) =
      .ok (program ++ rest.map (Stmt.renumber (· + newlines source.toList))) := by
  rw [compile_eq_ok_iff] at hsource hlater ⊢
  obtain ⟨hlexed, hparsed⟩ := hsource
  obtain ⟨hlexedLater, hparsedLater⟩ := hlater
  have hclosed := isUnterminated_of_errors (s := source.toList) (by
    rw [← lex_eq, hlexed]
    simp)
  have hpieces := pieces_append (t := later.toList) (.inr hline) hclosed
  have htokens : (lex source).tokens =
      (lex source).tokens.dropLast ++ [Token.eof (1 + newlines source.toList)] := by
    rw [lex_eq, lexChars, List.dropLast_concat]
  have hfront : ∀ t ∈ (lex source).tokens.dropLast, t.kind ≠ .eof := by
    rw [lex_eq]
    exact fun t => kind_tokens_ne_eof
  have hend : ∃ t ∈ (lex later).tokens, t.kind = .eof :=
    ⟨Token.eof (1 + newlines later.toList), by simp [lex_eq, lexChars], rfl⟩
  have hborder : ∃ t, (lex source).tokens.dropLast.getLast? = some t ∧ t.kind.isSeparator := by
    obtain ⟨t, ht, hkind⟩ := getLast?_tokens hline hclosed
    exact ⟨t, lex_eq source ▸ ht, by rw [hkind]; rfl⟩
  rw [htokens] at hparsed
  have hopen : ∀ e ∈ (parse ((lex source).tokens.dropLast ++
      [Token.eof (1 + newlines source.toList)])).errors,
      e.token ≠ Token.eof (1 + newlines source.toList) := by
    simp [hparsed]
  have happend := parse_append_moved (· + newlines source.toList) hfront (.inr hborder) rfl hend
    hopen
  rw [hparsed, hparsedLater] at happend
  rw [lex_eq, String.toList_append, tokens_lexChars_append hpieces, errors_lexChars_append hpieces,
    ← lex_eq, ← lex_eq, hlexed, hlexedLater, happend]
  exact ⟨rfl, rfl⟩

end Scriptlet
