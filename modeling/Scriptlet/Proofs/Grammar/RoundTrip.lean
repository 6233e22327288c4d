import Scriptlet.Proofs.Grammar.StmtComplete

/-!
# Programs laid out and read again

Reading a program without an error loses no token and makes none up: what was read differs from the
canonical tokens of the statements in layout only, and from these the same statements are read.
-/

namespace Scriptlet.Grammar

variable {r r' : Reading} {statements : List Stmt}

theorem parse_of_reads (hstart : r.errors = #[])
    (h : Reads (program (r.tokens.length + 1)) r statements r') :
    parse r.tokens = ⟨statements, []⟩ := by
  obtain ⟨current, ahead, errors⟩ := r
  obtain rfl : errors = #[] := hstart
  have hresult : program (ahead.length + 2) ⟨current, ahead, #[]⟩ = .ok statements r' := h.result
  have hclean : r'.errors = #[] := h.clean
  simp only [Reading.tokens, parse, hresult, hclean]

theorem reads_of_parse (hr : r.Closed) (hstart : r.errors = #[])
    (hclean : (parse r.tokens).errors = []) :
    ∃ r', Reads (program (r.tokens.length + 1)) r (parse r.tokens).statements r' := by
  obtain ⟨current, ahead, errors⟩ := r
  obtain rfl : errors = #[] := hstart
  rw [Reading.tokens, parse] at hclean ⊢
  cases hprogram : program (ahead.length + 2) ⟨current, ahead, #[]⟩ with
  | ok statements r' =>
      rw [hprogram] at hclean
      exact ⟨r', hprogram, Array.toList_eq_nil_iff.mp hclean, hr⟩
  | error e r' =>
      rw [hprogram] at hclean
      simp [Reading.record] at hclean

/-- Statements that can be read are read from their canonical tokens. -/
theorem parse_of_readable (h : ∀ s ∈ statements, s.Readable) (line : Nat) :
    parse (Stmt.lines statements ++ [Token.eof line]) = ⟨statements, []⟩ := by
  let last : Reading := ⟨Token.eof line, [], #[]⟩
  have hlast : last.Closed := ⟨Token.eof line, rfl, rfl⟩
  have htokens : (last.before (Stmt.lines statements)).tokens =
      Stmt.lines statements ++ [Token.eof line] := Reading.tokens_before ..
  rw [← htokens]
  refine parse_of_reads (by rw [Reading.errors_before]) (reads_program h ?_ hlast rfl)
  rw [htokens, List.length_append]
  omega

/-- Of tokens that end in an end mark and are read without an error, those before the first end mark
differ from the canonical tokens of the statements in layout only, and the canonical tokens are read
without an error as the same statements. -/
theorem parse_lines {ts : List Token} (hend : ∃ last, ts.getLast? = some last ∧ last.kind = .eof)
    (hclean : (parse ts).errors = []) :
    (∃ before last after, ts = before ++ last :: after ∧ last.kind = .eof ∧
      (∀ t ∈ before, t.kind ≠ .eof) ∧ Layout before (Stmt.lines (parse ts).statements)) ∧
    ∀ line, parse (Stmt.lines (parse ts).statements ++ [Token.eof line]) =
      ⟨(parse ts).statements, []⟩ := by
  obtain _ | ⟨first, ahead⟩ := ts
  · simp at hend
  obtain ⟨r', hreads⟩ := reads_of_parse (r := ⟨first, ahead, #[]⟩) hend rfl hclean
  obtain ⟨⟨before, hbefore, hlayout, hreadable⟩, hlast⟩ := hreads.of_program
  have hsplit : first :: ahead = before ++ r'.tokens := by
    rw [← Reading.tokens_before, ← hbefore]
    rfl
  constructor
  · refine ⟨before, r'.current, r'.ahead, hsplit, hlast, ?_, hlayout⟩
    -- no parser takes an end mark, and the tokens laid out are the tokens taken
    obtain ⟨taken, htaken, hmarks⟩ := hreads.eq_before
    have hsame : taken ++ r'.tokens = before ++ r'.tokens := by
      rw [← hsplit, ← Reading.tokens_before, ← htaken]
      rfl
    rwa [← List.append_cancel_right hsame]
  · exact parse_of_readable hreadable

/-- Parameters without parentheses, and a literal that is not spelled as its value. -/
theorem parse_lines_definition :
    let ts : List Token := [.mark .kwDef, ⟨.identifier, "f", none, 1⟩, ⟨.identifier, "x", none, 1⟩,
      .mark .semicolon, .mark .kwWhile, ⟨.identifier, "x", none, 1⟩, .mark .kwDo,
      ⟨.kwPuts, "puts", none, 1⟩, ⟨.integer, "010", some (.int 10), 1⟩, .mark .kwEnd, .mark .kwEnd,
      Token.eof 1]
    let statements : List Stmt := [.define ⟨.identifier, "f", none, 1⟩ [⟨.identifier, "x", none, 1⟩]
      [.whileDo (.var ⟨.identifier, "x", none, 1⟩)
        [.print ⟨.kwPuts, "puts", none, 1⟩ [.literal (.int 10)] true]]]
    (∃ last, ts.getLast? = some last ∧ last.kind = .eof) ∧ parse ts = ⟨statements, []⟩ ∧
      (∃ before last after, ts = before ++ last :: after ∧ last.kind = .eof ∧
        (∀ t ∈ before, t.kind ≠ .eof) ∧ Layout before (Stmt.lines statements)) ∧
      ∀ line, parse (Stmt.lines statements ++ [Token.eof line]) = ⟨statements, []⟩ := by
  intro ts statements
  have hend : ∃ last, ts.getLast? = some last ∧ last.kind = .eof := ⟨Token.eof 1, rfl, rfl⟩
  have hparse : parse ts = ⟨statements, []⟩ := rfl
  have hlines := parse_lines hend (by rw [hparse])
  rw [hparse] at hlines
  exact ⟨hend, hparse, hlines⟩

/-- What comes after an end mark is not read, so it is laid out nowhere. -/
theorem not_forall_layout :
    ¬ ∀ ts : List Token, (∃ last, ts.getLast? = some last ∧ last.kind = .eof) →
      (parse ts).errors = [] →
      ∃ before last, ts = before ++ [last] ∧ Layout before (Stmt.lines (parse ts).statements) := by
  intro hall
  let x : Token := ⟨.identifier, "x", none, 1⟩
  obtain ⟨before, last, hsplit, hlayout⟩ :=
    hall [Token.eof 1, x, Token.eof 1] ⟨Token.eof 1, rfl, rfl⟩ rfl
  have hparts : [Token.eof 1, x] ++ [Token.eof 1] = before ++ [last] := hsplit
  obtain ⟨hbefore, -⟩ := List.append_inj' hparts rfl
  subst hbefore
  have hcount := hlayout.count (k := .identifier) rfl
  exact absurd hcount (by decide)

end Scriptlet.Grammar
