import Scriptlet.Proofs.Grammar.ReadBack

/-!
# Listings of programs

A listing identifies its program: two programs without floats that are read without an error are
listed alike only if they are alike in everything but the lines of their tokens.
-/

namespace Scriptlet

open Source Grammar Text

namespace Stmt

variable {program program' : List Stmt}

theorem programText_eq (program : List Stmt) :
    programText program = "\n".intercalate ((program.map sexp).map Sexp.render) := by
  rw [programText, List.map_map]
  rfl

theorem map_sexp_renumber (f : Nat → Nat) (program : List Stmt) :
    (program.map (renumber f)).map sexp = program.map sexp := by
  simp [Function.comp_def]

theorem programText_inj (h : ∀ s ∈ program, s.All Expr.Legible Legible)
    (h' : ∀ s ∈ program', s.All Expr.Legible Legible)
    (htext : programText program = programText program') :
    program.map (renumber fun _ => 0) = program'.map (renumber fun _ => 0) := by
  have hread : ∀ p : List Stmt, (∀ s ∈ p, s.All Expr.Legible Legible) →
      (p.map sexp).map ofSexp = p.map (renumber fun _ => 0) := by
    intro p hp
    rw [List.map_map]
    exact List.map_congr_left fun s hs => ofSexp_sexp (hp s hs)
  rw [programText_eq, programText_eq] at htext
  have hforms := Sexp.lines_inj (List.forall_mem_map.mpr fun s hs => isPlain_sexp (h s hs))
    (List.forall_mem_map.mpr fun s hs => isPlain_sexp (h' s hs)) htext
  rw [← hread program h, ← hread program' h', hforms]

end Stmt

namespace Grammar

open Stmt

/-- Of two texts that are read without an error and without floats, the programs are listed alike if
and only if they are the same up to the lines of their tokens. -/
theorem programText_eq_iff {source source' : String}
    (hclean : (parse (lex source).tokens).errors = [])
    (hclean' : (parse (lex source').tokens).errors = [])
    (hfloat : ∀ s ∈ (parse (lex source).tokens).statements, s.FloatFree)
    (hfloat' : ∀ s ∈ (parse (lex source').tokens).statements, s.FloatFree) :
    programText (parse (lex source).tokens).statements =
        programText (parse (lex source').tokens).statements ↔
      (parse (lex source).tokens).statements.map (renumber fun _ => 0) =
        (parse (lex source').tokens).statements.map (renumber fun _ => 0) := by
  constructor
  · exact programText_inj (fun s hs => legible_of_mem_parse hclean hs (hfloat s hs))
      fun s hs => legible_of_mem_parse hclean' hs (hfloat' s hs)
  · intro h
    have hforms := congrArg (List.map sexp) h
    rw [map_sexp_renumber, map_sexp_renumber] at hforms
    rw [programText_eq, programText_eq, hforms]

/-- The two texts write a quote in different ways and stand on different lines. -/
theorem programText_eq_iff_quotes :
    let source := "puts \"(x) '\", 1"
    let source' := "\nputs '(x) \\'', 1 # one"
    let program (line : Nat) : List Stmt :=
      [.print ⟨.kwPuts, "puts", none, line⟩ [.literal (.str "(x) '"), .literal (.int 1)] true]
    parse (lex source).tokens = ⟨program 1, []⟩ ∧ parse (lex source').tokens = ⟨program 2, []⟩ ∧
      (∀ line, ∀ s ∈ program line, s.FloatFree) ∧
      (programText (program 1) = programText (program 2) ↔
        (program 1).map (renumber fun _ => 0) = (program 2).map (renumber fun _ => 0)) := by
  intro source source' program
  have hlexed : (lex source).tokens = [⟨.kwPuts, "puts", none, 1⟩,
      ⟨.string, "\"(x) '\"", some (.str "(x) '"), 1⟩, ⟨.comma, ",", none, 1⟩,
      ⟨.integer, "1", some (.int 1), 1⟩, .eof 1] := by
    rw [lex_eq]
    decide +kernel
  have hlexed' : (lex source').tokens = [⟨.newline, "\n", none, 1⟩, ⟨.kwPuts, "puts", none, 2⟩,
      ⟨.string, "'(x) \\''", some (.str "(x) '"), 2⟩, ⟨.comma, ",", none, 2⟩,
      ⟨.integer, "1", some (.int 1), 2⟩, .eof 2] := by
    rw [lex_eq]
    decide +kernel
  have hparse : parse (lex source).tokens = ⟨program 1, []⟩ := by
    rw [hlexed]
    rfl
  have hparse' : parse (lex source').tokens = ⟨program 2, []⟩ := by
    rw [hlexed']
    rfl
  have hfloat : ∀ line, ∀ s ∈ program line, s.FloatFree := by
    intro line s hs
    rw [List.mem_singleton.mp hs]
    have hleaf : ∀ value : Literal, (∀ x, value ≠ .float x) →
        (Expr.literal value).All Expr.NotFloat := fun value hvalue =>
      .intro (by simpa [Expr.NotFloat] using hvalue) (List.forall_mem_nil _)
    have hvalues : ∀ e ∈ [Expr.literal (.str "(x) '"), .literal (.int 1)],
        e.All Expr.NotFloat := by
      simp [hleaf]
    exact .intro trivial hvalues (List.forall_mem_nil _)
  have hiff := programText_eq_iff (by rw [hparse]) (by rw [hparse'])
    (by rw [hparse]; exact hfloat 1)
    (by rw [hparse']; exact hfloat 2)
  rw [hparse, hparse'] at hiff
  exact ⟨hparse, hparse', hfloat, hiff⟩

end Grammar

end Scriptlet
