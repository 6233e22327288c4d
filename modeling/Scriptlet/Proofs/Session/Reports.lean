import Scriptlet.Proofs.Diagnostic.Repetition
import Scriptlet.Proofs.Session.Compile
import Scriptlet.Proofs.Source.Lines

/-!
# Repetitions in reports

Faults of the text are found line by line, and what is said of them is said of nothing else.  Syntax
errors are not: the target of an assignment is judged after the value, which may end on a later
line.  So a report may say the same about one line twice, and it does exactly where a syntax error
comes back to a line after one for another line was reported.
-/

namespace Scriptlet

open Source Grammar Diagnostic

/-! ## Messages -/

private theorem head?_append_of_head? {s t : String} {c : Char} (h : s.toList.head? = some c) :
    (s ++ t).toList.head? = some c := by
  rw [String.toList_append, List.head?_append, h]
  rfl

theorem Source.Fault.message_cases (f : Fault) :
    f.message = "Invalid identifier." ∨ f.message.toList.head? ∈ [some 'U', some 'N'] := by
  cases f with
  | unexpectedCharacter c =>
      refine .inr (List.mem_cons.mpr (.inl ?_))
      exact head?_append_of_head? (head?_append_of_head? (by decide +kernel))
  | invalidIdentifier => exact .inl rfl
  | unterminatedString | unterminatedBlockComment | numberOutOfRange =>
      exact .inr (by decide +kernel)

theorem Grammar.Cause.message_cases (c : Cause) :
    c.message = "Invalid assignment target." ∨
      c.message.toList.head? ∈ [some 'E', some 'C', some 'o'] := by
  cases c with
  | assignmentTarget => exact .inl rfl
  | valueCount | endAfter =>
      refine .inr (List.mem_cons.mpr (.inl ?_))
      exact head?_append_of_head? (head?_append_of_head? (by decide +kernel))
  | unclosed =>
      refine .inr (List.mem_cons.mpr (.inl ?_))
      exact head?_append_of_head? (head?_append_of_head? (head?_append_of_head?
        (head?_append_of_head? (head?_append_of_head? (head?_append_of_head?
          (by decide +kernel))))))
  | _ => exact .inr (by decide +kernel)

theorem Source.Fault.message_ne (f : Fault) (c : Cause) : f.message ≠ c.message := by
  intro h
  rcases f.message_cases with hf | hf <;> rcases c.message_cases with hc | hc
  · rw [hf, hc] at h
    exact absurd h (by decide +kernel)
  · rw [← h, hf] at hc
    exact absurd hc (by decide +kernel)
  · rw [h, hc] at hf
    exact absurd hf (by decide +kernel)
  · rw [h] at hf
    simp only [List.mem_cons, List.not_mem_nil, or_false] at hf hc
    rcases hf with hf | hf <;> rw [hf] at hc <;> simp at hc

/-! ## Reports -/

namespace SourceUnit

def lexical (u : SourceUnit) : List Diagnostic :=
  u.lexed.errors.map Diagnostic.ofLexError

def syntactic (u : SourceUnit) : List Diagnostic :=
  u.parsed.errors.map Grammar.SyntaxError.diagnostic

variable {source : String} {before after : List Diagnostic} {d : Diagnostic}

theorem not_repeats {u : SourceUnit} {e : Diagnostic} (he : e ∈ u.lexical)
    (hd : d ∈ u.syntactic) : ¬e.repeats d := by
  obtain ⟨f, -, rfl⟩ := List.mem_map.mp he
  obtain ⟨c, -, rfl⟩ := List.mem_map.mp hd
  intro h
  exact f.fault.message_ne c.cause (repeats_iff.mp h).2

theorem pairwise_line_lexical (source : String) :
    (ofSource source).lexical.Pairwise fun d e => d.line ≤ e.line :=
  List.pairwise_map.mpr (pairwise_line_errors source)

theorem not_recurs_lexical (h : (ofSource source).lexical = before ++ d :: after) :
    ¬Recurs before d := by
  have hsorted := pairwise_line_lexical source
  rw [h, List.append_cons] at hsorted
  exact not_recurs_of_sorted (hsorted.sublist (List.sublist_append_left _ _))

theorem recurs_lexical_append_iff {u : SourceUnit} (hd : d ∈ u.syntactic) :
    Recurs (u.lexical ++ before) d ↔ Recurs before d := by
  refine ⟨?_, fun h => h.mono (List.sublist_append_right _ _)⟩
  rintro ⟨e, other, hpair, hrepeats, hother⟩
  have he : e ∉ u.lexical := fun he => not_repeats he hd hrepeats
  obtain ⟨front, back, hsplit, hfront, hback⟩ := List.sublist_append_iff.mp hpair
  cases front with
  | nil => exact ⟨e, other, by rwa [hsplit], hrepeats, hother⟩
  | cons f front =>
      obtain ⟨rfl, -⟩ := List.cons.inj hsplit
      exact absurd (hfront.subset List.mem_cons_self) he

end SourceUnit

variable {config : QueueConfig} {source : String} {e : CompileErrors}

/-- A report that leaves out repetitions holds one exactly if a syntax error comes back, while there
is room, to a line that was left for another: what it says had been said of its line before a syntax
error on another line. -/
theorem noRepetition_diagnostics_iff (hdeduplicate : config.deduplicate = true)
    (h : compile config source = .error e) :
    NoRepetition e.diagnostics ↔
      ∀ before d after, (SourceUnit.ofSource source).syntactic = before ++ d :: after →
        Recurs before d → ((Queue.empty config).extend
          ((SourceUnit.ofSource source).lexical ++ before)).isFull := by
  obtain ⟨-, rfl⟩ := compile_eq_error_iff.mp h
  have hall : (SourceUnit.ofSource source).diagnostics =
      (SourceUnit.ofSource source).lexical ++ (SourceUnit.ofSource source).syntactic := rfl
  rw [Queue.noRepetition_toList_iff hdeduplicate, hall]
  constructor
  · intro hfull before d after hreported hrecurs
    refine hfull _ d after (by rw [hreported, List.append_assoc]) ?_
    exact hrecurs.mono (List.sublist_append_right _ _)
  · intro hfull before d after hsplit hrecurs
    rcases List.append_eq_append_iff.mp hsplit with ⟨later, rfl, hreported⟩ | ⟨rest, hlexed, hrest⟩
    · have hd : d ∈ (SourceUnit.ofSource source).syntactic := by simp [hreported]
      exact hfull later d after hreported ((SourceUnit.recurs_lexical_append_iff hd).mp hrecurs)
    · cases rest with
      | nil =>
          -- the first syntax error
          rw [List.nil_append] at hrest
          have hd : d ∈ (SourceUnit.ofSource source).syntactic := by
            rw [← hrest]
            exact List.mem_cons_self
          rw [List.append_nil] at hlexed
          rw [← hlexed, ← List.append_nil (SourceUnit.lexical _),
            SourceUnit.recurs_lexical_append_iff hd] at hrecurs
          obtain ⟨_, _, hnone, -⟩ := hrecurs
          cases hnone
      | cons d' rest =>
          obtain ⟨rfl, -⟩ := List.cons.inj hrest
          exact absurd hrecurs (SourceUnit.not_recurs_lexical hlexed)

def returningTargets : String :=
  "1 = \"\n\" = 2; 3 = 4"

private theorem diagnostics_returningTargets :
    (SourceUnit.ofSource returningTargets).diagnostics =
      [⟨2, .lexeme "=", "Invalid assignment target."⟩,
        ⟨1, .lexeme "=", "Invalid assignment target."⟩,
        ⟨2, .lexeme "=", "Invalid assignment target."⟩] := by
  rw [SourceUnit.ofSource_eq]
  decide +kernel

private theorem compile_returningTargets (config : QueueConfig) :
    compile config returningTargets = .error
      ⟨((Queue.empty config).extend (SourceUnit.ofSource returningTargets).diagnostics).toList,
        ((Queue.empty config).extend (SourceUnit.ofSource returningTargets).diagnostics).dropped⟩ :=
  compile_eq_error_iff.mpr ⟨by rw [diagnostics_returningTargets]; exact List.cons_ne_nil _ _, rfl⟩

/-- Room for two leaves none for the repetition. -/
theorem isFull_before_repetition :
    ∃ e, compile ⟨2, true⟩ returningTargets = .error e ∧ NoRepetition e.diagnostics ∧
      ((Queue.empty ⟨2, true⟩).extend ((SourceUnit.ofSource returningTargets).lexical ++
        (SourceUnit.ofSource returningTargets).syntactic.take 2)).isFull := by
  have hcompile := compile_returningTargets ⟨2, true⟩
  have hnone : NoRepetition ((Queue.empty ⟨2, true⟩).extend
      (SourceUnit.ofSource returningTargets).diagnostics).toList := by
    rw [diagnostics_returningTargets]
    unfold NoRepetition
    decide +kernel
  have hreported : (SourceUnit.ofSource returningTargets).syntactic =
      (SourceUnit.ofSource returningTargets).syntactic.take 2 ++
        [⟨2, .lexeme "=", "Invalid assignment target."⟩] := by
    rw [SourceUnit.ofSource_eq]
    decide +kernel
  have hrecurs : Recurs ((SourceUnit.ofSource returningTargets).syntactic.take 2)
      ⟨2, .lexeme "=", "Invalid assignment target."⟩ :=
    ⟨⟨2, .lexeme "=", "Invalid assignment target."⟩, ⟨1, .lexeme "=", "Invalid assignment target."⟩,
      by rw [SourceUnit.ofSource_eq]; decide +kernel, rfl, by decide⟩
  exact ⟨_, hcompile, hnone,
    (noRepetition_diagnostics_iff rfl hcompile).mp hnone _ _ [] hreported hrecurs⟩

theorem not_forall_noRepetition :
    ¬∀ (config : QueueConfig) (source : String) (e : CompileErrors), config.deduplicate = true →
      compile config source = .error e → NoRepetition e.diagnostics := by
  intro hall
  have hnone := hall .standard returningTargets _ rfl (compile_returningTargets .standard)
  rw [diagnostics_returningTargets] at hnone
  unfold NoRepetition at hnone
  exact absurd hnone (by decide +kernel)

end Scriptlet
