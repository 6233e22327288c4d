import Scriptlet.Proofs.Grammar.Shape
import Scriptlet.Proofs.Machine.Bodies
import Scriptlet.Proofs.Machine.Checked
import Scriptlet.Proofs.Machine.Start
import Scriptlet.Proofs.Session.Regime

/-!
# The machine can run what is read

All trees that a machine ever comes to have been read from a text, also those that are kept in
functions from one run to the next.  So no run fails for want of an operator.
-/

namespace Scriptlet

theorem Expr.HasShape.hasOperator {e : Expr} (h : e.HasShape) : e.HasOperator := by
  cases e with
  | unary | binary | assign => exact h
  | _ => trivial

namespace Regime

/-- The rules by which only trees of a proper shape are run. -/
def wellShaped : Regime :=
  ofBodies (fun _ => True) (fun body => ∀ s ∈ body, s.WellShaped) fun halt =>
    ∀ op line, halt ≠ .failed ⟨.unsupportedOperator op, line⟩

theorem lawful_wellShaped : wellShaped.Lawful := by
  refine lawful_ofBodies (fun failure line hfailure op line' heq => ?_)
    fun body s e _ _ hout op line heq => ?_
  · cases heq
    cases hfailure
  · cases heq
    rcases hout.failure_eq with hfailure | hfailure <;> cases hfailure

/-- Programs of a proper shape never stop at an operator, in plain runs nor in checked ones. -/
theorem safe_wellShaped {settings : Settings} (hhost : settings.HandsBack)
    (hfails : settings.FailsByValue) {eval : Nat → Expr → Run Value} {exec : Nat → Stmt → Run Flow}
    (hunroll : Run.Unrolls settings Stmt.HasShape eval exec) (fuel : Nat) {program : List Stmt}
    (hprogram : ∀ s ∈ program, s.WellShaped) (depth : Nat) (st : Store) :
    wellShaped.Safe depth st (Run.interpretWith (exec fuel) program) Any := by
  have hrun := (lawful_wellShaped.unrolled (lawful_wellShaped.hosts hhost hfails)
    (p := Expr.HasShape) hunroll (fun _ hbody => hbody) (fun _ _ _ _ hbody => hbody)
    (fun _ _ _ _ => trivial) (fun e he hno => absurd he.hasOperator hno) nofun fuel).2
  exact lawful_wellShaped.interpretWith hprogram (hunroll.jumps fuel) fun s hs =>
    hrun depth st s (hprogram s hs)

theorem wellShaped_of_compile {config : Diagnostic.QueueConfig} {source : String}
    {program : List Stmt} (h : compile config source = .ok program) :
    ∀ s ∈ program, s.WellShaped := by
  obtain ⟨-, hparse⟩ := compile_eq_ok_iff.mp h
  intro s hs
  have hread : s ∈ (Grammar.parse (Source.lex source).tokens).statements := by
    rw [hparse]
    exact hs
  exact Grammar.wellShaped_of_mem_parse hread

theorem safeTexts_wellShaped {settings : Settings} (hhost : settings.HandsBack)
    (hfails : settings.FailsByValue) : wellShaped.SafeTexts settings :=
  fun _ _ _ hcompile fuel => safe_wellShaped hhost hfails
    (Run.unrolls_execute settings Stmt.HasShape) fuel (wellShaped_of_compile hcompile)

theorem rests_wellShaped {globals : List (String × Value)}
    (h : ∀ b ∈ globals, ∀ f, ¬b.2.Holds f) :
    wellShaped.Rests (Machine.initial.withGlobals globals) where
  store :=
    { fresh := fun _ _ => trivial
      parent := fun _ _ _ _ => trivial
      bound := by
        intro id name v f _ hget hf
        obtain ⟨b, hb, rfl⟩ := Machine.mem_of_get?_withGlobals hget
        exact absurd hf (h b hb f) }
  stand := trivial

end Regime

theorem Stmt.HasShape.inStep {s : Stmt} (h : s.HasShape) : s.inStep := by
  cases s with
  | ifDo | caseDo | assign => exact beq_iff_eq.mpr h.2
  | _ => rfl

theorem Stmt.WellShaped.zipsWhole {s : Stmt} (h : s.WellShaped) :
    s.All (fun _ => True) Stmt.ZipsWhole :=
  h.imp (fun _ _ => trivial) fun _ hshape => Stmt.zipsWhole_of_inStep hshape.inStep

/-- Whatever is read has a shape that fits the machine, at every depth: there are as many branches
as conditions, and as many values as names, so that all of them are zipped whole; and all operators
are those of their nodes.  In a session in which the host binds no functions of the language, and
neither hands back others than it is handed nor fails over an operator itself, no run ever meets an
operator that it cannot apply, and none passes over a branch or a value. -/
theorem shapes_fit (settings : Settings) (config : Diagnostic.QueueConfig)
    (globals : List (String × Value)) (hglobals : ∀ b ∈ globals, ∀ f, ¬b.2.Holds f) :
    (∀ tokens, ∀ s ∈ (Grammar.parse tokens).statements,
      s.WellShaped ∧ s.All (fun _ => True) Stmt.ZipsWhole) ∧
    (settings.HandsBack → settings.FailsByValue → ∀ (runs : List (Nat × String)),
      let s := Session.runAll ⟨settings, config, Machine.initial.withGlobals globals⟩ runs
      (∀ fuel source op line,
        (s.runWith fuel source).1 ≠ .error (.runtime ⟨.unsupportedOperator op, line⟩)) ∧
      ∀ source program, compile config source = .ok program → ∀ fuel,
        Run.interpretWith (Run.executeChecked settings fuel) program s.machine =
          Run.interpret settings fuel program s.machine) := by
  refine ⟨fun tokens s hs => ?_, fun hhost hfails runs => ?_⟩
  · have hshape := Grammar.wellShaped_of_mem_parse hs
    exact ⟨hshape, hshape.zipsWhole⟩
  · let start : Session := ⟨settings, config, Machine.initial.withGlobals globals⟩
    have hsafe := Regime.safeTexts_wellShaped hhost hfails
    have hruns := Regime.lawful_wellShaped.runAll (s := start) hsafe
      (Regime.rests_wellShaped hglobals) runs
    constructor
    · intro fuel source op line hfailed
      have hlast := Regime.lawful_wellShaped.runWith
        (by rw [Session.settings_runAll]; exact hsafe) hruns.rests fuel source
      exact hlast.2 _ hfailed op line rfl
    · intro source program hcompile fuel
      have hchecked := Regime.safe_wellShaped hhost hfails
        (Run.unrolls_executeChecked settings fun _ => Stmt.HasShape.inStep) fuel
        (Regime.wellShaped_of_compile hcompile)
      refine Run.interpret_eq_of_checked fun m' hmisfit => ?_
      have hlands := hchecked _ _ (start.runAll runs).machine
        ⟨rfl, Regime.lawful_wellShaped.onward_refl _, hruns.rests.store, hruns.rests.stand⟩
      rw [hmisfit] at hlands
      exact hlands.2 _ _ rfl

/-- A function from one text is called in the next, on what comes back from the host.  It assigns to
two names and comes to the second of three branches. -/
theorem shapes_fit_between_runs :
    let globals : List (String × Value) := [("pack", .host ⟨"pack", 1, .custom 0⟩)]
    let start : Session := ⟨.packing 9, .standard, Machine.initial.withGlobals globals⟩
    let source :=
      "def f(x)\n  a, b = x, 2\n  if b > 2 then a elsif b > 1 then b ** b else a end\nend\n"
    (∀ b ∈ globals, ∀ f, ¬b.2.Holds f) ∧
      (∀ s ∈ (Grammar.parse (Source.lex source).tokens).statements,
        s.WellShaped ∧ s.All (fun _ => True) Stmt.ZipsWhole) ∧
      (∀ op line, ((start.runAll [(9, source)]).runWith 9 "f(pack(f))\n").1 ≠
        .error (.runtime ⟨.unsupportedOperator op, line⟩)) ∧
      ∃ program, compile .standard "f(pack(f))\n" = .ok program ∧
        Run.interpretWith (Run.executeChecked (.packing 9) 9) program
            (start.runAll [(9, source)]).machine =
          Run.interpret (.packing 9) 9 program (start.runAll [(9, source)]).machine := by
  intro globals start source
  have hglobals : ∀ b ∈ globals, ∀ f, ¬b.2.Holds f := by
    simp only [globals, List.forall_mem_singleton]
    rintro f ⟨⟩
  have hfit := shapes_fit (.packing 9) .standard globals hglobals
  have hruns := hfit.2 (Settings.handsBack_packing 9) (Settings.failsByValue_packing 9)
    [(9, source)]
  have hlexed : Source.lex "f(pack(f))\n" = ⟨[⟨.identifier, "f", none, 1⟩,
      ⟨.leftParen, "(", none, 1⟩, ⟨.identifier, "pack", none, 1⟩, ⟨.leftParen, "(", none, 1⟩,
      ⟨.identifier, "f", none, 1⟩, ⟨.rightParen, ")", none, 1⟩, ⟨.rightParen, ")", none, 1⟩,
      ⟨.newline, "\n", none, 1⟩, .eof 2], []⟩ := by
    rw [Source.lex_eq]
    decide +kernel
  have hcompile : compile .standard "f(pack(f))\n" = .ok
      [.expr (.call (.var ⟨.identifier, "f", none, 1⟩) ⟨.rightParen, ")", none, 1⟩
        [.call (.var ⟨.identifier, "pack", none, 1⟩) ⟨.rightParen, ")", none, 1⟩
          [.var ⟨.identifier, "f", none, 1⟩]])] := by
    rw [compile_eq_ok_iff, hlexed]
    exact ⟨rfl, rfl⟩
  exact ⟨hglobals, hfit.1 _, hruns.1 9 "f(pack(f))\n", _, hcompile, hruns.2 _ _ hcompile 9⟩

end Scriptlet
