import Scriptlet.Proofs.Machine.Alike
import Scriptlet.Proofs.Session.Compile
import Scriptlet.Session.Basic

/-!
# Running a text in parts

A session that runs one text and then another ends as if it had run both as one text, apart from
the line numbers of what stands in the second.  Line numbers are compiled into the program, so two
machines are compared: they are alike, but functions made by the second text differ in their lines.
-/

namespace Scriptlet

def Likeness.moved (first k : Nat) : Likeness where
  closure f f' := f' = f ∨ first ≤ f.id ∧ f' = f.renumber (· + k)
  line g := g = id ∨ g = (· + k)
  of_closure := by
    rintro f f' (rfl | ⟨-, rfl⟩)
    · exact ⟨id, .inl rfl, by rw [renumber_closure_id, id]⟩
    · exact ⟨(· + k), .inr rfl, rfl⟩

theorem Likeness.isReflexive_moved (first k : Nat) : (Likeness.moved first k).IsReflexive :=
  ⟨fun _ => .inl rfl, .inl rfl⟩

theorem Machine.alike_moved (m : Machine) (k : Nat) :
    Machine.Alike (.moved m.store.closures k) m m where
  store := .refl (Value.alike_refl (Likeness.isReflexive_moved _ k)) m.store
  env_eq := rfl
  depth_eq := rfl
  deepest_eq := rfl
  output_eq := rfl
  moment_eq := rfl
  later f g hf := by
    rintro (rfl | rfl)
    · exact .inl (by rw [renumber_closure_id, id])
    · exact .inr ⟨hf, rfl⟩

/-! ## Programs -/

namespace Run

variable {settings : Settings} {fuel : Nat} {before : List Stmt} {m m₁ : Machine}

/-- A program that is run to its end is followed by the next one. -/
theorem interpret_append (h : interpret settings fuel before m = .ok () m₁)
    (hreturn : ∀ v m', executeAll (execute settings fuel) before m ≠ .ok (.returned v) m')
    (after : List Stmt) :
    interpret settings fuel (before ++ after) m = interpret settings fuel after m₁ := by
  induction before generalizing m with
  | nil =>
      cases h
      rfl
  | cons s before ih =>
      simp only [List.cons_append, interpret, interpretWith, executeAll, Bind.bind, EStateM.bind]
        at h hreturn ⊢
      cases hs : execute settings fuel s m with
      | error halt m' => simp [hs] at h
      | ok flow m' =>
          simp only [hs] at h hreturn ⊢
          cases flow with
          | normal => exact ih h hreturn
          | broke line => cases h
          | next line => cases h
          | returned v => exact absurd rfl (hreturn v m')

end Run

/-! ## Sessions -/

namespace Session

/-- Runs that end in the same way: if with an error, then with the same failure. -/
inductive EndsAlike (L : Likeness) : Except RunError Unit → Except RunError Unit → Prop where
  | ok : EndsAlike L (.ok ()) (.ok ())
  | runtime {g : Nat → Nat} (failure : Failure) (line : Nat) (hg : L.line g) :
      EndsAlike L (.error (.runtime ⟨failure, line⟩)) (.error (.runtime ⟨failure, g line⟩))
  | outOfFuel : EndsAlike L (.error .outOfFuel) (.error .outOfFuel)

variable {s : Session} {fuel : Nat} {source later : String} {program rest : List Stmt}

def finish (s : Session) : EStateM.Result Halt Machine Unit → Except RunError Unit × Session
  | .ok _ m => (.ok (), { s with machine := m })
  | .error (.failed e) m => (.error (.runtime e), { s with machine := m })
  | .error .outOfFuel m => (.error .outOfFuel, { s with machine := m })

theorem runWith_of_compile (h : compile s.queueConfig source = .ok program) (fuel : Nat) :
    s.runWith fuel source = s.finish (Run.interpret s.settings fuel program s.machine) := by
  simp only [runWith, h]
  rcases Run.interpret s.settings fuel program s.machine with ⟨_, m⟩ | ⟨_ | e, m⟩ <;> rfl

theorem machine_of_ok {r : EStateM.Result Halt Machine Unit} (h : (s.finish r).1 = .ok ()) :
    r = .ok () (s.finish r).2.machine := by
  rcases r with ⟨_, m⟩ | ⟨_ | e, m⟩
  · rfl
  · cases h
  · cases h

theorem finish_alike {L : Likeness} {r r' : EStateM.Result Halt Machine Unit} (s s' : Session)
    (h : Run.EndsAlike L r r') :
    EndsAlike L (s.finish r).1 (s'.finish r').1 ∧
      Machine.Alike L (s.finish r).2.machine (s'.finish r').2.machine := by
  cases h with
  | ok _ hm => exact ⟨.ok, hm⟩
  | outOfFuel hm => exact ⟨.outOfFuel, hm⟩
  | failed failure line hg hm => exact ⟨.runtime failure line hg, hm⟩

/-- Running two texts one after the other is running them as one text, if both are programs, the
first ends its last line and is run to its end, and the host looks at no line number: the same is
printed, the runs end in the same way, and the same global names are bound to values that are
alike. -/
theorem runWith_append (hhost : s.settings.IgnoresLines)
    (hline : source.toList.getLast? = some '\n')
    (hsource : compile s.queueConfig source = .ok program)
    (hlater : compile s.queueConfig later = .ok rest)
    (hok : (s.runWith fuel source).1 = .ok ())
    (hreturn : ∀ v m, Run.executeAll (Run.execute s.settings fuel) program s.machine ≠
      .ok (.returned v) m) :
    let k := Source.newlines source.toList
    let first := (s.runWith fuel source).2
    let parts := first.runWith fuel later
    let whole := s.runWith fuel (source ++ later)
    let L := Likeness.moved first.machine.store.closures k
    compile s.queueConfig (source ++ later) = .ok (program ++ rest.map (Stmt.renumber (· + k))) ∧
      EndsAlike L parts.1 whole.1 ∧
      whole.2.machine.output = parts.2.machine.output ∧
      (∀ name, Option.Rel (Value.Alike L) (parts.2.machine.global? name)
        (whole.2.machine.global? name)) ∧
      Machine.Alike L parts.2.machine whole.2.machine := by
  intro k first parts whole L
  have hwhole := compile_append hline hsource hlater
  have hfirst : first = (s.finish (Run.interpret s.settings fuel program s.machine)).2 := by
    rw [← runWith_of_compile hsource]
  have hinterpret : Run.interpret s.settings fuel program s.machine = .ok () first.machine := by
    rw [runWith_of_compile hsource] at hok
    rw [hfirst]
    exact machine_of_ok hok
  have hparts : parts = first.finish (Run.interpret s.settings fuel rest first.machine) := by
    rw [hinterpret] at hfirst
    have hsettings : first.settings = s.settings := by rw [hfirst]; rfl
    have hconfig : first.queueConfig = s.queueConfig := by rw [hfirst]; rfl
    rw [← hsettings]
    exact runWith_of_compile (hconfig ▸ hlater) fuel
  have halike : Run.EndsAlike L (Run.interpret s.settings fuel rest first.machine)
      (Run.interpret s.settings fuel (program ++ rest.map (Stmt.renumber (· + k))) s.machine) := by
    rw [Run.interpret_append hinterpret hreturn]
    have hmoved : L.line (· + k) := Or.inr rfl
    exact (Run.Alike.simulation hhost).interpret fuel hmoved rest _ _
      (first.machine.alike_moved k)
  obtain ⟨hends, hmachine⟩ := finish_alike first s halike
  rw [← hparts, ← runWith_of_compile hwhole] at hends hmachine
  exact ⟨hwhole, hends, hmachine.output_eq, hmachine.global?, hmachine⟩

/-- The second text defines a function that fails, and calls it. -/
theorem runWith_append_inside_call :
    let s : Session := ⟨.packing 9, .standard, .initial⟩
    let program : List Stmt := [.expr (.assign ⟨.identifier, "x", none, 1⟩
      ⟨.equal, "=", none, 1⟩ (.literal (.int 1)))]
    let rest : List Stmt := [
      .define ⟨.identifier, "f", none, 1⟩ [] [.expr (.binary (.var ⟨.identifier, "x", none, 1⟩)
        ⟨.plus, "+", none, 1⟩ (.var ⟨.identifier, "y", none, 1⟩))],
      .expr (.call (.var ⟨.identifier, "f", none, 2⟩) ⟨.rightParen, ")", none, 2⟩ [])]
    let first := (s.runWith 9 "x = 1\n").2
    let parts := first.runWith 9 "def f() x + y end\nf()\n"
    let whole := s.runWith 9 ("x = 1\n" ++ "def f() x + y end\nf()\n")
    compile s.queueConfig "x = 1\n" = .ok program ∧
      compile s.queueConfig "def f() x + y end\nf()\n" = .ok rest ∧
      (s.runWith 9 "x = 1\n").1 = .ok () ∧
      (∀ v m, Run.executeAll (Run.execute s.settings 9) program s.machine ≠ .ok (.returned v) m) ∧
      compile s.queueConfig ("x = 1\n" ++ "def f() x + y end\nf()\n") =
        .ok (program ++ rest.map (Stmt.renumber (· + 1))) ∧
      EndsAlike (.moved first.machine.store.closures 1) parts.1 whole.1 ∧
      whole.2.machine.output = parts.2.machine.output := by
  intro s program rest first parts whole
  have hlexed : Source.lex "x = 1\n" = ⟨[⟨.identifier, "x", none, 1⟩, ⟨.equal, "=", none, 1⟩,
      ⟨.integer, "1", some (.int 1), 1⟩, ⟨.newline, "\n", none, 1⟩, .eof 2], []⟩ := by
    rw [Source.lex_eq]
    decide +kernel
  have hlexedLater : Source.lex "def f() x + y end\nf()\n" = ⟨[⟨.kwDef, "def", none, 1⟩,
      ⟨.identifier, "f", none, 1⟩, ⟨.leftParen, "(", none, 1⟩, ⟨.rightParen, ")", none, 1⟩,
      ⟨.identifier, "x", none, 1⟩, ⟨.plus, "+", none, 1⟩, ⟨.identifier, "y", none, 1⟩,
      ⟨.kwEnd, "end", none, 1⟩, ⟨.newline, "\n", none, 1⟩, ⟨.identifier, "f", none, 2⟩,
      ⟨.leftParen, "(", none, 2⟩, ⟨.rightParen, ")", none, 2⟩, ⟨.newline, "\n", none, 2⟩,
      .eof 3], []⟩ := by
    rw [Source.lex_eq]
    decide +kernel
  have hsource : compile s.queueConfig "x = 1\n" = .ok program := by
    rw [compile_eq_ok_iff, hlexed]
    exact ⟨rfl, rfl⟩
  have hlater : compile s.queueConfig "def f() x + y end\nf()\n" = .ok rest := by
    rw [compile_eq_ok_iff, hlexedLater]
    exact ⟨rfl, rfl⟩
  have hok : (s.runWith 9 "x = 1\n").1 = .ok () := by
    rw [runWith_of_compile (s := s) hsource]
    rfl
  have hreturn : ∀ v m, Run.executeAll (Run.execute s.settings 9) program s.machine ≠
      .ok (.returned v) m := by
    have hrun : ∃ m, Run.executeAll (Run.execute s.settings 9) program s.machine = .ok .normal m :=
      ⟨_, rfl⟩
    intro v m h
    obtain ⟨m', hnormal⟩ := hrun
    rw [hnormal] at h
    cases h
  obtain ⟨hwhole, hends, houtput, -⟩ := runWith_append (s := s)
    (Settings.ignoresLines_packing 9) rfl hsource hlater hok hreturn
  exact ⟨hsource, hlater, hok, hreturn, hwhole, hends, houtput⟩

end Session

end Scriptlet
