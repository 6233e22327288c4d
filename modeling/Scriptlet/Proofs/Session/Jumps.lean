import Mathlib
import Scriptlet.Proofs.Machine.Balance
import Scriptlet.Proofs.Machine.Termination
import Scriptlet.Proofs.Session.Regime

/-!
# Jumps are caught by the loops around them

A run can fail over a `break` or `next` only if that stands outside of every loop of the program, or
of the function in which it is written.  Calling a function from inside a loop does not change this,
for no jump leaves the body of a function.
-/

namespace Scriptlet

open Stmt (Loose)

namespace Regime

def jumping (scopes : ScopeId → Prop) (allowed : RuntimeError → Prop) : Regime :=
  ofBodies scopes (fun body => ∀ t e, Loose body t → t.jumpError? = some e → allowed e) fun halt =>
    ∀ e, halt = .failed e → e.failure = .invalidBreak ∨ e.failure = .invalidNext → allowed e

variable {scopes : ScopeId → Prop} {allowed : RuntimeError → Prop} {settings : Settings}

theorem lawful_jumping : (jumping scopes allowed).Lawful := by
  refine lawful_ofBodies ?_ ?_
  · rintro failure line hfailure _ ⟨⟩ (rfl | rfl) <;> cases hfailure
  · rintro body s e hbody hs hout _ ⟨⟩ -
    obtain ⟨t, ht, he⟩ := Loose.of_letsOut hs hout
    exact hbody t e ht he

theorem safe_jumping (hhost : settings.HandsBack) (hfails : settings.FailsByValue)
    (fuel : Nat) {program : List Stmt}
    (hprogram : (jumping scopes allowed).body program) (depth : Nat) (st : Store) :
    (jumping scopes allowed).Safe depth st (Run.interpret settings fuel program) Any := by
  have hall : ∀ body, (jumping scopes allowed).body body → ∀ s ∈ body,
      s.All (fun _ => True) fun t => ∀ name params inner, t = .define name params inner →
        (jumping scopes allowed).body inner := by
    intro body hbody s hs
    refine Stmt.all_of_contains s ?_
    rintro around _ ht name params inner rfl u e hu he
    exact hbody u e (hu.of_define hs ht) he
  have hrun := (lawful_jumping.evaluate_execute (lawful_jumping.hosts hhost hfails) hall
    (fun name params body hnode _ => hnode name params body rfl) (fun _ _ _ _ => trivial)
    (fun _ _ _ _ _ _ heq hjump => by cases heq; rcases hjump with hjump | hjump <;> cases hjump)
    nofun fuel).2
  exact lawful_jumping.interpret fuel hprogram fun s hs => hrun depth st s (hall _ hprogram s hs)

end Regime

/-- Every `break` and every `next` stands in a loop. -/
def Stmt.AllEnclosed (program : List Stmt) : Prop :=
  ∀ keyword, ¬Loose program (.breakLoop keyword) ∧ ¬Loose program (.nextRound keyword)

theorem Stmt.eq_of_jumpError? {t : Stmt} {e : RuntimeError} (h : t.jumpError? = some e) :
    ∃ keyword, (t = .breakLoop keyword ∧ e = ⟨.invalidBreak, keyword.line⟩) ∨
      (t = .nextRound keyword ∧ e = ⟨.invalidNext, keyword.line⟩) := by
  unfold jumpError? at h
  split at h <;> cases h
  · exact ⟨_, .inl ⟨rfl, rfl⟩⟩
  · exact ⟨_, .inr ⟨rfl, rfl⟩⟩

/-- The errors of the jumps that stand loose in the program or in a function at hand. -/
def Machine.HasLoose (m : Machine) (program : List Stmt) (e : RuntimeError) : Prop :=
  ∃ t, t.jumpError? = some e ∧ (Loose program t ∨ ∃ f, m.Finds f ∧ Loose f.body t)

theorem hasLoose_of_interpret {settings : Settings} (hhost : settings.HandsBack)
    (hfails : settings.FailsByValue) {fuel : Nat} {program : List Stmt}
    {m m' : Machine} {e : RuntimeError}
    (h : Run.interpret settings fuel program m = .error (.failed e) m')
    (hjump : e.failure = .invalidBreak ∨ e.failure = .invalidNext) : m.HasLoose program e := by
  let rules := Regime.jumping (m.store.Allows m.here []) (m.HasLoose program)
  have hsafe : rules.Safe m.depth m.store (Run.interpret settings fuel program) Regime.Any :=
    Regime.safe_jumping hhost hfails fuel (fun t e ht he => ⟨t, he, .inl ht⟩) m.depth m.store
  have hlands := hsafe m
    ⟨rfl, trivial, Machine.closed_of_finds fun f hf t e ht he => ⟨t, he, .inr ⟨f, hf, ht⟩⟩,
      .inl .own⟩
  rw [h] at hlands
  exact hlands.2 e rfl hjump

theorem Stmt.AllEnclosed.not_jump {program : List Stmt} (h : AllEnclosed program) {t : Stmt}
    {e : RuntimeError} (ht : Loose program t) : t.jumpError? ≠ some e := by
  intro he
  obtain ⟨keyword, ⟨rfl, -⟩ | ⟨rfl, -⟩⟩ := eq_of_jumpError? he
  · exact (h keyword).1 ht
  · exact (h keyword).2 ht

theorem Stmt.allEnclosed_loop (keyword : Token) :
    AllEnclosed [.loopDo [.breakLoop keyword]] := by
  have hloop : ∀ t, Loose [.loopDo [.breakLoop keyword]] t →
      t = .loopDo [.breakLoop keyword] := by
    rintro t ⟨s, hs, around, ht, hopen⟩
    rw [List.mem_singleton] at hs
    subst hs
    cases ht with
    | self => rfl
    | inside hmem hinner =>
        cases List.mem_singleton.mp hmem
        cases hinner with
        | self => cases hopen
        | inside hnone _ => cases hnone
  exact fun _ => ⟨fun h => Stmt.noConfusion (hloop _ h), fun h => Stmt.noConfusion (hloop _ h)⟩

namespace Session

/-- In a session in which all jumps are enclosed no run fails over a jump. -/
theorem failure_ne_of_allEnclosed {s : Session} (hhost : s.settings.HandsBack)
    (hfails : s.settings.FailsByValue) {runs : List (Nat × String)} {source : String}
    (hfound : ∀ f, s.machine.Finds f → Stmt.AllEnclosed f.body)
    (htexts : ∀ text ∈ source :: runs.map Prod.snd, ∀ program,
      compile s.queueConfig text = .ok program → Stmt.AllEnclosed program)
    {fuel : Nat} {e : RuntimeError}
    (h : ((s.runAll runs).runWith fuel source).1 = .error (.runtime e)) :
    e.failure ≠ .invalidBreak ∧ e.failure ≠ .invalidNext := by
  let rules := Regime.jumping (s.machine.store.Allows s.machine.here []) fun _ => False
  have hsafe : ∀ text ∈ source :: runs.map Prod.snd,
      rules.SafeText s.settings s.queueConfig text := by
    intro text htext program hcompile fuel depth st
    exact Regime.safe_jumping hhost hfails fuel
      (fun t e ht he => (htexts text htext program hcompile).not_jump ht he) depth st
  have hrests : rules.Rests s.machine :=
    ⟨Machine.closed_of_finds fun f hf t e ht he => (hfound f hf).not_jump ht he, .inl .own⟩
  simp only [List.forall_mem_cons, List.forall_mem_map] at hsafe
  have hruns := Regime.lawful_jumping.runAll_texts hsafe.2 hrests
  have hlastSafe : rules.SafeText (s.runAll runs).settings (s.runAll runs).queueConfig source := by
    rw [s.settings_runAll, s.queueConfig_runAll]
    exact hsafe.1
  have hlast := Regime.lawful_jumping.runWith_text hlastSafe hruns.rests fuel
  have hnone := hlast.2 e h e rfl
  exact ⟨fun hbreak => hnone (.inl hbreak), fun hnext => hnone (.inr hnext)⟩

end Session

/-- Jumps are caught where the syntax says.  No loop ends in a jump, whatever machine it runs on.
If a program fails over a `break` or `next`, that keyword stands on the line that is reported and
is not enclosed, in the program or in a function that it can get hold of.  So a session in which
every `break` and `next` is enclosed never fails over one.  The host neither fails over a jump
itself nor hands back a function that it was not handed. -/
theorem jumps_caught (settings : Settings) (fuel : Nat) :
    (∀ s : Stmt, s.isLoop → ∀ m flow m', Run.execute settings fuel s m = .ok flow m' →
      ∀ line, flow ≠ .broke line ∧ flow ≠ .next line) ∧
    (settings.HandsBack → settings.FailsByValue →
      ∀ (program : List Stmt) (m m' : Machine) (line : Nat),
      (Run.interpret settings fuel program m = .error (.failed ⟨.invalidBreak, line⟩) m' →
        ∃ keyword, keyword.line = line ∧ (Loose program (.breakLoop keyword) ∨
          ∃ f, m.Finds f ∧ Loose f.body (.breakLoop keyword))) ∧
      (Run.interpret settings fuel program m = .error (.failed ⟨.invalidNext, line⟩) m' →
        ∃ keyword, keyword.line = line ∧ (Loose program (.nextRound keyword) ∨
          ∃ f, m.Finds f ∧ Loose f.body (.nextRound keyword)))) ∧
    ∀ (s : Session) (runs : List (Nat × String)) (source : String),
      s.settings.HandsBack → s.settings.FailsByValue →
      (∀ f, s.machine.Finds f → Stmt.AllEnclosed f.body) →
      (∀ text ∈ source :: runs.map Prod.snd, ∀ program,
        compile s.queueConfig text = .ok program → Stmt.AllEnclosed program) →
      ∀ line,
        ((s.runAll runs).runWith fuel source).1 ≠ .error (.runtime ⟨.invalidBreak, line⟩) ∧
        ((s.runAll runs).runWith fuel source).1 ≠ .error (.runtime ⟨.invalidNext, line⟩) := by
  refine ⟨fun s hloop m flow m' hrun => ?loops,
    fun hhost hfails program m m' line => ⟨?breaks, ?nexts⟩,
    fun s runs source hhost hfails hfound htexts line => ?sessions⟩
  case loops =>
    have hnone := Run.jumpError?_of_execute_loop hloop m flow m' hrun
    cases flow <;> simp [Flow.jumpError?] at hnone ⊢
  case breaks =>
    intro hrun
    obtain ⟨t, ht, hloose⟩ := hasLoose_of_interpret hhost hfails hrun (.inl rfl)
    obtain ⟨keyword, ⟨rfl, heq⟩ | ⟨-, heq⟩⟩ := Stmt.eq_of_jumpError? ht
    · cases heq
      exact ⟨keyword, rfl, hloose⟩
    · cases heq
  case nexts =>
    intro hrun
    obtain ⟨t, ht, hloose⟩ := hasLoose_of_interpret hhost hfails hrun (.inr rfl)
    obtain ⟨keyword, ⟨-, heq⟩ | ⟨rfl, heq⟩⟩ := Stmt.eq_of_jumpError? ht
    · cases heq
    · cases heq
      exact ⟨keyword, rfl, hloose⟩
  case sessions =>
    exact ⟨fun hfailed =>
      (Session.failure_ne_of_allEnclosed hhost hfails hfound htexts hfailed).1 rfl,
      fun hfailed => (Session.failure_ne_of_allEnclosed hhost hfails hfound htexts hfailed).2 rfl⟩

/-- A function that breaks out of no loop fails although it is called in one, on the line of its own
`break`; a session in which the loop itself has the `break` does not. -/
theorem jumps_caught_called_in_loop :
    let paren : Token := ⟨.rightParen, ")", none, 5⟩
    let f : Closure := ⟨0, "f", [], [.breakLoop ⟨.kwBreak, "break", none, 3⟩], 0⟩
    let machine := Machine.initial.withGlobals [("f", .closure f)]
    let calling : Stmt := .loopDo [.expr (.call (.var ⟨.identifier, "f", none, 5⟩) paren [])]
    let breaking : Stmt := .loopDo [.breakLoop ⟨.kwBreak, "break", none, 2⟩]
    let session : Session := ⟨.packing 9, .standard, .initial⟩
    (∃ m', Run.interpret (.packing 9) 9 [calling] machine =
        .error (.failed ⟨.invalidBreak, 3⟩) m') ∧
      (∃ keyword, keyword.line = 3 ∧ (Loose [calling] (.breakLoop keyword) ∨
        ∃ f, machine.Finds f ∧ Loose f.body (.breakLoop keyword))) ∧
      (∃ m', Run.execute (.packing 9) 9 breaking .initial = .ok .normal m') ∧
      compile session.queueConfig "loop do\nbreak\nend\n" = .ok [breaking] ∧
      ∀ line, (session.runWith 9 "loop do\nbreak\nend\n").1 ≠
        .error (.runtime ⟨.invalidBreak, line⟩) := by
  intro paren f machine calling breaking session
  have hhost := Settings.handsBack_packing 9
  have hbyValue := Settings.failsByValue_packing 9
  obtain ⟨-, hfails, hsession⟩ := jumps_caught (.packing 9) 9
  have hrun : Run.interpret (.packing 9) 9 [calling] machine =
      .error (.failed ⟨.invalidBreak, 3⟩)
        ((Run.interpret (.packing 9) 9 [calling]).after machine) :=
    Run.eq_error_of_failure? (by cbv)
  have hlexed : Source.lex "loop do\nbreak\nend\n" = ⟨[⟨.kwLoop, "loop", none, 1⟩,
      ⟨.kwDo, "do", none, 1⟩, ⟨.newline, "\n", none, 1⟩, ⟨.kwBreak, "break", none, 2⟩,
      ⟨.newline, "\n", none, 2⟩,
      ⟨.kwEnd, "end", none, 3⟩, ⟨.newline, "\n", none, 3⟩, .eof 4], []⟩ := by
    rw [Source.lex_eq]
    decide +kernel
  have hcompile : compile session.queueConfig "loop do\nbreak\nend\n" = .ok [breaking] := by
    rw [compile_eq_ok_iff, hlexed]
    exact ⟨rfl, rfl⟩
  have hfound : ∀ g, session.machine.Finds g → Stmt.AllEnclosed g.body := by
    intro g hg
    obtain ⟨id, name, v, hv, -⟩ := Machine.exists_bound_of_finds hg
    rw [Machine.get?_initial] at hv
    cases hv
  have htexts : ∀ text ∈ ["loop do\nbreak\nend\n"], ∀ program,
      compile session.queueConfig text = .ok program → Stmt.AllEnclosed program := by
    rintro _ htext program hprogram
    rw [List.mem_singleton.mp htext, hcompile] at hprogram
    cases hprogram
    exact Stmt.allEnclosed_loop _
  exact ⟨⟨_, hrun⟩, (hfails hhost hbyValue [calling] machine _ 3).1 hrun, ⟨_, rfl⟩, hcompile,
    fun line => (hsession session [] _ hhost hbyValue hfound htexts line).1⟩

end Scriptlet
