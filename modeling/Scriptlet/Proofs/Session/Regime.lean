import Scriptlet.Proofs.Machine.Balance
import Scriptlet.Proofs.Machine.Regime
import Scriptlet.Proofs.Session.Append

/-!
# Sessions under a regime

If the programs are safe, a session keeps to the rules through any number of runs, however the runs
end.
-/

namespace Scriptlet

namespace Session

def runAll (s : Session) (runs : List (Nat × String)) : Session :=
  runs.foldl (fun s run => (s.runWith run.1 run.2).2) s

@[simp] theorem runAll_nil (s : Session) : s.runAll [] = s :=
  rfl

@[simp] theorem runAll_cons (s : Session) (run : Nat × String) (runs : List (Nat × String)) :
    s.runAll (run :: runs) = (s.runWith run.1 run.2).2.runAll runs :=
  rfl

theorem queueConfig_runWith (s : Session) (fuel : Nat) (source : String) :
    (s.runWith fuel source).2.queueConfig = s.queueConfig := by
  cases hcompile : compile s.queueConfig source with
  | error e => simp [runWith, hcompile]
  | ok program =>
      rw [runWith_of_compile hcompile]
      rcases Run.interpret s.settings fuel program s.machine with ⟨_, m⟩ | ⟨_ | e, m⟩ <;> rfl

theorem queueConfig_runAll (s : Session) (runs : List (Nat × String)) :
    (s.runAll runs).queueConfig = s.queueConfig := by
  induction runs generalizing s with
  | nil => rfl
  | cons run runs ih =>
      rw [runAll_cons, ih, queueConfig_runWith]

theorem settings_runAll (s : Session) (runs : List (Nat × String)) :
    (s.runAll runs).settings = s.settings := by
  induction runs generalizing s with
  | nil => rfl
  | cons run runs ih =>
      rw [runAll_cons, ih, settings_runWith]

theorem not_holds_builtins : ∀ b ∈ builtins, ∀ f, ¬b.2.Holds f := by
  simp only [builtins, List.forall_mem_singleton]
  rintro f ⟨⟩

end Session

namespace Regime

variable {rules : Regime}

def SafeText (rules : Regime) (settings : Settings) (config : Diagnostic.QueueConfig)
    (source : String) : Prop :=
  ∀ program, compile config source = .ok program →
    ∀ fuel depth st, rules.Safe depth st (Run.interpret settings fuel program) Any

def SafeTexts (rules : Regime) (settings : Settings) : Prop :=
  ∀ config source, rules.SafeText settings config source

/-- The machine may be left to run a program on. -/
structure Rests (rules : Regime) (m : Machine) : Prop where
  store : rules.store m.store
  stand : rules.stand m.store m.env.current

structure Continues (rules : Regime) (s s' : Session) : Prop where
  rests : rules.Rests s'.machine
  env_eq : s'.machine.env = s.machine.env
  onward : rules.onward s.machine.store s'.machine.store

variable {s s' : Session}

namespace Lawful

variable (h : rules.Lawful)
include h

theorem continues_of_keeps {m : Machine} (hs : rules.Rests s.machine)
    (hkeeps : rules.Keeps s.machine m) : rules.Continues s { s with machine := m } where
  rests := by
    refine ⟨hkeeps.store, ?_⟩
    rw [hkeeps.env_eq]
    exact h.stand_mono hkeeps.onward hs.stand
  env_eq := hkeeps.env_eq
  onward := hkeeps.onward

theorem runWith_text {source : String} (hsafe : rules.SafeText s.settings s.queueConfig source)
    (hs : rules.Rests s.machine) (fuel : Nat) :
    rules.Continues s (s.runWith fuel source).2 ∧
      ∀ e, (s.runWith fuel source).1 = .error (.runtime e) → rules.stops (.failed e) := by
  cases hcompile : compile s.queueConfig source with
  | error e =>
      simp only [Session.runWith, hcompile]
      exact ⟨⟨hs, rfl, h.onward_refl _⟩, by simp⟩
  | ok program =>
      have hlands := hsafe program hcompile fuel s.machine.depth s.machine.store
        s.machine ⟨rfl, h.onward_refl _, hs.store, hs.stand⟩
      rw [Session.runWith_of_compile hcompile]
      revert hlands
      rcases Run.interpret s.settings fuel program s.machine with ⟨_, m⟩ | ⟨_ | e, m⟩
      · rintro ⟨hkeeps, -⟩
        exact ⟨h.continues_of_keeps hs hkeeps, by simp [Session.finish]⟩
      · rintro ⟨hkeeps, -⟩
        exact ⟨h.continues_of_keeps hs hkeeps, by simp [Session.finish]⟩
      · rintro ⟨hkeeps, hstops⟩
        refine ⟨h.continues_of_keeps hs hkeeps, ?_⟩
        rintro _ ⟨⟩
        exact hstops

theorem runAll_texts {runs : List (Nat × String)}
    (hsafe : ∀ run ∈ runs, rules.SafeText s.settings s.queueConfig run.2)
    (hs : rules.Rests s.machine) :
    rules.Continues s (s.runAll runs) := by
  induction runs generalizing s with
  | nil => exact ⟨hs, rfl, h.onward_refl _⟩
  | cons run runs ih =>
      rw [List.forall_mem_cons] at hsafe
      have hfirst := (h.runWith_text hsafe.1 hs run.1).1
      have hrest := ih (by rw [s.settings_runWith, s.queueConfig_runWith]; exact hsafe.2)
        hfirst.rests
      exact ⟨hrest.rests, hrest.env_eq.trans hfirst.env_eq,
        h.onward_trans hfirst.onward hrest.onward⟩

theorem runWith (hsafe : rules.SafeTexts s.settings) (hs : rules.Rests s.machine) (fuel : Nat)
    (source : String) :
    rules.Continues s (s.runWith fuel source).2 ∧
      ∀ e, (s.runWith fuel source).1 = .error (.runtime e) → rules.stops (.failed e) :=
  h.runWith_text (hsafe _ source) hs fuel

theorem runAll (hsafe : rules.SafeTexts s.settings) (hs : rules.Rests s.machine)
    (runs : List (Nat × String)) : rules.Continues s (s.runAll runs) :=
  h.runAll_texts (fun run _ => hsafe _ run.2) hs

end Lawful

end Regime

end Scriptlet
