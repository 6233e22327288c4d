import Scriptlet.Proofs.Machine.Balance
import Scriptlet.Proofs.Machine.Start
import Scriptlet.Proofs.Scope.Constants
import Scriptlet.Proofs.Session.Regime

/-!
# Constants in sessions

Whatever a session runs, a constant that was once bound in the global scope has that value for good,
and is read as that value from every scope.
-/

namespace Scriptlet

namespace Regime

def constants : Regime where
  body _ := True
  scope st id := id < st.size
  store := Store.Orderly
  onward := Store.Grows
  stops _ := True

theorem lawful_constants : constants.Lawful where
  onward_refl := .refl
  onward_trans := .trans
  scope_mono hgrows hid := Nat.lt_of_lt_of_le hid hgrows.size_le
  stand_mono hgrows hid := Nat.lt_of_lt_of_le hid hgrows.size_le
  scope_of_stand hid := hid
  fits_bound hst _ _ hv f hf := ⟨trivial, hst.scope_lt hv hf⟩
  store_define hst hid hv := hst.define hid fun f hf => (hv f hf).2
  store_assign hst hid _ hv := hst.assign hid fun f hf => (hv f hf).2
  store_addChild {st id} hst hid := by
    obtain ⟨horderly, hgrows⟩ := hst.addChild hid
    refine ⟨horderly, hgrows, ?_⟩
    simp [constants]
  store_addClosure hst := hst.addClosure
  stops_failed _ _ _ := trivial
  stops_jump _ _ _ := trivial

theorem safe_constants {settings : Settings} (hhost : settings.HandsBack) (fuel : Nat) :
    (∀ depth st e, constants.Safe depth st (Run.evaluate settings fuel e) constants.Fits) ∧
      ∀ depth st s, constants.Safe depth st (Run.execute settings fuel s) constants.FitsFlow := by
  have hany : ∀ s : Stmt, s.All (fun _ => True) fun _ => True :=
    Stmt.all_of_forall (fun _ => trivial) fun _ => trivial
  obtain ⟨he, hs⟩ := lawful_constants.evaluate_execute
    (hosts_of_handsBack hhost fun _ _ _ _ _ _ => trivial)
    (p := fun _ => True) (q := fun _ => True) (fun _ _ s _ => hany s) (fun _ _ _ _ _ => trivial)
    (fun _ _ _ _ => trivial) (fun _ _ _ _ _ => trivial) trivial fuel
  exact ⟨fun depth st e => he depth st e (Expr.all_of_forall (fun _ => trivial) e),
    fun depth st s => hs depth st s (hany s)⟩

theorem safeTexts_constants {settings : Settings} (hhost : settings.HandsBack) :
    constants.SafeTexts settings :=
  fun _ _ _ _ fuel depth st => lawful_constants.interpret fuel trivial
    fun s _ => (safe_constants hhost fuel).2 depth st s

theorem grows_of_safe {α : Type} {Q : Store → α → Prop} {x : Run α} {m : Machine}
    (hx : constants.Safe m.depth m.store x Q) (hm : m.store.Orderly)
    (hscope : m.env.current < m.store.size) :
    (x.after m).store.Orderly ∧ m.store.Grows (x.after m).store := by
  have hlands := hx m ⟨rfl, .refl _, hm, hscope⟩
  unfold Run.after
  revert hlands
  cases x m with
  | ok a m' => exact fun hlands => ⟨hlands.1.store, hlands.1.onward⟩
  | error halt m' => exact fun hlands => ⟨hlands.1.store, hlands.1.onward⟩

end Regime

namespace Session

theorem orderly_start {globals : List (String × Value)}
    (h : ∀ b ∈ globals, ∀ f, ¬b.2.Holds f) :
    (Machine.initial.withGlobals globals).store.Orderly where
  size_pos := by simp [Machine.size_withGlobals]
  nested id hid hne := by
    rw [Machine.size_withGlobals] at hid
    exact absurd (Nat.lt_one_iff.mp hid) hne
  constant_global _ hget := Machine.eq_zero_of_get?_withGlobals hget
  scope_lt hget hf := by
    obtain ⟨b, hb, rfl⟩ := Machine.mem_of_get?_withGlobals hget
    exact absurd hf (h b hb _)

/-- In a session in which the host binds no functions of the language and hands back none but those
that it is handed, constants are bound in the
global scope only, all other scopes stand inside that one, and a constant that was bound after some
runs is read as the same value from every scope after any others.  The last part says the same of
each step of a run, whether it gives a result or not, and of what names mean in the meantime. -/
theorem constants_kept {settings : Settings} (hhost : settings.HandsBack)
    (config : Diagnostic.QueueConfig) (globals : List (String × Value))
    (hglobals : ∀ b ∈ globals, ∀ f, ¬b.2.Holds f) :
    (∀ before later : List (Nat × String),
      let s := runAll ⟨settings, config, Machine.initial.withGlobals globals⟩ before
      let s' := s.runAll later
      (∀ id name v, isConstantName name → s.machine.store.get? id name = some v →
        id = s.machine.env.globalScope) ∧
      (∀ id < s.machine.store.size,
        (s.machine.store.chain id).getLast? = some s.machine.env.globalScope) ∧
      ∀ name v, isConstantName name →
        s.machine.store.get? s.machine.env.globalScope name = some v →
        ∀ id < s'.machine.store.size, s'.machine.store.lookup id name = some v) ∧
    ∀ (fuel : Nat) (m : Machine), m.store.Orderly → m.env.current < m.store.size →
      (∀ e, ((Run.evaluate settings fuel e).after m).store.Orderly ∧
        m.store.Grows ((Run.evaluate settings fuel e).after m).store) ∧
      (∀ s, ((Run.execute settings fuel s).after m).store.Orderly ∧
        m.store.Grows ((Run.execute settings fuel s).after m).store) ∧
      ∀ name v, isConstantName name.lexeme → m.store.get? 0 name.lexeme = some v →
        Run.lookup name m = .ok v m := by
  constructor
  · intro before later s s'
    let start : Session := ⟨settings, config, Machine.initial.withGlobals globals⟩
    have hstart : Regime.constants.Rests start.machine :=
      ⟨orderly_start hglobals, (orderly_start hglobals).size_pos⟩
    have hs := Regime.lawful_constants.runAll (Regime.safeTexts_constants hhost) hstart before
    have hs' := Regime.lawful_constants.runAll (s := s)
      (by rw [settings_runAll]; exact Regime.safeTexts_constants hhost) hs.rests later
    have horderly : s.machine.store.Orderly := hs.rests.store
    have horderly' : s'.machine.store.Orderly := hs'.rests.store
    have hglobal : s.machine.env.globalScope = 0 := congrArg Environment.globalScope hs.env_eq
    rw [hglobal]
    refine ⟨fun id name v => horderly.constant_global, fun id => horderly.getLast?_chain, ?_⟩
    intro name v hname hv id hid
    rw [horderly'.lookup_constant hid hname]
    exact hs'.onward.constant hname hv
  · intro fuel m hm hscope
    obtain ⟨he, hs⟩ := Regime.safe_constants hhost fuel
    refine ⟨fun e => Regime.grows_of_safe (he _ _ e) hm hscope,
      fun s => Regime.grows_of_safe (hs _ _ s) hm hscope, ?_⟩
    intro name v hname hv
    rw [Run.lookup_apply, Environment.lookup, hm.lookup_constant hscope hname, hv]

/-- The second text fails, and the constant stays what it was. -/
theorem constants_kept_assigned_twice :
    let start : Session := ⟨.packing 9, .standard, Machine.initial.withGlobals builtins⟩
    let s := start.runAll [(9, "A = 1\n")]
    let s' := s.runAll [(9, "A = 2\n")]
    (∀ b ∈ builtins, ∀ f, ¬b.2.Holds f) ∧
      isConstantName "A" ∧
      s.machine.store.get? s.machine.env.globalScope "A" = some (.int 1) ∧
      ∀ id < s'.machine.store.size, s'.machine.store.lookup id "A" = some (.int 1) := by
  intro start s s'
  have hlexed : Source.lex "A = 1\n" = ⟨[⟨.identifier, "A", none, 1⟩, ⟨.equal, "=", none, 1⟩,
      ⟨.integer, "1", some (.int 1), 1⟩, ⟨.newline, "\n", none, 1⟩, .eof 2], []⟩ := by
    rw [Source.lex_eq]
    decide +kernel
  have hcompile : compile start.queueConfig "A = 1\n" = .ok [.expr (.assign
      ⟨.identifier, "A", none, 1⟩ ⟨.equal, "=", none, 1⟩ (.literal (.int 1)))] := by
    rw [compile_eq_ok_iff, hlexed]
    exact ⟨rfl, rfl⟩
  have hbound : s.machine.store.get? s.machine.env.globalScope "A" = some (.int 1) := by
    change (start.runWith 9 "A = 1\n").2.machine.store.get?
      (start.runWith 9 "A = 1\n").2.machine.env.globalScope "A" = _
    rw [runWith_of_compile hcompile]
    rfl
  have hkept := (constants_kept (Settings.handsBack_packing 9) .standard builtins
    not_holds_builtins).1
    [(9, "A = 1\n")] [(9, "A = 2\n")]
  exact ⟨not_holds_builtins, by decide, hbound, hkept.2.2 "A" (.int 1) (by decide) hbound⟩

end Session

end Scriptlet
