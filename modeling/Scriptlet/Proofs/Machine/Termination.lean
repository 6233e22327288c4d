import Scriptlet.Proofs.Machine.Bodies
import Scriptlet.Proofs.Machine.Fuel
import Scriptlet.Proofs.Machine.Isolation
import Scriptlet.Proofs.Machine.Start

/-!
# Programs without unbounded loops

A program can only run on forever in a loop whose rounds are not counted beforehand.  Without such
loops every step goes to a smaller tree, or enters a call, of which the settings allow only so many
one inside another.  The fuel that is needed is the size of the tree, and for each call that may
still be entered the size of the largest body at hand.
-/

namespace Scriptlet

/-- No loop of unknown length stands in the statement, nor in the functions it defines. -/
def Stmt.LoopFree (s : Stmt) : Prop :=
  s.All (fun _ => True) fun t => t.isUnbounded = false

theorem Stmt.loopFree_iff {s : Stmt} :
    s.LoopFree ↔ s.isUnbounded = false ∧ ∀ t ∈ s.stmts, t.LoopFree := by
  constructor
  · intro h
    exact ⟨(Stmt.all_iff.mp h).1, h.stmts⟩
  · rintro ⟨hnode, hstmts⟩
    exact .intro hnode (fun e _ => Expr.all_of_forall (fun _ => trivial) e) hstmts

/-! ## The bodies at hand are bounded -/

theorem Value.sizeOf_lt_of_holds {v : Value} {f : Closure} (h : v.Holds f) :
    sizeOf f.body < sizeOf v := by
  induction h with
  | closure f =>
      cases f
      simp
      omega
  | item hv _ ih =>
      have hlt := List.sizeOf_lt_of_mem hv
      simp
      omega

theorem Bindings.sizeOf_lt_of_get? {bs : Bindings} {name : String} {v : Value}
    (h : bs.get? name = some v) : sizeOf v < sizeOf bs := by
  induction bs with
  | nil => cases h
  | cons b bs ih =>
      obtain ⟨other, w⟩ := b
      simp only [get?] at h
      split at h
      · cases h
        simp
        omega
      · have hlt := ih h
        simp
        omega

theorem Store.sizeOf_lt_of_get? {st : Store} {id : ScopeId} {name : String} {v : Value}
    (h : st.get? id name = some v) : sizeOf v < sizeOf st.scopes := by
  simp only [get?, Option.bind_eq_bind, Option.bind_eq_some_iff] at h
  obtain ⟨s, hs, hv⟩ := h
  have hscope : sizeOf s < sizeOf st.scopes := Array.sizeOf_lt_of_mem (Array.mem_of_getElem? hs)
  have hbindings : sizeOf s.bindings < sizeOf s := by
    obtain ⟨parent, bindings⟩ := s
    rw [Scope.mk.sizeOf_spec]
    dsimp only
    omega
  have hvalue := Bindings.sizeOf_lt_of_get? hv
  omega

/-! ## Fuel that is enough -/

namespace Regime

def terminating (allowed : ScopeId → Prop) (largest : Nat) : Regime :=
  ofBodies allowed (fun body => ∀ s ∈ body, s.LoopFree ∧ sizeOf s ≤ largest) (· ≠ .outOfFuel)

variable {allowed : ScopeId → Prop} {largest : Nat} {settings : Settings}

theorem lawful_terminating : (terminating allowed largest).Lawful :=
  lawful_ofBodies (fun _ _ _ => by simp) fun _ _ _ _ _ _ => by simp

theorem hosts_terminating (hhost : settings.HandsBack) :
    (terminating allowed largest).Hosts settings :=
  hosts_of_handsBack hhost fun _ _ _ _ _ _ => by simp [terminating, ofBodies]

/-- What is left of the limit on calls, each of which may run a body of the largest size. -/
def reserve (settings : Settings) (largest depth : Nat) : Nat :=
  largest * (settings.maxCallDepth - depth)

theorem reserve_succ (largest : Nat) {depth : Nat} (h : depth < settings.maxCallDepth) :
    reserve settings largest depth = reserve settings largest (depth + 1) + largest := by
  have hleft : settings.maxCallDepth - depth = settings.maxCallDepth - (depth + 1) + 1 := by omega
  rw [reserve, hleft, Nat.mul_succ, reserve]

/-- Induction on fuel: a part is smaller than the whole, and the body of a call lives on what the
call takes from the reserve. -/
theorem safe_of_reserve (hhost : settings.HandsBack) (fuel : Nat) :
    (∀ depth st e, sizeOf e + reserve settings largest depth < fuel →
      (terminating allowed largest).Safe depth st (Run.evaluate settings fuel e)
        (terminating allowed largest).Fits) ∧
    ∀ depth st s, s.LoopFree → sizeOf s ≤ largest →
      sizeOf s + reserve settings largest depth < fuel →
      (terminating allowed largest).Safe depth st (Run.execute settings fuel s)
        (terminating allowed largest).FitsFlow := by
  have h : (terminating allowed largest).Lawful := lawful_terminating
  induction fuel with
  | zero => exact ⟨by omega, by omega⟩
  | succ fuel ih =>
      obtain ⟨ihe, ihs⟩ := ih
      constructor
      · intro depth st e hfuel
        refine h.evaluateWith (hosts_terminating hhost) ?_ (fun _ _ => trivial)
          (Run.jumpsOut_execute settings fuel) ?_ ?_
        · intro part hpart
          have hlt := Expr.sizeOf_part hpart
          exact ihe depth st part (by omega)
        · intro hroom body hadmitted s hs
          -- the body is no part of the call, so its size is taken from the reserve
          obtain ⟨hfree, hsize⟩ := hadmitted s hs
          have hreserve := reserve_succ largest hroom
          have hpos := e.sizeOf_pos
          exact ihs (depth + 1) st s hfree hsize (by omega)
        · intro _ op line
          simp [terminating, ofBodies]
      · intro depth st s hfree hsize hfuel
        have hpart : ∀ t ∈ s.stmts, t.LoopFree ∧ sizeOf t ≤ largest := by
          intro t ht
          have hlt := Stmt.sizeOf_stmt ht
          exact ⟨hfree.stmts t ht, by omega⟩
        refine h.executeWith fuel ?_ ?_ ?_ ?_
        · intro e he
          have hlt := Stmt.sizeOf_expr he
          exact ihe depth st e (by omega)
        · intro t ht
          have hlt := Stmt.sizeOf_stmt ht
          exact ihs depth st t (hpart t ht).1 (hpart t ht).2 (by omega)
        · intro hloop
          -- only a loop of unknown length could run out of fuel
          rw [(Stmt.loopFree_iff.mp hfree).1] at hloop
          cases hloop
        · rintro name params body rfl
          exact hpart

end Regime

/-! ## Programs -/

theorem Store.closed_of_reaches {st : Store} {f : Closure} {args : List Value}
    {body : List Stmt → Prop} (h : ∀ g, st.Reaches f args g → body g.body) :
    st.Closed (st.Allows f args) body where
  fresh id hid := .inr hid
  parent id p hid hp := by
    rcases hid with hid | hid
    · exact .inl (.parent hid hp)
    -- a scope that is not there yet has no parent
    · exact absurd (Store.lt_size_of_parent? hp) (Nat.not_lt_of_le hid)
  bound {id name v g} hid hv hg := by
    rcases hid with hid | hid
    · exact ⟨h g (.inr ⟨id, name, v, hid, hv, hg⟩), .inl (.bound hid hv hg)⟩
    · have hnone : st.scopes[id]? = none := Array.getElem?_eq_none hid
      simp [Store.get?, hnone] at hv

namespace Machine

def here (m : Machine) : Closure :=
  ⟨m.store.closures, "", [], [], m.env.current⟩

/-- A function that a program can get hold of when it starts. -/
def Finds (m : Machine) (f : Closure) : Prop :=
  m.store.Reaches m.here [] f

variable {m : Machine} {f : Closure}

theorem exists_bound_of_finds (h : m.Finds f) :
    ∃ id name v, m.store.get? id name = some v ∧ v.Holds f := by
  obtain ⟨_, hv, -⟩ | ⟨id, name, v, -, hv, hf⟩ := h
  · cases hv
  · exact ⟨id, name, v, hv, hf⟩

theorem sizeOf_lt_of_finds (h : m.Finds f) : sizeOf f.body < sizeOf m.store.scopes := by
  obtain ⟨id, name, v, hv, hf⟩ := exists_bound_of_finds h
  exact (Value.sizeOf_lt_of_holds hf).trans (Store.sizeOf_lt_of_get? hv)

theorem closed_of_finds {body : List Stmt → Prop} (h : ∀ f, m.Finds f → body f.body) :
    m.store.Closed (m.store.Allows m.here []) body :=
  Store.closed_of_reaches h

noncomputable def largest (m : Machine) (program : List Stmt) : Nat :=
  sizeOf m.store.scopes + sizeOf program

end Machine

theorem Finished.ok_or_failed {r : EStateM.Result Halt Machine Unit} (h : Finished r) :
    (∃ m', r = .ok () m') ∨ ∃ e m', r = .error (.failed e) m' := by
  cases r with
  | ok _ m' => exact .inl ⟨m', rfl⟩
  | error halt m' =>
      cases halt with
      | outOfFuel => exact absurd rfl (h m')
      | failed e => exact .inr ⟨e, m', rfl⟩

theorem finished_interpret {settings : Settings} (hhost : settings.HandsBack) {m : Machine}
    {program : List Stmt}
    (hprogram : ∀ s ∈ program, s.LoopFree)
    (hfound : ∀ f, m.Finds f → ∀ s ∈ f.body, s.LoopFree) {fuel : Nat}
    (hfuel : m.largest program + Regime.reserve settings (m.largest program) m.depth < fuel) :
    Finished (Run.interpret settings fuel program m) := by
  have hbodies : ∀ f, m.Finds f → ∀ s ∈ f.body, s.LoopFree ∧ sizeOf s ≤ m.largest program := by
    intro f hf s hs
    have hlt := (List.sizeOf_lt_of_mem hs).trans (Machine.sizeOf_lt_of_finds hf)
    exact ⟨hfound f hf s hs, hlt.le.trans (Nat.le_add_right _ _)⟩
  let rules := Regime.terminating (m.store.Allows m.here []) (m.largest program)
  have hsize : ∀ s ∈ program, sizeOf s ≤ m.largest program := fun s hs =>
    (List.sizeOf_lt_of_mem hs).le.trans (Nat.le_add_left _ _)
  have hsafe : ∀ s ∈ program,
      rules.Safe m.depth m.store (Run.execute settings fuel s) rules.FitsFlow := by
    intro s hs
    have hle := hsize s hs
    exact (Regime.safe_of_reserve hhost fuel).2 m.depth m.store s (hprogram s hs) hle (by omega)
  intro m' heq
  have hlands := Regime.lawful_terminating.interpret fuel
    (fun s hs => ⟨hprogram s hs, hsize s hs⟩) hsafe m
    ⟨rfl, trivial, Machine.closed_of_finds hbodies, .inl .own⟩
  rw [heq] at hlands
  exact hlands.2 rfl

/-- A program ends, with a result or with a runtime error, if no loop of unknown length stands in it
or in a function that it can get hold of.  It may recurse as it likes; the host hands back no
function but those that it is handed. -/
theorem interpret_terminates {settings : Settings} (hhost : settings.HandsBack) (m : Machine)
    (program : List Stmt)
    (hprogram : ∀ s ∈ program, s.LoopFree)
    (hfound : ∀ f, m.Finds f → ∀ s ∈ f.body, s.LoopFree) :
    ∃ enough r, ((∃ m', r = .ok () m') ∨ ∃ e m', r = .error (.failed e) m') ∧
      ∀ fuel, enough ≤ fuel → Run.interpret settings fuel program m = r := by
  have hfinished := finished_interpret hhost hprogram hfound (Nat.lt_succ_self _)
  exact ⟨_, _, hfinished.ok_or_failed, fun fuel hle =>
    Run.Settles.interpret hle program m hfinished⟩

/-! ## A function that calls itself in a loop -/

namespace Runaway

def call : Stmt :=
  .expr (.call (.var ⟨.identifier, "f", none, 1⟩) ⟨.rightParen, ")", none, 1⟩ [])

def rounds : Expr :=
  .range (.literal (.int 1)) ⟨.dotDot, "..", none, 1⟩ (.literal (.int 2)) true

def function : Closure :=
  ⟨0, "f", [], [.forDo ⟨.identifier, "i", none, 1⟩ rounds [call]], 0⟩

def machine : Machine :=
  Machine.initial.withGlobals [("f", .closure function)]

theorem loopFree_call : call.LoopFree := by
  rw [Stmt.loopFree_iff]
  simp [call, Stmt.stmts, Stmt.isUnbounded]

theorem loopFree_body : ∀ s ∈ function.body, s.LoopFree := by
  simp only [function, List.forall_mem_singleton]
  rw [Stmt.loopFree_iff]
  simp [Stmt.stmts, Stmt.isUnbounded, loopFree_call]

theorem eq_of_finds {f : Closure} (h : machine.Finds f) : f = function := by
  obtain ⟨id, name, v, hv, hf⟩ := Machine.exists_bound_of_finds h
  obtain ⟨b, hb, rfl⟩ := Machine.mem_of_get?_withGlobals hv
  rw [List.mem_singleton] at hb
  subst hb
  cases hf
  rfl

end Runaway

/-- No more than ten calls of it are ever in progress. -/
theorem interpret_terminates_runaway :
    (∀ s ∈ [Runaway.call], s.LoopFree) ∧
      (∀ f, Runaway.machine.Finds f → ∀ s ∈ f.body, s.LoopFree) ∧
      ∃ enough r, ((∃ m', r = .ok () m') ∨ ∃ e m', r = .error (.failed e) m') ∧
        ∀ fuel, enough ≤ fuel →
          Run.interpret (.packing 10) fuel [Runaway.call] Runaway.machine = r := by
  have hprogram : ∀ s ∈ [Runaway.call], s.LoopFree := by simp [Runaway.loopFree_call]
  have hfound : ∀ f, Runaway.machine.Finds f → ∀ s ∈ f.body, s.LoopFree := by
    intro f hf
    rw [Runaway.eq_of_finds hf]
    exact Runaway.loopFree_body
  exact ⟨hprogram, hfound,
    interpret_terminates (Settings.handsBack_packing 10) Runaway.machine [Runaway.call]
      hprogram hfound⟩

end Scriptlet
