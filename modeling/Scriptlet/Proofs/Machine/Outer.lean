import Scriptlet.Proofs.Machine.Termination
import Scriptlet.Proofs.Scope.Outer

/-!
# Bodies in scopes of their own

Whatever a body does in a scope of its own, and however it ends, it leaves the names alone that the
scopes outside of it bind: definitions, parameters and loop variables all go to scopes that were
made for the body or later.  Only a compound assignment gives an outer name another value, and only
if it stands in the body or in a function that the body can get hold of.
-/

namespace Scriptlet

/-- A compound assignment to the name stands in the body or in the body of a function that a call of
`f` can get hold of. -/
def Store.MayUpdate (st : Store) (f : Closure) (args : List Value) (body : List Stmt)
    (x : String) : Prop :=
  (∃ s ∈ body, s.Updates x) ∨ ∃ g, st.Reaches f args g ∧ ∃ s ∈ g.body, s.Updates x

namespace Regime

def inner (st : Store) (allowed : ScopeId → Prop) (may : String → Prop) : Regime where
  body := Stmt.UpdatesWithin may
  scope _ id := allowed id
  stand _ id := st.size ≤ id ∧ allowed id
  update := may
  store st' := st'.Closed allowed (Stmt.UpdatesWithin may) ∧ st.KeepsOuter may st'
  onward _ _ := True
  stops _ := True

variable {st : Store} {allowed : ScopeId → Prop} {may : String → Prop} {α : Type}
  {Q : Store → α → Prop} {x : Run α} {m : Machine}

theorem lawful_inner : (inner st allowed may).Lawful where
  onward_refl _ := trivial
  onward_trans _ _ := trivial
  scope_mono _ hid := hid
  stand_mono _ hid := hid
  scope_of_stand hid := hid.2
  fits_bound hst hid hi hv _ hf := hst.1.of_chain hid hi hv hf
  store_define hst hid hv := ⟨⟨hst.1.define hv _ _, hst.2.define hid.1 _ _⟩, trivial⟩
  store_assign hst _ hname hv := ⟨⟨hst.1.assign hv _ _, hst.2.assign hname _ _⟩, trivial⟩
  store_addChild hst hid := ⟨⟨hst.1.addChild hid, hst.2.addChild _⟩, trivial, hst.2.size_le,
    hst.1.fresh _ (Nat.le_refl _)⟩
  store_addClosure hst :=
    ⟨⟨hst.1.addClosure, hst.2.size_le, hst.2.binds_eq, hst.2.get?_eq⟩, trivial⟩
  stops_failed _ _ _ := trivial
  stops_jump _ _ _ := trivial

theorem safe_inner {settings : Settings} (hhost : settings.HandsBack) (fuel depth : Nat)
    (st' : Store) {body : List Stmt}
    (hbody : Stmt.UpdatesWithin may body) :
    ∀ s ∈ body, (inner st allowed may).Safe depth st' (Run.execute settings fuel s)
      (inner st allowed may).FitsFlow :=
  fun s hs => (lawful_inner.evaluate_execute
    (hosts_of_handsBack hhost fun _ _ _ _ _ _ => trivial) (fun _ hbody => hbody)
    (fun _ _ _ _ hbody => hbody) (fun _ he => he) (fun _ _ _ _ _ => trivial) trivial fuel).2
    depth st' s (hbody s hs)

theorem keepsOuter_of_lands (h : (inner st allowed may).Lands Q m (x m)) :
    st.KeepsOuter may (x.after m).store := by
  unfold Run.after
  revert h
  cases x m with
  | ok a m' => exact fun h => h.1.store.2
  | error halt m' => exact fun h => h.1.store.2

end Regime

namespace Run

section Bodies

variable {α : Type} {f : Closure} {args : List Value} {body : List Stmt} {m : Machine}

abbrev innerRules (m : Machine) (f : Closure) (args : List Value) (body : List Stmt) : Regime :=
  .inner m.store (m.store.Allows f args) (m.store.MayUpdate f args body)

theorem keepsOuter_inScope {Q : Store → α → Prop} {x : Run α}
    (hscope : m.store.Allows f args m.env.current)
    (hx : (innerRules m f args body).Safe m.depth m.store x Q) :
    m.store.KeepsOuter (m.store.MayUpdate f args body) ((inScope x).after m).store := by
  have hclosed : m.store.Closed (m.store.Allows f args)
      (Stmt.UpdatesWithin (m.store.MayUpdate f args body)) :=
    Store.closed_of_reaches fun g hg =>
      Stmt.updatesWithin_of_updates fun x hx => .inr ⟨g, hg, hx⟩
  exact Regime.keepsOuter_of_lands (Regime.lawful_inner.lands_inScope hx
    ⟨rfl, trivial, ⟨hclosed, .refl _ _⟩, hscope⟩)

theorem safe_body {settings : Settings} (hhost : settings.HandsBack) (fuel : Nat) :
    ∀ s ∈ body, (innerRules m f args body).Safe m.depth m.store (execute settings fuel s)
      (innerRules m f args body).FitsFlow :=
  Regime.safe_inner hhost fuel m.depth m.store
    (Stmt.updatesWithin_of_updates fun _ hx => .inl hx)

theorem fits_arg {v : Value} (hv : v ∈ args) : (innerRules m f args body).Fits m.store v :=
  fun g hg => ⟨Stmt.updatesWithin_of_updates fun _ hx => .inr ⟨g, .inl ⟨v, hv, hg⟩, hx⟩,
    .inl (.argument hv hg)⟩

end Bodies

section Kept

variable {settings : Settings} (hhost : settings.HandsBack) (fuel : Nat) (m : Machine)
include hhost

theorem keepsOuter_block (body : List Stmt) :
    m.store.KeepsOuter (m.store.MayUpdate m.here [] body)
      ((inScope (executeAll (execute settings fuel) body)).after m).store :=
  keepsOuter_inScope (.inl .own) (Regime.lawful_inner.executeAll (safe_body hhost fuel))

theorem keepsOuter_loopDo (body : List Stmt) :
    m.store.KeepsOuter (m.store.MayUpdate m.here [] body)
      ((execute settings fuel (.loopDo body)).after m).store := by
  cases fuel with
  | zero => exact .refl _ _
  | succ fuel =>
      exact keepsOuter_inScope (.inl .own)
        (Regime.lawful_inner.endlessLoop (safe_body hhost fuel) trivial fuel)

theorem keepsOuter_conditionalRound (wanted : Bool) (condition : Expr) (v : Value)
    (body : List Stmt) :
    m.store.KeepsOuter (m.store.MayUpdate m.here [] body)
      ((conditionalRound (fun _ => pure v) (execute settings fuel) wanted condition body).after
        m).store := by
  rw [conditionalRound, pure_bind]
  split
  · rw [after_bind_of_quiet fun _ _ => rfl]
    exact keepsOuter_block hhost fuel m body
  · exact .refl _ _

theorem keepsOuter_forEach (name : Token) (item : Value) (body : List Stmt) :
    m.store.KeepsOuter (m.store.MayUpdate m.here [item] body)
      ((forEach (execute settings fuel) name body [item]).after m).store := by
  rw [forEach, after_bind_of_quiet fun flow _ => by cases flow <;> rfl]
  exact keepsOuter_inScope (.inl .own) (Regime.lawful_inner.itemBody name
    (fits_arg List.mem_cons_self) (safe_body hhost fuel))

theorem keepsOuter_callClosure (f : Closure) (args : List Value) (line : Nat) :
    m.store.KeepsOuter (m.store.MayUpdate f args f.body)
      ((callClosure settings (execute settings fuel) f args line).after m).store := by
  rw [after_callClosure]
  split
  · exact .refl _ _
  · exact keepsOuter_inScope (m := m.enterCall f) (.inl .own) (Regime.lawful_inner.callBody
      (fun v hv => fits_arg hv) (safe_body (m := m.enterCall f) hhost fuel))

/-- A `begin` block, a `loop do` statement, a round of a loop once its condition or its item is
known, and a call: all leave the scopes that there were with the names that they had, and change no
value but by a compound assignment that stands in the body or in a function it can get hold of, or
by a global name.  The host hands back no function but those that it is handed. -/
theorem outer_scopes_kept :
    (∀ body, m.store.KeepsOuter (m.store.MayUpdate m.here [] body)
      ((execute settings fuel (.block body)).after m).store) ∧
    (∀ body, m.store.KeepsOuter (m.store.MayUpdate m.here [] body)
      ((execute settings fuel (.loopDo body)).after m).store) ∧
    (∀ wanted condition v body, m.store.KeepsOuter (m.store.MayUpdate m.here [] body)
      ((conditionalRound (fun _ => pure v) (execute settings fuel) wanted condition body).after
        m).store) ∧
    (∀ name item body, m.store.KeepsOuter (m.store.MayUpdate m.here [item] body)
      ((forEach (execute settings fuel) name body [item]).after m).store) ∧
    ∀ f args line, m.store.KeepsOuter (m.store.MayUpdate f args f.body)
      ((callClosure settings (execute settings fuel) f args line).after m).store := by
  refine ⟨fun body => ?_, keepsOuter_loopDo hhost fuel m,
    keepsOuter_conditionalRound hhost fuel m, keepsOuter_forEach hhost fuel m,
    keepsOuter_callClosure hhost fuel m⟩
  cases fuel with
  | zero => exact .refl _ _
  | succ fuel => exact keepsOuter_block hhost fuel m body

end Kept

/-! ## A block that sets a name of its own -/

namespace Adding

def add : Closure :=
  ⟨0, "add", [], [.expr (.assign ⟨.identifier, "y", none, 1⟩ ⟨.plusEqual, "+=", none, 1⟩
    (.literal (.int 1)))], 0⟩

def machine : Machine :=
  Machine.initial.withGlobals [("x", .int 1), ("y", .int 2), ("add", .closure add)]

def body : List Stmt := [
  .expr (.assign ⟨.identifier, "x", none, 2⟩ ⟨.equal, "=", none, 2⟩ (.literal (.int 5))),
  .expr (.call (.var ⟨.identifier, "add", none, 3⟩) ⟨.rightParen, ")", none, 3⟩ [])]

theorem eq_of_finds {f : Closure} (h : machine.Finds f) : f = add := by
  obtain ⟨id, name, v, hv, hf⟩ := Machine.exists_bound_of_finds h
  obtain ⟨b, hb, rfl⟩ := Machine.mem_of_get?_withGlobals hv
  simp only [List.mem_cons, List.not_mem_nil, or_false] at hb
  rcases hb with rfl | rfl | rfl <;> cases hf
  rfl

theorem not_mayUpdate : ¬machine.store.MayUpdate machine.here [] body "x" := by
  rintro (⟨s, hs, hupdates⟩ | ⟨f, hf, s, hs, hupdates⟩)
  · revert s
    simp [body, BinaryOp.ofCompound?]
  · rw [eq_of_finds hf] at hs
    revert s
    simp [add]

end Adding

/-- The `x` outside stays what it was, and only the `y` is changed. -/
theorem outer_scopes_kept_block :
    let m := Adding.machine
    let m' := (execute (.packing 9) 9 (.block Adding.body)).after m
    (Settings.packing 9).HandsBack ∧ ¬m.store.MayUpdate m.here [] Adding.body "x" ∧
      m'.store.get? 0 "x" = some (.int 1) ∧ m'.store.get? 0 "y" = some (.int 3) := by
  have hkept := (outer_scopes_kept (Settings.handsBack_packing 9) 9 Adding.machine).1 Adding.body
  have hx := hkept.get?_eq 0 "x" (by decide) (by decide) Adding.not_mayUpdate
  have hy : ((execute (.packing 9) 9 (.block Adding.body)).after Adding.machine).store.get? 0 "y" =
      some (.int 3) := by cbv
  exact ⟨Settings.handsBack_packing 9, Adding.not_mayUpdate, hx, hy⟩

end Run

end Scriptlet
