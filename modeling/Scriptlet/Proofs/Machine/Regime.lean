import Scriptlet.Proofs.Machine.Jumps
import Scriptlet.Proofs.Scope.Chain
import Scriptlet.Proofs.Tree.Updates
import Scriptlet.Proofs.Value.Result

/-!
# Regimes

A regime says what a program may do to a store: which bodies its functions may have and in which
scopes these may be made, in which scopes names may be defined, which names may be updated, what
holds of the store at every moment, how the store may change and how a run may stop.  An action is
safe if it keeps to the regime from wherever the regime lets it start.  There is one rule for each
construct of the language, and each says that the construct is safe if its parts are, so that a
property of all runs takes no more than an induction on fuel.
-/

namespace Scriptlet

def Expr.HasOperator : Expr → Prop
  | .unary op _ => (UnaryOp.ofKind? op.kind).isSome
  | .binary _ op _ => (BinaryOp.ofKind? op.kind).isSome
  | .assign _ op _ => op.kind = .equal ∨ (BinaryOp.ofCompound? op.kind).isSome
  | _ => True

/-- A body may be entered from a scope, and then stands in a new one. -/
structure Regime where
  body : List Stmt → Prop
  scope : Store → ScopeId → Prop
  stand : Store → ScopeId → Prop := scope
  update : String → Prop := fun _ => True
  store : Store → Prop
  onward : Store → Store → Prop
  stops : Halt → Prop

namespace Regime

section Definitions

variable (rules : Regime)

def Fits (st : Store) (v : Value) : Prop :=
  ∀ f, v.Holds f → rules.body f.body ∧ rules.scope st f.scope

structure Lawful : Prop where
  onward_refl (st : Store) : rules.onward st st
  onward_trans {st st' st'' : Store} :
    rules.onward st st' → rules.onward st' st'' → rules.onward st st''
  scope_mono {st st' : Store} {id : ScopeId} :
    rules.onward st st' → rules.scope st id → rules.scope st' id
  stand_mono {st st' : Store} {id : ScopeId} :
    rules.onward st st' → rules.stand st id → rules.stand st' id
  scope_of_stand {st : Store} {id : ScopeId} : rules.stand st id → rules.scope st id
  fits_bound {st : Store} {id i : ScopeId} {name : String} {v : Value} :
    rules.store st → rules.scope st id → i ∈ st.chain id → st.get? i name = some v →
      rules.Fits st v
  store_define {st : Store} {id : ScopeId} {name : String} {v : Value} :
    rules.store st → rules.stand st id → rules.Fits st v →
      rules.store (st.define id name v).2 ∧ rules.onward st (st.define id name v).2
  store_assign {st : Store} {id : ScopeId} {name : String} {v : Value} :
    rules.store st → rules.stand st id → rules.update name → rules.Fits st v →
      rules.store (st.assign id name v).2 ∧ rules.onward st (st.assign id name v).2
  store_addChild {st : Store} {id : ScopeId} :
    rules.store st → rules.scope st id → rules.store (st.addChild id) ∧
      rules.onward st (st.addChild id) ∧ rules.stand (st.addChild id) st.size
  store_addClosure {st : Store} :
    rules.store st → rules.store st.addClosure ∧ rules.onward st st.addClosure
  stops_failed (failure : Failure) (line : Nat) :
    failure.isStructural = false → rules.stops (.failed ⟨failure, line⟩)
  stops_jump {body : List Stmt} {s : Stmt} {e : RuntimeError} :
    rules.body body → s ∈ body → s.LetsOut e → rules.stops (.failed e)

structure Hosts (settings : Settings) : Prop where
  fits {code moment : Nat} {args : List Value} {v : Value} {st : Store} :
    settings.host code moment args = .ok v → (∀ arg ∈ args, rules.Fits st arg) → rules.Fits st v
  stops {code moment : Nat} {args : List Value} {failure : Failure} (line : Nat) :
    settings.host code moment args = .error failure → rules.stops (.failed ⟨failure, line⟩)

structure Enters (st : Store) (depth : Nat) (m : Machine) : Prop where
  depth_eq : m.depth = depth
  onward : rules.onward st m.store
  store : rules.store m.store
  scope : rules.scope m.store m.env.current

structure Stands (st : Store) (depth : Nat) (m : Machine) : Prop where
  depth_eq : m.depth = depth
  onward : rules.onward st m.store
  store : rules.store m.store
  stand : rules.stand m.store m.env.current

/-- `m'` may be left behind where `m` was found. -/
structure Keeps (m m' : Machine) : Prop where
  env_eq : m'.env = m.env
  depth_eq : m'.depth = m.depth
  onward : rules.onward m.store m'.store
  store : rules.store m'.store

def Lands {α : Type} (Q : Store → α → Prop) (m : Machine) :
    EStateM.Result Halt Machine α → Prop
  | .ok a m' => rules.Keeps m m' ∧ Q m'.store a
  | .error halt m' => rules.Keeps m m' ∧ rules.stops halt

/-- From any machine that stands onward from `st`, the action keeps to the rules and gives a result
with the property. -/
def Safe {α : Type} (depth : Nat) (st : Store) (x : Run α) (Q : Store → α → Prop) : Prop :=
  ∀ m, rules.Stands st depth m → rules.Lands Q m (x m)

/-! ## What results are like -/

def FitsAll (st : Store) (vs : List Value) : Prop :=
  ∀ v ∈ vs, rules.Fits st v

def FitsFlow (st : Store) (flow : Flow) : Prop :=
  ∀ v, flow = .returned v → rules.Fits st v

def FitsRound (st : Store) (ending : Option Flow) : Prop :=
  ∀ flow ∈ ending, rules.FitsFlow st flow

def Any {α : Type} (_ : Store) (_ : α) : Prop :=
  True

end Definitions

variable {rules : Regime} {settings : Settings} {depth : Nat} {st st' : Store} {α β : Type}
variable {m m' m'' : Machine} {Q : Store → α → Prop} {P : Store → β → Prop}

theorem fits_of_isPlain {v : Value} (h : v.isPlain) : rules.Fits st v :=
  fun _ hf => absurd hf (Value.not_holds_of_isPlain h)

theorem keeps_withStore (hst : rules.store st') (honward : rules.onward m.store st') :
    rules.Keeps m { m with store := st' } :=
  ⟨rfl, rfl, honward, hst⟩

theorem hosts_of_handsBack (hhost : settings.HandsBack)
    (hstops : ∀ code moment args failure line, settings.host code moment args = .error failure →
      rules.stops (.failed ⟨failure, line⟩)) : rules.Hosts settings where
  fits hv hargs f hf := by
    obtain ⟨arg, harg, hheld⟩ := hhost _ _ _ _ hv f hf
    exact hargs arg harg f hheld
  stops := hstops _ _ _ _

theorem Lawful.hosts (h : rules.Lawful) (hhost : settings.HandsBack)
    (hfails : settings.FailsByValue) : rules.Hosts settings :=
  hosts_of_handsBack hhost fun _ _ _ _ line hfailed =>
    h.stops_failed _ line (hfails _ _ _ _ hfailed)

theorem Fits.items {items : List Value} (h : rules.Fits st (.list items)) :
    rules.FitsAll st items :=
  fun _ hv f hf => h f (.item hv hf)

theorem FitsFlow.afterBody {flow : Flow} (h : rules.FitsFlow st flow) :
    rules.FitsRound st flow.afterBody := by
  cases flow with
  | returned v =>
      rintro _ ⟨⟩
      exact h
  | broke line =>
      rintro _ ⟨⟩ v ⟨⟩
  | _ => rintro _ ⟨⟩

namespace Lawful

section Moving

variable (h : rules.Lawful)
include h

theorem fits_mono {v : Value} (hst : rules.onward st st') (hv : rules.Fits st v) :
    rules.Fits st' v :=
  fun f hf => ⟨(hv f hf).1, h.scope_mono hst (hv f hf).2⟩

theorem fitsAll_mono {vs : List Value} (hst : rules.onward st st') (hvs : rules.FitsAll st vs) :
    rules.FitsAll st' vs :=
  fun v hv => h.fits_mono hst (hvs v hv)

theorem keeps_refl (hm : rules.Stands st depth m) : rules.Keeps m m :=
  ⟨rfl, rfl, h.onward_refl _, hm.store⟩

theorem keeps_trans (hm : rules.Keeps m m') (hm' : rules.Keeps m' m'') : rules.Keeps m m'' where
  env_eq := hm'.env_eq.trans hm.env_eq
  depth_eq := hm'.depth_eq.trans hm.depth_eq
  onward := h.onward_trans hm.onward hm'.onward
  store := hm'.store

theorem stands_of_keeps (hm : rules.Stands st depth m) (hkeeps : rules.Keeps m m') :
    rules.Stands m'.store depth m' where
  depth_eq := hkeeps.depth_eq.trans hm.depth_eq
  onward := h.onward_refl _
  store := hkeeps.store
  stand := by
    rw [hkeeps.env_eq]
    exact h.stand_mono hkeeps.onward hm.stand

theorem enters_of_stands (hm : rules.Stands st depth m) : rules.Enters st depth m :=
  ⟨hm.depth_eq, hm.onward, hm.store, h.scope_of_stand hm.stand⟩

theorem safe_onward {x : Run α} (hst : rules.onward st st') (hx : rules.Safe depth st x Q) :
    rules.Safe depth st' x Q :=
  fun m hm => hx m ⟨hm.depth_eq, h.onward_trans hst hm.onward, hm.store, hm.stand⟩

end Moving

/-! ## Sequencing -/

section Sequencing

variable (h : rules.Lawful)
include h

theorem pure {a : α} (ha : ∀ st', rules.onward st st' → Q st' a) :
    rules.Safe depth st (pure a : Run α) Q :=
  fun m hm => ⟨h.keeps_refl hm, ha m.store hm.onward⟩

theorem throw {halt : Halt} (hstops : rules.stops halt) :
    rules.Safe depth st (throw halt : Run α) Q :=
  fun _ hm => ⟨h.keeps_refl hm, hstops⟩

theorem failAt (line : Nat) {failure : Failure} (hfailure : failure.isStructural = false) :
    rules.Safe depth st (Run.failAt line failure : Run α) Q :=
  h.throw (h.stops_failed failure line hfailure)

omit h in
/-- What every result of the action is like may be used along with what the rules say of it. -/
theorem yields {x : Run α} {R : α → Prop} (hx : rules.Safe depth st x Q) (hyields : x.Yields R) :
    rules.Safe depth st x fun st' a => Q st' a ∧ R a := by
  intro m hm
  have hlands := hx m hm
  have hresult := hyields m
  revert hlands hresult
  cases x m with
  | error halt m' => exact fun hlands _ => hlands
  | ok a m' => exact fun hlands hresult => ⟨hlands.1, hlands.2, hresult a m' rfl⟩

theorem bind {x : Run β} {f : β → Run α} (hx : rules.Safe depth st x P)
    (hf : ∀ st' b, rules.onward st st' → P st' b → rules.Safe depth st' (f b) Q) :
    rules.Safe depth st (x >>= f) Q := by
  intro m hm
  have hlands := hx m hm
  simp only [Bind.bind, EStateM.bind]
  cases hxm : x m with
  | error halt m' =>
      rw [hxm] at hlands
      exact hlands
  | ok b m' =>
      rw [hxm] at hlands
      obtain ⟨hkeeps, hb⟩ := hlands
      -- the second action starts in the machine that the first has left
      have honward := h.onward_trans hm.onward hkeeps.onward
      have hlands := hf m'.store b honward hb m' (h.stands_of_keeps hm hkeeps)
      change rules.Lands Q m (f b m')
      revert hlands
      cases f b m' with
      | error halt m'' => exact fun hlands => ⟨h.keeps_trans hkeeps hlands.1, hlands.2⟩
      | ok a m'' => exact fun hlands => ⟨h.keeps_trans hkeeps hlands.1, hlands.2⟩

theorem ofExcept (line : Nat) {r : Except Failure Value}
    (hok : ∀ v, r = .ok v → ∀ st', rules.onward st st' → rules.Fits st' v)
    (herror : ∀ failure, r = .error failure → rules.stops (.failed ⟨failure, line⟩)) :
    rules.Safe depth st (Run.ofExcept line r) rules.Fits := by
  cases r with
  | ok v => exact h.pure (hok v rfl)
  | error failure => exact h.throw (herror failure rfl)

theorem ofOperator (line : Nat) {r : Except Failure Value}
    (hok : ∀ v f, r = .ok v → ¬v.Holds f)
    (herror : ∀ failure, r = .error failure → failure.isStructural = false) :
    rules.Safe depth st (Run.ofExcept line r) rules.Fits :=
  h.ofExcept line (fun v hv _ _ f hf => absurd hf (hok v f hv)) fun failure hfailed =>
    h.stops_failed failure line (herror failure hfailed)

end Sequencing

/-! ## Primitive actions -/

section Primitives

variable (h : rules.Lawful)
include h

theorem lookup (name : Token) : rules.Safe depth st (Run.lookup name) rules.Fits := by
  intro m hm
  rw [Run.lookup_apply]
  cases hlookup : m.env.lookup m.store name.lexeme with
  | none => exact ⟨h.keeps_refl hm, h.stops_failed _ _ rfl⟩
  | some v =>
      refine ⟨h.keeps_refl hm, ?_⟩
      unfold Environment.lookup at hlookup
      split at hlookup
      · next w hw =>
          cases hlookup
          obtain ⟨i, hi, hget⟩ := List.exists_of_findSome?_eq_some hw
          exact h.fits_bound hm.store (h.scope_of_stand hm.stand) hi hget
      · split at hlookup <;> cases hlookup
        exact fits_of_isPlain rfl

theorem define (name : Token) {v : Value} (hv : rules.Fits st v) :
    rules.Safe depth st (Run.define name v) Any := by
  intro m hm
  have hlaw := @h.store_define _ _ name.lexeme _ hm.store hm.stand (h.fits_mono hm.onward hv)
  rw [Run.define_apply]
  revert hlaw
  rcases m.store.define m.env.current name.lexeme v with ⟨_ | _ | _, st'⟩
  · exact fun hlaw => ⟨keeps_withStore hlaw.1 hlaw.2, trivial⟩
  · exact fun hlaw => ⟨keeps_withStore hlaw.1 hlaw.2, h.stops_failed _ _ rfl⟩
  · exact fun hlaw => ⟨keeps_withStore hlaw.1 hlaw.2, h.stops_failed _ _ rfl⟩

theorem assign (name : Token) (hname : rules.update name.lexeme) {v : Value}
    (hv : rules.Fits st v) : rules.Safe depth st (Run.assign name v) Any := by
  intro m hm
  have hlaw := h.store_assign hm.store hm.stand hname (h.fits_mono hm.onward hv)
  rw [Run.assign_apply]
  revert hlaw
  rcases m.store.assign m.env.current name.lexeme v with ⟨_ | _ | _, st'⟩
  · exact fun hlaw => ⟨keeps_withStore hlaw.1 hlaw.2, trivial⟩
  · exact fun hlaw => ⟨keeps_withStore hlaw.1 hlaw.2, h.stops_failed _ _ rfl⟩
  · exact fun hlaw => ⟨keeps_withStore hlaw.1 hlaw.2, h.stops_failed _ _ rfl⟩

theorem makeClosure (name : Token) (params : List Token) {body : List Stmt}
    (hbody : rules.body body) :
    rules.Safe depth st (Run.makeClosure name params body) rules.Fits := by
  intro m hm
  obtain ⟨hstore, honward⟩ := h.store_addClosure hm.store
  refine ⟨keeps_withStore hstore honward, ?_⟩
  rintro _ ⟨⟩
  exact ⟨hbody, h.scope_mono honward (h.scope_of_stand hm.stand)⟩

theorem print (text : String) : rules.Safe depth st (Run.print settings text) Any := by
  intro m hm
  refine ⟨?_, trivial⟩
  dsimp only
  split
  · exact h.keeps_refl hm
  · exact ⟨rfl, rfl, h.onward_refl _, hm.store⟩

theorem passMoment : rules.Safe depth st Run.passMoment Any :=
  fun _ hm => ⟨⟨rfl, rfl, h.onward_refl _, hm.store⟩, trivial⟩

/-- A body stands in a scope of its own, wherever it is entered from. -/
theorem lands_inScope {x : Run α} (hx : rules.Safe depth st x Q) (hm : rules.Enters st depth m) :
    rules.Lands Q m (Run.inScope x m) := by
  obtain ⟨hstore, honward, hstand⟩ := h.store_addChild hm.store hm.scope
  have hlands := hx m.pushScope
    ⟨hm.depth_eq, h.onward_trans hm.onward honward, hstore, hstand⟩
  have hkeeps : ∀ m', rules.Keeps m.pushScope m' → rules.Keeps m m'.popScope := by
    intro m' hm'
    refine ⟨?_, hm'.depth_eq, h.onward_trans honward hm'.onward, hm'.store⟩
    rw [Machine.popScope, hm'.env_eq]
    rfl
  unfold Run.inScope
  revert hlands
  cases x m.pushScope with
  | ok a m' => exact fun hlands => ⟨hkeeps m' hlands.1, hlands.2⟩
  | error halt m' => exact fun hlands => ⟨hkeeps m' hlands.1, hlands.2⟩

theorem inScope {x : Run α} (hx : rules.Safe depth st x Q) :
    rules.Safe depth st (Run.inScope x) Q :=
  fun _ hm => h.lands_inScope hx (h.enters_of_stands hm)

theorem inCall {x : Run α} {f : Closure} (hf : rules.scope st f.scope)
    (hx : rules.Safe (depth + 1) st x Q) :
    rules.Safe depth st (Run.inCall f (Run.inScope x)) Q := by
  intro m hm
  have hlands := h.lands_inScope hx (m := m.enterCall f)
    ⟨congrArg (· + 1) hm.depth_eq, hm.onward, hm.store, h.scope_mono hm.onward hf⟩
  have hkeeps : ∀ m', rules.Keeps (m.enterCall f) m' → rules.Keeps m (m'.leaveCall m.env) := by
    intro m' hm'
    have hdepth : m'.depth = m.depth + 1 := hm'.depth_eq
    exact ⟨rfl, by simp [Machine.leaveCall, hdepth], hm'.onward, hm'.store⟩
  unfold Run.inCall
  revert hlands
  dsimp only
  cases Run.inScope x (m.enterCall f) with
  | ok a m' => exact fun hlands => ⟨hkeeps m' hlands.1, hlands.2⟩
  | error halt m' => exact fun hlands => ⟨hkeeps m' hlands.1, hlands.2⟩

end Primitives

/-! ## Lists of parts -/

section Lists

variable {eval : Expr → Run Value} {exec : Stmt → Run Flow}
variable (h : rules.Lawful)
include h

theorem evaluateAll {es : List Expr} (he : ∀ e ∈ es, rules.Safe depth st (eval e) rules.Fits) :
    rules.Safe depth st (Run.evaluateAll eval es) rules.FitsAll := by
  induction es generalizing st with
  | nil => exact h.pure (by simp [FitsAll])
  | cons e es ih =>
      rw [List.forall_mem_cons] at he
      refine h.bind he.1 fun st₁ v hst₁ hv => ?_
      refine h.bind (ih fun e hmem => h.safe_onward hst₁ (he.2 e hmem)) fun st₂ vs hst₂ hvs => ?_
      refine h.pure fun st' hst' => ?_
      have hv := h.fits_mono (h.onward_trans hst₂ hst') hv
      have hvs := h.fitsAll_mono hst' hvs
      simpa [FitsAll] using And.intro hv hvs

theorem defineAll {bs : List (Token × Value)} (hbs : ∀ b ∈ bs, rules.Fits st b.2) :
    rules.Safe depth st (Run.defineAll bs) Any := by
  induction bs generalizing st with
  | nil => exact h.pure fun _ _ => trivial
  | cons b bs ih =>
      rw [List.forall_mem_cons] at hbs
      exact h.bind (h.define b.1 hbs.1) fun st' _ hst' _ =>
        ih fun b hb => h.fits_mono hst' (hbs.2 b hb)

theorem defineZip (names : List Token) {vs : List Value} (hvs : rules.FitsAll st vs) :
    rules.Safe depth st (Run.defineAll (names.zip vs)) Any :=
  h.defineAll fun _ hb => hvs _ (List.of_mem_zip hb).2

theorem executeAll {body : List Stmt}
    (hs : ∀ s ∈ body, rules.Safe depth st (exec s) rules.FitsFlow) :
    rules.Safe depth st (Run.executeAll exec body) rules.FitsFlow := by
  induction body generalizing st with
  | nil => exact h.pure (by rintro _ - _ ⟨⟩)
  | cons s body ih =>
      rw [List.forall_mem_cons] at hs
      refine h.bind hs.1 fun st' flow hst' hflow => ?_
      cases flow with
      | normal => exact ih fun s hmem => h.safe_onward hst' (hs.2 s hmem)
      | broke line => exact h.pure (by rintro _ - _ ⟨⟩)
      | next line => exact h.pure (by rintro _ - _ ⟨⟩)
      | returned v =>
          refine h.pure ?_
          rintro st'' hst'' _ ⟨⟩
          exact h.fits_mono hst'' (hflow v rfl)

theorem callBody {f : Closure} {args : List Value} (hargs : rules.FitsAll st args)
    (hs : ∀ s ∈ f.body, rules.Safe depth st (exec s) rules.FitsFlow) :
    rules.Safe depth st (do Run.defineAll (f.params.zip args); Run.executeAll exec f.body)
      rules.FitsFlow :=
  h.bind (h.defineZip f.params hargs) fun _ _ hst' _ =>
    h.executeAll fun s hmem => h.safe_onward hst' (hs s hmem)

theorem itemBody (name : Token) {item : Value} {body : List Stmt} (hitem : rules.Fits st item)
    (hs : ∀ s ∈ body, rules.Safe depth st (exec s) rules.FitsFlow) :
    rules.Safe depth st (do Run.define name item; Run.executeAll exec body) rules.FitsFlow :=
  h.bind (h.define name hitem) fun _ _ hst' _ =>
    h.executeAll fun s hmem => h.safe_onward hst' (hs s hmem)

end Lists

/-! ## Expressions -/

section Expressions

variable {eval : Expr → Run Value} {exec : Stmt → Run Flow}
variable (h : rules.Lawful)
include h

theorem callClosure {f : Closure} {args : List Value} (line : Nat)
    (hbody : rules.body f.body) (hf : rules.scope st f.scope) (hargs : rules.FitsAll st args)
    (hjumps : Run.JumpsOut exec)
    (hs : depth < settings.maxCallDepth →
      ∀ s ∈ f.body, rules.Safe (depth + 1) st (exec s) rules.FitsFlow) :
    rules.Safe depth st (Run.callClosure settings exec f args line) rules.Fits := by
  intro m hm
  change rules.Lands rules.Fits m ((if settings.maxCallDepth ≤ m.depth then
    Run.failAt line .stackTooDeep else Run.inCall f _ >>= _) m)
  split
  · exact h.failAt line rfl m hm
  · next hroom =>
      have hs := hs (by rw [← hm.depth_eq]; omega)
      have hrun : rules.Safe depth st (Run.inCall f (Run.inScope do
          Run.defineAll (f.params.zip args)
          Run.executeAll exec f.body)) rules.FitsFlow :=
        h.inCall hf (h.callBody hargs hs)
      refine h.bind (yields hrun (hjumps.body f _)) ?_ m hm
      rintro st' flow hst' ⟨hflow, hfrom⟩
      have hstray : ∀ e, flow.jumpError? = some e → rules.stops (.failed e) := by
        intro e he
        obtain ⟨s, hmem, hout⟩ := hfrom e he
        exact h.stops_jump hbody hmem hout
      cases flow with
      | normal => exact h.pure fun _ _ => fits_of_isPlain rfl
      | broke line => exact h.throw (hstray _ rfl)
      | next line => exact h.throw (hstray _ rfl)
      | returned v => exact h.pure fun st'' hst'' => h.fits_mono hst'' (hflow v rfl)

theorem callHost (hhost : rules.Hosts settings) (f : HostFunction) {args : List Value}
    (line : Nat) (hargs : rules.FitsAll st args) :
    rules.Safe depth st (Run.callHost settings f args line) rules.Fits := by
  refine h.bind h.passMoment fun st₁ moment hst₁ _ => ?_
  refine h.ofExcept line (fun v hv st₂ hst₂ => ?_) fun failure hfailed => ?_
  · unfold HostFunction.call at hv
    split at hv
    · cases hv
      exact fits_of_isPlain rfl
    · exact hhost.fits hv (h.fitsAll_mono (h.onward_trans hst₁ hst₂) hargs)
  · unfold HostFunction.call at hfailed
    split at hfailed
    · cases hfailed
    · exact hhost.stops line hfailed

theorem call (hhost : rules.Hosts settings) {callee : Value} {args : List Value} (line : Nat)
    (hcallee : rules.Fits st callee) (hargs : rules.FitsAll st args) (hjumps : Run.JumpsOut exec)
    (hbody : depth < settings.maxCallDepth → ∀ body, rules.body body →
      ∀ s ∈ body, rules.Safe (depth + 1) st (exec s) rules.FitsFlow) :
    rules.Safe depth st (Run.call settings exec callee args line) rules.Fits := by
  cases callee with
  | host f =>
      simp only [Run.call]
      split
      · exact h.callHost hhost f line hargs
      · exact h.failAt line rfl
  | closure f =>
      simp only [Run.call]
      split
      · obtain ⟨hadmitted, hscope⟩ := hcallee f (.closure f)
        exact h.callClosure line hadmitted hscope hargs hjumps fun hroom =>
          hbody hroom f.body hadmitted
      · exact h.failAt line rfl
  | _ => exact h.failAt line rfl

theorem assignment (name op : Token) {v : Value} (hv : rules.Fits st v)
    (hname : (BinaryOp.ofCompound? op.kind).isSome → rules.update name.lexeme)
    (hop : ¬(op.kind = .equal ∨ (BinaryOp.ofCompound? op.kind).isSome) →
      rules.stops (.failed ⟨.unsupportedOperator op.lexeme, op.line⟩)) :
    rules.Safe depth st (Run.assignment name op v) rules.Fits := by
  unfold Run.assignment
  split
  · exact h.bind (h.define name hv) fun st' _ hst' _ =>
      h.pure fun st'' hst'' => h.fits_mono (h.onward_trans hst' hst'') hv
  · next hplain =>
      cases hcompound : BinaryOp.ofCompound? op.kind with
      | none => exact h.throw (hop (by simp [hplain, hcompound]))
      | some binary =>
          refine h.bind (h.lookup name) fun st₁ old hst₁ hold => ?_
          refine h.bind (h.ofOperator op.line
            (fun v f hv => Value.not_holds_of_isPlain (Value.isPlain_of_binary hv))
            fun _ => Value.isStructural_binary) fun st₂ new hst₂ hnew => ?_
          exact h.bind (h.assign name (hname (by simp [hcompound])) hnew) fun st₃ _ hst₃ _ =>
            h.pure fun st' hst' => h.fits_mono (h.onward_trans hst₃ hst') hnew

theorem evaluateWith (hhost : rules.Hosts settings) {e : Expr}
    (he : ∀ part ∈ e.parts, rules.Safe depth st (eval part) rules.Fits)
    (hupdate : ∀ x, e.IsUpdate x → rules.update x) (hjumps : Run.JumpsOut exec)
    (hbody : depth < settings.maxCallDepth → ∀ body, rules.body body →
      ∀ s ∈ body, rules.Safe (depth + 1) st (exec s) rules.FitsFlow)
    (hop : ¬e.HasOperator → ∀ op line, rules.stops (.failed ⟨.unsupportedOperator op, line⟩)) :
    rules.Safe depth st (Run.evaluateWith settings eval exec e) rules.Fits := by
  cases e with
  | literal value => exact h.pure fun _ _ => fits_of_isPlain (Value.isPlain_ofLiteral value)
  | group inner => exact he inner (by simp [Expr.parts])
  | unary op operand =>
      refine h.bind (he operand (by simp [Expr.parts])) fun st' v hst' hv => ?_
      cases hunary : UnaryOp.ofKind? op.kind with
      | none => exact h.throw (hop (by simp [Expr.HasOperator, hunary]) _ _)
      | some unary =>
          exact h.ofOperator op.line
            (fun v f hv => Value.not_holds_of_isPlain (Value.isPlain_of_unary hv))
            fun _ => Value.isStructural_unary
  | binary left op right =>
      refine h.bind (he left (by simp [Expr.parts])) fun st₁ l hst₁ hl => ?_
      refine h.bind (h.safe_onward hst₁ (he right (by simp [Expr.parts]))) fun st₂ r hst₂ hr => ?_
      cases hbinary : BinaryOp.ofKind? op.kind with
      | none => exact h.throw (hop (by simp [Expr.HasOperator, hbinary]) _ _)
      | some binary =>
          exact h.ofOperator op.line
            (fun v f hv => Value.not_holds_of_isPlain (Value.isPlain_of_binary hv))
            fun _ => Value.isStructural_binary
  | logical left op right =>
      refine h.bind (he left (by simp [Expr.parts])) fun st' l hst' hl => ?_
      split
      · exact h.pure fun st'' hst'' => h.fits_mono hst'' hl
      · exact h.safe_onward hst' (he right (by simp [Expr.parts]))
  | range left op right inclusive =>
      refine h.bind (he left (by simp [Expr.parts])) fun st₁ l hst₁ hl => ?_
      refine h.bind (h.safe_onward hst₁ (he right (by simp [Expr.parts]))) fun st₂ r hst₂ hr => ?_
      exact h.ofOperator op.line (fun v f => Value.not_holds_range)
        fun _ => Value.isStructural_range
  | var name => exact h.lookup name
  | assign name op value =>
      exact h.bind (he value (by simp [Expr.parts])) fun st' v hst' hv =>
        h.assignment name op hv (fun hcompound => hupdate _ ⟨rfl, hcompound⟩)
          fun hunknown => hop hunknown _ _
  | call callee paren arguments =>
      simp only [Expr.parts, List.forall_mem_cons] at he
      refine h.bind he.1 fun st₁ f hst₁ hf => ?_
      refine h.bind (h.evaluateAll fun e hmem => h.safe_onward hst₁ (he.2 e hmem))
        fun st₂ args hst₂ hargs => ?_
      exact h.call hhost paren.line (h.fits_mono hst₂ hf) hargs hjumps
        fun hroom body hadmitted s hs =>
        h.safe_onward (h.onward_trans hst₁ hst₂) (hbody hroom body hadmitted s hs)
  | sequence left right =>
      exact h.bind (he left (by simp [Expr.parts])) fun st' _ hst' _ =>
        h.safe_onward hst' (he right (by simp [Expr.parts]))

end Expressions

/-! ## Statements -/

section Statements

variable {eval : Expr → Run Value} {exec : Stmt → Run Flow}
variable (h : rules.Lawful)
include h

theorem loop {round : Run (Option Flow)} (hround : rules.Safe depth st round rules.FitsRound)
    (hstops : rules.stops .outOfFuel) (fuel : Nat) :
    rules.Safe depth st (Run.loop round fuel) rules.FitsFlow := by
  induction fuel generalizing st with
  | zero => exact h.throw hstops
  | succ fuel ih =>
      refine h.bind hround fun st' ending hst' hending => ?_
      cases ending with
      | none => exact ih (h.safe_onward hst' hround)
      | some flow =>
          refine h.pure fun st'' hst'' v hv => ?_
          exact h.fits_mono hst'' (hending flow rfl v hv)

theorem afterBody {x : Run Flow} (hx : rules.Safe depth st x rules.FitsFlow) :
    rules.Safe depth st (x >>= fun flow => Pure.pure flow.afterBody) rules.FitsRound := by
  refine h.bind hx fun st' flow hst' hflow => h.pure fun st'' hst'' => ?_
  have hflow : rules.FitsFlow st'' flow := fun v hv => h.fits_mono hst'' (hflow v hv)
  exact hflow.afterBody

theorem endlessLoop {body : List Stmt}
    (hs : ∀ s ∈ body, rules.Safe depth st (exec s) rules.FitsFlow)
    (hstops : rules.stops .outOfFuel) (fuel : Nat) :
    rules.Safe depth st (Run.loop (Flow.afterBody <$> Run.executeAll exec body) fuel)
      rules.FitsFlow := by
  refine h.loop ?_ hstops fuel
  rw [map_eq_pure_bind]
  exact h.afterBody (h.executeAll hs)

theorem conditionalRound (wanted : Bool) {condition : Expr} {body : List Stmt}
    (he : rules.Safe depth st (eval condition) rules.Fits)
    (hs : ∀ s ∈ body, rules.Safe depth st (exec s) rules.FitsFlow) :
    rules.Safe depth st (Run.conditionalRound eval exec wanted condition body)
      rules.FitsRound := by
  refine h.bind he fun st' v hst' hv => ?_
  split
  · exact h.afterBody (h.inScope (h.executeAll fun s hmem => h.safe_onward hst' (hs s hmem)))
  · exact h.pure (by rintro _ - _ ⟨⟩ _ ⟨⟩)

theorem forEach (name : Token) {body : List Stmt} {items : List Value}
    (hs : ∀ s ∈ body, rules.Safe depth st (exec s) rules.FitsFlow)
    (hitems : rules.FitsAll st items) :
    rules.Safe depth st (Run.forEach exec name body items) rules.FitsFlow := by
  induction items generalizing st with
  | nil => exact h.pure (by rintro _ - _ ⟨⟩)
  | cons item items ih =>
      obtain ⟨hitem, hitems⟩ := List.forall_mem_cons.mp hitems
      refine h.bind (h.inScope (h.itemBody name hitem hs)) fun st' flow hst' hflow => ?_
      have hafter := hflow.afterBody
      cases hending : flow.afterBody with
      | none =>
          exact ih (fun s hmem => h.safe_onward hst' (hs s hmem)) (h.fitsAll_mono hst' hitems)
      | some flow' =>
          refine h.pure fun st'' hst'' v hv => ?_
          exact h.fits_mono hst'' (hafter flow' hending v hv)

theorem printAll (ending : String) {es : List Expr}
    (he : ∀ e ∈ es, rules.Safe depth st (eval e) rules.Fits) :
    rules.Safe depth st (Run.printAll settings eval ending es) Any := by
  induction es generalizing st with
  | nil => exact h.pure fun _ _ => trivial
  | cons e es ih =>
      rw [List.forall_mem_cons] at he
      refine h.bind he.1 fun st₁ v hst₁ hv => h.bind (h.print _) fun st₂ _ hst₂ _ => ?_
      exact ih fun e hmem => h.safe_onward (h.onward_trans hst₁ hst₂) (he.2 e hmem)

theorem printStatement {values : List Expr} (newline : Bool)
    (he : ∀ e ∈ values, rules.Safe depth st (eval e) rules.Fits) :
    rules.Safe depth st (Run.printStatement settings eval values newline) Any := by
  unfold Run.printStatement
  split
  · exact h.print "\n"
  · exact h.printAll _ he

theorem orElse {otherwise : Option (List Stmt)}
    (hs : ∀ s ∈ otherwise.getD [], rules.Safe depth st (exec s) rules.FitsFlow) :
    rules.Safe depth st (Run.orElse exec otherwise) rules.FitsFlow := by
  cases otherwise with
  | none => exact h.pure (by rintro _ - _ ⟨⟩)
  | some body => exact h.executeAll hs

theorem arm (taken : Value → Bool) {condition : Expr} {body : List Stmt} {others : Run Flow}
    (he : rules.Safe depth st (eval condition) rules.Fits)
    (hs : ∀ s ∈ body, rules.Safe depth st (exec s) rules.FitsFlow)
    (hothers : ∀ st', rules.onward st st' → rules.Safe depth st' others rules.FitsFlow) :
    rules.Safe depth st (eval condition >>= fun v =>
      if taken v then Run.executeAll exec body else others) rules.FitsFlow := by
  refine h.bind he fun st' v hst' hv => ?_
  split
  · exact h.executeAll fun s hmem => h.safe_onward hst' (hs s hmem)
  · exact hothers st' hst'

theorem firstTrue {otherwise : Option (List Stmt)} {arms : List (Expr × List Stmt)}
    (he : ∀ e ∈ arms.map Prod.fst, rules.Safe depth st (eval e) rules.Fits)
    (hs : ∀ s ∈ arms.flatMap Prod.snd ++ otherwise.getD [],
      rules.Safe depth st (exec s) rules.FitsFlow) :
    rules.Safe depth st (Run.firstTrue eval exec otherwise arms) rules.FitsFlow := by
  induction arms generalizing st with
  | nil => exact h.orElse hs
  | cons arm arms ih =>
      simp only [List.map_cons, List.forall_mem_cons, List.flatMap_cons, List.append_assoc,
        List.forall_mem_append] at he hs
      refine h.arm Value.isTruthy he.1 hs.1 fun st' hst' => ?_
      refine ih (fun e hmem => h.safe_onward hst' (he.2 e hmem)) ?_
      exact fun s hmem => h.safe_onward hst' (List.forall_mem_append.mpr hs.2 s hmem)

theorem firstMatch {otherwise : Option (List Stmt)} (subject : Value)
    {arms : List (Expr × List Stmt)}
    (he : ∀ e ∈ arms.map Prod.fst, rules.Safe depth st (eval e) rules.Fits)
    (hs : ∀ s ∈ arms.flatMap Prod.snd ++ otherwise.getD [],
      rules.Safe depth st (exec s) rules.FitsFlow) :
    rules.Safe depth st (Run.firstMatch eval exec otherwise subject arms) rules.FitsFlow := by
  induction arms generalizing st with
  | nil => exact h.orElse hs
  | cons arm arms ih =>
      simp only [List.map_cons, List.forall_mem_cons, List.flatMap_cons, List.append_assoc,
        List.forall_mem_append] at he hs
      refine h.arm (Run.caseMatches subject) he.1 hs.1 fun st' hst' => ?_
      refine ih (fun e hmem => h.safe_onward hst' (he.2 e hmem)) ?_
      exact fun s hmem => h.safe_onward hst' (List.forall_mem_append.mpr hs.2 s hmem)

theorem normally {x : Run β} (hx : rules.Safe depth st x P) :
    rules.Safe depth st (x >>= fun _ => Pure.pure Flow.normal) rules.FitsFlow :=
  h.bind hx fun _ _ _ _ => h.pure (by rintro _ - _ ⟨⟩)

theorem executeWith (fuel : Nat) {s : Stmt}
    (he : ∀ e ∈ s.exprs, rules.Safe depth st (eval e) rules.Fits)
    (hs : ∀ t ∈ s.stmts, rules.Safe depth st (exec t) rules.FitsFlow)
    (hloop : s.isUnbounded → rules.stops .outOfFuel)
    (hdefine : ∀ name params body, s = .define name params body → rules.body body) :
    rules.Safe depth st (Run.executeWith settings fuel eval exec s) rules.FitsFlow := by
  cases s with
  | expr e => exact h.normally (he e (by simp [Stmt.exprs]))
  | print keyword values newline => exact h.normally (h.printStatement newline he)
  | assign names values =>
      refine h.bind (h.evaluateAll he) fun st' vs hst' hvs => ?_
      exact h.normally (h.defineZip names hvs)
  | block body => exact h.inScope (h.executeAll hs)
  | ifDo conditions branches otherwise =>
      exact h.firstTrue (fun e hmem => he e (Stmt.mem_of_mem_map_fst_zip hmem))
        fun s hmem => hs s (Stmt.zip_subset_stmts conditions branches otherwise hmem)
  | unlessDo condition body otherwise =>
      simp only [Stmt.stmts, List.forall_mem_append] at hs
      refine h.bind (he condition (by simp [Stmt.exprs])) fun st' v hst' hv => ?_
      split
      · exact h.orElse fun s hmem => h.safe_onward hst' (hs.2 s hmem)
      · exact h.executeAll fun s hmem => h.safe_onward hst' (hs.1 s hmem)
  | whileDo condition body =>
      exact h.loop (h.conditionalRound true (he condition (by simp [Stmt.exprs])) hs)
        (hloop rfl) fuel
  | untilDo condition body =>
      exact h.loop (h.conditionalRound false (he condition (by simp [Stmt.exprs])) hs)
        (hloop rfl) fuel
  | loopDo body => exact h.inScope (h.endlessLoop hs (hloop rfl) fuel)
  | forDo name iterable body =>
      refine h.bind (he iterable (by simp [Stmt.exprs])) fun st' v hst' hv => ?_
      cases v with
      | list items =>
          exact h.forEach name (fun s hmem => h.safe_onward hst' (hs s hmem)) hv.items
      | _ => exact h.failAt name.line rfl
  | caseDo subject conditions branches otherwise =>
      simp only [Stmt.exprs, List.forall_mem_cons] at he
      refine h.bind he.1 fun st' v hst' hv => h.firstMatch v (fun e hmem => ?_) fun s hmem => ?_
      · exact h.safe_onward hst' (he.2 e (Stmt.mem_of_mem_map_fst_zip hmem))
      · exact h.safe_onward hst' (hs s (Stmt.zip_subset_stmts conditions branches otherwise hmem))
  | define name params body =>
      refine h.bind (h.makeClosure name params (hdefine _ _ _ rfl)) fun st' f hst' hf => ?_
      exact h.normally (h.define name hf)
  | returnFrom keyword value =>
      cases value with
      | none =>
          refine h.pure ?_
          rintro st' - _ ⟨⟩
          exact fits_of_isPlain rfl
      | some e =>
          refine h.bind (he e (by simp [Stmt.exprs])) fun st' v hst' hv => h.pure ?_
          rintro st'' hst'' _ ⟨⟩
          exact h.fits_mono hst'' hv
  | breakLoop keyword => exact h.pure (by rintro _ - _ ⟨⟩)
  | nextRound keyword => exact h.pure (by rintro _ - _ ⟨⟩)

theorem interpretWith {program : List Stmt} (hbody : rules.body program)
    (hexec : Run.JumpsOut exec)
    (hs : ∀ s ∈ program, rules.Safe depth st (exec s) rules.FitsFlow) :
    rules.Safe depth st (Run.interpretWith exec program) Any := by
  have hjumps : ∀ s ∈ program, ∀ e, s.LetsOut e → rules.stops (.failed e) :=
    fun s hmem e => h.stops_jump hbody hmem
  clear hbody
  induction program generalizing st with
  | nil => exact h.pure fun _ _ => trivial
  | cons s program ih =>
      rw [List.forall_mem_cons] at hs hjumps
      refine h.bind (yields hs.1 (hexec s)) ?_
      rintro st' flow hst' ⟨hflow, hfrom⟩
      have hstray : ∀ e, flow.jumpError? = some e → rules.stops (.failed e) := by
        intro e he
        obtain ⟨t, ht, hout⟩ := hfrom e he
        rw [List.mem_singleton.mp ht] at hout
        exact hjumps.1 e hout
      cases flow with
      | normal => exact ih (fun s hmem => h.safe_onward hst' (hs.2 s hmem)) hjumps.2
      | broke line => exact h.throw (hstray _ rfl)
      | next line => exact h.throw (hstray _ rfl)
      | returned v => exact h.pure fun _ _ => trivial

theorem interpret (fuel : Nat) {program : List Stmt} (hbody : rules.body program)
    (hs : ∀ s ∈ program, rules.Safe depth st (Run.execute settings fuel s) rules.FitsFlow) :
    rules.Safe depth st (Run.interpret settings fuel program) Any :=
  h.interpretWith hbody (Run.jumpsOut_execute settings fuel) hs

end Statements

/-! ## Whole runs -/

/-- Runs keep to the rules with any amount of fuel, if the nodes of the trees have properties that
the nodes of all bodies share, and statements of this kind are executed part by part. -/
theorem unrolled (h : rules.Lawful) (hhost : rules.Hosts settings) {p : Expr → Prop}
    {q : Stmt → Prop} {eval : Nat → Expr → Run Value} {exec : Nat → Stmt → Run Flow}
    (hunroll : Run.Unrolls settings q eval exec)
    (hbody : ∀ body, rules.body body → ∀ s ∈ body, s.All p q)
    (hdefine : ∀ name params body, q (.define name params body) → (∀ s ∈ body, s.All p q) →
      rules.body body)
    (hupdate : ∀ e, p e → ∀ x, e.IsUpdate x → rules.update x)
    (hop : ∀ e, p e → ¬e.HasOperator → ∀ op line,
      rules.stops (.failed ⟨.unsupportedOperator op, line⟩))
    (hfuel : rules.stops .outOfFuel) (fuel : Nat) :
    (∀ depth st e, e.All p → rules.Safe depth st (eval fuel e) rules.Fits) ∧
      ∀ depth st s, s.All p q → rules.Safe depth st (exec fuel s) rules.FitsFlow := by
  induction fuel with
  | zero =>
      constructor
      · intro depth st e he
        rw [hunroll.eval_zero]
        exact h.throw hfuel
      · intro depth st s hs
        rw [hunroll.exec_zero]
        exact h.throw hfuel
  | succ fuel ih =>
      -- a body that is called is no part of the tree, but it is run with less fuel
      obtain ⟨ihe, ihs⟩ := ih
      constructor
      · intro depth st e he
        have hnode := (Expr.all_iff.mp he).1
        rw [hunroll.eval_succ]
        refine h.evaluateWith hhost (fun part hpart => ihe _ _ _ (he.parts part hpart))
          (hupdate e hnode) (hunroll.jumps fuel) ?_ (hop e hnode)
        intro _ body hadmitted s hs
        exact ihs _ _ _ (hbody body hadmitted s hs)
      · intro depth st s hs
        rw [hunroll.exec_succ fuel s (Stmt.all_iff.mp hs).1]
        refine h.executeWith fuel (fun e he => ihe _ _ _ (hs.exprs e he))
          (fun t ht => ihs _ _ _ (hs.stmts t ht)) (fun _ => hfuel) ?_
        rintro name params body rfl
        exact hdefine name params body (Stmt.all_iff.mp hs).1 hs.stmts

theorem evaluate_execute (h : rules.Lawful) (hhost : rules.Hosts settings) {p : Expr → Prop}
    {q : Stmt → Prop}
    (hbody : ∀ body, rules.body body → ∀ s ∈ body, s.All p q)
    (hdefine : ∀ name params body, q (.define name params body) → (∀ s ∈ body, s.All p q) →
      rules.body body)
    (hupdate : ∀ e, p e → ∀ x, e.IsUpdate x → rules.update x)
    (hop : ∀ e, p e → ¬e.HasOperator → ∀ op line,
      rules.stops (.failed ⟨.unsupportedOperator op, line⟩))
    (hfuel : rules.stops .outOfFuel) (fuel : Nat) :
    (∀ depth st e, e.All p → rules.Safe depth st (Run.evaluate settings fuel e) rules.Fits) ∧
      ∀ depth st s, s.All p q →
        rules.Safe depth st (Run.execute settings fuel s) rules.FitsFlow :=
  h.unrolled hhost (Run.unrolls_execute settings q) hbody hdefine hupdate hop hfuel fuel

end Lawful

end Regime

end Scriptlet
