import Mathlib
import Scriptlet.Proofs.Machine.Balance
import Scriptlet.Proofs.Scope.Reach
import Scriptlet.Proofs.Value.Result

/-!
# Isolated calls

A call gets hold of nothing but what its function and its arguments reach and what is made on the
way, and it writes only along the chains of functions that it calls.  So two functions that were
made in different calls of one function keep their variables apart.
-/

namespace Scriptlet

/-! ## What a call may use -/

section Admission

variable (st : Store) (f : Closure) (args : List Value)

/-- A scope that the call reaches or that was made since. -/
def Store.Allows (id : ScopeId) : Prop :=
  st.ReachesScope f args id ∨ st.size ≤ id

def Store.Admits (g : Closure) : Prop :=
  (g = f ∨ st.closures ≤ g.id ∨ st.Reaches f args g) ∧ st.Allows f args g.scope

def Likeness.within : Likeness where
  closure g g' := g' = g ∧ st.Admits f args g
  line g := g = id
  of_closure := by
    rintro g _ ⟨rfl, -⟩
    exact ⟨id, rfl, by rw [renumber_closure_id, id]⟩

theorem Likeness.isRigid_within : (Likeness.within st f args).IsRigid :=
  ⟨And.left, id⟩

end Admission

variable {st : Store} {f g : Closure} {args : List Value}

theorem Store.admits_self : st.Admits f args f :=
  ⟨.inl rfl, .inl .own⟩

theorem Store.admits_of_reaches (h : st.Reaches f args g) : st.Admits f args g :=
  ⟨.inr (.inr h), .inl h.scope⟩

theorem Store.alike_of_bound {id : ScopeId} {name : String} {v : Value}
    (hid : st.Allows f args id) (hv : st.get? id name = some v) :
    Value.Alike (.within st f args) v v := by
  refine Value.alike_self v fun g hg => ⟨rfl, ?_⟩
  rcases hid with hid | hid
  · exact admits_of_reaches (.inr ⟨id, name, v, hid, hv, hg⟩)
  · have hnone : st.scopes[id]? = none := Array.getElem?_eq_none hid
    simp [Store.get?, hnone] at hv

/-! ## Machines during the call -/

namespace Machine

def HasEntered (m : Machine) (i : ScopeId) : Prop :=
  ∃ g, m.called g ∧ i ∈ m.store.chain g.scope

structure Extends (m m' : Machine) : Prop where
  called_mono (g : Closure) : m.called g → m'.called g
  parent?_mono (id p : ScopeId) : m.store.parent? id = some p → m'.store.parent? id = some p

variable {m m' m'' : Machine}

theorem Extends.trans (h : m.Extends m') (h' : m'.Extends m'') : m.Extends m'' where
  called_mono g hg := h'.called_mono g (h.called_mono g hg)
  parent?_mono id p hp := h'.parent?_mono id p (h.parent?_mono id p hp)

theorem Extends.refl (m : Machine) : m.Extends m :=
  ⟨fun _ hg => hg, fun _ _ hp => hp⟩

theorem extends_setAll (m : Machine) (ids : List ScopeId) (name : String) (v : Value) :
    m.Extends { m with store := m.store.setAll ids name v } :=
  ⟨fun _ hg => hg, fun id p hp => by simpa using hp⟩

theorem extends_addClosure (m : Machine) :
    m.Extends { m with store := m.store.addClosure } :=
  ⟨fun _ hg => hg, fun _ _ hp => hp⟩

theorem extends_pushScope (m : Machine) : m.Extends m.pushScope :=
  ⟨fun _ hg => hg, fun _ _ => Store.parent?_addChild_of_some m.env.current⟩

theorem extends_enterCall (m : Machine) (g : Closure) : m.Extends (m.enterCall g) :=
  ⟨fun _ hg => .inr hg, fun _ _ hp => hp⟩

theorem HasEntered.mono {i : ScopeId} (hi : m.HasEntered i) (h : m.Extends m') :
    m'.HasEntered i := by
  obtain ⟨g, hg, hi⟩ := hi
  exact ⟨g, h.called_mono g hg, Store.mem_chain_of_parents h.parent?_mono hi⟩

/-- A machine on the way through a call that started on the store `st`: it works in allowed scopes
on admitted values, and older scopes that it stands in or has changed belong to functions that it
called. -/
structure Isolated (st : Store) (f : Closure) (args : List Value) (m : Machine) : Prop where
  size_le : st.size ≤ m.store.size
  closures_le : st.closures ≤ m.store.closures
  parent?_eq (id : ScopeId) : id < st.size → m.store.parent? id = st.parent? id
  allows_parent (id p : ScopeId) :
    st.Allows f args id → m.store.parent? id = some p → st.Allows f args p
  alike_bound (id : ScopeId) (name : String) (v : Value) :
    st.Allows f args id → m.store.get? id name = some v → Value.Alike (.within st f args) v v
  allows_current : st.Allows f args m.env.current
  admits_called (g : Closure) : m.called g → st.Admits f args g
  entered (id i : ScopeId) : st.size ≤ id ∨ id = m.env.current → i < st.size →
    i ∈ m.store.chain id → m.HasEntered i
  changed (i : ScopeId) : i < st.size → m.store.scopes[i]? ≠ st.scopes[i]? → m.HasEntered i

namespace Isolated

variable {v : Value}

theorem allows_chain (h : m.Isolated st f args) {id i : ScopeId} (hid : st.Allows f args id)
    (hi : i ∈ m.store.chain id) : st.Allows f args i :=
  Store.of_mem_chain h.allows_parent hid hi

theorem alike_lookup (h : m.Isolated st f args) {name : String}
    (hv : m.env.lookup m.store name = some v) : Value.Alike (.within st f args) v v := by
  unfold Environment.lookup at hv
  split at hv
  · next w hw =>
      cases hv
      obtain ⟨i, hi, hget⟩ := List.exists_of_findSome?_eq_some hw
      exact h.alike_bound i name v (h.allows_chain h.allows_current hi) hget
  · split at hv <;> cases hv
    exact .plain rfl

theorem setAll (h : m.Isolated st f args) {ids : List ScopeId}
    (hids : ∀ i ∈ ids, i ∈ m.store.chain m.env.current) (name : String)
    (hv : Value.Alike (.within st f args) v v) :
    Isolated st f args { m with store := m.store.setAll ids name v } where
  size_le := by simpa using h.size_le
  closures_le := by simpa using h.closures_le
  parent?_eq id hid := by simpa using h.parent?_eq id hid
  allows_parent id p hid hp := h.allows_parent id p hid (by simpa using hp)
  alike_bound id x w hid hw := by
    rcases Store.get?_of_get?_setAll hw with hw | rfl
    · exact h.alike_bound id x w hid hw
    · exact hv
  allows_current := h.allows_current
  admits_called := h.admits_called
  entered id i hid hi hmem := by
    have hchain := Store.chain_congr (m.store.parent?_setAll ids · name v) id
    exact (h.entered id i hid hi (hchain ▸ hmem)).mono (m.extends_setAll ids name v)
  changed i hi hne := by
    refine HasEntered.mono ?_ (m.extends_setAll ids name v)
    by_cases hmem : i ∈ ids
    · exact h.entered _ i (.inr rfl) hi (hids i hmem)
    · exact h.changed i hi (Store.getElem?_scopes_setAll hmem name v ▸ hne)

theorem addClosure (h : m.Isolated st f args) :
    Isolated st f args { m with store := m.store.addClosure } :=
  have hchain : m.store.addClosure.chain = m.store.chain :=
    funext (Store.chain_congr fun _ => rfl)
  { h with
    closures_le := Nat.le_succ_of_le h.closures_le
    entered := fun id i hid hi hmem =>
      (h.entered id i hid hi (hchain ▸ hmem)).mono m.extends_addClosure
    changed := fun i hi hne => (h.changed i hi hne).mono m.extends_addClosure }

theorem pushScope (h : m.Isolated st f args) : m.pushScope.Isolated st f args where
  size_le := Nat.le_trans h.size_le (by simp [Machine.pushScope, Environment.push])
  closures_le := h.closures_le
  parent?_eq id hid := by
    have hne : id ≠ m.store.size := Nat.ne_of_lt (Nat.lt_of_lt_of_le hid h.size_le)
    exact (Store.parent?_addChild_of_ne m.env.current hne).trans (h.parent?_eq id hid)
  allows_parent id p hid hp := by
    change (m.store.addChild m.env.current).parent? id = some p at hp
    by_cases hne : id = m.store.size
    · subst hne
      rw [Store.parent?_addChild_size] at hp
      split at hp <;> cases hp
      exact h.allows_current
    · rw [Store.parent?_addChild_of_ne _ hne] at hp
      exact h.allows_parent id p hid hp
  alike_bound id x w hid hw := h.alike_bound id x w hid (by
    simpa [Machine.pushScope, Environment.push] using hw)
  allows_current := .inr h.size_le
  admits_called := h.admits_called
  entered id i hid hi hmem := by
    refine HasEntered.mono ?_ m.extends_pushScope
    by_cases hne : id = m.store.size
    · subst hne
      rcases Store.mem_chain_addChild_size hmem with rfl | hmem
      · exact absurd h.size_le (Nat.not_le_of_lt hi)
      · exact h.entered _ i (.inr rfl) hi hmem
    · have hchain := Store.chain_addChild_of_ne m.env.current hne
      exact h.entered id i (.inl (hid.resolve_right hne)) hi (hchain ▸ hmem)
  changed i hi hne := by
    refine (h.changed i hi fun heq => hne ?_).mono m.extends_pushScope
    have hlt : i ≠ m.store.scopes.size := Nat.ne_of_lt (Nat.lt_of_lt_of_le hi h.size_le)
    rw [← heq]
    simp [Machine.pushScope, Environment.push, Store.addChild, Array.getElem?_push, hlt]

theorem enterCall (h : m.Isolated st f args) (hg : st.Admits f args g) :
    (m.enterCall g).Isolated st f args where
  size_le := h.size_le
  closures_le := h.closures_le
  parent?_eq := h.parent?_eq
  allows_parent := h.allows_parent
  alike_bound := h.alike_bound
  allows_current := hg.2
  admits_called g' := by
    rintro (rfl | hg')
    · exact hg
    · exact h.admits_called g' hg'
  entered id i := by
    rintro (hid | rfl) hi hmem
    · exact (h.entered id i (.inl hid) hi hmem).mono (m.extends_enterCall g)
    · exact ⟨g, .inl rfl, hmem⟩
  changed i hi hne := (h.changed i hi hne).mono (m.extends_enterCall g)

/-- Coming back to where the machine stood before.  That scope is older than the call, or is one
of those made since, about which the later machine knows already. -/
theorem withEnv (h : m.Isolated st f args) (h' : m'.Isolated st f args) (hext : m.Extends m') :
    Isolated st f args { m' with env := m.env } :=
  { h' with
    allows_current := h.allows_current
    entered := by
      rintro id i (hid | rfl) hi hmem
      · exact h'.entered id i (.inl hid) hi hmem
      · by_cases hid : m.env.current < st.size
        · have hchain : m'.store.chain m.env.current = m.store.chain m.env.current :=
            Store.chain_eq_of_lt
              (fun j hj => (h'.parent?_eq j hj).trans (h.parent?_eq j hj).symm) hid
          rw [hchain] at hmem
          have hentered : m'.HasEntered i := (h.entered _ i (.inr rfl) hi hmem).mono hext
          exact hentered
        · exact h'.entered _ i (.inl (Nat.le_of_not_lt hid)) hi hmem }

end Isolated

end Machine

/-! ## Actions during the call -/

namespace Run

section Isolates

variable (st : Store) (f : Closure) (args : List Value)

structure Keeps (m m' : Machine) : Prop where
  isolated : m'.Isolated st f args
  onward : m.Extends m'
  env_eq : m'.env = m.env

def Isolates {α : Type} [Comparable (.within st f args) α] (x : Run α) : Prop :=
  ∀ m : Machine, m.Isolated st f args → Keeps st f args m (x.after m) ∧
    ∀ a m', x m = .ok a m' → Comparable.Alike (.within st f args) a a

end Isolates

theorem Keeps.refl {m : Machine} (h : m.Isolated st f args) : Keeps st f args m m :=
  ⟨h, .refl m, rfl⟩

theorem Keeps.trans {m m' m'' : Machine} (h : Keeps st f args m m')
    (h' : Keeps st f args m' m'') : Keeps st f args m m'' :=
  ⟨h'.isolated, h.onward.trans h'.onward, h'.env_eq.trans h.env_eq⟩

namespace Isolates

variable {α β : Type} [Comparable (.within st f args) α] [Comparable (.within st f args) β]

theorem pure {a : α} (ha : Comparable.Alike (.within st f args) a a) :
    Isolates st f args (pure a : Run α) := by
  intro m hm
  refine ⟨.refl hm, ?_⟩
  rintro _ _ ⟨⟩
  exact ha

theorem throw (halt : Halt) : Isolates st f args (throw halt : Run α) := by
  intro m hm
  refine ⟨.refl hm, ?_⟩
  rintro _ _ ⟨⟩

theorem bind {x : Run α} {k : α → Run β} (hx : Isolates st f args x)
    (hk : ∀ a, Comparable.Alike (.within st f args) a a → Isolates st f args (k a)) :
    Isolates st f args (x >>= k) := by
  intro m hm
  obtain ⟨hkeeps, halike⟩ := hx m hm
  unfold after at hkeeps
  cases hxm : x m with
  | error halt m' =>
      rw [hxm] at hkeeps
      simp only [after, Bind.bind, EStateM.bind, hxm]
      refine ⟨hkeeps, ?_⟩
      rintro _ _ ⟨⟩
  | ok a m' =>
      rw [hxm] at hkeeps
      obtain ⟨hkeeps', halike'⟩ := hk a (halike a m' hxm) m' hkeeps.isolated
      simp only [after, Bind.bind, EStateM.bind, hxm]
      exact ⟨hkeeps.trans hkeeps', halike'⟩

theorem of_setAll {x : Run Unit} {v : Value} (name : String)
    (hv : Value.Alike (.within st f args) v v)
    (hx : ∀ m, ∃ ids, (∀ i ∈ ids, i ∈ m.store.chain m.env.current) ∧
      x.after m = { m with store := m.store.setAll ids name v }) :
    Isolates st f args x := by
  intro m hm
  obtain ⟨ids, hids, hafter⟩ := hx m
  rw [hafter]
  exact ⟨⟨hm.setAll hids name hv, m.extends_setAll ids name v, rfl⟩, fun _ _ _ => trivial⟩

theorem define (name : Token) {v : Value} (hv : Value.Alike (.within st f args) v v) :
    Isolates st f args (define name v) := by
  refine of_setAll name.lexeme hv fun m => ?_
  obtain ⟨ids, hids, hdefine⟩ := m.store.exists_define_eq_setAll m.env.current name.lexeme v
  refine ⟨ids, hids, ?_⟩
  rw [← hdefine, after, define_apply]
  rcases m.store.define m.env.current name.lexeme v with ⟨_ | _ | _, st⟩ <;> rfl

theorem assign (name : Token) {v : Value} (hv : Value.Alike (.within st f args) v v) :
    Isolates st f args (assign name v) := by
  refine of_setAll name.lexeme hv fun m => ?_
  obtain ⟨ids, hids, hassign⟩ := m.store.exists_assign_eq_setAll m.env.current name.lexeme v
  refine ⟨ids, hids, ?_⟩
  rw [← hassign, after, assign_apply]
  rcases m.store.assign m.env.current name.lexeme v with ⟨_ | _ | _, st⟩ <;> rfl

theorem lookup (name : Token) : Isolates st f args (lookup name) := by
  intro m hm
  rw [after, lookup_apply]
  cases hlookup : m.env.lookup m.store name.lexeme with
  | none =>
      refine ⟨.refl hm, ?_⟩
      rintro _ _ ⟨⟩
  | some v =>
      refine ⟨.refl hm, ?_⟩
      rintro _ _ ⟨⟩
      exact hm.alike_lookup hlookup

theorem makeClosure (name : Token) (params : List Token) (body : List Stmt) :
    Isolates st f args (makeClosure name params body) := by
  intro m hm
  refine ⟨⟨hm.addClosure, m.extends_addClosure, rfl⟩, ?_⟩
  rintro _ _ ⟨⟩
  exact .closure ⟨rfl, .inr (.inl hm.closures_le), hm.allows_current⟩

theorem print (settings : Settings) (text : String) :
    Isolates st f args (print settings text) := by
  intro m hm
  refine ⟨?_, fun _ _ _ => trivial⟩
  change Keeps st f args m (if settings.silent then m else { m with output := m.output ++ text })
  split
  · exact .refl hm
  · exact ⟨{ hm with }, ⟨fun _ hg => hg, fun _ _ hp => hp⟩, rfl⟩

theorem ofExcept (line : Nat) {r : Except Failure Value}
    (hr : Value.AlikeResult (.within st f args) r r) : Isolates st f args (ofExcept line r) := by
  cases hr with
  | ok hv => exact pure hv
  | error failure => exact throw _

theorem callHost {settings : Settings} (hhost : settings.HandsBack) (g : HostFunction)
    {given : List Value} (line : Nat)
    (hgiven : List.Forall₂ (Value.Alike (.within st f args)) given given) :
    Isolates st f args (callHost settings g given line) := by
  intro m hm
  have hpassed : Keeps st f args m { m with moment := m.moment + 1 } :=
    ⟨{ hm with }, ⟨fun _ hg => hg, fun _ _ hp => hp⟩, rfl⟩
  have hresult : Value.AlikeResult (.within st f args) (g.call settings m.moment given)
      (g.call settings m.moment given) := HostFunction.alike_call_self hhost hgiven
  obtain ⟨hkeeps, halike⟩ := ofExcept line hresult _ hpassed.isolated
  exact ⟨hpassed.trans hkeeps, halike⟩

theorem inScope {x : Run α} (hx : Isolates st f args x) : Isolates st f args (inScope x) := by
  intro m hm
  obtain ⟨hkeeps, halike⟩ := hx _ hm.pushScope
  have hext := m.extends_pushScope.trans hkeeps.onward
  have hpop : (x.after m.pushScope).popScope = { x.after m.pushScope with env := m.env } := by
    rw [Machine.popScope, hkeeps.env_eq]
    rfl
  rw [Balanced.after_inScope, hpop]
  refine ⟨⟨hm.withEnv hkeeps.isolated hext, ⟨hext.called_mono, hext.parent?_mono⟩, rfl⟩, ?_⟩
  intro a m' h
  unfold Run.inScope at h
  cases hxm : x m.pushScope with
  | error halt m'' => simp [hxm] at h
  | ok b m'' =>
      simp only [hxm, EStateM.Result.ok.injEq] at h
      exact h.1 ▸ halike b m'' hxm

theorem inCall {x : Run α} {g : Closure} (hg : st.Admits f args g) (hx : Isolates st f args x) :
    Isolates st f args (inCall g x) := by
  intro m hm
  obtain ⟨hkeeps, halike⟩ := hx _ (hm.enterCall hg)
  have hext := (m.extends_enterCall g).trans hkeeps.onward
  rw [Balanced.after_inCall]
  refine ⟨⟨{ hm.withEnv hkeeps.isolated hext with }, ⟨hext.called_mono, hext.parent?_mono⟩, rfl⟩,
    ?_⟩
  intro a m' h
  unfold Run.inCall at h
  cases hxm : x (m.enterCall g) with
  | error halt m'' => simp [hxm] at h
  | ok b m'' =>
      simp only [hxm, EStateM.Result.ok.injEq] at h
      exact h.1 ▸ halike b m'' hxm

theorem alike_left {a a' : α} (h : Comparable.Alike (.within st f args) a a') :
    Comparable.Alike (.within st f args) a a := by
  have heq := Comparable.eq_of_alike (Likeness.isRigid_within st f args) h
  rwa [heq] at h

theorem simulation (st : Store) (f : Closure) (args : List Value) {settings : Settings}
    (hhost : settings.HandsBack) :
    Simulation (.within st f args) settings settings fun x _ => Isolates st f args x where
  pure ha := pure (alike_left ha)
  outOfFuel := throw _
  failAt _ _ _ := throw _
  bind hx hk := hx.bind fun a ha => hk a a ha
  lookup name _ := lookup name
  define name _ hv := define name (alike_left (α := Value) hv)
  assign name _ hv := assign name (alike_left (α := Value) hv)
  makeClosure name params body _ := makeClosure name params body
  print text := print settings text
  host f line _ hargs := callHost hhost f line (alike_left (α := List Value) hargs)
  inScope hx := hx.inScope
  enterCall line _ hf hx hk := by
    obtain ⟨-, hadmits⟩ := hf
    intro m hm
    change Keeps st _ args m (Run.after (if settings.maxCallDepth ≤ m.depth then
        Run.failAt line .stackTooDeep else Run.inCall _ _ >>= _) m) ∧
      ∀ a m', (if settings.maxCallDepth ≤ m.depth then
        Run.failAt line .stackTooDeep else Run.inCall _ _ >>= _ : Run Value) m = .ok a m' → _
    split
    · exact throw _ m hm
    · exact (hx.inCall hadmits).bind (fun flow hflow => hk flow flow hflow) m hm

end Isolates

/-! ## Calls -/

theorem isolated_enterCall (m : Machine) (f : Closure) (args : List Value) :
    (({ m with called := fun _ => False } : Machine).enterCall f).Isolated m.store f args where
  size_le := Nat.le_refl _
  closures_le := Nat.le_refl _
  parent?_eq _ _ := rfl
  allows_parent id p := by
    rintro (hid | hid) hp
    · exact .inl (.parent hid hp)
    · exact absurd hid (Nat.not_le_of_lt (Store.lt_size_of_parent? hp))
  alike_bound _ _ _ := Store.alike_of_bound
  allows_current := .inl .own
  admits_called g := by
    rintro (rfl | ⟨⟨⟩⟩)
    exact Store.admits_self
  entered id i := by
    rintro (hid | rfl) hi hmem
    · have hroot : m.store.parent? id = none := by
        have hnone : m.store.scopes[id]? = none := Array.getElem?_eq_none hid
        simp [Store.parent?, hnone]
      have hchain : i ∈ m.store.chain id := hmem
      rw [Store.chain_of_root hroot, List.mem_singleton] at hchain
      exact absurd hid (Nat.not_le_of_lt (hchain ▸ hi))
    · exact ⟨f, .inl rfl, hmem⟩
  changed _ _ hne := absurd rfl hne

theorem after_bind_of_quiet {α β : Type} {x : Run α} {k : α → Run β}
    (hk : ∀ a m, (k a).after m = m) (m : Machine) : (x >>= k).after m = x.after m := by
  simp only [after, Bind.bind, EStateM.bind]
  cases x m with
  | error halt m' => rfl
  | ok a m' => exact hk a m'

theorem after_callClosure (settings : Settings) (exec : Stmt → Run Flow) (f : Closure)
    (args : List Value) (line : Nat) (m : Machine) :
    (callClosure settings exec f args line).after m =
      if settings.maxCallDepth ≤ m.depth then m
      else ((inScope do
        defineAll (f.params.zip args)
        executeAll exec f.body).after (m.enterCall f)).leaveCall m.env := by
  change Run.after (if settings.maxCallDepth ≤ m.depth then failAt line .stackTooDeep
    else inCall f _ >>= _) m = _
  split
  · rfl
  · rw [after_bind_of_quiet (fun flow m => by cases flow <;> rfl), Balanced.after_inCall]

/-- The machine that a call leaves behind, unless calls are nested too deeply. -/
theorem exists_isolated_callClosure {settings : Settings} (hhost : settings.HandsBack)
    {m : Machine} (hroom : ¬settings.maxCallDepth ≤ m.depth)
    (fuel : Nat) (f : Closure) (args : List Value)
    (line : Nat) :
    ∃ m' : Machine, m'.Isolated m.store f args ∧
      (callClosure settings (execute settings fuel) f args line).after
        { m with called := fun _ => False } = m'.leaveCall m.env := by
  have hargs : List.Forall₂ (Value.Alike (.within m.store f args)) args args :=
    List.forall₂_same.mpr fun v hv => Value.alike_self v fun g hg =>
      ⟨rfl, Store.admits_of_reaches (.inl ⟨v, hv, hg⟩)⟩
  have hsim := Isolates.simulation m.store f args hhost
  have hexec : ∀ s, Isolates m.store f args (execute settings fuel s) :=
    (hsim.evaluate_execute fuel rfl).2
  have hparams : Isolates m.store f args (defineAll (f.params.zip args)) :=
    hsim.defineAll rfl f.params hargs
  have hbody : Isolates m.store f args (executeAll (execute settings fuel) f.body) :=
    @Simulation.executeAll _ _ _ _ _ (execute settings fuel) id hsim hexec f.body
  have hrun := (hparams.bind fun _ _ => hbody).inScope
  refine ⟨_, (hrun _ (isolated_enterCall m f args)).1.isolated, ?_⟩
  rw [after_callClosure, if_neg hroom]

/-- A call calls only functions that it reaches or makes, and older scopes stay as they are unless
they are on the chain of a function that was called.  So if two functions were made in different
calls of a third one, which ran in the scopes `s₁` and `s₂`, a call of the first changes nothing in
`s₂` or further inside, where the second has its variables, unless it calls another function from
there.  The host hands back no function but those that it is handed. -/
theorem callClosure_isolated {settings : Settings} (hhost : settings.HandsBack) (fuel : Nat)
    (m : Machine) (f : Closure) (args : List Value) (line : Nat) :
    let m' := (callClosure settings (execute settings fuel) f args line).after
      { m with called := fun _ => False }
    (∀ g, m'.called g → g = f ∨ m.store.closures ≤ g.id ∨ m.store.Reaches f args g) ∧
      (∀ id < m.store.size, (∀ g, m'.called g → id ∉ m'.store.chain g.scope) →
        m'.store.scopes[id]? = m.store.scopes[id]?) ∧
      ∀ maker s₁ s₂ id : ScopeId,
        m.store.parent? s₁ = some maker → m.store.parent? s₂ = some maker → s₁ ≠ s₂ →
        s₁ ∈ m.store.chain f.scope → s₂ ∈ m.store.chain id →
        (∀ g, m'.called g → g ≠ f → id ∉ m'.store.chain g.scope) →
        m'.store.scopes[id]? = m.store.scopes[id]? := by
  intro m'
  by_cases hroom : settings.maxCallDepth ≤ m.depth
  · have hm' : m' = { m with called := fun _ => False } :=
      (after_callClosure settings _ f args line _).trans (if_pos hroom)
    rw [hm']
    exact ⟨fun g hg => hg.elim, fun _ _ _ => rfl, fun _ _ _ _ _ _ _ _ _ _ => rfl⟩
  · obtain ⟨m'', hisolated, hm'⟩ := exists_isolated_callClosure hhost hroom fuel f args line
    change m' = m''.leaveCall m.env at hm'
    have hkept : ∀ id < m.store.size, (∀ g, m'.called g → id ∉ m'.store.chain g.scope) →
        m'.store.scopes[id]? = m.store.scopes[id]? := by
      intro id hid hcalled
      by_contra hne
      rw [hm'] at hcalled hne
      obtain ⟨g, hg, hmem⟩ := hisolated.changed id hid hne
      exact hcalled g hg hmem
    refine ⟨fun g hg => ?_, hkept, ?_⟩
    · rw [hm'] at hg
      exact (hisolated.admits_called g hg).1
    · intro maker s₁ s₂ id hp₁ hp₂ hne hs₁ hs₂ hcalled
      refine hkept id (Store.lt_size_of_mem_chain hs₂ hp₂) fun g hg => ?_
      by_cases hf : g = f
      · have hscope := Store.lt_size_of_mem_chain hs₁ hp₁
        have hchain : m'.store.chain f.scope = m.store.chain f.scope := by
          rw [hm']
          exact Store.chain_eq_of_lt hisolated.parent?_eq hscope
        rw [hf, hchain]
        exact fun hid => hne (Store.eq_of_parent_eq hs₁ (Store.mem_chain_trans hs₂ hid) hp₁ hp₂)
      · exact hcalled g hg hf

def counter (id : Nat) (scope : ScopeId) : Closure :=
  ⟨id, "count", [], [.expr (.assign ⟨.identifier, "n", none, 1⟩ ⟨.plusEqual, "+=", none, 1⟩
    (.literal (.int 1)))], scope⟩

def twoCounters : Machine :=
  let first := (Store.empty.addRoot.addChild 0).set 1 "n" (.int 0)
  let both := ((first.addChild 0).set 2 "n" (.int 0)).addClosure.addClosure
  { Machine.initial with store := both }

def afterCounting : Machine :=
  (callClosure (.packing 9) (execute (.packing 9) 9) (counter 0 1) [] 1).after
    { twoCounters with called := fun _ => False }

/-- A counter counts for itself. -/
theorem callClosure_isolated_counter :
    twoCounters.store.parent? 1 = some 0 ∧ twoCounters.store.parent? 2 = some 0 ∧
      1 ∈ twoCounters.store.chain (counter 0 1).scope ∧
      2 ∈ twoCounters.store.chain (counter 1 2).scope ∧
      (∀ h, afterCounting.called h → h ≠ counter 0 1 → 2 ∉ afterCounting.store.chain h.scope) ∧
      afterCounting.store.get? 1 "n" = some (.int 1) ∧
      afterCounting.store.scopes[2]? = twoCounters.store.scopes[2]? := by
  have hparent₁ : twoCounters.store.parent? 1 = some 0 := rfl
  have hparent₂ : twoCounters.store.parent? 2 = some 0 := rfl
  have hcalled : ∀ h, afterCounting.called h = (h = counter 0 1 ∨ False) := fun h => by cbv
  have hcounted : afterCounting.store.get? 1 "n" = some (.int 1) := by cbv
  have hothers : ∀ h, afterCounting.called h → h ≠ counter 0 1 →
      2 ∉ afterCounting.store.chain h.scope := by
    intro h hh hne
    rw [hcalled] at hh
    exact absurd hh (not_or.mpr ⟨hne, not_false⟩)
  have hfirst := twoCounters.store.self_mem_chain 1
  have hsecond := twoCounters.store.self_mem_chain 2
  have hkept := (callClosure_isolated (Settings.handsBack_packing 9) 9 twoCounters
    (counter 0 1) [] 1).2.2 0 1 2 2
    hparent₁ hparent₂ (by decide) hfirst hsecond hothers
  exact ⟨hparent₁, hparent₂, hfirst, hsecond, hothers, hcounted, hkept⟩

end Run

end Scriptlet
