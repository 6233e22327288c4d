import Scriptlet.Proofs.Machine.Regime

/-!
# The bodies at hand

A run calls no functions but those that it finds bound where it may come to and those that it makes
itself.  So if the bodies of these have a property, every body that is ever run has it.
-/

namespace Scriptlet

/-- The functions bound in the allowed scopes have bodies with the property, and no way leads out of
the allowed scopes. -/
structure Store.Closed (st : Store) (allowed : ScopeId → Prop) (body : List Stmt → Prop) :
    Prop where
  fresh (id : ScopeId) : st.size ≤ id → allowed id
  parent (id p : ScopeId) : allowed id → st.parent? id = some p → allowed p
  bound {id : ScopeId} {name : String} {v : Value} {f : Closure} :
    allowed id → st.get? id name = some v → v.Holds f → body f.body ∧ allowed f.scope

namespace Store.Closed

variable {st : Store} {allowed : ScopeId → Prop} {body : List Stmt → Prop} {id : ScopeId}

theorem setAll (h : st.Closed allowed body) {v : Value}
    (hv : ∀ f, v.Holds f → body f.body ∧ allowed f.scope) (ids : List ScopeId) (name : String) :
    (st.setAll ids name v).Closed allowed body where
  fresh id hid := h.fresh id (by simpa using hid)
  parent id p hid hp := h.parent id p hid (by simpa using hp)
  bound hid hw hf := by
    rcases get?_of_get?_setAll hw with hw | rfl
    · exact h.bound hid hw hf
    · exact hv _ hf

theorem define (h : st.Closed allowed body) {v : Value}
    (hv : ∀ f, v.Holds f → body f.body ∧ allowed f.scope) (id : ScopeId) (name : String) :
    (st.define id name v).2.Closed allowed body := by
  obtain ⟨ids, -, hids⟩ := st.exists_define_eq_setAll id name v
  rw [hids]
  exact h.setAll hv ids name

theorem assign (h : st.Closed allowed body) {v : Value}
    (hv : ∀ f, v.Holds f → body f.body ∧ allowed f.scope) (id : ScopeId) (name : String) :
    (st.assign id name v).2.Closed allowed body := by
  obtain ⟨ids, -, hids⟩ := st.exists_assign_eq_setAll id name v
  rw [hids]
  exact h.setAll hv ids name

theorem addClosure (h : st.Closed allowed body) : st.addClosure.Closed allowed body :=
  ⟨h.fresh, h.parent, h.bound⟩

theorem of_chain (h : st.Closed allowed body) {i : ScopeId} {name : String} {v : Value}
    {f : Closure} (hid : allowed id) (hi : i ∈ st.chain id) (hv : st.get? i name = some v)
    (hf : v.Holds f) : body f.body ∧ allowed f.scope :=
  h.bound (of_mem_chain h.parent hid hi) hv hf

theorem addChild (h : st.Closed allowed body) (hid : allowed id) :
    (st.addChild id).Closed allowed body where
  fresh i hi := by
    rw [size_addChild] at hi
    exact h.fresh i (by omega)
  parent i p hi hp := by
    by_cases hne : i = st.size
    · rw [hne, parent?_addChild_size] at hp
      split at hp <;> cases hp
      exact hid
    · rw [parent?_addChild_of_ne id hne] at hp
      exact h.parent i p hi hp
  bound hi hv hf := h.bound hi (by simpa using hv) hf

end Store.Closed

namespace Regime

section

variable (allowed : ScopeId → Prop) (body : List Stmt → Prop) (stops : Halt → Prop)

def ofBodies : Regime where
  body := body
  scope _ id := allowed id
  store st := st.Closed allowed body
  onward _ _ := True
  stops := stops

end

variable {allowed : ScopeId → Prop} {body : List Stmt → Prop} {stops : Halt → Prop}

theorem lawful_ofBodies
    (hstops : ∀ (failure : Failure) (line : Nat),
      failure.isStructural = false → stops (.failed ⟨failure, line⟩))
    (hjumps : ∀ (b : List Stmt) (s : Stmt) (e : RuntimeError),
      body b → s ∈ b → s.LetsOut e → stops (.failed e)) :
    (ofBodies allowed body stops).Lawful where
  onward_refl _ := trivial
  onward_trans _ _ := trivial
  scope_mono _ hid := hid
  stand_mono _ hid := hid
  scope_of_stand hid := hid
  fits_bound hst hid hi hv _ hf := hst.of_chain hid hi hv hf
  store_define hst _ hv := ⟨hst.define hv _ _, trivial⟩
  store_assign hst _ _ hv := ⟨hst.assign hv _ _, trivial⟩
  store_addChild hst hid := ⟨hst.addChild hid, trivial, hst.fresh _ (Nat.le_refl _)⟩
  store_addClosure hst := ⟨hst.addClosure, trivial⟩
  stops_failed := hstops
  stops_jump := hjumps _ _ _

end Regime

end Scriptlet
