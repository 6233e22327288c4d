import Scriptlet.Proofs.Scope.Chain

/-!
# Outer scopes

What a run in a scope of its own may do to the scopes that were there before.  A definition reaches
them for global names only, since it is made in a newer scope.  An assignment reaches them, but only
gives another value to a name that is bound there already.
-/

namespace Scriptlet.Store

variable {st st' : Store} {id i : ScopeId} {name x : String} {v : Value} {may : String → Prop}

/-! ## One definition or assignment -/

theorem get?_set_outside (h : i ≠ id) : (st.set id name v).get? i x = st.get? i x := by
  simp only [get?, set, Array.getElem?_modify, if_neg (Ne.symm h)]

theorem get?_define_outside (h : i ≠ id) (hx : ¬isGlobalName x) :
    (st.define id name v).2.get? i x = st.get? i x := by
  by_cases hname : x = name
  · subst hname
    unfold define
    rw [if_neg hx]
    split
    · rfl
    split
    · rfl
    · exact get?_set_outside h
  · exact get?_define_of_ne hname st id i v

theorem binds_setAll {ids : List ScopeId} (h : ∀ j ∈ ids, st.binds name j) :
    (st.setAll ids name v).binds x i = st.binds x i := by
  rw [binds, get?_setAll st (fun j hj => lt_size_of_binds (h j hj))]
  split
  · next hwritten =>
      obtain ⟨hi, rfl⟩ := hwritten
      rw [h i hi]
      rfl
  · rfl

theorem binds_assign : (st.assign id name v).2.binds x i = st.binds x i := by
  unfold assign
  split
  · rfl
  · next nearest others hfilter =>
      have hbound : ∀ j ∈ nearest :: others, st.binds name j := by
        rw [← hfilter]
        exact fun j hj => (List.mem_filter.mp hj).2
      split
      · rfl
      have hnearest : ∀ j ∈ [nearest], st.binds name j := by
        simpa using hbound nearest List.mem_cons_self
      split
      · exact binds_setAll hbound
      · exact binds_setAll hnearest

/-! ## Any number of them -/

/-- The scopes of `st` bind the same names in `st'`, and to the same values, but for names that may
be updated.  Nothing is said of global names. -/
structure KeepsOuter (may : String → Prop) (st st' : Store) : Prop where
  size_le : st.size ≤ st'.size
  binds_eq (id : ScopeId) (x : String) :
    id < st.size → ¬isGlobalName x → st'.binds x id = st.binds x id
  get?_eq (id : ScopeId) (x : String) :
    id < st.size → ¬isGlobalName x → ¬may x → st'.get? id x = st.get? id x

namespace KeepsOuter

theorem refl (may : String → Prop) (st : Store) : st.KeepsOuter may st :=
  ⟨Nat.le_refl _, fun _ _ _ _ => rfl, fun _ _ _ _ _ => rfl⟩

theorem define (h : KeepsOuter may st st') (hid : st.size ≤ id) (name : String) (v : Value) :
    KeepsOuter may st (st'.define id name v).2 where
  size_le := by
    rw [size_define]
    exact h.size_le
  binds_eq i x hi hx := by
    rw [binds, get?_define_outside (Nat.ne_of_lt (Nat.lt_of_lt_of_le hi hid)) hx]
    exact h.binds_eq i x hi hx
  get?_eq i x hi hx hmay := by
    rw [get?_define_outside (Nat.ne_of_lt (Nat.lt_of_lt_of_le hi hid)) hx]
    exact h.get?_eq i x hi hx hmay

theorem assign (h : KeepsOuter may st st') (hname : may name) (id : ScopeId) (v : Value) :
    KeepsOuter may st (st'.assign id name v).2 where
  size_le := by
    rw [size_assign]
    exact h.size_le
  binds_eq i x hi hx := by
    rw [binds_assign]
    exact h.binds_eq i x hi hx
  get?_eq i x hi hx hmay := by
    have hne : x ≠ name := fun heq => hmay (heq ▸ hname)
    rw [get?_assign_of_ne hne]
    exact h.get?_eq i x hi hx hmay

theorem addChild (h : KeepsOuter may st st') (id : ScopeId) :
    KeepsOuter may st (st'.addChild id) where
  size_le := by
    rw [size_addChild]
    exact Nat.le_succ_of_le h.size_le
  binds_eq i x hi hx := by
    rw [binds, get?_addChild]
    exact h.binds_eq i x hi hx
  get?_eq i x hi hx hmay := by
    rw [get?_addChild]
    exact h.get?_eq i x hi hx hmay

end KeepsOuter

end Scriptlet.Store
