import Scriptlet.Proofs.Scope.Chain
import Scriptlet.Proofs.Value.Alike

/-!
# Constants

In an orderly store all scopes stand inside one global scope, which is the oldest, and constants are
bound nowhere else.  Definitions and assignments keep a store orderly and leave every constant as it
is, so a constant means the same wherever it is read.
-/

namespace Scriptlet

theorem isGlobalName_of_isConstantName {name : String} (h : isConstantName name) :
    isGlobalName name = false := by
  unfold isConstantName at h
  unfold isGlobalName
  cases hname : name.toList.head? with
  | none => rfl
  | some c =>
      rw [hname] at h
      have hne : c ≠ '$' := by
        rintro rfl
        revert h
        decide
      simp [hne]

theorem isConstantName_of_isGlobalName {name : String} (h : isGlobalName name) :
    isConstantName name = false := by
  rw [← Bool.not_eq_true]
  intro hconstant
  rw [isGlobalName_of_isConstantName hconstant] at h
  cases h

namespace Store

/-- Scopes are made from the global scope `0` inward, and functions stand in scopes that exist. -/
structure Orderly (st : Store) : Prop where
  size_pos : 0 < st.size
  nested (id : ScopeId) : id < st.size → id ≠ 0 → ∃ p, st.parent? id = some p
  constant_global {id : ScopeId} {name : String} {v : Value} :
    isConstantName name → st.get? id name = some v → id = 0
  scope_lt {id : ScopeId} {name : String} {v : Value} {f : Closure} :
    st.get? id name = some v → v.Holds f → f.scope < st.size

/-- Scopes stay, and so do the constants. -/
structure Grows (st st' : Store) : Prop where
  size_le : st.size ≤ st'.size
  constant {name : String} {v : Value} :
    isConstantName name → st.get? 0 name = some v → st'.get? 0 name = some v

variable {st st' st'' : Store} {id p : ScopeId} {name : String} {v w : Value}

theorem Grows.refl (st : Store) : st.Grows st :=
  ⟨Nat.le_refl _, fun _ h => h⟩

theorem Grows.trans (h : st.Grows st') (h' : st'.Grows st'') : st.Grows st'' where
  size_le := Nat.le_trans h.size_le h'.size_le
  constant hname hv := h'.constant hname (h.constant hname hv)

/-! ## What is done to a constant -/

theorem define_constant (hname : isConstantName name) (st : Store) (id : ScopeId) (v : Value) :
    (st.define id name v).2 = st ∨
      st.get? id name = none ∧ st.parent? id = none ∧
        (st.define id name v).2 = st.setAll [id] name v := by
  simp only [define, isGlobalName_of_isConstantName hname, hname, binds, Bool.true_and]
  cases hget : st.get? id name with
  | some w => exact .inl (by simp)
  | none =>
      cases hparent : st.parent? id with
      | some p => exact .inl (by simp)
      | none => exact .inr (by simp)

theorem assign_constant (hname : isConstantName name) (st : Store) (id : ScopeId) (v : Value) :
    (st.assign id name v).2 = st := by
  unfold assign
  split
  · rfl
  · rw [if_pos hname]

theorem lt_of_mem_chain {i : ScopeId} (hid : id < st.size) (hi : i ∈ st.chain id) :
    i < st.size :=
  Nat.lt_of_le_of_lt (le_of_mem_chain hi) hid

namespace Orderly

theorem eq_zero_of_root (h : st.Orderly) (hid : id < st.size) (hroot : st.parent? id = none) :
    id = 0 := by
  by_contra hne
  obtain ⟨p, hp⟩ := h.nested id hid hne
  rw [hroot] at hp
  cases hp

/-- Every way outward ends in the global scope. -/
theorem getLast?_chain (h : st.Orderly) (hid : id < st.size) :
    (st.chain id).getLast? = some 0 := by
  induction id using st.chain_induction with
  | root id hroot =>
      rw [chain_of_root hroot, h.eq_zero_of_root hid hroot]
      rfl
  | child id p hp ih =>
      have hlast := ih (Nat.lt_trans (st.parent?_lt hp) hid)
      rw [chain_of_parent hp, List.getLast?_cons, hlast]
      rfl

theorem lookup_constant (h : st.Orderly) (hid : id < st.size) (hname : isConstantName name) :
    st.lookup id name = st.get? 0 name := by
  induction id using st.chain_induction with
  | root id hroot =>
      rw [lookup, chain_of_root hroot, h.eq_zero_of_root hid hroot]
      cases hget : st.get? 0 name <;> simp [hget]
  | child id p hp ih =>
      have hlt := st.parent?_lt hp
      -- this scope has a parent, so it is not the global one and binds no constant
      have hnone : st.get? id name = none := by
        cases hget : st.get? id name with
        | none => rfl
        | some v =>
            exact absurd (h.constant_global hname hget ▸ hlt) (Nat.not_lt_zero p)
      have hrest := ih (Nat.lt_trans hlt hid)
      rw [lookup] at hrest
      rw [lookup, chain_of_parent hp, List.findSome?_cons, hnone, hrest]

/-! ## Steps -/

theorem setAll (h : st.Orderly) {ids : List ScopeId} (hids : ∀ i ∈ ids, i < st.size)
    (hname : isConstantName name → st.get? 0 name = none ∧ ∀ i ∈ ids, i = 0)
    (hv : ∀ f, v.Holds f → f.scope < st.size) :
    (st.setAll ids name v).Orderly ∧ st.Grows (st.setAll ids name v) := by
  constructor
  · constructor
    · simpa using h.size_pos
    · simpa using h.nested
    · intro i x w hx hget
      rw [get?_setAll st hids] at hget
      split at hget
      · next hwritten =>
          obtain ⟨hi, rfl⟩ := hwritten
          exact (hname hx).2 i hi
      · exact h.constant_global hx hget
    · intro i x w f hget hf
      rw [size_setAll]
      rcases get?_of_get?_setAll hget with hget | rfl
      · exact h.scope_lt hget hf
      · exact hv f hf
  · constructor
    · simp
    · intro x w hx hget
      rw [get?_setAll st hids, if_neg]
      · exact hget
      · rintro ⟨-, rfl⟩
        rw [(hname hx).1] at hget
        cases hget

theorem define (h : st.Orderly) (hid : id < st.size) (hv : ∀ f, v.Holds f → f.scope < st.size) :
    (st.define id name v).2.Orderly ∧ st.Grows (st.define id name v).2 := by
  by_cases hname : isConstantName name
  · rcases define_constant hname st id v with heq | ⟨hnew, hroot, heq⟩
    · rw [heq]
      exact ⟨h, .refl st⟩
    -- the scope has no parent, so it is the global one, where the name is new
    · have hzero := h.eq_zero_of_root hid hroot
      subst hzero
      rw [heq]
      exact h.setAll (by simpa using hid) (fun _ => ⟨hnew, by simp⟩) hv
  · obtain ⟨ids, hids, heq⟩ := st.exists_define_eq_setAll id name v
    rw [heq]
    exact h.setAll (fun i hi => lt_of_mem_chain hid (hids i hi)) (fun hx => absurd hx hname) hv

theorem assign (h : st.Orderly) (hid : id < st.size) (hv : ∀ f, v.Holds f → f.scope < st.size) :
    (st.assign id name v).2.Orderly ∧ st.Grows (st.assign id name v).2 := by
  by_cases hname : isConstantName name
  · rw [assign_constant hname]
    exact ⟨h, .refl st⟩
  · obtain ⟨ids, hids, heq⟩ := st.exists_assign_eq_setAll id name v
    rw [heq]
    exact h.setAll (fun i hi => lt_of_mem_chain hid (hids i hi)) (fun hx => absurd hx hname) hv

theorem addChild (h : st.Orderly) (hid : id < st.size) :
    (st.addChild id).Orderly ∧ st.Grows (st.addChild id) := by
  constructor
  · constructor
    · rw [size_addChild]
      exact Nat.succ_pos _
    · intro i hi hne
      by_cases hnew : i = st.size
      · rw [hnew, parent?_addChild_size, if_pos hid]
        exact ⟨id, rfl⟩
      · rw [size_addChild] at hi
        rw [parent?_addChild_of_ne id hnew]
        exact h.nested i (Nat.lt_of_le_of_ne (Nat.le_of_lt_succ hi) hnew) hne
    · intro i x w hx hget
      rw [get?_addChild] at hget
      exact h.constant_global hx hget
    · intro i x w f hget hf
      rw [get?_addChild] at hget
      rw [size_addChild]
      exact Nat.lt_succ_of_lt (h.scope_lt hget hf)
  · exact ⟨by simp, fun _ hget => by simpa using hget⟩

theorem addClosure (h : st.Orderly) : st.addClosure.Orderly ∧ st.Grows st.addClosure :=
  ⟨⟨h.size_pos, h.nested, h.constant_global, h.scope_lt⟩, ⟨Nat.le_refl _, fun _ hget => hget⟩⟩

end Orderly

end Store

end Scriptlet
