import Scriptlet.Scope.Store

/-!
# Chains of scopes

What the operations of a store do to the way outward from a scope, and what a lookup along that way
finds: the copy of the name that is nearest to the scope.
-/

namespace Scriptlet.Store

variable {st st' : Store} {id p : ScopeId}

/-! ## The way outward -/

theorem chain_of_parent (h : st.parent? id = some p) : st.chain id = id :: st.chain p := by
  rw [chain]
  split
  · next q hq =>
      rw [h] at hq
      cases hq
      rfl
  · next hq =>
      rw [h] at hq
      cases hq

theorem chain_of_root (h : st.parent? id = none) : st.chain id = [id] := by
  rw [chain]
  split
  · next q hq =>
      rw [h] at hq
      cases hq
  · rfl

theorem chain_induction (st : Store) {motive : ScopeId → Prop}
    (root : ∀ id, st.parent? id = none → motive id)
    (child : ∀ id p, st.parent? id = some p → motive p → motive id) (id : ScopeId) :
    motive id := by
  induction id using Nat.strongRecOn with
  | ind id ih =>
      cases h : st.parent? id with
      | none => exact root id h
      | some p => exact child id p h (ih p (st.parent?_lt h))

theorem le_of_mem_chain {i : ScopeId} (h : i ∈ st.chain id) : i ≤ id := by
  induction id using st.chain_induction with
  | root id hroot =>
      rw [chain_of_root hroot, List.mem_singleton] at h
      exact Nat.le_of_eq h
  | child id p hp ih =>
      rw [chain_of_parent hp, List.mem_cons] at h
      rcases h with rfl | h
      · exact Nat.le_refl _
      · exact Nat.le_trans (ih h) (Nat.le_of_lt (st.parent?_lt hp))

theorem self_mem_chain (st : Store) (id : ScopeId) : id ∈ st.chain id := by
  cases h : st.parent? id with
  | none => simp [chain_of_root h]
  | some p => simp [chain_of_parent h]

/-- What passes from scopes to their parents passes along the chain. -/
theorem of_mem_chain {allowed : ScopeId → Prop} {i : ScopeId}
    (h : ∀ id p, allowed id → st.parent? id = some p → allowed p) (hid : allowed id)
    (hi : i ∈ st.chain id) : allowed i := by
  induction id using st.chain_induction with
  | root id hroot =>
      rw [chain_of_root hroot, List.mem_singleton] at hi
      exact hi ▸ hid
  | child id p hp ih =>
      rw [chain_of_parent hp, List.mem_cons] at hi
      rcases hi with rfl | hi
      · exact hid
      · exact ih (h id p hid hp) hi

theorem mem_chain_of_parents {i : ScopeId}
    (h : ∀ id p, st.parent? id = some p → st'.parent? id = some p) (hi : i ∈ st.chain id) :
    i ∈ st'.chain id := by
  induction id using st.chain_induction with
  | root id hroot =>
      rw [chain_of_root hroot, List.mem_singleton] at hi
      exact hi ▸ self_mem_chain st' id
  | child id p hp ih =>
      rw [chain_of_parent hp, List.mem_cons] at hi
      rw [chain_of_parent (h id p hp), List.mem_cons]
      exact hi.imp_right ih

/-- From a scope below some bound on, the chain is a matter of the parents below the bound. -/
theorem chain_eq_of_lt {bound : Nat} (h : ∀ i < bound, st'.parent? i = st.parent? i)
    (hid : id < bound) : st'.chain id = st.chain id := by
  induction id using st.chain_induction with
  | root id hroot => rw [chain_of_root hroot, chain_of_root ((h id hid).trans hroot)]
  | child id p hp ih =>
      rw [chain_of_parent hp, chain_of_parent ((h id hid).trans hp),
        ih (Nat.lt_trans (st.parent?_lt hp) hid)]

theorem chain_congr (h : ∀ i, st'.parent? i = st.parent? i) (id : ScopeId) :
    st'.chain id = st.chain id :=
  chain_eq_of_lt (fun i _ => h i) (Nat.lt_succ_self id)

theorem mem_chain_trans {i j : ScopeId} (hi : i ∈ st.chain j) (hj : j ∈ st.chain id) :
    i ∈ st.chain id := by
  induction id using st.chain_induction with
  | root id hroot =>
      rw [chain_of_root hroot, List.mem_singleton] at hj
      exact hj ▸ hi
  | child id p hp ih =>
      rw [chain_of_parent hp, List.mem_cons] at hj ⊢
      rcases hj with rfl | hj
      · rw [chain_of_parent hp, List.mem_cons] at hi
        exact hi
      · exact .inr (ih hj)

theorem eq_of_parent_eq {i j : ScopeId} (hi : i ∈ st.chain id) (hj : j ∈ st.chain id)
    (hpi : st.parent? i = some p) (hpj : st.parent? j = some p) : i = j := by
  induction id using st.chain_induction with
  | root id hroot =>
      rw [chain_of_root hroot, List.mem_singleton] at hi hj
      rw [hi, hj]
  | child id q hq ih =>
      rw [chain_of_parent hq, List.mem_cons] at hi hj
      rcases hi with rfl | hi <;> rcases hj with rfl | hj
      · rfl
      · obtain rfl : q = p := Option.some.inj (hq.symm.trans hpi)
        exact absurd (le_of_mem_chain hj) (Nat.not_le_of_lt (st.parent?_lt hpj))
      · obtain rfl : q = p := Option.some.inj (hq.symm.trans hpj)
        exact absurd (le_of_mem_chain hi) (Nat.not_le_of_lt (st.parent?_lt hpi))
      · exact ih hi hj

theorem nodup_chain (st : Store) (id : ScopeId) : (st.chain id).Nodup := by
  induction id using st.chain_induction with
  | root id hroot => simp [chain_of_root hroot]
  | child id p hp ih =>
      rw [chain_of_parent hp, List.nodup_cons]
      exact ⟨fun hmem => Nat.not_lt.mpr (le_of_mem_chain hmem) (st.parent?_lt hp), ih⟩

/-! ## Writing to several scopes -/

@[simp] theorem setAll_nil (st : Store) (name : String) (v : Value) :
    st.setAll [] name v = st := rfl

@[simp] theorem setAll_cons (st : Store) (id : ScopeId) (ids : List ScopeId) (name : String)
    (v : Value) : st.setAll (id :: ids) name v = (st.set id name v).setAll ids name v := rfl

@[simp] theorem size_setAll (st : Store) (ids : List ScopeId) (name : String) (v : Value) :
    (st.setAll ids name v).size = st.size := by
  induction ids generalizing st with
  | nil => rfl
  | cons id ids ih => rw [setAll_cons, ih, size_set]

@[simp] theorem parent?_setAll (st : Store) (ids : List ScopeId) (other : ScopeId)
    (name : String) (v : Value) : (st.setAll ids name v).parent? other = st.parent? other := by
  induction ids generalizing st with
  | nil => rfl
  | cons id ids ih => rw [setAll_cons, ih, parent?_set]

theorem get?_setAll (st : Store) {ids : List ScopeId} (h : ∀ i ∈ ids, i < st.size)
    (other : ScopeId) (name x : String) (v : Value) :
    (st.setAll ids name v).get? other x =
      if other ∈ ids ∧ x = name then some v else st.get? other x := by
  induction ids generalizing st with
  | nil => simp
  | cons id ids ih =>
      have hid : id < st.size := h id List.mem_cons_self
      have hids : ∀ i ∈ ids, i < (st.set id name v).size := by
        intro i hi
        rw [size_set]
        exact h i (List.mem_cons_of_mem id hi)
      rw [setAll_cons, ih _ hids, get?_set st id other name x v hid]
      by_cases hx : x = name <;> by_cases ho : other = id <;> by_cases hm : other ∈ ids <;>
        simp [hx, ho, hm]

theorem get?_set_of_ne {name x : String} (h : x ≠ name) (st : Store) (id other : ScopeId)
    (v : Value) : (st.set id name v).get? other x = st.get? other x := by
  simp only [get?, set, Array.getElem?_modify]
  split
  · cases st.scopes[other]? <;> simp [Bindings.get?_insert, h]
  · rfl

theorem get?_setAll_of_ne {name x : String} (h : x ≠ name) (st : Store) (ids : List ScopeId)
    (other : ScopeId) (v : Value) : (st.setAll ids name v).get? other x = st.get? other x := by
  induction ids generalizing st with
  | nil => rfl
  | cons id ids ih => rw [setAll_cons, ih, get?_set_of_ne h]

@[simp] theorem closures_setAll (st : Store) (ids : List ScopeId) (name : String) (v : Value) :
    (st.setAll ids name v).closures = st.closures := by
  induction ids generalizing st with
  | nil => rfl
  | cons id ids ih => rw [setAll_cons, ih, set]

theorem get?_of_get?_set {i : ScopeId} {name x : String} {v w : Value}
    (h : (st.set id name v).get? i x = some w) : st.get? i x = some w ∨ w = v := by
  simp only [get?, set, Array.getElem?_modify] at h ⊢
  split at h
  · cases hs : st.scopes[i]? with
    | none => simp [hs] at h
    | some s =>
        simp only [hs, Option.map_some, Option.bind_eq_bind, Option.bind_some,
          Bindings.get?_insert] at h ⊢
        split at h
        · exact .inr (Option.some.inj h).symm
        · exact .inl h
  · exact .inl h

theorem get?_of_get?_setAll {ids : List ScopeId} {i : ScopeId} {name x : String} {v w : Value}
    (h : (st.setAll ids name v).get? i x = some w) : st.get? i x = some w ∨ w = v := by
  induction ids generalizing st with
  | nil => exact .inl h
  | cons id ids ih =>
      rcases ih h with hset | rfl
      · exact get?_of_get?_set hset
      · exact .inr rfl

theorem getElem?_scopes_setAll {ids : List ScopeId} {i : ScopeId} (hi : i ∉ ids) (name : String)
    (v : Value) : (st.setAll ids name v).scopes[i]? = st.scopes[i]? := by
  induction ids generalizing st with
  | nil => rfl
  | cons id ids ih =>
      rw [List.mem_cons, not_or] at hi
      rw [setAll_cons, ih hi.2, set, Array.getElem?_modify, if_neg (Ne.symm hi.1)]

/-! ## Definitions and assignments -/

/-- A definition writes the value to scopes of the chain, and does nothing else. -/
theorem exists_define_eq_setAll (st : Store) (id : ScopeId) (name : String) (v : Value) :
    ∃ ids, (∀ i ∈ ids, i ∈ st.chain id) ∧ (st.define id name v).2 = st.setAll ids name v := by
  unfold define
  split
  · exact ⟨st.chain id, fun _ hi => hi, rfl⟩
  · split
    · exact ⟨[], by simp, rfl⟩
    · split
      · exact ⟨[], by simp, rfl⟩
      · exact ⟨[id], by simp [self_mem_chain], rfl⟩

theorem exists_assign_eq_setAll (st : Store) (id : ScopeId) (name : String) (v : Value) :
    ∃ ids, (∀ i ∈ ids, i ∈ st.chain id) ∧ (st.assign id name v).2 = st.setAll ids name v := by
  unfold assign
  split
  · exact ⟨[], by simp, rfl⟩
  · next nearest others hfilter =>
      have hchain : ∀ i ∈ nearest :: others, i ∈ st.chain id := by
        rw [← hfilter]
        exact fun i hi => (List.mem_filter.mp hi).1
      split
      · exact ⟨[], by simp, rfl⟩
      · split
        · exact ⟨nearest :: others, hchain, rfl⟩
        · exact ⟨[nearest], by simpa using hchain nearest List.mem_cons_self, rfl⟩

@[simp] theorem size_define (st : Store) (id : ScopeId) (name : String) (v : Value) :
    (st.define id name v).2.size = st.size := by
  obtain ⟨ids, -, hids⟩ := st.exists_define_eq_setAll id name v
  rw [hids, size_setAll]

@[simp] theorem size_assign (st : Store) (id : ScopeId) (name : String) (v : Value) :
    (st.assign id name v).2.size = st.size := by
  obtain ⟨ids, -, hids⟩ := st.exists_assign_eq_setAll id name v
  rw [hids, size_setAll]

@[simp] theorem parent?_define (st : Store) (id other : ScopeId) (name : String) (v : Value) :
    (st.define id name v).2.parent? other = st.parent? other := by
  obtain ⟨ids, -, hids⟩ := st.exists_define_eq_setAll id name v
  rw [hids, parent?_setAll]

@[simp] theorem parent?_assign (st : Store) (id other : ScopeId) (name : String) (v : Value) :
    (st.assign id name v).2.parent? other = st.parent? other := by
  obtain ⟨ids, -, hids⟩ := st.exists_assign_eq_setAll id name v
  rw [hids, parent?_setAll]

@[simp] theorem closures_define (st : Store) (id : ScopeId) (name : String) (v : Value) :
    (st.define id name v).2.closures = st.closures := by
  obtain ⟨ids, -, hids⟩ := st.exists_define_eq_setAll id name v
  rw [hids, closures_setAll]

@[simp] theorem closures_assign (st : Store) (id : ScopeId) (name : String) (v : Value) :
    (st.assign id name v).2.closures = st.closures := by
  obtain ⟨ids, -, hids⟩ := st.exists_assign_eq_setAll id name v
  rw [hids, closures_setAll]

theorem get?_define_of_ne {name x : String} (h : x ≠ name) (st : Store) (id other : ScopeId)
    (v : Value) : (st.define id name v).2.get? other x = st.get? other x := by
  obtain ⟨ids, -, hids⟩ := st.exists_define_eq_setAll id name v
  rw [hids, get?_setAll_of_ne h]

theorem get?_assign_of_ne {name x : String} (h : x ≠ name) (st : Store) (id other : ScopeId)
    (v : Value) : (st.assign id name v).2.get? other x = st.get? other x := by
  obtain ⟨ids, -, hids⟩ := st.exists_assign_eq_setAll id name v
  rw [hids, get?_setAll_of_ne h]

theorem define_global {name : String} (h : isGlobalName name) (st : Store) (id : ScopeId)
    (v : Value) : st.define id name v = (none, st.setAll (st.chain id) name v) := by
  simp [define, h]

theorem assign_of_failed {name : String} {v : Value} (h : (st.assign id name v).1 ≠ none) :
    (st.assign id name v).2 = st := by
  cases hfilter : (st.chain id).filter (st.binds name) with
  | nil => simp [assign, hfilter]
  | cons i ids =>
      by_cases hconstant : isConstantName name
      · simp [assign, hfilter, hconstant]
      · by_cases hglobal : isGlobalName name <;>
          simp [assign, hfilter, hconstant, hglobal] at h

theorem assign_global {name : String} {v : Value} (h : isGlobalName name)
    (hassign : (st.assign id name v).1 = none) :
    (st.assign id name v).2 = st.setAll ((st.chain id).filter (st.binds name)) name v := by
  cases hfilter : (st.chain id).filter (st.binds name) with
  | nil => simp [assign, hfilter] at hassign
  | cons i ids =>
      by_cases hconstant : isConstantName name
      · simp [assign, hfilter, hconstant] at hassign
      · simp [assign, hfilter, hconstant, h]

/-! ## New scopes -/

@[simp] theorem size_addChild (st : Store) (parent : ScopeId) :
    (st.addChild parent).size = st.size + 1 := by
  simp [size, addChild]

@[simp] theorem get?_addChild (st : Store) (parent id : ScopeId) (name : String) :
    (st.addChild parent).get? id name = st.get? id name := by
  simp only [get?, addChild, Array.getElem?_push]
  split
  · next h =>
      have hnone : st.scopes[id]? = none := by simp [h]
      simp [hnone, Bindings.get?]
  · rfl

theorem parent?_addChild_size (st : Store) (parent : ScopeId) :
    (st.addChild parent).parent? st.size = if parent < st.size then some parent else none := by
  change ((st.addChild parent).scopes[st.scopes.size]? >>= Scope.parent) = _
  rw [addChild, Array.getElem?_push_size]
  rfl

theorem parent?_addChild_of_ne (parent : ScopeId) (h : id ≠ st.size) :
    (st.addChild parent).parent? id = st.parent? id := by
  have hne : id ≠ st.scopes.size := h
  simp [parent?, addChild, Array.getElem?_push, hne]

theorem lt_size_of_parent? (h : st.parent? id = some p) : id < st.size := by
  refine Nat.lt_of_not_le fun hge => ?_
  have hnone : st.scopes[id]? = none := Array.getElem?_eq_none hge
  simp [parent?, hnone] at h

theorem lt_size_of_mem_chain {i : ScopeId} (hi : i ∈ st.chain id) (hp : st.parent? i = some p) :
    id < st.size := by
  cases h : st.parent? id with
  | none =>
      rw [chain_of_root h, List.mem_singleton] at hi
      exact lt_size_of_parent? (hi ▸ hp)
  | some q => exact lt_size_of_parent? h

theorem parent?_addChild_of_some (parent : ScopeId) (h : st.parent? id = some p) :
    (st.addChild parent).parent? id = some p := by
  rw [parent?_addChild_of_ne parent (Nat.ne_of_lt (lt_size_of_parent? h)), h]

theorem chain_addChild_of_ne (parent : ScopeId) (h : id ≠ st.size) :
    (st.addChild parent).chain id = st.chain id := by
  induction id using st.chain_induction with
  | root id hroot =>
      rw [chain_of_root hroot, chain_of_root ((parent?_addChild_of_ne parent h).trans hroot)]
  | child id p hp ih =>
      have hlt := Nat.lt_trans (st.parent?_lt hp) (lt_size_of_parent? hp)
      rw [chain_of_parent hp, chain_of_parent (parent?_addChild_of_some parent hp),
        ih (Nat.ne_of_lt hlt)]

theorem mem_chain_addChild_size {parent i : ScopeId}
    (hi : i ∈ (st.addChild parent).chain st.size) : i = st.size ∨ i ∈ st.chain parent := by
  have hparent := st.parent?_addChild_size parent
  split at hparent
  · next hlt =>
      rw [chain_of_parent hparent, chain_addChild_of_ne parent (Nat.ne_of_lt hlt),
        List.mem_cons] at hi
      exact hi
  · rw [chain_of_root hparent, List.mem_singleton] at hi
    exact .inl hi

/-! ## Lookups -/

theorem lt_size_of_binds {name : String} (h : st.binds name id) : id < st.size := by
  refine Nat.lt_of_not_le fun hge => ?_
  have hnone : st.scopes[id]? = none := Array.getElem?_eq_none hge
  simp [binds, get?, hnone] at h

/-- The scope nearest to `id` that binds the name. -/
def nearest? (st : Store) (name : String) (id : ScopeId) : Option ScopeId :=
  (st.chain id).find? (st.binds name)

theorem binds_of_nearest? {name : String} {i : ScopeId} (h : st.nearest? name id = some i) :
    st.binds name i = true :=
  List.find?_some h

theorem mem_chain_of_nearest? {name : String} {i : ScopeId} (h : st.nearest? name id = some i) :
    i ∈ st.chain id :=
  List.mem_of_find?_eq_some h

theorem nearest?_eq_none_iff {name : String} :
    st.nearest? name id = none ↔ ∀ i ∈ st.chain id, ¬st.binds name i := by
  simp only [nearest?, List.find?_eq_none]

theorem lookup_eq_nearest? (st : Store) (id : ScopeId) (name : String) :
    st.lookup id name = (st.nearest? name id).bind fun i => st.get? i name := by
  unfold lookup nearest?
  induction st.chain id with
  | nil => rfl
  | cons i ids ih =>
      cases hi : st.get? i name with
      | none => simp [binds, hi, ih]
      | some v => simp [binds, hi]

end Scriptlet.Store
