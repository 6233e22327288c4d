import Scriptlet.Proofs.Scope.Chain

/-!
# Writing to local names

One definition or assignment of a name that is not global writes to one scope or to none.  What is
read elsewhere is decided by where the name is resolved: the scopes that come to the written one
first read the new value, and nothing changes for the others.
-/

namespace Scriptlet.Store

variable {st st' : Store} {id : ScopeId} {name : String} {v : Value}

/-! ## One binding -/

/-- The stores differ in what `name` is bound to in the scope `id`, and in nothing else. -/
structure Rebinds (st : Store) (id : ScopeId) (name : String) (v : Value) (st' : Store) : Prop where
  size_eq : st'.size = st.size
  closures_eq : st'.closures = st.closures
  parent?_eq (i : ScopeId) : st'.parent? i = st.parent? i
  get?_eq (i : ScopeId) (x : String) :
    st'.get? i x = if i = id ∧ x = name then some v else st.get? i x

theorem rebinds_set (hid : id < st.size) (name : String) (v : Value) :
    st.Rebinds id name v (st.set id name v) where
  size_eq := size_set st id name v
  closures_eq := rfl
  parent?_eq i := parent?_set st id i name v
  get?_eq i x := get?_set st id i name x v hid

namespace Rebinds

theorem chain_eq (h : st.Rebinds id name v st') (i : ScopeId) : st'.chain i = st.chain i :=
  chain_congr h.parent?_eq i

theorem binds_iff (h : st.Rebinds id name v st') (i : ScopeId) :
    st'.binds name i ↔ i = id ∨ st.binds name i := by
  rw [binds, h.get?_eq]
  by_cases hi : i = id <;> simp [hi, binds]

theorem findSome?_eq (h : st.Rebinds id name v st') (ids : List ScopeId) :
    (ids.findSome? fun i => st'.get? i name) =
      if ids.find? (st'.binds name) = some id then some v
      else ids.findSome? fun i => st.get? i name := by
  induction ids with
  | nil => rfl
  | cons i ids ih =>
      have hbinds := h.binds_iff i
      rw [List.findSome?_cons, List.findSome?_cons, List.find?_cons, h.get?_eq, ih]
      by_cases hi : i = id
      · subst hi
        simp [hbinds.mpr (.inl rfl)]
      · have hsame : st'.binds name i = st.binds name i := by
          rw [Bool.eq_iff_iff, hbinds, or_iff_right hi]
        rw [hsame, binds]
        cases st.get? i name <;> simp [hi]

theorem lookup_eq (h : st.Rebinds id name v st') (i : ScopeId) (x : String) :
    st'.lookup i x =
      if x = name ∧ st'.nearest? name i = some id then some v else st.lookup i x := by
  rw [lookup, lookup, nearest?, h.chain_eq]
  by_cases hx : x = name
  · subst hx
    rw [h.findSome?_eq]
    simp
  · simp [h.get?_eq, hx]

theorem nearest?_eq_some_iff (h : st.Rebinds id name v st') (i : ScopeId) :
    st'.nearest? name i = some id ↔
      ∃ inner outer, st.chain i = inner ++ id :: outer ∧ ∀ j ∈ inner, ¬st.binds name j := by
  have hid : st'.binds name id := (h.binds_iff id).mpr (.inl rfl)
  rw [nearest?, h.chain_eq, List.find?_eq_some_iff_append, and_iff_right hid]
  refine exists_congr fun inner => exists_congr fun outer => and_congr_right fun hchain => ?_
  -- a chain comes to the written scope once, so it is none of those before it
  have hnodup := st.nodup_chain i
  rw [hchain, List.nodup_append] at hnodup
  refine forall₂_congr fun j hj => ?_
  have hne : j ≠ id := hnodup.2.2 j hj id List.mem_cons_self
  rw [Bool.not_eq_true', Bool.eq_false_iff, ne_eq, h.binds_iff, or_iff_right hne]

theorem nearest?_eq (h : st.Rebinds id name v st') (hid : st.binds name id) (i : ScopeId) :
    st'.nearest? name i = st.nearest? name i := by
  have hbinds : st'.binds name = st.binds name := by
    funext j
    rw [Bool.eq_iff_iff, h.binds_iff, or_iff_right_of_imp]
    rintro rfl
    exact hid
  rw [nearest?, nearest?, h.chain_eq, hbinds]

end Rebinds

/-! ## Definitions -/

/-- What comes of defining a local name in the scope `id`: an error and the store as it was, or one
binding, which is read wherever the name is now resolved to `id`. -/
inductive DefinesLocally (st : Store) (id : ScopeId) (name : String) (v : Value) :
    Option DefineError × Store → Prop where
  | reassigned (constant : isConstantName name) (bound : st.binds name id) :
      DefinesLocally st id name v (some .constantReassignment, st)
  | dynamic (constant : isConstantName name) (unbound : ¬st.binds name id)
      (inner : (st.parent? id).isSome) : DefinesLocally st id name v (some .dynamicConstant, st)
  | bound {st' : Store}
      (free : isConstantName name → ¬st.binds name id ∧ st.parent? id = none)
      (rebinds : st.Rebinds id name v st')
      (lookup_eq : ∀ i x, st'.lookup i x =
        if x = name ∧ st'.nearest? name i = some id then some v else st.lookup i x)
      (nearest?_iff : ∀ i, st'.nearest? name i = some id ↔
        ∃ inner outer, st.chain i = inner ++ id :: outer ∧ ∀ j ∈ inner, ¬st.binds name j) :
      DefinesLocally st id name v (none, st')

theorem definesLocally (hid : id < st.size) (hname : ¬isGlobalName name) (v : Value) :
    DefinesLocally st id name v (st.define id name v) := by
  have hwritten := st.rebinds_set hid name v
  rw [define, if_neg hname]
  split
  · next hbound =>
      rw [Bool.and_eq_true] at hbound
      exact .reassigned hbound.1 hbound.2
  split
  · next hunbound hinner =>
      rw [Bool.and_eq_true] at hunbound hinner
      exact .dynamic hinner.1 (fun h => hunbound ⟨hinner.1, h⟩) hinner.2
  · next hunbound houter =>
      refine .bound (fun hconstant => ?_) hwritten hwritten.lookup_eq hwritten.nearest?_eq_some_iff
      simpa [hconstant] using And.intro hunbound houter

/-! ## Assignments -/

inductive AssignsLocally (st : Store) (id : ScopeId) (name : String) (v : Value) :
    Option AssignError × Store → Prop where
  | undefined (unbound : ∀ i ∈ st.chain id, ¬st.binds name i) :
      AssignsLocally st id name v (some .undefined, st)
  | constant (constant : isConstantName name) (bound : ∃ i ∈ st.chain id, st.binds name i) :
      AssignsLocally st id name v (some .constant, st)
  | changed {i : ScopeId} {st' : Store} (free : ¬isConstantName name)
      (nearest : st.nearest? name id = some i) (rebinds : st.Rebinds i name v st')
      (lookup_eq : ∀ j x, st'.lookup j x =
        if x = name ∧ st.nearest? name j = some i then some v else st.lookup j x) :
      AssignsLocally st id name v (none, st')

theorem assignsLocally (hname : ¬isGlobalName name) (st : Store) (id : ScopeId) (v : Value) :
    AssignsLocally st id name v (st.assign id name v) := by
  have hnearest : st.nearest? name id = ((st.chain id).filter (st.binds name)).head? :=
    List.head?_filter.symm
  rw [assign]
  split
  · next hfilter =>
      rw [hfilter] at hnearest
      exact .undefined (nearest?_eq_none_iff.mp hnearest)
  · next i others hfilter =>
      rw [hfilter] at hnearest
      have hbound := binds_of_nearest? hnearest
      split
      · next hconstant => exact .constant hconstant ⟨i, mem_chain_of_nearest? hnearest, hbound⟩
      · next hfree =>
          have hwritten := st.rebinds_set (lt_size_of_binds hbound) name v
          refine .changed hfree hnearest hwritten fun j x => ?_
          rw [hwritten.lookup_eq, hwritten.nearest?_eq hbound]

/-- A write to a local name changes one binding or, if it fails, nothing. -/
theorem define_assign_local (hid : id < st.size) (hname : ¬isGlobalName name) (v : Value) :
    DefinesLocally st id name v (st.define id name v) ∧
      AssignsLocally st id name v (st.assign id name v) :=
  ⟨definesLocally hid hname v, assignsLocally hname st id v⟩

def shadowing : Store :=
  (((empty.addRoot.addChild 0).addChild 1).set 0 "x" (.int 1)).set 1 "x" (.int 2)

theorem define_assign_local_shadowing :
    2 < shadowing.size ∧ ¬isGlobalName "x" ∧
      DefinesLocally shadowing 2 "x" (.int 3) (shadowing.define 2 "x" (.int 3)) ∧
      AssignsLocally shadowing 2 "x" (.int 3) (shadowing.assign 2 "x" (.int 3)) := by
  have hid : 2 < shadowing.size := by decide
  have hname : ¬isGlobalName "x" := by decide
  exact ⟨hid, hname, define_assign_local hid hname (.int 3)⟩

end Scriptlet.Store
