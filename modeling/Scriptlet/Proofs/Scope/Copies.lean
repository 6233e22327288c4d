import Scriptlet.Proofs.Scope.Constants
import Scriptlet.Proofs.Scope.Frames
import Scriptlet.Proofs.Scope.Outer

/-!
# Copies of global names

A definition of a global name leaves a copy in every scope on its way outward, and nothing makes a
copy anywhere else but in a global scope.  So a scope that holds a copy stands inside scopes that
all hold one, a walk outward that has found a copy goes on finding copies, and an assignment leaves
the same value in all of them.
-/

namespace Scriptlet

namespace Store

variable {st : Store} {id p i : ScopeId} {name : String} {v w : Value}

/-- What a scope binds is bound in its parent too. -/
def CopiedOutward (st : Store) (name : String) : Prop :=
  ∀ ⦃id p⦄, st.binds name id → st.parent? id = some p → st.binds name p

theorem CopiedOutward.chain (h : st.CopiedOutward name) (hid : st.binds name id)
    (hi : i ∈ st.chain id) : st.binds name i :=
  of_mem_chain h hid hi

/-! ## One operation -/

theorem CopiedOutward.of_binds_eq {st' : Store} (h : st.CopiedOutward name)
    (hbinds : ∀ i, st'.binds name i = st.binds name i)
    (hparent : ∀ i, st'.parent? i = st.parent? i) : st'.CopiedOutward name := by
  intro id p hid hp
  rw [hbinds] at hid ⊢
  rw [hparent] at hp
  exact h hid hp

theorem CopiedOutward.addChild (h : st.CopiedOutward name) (parent : ScopeId) :
    (st.addChild parent).CopiedOutward name := by
  intro id p hid hp
  have hold : st.binds name id := by simpa [binds] using hid
  have hne : id ≠ st.size := Nat.ne_of_lt (lt_size_of_binds hold)
  rw [parent?_addChild_of_ne parent hne] at hp
  simpa [binds] using h hold hp

theorem CopiedOutward.setAll (h : st.CopiedOutward name) {ids : List ScopeId}
    (hlt : ∀ i ∈ ids, i < st.size)
    (hids : ∀ i ∈ ids, ∀ p, st.parent? i = some p → p ∈ ids) (v : Value) :
    (st.setAll ids name v).CopiedOutward name := by
  intro id p hid hp
  rw [parent?_setAll] at hp
  simp only [binds, get?_setAll st hlt] at hid ⊢
  by_cases hmem : id ∈ ids
  · simp [hids id hmem p hp]
  · have hold : st.binds name id := by simpa [hmem, binds] using hid
    have hparent := h hold hp
    by_cases hmem' : p ∈ ids
    · simp [hmem']
    · simpa [hmem', binds] using hparent

theorem CopiedOutward.define (h : st.CopiedOutward name) (hname : isGlobalName name)
    (hid : id < st.size) (x : String) (v : Value) :
    (st.define id x v).2.CopiedOutward name := by
  by_cases hx : name = x
  · subst hx
    rw [define_global hname]
    apply h.setAll
    · intro i hi
      exact Nat.lt_of_le_of_lt (le_of_mem_chain hi) hid
    · intro i hi p hp
      have hstep : p ∈ st.chain i := by
        rw [chain_of_parent hp]
        exact List.mem_cons_of_mem i (self_mem_chain st p)
      exact mem_chain_trans hstep hi
  · apply h.of_binds_eq
    · intro i
      rw [binds, get?_define_of_ne hx, binds]
    · simp

theorem CopiedOutward.assign (h : st.CopiedOutward name) (id : ScopeId) (x : String) (v : Value) :
    (st.assign id x v).2.CopiedOutward name := by
  apply h.of_binds_eq
  · intro i
    exact binds_assign
  · simp

theorem CopiedOutward.set_root (h : st.CopiedOutward name) (hid : id < st.size)
    (hroot : st.parent? id = none) (x : String) (v : Value) :
    (st.set id x v).CopiedOutward name := by
  by_cases hx : name = x
  · subst hx
    have hlt : ∀ i ∈ [id], i < st.size := by simpa using hid
    exact h.setAll hlt (by simp [hroot]) v
  · apply h.of_binds_eq
    · intro i
      rw [binds, get?_set_of_ne hx, binds]
    · simp

/-! ## Assignments scope by scope -/

/-- What a walk outward comes to.  It was lenient if somewhere on the way it took a failure further
out for a success, because it had written a copy already. -/
structure Ascent where
  error : Option AssignError
  store : Store
  lenient : Bool

def Ascent.seenFrom (found : Bool) (further : Ascent) : Ascent :=
  if found && further.error = some .undefined then ⟨none, further.store, true⟩ else further

def overwrite (st : Store) (id : ScopeId) (name : String) (v : Value) : Store :=
  if st.binds name id then st.set id name v else st

/-- An assignment as a walk outward, which goes on beyond a copy for global names only. -/
def climb (st : Store) (id : ScopeId) (name : String) (v : Value) : Ascent :=
  if st.binds name id && isConstantName name then ⟨some .constant, st, false⟩
  else if st.binds name id && !isGlobalName name then ⟨none, st.set id name v, false⟩
  else
    match _h : st.parent? id with
    | none => ⟨if st.binds name id then none else some .undefined, st.overwrite id name v, false⟩
    | some p => ((st.overwrite id name v).climb p name v).seenFrom (st.binds name id)
termination_by id
decreasing_by exact st.parent?_lt _h

theorem climb_of_parent (hp : st.parent? id = some p) :
    st.climb id name v =
      if st.binds name id && isConstantName name then ⟨some .constant, st, false⟩
      else if st.binds name id && !isGlobalName name then ⟨none, st.set id name v, false⟩
      else ((st.overwrite id name v).climb p name v).seenFrom (st.binds name id) := by
  rw [climb]
  split
  · rfl
  split
  · rfl
  split
  · next hroot =>
      rw [hp] at hroot
      cases hroot
  · next q hq =>
      rw [hp] at hq
      cases hq
      rfl

theorem climb_of_root (hroot : st.parent? id = none) :
    st.climb id name v =
      if st.binds name id && isConstantName name then ⟨some .constant, st, false⟩
      else if st.binds name id && !isGlobalName name then ⟨none, st.set id name v, false⟩
      else
        ⟨if st.binds name id then none else some .undefined, st.overwrite id name v, false⟩ := by
  rw [climb]
  split
  · rfl
  split
  · rfl
  split
  · rfl
  · next hp =>
      rw [hroot] at hp
      cases hp

def copies (st : Store) (name : String) (id : ScopeId) : List ScopeId :=
  (st.chain id).filter (st.binds name)

theorem copies_of_parent (hp : st.parent? id = some p) :
    st.copies name id =
      if st.binds name id then id :: st.copies name p else st.copies name p := by
  rw [copies, chain_of_parent hp, List.filter_cons, copies]

theorem copies_overwrite : (st.overwrite id name v).copies name i = st.copies name i := by
  unfold overwrite copies
  split
  · next hid =>
      have hbinds : (st.set id name v).binds name = st.binds name := by
        funext j
        have hbound : ∀ i ∈ [id], st.binds name i := by simpa using hid
        exact binds_setAll hbound
      rw [hbinds, chain_congr (fun j => parent?_set st id j name v)]
  · rfl

theorem assign_eq (hname : isGlobalName name) :
    st.assign id name v =
      (if st.copies name id = [] then some .undefined else none,
        st.setAll (st.copies name id) name v) := by
  have hconstant := isConstantName_of_isGlobalName hname
  unfold assign copies
  split
  · next hnone => simp [hnone]
  · next hsome => simp [hsome, hname, hconstant]

theorem CopiedOutward.overwrite (h : st.CopiedOutward name) (id : ScopeId) (v : Value) :
    (st.overwrite id name v).CopiedOutward name := by
  unfold Store.overwrite
  split
  · next hid =>
      apply h.of_binds_eq
      · intro i
        have hbound : ∀ j ∈ [id], st.binds name j := by simpa using hid
        exact binds_setAll hbound
      · simp
  · exact h

/-- For a global name the walk writes all copies.  It is lenient only where a copy stands inside a
scope without one. -/
theorem climb_global (hname : isGlobalName name) (st : Store) (id : ScopeId) (v : Value) :
    ∃ lenient, st.climb id name v =
        ⟨(st.assign id name v).1, (st.assign id name v).2, lenient⟩ ∧
      (st.CopiedOutward name → lenient = false) := by
  have hconstant := isConstantName_of_isGlobalName hname
  induction id using Nat.strongRecOn generalizing st with
  | ind id ih =>
      cases hp : st.parent? id with
      | none =>
          refine ⟨false, ?_, fun _ => rfl⟩
          cases hid : st.binds name id <;>
            simp [climb_of_root hp, assign_eq hname, copies, chain_of_root hp, hid, hname,
              hconstant, Store.overwrite, setAll]
      | some p =>
          obtain ⟨lenient, hfurther, hlenient⟩ :=
            ih p (st.parent?_lt hp) (st.overwrite id name v)
          rw [assign_eq hname, copies_overwrite] at hfurther
          rw [climb_of_parent hp, hfurther, assign_eq hname, copies_of_parent hp]
          cases hid : st.binds name id with
          | false =>
              refine ⟨lenient, ?_, fun h => hlenient (h.overwrite id v)⟩
              simp [Ascent.seenFrom, Store.overwrite, hid]
          | true =>
              by_cases hnone : st.copies name p = []
              · refine ⟨true, ?_, fun h => ?_⟩
                · simp [Ascent.seenFrom, Store.overwrite, hid, hnone, hname, hconstant]
                · -- The parent of a copy holds a copy, so the walk found one there.
                  have hmem : p ∈ st.copies name p :=
                    List.mem_filter.mpr ⟨self_mem_chain st p, h hid hp⟩
                  simp [hnone] at hmem
              · refine ⟨lenient, ?_, fun h => hlenient (h.overwrite id v)⟩
                simp [Ascent.seenFrom, Store.overwrite, hid, hnone, hname, hconstant]

/-- For another name the walk ends at the nearest binding, and is never lenient. -/
theorem climb_local (hname : ¬isGlobalName name) (st : Store) (id : ScopeId) (v : Value) :
    st.climb id name v = ⟨(st.assign id name v).1, (st.assign id name v).2, false⟩ := by
  induction id using st.chain_induction with
  | root id hroot =>
      cases hid : st.binds name id <;> cases hconstant : isConstantName name <;>
        simp [climb_of_root hroot, assign, chain_of_root hroot, hid, hname, hconstant,
          overwrite]
  | child id p hp ih =>
      cases hid : st.binds name id with
      | false =>
          have hassign : st.assign id name v = st.assign p name v := by
            simp [assign, chain_of_parent hp, hid]
          simp [climb_of_parent hp, hid, overwrite, Ascent.seenFrom, ih, hassign]
      | true =>
          cases hconstant : isConstantName name <;>
            simp [climb_of_parent hp, assign, chain_of_parent hp, hid, hname, hconstant]

theorem climb_eq (h : isGlobalName name → st.CopiedOutward name) (id : ScopeId) (v : Value) :
    st.climb id name v = ⟨(st.assign id name v).1, (st.assign id name v).2, false⟩ := by
  by_cases hname : isGlobalName name
  · obtain ⟨lenient, hclimb, hlenient⟩ := climb_global hname st id v
    rw [hclimb, hlenient (h hname)]
  · exact climb_local hname st id v

/-- A copy in the inner scope only: the walk meets a failure beyond it. -/
example : ((((empty.addRoot.addChild 0).set 1 "$x" (.int 1)).climb 1 "$x" (.int 2)).lenient =
    true) := by
  cbv

theorem get?_assign_global (hname : isGlobalName name) (hok : (st.assign id name v).1 = none)
    (hi : i ∈ (st.assign id name v).2.chain id)
    (hw : (st.assign id name v).2.get? i name = some w) : w = v := by
  rw [chain_congr (fun j => parent?_assign st id j name v)] at hi
  have hbinds : st.binds name i := by
    have hafter : (st.assign id name v).2.binds name i := by
      rw [binds, hw]
      rfl
    rwa [binds_assign] at hafter
  have hmem : i ∈ (st.chain id).filter (st.binds name) := List.mem_filter.mpr ⟨hi, hbinds⟩
  have hlt : ∀ j ∈ (st.chain id).filter (st.binds name), j < st.size :=
    fun j hj => lt_size_of_binds (List.mem_filter.mp hj).2
  rw [assign_global hname hok, get?_setAll st hlt, if_pos ⟨hmem, rfl⟩] at hw
  exact (Option.some.inj hw).symm

end Store

/-! ## Histories -/

namespace Frames

variable {f : Frames} {name : String}

def SharesGlobal (f : Frames) : Prop :=
  ∀ env ∈ f.top :: f.below, env.globalScope = 0

theorem SharesGlobal.step (h : f.SharesGlobal) (op : Operation) : (f.step op).SharesGlobal := by
  have htop : f.top.globalScope = 0 := h f.top (by simp)
  have hbelow : ∀ env ∈ f.below, env.globalScope = 0 := fun env henv => h env (by simp [henv])
  cases op with
  | push => simpa [SharesGlobal, Frames.step, Environment.push, Environment.enter, htop]
  | pop =>
      simp only [SharesGlobal, Frames.step, Environment.leave]
      split <;> simpa [htop]
  | enclose ago =>
      simp only [SharesGlobal, Frames.step, Frames.enclose]
      split
      · exact h
      · simpa [Environment.enclosed, htop]
  | restore =>
      simp only [SharesGlobal, Frames.step, Frames.restore]
      split
      · exact h
      · next hf => simpa [hf] using hbelow
  | capture => exact h
  | define x w => exact h
  | assign x w => exact h
  | seed x w => exact h

theorem sharesGlobal_run (ops : List Operation) : (start.run ops).SharesGlobal := by
  induction ops using List.reverseRecOn with
  | nil => simp [SharesGlobal, start, Environment.start]
  | append_singleton ops op ih =>
      rw [run_append]
      exact ih.step op

theorem copiedOutward_step (hname : isGlobalName name) (h : f.store.CopiedOutward name)
    (hglobal : f.SharesGlobal) (hcurrent : f.top.current < f.store.size) (hsize : 0 < f.store.size)
    (op : Operation) : (f.step op).store.CopiedOutward name := by
  cases op with
  | push => exact h.addChild f.top.current
  | pop => exact h
  | capture => exact h
  | enclose ago => simpa [step] using h
  | restore => simpa [step] using h
  | define x w => exact h.define hname hcurrent x w
  | assign x w => exact h.assign f.top.current x w
  | seed x w =>
      have hzero : f.top.globalScope = 0 := hglobal f.top (by simp)
      have hroot : f.store.parent? 0 = none := by
        by_contra hne
        obtain ⟨p, hp⟩ := Option.ne_none_iff_exists'.mp hne
        exact Nat.not_lt_zero p (f.store.parent?_lt hp)
      rw [step, hzero]
      exact h.set_root hsize hroot x w

theorem copiedOutward_run (hname : isGlobalName name) (ops : List Operation) :
    (start.run ops).store.CopiedOutward name := by
  induction ops using List.reverseRecOn with
  | nil =>
      intro id p hid
      have hlt : id < 1 := Store.lt_size_of_binds hid
      obtain rfl : id = 0 := Nat.lt_one_iff.mp hlt
      cases hid
  | append_singleton ops op ih =>
      rw [run_append]
      have hcurrent := reachable_lt ops _ (current_mem_reachable _)
      exact copiedOutward_step hname ih (sharesGlobal_run ops) hcurrent
        (Nat.zero_lt_of_lt hcurrent) op

/-- The copies of a global name reach outward to the end, so the assignments of all names are walks
that are never lenient, and one of a global name leaves a single value on the chain. -/
theorem copies_outward (ops : List Operation) (hname : isGlobalName name) :
    (∀ id i, (start.run ops).store.binds name id → i ∈ (start.run ops).store.chain id →
      (start.run ops).store.binds name i) ∧
    (∀ id x v, (start.run ops).store.climb id x v =
      ⟨((start.run ops).store.assign id x v).1, ((start.run ops).store.assign id x v).2,
        false⟩) ∧
    ∀ id v, ((start.run ops).store.assign id name v).1 = none →
      ∀ i ∈ ((start.run ops).store.assign id name v).2.chain id,
        ∀ w, ((start.run ops).store.assign id name v).2.get? i name = some w → w = v := by
  refine ⟨?_, ?_, ?_⟩
  · intro id i hid hi
    exact (copiedOutward_run hname ops).chain hid hi
  · intro id x v
    exact Store.climb_eq (fun hx => copiedOutward_run hx ops) id v
  · intro id v hok i hi w hw
    exact Store.get?_assign_global hname hok hi hw

def historyOfCall : List Operation :=
  [.define "$x" (.int 1), .push, .capture, .pop, .enclose 0, .push, .define "$x" (.int 2),
    .restore]

theorem copies_outward_called :
    isGlobalName "$x" ∧
    (∀ id i, (start.run historyOfCall).store.binds "$x" id →
      i ∈ (start.run historyOfCall).store.chain id →
      (start.run historyOfCall).store.binds "$x" i) ∧
    (∀ id x v, (start.run historyOfCall).store.climb id x v =
      ⟨((start.run historyOfCall).store.assign id x v).1,
        ((start.run historyOfCall).store.assign id x v).2, false⟩) ∧
    ∀ id v, ((start.run historyOfCall).store.assign id "$x" v).1 = none →
      ∀ i ∈ ((start.run historyOfCall).store.assign id "$x" v).2.chain id,
        ∀ w, ((start.run historyOfCall).store.assign id "$x" v).2.get? i "$x" = some w →
          w = v :=
  ⟨by decide, copies_outward historyOfCall (by decide)⟩

end Frames

end Scriptlet
