import Mathlib
import Scriptlet.Proofs.Scope.Frames

/-!
# Reading global names

A write to a global name reaches the chain of the scope that it is made in, and no copy that some
other chain holds.  So a scope sees the value written last exactly if the copy nearest to it stands
on the chain of the writer, or held that value already.
-/

namespace Scriptlet.Frames

/-- The operation binds the name or changes what it is bound to, and does not fail. -/
def Writes (f : Frames) (name : String) (v : Value) (op : Operation) : Prop :=
  op = .define name v ∧ (f.store.define f.top.current name v).1 = none ∨
    op = .assign name v ∧ (f.store.assign f.top.current name v).1 = none

def Quiet (name : String) : Frames → List Operation → Prop
  | _, [] => True
  | f, op :: ops =>
      (∀ v, ¬ f.Writes name v op ∧ op ≠ .seed name v) ∧ Quiet name (f.step op) ops

variable {f : Frames} {name : String} {v : Value} {op : Operation}

/-! ## One operation -/

theorem get?_step_of_quiet (hname : isGlobalName name)
    (h : ∀ v, ¬ f.Writes name v op ∧ op ≠ .seed name v) (i : ScopeId) :
    (f.step op).store.get? i name = f.store.get? i name := by
  cases op with
  | push => exact Store.get?_addChild f.store f.top.current i name
  | pop => rfl
  | capture => rfl
  | enclose ago => rw [step, store_enclose]
  | restore => rw [step, store_restore]
  | define x w =>
      have hne : name ≠ x := by
        rintro rfl
        exact (h w).1 (.inl ⟨rfl, by rw [Store.define_global hname]⟩)
      exact Store.get?_define_of_ne hne f.store f.top.current i w
  | assign x w =>
      by_cases hx : name = x
      · subst hx
        have hfailed : (f.store.assign f.top.current name w).1 ≠ none :=
          fun hok => (h w).1 (.inr ⟨rfl, hok⟩)
        rw [step, Store.assign_of_failed hfailed]
      · exact Store.get?_assign_of_ne hx f.store f.top.current i w
  | seed x w =>
      have hne : name ≠ x := by
        rintro rfl
        exact (h w).2 rfl
      exact Store.get?_set_of_ne hne f.store f.top.globalScope i w

theorem get?_run_of_quiet (hname : isGlobalName name) {ops : List Operation}
    (h : f.Quiet name ops) (i : ScopeId) : (f.run ops).store.get? i name = f.store.get? i name := by
  induction ops generalizing f with
  | nil => rfl
  | cons op ops ih =>
      rw [run_cons, ih h.2, get?_step_of_quiet hname h.1]

/-- A write leaves the same value in every copy on the chain, and every other copy alone. -/
theorem get?_step_of_writes (hname : isGlobalName name) (hw : f.Writes name v op)
    (hvalid : f.top.current < f.store.size) (i : ScopeId) :
    (f.step op).store.get? i name =
      if i ∈ f.store.chain f.top.current ∧ (f.step op).store.binds name i then some v
      else f.store.get? i name := by
  have hchain : ∀ i ∈ f.store.chain f.top.current, i < f.store.size :=
    fun i hi => Nat.lt_of_le_of_lt (Store.le_of_mem_chain hi) hvalid
  rcases hw with ⟨rfl, -⟩ | ⟨rfl, hok⟩
  · have hget : ∀ j, (f.step (.define name v)).store.get? j name =
        if j ∈ f.store.chain f.top.current then some v else f.store.get? j name := by
      intro j
      simp [step, Store.define_global hname, Store.get?_setAll f.store hchain]
    by_cases hi : i ∈ f.store.chain f.top.current <;> simp [Store.binds, hget, hi]
  · have hbound : ∀ j ∈ (f.store.chain f.top.current).filter (f.store.binds name),
        j < f.store.size := fun j hj => hchain j (List.mem_filter.mp hj).1
    have hget : ∀ j, (f.step (.assign name v)).store.get? j name =
        if j ∈ f.store.chain f.top.current ∧ f.store.binds name j then some v
        else f.store.get? j name := by
      intro j
      simp [step, Store.assign_global hname hok, Store.get?_setAll f.store hbound]
    by_cases hi : i ∈ f.store.chain f.top.current <;> by_cases hb : f.store.binds name i <;>
      simp_all [Store.binds]

/-! ## Histories -/

/-- The value written last is read exactly through the copies on the chain of the writer, and
through copies that held that value already. -/
theorem lookup_after_write_iff (before later : List Operation) (hname : isGlobalName name)
    (hw : (start.run before).Writes name v op)
    (hq : ((start.run before).step op).Quiet name later) (id : ScopeId) :
    (((start.run before).step op).run later).store.lookup id name = some v ↔
      ∃ i, (((start.run before).step op).run later).store.nearest? name id = some i ∧
        (i ∈ (start.run before).store.chain (start.run before).top.current ∨
          (start.run before).store.get? i name = some v) := by
  generalize hf : start.run before = f at hw hq ⊢
  have hvalid : f.top.current < f.store.size :=
    hf ▸ reachable_lt before _ (current_mem_reachable _)
  rw [Store.lookup_eq_nearest?, Option.bind_eq_some_iff]
  refine exists_congr fun i => and_congr_right fun hi => ?_
  have hbinds := Store.binds_of_nearest? hi
  rw [Store.binds, get?_run_of_quiet hname hq, ← Store.binds] at hbinds
  rw [get?_run_of_quiet hname hq, get?_step_of_writes hname hw hvalid]
  by_cases hchain : i ∈ f.store.chain f.top.current
  · simp [hchain, hbinds]
  · simp [hchain]

def historyWithCopy : List Operation :=
  [.push, .define "$x" (.int 1), .capture, .pop]

/-- The name is changed from outside, and read in a call of what was captured. -/
theorem lookup_after_write_outside :
    isGlobalName "$x" ∧
    (start.run historyWithCopy).Writes "$x" (.int 2) (.assign "$x" (.int 2)) ∧
    ((start.run historyWithCopy).step (.assign "$x" (.int 2))).Quiet "$x" [.enclose 0, .push] ∧
    ((((start.run historyWithCopy).step (.assign "$x" (.int 2))).run
        [.enclose 0, .push]).store.lookup 2 "$x" = some (.int 2) ↔
      ∃ i, (((start.run historyWithCopy).step (.assign "$x" (.int 2))).run
          [.enclose 0, .push]).store.nearest? "$x" 2 = some i ∧
        (i ∈ (start.run historyWithCopy).store.chain (start.run historyWithCopy).top.current ∨
          (start.run historyWithCopy).store.get? i "$x" = some (.int 2))) := by
  have hw : (start.run historyWithCopy).Writes "$x" (.int 2) (.assign "$x" (.int 2)) :=
    .inr ⟨rfl, by cbv⟩
  have hq : ((start.run historyWithCopy).step (.assign "$x" (.int 2))).Quiet "$x"
      [.enclose 0, .push] := by
    simp [Quiet, Writes]
  exact ⟨by decide, hw, hq,
    lookup_after_write_iff historyWithCopy [.enclose 0, .push] (by decide) hw hq 2⟩

/-- A scope in use need not see the value written last. -/
theorem not_forall_reachable_lookup :
    ¬ ∀ (before later : List Operation) (op : Operation) (name : String) (v : Value),
      isGlobalName name → (start.run before).Writes name v op →
      ((start.run before).step op).Quiet name later →
      ∀ id ∈ (((start.run before).step op).run later).reachable,
        (((start.run before).step op).run later).store.lookup id name = some v := by
  intro h
  have hread := h historyWithCopy [] (.define "$x" (.int 2)) "$x" (.int 2) (by decide)
    (.inl ⟨rfl, by cbv⟩) trivial 1 (by decide)
  have hstale : ((start.run historyWithCopy).step (.define "$x" (.int 2))).store.lookup 1 "$x" =
      some (.int 1) := by cbv
  rw [run_nil, hstale] at hread
  injection hread with hvalue
  injection hvalue with hint
  exact absurd hint (by decide)

end Scriptlet.Frames
