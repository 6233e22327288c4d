import Mathlib.Data.Option.Basic
import Scriptlet.Proofs.Scope.Chain
import Scriptlet.Proofs.Value.Alike

/-!
# Stores that differ in their functions

Two stores are alike if they have the same scopes inside each other, and these bind the same names
to values that are alike.  Every operation on alike stores fails on both or leaves both alike.
-/

namespace Scriptlet

variable {L : Likeness} {v v' : Value} {id parent : ScopeId} {name : String}

/-! ## Scopes -/

namespace Bindings

def Alike (L : Likeness) (bs bs' : Bindings) : Prop :=
  List.Forall₂ (fun b b' => b'.1 = b.1 ∧ Value.Alike L b.2 b'.2) bs bs'

variable {bs bs' : Bindings}

theorem Alike.get? (h : Alike L bs bs') (name : String) :
    Option.Rel (Value.Alike L) (Bindings.get? name bs) (Bindings.get? name bs') := by
  induction h with
  | nil => exact .none
  | cons hb _ ih =>
      obtain ⟨hname, hv⟩ := hb
      simp only [Bindings.get?, hname]
      split
      · exact .some hv
      · exact ih

theorem Alike.insert (h : Alike L bs bs') (name : String) (hv : Value.Alike L v v') :
    Alike L (Bindings.insert name v bs) (Bindings.insert name v' bs') := by
  induction h with
  | nil => exact .cons ⟨rfl, hv⟩ .nil
  | cons hb hbs ih =>
      simp only [Bindings.insert, hb.1]
      split
      · exact .cons ⟨rfl, hv⟩ hbs
      · exact .cons ⟨rfl, hb.2⟩ ih

end Bindings

structure Scope.Alike (L : Likeness) (s s' : Scope) : Prop where
  parent_eq : s'.parent = s.parent
  bindings : Bindings.Alike L s.bindings s'.bindings

structure Store.Alike (L : Likeness) (st st' : Store) : Prop where
  size_eq : st'.size = st.size
  closures_eq : st'.closures = st.closures
  scope (i : ScopeId) : Option.Rel (Scope.Alike L) st.scopes[i]? st'.scopes[i]?

namespace Store.Alike

variable {st st' : Store}

theorem refl (hL : ∀ v, Value.Alike L v v) (st : Store) : Store.Alike L st st where
  size_eq := rfl
  closures_eq := rfl
  scope i := by
    cases st.scopes[i]? with
    | none => exact .none
    | some s => exact .some ⟨rfl, List.forall₂_same.mpr fun b _ => ⟨rfl, hL b.2⟩⟩

/-! ## What can be read -/

theorem parent?_eq (h : Store.Alike L st st') (i : ScopeId) : st'.parent? i = st.parent? i := by
  have hscope := h.scope i
  revert hscope
  unfold Store.parent?
  generalize st.scopes[i]? = s, st'.scopes[i]? = s'
  rintro (hs | _)
  · exact hs.parent_eq
  · rfl

theorem chain_eq (h : Store.Alike L st st') (i : ScopeId) : st'.chain i = st.chain i :=
  chain_congr h.parent?_eq i

theorem get? (h : Store.Alike L st st') (i : ScopeId) (name : String) :
    Option.Rel (Value.Alike L) (st.get? i name) (st'.get? i name) := by
  have hscope := h.scope i
  revert hscope
  unfold Store.get?
  generalize st.scopes[i]? = s, st'.scopes[i]? = s'
  rintro (hs | _)
  · exact hs.bindings.get? name
  · exact .none

theorem binds_eq (h : Store.Alike L st st') (name : String) (i : ScopeId) :
    st'.binds name i = st.binds name i := by
  have hget := h.get? i name
  revert hget
  unfold Store.binds
  generalize st.get? i name = a, st'.get? i name = a'
  rintro (hv | _) <;> rfl

theorem lookup (h : Store.Alike L st st') (id : ScopeId) (name : String) :
    Option.Rel (Value.Alike L) (st.lookup id name) (st'.lookup id name) := by
  unfold Store.lookup
  rw [h.chain_eq]
  induction st.chain id with
  | nil => exact .none
  | cons i ids ih =>
      have hget := h.get? i name
      revert hget
      rw [List.findSome?_cons, List.findSome?_cons]
      generalize st.get? i name = a, st'.get? i name = a'
      rintro (hv | _)
      · exact .some hv
      · exact ih

theorem lookup_env (h : Store.Alike L st st') (env : Environment) (name : String) :
    Option.Rel (Value.Alike L) (env.lookup st name) (env.lookup st' name) := by
  have hlookup := h.lookup env.current name
  revert hlookup
  unfold Environment.lookup
  generalize st.lookup env.current name = a, st'.lookup env.current name = a'
  rintro (hv | _)
  · exact .some hv
  · dsimp only
    split
    · exact .some (.plain rfl)
    · exact .none

/-! ## What can be written -/

theorem set (h : Store.Alike L st st') (id : ScopeId) (name : String)
    (hv : Value.Alike L v v') : Store.Alike L (st.set id name v) (st'.set id name v') where
  size_eq := by rw [size_set, size_set, h.size_eq]
  closures_eq := h.closures_eq
  scope i := by
    have hscope := h.scope i
    revert hscope
    simp only [Store.set, Array.getElem?_modify]
    generalize st.scopes[i]? = s, st'.scopes[i]? = s'
    rintro (hs | _)
    · split
      · exact .some ⟨hs.parent_eq, hs.bindings.insert name hv⟩
      · exact .some hs
    · split <;> exact .none

theorem setAll (h : Store.Alike L st st') (ids : List ScopeId) (name : String)
    (hv : Value.Alike L v v') :
    Store.Alike L (st.setAll ids name v) (st'.setAll ids name v') := by
  induction ids generalizing st st' with
  | nil => exact h
  | cons id ids ih => exact ih (h.set id name hv)

theorem define (h : Store.Alike L st st') (id : ScopeId) (name : String)
    (hv : Value.Alike L v v') :
    (st'.define id name v').1 = (st.define id name v).1 ∧
      Store.Alike L (st.define id name v).2 (st'.define id name v').2 := by
  unfold Store.define
  rw [h.chain_eq, h.binds_eq, h.parent?_eq]
  split
  · exact ⟨rfl, h.setAll _ name hv⟩
  · split
    · exact ⟨rfl, h⟩
    · split
      · exact ⟨rfl, h⟩
      · exact ⟨rfl, h.set id name hv⟩

theorem assign (h : Store.Alike L st st') (id : ScopeId) (name : String)
    (hv : Value.Alike L v v') :
    (st'.assign id name v').1 = (st.assign id name v).1 ∧
      Store.Alike L (st.assign id name v).2 (st'.assign id name v').2 := by
  have hbinds : st'.binds name = st.binds name := funext (h.binds_eq name)
  unfold Store.assign
  rw [h.chain_eq, hbinds]
  split
  · exact ⟨rfl, h⟩
  · split
    · exact ⟨rfl, h⟩
    · split
      · exact ⟨rfl, h.setAll _ name hv⟩
      · exact ⟨rfl, h.set _ name hv⟩

theorem addChild (h : Store.Alike L st st') (parent : ScopeId) :
    Store.Alike L (st.addChild parent) (st'.addChild parent) where
  size_eq := by rw [size_addChild, size_addChild, h.size_eq]
  closures_eq := h.closures_eq
  scope i := by
    have hsize : st'.scopes.size = st.scopes.size := h.size_eq
    simp only [Store.addChild, Array.getElem?_push, hsize]
    split
    · exact .some ⟨rfl, .nil⟩
    · exact h.scope i

theorem addClosure (h : Store.Alike L st st') : Store.Alike L st.addClosure st'.addClosure where
  size_eq := h.size_eq
  closures_eq := by rw [Store.addClosure, Store.addClosure, h.closures_eq]
  scope := h.scope

end Store.Alike

end Scriptlet
