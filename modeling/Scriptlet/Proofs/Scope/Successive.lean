import Scriptlet.Proofs.Scope.Chain

/-!
# Definitions one after the other

Names are defined in one scope in the order of a list.  If no name comes twice, each has its own
value in the end, and whatever other names are bound to stays as it was.
-/

namespace Scriptlet.Store

variable {st : Store} {id : ScopeId} {name x : String} {v : Value} {bs : List (String × Value)}

/-! ## One definition -/

theorem define_of_not_constant (h : ¬isConstantName name) (st : Store) (id : ScopeId)
    (v : Value) : (st.define id name v).1 = none := by
  unfold define
  split
  · rfl
  · simp [h]

theorem get?_define_self (hid : id < st.size) (h : ¬isConstantName name) (v : Value) :
    (st.define id name v).2.get? id name = some v := by
  by_cases hglobal : isGlobalName name
  · have hchain : ∀ i ∈ st.chain id, i < st.size :=
      fun i hi => Nat.lt_of_le_of_lt (le_of_mem_chain hi) hid
    simp [define_global hglobal, get?_setAll st hchain, self_mem_chain]
  · simp [define, hglobal, h, get?_set st id id name name v hid]

theorem lookup_of_get? (h : st.get? id name = some v) : st.lookup id name = some v := by
  unfold lookup
  cases hp : st.parent? id with
  | none => simp [chain_of_root hp, h]
  | some p => simp [chain_of_parent hp, h]

theorem lookup_define_of_ne (h : x ≠ name) (st : Store) (id other : ScopeId) (v : Value) :
    (st.define id name v).2.lookup other x = st.lookup other x := by
  have hchain : (st.define id name v).2.chain other = st.chain other :=
    chain_congr (fun i => parent?_define st id i name v) other
  simp only [lookup, hchain, get?_define_of_ne h]

theorem lt_size_of_lookup (h : st.lookup id name = some v) : id < st.size := by
  refine Nat.lt_of_not_le fun hge => ?_
  have hnone : st.scopes[id]? = none := Array.getElem?_eq_none hge
  have hroot : st.parent? id = none := by simp [parent?, hnone]
  simp [lookup, chain_of_root hroot, get?, hnone] at h

/-! ## Several definitions -/

def defineEach (st : Store) (id : ScopeId) (bs : List (String × Value)) : Store :=
  bs.foldl (fun st b => (st.define id b.1 b.2).2) st

theorem defineEach_cons (st : Store) (id : ScopeId) (b : String × Value)
    (bs : List (String × Value)) :
    st.defineEach id (b :: bs) = (st.define id b.1 b.2).2.defineEach id bs := rfl

theorem lookup_defineEach_of_not_mem (h : ∀ b ∈ bs, x ≠ b.1) (other : ScopeId) :
    (st.defineEach id bs).lookup other x = st.lookup other x := by
  induction bs generalizing st with
  | nil => rfl
  | cons b bs ih =>
      rw [List.forall_mem_cons] at h
      rw [defineEach_cons, ih h.2, lookup_define_of_ne h.1]

theorem lookup_defineEach (hid : id < st.size) (hnames : ∀ b ∈ bs, ¬isConstantName b.1)
    (hdistinct : (bs.map Prod.fst).Nodup) {b : String × Value} (hb : b ∈ bs) :
    (st.defineEach id bs).lookup id b.1 = some b.2 := by
  induction bs generalizing st with
  | nil => cases hb
  | cons c bs ih =>
      rw [List.map_cons, List.nodup_cons] at hdistinct
      rw [List.forall_mem_cons] at hnames
      rw [defineEach_cons]
      rcases List.mem_cons.mp hb with rfl | hb
      · rw [lookup_defineEach_of_not_mem]
        · exact lookup_of_get? (get?_define_self hid hnames.1 _)
        · rintro d hd heq
          exact hdistinct.1 (heq ▸ List.mem_map_of_mem hd)
      · apply ih _ hnames.2 hdistinct.2 hb
        rwa [size_define]

end Scriptlet.Store
