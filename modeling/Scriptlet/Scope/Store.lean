import Scriptlet.Value.Basic

/-!
The store of scopes.

A scope binds names to values and, unless it is outermost, stands inside a parent that was made
before it.  So the way outward from a scope always ends; `chain` lists the scopes on it.  Names say
how they may be bound: a constant starts with a capital letter and is bound once, in an outermost
scope; a global name starts with a dollar sign and is written to every scope of the chain.
-/

namespace Scriptlet

/-! ## Names -/

def isConstantName (name : String) : Bool :=
  name.toList.head?.any Char.isUpper

def isGlobalName (name : String) : Bool :=
  name.toList.head? = some '$'

/-! ## Bindings -/

abbrev Bindings := List (String × Value)

namespace Bindings

def get? (name : String) : Bindings → Option Value
  | [] => none
  | (other, v) :: rest => if name = other then some v else get? name rest

def insert (name : String) (v : Value) : Bindings → Bindings
  | [] => [(name, v)]
  | (other, w) :: rest =>
      if name = other then (other, v) :: rest else (other, w) :: insert name v rest

theorem get?_insert (name other : String) (v : Value) (bs : Bindings) :
    get? other (insert name v bs) = if other = name then some v else get? other bs := by
  induction bs with
  | nil => simp [insert, get?]
  | cons b bs ih =>
      obtain ⟨x, w⟩ := b
      simp only [insert]
      split
      · next h =>
          subst h
          by_cases ho : other = name <;> simp [get?, ho]
      · next h =>
          by_cases ho : other = x
          · subst ho
            simp [get?, Ne.symm h]
          · simp [get?, ho, ih]

end Bindings

/-! ## Scopes -/

structure Scope where
  parent : Option ScopeId
  bindings : Bindings
  deriving Repr, Inhabited

/-- Scopes by number, and how many functions have been made. -/
structure Store where
  scopes : Array Scope
  closures : Nat
  parent_lt : ∀ (i : Nat) (s : Scope), scopes[i]? = some s → ∀ p, s.parent = some p → p < i

inductive DefineError where
  | constantReassignment
  | dynamicConstant
  deriving DecidableEq, Repr

inductive AssignError where
  | undefined
  | constant
  deriving DecidableEq, Repr

namespace Store

def empty : Store where
  scopes := #[]
  closures := 0
  parent_lt := by simp

def size (st : Store) : Nat :=
  st.scopes.size

def addRoot (st : Store) : Store where
  scopes := st.scopes.push ⟨none, []⟩
  closures := st.closures
  parent_lt := by
    intro i s h p hp
    rw [Array.getElem?_push] at h
    split at h
    · cases h
      simp at hp
    · exact st.parent_lt i s h p hp

/-- Makes a scope inside `parent`; its number is the old size.  Inside a scope that does not exist
there is only an outermost one. -/
def addChild (st : Store) (parent : ScopeId) : Store where
  scopes := st.scopes.push ⟨if parent < st.scopes.size then some parent else none, []⟩
  closures := st.closures
  parent_lt := by
    intro i s h p hp
    rw [Array.getElem?_push] at h
    split at h
    · next hi =>
        subst hi
        cases h
        split at hp
        · next hlt =>
            cases hp
            exact hlt
        · cases hp
    · exact st.parent_lt i s h p hp

def addClosure (st : Store) : Store :=
  { st with closures := st.closures + 1 }

def parent? (st : Store) (id : ScopeId) : Option ScopeId :=
  st.scopes[id]? >>= Scope.parent

theorem parent?_lt (st : Store) {id p : ScopeId} (h : st.parent? id = some p) : p < id := by
  simp only [parent?, Option.bind_eq_bind, Option.bind_eq_some_iff] at h
  obtain ⟨s, hs, hp⟩ := h
  exact st.parent_lt id s hs p hp

def chain (st : Store) (id : ScopeId) : List ScopeId :=
  match _h : st.parent? id with
  | some p => id :: st.chain p
  | none => [id]
termination_by id
decreasing_by exact st.parent?_lt _h

/-! ## One scope -/

def get? (st : Store) (id : ScopeId) (name : String) : Option Value :=
  st.scopes[id]? >>= fun s => s.bindings.get? name

def binds (st : Store) (name : String) (id : ScopeId) : Bool :=
  (st.get? id name).isSome

def set (st : Store) (id : ScopeId) (name : String) (v : Value) : Store where
  scopes := st.scopes.modify id fun s => { s with bindings := s.bindings.insert name v }
  closures := st.closures
  parent_lt := by
    intro i s h p hp
    rw [Array.getElem?_modify] at h
    split at h
    · obtain ⟨t, ht, rfl⟩ := Option.map_eq_some_iff.1 h
      exact st.parent_lt i t ht p hp
    · exact st.parent_lt i s h p hp

def setAll (st : Store) (ids : List ScopeId) (name : String) (v : Value) : Store :=
  ids.foldl (fun st id => st.set id name v) st

/-! ## Chains of scopes -/

def lookup (st : Store) (id : ScopeId) (name : String) : Option Value :=
  (st.chain id).findSome? fun i => st.get? i name

/-- Binds a name in the scope by the rules of names; an error leaves the store as it was. -/
def define (st : Store) (id : ScopeId) (name : String) (v : Value) :
    Option DefineError × Store :=
  if isGlobalName name then (none, st.setAll (st.chain id) name v)
  else if isConstantName name && st.binds name id then (some .constantReassignment, st)
  else if isConstantName name && (st.parent? id).isSome then (some .dynamicConstant, st)
  else (none, st.set id name v)

/-- Changes the nearest binding of a name, or all bindings of a global name on the chain; an error
leaves the store as it was. -/
def assign (st : Store) (id : ScopeId) (name : String) (v : Value) :
    Option AssignError × Store :=
  match (st.chain id).filter (st.binds name) with
  | [] => (some .undefined, st)
  | nearest :: others =>
      if isConstantName name then (some .constant, st)
      else if isGlobalName name then (none, st.setAll (nearest :: others) name v)
      else (none, st.set nearest name v)

/-! ## What the operations do to bindings and parents -/

@[simp] theorem size_set (st : Store) (id : ScopeId) (name : String) (v : Value) :
    (st.set id name v).size = st.size := by
  simp [size, set]

@[simp] theorem parent?_set (st : Store) (id other : ScopeId) (name : String) (v : Value) :
    (st.set id name v).parent? other = st.parent? other := by
  simp only [parent?, set, Array.getElem?_modify]
  split
  · cases st.scopes[other]? <;> simp
  · rfl

theorem get?_set (st : Store) (id other : ScopeId) (name x : String) (v : Value)
    (h : id < st.size) :
    (st.set id name v).get? other x =
      if other = id ∧ x = name then some v else st.get? other x := by
  simp only [get?, set, Array.getElem?_modify]
  by_cases ho : id = other
  · subst ho
    have hs : st.scopes[id]? = some st.scopes[id] := Array.getElem?_eq_getElem h
    simp [hs, Bindings.get?_insert]
  · simp [ho, Ne.symm ho]

end Store

end Scriptlet
