import Scriptlet.Token.Kind

/-!
Finite sets of token kinds.

A set is a machine word in which each kind has a bit of its own, so membership is a single test.
The readers of the grammar ask such sets what may stand next, and their messages list a set's
members.
-/

namespace Scriptlet

structure KindSet where
  bits : BitVec 128
  deriving DecidableEq, Repr

namespace KindSet

def empty : KindSet :=
  ⟨0⟩

def insert (s : KindSet) (k : Kind) : KindSet :=
  ⟨s.bits ||| BitVec.twoPow 128 k.index⟩

def union (s t : KindSet) : KindSet :=
  ⟨s.bits ||| t.bits⟩

def contains (s : KindSet) (k : Kind) : Bool :=
  s.bits.getLsbD k.index

def toList (s : KindSet) : List Kind :=
  Kind.all.filter s.contains

def ofList (ks : List Kind) : KindSet :=
  ks.foldl insert empty

def alternatives : List String → String
  | [] => "nothing"
  | [only] => only
  | first :: second :: rest =>
      let names := first :: second :: rest
      ", ".intercalate names.dropLast ++ " or " ++ names.getLast (by simp [names])

def expected (s : KindSet) : String :=
  alternatives (s.toList.map fun k => "'" ++ k.name ++ "'")

@[simp] theorem contains_empty (k : Kind) : empty.contains k = false := by
  simp [empty, contains]

@[simp] theorem contains_insert (s : KindSet) (k l : Kind) :
    (s.insert k).contains l = (s.contains l || l == k) := by
  simp only [insert, contains, BitVec.getLsbD_or, BitVec.getLsbD_twoPow]
  by_cases h : l = k
  · subst h
    have hlt : l.index < 128 := by
      have := l.index_lt
      omega
    simp [hlt]
  · have hi : k.index ≠ l.index := fun hi => h (Kind.index_injective hi).symm
    simp [h, hi]

@[simp] theorem contains_union (s t : KindSet) (k : Kind) :
    (s.union t).contains k = (s.contains k || t.contains k) := by
  simp [union, contains]

theorem mem_toList {s : KindSet} {k : Kind} : k ∈ s.toList ↔ s.contains k = true := by
  simp [toList, Kind.mem_all]

end KindSet

end Scriptlet
