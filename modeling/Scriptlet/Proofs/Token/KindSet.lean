import Mathlib.Data.List.Induction
import Scriptlet.Token.KindSet

/-!
Sets of kinds as finite sets.

A set is made from the empty one by adding kinds and joining sets.  What it says afterwards, to
a question, in a listing or in a message, is decided by the kinds that were added and by nothing
else: neither by their order nor by how often they were added.
-/

namespace Scriptlet

namespace KindSet

inductive Construction where
  | empty
  | insert (c : Construction) (k : Kind)
  | union (c d : Construction)

namespace Construction

def build : Construction → KindSet
  | empty => KindSet.empty
  | insert c k => c.build.insert k
  | union c d => c.build.union d.build

inductive Adds (k : Kind) : Construction → Prop
  | here (c : Construction) : Adds k (insert c k)
  | before {c : Construction} (l : Kind) : Adds k c → Adds k (insert c l)
  | left {c : Construction} (d : Construction) : Adds k c → Adds k (union c d)
  | right (c : Construction) {d : Construction} : Adds k d → Adds k (union c d)

@[simp] theorem not_adds_empty (k : Kind) : ¬ Adds k empty := by
  intro h
  cases h

@[simp] theorem adds_insert {k l : Kind} {c : Construction} :
    Adds k (insert c l) ↔ Adds k c ∨ k = l := by
  constructor
  · intro h
    cases h with
    | here => simp
    | before l h => simp [h]
  · rintro (h | rfl)
    · exact h.before l
    · exact .here c

@[simp] theorem adds_union {k : Kind} {c d : Construction} :
    Adds k (union c d) ↔ Adds k c ∨ Adds k d := by
  constructor
  · intro h
    cases h with
    | left d h => simp [h]
    | right c h => simp [h]
  · rintro (h | h)
    · exact h.left d
    · exact h.right c

theorem contains_build (c : Construction) (k : Kind) :
    c.build.contains k = true ↔ Adds k c := by
  induction c with
  | empty => simp [build]
  | insert c l ih => simp [build, ih]
  | union c d ihc ihd => simp [build, ihc, ihd]

end Construction

/-! ### Members in listing order -/

theorem pairwise_index_all : Kind.all.Pairwise fun k l => k.index < l.index := by
  have h : (Kind.all.map Kind.index).Pairwise (· < ·) := by
    rw [Kind.map_index_all]
    exact List.pairwise_lt_range
  simpa [List.pairwise_map] using h

theorem pairwise_toList (s : KindSet) : s.toList.Pairwise fun k l => k.index < l.index :=
  pairwise_index_all.filter _

theorem nodup_toList (s : KindSet) : s.toList.Nodup := by
  apply (pairwise_toList s).imp
  rintro k l h rfl
  omega

/-! ### Equality -/

theorem exists_index_eq {i : Nat} (h : i < 80) : ∃ k : Kind, k.index = i := by
  have hmem : i ∈ Kind.all.map Kind.index := by
    simpa [Kind.map_index_all] using h
  obtain ⟨k, -, hk⟩ := List.mem_map.mp hmem
  exact ⟨k, hk⟩

theorem Construction.getLsbD_build_of_le (c : Construction) {i : Nat} (h : 80 ≤ i) :
    c.build.bits.getLsbD i = false := by
  induction c with
  | empty => simp [build, KindSet.empty]
  | insert c k ih =>
      have hne : k.index ≠ i := by
        have := k.index_lt
        omega
      simp [build, KindSet.insert, ih, hne]
  | union c d ihc ihd => simp [build, KindSet.union, ihc, ihd]

/-- The other bits are the members, so that the members say all there is. -/
theorem Construction.build_eq_of_contains {c d : Construction}
    (h : ∀ k, c.build.contains k = d.build.contains k) : c.build = d.build := by
  have hbits : c.build.bits = d.build.bits := by
    apply BitVec.eq_of_getLsbD_eq
    intro i _
    by_cases hi : i < 80
    · obtain ⟨k, rfl⟩ := exists_index_eq hi
      exact h k
    · rw [c.getLsbD_build_of_le (by omega), d.getLsbD_build_of_le (by omega)]
  cases hc : c.build
  cases hd : d.build
  simpa [hc, hd] using hbits

/-! ### Messages -/

def quotedName (k : Kind) : String :=
  "'" ++ k.name ++ "'"

inductive Phrase : List Kind → String → Prop
  | nothing : Phrase [] "nothing"
  | one (k : Kind) : Phrase [k] (quotedName k)
  | many {before : List Kind} (last : Kind) : before ≠ [] →
      Phrase (before ++ [last])
        (", ".intercalate (before.map quotedName) ++ " or " ++ quotedName last)

theorem alternatives_append {names : List String} (last : String) (h : names ≠ []) :
    alternatives (names ++ [last]) = ", ".intercalate names ++ " or " ++ last := by
  match names with
  | [first] => simp [alternatives]
  | first :: second :: rest =>
      simp only [List.cons_append, alternatives]
      simp only [← List.cons_append, List.dropLast_concat, List.getLast_concat]

theorem phrase_alternatives (ks : List Kind) : Phrase ks (alternatives (ks.map quotedName)) := by
  induction ks using List.reverseRecOn with
  | nil => exact .nothing
  | append_singleton before last =>
      by_cases h : before = []
      · subst h
        exact .one last
      · have hnames : before.map quotedName ≠ [] := by simpa using h
        rw [List.map_append, List.map_singleton, alternatives_append _ hnames]
        exact .many last h

/-! ### The members alone decide -/

/-- The set behaves in every respect as the set of these kinds. -/
structure Represents (s : KindSet) (member : Kind → Prop) : Prop where
  contains : ∀ k, s.contains k = true ↔ member k
  mem_toList : ∀ k, k ∈ s.toList ↔ member k
  nodup_toList : s.toList.Nodup
  increasing : s.toList.Pairwise fun k l => k.index < l.index
  expected : Phrase s.toList s.expected

theorem represents_of_contains {s : KindSet} {member : Kind → Prop}
    (h : ∀ k, s.contains k = true ↔ member k) : s.Represents member where
  contains := h
  mem_toList k := KindSet.mem_toList.trans (h k)
  nodup_toList := KindSet.nodup_toList s
  increasing := pairwise_toList s
  expected := phrase_alternatives s.toList

theorem Construction.build_represents (c d : Construction) :
    c.build.Represents (Adds · c) ∧ (c.build = d.build ↔ ∀ k, Adds k c ↔ Adds k d) := by
  constructor
  · exact represents_of_contains c.contains_build
  · constructor
    · intro h k
      rw [← c.contains_build, ← d.contains_build, h]
    · intro h
      apply build_eq_of_contains
      intro k
      rw [Bool.eq_iff_iff, c.contains_build, d.contains_build, h]

/-- Added twice, on two paths and out of order, and listed once and in order. -/
example : ((Construction.empty.insert .comma |>.insert .leftParen).union
    (Construction.empty.insert .comma)).build.expected = "'(' or ','" := by
  decide +kernel

end KindSet

end Scriptlet
