import Mathlib.Data.List.Forall2
import Scriptlet.Proofs.Source.Lines
import Scriptlet.Proofs.Source.Spacing

/-!
# Spelling

Operators, punctuation and reserved words are spelled as their kinds are named, and a name is never
spelled like a reserved word.  A token is also as long as it can be: no longer operator stands where
an operator is read, a word does not stop before a character that would go on with it, and an
integer does not stop before a name or a fraction.
-/

namespace Scriptlet.Source

/-! ## What is asked of a token -/

variable {c : Char} {rest following : List Char} {kind : Kind} {literal : Option Literal}
  {lexeme : String}

theorem of_mem_wordSpellings {word : List Char} (h : (word, kind) ∈ wordSpellings) :
    kind.isKeyword ∧ String.ofList word = kind.name := by
  obtain ⟨k, hk, heq⟩ := List.mem_map.mp h
  obtain ⟨rfl, rfl⟩ := Prod.mk.inj heq
  exact ⟨(List.mem_filter.mp hk).2, String.ofList_toList⟩

theorem mem_wordSpellings (h : kind.isKeyword) : (kind.name.toList, kind) ∈ wordSpellings :=
  List.mem_map_of_mem (List.mem_filter.mpr ⟨Kind.mem_all kind, h⟩)

theorem of_mem_operatorSpellings {text : List Char} (h : (text, kind) ∈ operatorSpellings) :
    kind.isOperator ∧ String.ofList text = kind.name ∨
      kind = .kwAnd ∧ String.ofList text = "&&" ∨ kind = .kwOr ∧ String.ofList text = "||" := by
  rcases List.mem_append.mp h with h | h
  · obtain ⟨k, hk, heq⟩ := List.mem_map.mp h
    obtain ⟨rfl, rfl⟩ := Prod.mk.inj heq
    exact .inl ⟨(List.mem_filter.mp hk).2, String.ofList_toList⟩
  · simp only [List.mem_cons, List.not_mem_nil, or_false, Prod.mk.injEq] at h
    rcases h with ⟨rfl, rfl⟩ | ⟨rfl, rfl⟩
    · exact .inr (.inl ⟨rfl, rfl⟩)
    · exact .inr (.inr ⟨rfl, rfl⟩)

end Scriptlet.Source
