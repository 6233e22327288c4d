import Scriptlet.Proofs.Value.Alike

/-!
# Results of operators and host functions

No function comes out of an operator, and what it fails with depends on its values: a token that
stands for no operator and a jump out of no loop are faults of a tree.  The code of the host is no
part of a program, so what is asked of it is named here: that it hands back no functions but those
that it was handed, that it fails by its values too, and that it looks at no line numbers.
-/

namespace Scriptlet

def Failure.isStructural : Failure → Bool
  | .unsupportedOperator _ | .invalidBreak | .invalidNext => true
  | _ => false

namespace Value

variable {v a b : Value} {f : Closure} {failure : Failure}

/-! ## Functions in results -/

theorem not_holds_of_isPlain (h : v.isPlain) : ¬v.Holds f := by
  rintro ⟨⟩ <;> cases h

theorem holds_list_iff {items : List Value} :
    (Value.list items).Holds f ↔ ∃ v ∈ items, v.Holds f := by
  constructor
  · rintro (_ | ⟨hv, h⟩)
    exact ⟨_, hv, h⟩
  · rintro ⟨v, hv, h⟩
    exact .item hv h

theorem not_holds_range {inclusive : Bool} (h : range a b inclusive = .ok v) : ¬v.Holds f := by
  rcases range_cases a b inclusive with hrange | hrange | ⟨first, n, hrange⟩ <;>
    rw [hrange] at h <;> cases h
  · exact not_holds_of_isPlain rfl
  · simp only [holds_list_iff, integers, List.mem_map]
    rintro ⟨_, ⟨i, -, rfl⟩, hf⟩
    exact not_holds_of_isPlain rfl hf

/-! ## Failures of operators -/

private theorem isStructural_exact {op : BinaryOp} {z : Int} (h : exact op z = .error failure) :
    failure.isStructural = false := by
  unfold exact at h
  split at h <;> cases h
  rfl

private theorem isStructural_intBinary {op : BinaryOp} {m n : Int}
    (h : intBinary op m n = .error failure) : failure.isStructural = false := by
  have := @isStructural_exact failure op
  unfold intBinary intPower at h
  grind [Failure.isStructural]

private theorem isStructural_replicate {s : String} {count : Int}
    (h : replicate s count = .error failure) : failure.isStructural = false := by
  have hcopies := copies_replicate s count
  rw [h] at hcopies
  cases hcopies <;> rfl

private theorem isStructural_ordered {op : BinaryOp} (h : ordered op a b = .error failure) :
    failure.isStructural = false := by
  unfold ordered mismatch at h
  split at h
  · exact isStructural_intBinary h
  all_goals grind [Failure.isStructural, isStructural_replicate]

theorem isStructural_binary {op : BinaryOp} (h : binary op a b = .error failure) :
    failure.isStructural = false := by
  cases op with
  | eq | ne => cases h
  | _ => exact isStructural_ordered h

theorem isStructural_unary {op : UnaryOp} (h : unary op a = .error failure) :
    failure.isStructural = false := by
  unfold unary at h
  grind [Failure.isStructural]

theorem isStructural_range {inclusive : Bool} (h : range a b inclusive = .error failure) :
    failure.isStructural = false := by
  rcases range_cases a b inclusive with hrange | hrange | ⟨first, n, hrange⟩ <;>
    rw [hrange] at h <;> cases h
  rfl

end Value

/-! ## Hosts -/

namespace Settings

section Hosts

variable (settings : Settings)

/-- No function comes back from the host that was not handed to it. -/
def HandsBack : Prop :=
  ∀ id moment args v, settings.host id moment args = .ok v →
    ∀ f, v.Holds f → ∃ arg ∈ args, arg.Holds f

/-- The host does not fail as only a tree can. -/
def FailsByValue : Prop :=
  ∀ id moment args failure, settings.host id moment args = .error failure →
    failure.isStructural = false

/-- Handed functions that differ in their lines, the host gives what differs in their lines alone.
-/
def IgnoresLines : Prop :=
  ∀ (L : Likeness) id moment args args', List.Forall₂ (Value.Alike L) args args' →
    Value.AlikeResult L (settings.host id moment args) (settings.host id moment args')

end Hosts

variable {settings : Settings}

/-- A host that looks into no function has none but those it is handed. -/
theorem IgnoresLines.handsBack (h : settings.IgnoresLines) : settings.HandsBack := by
  intro code moment args v hv f hf
  let L : Likeness :=
    { closure := fun g g' => g' = g ∧ ∃ arg ∈ args, arg.Holds g
      line := (· = id)
      of_closure := by
        rintro g _ ⟨rfl, -⟩
        exact ⟨id, rfl, by rw [renumber_closure_id, id]⟩ }
  have hargs : List.Forall₂ (Value.Alike L) args args :=
    List.forall₂_same.mpr fun arg harg => Value.alike_self arg fun g hg => ⟨rfl, arg, harg, hg⟩
  have hresult := h L code moment args args hargs
  rw [hv] at hresult
  cases hresult with
  | ok halike => exact (Value.closure_of_alike_self hf halike).2

/-- The host packs what it is handed into a list, and its clock counts the moments. -/
def packing (maxCallDepth : Nat) : Settings where
  maxCallDepth := maxCallDepth
  silent := false
  clock := Float.ofNat
  host _ _ args := .ok (.list args)

theorem ignoresLines_packing (maxCallDepth : Nat) : (packing maxCallDepth).IgnoresLines :=
  fun _ _ _ _ _ hargs => .ok (.list hargs)

theorem handsBack_packing (maxCallDepth : Nat) : (packing maxCallDepth).HandsBack :=
  (ignoresLines_packing maxCallDepth).handsBack

theorem failsByValue_packing (maxCallDepth : Nat) : (packing maxCallDepth).FailsByValue := by
  rintro _ _ _ _ ⟨⟩

end Settings

namespace HostFunction

variable {f : HostFunction} {settings : Settings} {moment : Nat} {args : List Value}

theorem holds_of_call (hhost : settings.HandsBack) {v : Value} {g : Closure}
    (h : f.call settings moment args = .ok v) (hg : v.Holds g) : ∃ arg ∈ args, arg.Holds g := by
  unfold call at h
  split at h
  · cases h
    exact absurd hg (Value.not_holds_of_isPlain rfl)
  · exact hhost _ _ _ _ h g hg

theorem alike_call (hhost : settings.IgnoresLines) {L : Likeness} {args' : List Value}
    (h : List.Forall₂ (Value.Alike L) args args') :
    Value.AlikeResult L (f.call settings moment args) (f.call settings moment args') := by
  unfold call
  split
  · exact .ok (.plain rfl)
  · exact hhost _ _ _ _ _ h

theorem alike_call_self (hhost : settings.HandsBack) {L : Likeness}
    (h : List.Forall₂ (Value.Alike L) args args) :
    Value.AlikeResult L (f.call settings moment args) (f.call settings moment args) := by
  cases hcall : f.call settings moment args with
  | error failure => exact .error failure
  | ok v =>
      refine .ok (Value.alike_self v fun g hg => ?_)
      obtain ⟨arg, harg, hheld⟩ := holds_of_call hhost hcall hg
      exact Value.closure_of_alike_self hheld (List.forall₂_same.mp h arg harg)

end HostFunction

end Scriptlet
