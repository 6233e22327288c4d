import Scriptlet.Proofs.Grammar.StmtSound

/-!
# What is read

A property of the constructs that a reader gives, whatever tokens it is given and whatever errors it
records on the way.  Constructs that are given up need not be spoken of.
-/

namespace Scriptlet.Grammar

def GivesAt {α : Type} (r : Reading) (x : Parse α) (Q : α → Prop) : Prop :=
  ∀ a r', x r = .ok a r' → Q a

def Gives {α : Type} (x : Parse α) (Q : α → Prop) : Prop :=
  ∀ r, GivesAt r x Q

def Round.Holds {α β : Type} (P : α → Prop) (Q : β → Prop) : Round α β → Prop
  | .again a => P a
  | .done b => Q b

variable {α β : Type} {x : Parse α} {r : Reading} {P : α → Prop} {Q : β → Prop}

namespace GivesAt

theorem pure {a : α} (h : P a) : GivesAt r (pure a) P := by
  rintro _ _ ⟨⟩
  exact h

theorem throw (e : SyntaxError) : GivesAt r (throw e) P := by
  rintro _ _ ⟨⟩

theorem fail (cause : Cause) : GivesAt r (fail cause) P := by
  rintro _ _ ⟨⟩

theorem bind {f : α → Parse β} (hx : GivesAt r x P) (hf : ∀ a, P a → Gives (f a) Q) :
    GivesAt r (x >>= f) Q := by
  intro b r' h
  simp only [Bind.bind, EStateM.bind] at h
  cases hread : x r with
  | error e r₁ =>
      rw [hread] at h
      cases h
  | ok a r₁ =>
      rw [hread] at h
      exact hf a (hx a r₁ hread) r₁ b r' h

theorem skip {f : α → Parse β} (hf : ∀ a, Gives (f a) Q) : GivesAt r (x >>= f) Q :=
  bind (P := fun _ => True) (fun _ _ _ => trivial) fun a _ => hf a

theorem bind_of_eq {f : α → Parse β} {a : α} {r' : Reading} (hx : x r = .ok a r')
    (hf : GivesAt r' (f a) Q) : GivesAt r (x >>= f) Q := by
  intro b r₁ h
  simp only [Bind.bind, EStateM.bind, hx] at h
  exact hf b r₁ h

theorem currentKind_bind {f : Kind → Parse β} (h : GivesAt r (f r.current.kind) Q) :
    GivesAt r (currentKind >>= f) Q :=
  h

theorem advance_bind {f : Token → Parse β} (h : GivesAt r.advance (f r.current) Q) :
    GivesAt r (advance >>= f) Q :=
  h

theorem expect_bind {kind : Kind} {cause : Cause} {f : Token → Parse β}
    (hkind : r.current.kind = kind) (h : GivesAt r.advance (f r.current) Q) :
    GivesAt r (expect kind cause >>= f) Q := by
  refine bind_of_eq ?_ h
  change (if r.current.kind = kind then advance else Grammar.fail cause) r = _
  rw [if_pos hkind]
  rfl

theorem eat_bind {kind : Kind} {f : Bool → Parse β} (hkind : r.current.kind = kind)
    (h : GivesAt r.advance (f true) Q) : GivesAt r (eat kind >>= f) Q := by
  refine bind_of_eq ?_ h
  change (if r.current.kind = kind then (do let _ ← advance; return true) else return false :
    Parse _) r = _
  rw [if_pos hkind]
  rfl

/-- What a round carries on keeps its property from round to round.  The first round may make use of
where it starts. -/
theorem rounds {step : α → Parse (Round α β)} {limit : Nat} {a : α}
    (hfirst : GivesAt r (step a) (Round.Holds P Q))
    (hstep : ∀ a, P a → Gives (step a) (Round.Holds P Q)) :
    GivesAt r (rounds step limit a) Q := by
  induction limit generalizing a r with
  | zero => exact .fail _
  | succ limit ih =>
      refine hfirst.bind fun round hround => ?_
      cases round with
      | again a' => exact fun r' => ih (hstep a' hround r')
      | done b => exact fun r' => .pure hround

end GivesAt

namespace Gives

theorem pure {a : α} (h : P a) : Gives (pure a) P :=
  fun _ => .pure h

theorem fail (cause : Cause) : Gives (fail cause) P :=
  fun _ => .fail cause

theorem bind {f : α → Parse β} (hx : Gives x P) (hf : ∀ a, P a → Gives (f a) Q) :
    Gives (x >>= f) Q :=
  fun r => (hx r).bind hf

theorem skip {f : α → Parse β} (hf : ∀ a, Gives (f a) Q) : Gives (x >>= f) Q :=
  fun _ => .skip hf

theorem map {f : α → β} (hx : Gives x P) (hf : ∀ a, P a → Q (f a)) : Gives (f <$> x) Q := by
  rw [map_eq_pure_bind]
  exact hx.bind fun a ha => pure (hf a ha)

theorem expect (kind : Kind) (cause : Cause) :
    Gives (expect kind cause) fun t => t.kind = kind := by
  intro r
  refine .currentKind_bind ?_
  split
  · next hkind =>
      rintro _ _ ⟨⟩
      exact hkind
  · exact .fail cause

/-! ## Repetition and nesting -/

theorem rounds {step : α → Parse (Round α β)} (hstep : ∀ a, P a → Gives (step a) (Round.Holds P Q))
    (limit : Nat) {a : α} (ha : P a) : Gives (rounds step limit a) Q :=
  fun r => .rounds (hstep a ha r) hstep

theorem nested {body : Parse α → Parse α} (hbody : ∀ x, Gives x P → Gives (body x) P)
    (limit : Nat) : Gives (nested body limit) P := by
  induction limit with
  | zero => exact .fail _
  | succ limit ih => exact hbody _ ih

theorem commaSeparated {check : Nat → Parse Unit} (limit : Nat) (hx : Gives x P) :
    Gives (commaSeparated limit check x) fun items => ∀ a ∈ items, P a := by
  refine rounds (P := fun items => ∀ a ∈ items, P a) (fun items hitems => ?_) limit (by simp)
  refine skip fun _ => hx.bind fun a ha => ?_
  have hpush : ∀ b ∈ items.push a, P b := by
    simpa [or_imp, forall_and] using And.intro hitems ha
  refine skip fun comma => ?_
  split
  · exact .pure hpush
  · exact .pure (by simpa [Round.Holds] using hpush)

end Gives

end Scriptlet.Grammar
