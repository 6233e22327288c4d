import Scriptlet.Proofs.Grammar.Advance

/-!
# Progress

Every expression and every statement takes the token with which it starts, however deeply it is
nested and however soon reading is cut off.  A statement that is given up is left by at least that
token too, so reading one statement after the other comes to an end.
-/

namespace Scriptlet.Grammar

namespace Reading

theorem Extends.advance_advance {r r' : Reading} (h : r.Extends r') :
    r.advance.Extends r'.advance := by
  obtain ⟨current, ahead, errors⟩ := r
  obtain ⟨ts, hts, hends⟩ := h.tokens
  cases ts with
  | nil =>
      obtain ⟨current', ahead', errors'⟩ := r'
      obtain ⟨rfl, rfl⟩ := List.cons.inj hts
      refine ⟨⟨[], ?_, by simp⟩, by simpa using h.errors⟩
      unfold Reading.advance
      dsimp only
      split <;> rfl
  | cons t ts =>
      obtain ⟨rfl, rfl⟩ := List.cons.inj hts
      refine .trans ⟨⟨ts, ?_, fun u hu => hends u (by simp [hu])⟩, by simpa using h.errors⟩
        (.advance r')
      exact tokens_advance (hends current (by simp))
        (List.append_ne_nil_of_right_ne_nil ts (List.cons_ne_nil _ _))

end Reading

/-- Where `x` is read to its end, the token at which it starts is taken. -/
class Takes {α : Type} (x : Parse α) : Prop where
  extends_of_ok : ∀ {r r' : Reading} {a : α}, x r = .ok a r' → r.advance.Extends r'

namespace Takes

variable {α β : Type}

instance (e : SyntaxError) : Takes (throw e : Parse α) :=
  ⟨nofun⟩

instance (cause : Cause) : Takes (fail cause : Parse α) :=
  ⟨nofun⟩

instance : Takes advance :=
  ⟨by rintro r _ _ ⟨⟩; exact .refl _⟩

theorem of_bind {x : Parse α} {f : α → Parse β} (hx : Takes x) (hf : ∀ a, Advances (f a)) :
    Takes (x >>= f) where
  extends_of_ok {r r' b} h := by
    simp only [Bind.bind, EStateM.bind] at h
    split at h
    next a r₁ hr => exact (hx.extends_of_ok hr).trans ((hf a).of_ok h)
    next => cases h

theorem of_skip {x : Parse α} {f : α → Parse β} (hx : Advances x) (hf : ∀ a, Takes (f a)) :
    Takes (x >>= f) where
  extends_of_ok {r r' b} h := by
    simp only [Bind.bind, EStateM.bind] at h
    split at h
    next a r₁ hr => exact (hx.of_ok hr).advance_advance.trans ((hf a).extends_of_ok h)
    next => cases h

instance {x : Parse α} {f : α → Parse β} [Takes x] [∀ a, Advances (f a)] : Takes (x >>= f) :=
  of_bind inferInstance inferInstance

instance {x : Parse α} {f : α → Parse β} [Advances x] [∀ a, Takes (f a)] : Takes (x >>= f) :=
  of_skip inferInstance inferInstance

instance {c : Prop} [Decidable c] {x y : Parse α} [hx : Takes x] [hy : Takes y] :
    Takes (if c then x else y) := by
  split
  · exact hx
  · exact hy

instance (kind : Kind) (cause : Cause) : Takes (expect kind cause) := by
  unfold expect
  infer_instance

/-! ## Repetition and nesting -/

theorem of_rounds {step : α → Parse (Round α β)} [∀ a, Advances (step a)] [∀ a, Takes (step a)]
    (limit : Nat) (a : α) : Takes (rounds step limit a) := by
  cases limit with
  | zero =>
      rw [rounds]
      infer_instance
  | succ limit =>
      rw [rounds]
      refine of_bind inferInstance fun round => ?_
      cases round <;> infer_instance

theorem nested {body : Parse α → Parse α} (h : ∀ x, Takes x → Advances x → Takes (body x))
    (hforward : ∀ x, Advances x → Advances (body x)) (depth : Nat) :
    Takes (nested body depth) := by
  induction depth with
  | zero =>
      rw [Grammar.nested]
      infer_instance
  | succ depth ih => exact h _ ih (Advances.nested hforward depth)

instance {check : Nat → Parse Unit} {item : Parse α} [∀ n, Advances (check n)] [Advances item]
    [Takes item] (limit : Nat) : Takes (commaSeparated limit check item) := by
  unfold commaSeparated
  exact of_rounds limit #[]

/-! ## Expressions -/

section Expressions

variable {operand expr : Parse Expr} (limit : Nat)

instance [Advances operand] [Takes operand] (operators : List Kind) :
    Takes (leftChain limit operators operand) := by
  unfold leftChain
  infer_instance

instance [Advances operand] [Takes operand] (levels : List (List Kind)) :
    Takes (binary limit operand levels) := by
  induction levels with
  | nil => assumption
  | cons operators tighter ih =>
      rw [binary]
      infer_instance

instance [Advances operand] [Takes operand] : Takes (power limit operand) := by
  unfold power
  infer_instance

instance [Advances operand] [Takes operand] : Takes (unary limit operand) := by
  unfold unary
  infer_instance

instance [Advances expr] : Takes (primary expr) := by
  unfold primary
  refine of_skip inferInstance fun token => ?_
  split <;> infer_instance

instance [Advances expr] : Takes (call limit expr) := by
  unfold call
  infer_instance

instance [Advances expr] : Takes (operation limit expr) := by
  unfold operation
  infer_instance

instance [Advances expr] : Takes (assignment limit expr) := by
  unfold assignment
  refine of_bind inferInstance fun target => .of_bind inferInstance fun kind => ?_
  split
  · refine .of_bind inferInstance fun op => .of_bind inferInstance fun value => ?_
    split <;> infer_instance
  · infer_instance

instance : Takes (expression limit) :=
  nested (fun _ _ _ => inferInstance) (fun _ _ => inferInstance) limit

end Expressions

/-! ## Statements -/

section Statements

variable {expr : Parse Expr} {stmt : Parse Stmt} [Advances expr] [Advances stmt] (limit : Nat)

instance : Takes (definition limit stmt) := by
  unfold definition
  infer_instance

instance : Takes (parallelAssignment limit expr) := by
  unfold parallelAssignment
  infer_instance

instance : Takes (ifStatement limit expr stmt) := by
  unfold ifStatement
  infer_instance

instance : Takes (unlessStatement limit expr stmt) := by
  unfold unlessStatement
  infer_instance

instance : Takes (caseStatement limit expr stmt) := by
  unfold caseStatement
  refine of_bind inferInstance fun keyword => .of_bind inferInstance fun subject =>
    .of_bind inferInstance fun _ => .of_bind inferInstance fun arms => ?_
  split
  infer_instance

instance : Takes (beginBlock limit stmt) := by
  unfold beginBlock
  infer_instance

instance : Takes (conditionalLoop limit expr stmt) := by
  unfold conditionalLoop
  infer_instance

instance : Takes (loopStatement limit stmt) := by
  unfold loopStatement
  infer_instance

instance : Takes (forStatement limit expr stmt) := by
  unfold forStatement
  infer_instance

instance : Takes (printStatement limit expr) := by
  unfold printStatement
  infer_instance

instance : Takes (returnStatement expr) := by
  unfold returnStatement
  infer_instance

instance [Takes expr] : Takes (expressionStatement limit expr) := by
  unfold expressionStatement
  infer_instance

instance [Takes expr] : Takes (statementWith limit expr stmt) := by
  unfold statementWith
  refine of_skip inferInstance fun parallel => ?_
  split
  · infer_instance
  · refine of_skip inferInstance fun kind => ?_
    split <;> infer_instance

instance [Takes stmt] : Takes (declaration stmt) where
  extends_of_ok {r r' s} h := by
    unfold declaration at h
    split at h
    next hread =>
      cases h
      exact extends_of_ok hread
    next e r₁ hread =>
      cases h
      have hforward : r.Extends (r₁.record e) := (Advances.of_error hread).trans (.record r₁ e)
      exact hforward.advance_advance.trans (.advance_recover _ _)

end Statements

end Takes

def innerExpression (limit depth : Nat) : Parse Expr :=
  nested (assignment limit) depth

instance (limit depth : Nat) : Advances (innerExpression limit depth) :=
  .nested (fun _ _ => inferInstance) depth

def innerStatement (limit depth : Nat) : Parse Stmt :=
  nested (statementWith limit (expression limit)) depth

instance (limit depth : Nat) : Advances (innerStatement limit depth) :=
  .nested (fun _ _ => inferInstance) depth

instance (limit depth : Nat) : Takes (innerStatement limit depth) :=
  .nested (fun _ _ _ => inferInstance) (fun _ _ => inferInstance) depth

end Scriptlet.Grammar
