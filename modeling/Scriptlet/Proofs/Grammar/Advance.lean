import Scriptlet.Grammar.Stmt

/-!
# Moving forward

Reading only ever moves forward in the tokens, never past an end mark, and only ever adds to the
errors.  This holds of single tokens, is kept by sequencing, repetition and nesting, and so holds of
every construct of the grammar, whether the construct is read or given up.
-/

namespace Scriptlet.Grammar

namespace Reading

def tokens (r : Reading) : List Token :=
  r.current :: r.ahead

theorem tokens_advance {current : Token} {ahead : List Token} {errors : Array SyntaxError}
    (hkind : current.kind ≠ .eof) (hahead : ahead ≠ []) :
    (Reading.advance ⟨current, ahead, errors⟩).tokens = ahead := by
  cases ahead with
  | nil => exact absurd rfl hahead
  | cons next rest => simp [Reading.advance, Reading.tokens]

@[simp] theorem errors_advance (r : Reading) : r.advance.errors = r.errors := by
  unfold Reading.advance
  split <;> rfl

/-- `r'` stands further on than `r` in the same tokens, and no end mark lies between them. -/
structure Extends (r r' : Reading) : Prop where
  tokens : ∃ ts, r.tokens = ts ++ r'.tokens ∧ ∀ t ∈ ts, t.kind ≠ .eof
  errors : r.errors.toList <+: r'.errors.toList

namespace Extends

variable {r r₁ r₂ r₃ : Reading}

theorem refl (r : Reading) : Extends r r :=
  ⟨⟨[], rfl, by simp⟩, List.prefix_refl _⟩

theorem trans (h : Extends r₁ r₂) (h' : Extends r₂ r₃) : Extends r₁ r₃ := by
  obtain ⟨ts, hts, hends⟩ := h.tokens
  obtain ⟨us, hus, hends'⟩ := h'.tokens
  refine ⟨⟨ts ++ us, by rw [hts, hus, List.append_assoc], ?_⟩, h.errors.trans h'.errors⟩
  intro t ht
  rcases List.mem_append.mp ht with ht | ht
  · exact hends t ht
  · exact hends' t ht

theorem record (r : Reading) (e : SyntaxError) : Extends r (r.record e) where
  tokens := ⟨[], rfl, by simp⟩
  errors := by simp [Reading.record]

theorem advance (r : Reading) : Extends r r.advance := by
  unfold Reading.advance
  split
  · exact refl r
  · exact refl r
  · next next rest hahead hkind =>
      refine ⟨⟨[r.current], by simp [Reading.tokens, hahead], ?_⟩, List.prefix_refl _⟩
      intro t ht
      rw [List.mem_singleton.mp ht]
      exact hkind

private theorem pastSeparators_suffix (current : Token) (ahead : List Token) :
    ∃ ts, current :: ahead =
        ts ++ ((pastSeparators current ahead).1 :: (pastSeparators current ahead).2) ∧
      ∀ t ∈ ts, t.kind.isSeparator := by
  induction ahead generalizing current with
  | nil => exact ⟨[], rfl, by simp⟩
  | cons next rest ih =>
      rw [pastSeparators]
      split
      · next hsep =>
          obtain ⟨ts, hts, hseps⟩ := ih next
          exact ⟨current :: ts, by rw [hts]; rfl, by simpa [hsep] using hseps⟩
      · exact ⟨[], rfl, by simp⟩

theorem isSeparator_ne_eof {k : Kind} (h : k.isSeparator) : k ≠ .eof := by
  rintro rfl
  exact absurd h (by decide)

theorem skipSeparators (r : Reading) : Extends r r.skipSeparators := by
  obtain ⟨ts, hts, hseps⟩ := pastSeparators_suffix r.current r.ahead
  exact ⟨⟨ts, hts, fun t ht => isSeparator_ne_eof (hseps t ht)⟩, List.prefix_refl _⟩

private theorem nextStart_suffix (starts : KindSet) (previous current : Token)
    (ahead : List Token) :
    ∃ ts, current :: ahead = ts ++ ((nextStart starts previous current ahead).1 ::
        (nextStart starts previous current ahead).2) ∧ ∀ t ∈ ts, t.kind ≠ .eof := by
  induction ahead generalizing previous current with
  | nil => exact ⟨[], rfl, by simp⟩
  | cons next rest ih =>
      rw [nextStart]
      split
      · exact ⟨[], rfl, by simp⟩
      · next hstop =>
          obtain ⟨ts, hts, hends⟩ := ih current next
          have hcurrent : current.kind ≠ .eof := by
            intro heof
            simp [heof] at hstop
          exact ⟨current :: ts, by rw [hts]; rfl, by simpa [hcurrent] using hends⟩

theorem advance_recover (starts : KindSet) (r : Reading) :
    Extends r.advance (r.recover starts) := by
  obtain ⟨ts, hts, hends⟩ := nextStart_suffix starts r.current r.advance.current r.advance.ahead
  exact ⟨⟨ts, hts, hends⟩, List.prefix_refl _⟩

theorem recover (starts : KindSet) (r : Reading) : Extends r (r.recover starts) :=
  (advance r).trans (advance_recover starts r)

end Extends

end Reading

/-! ## Rounds -/

def Round.map {α β α' β' : Type} (f : α → α') (g : β → β') : Round α β → Round α' β'
  | .again a => .again (f a)
  | .done b => .done (g b)

theorem rounds_map {α β α' β' : Type} (f : α → α') (g : β → β')
    (step : α → Parse (Round α β)) {step' : α' → Parse (Round α' β')}
    (h : ∀ a, step' (f a) = Round.map f g <$> step a) (limit : Nat) (a : α) :
    rounds step' limit (f a) = g <$> rounds step limit a := by
  induction limit generalizing a with
  | zero => rfl
  | succ limit ih =>
      simp only [rounds, h, map_bind, bind_map_left]
      refine congrArg (step a >>= ·) (funext fun round => ?_)
      cases round with
      | again a' => exact ih a'
      | done b => rfl

/-- The reading that is left behind, whether or not a construct was read. -/
def after {α : Type} (x : Parse α) (r : Reading) : Reading :=
  match x r with
  | .ok _ r' => r'
  | .error _ r' => r'

class Advances {α : Type} (x : Parse α) : Prop where
  extends_after : ∀ r : Reading, r.Extends (after x r)

namespace Advances

variable {α β : Type}

theorem of_ok {x : Parse α} [h : Advances x] {r r' : Reading} {a : α} (hx : x r = .ok a r') :
    r.Extends r' := by
  simpa [after, hx] using h.extends_after r

theorem of_error {x : Parse α} [h : Advances x] {r r' : Reading} {e : SyntaxError}
    (hx : x r = .error e r') : r.Extends r' := by
  simpa [after, hx] using h.extends_after r

/-! ## Single tokens -/

instance (a : α) : Advances (pure a : Parse α) :=
  ⟨fun r => .refl r⟩

instance (e : SyntaxError) : Advances (throw e : Parse α) :=
  ⟨fun r => .refl r⟩

instance : Advances (get : Parse Reading) :=
  ⟨fun r => .refl r⟩

theorem of_modify {f : Reading → Reading} (h : ∀ r : Reading, r.Extends (f r)) :
    Advances (modify f : Parse Unit) :=
  ⟨h⟩

theorem of_bind {x : Parse α} {f : α → Parse β} (hx : Advances x) (hf : ∀ a, Advances (f a)) :
    Advances (x >>= f) where
  extends_after r := by
    cases hxr : x r with
    | ok a r' =>
        have hfr := (hx.of_ok hxr).trans ((hf a).extends_after r')
        simpa [after, Bind.bind, EStateM.bind, hxr] using hfr
    | error e r' => simpa [after, Bind.bind, EStateM.bind, hxr] using hx.of_error hxr

instance {x : Parse α} {f : α → Parse β} [Advances x] [∀ a, Advances (f a)] :
    Advances (x >>= f) :=
  of_bind inferInstance inferInstance

instance {f : α → β} {x : Parse α} [Advances x] : Advances (f <$> x) := by
  rw [map_eq_pure_bind]
  infer_instance

instance {c : Prop} [Decidable c] {x y : Parse α} [hx : Advances x] [hy : Advances y] :
    Advances (if c then x else y) := by
  split
  · exact hx
  · exact hy

instance : Advances current := by
  unfold current
  infer_instance

instance : Advances currentKind := by
  unfold currentKind
  infer_instance

instance : Advances (modify Reading.advance : Parse Unit) :=
  of_modify Reading.Extends.advance

instance : Advances advance := by
  unfold advance
  infer_instance

instance (cause : Cause) : Advances (fail cause : Parse α) := by
  unfold fail
  infer_instance

instance (token : Token) (cause : Cause) : Advances (report token cause) :=
  of_modify fun r => .record r _

instance (kind : Kind) : Advances (eat kind) := by
  unfold eat
  infer_instance

instance (kind : Kind) (cause : Cause) : Advances (expect kind cause) := by
  unfold expect
  infer_instance

instance : Advances skipSeparators :=
  of_modify Reading.Extends.skipSeparators

/-! ## Repetition and nesting -/

theorem of_rounds {step : α → Parse (Round α β)} (hstep : ∀ a, Advances (step a))
    (limit : Nat) (a : α) : Advances (rounds step limit a) := by
  induction limit generalizing a with
  | zero =>
      rw [rounds]
      infer_instance
  | succ limit ih =>
      rw [rounds]
      refine of_bind (hstep a) fun round => ?_
      cases round with
      | again a' => exact ih a'
      | done b => infer_instance

instance {step : α → Parse (Round α β)} [∀ a, Advances (step a)] (limit : Nat) (a : α) :
    Advances (rounds step limit a) :=
  of_rounds inferInstance limit a

theorem nested {body : Parse α → Parse α} (h : ∀ x, Advances x → Advances (body x))
    (limit : Nat) : Advances (nested body limit) := by
  induction limit with
  | zero =>
      rw [Grammar.nested]
      infer_instance
  | succ limit ih => exact h _ ih

instance {check : Nat → Parse Unit} {item : Parse α} [∀ n, Advances (check n)] [Advances item]
    (limit : Nat) : Advances (commaSeparated limit check item) := by
  unfold commaSeparated
  infer_instance

/-! ## Expressions -/

instance {operand : Parse Expr} [Advances operand] (limit : Nat) (operators : List Kind) :
    Advances (leftChain limit operators operand) := by
  unfold leftChain
  infer_instance

instance {operand : Parse Expr} [Advances operand] (limit : Nat) (levels : List (List Kind)) :
    Advances (binary limit operand levels) := by
  induction levels with
  | nil => assumption
  | cons operators tighter ih =>
      rw [binary]
      infer_instance

instance {operand : Parse Expr} [Advances operand] (limit : Nat) :
    Advances (power limit operand) := by
  unfold power
  infer_instance

instance (limit : Nat) : Advances (front limit) := by
  unfold front
  infer_instance

instance {operand : Parse Expr} [Advances operand] (limit : Nat) :
    Advances (unary limit operand) := by
  unfold unary
  infer_instance

instance {expr : Parse Expr} [Advances expr] (limit : Nat) : Advances (arguments limit expr) := by
  unfold arguments
  infer_instance

instance {expr : Parse Expr} [Advances expr] : Advances (primary expr) := by
  unfold primary
  refine of_bind inferInstance fun token => ?_
  split <;> infer_instance

instance {expr : Parse Expr} [Advances expr] (limit : Nat) : Advances (call limit expr) := by
  unfold call
  infer_instance

instance {expr : Parse Expr} [Advances expr] (limit : Nat) : Advances (operation limit expr) := by
  unfold operation
  infer_instance

instance {expr : Parse Expr} [Advances expr] (limit : Nat) : Advances (assignment limit expr) := by
  unfold assignment
  refine of_bind inferInstance fun target => of_bind inferInstance fun kind => ?_
  split
  · refine of_bind inferInstance fun op => of_bind inferInstance fun value => ?_
    split <;> infer_instance
  · infer_instance

instance (limit : Nat) : Advances (expression limit) :=
  nested (fun _ _ => inferInstance) limit

/-! ## Statements -/

instance : Advances atTerminator := by
  unfold atTerminator
  infer_instance

instance : Advances terminator := by
  unfold terminator
  infer_instance

section Blocks

variable {expr : Parse Expr} {stmt : Parse Stmt} [Advances expr] [hs : Advances stmt]
variable (limit : Nat)

instance : Advances (declaration stmt) where
  extends_after r := by
    unfold after declaration
    cases hsr : stmt r with
    | ok s r' => exact hs.of_ok hsr
    | error e r' => exact ((hs.of_error hsr).trans (.record r' e)).trans (.recover _ _)

instance (closers : KindSet) (opener : Token) : Advances (block limit stmt closers opener) := by
  unfold block
  have hround : ∀ (read : Array Stmt) (s : Option Stmt), Advances (match s with
      | some s => pure (.again (read.push s))
      | none => pure (.again read) : Parse (Round (Array Stmt) (List Stmt))) := by
    intro read s
    cases s <;> infer_instance
  infer_instance

instance (opener : Token) (construct : Construct) :
    Advances (closedBody limit stmt opener construct) := by
  unfold closedBody
  infer_instance

instance (opener : Token) (construct : Construct) :
    Advances (otherwise limit stmt opener construct) := by
  unfold otherwise
  infer_instance

instance : Advances (parameters limit) := by
  unfold parameters
  refine of_rounds (fun params => of_bind inferInstance fun kind => ?_) limit #[]
  dsimp only
  split
  · split <;> infer_instance
  · infer_instance

instance : Advances (definition limit stmt) := by
  unfold definition
  infer_instance

instance : Advances atParallelAssignment := by
  unfold atParallelAssignment
  infer_instance

instance : Advances (parallelAssignment limit expr) := by
  unfold parallelAssignment
  infer_instance

instance : Advances (ifStatement limit expr stmt) := by
  unfold ifStatement
  infer_instance

instance : Advances (unlessStatement limit expr stmt) := by
  unfold unlessStatement
  infer_instance

instance : Advances (caseStatement limit expr stmt) := by
  unfold caseStatement
  refine of_bind inferInstance fun keyword => of_bind inferInstance fun subject =>
    of_bind inferInstance fun _ => of_bind inferInstance fun arms => ?_
  split
  infer_instance

instance : Advances (beginBlock limit stmt) := by
  unfold beginBlock
  infer_instance

instance : Advances (conditionalLoop limit expr stmt) := by
  unfold conditionalLoop
  infer_instance

instance : Advances (loopStatement limit stmt) := by
  unfold loopStatement
  infer_instance

instance : Advances (forStatement limit expr stmt) := by
  unfold forStatement
  infer_instance

instance : Advances (printStatement limit expr) := by
  unfold printStatement
  infer_instance

instance : Advances (returnStatement expr) := by
  unfold returnStatement
  infer_instance

instance : Advances (expressionStatement limit expr) := by
  unfold expressionStatement
  infer_instance

instance : Advances (statementWith limit expr stmt) := by
  unfold statementWith
  refine of_bind inferInstance fun parallel => ?_
  split
  · infer_instance
  · refine of_bind inferInstance fun kind => ?_
    split <;> infer_instance

end Blocks

instance (limit : Nat) : Advances (statement limit) :=
  nested (fun _ _ => inferInstance) limit

instance (limit : Nat) : Advances (program limit) := by
  unfold program
  have hround : ∀ (read : Array Stmt) (s : Option Stmt), Advances (match s with
      | some s => pure (.again (read.push s))
      | none => pure (.again read) : Parse (Round (Array Stmt) (List Stmt))) := by
    intro read s
    cases s <;> infer_instance
  infer_instance

end Advances

end Scriptlet.Grammar
