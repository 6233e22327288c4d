import Scriptlet.Proofs.Grammar.CommaSeparated

/-!
# The precedence grammar

Which lists of tokens spell an expression, and which tree each of them has, without a word on how
they are read.  A phrase of one level is either a phrase of the next tighter level or puts phrases
together with an operator of its own.
-/

namespace Scriptlet

def Token.value? (t : Token) : Option Literal :=
  match t.kind with
  | .kwFalse => some (.bool false)
  | .kwTrue => some (.bool true)
  | .kwNil => some .nil
  | .integer | .float | .string => some (t.literal.getD .nil)
  | _ => none

namespace Grammar

/-! ## Levels -/

inductive Precedence where
  | assignment | or | and | equality | comparison | term | factor | power | unary | call | primary
  deriving DecidableEq, Repr

namespace Precedence

def tighter : Precedence → Precedence
  | .assignment => .or
  | .or => .and
  | .and => .equality
  | .equality => .comparison
  | .comparison => .term
  | .term => .factor
  | .factor => .power
  | .power => .unary
  | .unary => .call
  | .call | .primary => .primary

def operators : Precedence → List Kind
  | .assignment => [.equal, .plusEqual, .minusEqual, .starEqual, .slashEqual, .percentEqual]
  | .or => [.kwOr]
  | .and => [.kwAnd]
  | .equality => [.equalEqual, .bangEqual]
  | .comparison => [.greater, .greaterEqual, .less, .lessEqual, .dotDot, .dotDotDot]
  | .term => [.plus, .minus]
  | .factor => [.star, .slash, .percent]
  | .power => [.starStar]
  | .call => [.leftParen]
  | .unary | .primary => []

def groupsLeft : Precedence → Bool
  | .or | .and | .equality | .comparison | .term | .factor => true
  | _ => false

def node (p : Precedence) (op : Token) (left right : Expr) : Expr :=
  match p, op.kind with
  | .or, _ | .and, _ => .logical left op right
  | .comparison, .dotDot => .range left op right true
  | .comparison, .dotDotDot => .range left op right false
  | _, _ => .binary left op right

def all : List Precedence :=
  [.assignment, .or, .and, .equality, .comparison, .term, .factor, .power, .unary, .call, .primary]

def continues (p : Precedence) (k : Kind) : Bool :=
  (all.dropWhile (· ≠ p)).any (·.operators.contains k)

theorem continues_eq (p : Precedence) (k : Kind) :
    p.continues k = (p.operators.contains k || p.tighter.continues k) := by
  cases p <;> simp [continues, all, List.dropWhile, tighter, operators]

theorem tighter_continues {p : Precedence} {k : Kind} (hk : k ∈ p.operators) :
    p.tighter.continues k = false := by
  revert k
  cases p <;> decide

theorem operators_ne_eof {p : Precedence} {k : Kind} (hk : k ∈ p.operators) : k ≠ .eof := by
  revert k
  cases p <;> decide

theorem join_eq_node {p : Precedence} {op : Token} {left right : Expr} (hp : p.groupsLeft)
    (hop : op.kind ∈ p.operators) : join left op right = p.node op left right := by
  cases p <;> grind [groupsLeft, operators, join, node]

end Precedence

/-! ## Phrases -/

/-- `ts` is a phrase of level `p` with tree `e`. -/
inductive Derives : Precedence → List Token → Expr → Prop
  | tighter {p : Precedence} {ts : List Token} {e : Expr} :
      p ≠ .primary → Derives p.tighter ts e → Derives p ts e
  | assign {name op : Token} {ts : List Token} {value : Expr} :
      name.kind = .identifier → op.kind ∈ Precedence.assignment.operators →
      Derives .assignment ts value →
      Derives .assignment (name :: op :: ts) (.assign name op value)
  | chain {p : Precedence} {op : Token} {ls rs : List Token} {left right : Expr} :
      p.groupsLeft → op.kind ∈ p.operators → Derives p ls left → Derives p.tighter rs right →
      Derives p (ls ++ op :: rs) (p.node op left right)
  | power {op : Token} {ls rs : List Token} {left right : Expr} :
      op.kind ∈ Precedence.power.operators → Derives .unary ls left → Derives .power rs right →
      Derives .power (ls ++ op :: rs) (.binary left op right)
  | unary {op : Token} {ts : List Token} {operand : Expr} :
      op.kind ∈ [.bang, .kwNot, .minus] → Derives .unary ts operand →
      Derives .unary (op :: ts) (.unary op operand)
  | call {left right : Token} {cs args : List Token} {callee : Expr}
      {parts : List (List Token × Expr)} :
      left.kind = .leftParen → right.kind = .rightParen → parts.length ≤ 255 →
      CommaSeparated (parts.map Prod.fst) args → Derives .call cs callee →
      (∀ part ∈ parts, Derives .assignment part.1 part.2) →
      Derives .call (cs ++ left :: (args ++ [right])) (.call callee right (parts.map Prod.snd))
  | literal {t : Token} {v : Literal} : t.value? = some v → Derives .primary [t] (.literal v)
  | name {t : Token} : t.kind = .identifier → Derives .primary [t] (.var t)
  | group {left right : Token} {ts : List Token} {inner : Expr} :
      left.kind = .leftParen → right.kind = .rightParen → Derives .assignment ts inner →
      Derives .primary (left :: (ts ++ [right])) (.group inner)

namespace Derives

variable {p : Precedence} {ts : List Token} {e : Expr}

theorem of_var {t : Token} (h : Derives p ts (.var t)) : ts = [t] ∧ t.kind = .identifier := by
  generalize he : Expr.var t = e at h
  induction h with
  | tighter _ _ ih => exact ih he
  | name hkind =>
      cases he
      exact ⟨rfl, hkind⟩
  | @chain p op _ _ left right =>
      simp only [Precedence.node] at he
      split at he <;> cases he
  | _ => cases he

def startsPrimary (k : Kind) : Bool :=
  [.leftParen, .identifier, .kwFalse, .kwTrue, .kwNil, .integer, .float, .string].contains k

theorem head (h : Derives p ts e) :
    ∃ t rest, ts = t :: rest ∧ (startsPrimary t.kind ∨
      p ≠ .call ∧ p ≠ .primary ∧ t.kind ∈ [.bang, .kwNot, .minus]) := by
  induction h with
  | @tighter p ts e hp h ih =>
      obtain ⟨t, rest, rfl, hstart⟩ := ih
      refine ⟨t, rest, rfl, hstart.imp_right fun ⟨_, hprimary, hkind⟩ => ⟨?_, hp, hkind⟩⟩
      rintro rfl
      exact hprimary rfl
  | assign hname => exact ⟨_, _, rfl, .inl (by rw [hname]; rfl)⟩
  | @chain p _ _ _ _ _ hp _ _ _ ih =>
      obtain ⟨t, rest, rfl, hstart⟩ := ih
      exact ⟨t, _, rfl, hstart⟩
  | power _ _ _ ih =>
      obtain ⟨t, rest, rfl, hstart⟩ := ih
      exact ⟨t, _, rfl, hstart.imp_right fun ⟨_, _, hkind⟩ => ⟨by decide, by decide, hkind⟩⟩
  | unary hop => exact ⟨_, _, rfl, .inr ⟨by decide, by decide, hop⟩⟩
  | call _ _ _ _ _ _ ih =>
      obtain ⟨t, rest, rfl, hstart⟩ := ih
      exact ⟨t, _, rfl, .inl (hstart.resolve_right fun hcall => hcall.1 rfl)⟩
  | @literal t v hv =>
      refine ⟨t, [], rfl, .inl ?_⟩
      unfold Token.value? at hv
      split at hv <;> simp_all [startsPrimary]
  | name hkind => exact ⟨_, _, rfl, .inl (by rw [hkind]; rfl)⟩
  | group hleft => exact ⟨_, _, rfl, .inl (by rw [hleft]; rfl)⟩

def starts (k : Kind) : Bool :=
  startsPrimary k || [.bang, .kwNot, .minus].contains k

theorem starts_head (h : Derives p ts e) : ∃ t rest, ts = t :: rest ∧ starts t.kind := by
  obtain ⟨t, rest, rfl, hstart⟩ := h.head
  refine ⟨t, rest, rfl, ?_⟩
  rw [starts, Bool.or_eq_true, List.contains_iff_mem]
  exact hstart.imp_right fun ⟨_, _, hkind⟩ => hkind

theorem length_pos (h : Derives p ts e) : 0 < ts.length := by
  obtain ⟨t, rest, rfl, -⟩ := h.head
  exact Nat.succ_pos _

end Derives

end Grammar
end Scriptlet
