import Scriptlet.Proofs.Grammar.ExprComplete
import Scriptlet.Proofs.Grammar.Pairing

/-!
# Expressions read in step

Every parser of the expression grammar agrees with itself on corresponding tokens, and takes at
least one of them.
-/

namespace Scriptlet

theorem Expr.renumber_join (f : Nat → Nat) (left : Expr) (op : Token) (right : Expr) :
    (Grammar.join left op right).renumber f =
      Grammar.join (left.renumber f) (op.renumber f) (right.renumber f) := by
  unfold Grammar.join
  rw [Token.kind_renumber]
  split <;> rfl

theorem Expr.renumber_joinRight (f : Nat → Nat) (before : List (Expr × Token)) (last : Expr) :
    (Grammar.joinRight before last).renumber f =
      Grammar.joinRight (before.map fun p => (p.1.renumber f, p.2.renumber f))
        (last.renumber f) := by
  induction before generalizing last with
  | nil => rfl
  | cons p before ih => exact ih _

theorem Expr.renumber_foldl_unary (f : Nat → Nat) (ops : List Token) (e : Expr) :
    (ops.foldl (fun e op => .unary op e) e).renumber f =
      (ops.map (Token.renumber f)).foldl (fun e op => .unary op e) (e.renumber f) := by
  induction ops generalizing e with
  | nil => rfl
  | cons op ops ih => exact ih _

namespace Grammar

namespace Pairing

variable {P : Pairing} {n limit limit' : Nat} {operand operand' expr expr' : Parse Expr}

instance (operators : List Kind) [Advances operand] (left : Expr) :
    Advances (chainRound operators operand left) := by
  unfold chainRound
  infer_instance

theorem AgreeTo.leftChain [Advances operand] {operators : List Kind}
    (hoperators : ∀ k ∈ operators, k.isWord) (hlimit : n ≤ limit) (hlimit' : n ≤ limit')
    (hoperand : P.AgreeTo P.Inside (Expr.renumber P.line) n operand operand') :
    P.AgreeTo P.Inside (Expr.renumber P.line) n (leftChain limit operators operand)
      (Grammar.leftChain limit' operators operand') := by
  intro m hm
  change P.Agree _ (operand >>= rounds (chainRound operators operand) limit)
    (operand' >>= rounds (chainRound operators operand') limit') _
  refine (hoperand m hm).bind fun left => ?_
  refine Agree.rounds_keep (g := Expr.renumber P.line) (fun k hk left => ?_)
    (Nat.le_trans (Nat.le_of_lt hm) hlimit) (Nat.le_trans (Nat.le_of_lt hm) hlimit') rfl
  refine Agree.ifKind (fun k hk => hoperators k (List.contains_iff_mem.mp hk)) ?_
    (.pure rfl fun _ _ => id)
  refine Agree.advance.bind fun op => ?_
  refine (hoperand.keep (Nat.le_of_lt (Nat.lt_trans hk hm))).bind fun right => ?_
  exact .pure (by rw [Round.map, Expr.renumber_join]) fun _ _ => id

theorem AgreeTo.binary [Advances operand] {levels : List (List Kind)}
    (hlevels : ∀ operators ∈ levels, ∀ k ∈ operators, k.isWord) (hlimit : n ≤ limit)
    (hlimit' : n ≤ limit')
    (hoperand : P.AgreeTo P.Inside (Expr.renumber P.line) n operand operand') :
    P.AgreeTo P.Inside (Expr.renumber P.line) n (binary limit operand levels)
      (Grammar.binary limit' operand' levels) := by
  induction levels with
  | nil => exact hoperand
  | cons operators tighter ih =>
      rw [List.forall_mem_cons] at hlevels
      exact .leftChain hlevels.1 hlimit hlimit' (ih hlevels.2)

theorem AgreeTo.power [Advances operand] (hlimit : n ≤ limit) (hlimit' : n ≤ limit')
    (hoperand : P.AgreeTo P.Inside (Expr.renumber P.line) n operand operand') :
    P.AgreeTo P.Inside (Expr.renumber P.line) n (power limit operand)
      (Grammar.power limit' operand') := by
  intro m hm
  change P.Agree _ (operand >>= fun last => rounds (powerRound operand) limit ([], last))
    (operand' >>= fun last => rounds (powerRound operand') limit' ([], last)) _
  refine (hoperand m hm).bind fun last => ?_
  refine Agree.rounds_keep (h := Expr.renumber P.line)
    (g := fun read => (read.1.map fun p => (p.1.renumber P.line, p.2.renumber P.line),
      read.2.renumber P.line))
    (fun k hk read => ?_) (Nat.le_trans (Nat.le_of_lt hm) hlimit)
    (Nat.le_trans (Nat.le_of_lt hm) hlimit') rfl
  refine Agree.ifKind (fun k hk => hk ▸ rfl) ?_
    (.pure (by rw [Round.map, Expr.renumber_joinRight]) fun _ _ => id)
  refine Agree.advance.bind fun op => ?_
  refine (hoperand.keep (Nat.le_of_lt (Nat.lt_trans hk hm))).bind fun right => ?_
  exact .pure rfl fun _ _ => id

theorem isWord_of_mem_frontOperators : ∀ k ∈ frontOperators, k.isWord := by
  decide

theorem Agree.front {m : Nat} (hlimit : m ≤ limit) (hlimit' : m ≤ limit') :
    P.Agree (P.Inside m) (front limit) (Grammar.front limit')
      (Gives (fun _ => P.Inside m) (List.map (Token.renumber P.line))) := by
  change P.Agree _ (Grammar.rounds frontRound limit []) (Grammar.rounds frontRound limit' []) _
  refine Agree.rounds_keep (g := List.map (Token.renumber P.line)) (fun k hk ops => ?_)
    hlimit hlimit' rfl
  refine Agree.ifKind (fun k hk => ?_) ?_ (.pure rfl fun _ _ => id)
  · exact isWord_of_mem_frontOperators k (List.contains_iff_mem.mp hk)
  · exact Agree.advance.bind fun op => .pure rfl fun _ _ => id

theorem AgreeTo.unary [Advances operand] (hlimit : n ≤ limit) (hlimit' : n ≤ limit')
    (hoperand : P.AgreeTo P.Inside (Expr.renumber P.line) n operand operand') :
    P.AgreeTo P.Inside (Expr.renumber P.line) n (unary limit operand)
      (Grammar.unary limit' operand') := by
  intro m hm
  refine (Agree.front (Nat.le_trans hm hlimit) (Nat.le_trans hm hlimit')).bind fun ops => ?_
  refine (hoperand m hm).bind fun e => ?_
  exact .pure (by rw [Expr.renumber_foldl_unary]) fun _ _ => id

/-! ## Calls -/

theorem Agree.arguments [Advances expr] {m : Nat} (hm : m ≤ n) (hlimit : n ≤ limit)
    (hlimit' : n ≤ limit') (hexpr : P.AgreeTo P.Inside (Expr.renumber P.line) n expr expr') :
    P.Agree (P.Inside m) (arguments limit expr) (Grammar.arguments limit' expr')
      (Gives (fun _ => P.Inside m) (List.map (Expr.renumber P.line))) := by
  refine Agree.ifKind (fun k hk => hk ▸ rfl) ?_ ?_
  · exact .pure rfl fun _ _ => And.left
  · refine (AgreeTo.commaSeparated (fun k count => ?_) hexpr hlimit hlimit').keep hm
    split
    · exact .reportCurrent (by simp)
    · exact .pure rfl fun _ _ => id

def primaryFrom (expr : Parse Expr) (token : Token) : Parse Expr := do
  match token.kind with
  | .kwFalse => let _ ← advance; return .literal (.bool false)
  | .kwTrue => let _ ← advance; return .literal (.bool true)
  | .kwNil => let _ ← advance; return .literal .nil
  | .integer | .float | .string =>
      let _ ← advance
      return .literal (token.literal.getD .nil)
  | .identifier => let _ ← advance; return .var token
  | .leftParen =>
      let _ ← advance
      let inner ← expr
      let _ ← expect .rightParen .closingGroup
      return .group inner
  | _ => fail .expression

instance [Advances expr] (token : Token) : Advances (primaryFrom expr token) := by
  unfold primaryFrom
  split <;> infer_instance

theorem primary_eq (expr : Parse Expr) : primary expr = current >>= primaryFrom expr :=
  rfl

theorem Agree.takeAs {e e' : Expr} (he : e' = e.renumber P.line) :
    P.Agree (P.OnWord (n + 1)) (Grammar.advance >>= fun _ => Pure.pure e)
      (Grammar.advance >>= fun _ => Pure.pure e')
      (Gives (fun _ => P.Inside n) (Expr.renumber P.line)) :=
  Agree.advance.bind fun _ => .pure he fun _ _ => id

theorem primaryFrom_of_not_word {token : Token} (h : ¬token.kind.isWord) :
    primaryFrom expr token = fail .expression := by
  unfold primaryFrom
  split <;> simp_all [Kind.isWord, Kind.isSeparator]

theorem AgreeTo.primary [Advances expr]
    (hexpr : P.AgreeTo P.Inside (Expr.renumber P.line) n expr expr') :
    P.AgreeTo P.Inside (Expr.renumber P.line) (n + 1) (primary expr) (Grammar.primary expr') := by
  intro m hm
  rw [primary_eq, primary_eq]
  refine Agree.current (fun t _ => ?_) fun t t' ht ht' => ?_
  · rw [primaryFrom, primaryFrom, Token.kind_renumber]
    split
    · exact .takeAs rfl
    · exact .takeAs rfl
    · exact .takeAs rfl
    · exact .takeAs rfl
    · exact .takeAs rfl
    · exact .takeAs rfl
    · exact .takeAs rfl
    · refine Agree.advance.bind fun _ => (hexpr.keep (Nat.le_of_lt_succ hm)).bind fun inner => ?_
      exact (Agree.expect_keep rfl rfl (by simp)).bind fun _ => .pure rfl fun _ _ => id
    · exact (Agree.fail (by simp)).of_pre fun _ _ => And.left
  · rw [primaryFrom_of_not_word ht, primaryFrom_of_not_word ht']
    exact .fail (by simp)

instance [Advances expr] (callee : Expr) : Advances (callRound limit expr callee) := by
  unfold callRound
  infer_instance

theorem AgreeTo.call [Advances expr] (hlimit : n < limit) (hlimit' : n < limit')
    (hexpr : P.AgreeTo P.Inside (Expr.renumber P.line) n expr expr') :
    P.AgreeTo P.Inside (Expr.renumber P.line) (n + 1) (call limit expr)
      (Grammar.call limit' expr') := by
  intro m hm
  change P.Agree _ (Grammar.primary expr >>= Grammar.rounds (callRound limit expr) limit)
    (Grammar.primary expr' >>= Grammar.rounds (callRound limit' expr') limit') _
  refine (hexpr.primary m hm).bind fun callee => ?_
  refine Agree.rounds_keep (g := Expr.renumber P.line) (fun k hk callee => ?_)
    (Nat.le_trans (Nat.le_of_lt hm) hlimit) (Nat.le_trans (Nat.le_of_lt hm) hlimit') rfl
  have hkn : k ≤ n := Nat.le_trans (Nat.le_of_lt hk) (Nat.le_of_lt_succ hm)
  refine (Agree.eat rfl).bind fun found => ?_
  cases found with
  | true =>
      refine (Agree.arguments hkn (Nat.le_of_lt hlimit) (Nat.le_of_lt hlimit') hexpr).bind
        fun args => ?_
      refine (Agree.expect_keep rfl rfl (by simp)).bind fun paren => ?_
      exact .pure (by simp [Round.map, Expr.renumber]) fun _ _ => id
  | false => exact .pure rfl fun _ _ => id

/-! ## Assignment -/

theorem isWord_of_mem_binaryLevels :
    ∀ operators ∈ binaryLevels, ∀ k ∈ operators, k.isWord := by
  decide

theorem isWord_of_mem_assignmentOperators : ∀ k ∈ assignmentOperators, k.isWord := by
  decide

theorem AgreeTo.operation [Advances expr] (hlimit : n < limit) (hlimit' : n < limit')
    (hexpr : P.AgreeTo P.Inside (Expr.renumber P.line) n expr expr') :
    P.AgreeTo P.Inside (Expr.renumber P.line) (n + 1) (operation limit expr)
      (Grammar.operation limit' expr') :=
  .binary isWord_of_mem_binaryLevels hlimit hlimit'
    (.power hlimit hlimit' (.unary hlimit hlimit' (.call hlimit hlimit' hexpr)))

theorem Agree.assignTo {target value : Expr} {op : Token} :
    P.Agree (P.Inside n) (Reads.assignTo target op value)
      (Reads.assignTo (target.renumber P.line) (op.renumber P.line) (value.renumber P.line))
      (Gives (fun _ => P.Inside n) (Expr.renumber P.line)) := by
  cases target with
  | var name => exact .pure rfl fun _ _ => id
  | _ => exact (Agree.report (by simp)).bind fun _ => .pure rfl fun _ _ => id

theorem AgreeTo.assignment [Advances expr] (hlimit : n < limit) (hlimit' : n < limit')
    (hexpr : P.AgreeTo P.Inside (Expr.renumber P.line) n expr expr') :
    P.AgreeTo P.Inside (Expr.renumber P.line) (n + 1) (assignment limit expr)
      (Grammar.assignment limit' expr') := by
  intro m hm
  rw [Reads.assignment_eq, Reads.assignment_eq]
  refine (hexpr.operation hlimit hlimit' m hm).bind fun target => ?_
  refine Agree.ifKind (fun k hk => ?_) ?_ (.pure rfl fun _ _ => id)
  · exact isWord_of_mem_assignmentOperators k (List.contains_iff_mem.mp hk)
  · refine Agree.advance_keep.bind fun op => ?_
    exact (hexpr.keep (Nat.le_of_lt_succ hm)).bind fun value => .assignTo

theorem AgreeTo.expression (hlimit : n ≤ limit) (hlimit' : n ≤ limit') :
    P.AgreeTo P.Inside (Expr.renumber P.line) n (expression limit)
      (Grammar.expression limit') :=
  .nested (fun _ _ => inferInstance)
    (fun _ hm _ _ _ h => h.assignment (Nat.lt_of_lt_of_le hm hlimit)
      (Nat.lt_of_lt_of_le hm hlimit')) hlimit hlimit'

end Pairing

end Grammar

end Scriptlet
