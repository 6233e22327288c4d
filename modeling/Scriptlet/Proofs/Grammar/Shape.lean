import Scriptlet.Proofs.Grammar.Gives
import Scriptlet.Proofs.Tree.Parts
import Scriptlet.Value.Operator

/-!
# Shapes of trees

Trees can be built that no text has: with operators that are none, or branches that are missing.
Whatever is read from a list of tokens, also one with syntax errors, has a shape that a machine can
work with: the operators that are read are those that can be applied.
-/

namespace Scriptlet

def Expr.HasShape : Expr → Prop
  | .unary op _ => (UnaryOp.ofKind? op.kind).isSome
  | .binary _ op _ => (BinaryOp.ofKind? op.kind).isSome
  | .logical _ op _ => op.kind = .kwAnd ∨ op.kind = .kwOr
  | .range _ op _ inclusive =>
      (op.kind = .dotDot ∨ op.kind = .dotDotDot) ∧ (inclusive ↔ op.kind = .dotDot)
  | .assign _ op _ => op.kind = .equal ∨ (BinaryOp.ofCompound? op.kind).isSome
  | .literal _ | .group _ | .var _ | .call _ _ _ | .sequence _ _ => True

/-- The node has the branches, names and words that it needs: a branch for each condition, a value
for each name, and a line end for each value only where the keyword asks for it. -/
def Stmt.HasShape : Stmt → Prop
  | .ifDo conditions branches _ | .caseDo _ conditions branches _ =>
      conditions ≠ [] ∧ conditions.length = branches.length
  | .assign names values => 2 ≤ names.length ∧ names.length = values.length
  | .print keyword _ newline =>
      (keyword.kind = .kwPrint ∨ keyword.kind = .kwPuts) ∧ (newline ↔ keyword.kind = .kwPuts)
  | .expr _ | .block _ | .unlessDo _ _ _ | .whileDo _ _ | .untilDo _ _ | .loopDo _ | .forDo _ _ _
  | .define _ _ _ | .returnFrom _ _ | .breakLoop _ | .nextRound _ => True

abbrev Expr.WellShaped : Expr → Prop :=
  Expr.All Expr.HasShape

abbrev Stmt.WellShaped : Stmt → Prop :=
  Stmt.All Expr.HasShape Stmt.HasShape

namespace Grammar

variable {limit : Nat} {operand expr : Parse Expr} {stmt : Parse Stmt}

/-! ## Expressions -/

theorem wellShaped_join {left right : Expr} {op : Token} (hleft : left.WellShaped)
    (hright : right.WellShaped) (hop : op.kind ∈ binaryLevels.flatten) :
    (join left op right).WellShaped := by
  have hparts : ∀ e ∈ [left, right], e.WellShaped := by simp [hleft, hright]
  unfold join
  split
  · next hkind => exact .intro (.inr hkind) hparts
  · next hkind => exact .intro (.inl hkind) hparts
  · next hkind => exact .intro (by simp [Expr.HasShape, hkind]) hparts
  · next hkind => exact .intro (by simp [Expr.HasShape, hkind]) hparts
  · refine .intro ?_ hparts
    simp only [Expr.HasShape]
    revert hop
    generalize op.kind = kind at *
    cases kind <;> simp_all [binaryLevels, BinaryOp.ofKind?]

theorem gives_leftChain {operators : List Kind} (hoperators : operators ∈ binaryLevels)
    (h : Gives operand Expr.WellShaped) :
    Gives (leftChain limit operators operand) Expr.WellShaped := by
  refine h.bind fun left hleft => .rounds (fun left hleft r => ?_) limit hleft
  refine .currentKind_bind ?_
  split
  · next hop =>
      have hop : r.current.kind ∈ binaryLevels.flatten :=
        List.mem_flatten.mpr ⟨operators, hoperators, List.contains_iff_mem.mp hop⟩
      refine .advance_bind ((h _).bind fun right hright => .pure ?_)
      exact wellShaped_join hleft hright hop
  · exact .pure hleft

theorem gives_binary {levels : List (List Kind)} (hlevels : ∀ level ∈ levels, level ∈ binaryLevels)
    (h : Gives operand Expr.WellShaped) : Gives (binary limit operand levels) Expr.WellShaped := by
  induction levels with
  | nil => exact h
  | cons level levels ih =>
      rw [List.forall_mem_cons] at hlevels
      exact gives_leftChain hlevels.1 (ih hlevels.2)

theorem wellShaped_joinRight {before : List (Expr × Token)} {last : Expr}
    (hbefore : ∀ b ∈ before, b.1.WellShaped ∧ b.2.kind = .starStar) (hlast : last.WellShaped) :
    (joinRight before last).WellShaped := by
  induction before generalizing last with
  | nil => exact hlast
  | cons b before ih =>
      rw [List.forall_mem_cons] at hbefore
      obtain ⟨⟨hleft, hop⟩, hbefore⟩ := hbefore
      exact ih hbefore (.intro (by simp [Expr.HasShape, hop, BinaryOp.ofKind?])
        (by simp [Expr.parts, hleft, hlast]))

theorem gives_power (h : Gives operand Expr.WellShaped) :
    Gives (power limit operand) Expr.WellShaped := by
  refine h.bind fun first hfirst => .rounds (P := fun read =>
    (∀ b ∈ read.1, b.1.WellShaped ∧ b.2.kind = .starStar) ∧ read.2.WellShaped) ?_ limit
    ⟨by simp, hfirst⟩
  rintro ⟨before, last⟩ ⟨hbefore, hlast⟩ r
  refine .currentKind_bind ?_
  split
  · next hop =>
      refine .advance_bind ((h _).bind fun right hright => .pure ⟨?_, hright⟩)
      exact List.forall_mem_cons.mpr ⟨⟨hlast, hop⟩, hbefore⟩
  · exact .pure (wellShaped_joinRight hbefore hlast)

theorem gives_front : Gives (front limit) fun ops => ∀ op ∈ ops, op.kind ∈ frontOperators := by
  refine .rounds (P := fun ops => ∀ op ∈ ops, op.kind ∈ frontOperators) (fun ops hops r => ?_) limit
    (by simp)
  refine .currentKind_bind ?_
  split
  · next hop =>
      exact .advance_bind (.pure (List.forall_mem_cons.mpr ⟨List.contains_iff_mem.mp hop, hops⟩))
  · exact .pure hops

theorem gives_unary (h : Gives operand Expr.WellShaped) :
    Gives (unary limit operand) Expr.WellShaped := by
  refine gives_front.bind fun ops hops => h.bind fun e he => .pure ?_
  induction ops generalizing e with
  | nil => exact he
  | cons op ops ih =>
      rw [List.forall_mem_cons] at hops
      refine ih hops.2 _ (.intro ?_ (by simpa [Expr.parts] using he))
      obtain ⟨hop, -⟩ := hops
      simp only [frontOperators, List.mem_cons, List.not_mem_nil, or_false] at hop
      rcases hop with hop | hop | hop <;> simp [Expr.HasShape, UnaryOp.ofKind?, hop]

theorem gives_arguments (h : Gives expr Expr.WellShaped) :
    Gives (arguments limit expr) fun args => ∀ e ∈ args, e.WellShaped := by
  refine .skip fun kind => ?_
  split
  · exact .pure (by simp)
  · exact .commaSeparated limit h

theorem gives_primary (h : Gives expr Expr.WellShaped) : Gives (primary expr) Expr.WellShaped := by
  have hleaf : ∀ {e : Expr}, e.HasShape → e.parts = [] → e.WellShaped := by
    intro e hshape hparts
    exact .intro hshape (by simp [hparts])
  refine .skip fun token => ?_
  split
  case h_8 =>
    refine .skip fun _ => h.bind fun inner hinner => .skip fun _ => .pure ?_
    exact .intro trivial (by simpa [Expr.parts] using hinner)
  case h_9 => exact .fail _
  all_goals exact .skip fun _ => .pure (hleaf trivial rfl)

theorem gives_call (h : Gives expr Expr.WellShaped) : Gives (call limit expr) Expr.WellShaped := by
  refine (gives_primary h).bind fun callee hcallee =>
    .rounds (fun callee hcallee => ?_) limit hcallee
  refine .skip fun isCall => ?_
  split
  · refine (gives_arguments h).bind fun args hargs => .skip fun paren => .pure ?_
    exact .intro trivial (List.forall_mem_cons.mpr ⟨hcallee, hargs⟩)
  · exact .pure hcallee

theorem gives_operation (h : Gives expr Expr.WellShaped) :
    Gives (operation limit expr) Expr.WellShaped :=
  gives_binary (fun _ hlevel => hlevel) (gives_power (gives_unary (gives_call h)))

theorem gives_assignment (h : Gives expr Expr.WellShaped) :
    Gives (assignment limit expr) Expr.WellShaped := by
  refine (gives_operation h).bind fun target htarget r => .currentKind_bind ?_
  split
  · next hop =>
      refine .advance_bind ((h _).bind fun value hvalue => ?_)
      split
      · refine .pure (.intro ?_ (by simpa [Expr.parts] using hvalue))
        have hop := List.contains_iff_mem.mp hop
        simp only [assignmentOperators, List.mem_cons, List.not_mem_nil, or_false] at hop
        rcases hop with hop | hop | hop | hop | hop | hop <;>
          simp [Expr.HasShape, BinaryOp.ofCompound?, hop]
      · exact .skip fun _ => .pure htarget
  · exact .pure htarget

theorem gives_expression : Gives (expression limit) Expr.WellShaped :=
  .nested (fun _ h => gives_assignment h) limit

/-! ## Blocks -/

theorem gives_declaration (h : Gives stmt Stmt.WellShaped) :
    Gives (declaration stmt) fun o => ∀ s ∈ o, s.WellShaped := by
  intro r o r' hread
  unfold declaration at hread
  cases hstmt : stmt r with
  | ok s r₁ =>
      rw [hstmt] at hread
      cases hread
      simpa using h r s _ hstmt
  | error e r₁ =>
      rw [hstmt] at hread
      cases hread
      simp

theorem gives_keepRead {read : Array Stmt} {o : Option Stmt} (hread : ∀ s ∈ read, s.WellShaped)
    (ho : ∀ s ∈ o, s.WellShaped) :
    Gives (keepRead read o) (Round.Holds (fun read => ∀ s ∈ read, s.WellShaped)
      fun body => ∀ s ∈ body, s.WellShaped) := by
  cases o with
  | none => exact .pure hread
  | some s =>
      refine .pure ?_
      have hs : s.WellShaped := ho s rfl
      simpa [Round.Holds, or_imp, forall_and, hs] using hread

theorem gives_block (h : Gives stmt Stmt.WellShaped) (closers : KindSet) (opener : Token) :
    Gives (block limit stmt closers opener) fun body => ∀ s ∈ body, s.WellShaped := by
  rw [block_eq]
  refine .rounds (P := fun read => ∀ s ∈ read, s.WellShaped) (fun read hread => ?_) limit (by simp)
  refine .skip fun _ => .skip fun kind => ?_
  split
  · exact .pure (by simpa [Round.Holds] using hread)
  · split
    · exact .fail _
    · exact (gives_declaration h).bind fun o ho => gives_keepRead hread ho

theorem gives_closedBody (h : Gives stmt Stmt.WellShaped) (opener : Token)
    (construct : Construct) :
    Gives (closedBody limit stmt opener construct) fun body => ∀ s ∈ body, s.WellShaped :=
  (gives_block h closesBody opener).bind fun _ hbody => .skip fun _ => .pure hbody

theorem gives_otherwise (h : Gives stmt Stmt.WellShaped) (opener : Token) (construct : Construct) :
    Gives (otherwise limit stmt opener construct) fun body =>
      ∀ s ∈ body.getD [], s.WellShaped := by
  have hend : ∀ body : Option (List Stmt), (∀ s ∈ body.getD [], s.WellShaped) →
      Gives (do let _ ← expect .kwEnd (.endAfter construct); return body) fun body =>
        ∀ s ∈ body.getD [], s.WellShaped :=
    fun body hbody => .skip fun _ => .pure hbody
  refine .skip fun hasElse => ?_
  split
  · exact ((gives_block h closesBody opener).map fun _ hbody => hbody).bind hend
  · exact hend none (by simp)

/-! ## Statements -/

theorem gives_definition (h : Gives stmt Stmt.WellShaped) :
    Gives (definition limit stmt) Stmt.WellShaped := by
  refine .skip fun keyword => .skip fun name => .skip fun parenthesized => .skip fun params => ?_
  have hbody : Gives (do return .define name params (← closedBody limit stmt keyword .functionBody))
      Stmt.WellShaped :=
    (gives_closedBody h keyword _).bind fun body hbody =>
      .pure (.intro trivial nofun hbody)
  split
  · exact .skip fun _ => hbody
  · exact hbody

theorem givesAt_names {r : Reading} (hparallel : startsParallel r.tokens) {cause : Cause} :
    GivesAt r (commaSeparated limit (fun _ => pure ()) (expect .identifier cause))
      fun names => 2 ≤ names.length := by
  simp only [Reading.tokens, startsParallel, Bool.and_eq_true, decide_eq_true_eq] at hparallel
  obtain ⟨hname, hmore⟩ := hparallel
  obtain ⟨comma, rest, hahead⟩ : ∃ comma rest, r.ahead = comma :: rest := by
    cases hahead : r.ahead with
    | nil => simp [hahead, moreNamesThenEqual] at hmore
    | cons comma rest => exact ⟨comma, rest, rfl⟩
  rw [hahead] at hmore
  have hadvance : r.advance.current = comma := by simp [Reading.advance, hname, hahead]
  have hcomma : r.advance.current.kind = .comma := hadvance ▸ comma_of_moreNamesThenEqual hmore
  -- the first round reads the name before the comma, any other round has names to go on from
  refine .rounds (P := fun names => 1 ≤ names.size) ?_ fun names hnames => ?_
  · refine .bind_of_eq rfl (.expect_bind hname (.eat_bind hcomma (.pure ?_)))
    simp [Round.Holds]
  · refine .skip fun _ => .skip fun name => .skip fun more => ?_
    split
    · exact .pure (by simp [Round.Holds])
    · exact .pure (by simpa [Round.Holds] using hnames)

theorem givesAt_parallelAssignment {r : Reading} (hparallel : startsParallel r.tokens)
    (h : Gives expr Expr.WellShaped) : GivesAt r (parallelAssignment limit expr)
      Stmt.WellShaped := by
  refine (givesAt_names hparallel).bind fun names hnames => .skip fun sign => ?_
  refine (Gives.commaSeparated limit h).bind fun values hvalues => ?_
  split
  · next hlength =>
      exact .skip fun _ => .pure (.intro ⟨hnames, hlength.symm⟩ hvalues nofun)
  · exact fun _ => .throw _

theorem gives_arm (h : Gives expr Expr.WellShaped) (hs : Gives stmt Stmt.WellShaped)
    (closers : KindSet) (opener : Token) {β : Type} {Q : β → Prop}
    {f : Expr → List Stmt → Parse β}
    (hf : ∀ e body, e.WellShaped → (∀ s ∈ body, s.WellShaped) → Gives (f e body) Q) :
    Gives (do
      let e ← expr
      let _ ← eat .kwThen
      f e (← block limit stmt closers opener)) Q :=
  h.bind fun e he => .skip fun _ => (gives_block hs closers opener).bind fun body hbody =>
    hf e body he hbody

def ArmsShaped (arms : List (Expr × List Stmt)) : Prop :=
  (∀ e ∈ arms.map Prod.fst, e.WellShaped) ∧ ∀ s ∈ arms.flatMap Prod.snd, s.WellShaped

theorem ArmsShaped.push {arms : Array (Expr × List Stmt)} {e : Expr} {body : List Stmt}
    (h : ArmsShaped arms.toList) (he : e.WellShaped) (hbody : ∀ s ∈ body, s.WellShaped) :
    ArmsShaped (arms.push (e, body)).toList :=
  Stmt.ArmsAll.push h he hbody

theorem gives_ifStatement (h : Gives expr Expr.WellShaped) (hs : Gives stmt Stmt.WellShaped) :
    Gives (ifStatement limit expr stmt) Stmt.WellShaped := by
  rw [ifStatement_eq]
  -- each round ends with a branch, so the last one leaves at least one
  refine .skip fun keyword => Gives.bind (P := fun arms => ArmsShaped arms ∧ arms ≠ []) ?_ ?_
  · refine .rounds (P := fun arms => ArmsShaped arms.toList) (fun arms harms => ?_) limit
      ⟨by simp, by simp⟩
    refine gives_arm h hs _ _ fun e body he hbody => .skip fun again => ?_
    split
    · exact .pure (harms.push he hbody)
    · exact .pure ⟨harms.push he hbody, by simp⟩
  · rintro arms ⟨harms, hne⟩
    refine (gives_otherwise hs keyword _).bind fun body hbody => .pure ?_
    exact .intro ⟨by simpa using hne, by simp⟩ harms.1 (List.forall_mem_append.mpr ⟨harms.2, hbody⟩)

theorem gives_unlessStatement (h : Gives expr Expr.WellShaped) (hs : Gives stmt Stmt.WellShaped) :
    Gives (unlessStatement limit expr stmt) Stmt.WellShaped := by
  refine .skip fun keyword => gives_arm h hs _ _ fun e body he hbody => ?_
  refine (gives_otherwise hs keyword _).bind fun other hother => .pure ?_
  exact .intro trivial (by simpa [Stmt.exprs] using he)
    (List.forall_mem_append.mpr ⟨hbody, hother⟩)

theorem gives_caseStatement (h : Gives expr Expr.WellShaped) (hs : Gives stmt Stmt.WellShaped) :
    Gives (caseStatement limit expr stmt) Stmt.WellShaped := by
  rw [caseStatement_eq]
  refine .skip fun keyword => h.bind fun subject hsubject => .skip fun _ =>
    Gives.bind (P := ArmsShaped) ?_ fun arms harms => ?_
  · refine .rounds (P := fun arms => ArmsShaped arms.toList) (fun arms harms => ?_) limit
      ⟨by simp, by simp⟩
    refine .skip fun more => ?_
    split
    · exact gives_arm h hs _ _ fun e body he hbody => .pure (harms.push he hbody)
    · exact .pure harms
  · split
    -- a subject without branches is a syntax error
    · exact .fail _
    · next hne =>
        refine (gives_otherwise hs keyword _).bind fun body hbody => .pure ?_
        exact .intro ⟨by simpa using hne, by simp⟩
          (List.forall_mem_cons.mpr ⟨hsubject, harms.1⟩)
          (List.forall_mem_append.mpr ⟨harms.2, hbody⟩)

theorem gives_beginBlock (h : Gives stmt Stmt.WellShaped) :
    Gives (beginBlock limit stmt) Stmt.WellShaped :=
  .skip fun keyword => (gives_closedBody h keyword _).bind fun _ hbody =>
    .pure (.intro trivial nofun hbody)

theorem gives_conditionalLoop (h : Gives expr Expr.WellShaped) (hs : Gives stmt Stmt.WellShaped) :
    Gives (conditionalLoop limit expr stmt) Stmt.WellShaped := by
  refine .skip fun keyword => h.bind fun condition hcondition => .skip fun _ =>
    (gives_closedBody hs keyword _).bind fun body hbody => ?_
  split
  · exact .pure (.intro trivial (by simpa [Stmt.exprs] using hcondition) hbody)
  · exact .pure (.intro trivial (by simpa [Stmt.exprs] using hcondition) hbody)

theorem gives_loopStatement (h : Gives stmt Stmt.WellShaped) :
    Gives (loopStatement limit stmt) Stmt.WellShaped :=
  .skip fun keyword => .skip fun _ => (gives_closedBody h keyword _).bind fun _ hbody =>
    .pure (.intro trivial nofun hbody)

theorem gives_forStatement (h : Gives expr Expr.WellShaped) (hs : Gives stmt Stmt.WellShaped) :
    Gives (forStatement limit expr stmt) Stmt.WellShaped :=
  .skip fun keyword => .skip fun name => .skip fun _ => h.bind fun iterable hiterable =>
    .skip fun _ => (gives_closedBody hs keyword _).bind fun _ hbody =>
      .pure (.intro trivial (by simpa [Stmt.exprs] using hiterable) hbody)

theorem givesAt_printStatement {r : Reading}
    (hkind : r.current.kind = .kwPrint ∨ r.current.kind = .kwPuts)
    (h : Gives expr Expr.WellShaped) :
    GivesAt r (printStatement limit expr) Stmt.WellShaped := by
  have hend : ∀ values : List Expr, (∀ e ∈ values, e.WellShaped) →
      Gives (do terminator; return .print r.current values (r.current.kind = .kwPuts))
        Stmt.WellShaped :=
    fun values hvalues => .skip fun _ => .pure (.intro ⟨hkind, by simp⟩ hvalues nofun)
  refine .advance_bind (.skip fun atEnd => ?_)
  split
  · exact hend [] (by simp)
  · exact (Gives.commaSeparated limit h).bind hend

theorem gives_returnStatement (h : Gives expr Expr.WellShaped) :
    Gives (returnStatement expr) Stmt.WellShaped := by
  have hend : ∀ (keyword : Token) (value : Option Expr), (∀ e ∈ value, e.WellShaped) →
      Gives (do terminator; return .returnFrom keyword value) Stmt.WellShaped :=
    fun keyword value hvalue => .skip fun _ =>
      .pure (.intro trivial (by simpa [Stmt.exprs] using hvalue) nofun)
  refine .skip fun keyword => .skip fun atEnd => ?_
  split
  · exact hend keyword none (by simp)
  · exact (h.map fun e he => by simpa using he).bind (hend keyword)

theorem gives_expressionStatement (h : Gives expr Expr.WellShaped) :
    Gives (expressionStatement limit expr) Stmt.WellShaped := by
  refine (Gives.commaSeparated limit h).bind fun values hvalues => .skip fun _ => .pure ?_
  have hsequence : (sequenceOf values).WellShaped :=
    Expr.all_sequenceOf trivial (fun _ _ => trivial) hvalues
  exact .intro trivial (by simpa [Stmt.exprs] using hsequence) nofun

/-! ## Programs -/

theorem gives_statementWith (h : Gives expr Expr.WellShaped) (hs : Gives stmt Stmt.WellShaped) :
    Gives (statementWith limit expr stmt) Stmt.WellShaped := by
  intro r
  refine .bind_of_eq (a := startsParallel r.tokens) rfl ?_
  split
  · next hparallel => exact givesAt_parallelAssignment hparallel h
  · refine .currentKind_bind ?_
    have hjump : ∀ jump : Token → Stmt,
        (∀ t, (jump t).HasShape ∧ (jump t).exprs = [] ∧ (jump t).stmts = []) →
        Gives (do let keyword ← advance; terminator; return jump keyword) Stmt.WellShaped := by
      refine fun jump hjump => .skip fun keyword => .skip fun _ => .pure ?_
      obtain ⟨hshape, hexprs, hstmts⟩ := hjump keyword
      exact .intro hshape (by simp [hexprs]) (by simp [hstmts])
    split
    · exact gives_definition hs r
    · exact gives_unlessStatement h hs r
    · exact gives_ifStatement h hs r
    · next hkind => exact givesAt_printStatement (.inl hkind) h
    · next hkind => exact givesAt_printStatement (.inr hkind) h
    · exact gives_beginBlock hs r
    · exact gives_conditionalLoop h hs r
    · exact gives_conditionalLoop h hs r
    · exact gives_returnStatement h r
    · exact hjump .breakLoop (fun _ => ⟨trivial, rfl, rfl⟩) r
    · exact hjump .nextRound (fun _ => ⟨trivial, rfl, rfl⟩) r
    · exact gives_loopStatement hs r
    · exact gives_forStatement h hs r
    · exact gives_caseStatement h hs r
    · exact gives_expressionStatement h r

theorem gives_statement : Gives (statement limit) Stmt.WellShaped :=
  .nested (fun _ h => gives_statementWith gives_expression h) limit

theorem gives_program : Gives (program limit) fun statements => ∀ s ∈ statements, s.WellShaped := by
  rw [program_eq]
  refine .rounds (P := fun read => ∀ s ∈ read, s.WellShaped) (fun read hread => ?_) limit (by simp)
  refine .skip fun _ => .skip fun kind => ?_
  split
  · exact .pure (by simpa [Round.Holds] using hread)
  · exact (gives_declaration gives_statement).bind fun o ho => gives_keepRead hread ho

theorem wellShaped_of_mem_parse {tokens : List Token} {s : Stmt}
    (h : s ∈ (parse tokens).statements) : s.WellShaped := by
  cases tokens with
  | nil => cases h
  | cons first ahead =>
      simp only [parse] at h
      split at h
      · next statements r' hread => exact gives_program _ statements r' hread s h
      · cases h

end Grammar

end Scriptlet
