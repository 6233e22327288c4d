import Scriptlet.Proofs.Grammar.LineComplete
import Scriptlet.Proofs.Grammar.OriginExpr

/-!
# Checks that cannot fail

A block leaves a word that closes it, whatever is in it, so the check for that word passes; and an
assignment to several names is read only where the names lead to an equals sign.  Whole programs
then have nothing but tokens that were read and errors that can arise.
-/

namespace Scriptlet.Grammar

variable {known : Token → Prop} {limit : Nat} {r : Reading}

/-! ## Blocks -/

section Blocks

variable {stmt : Parse Stmt}

theorem yields_declaration (h : Yields known stmt (Stmt.Keeps known)) :
    Yields known (declaration stmt) fun o => ∀ s ∈ o, s.Keeps known := by
  intro r hr
  have hstmt := h r hr
  unfold declaration
  cases hread : stmt r with
  | ok s r' =>
      rw [hread] at hstmt
      exact ⟨hstmt.1, by simpa using hstmt.2⟩
  | error e r' =>
      rw [hread] at hstmt
      exact ⟨hstmt.of_extends (.recover startsStatement _)
        (Pairing.errors_recover startsStatement _), by simp⟩

theorem yields_keepRead {read : Array Stmt} {o : Option Stmt} {Q : List Stmt → Reading → Prop}
    (hread : ∀ s ∈ read, s.Keeps known) (ho : ∀ s ∈ o, s.Keeps known) :
    YieldsAt known r (keepRead read o)
      fun round r' => round.Holds (fun read => ∀ s ∈ read, s.Keeps known) (Q · r') := by
  cases o with
  | none => exact .pure hread
  | some s =>
      have hs : s.Keeps known := ho s rfl
      exact .pure (by simpa [Round.Holds, or_imp, forall_and, hs] using hread)

theorem yields_block (h : Yields known stmt (Stmt.Keeps known)) (closers : KindSet)
    (opener : Token) : YieldsAt known r (block limit stmt closers opener) fun body r' =>
      (∀ s ∈ body, s.Keeps known) ∧ closers.contains r'.current.kind := by
  rw [block_eq]
  refine .rounds (P := fun read _ => ∀ s ∈ read, s.Keeps known) (fun read r hread => ?_) limit
    (by simp)
  refine YieldsAt.skipSeparators.bind fun _ r' _ => .currentKind_bind ?_
  split
  · next hcloser => exact .pure ⟨by simpa using hread, hcloser⟩
  · split
    · exact .fail rfl
    · exact (yields_declaration h r').bind fun o _ ho => yields_keepRead hread ho

section Closers

variable {k : Kind}

theorem kind_of_closesBody (h : closesBody.contains k) : k = .kwEnd := by
  simpa [closesBody, KindSet.ofList] using h

theorem kind_of_closesUnlessBody (h : closesUnlessBody.contains k) : k = .kwElse ∨ k = .kwEnd := by
  simpa [closesUnlessBody, KindSet.ofList, or_comm] using h

theorem kind_of_closesIfArm (h : closesIfArm.contains k) (hk : k ≠ .kwElsif) :
    k = .kwElse ∨ k = .kwEnd := by
  simp only [closesIfArm, KindSet.ofList, List.foldl, KindSet.contains_insert] at h
  grind [KindSet.contains_empty]

theorem kind_of_closesWhenArm (h : closesWhenArm.contains k) (hk : k ≠ .kwWhen) :
    k = .kwElse ∨ k = .kwEnd := by
  simp only [closesWhenArm, KindSet.ofList, List.foldl, KindSet.contains_insert] at h
  grind [KindSet.contains_empty]

end Closers

theorem yields_closedBody (h : Yields known stmt (Stmt.Keeps known)) (opener : Token)
    (construct : Construct) : Yields known (closedBody limit stmt opener construct)
      fun body => ∀ s ∈ body, s.Keeps known := by
  refine fun r => (yields_block h closesBody opener).bind fun body r' hbody => ?_
  exact .expect_bind_of_eq (kind_of_closesBody hbody.2) fun _ => .pure hbody.1

theorem yields_otherwise (h : Yields known stmt (Stmt.Keeps known)) (opener : Token)
    (construct : Construct) (hkind : r.current.kind = .kwElse ∨ r.current.kind = .kwEnd) :
    YieldsAt known r (otherwise limit stmt opener construct)
      fun body _ => ∀ s ∈ body.getD [], s.Keeps known := by
  refine .eat_bind (fun _ => ?_) fun helse => ?_
  · refine ((yields_block h closesBody opener).map (R := fun body r' =>
      (∀ s ∈ body.getD [], s.Keeps known) ∧ r'.current.kind = .kwEnd) ?_).bind ?_
    · exact fun body r' hbody => ⟨hbody.1, kind_of_closesBody hbody.2⟩
    · exact fun body r' hbody => .expect_bind_of_eq hbody.2 fun _ => .pure hbody.1
  · refine YieldsAt.bind (P := fun body r' => body = none ∧ r' = r) (.pure ⟨rfl, rfl⟩) ?_
    rintro body r' ⟨rfl, rfl⟩
    exact .expect_bind_of_eq (hkind.resolve_left helse) fun _ => .pure (by simp)

end Blocks

/-! ## Simple statements -/

section Simple

variable {expr : Parse Expr}

theorem yields_atTerminator : Yields known atTerminator fun _ => True :=
  fun _ => .currentKind_bind (.pure trivial)

theorem yields_terminator : Yields known terminator fun _ => True := by
  refine fun r => .currentKind_bind ?_
  split
  · exact .advance_bind fun _ => .pure trivial
  · split
    · exact .pure trivial
    · exact .fail rfl

theorem yields_values (h : Yields known expr (Expr.Keeps known)) :
    Yields known (commaSeparated limit (fun _ => pure ()) expr)
      fun values => ∀ e ∈ values, e.Keeps known :=
  .commaSeparated (fun _ => .pure trivial) h limit

theorem yields_expressionStatement (h : Yields known expr (Expr.Keeps known)) :
    Yields known (expressionStatement limit expr) (Stmt.Keeps known) := by
  refine (yields_values h).bind fun values hvalues => yields_terminator.bind fun _ _ => .pure ?_
  have hsequence : (sequenceOf values).Keeps known :=
    Expr.all_sequenceOf (List.forall_mem_nil _) (fun _ _ => List.forall_mem_nil _) hvalues
  exact .intro (List.forall_mem_nil _) (by simpa [Stmt.exprs] using hsequence) nofun

theorem yields_printStatement (h : Yields known expr (Expr.Keeps known)) :
    Yields known (printStatement limit expr) (Stmt.Keeps known) := by
  refine Yields.advance.bind fun keyword hkeyword => yields_atTerminator.bind fun stops _ => ?_
  have hend : ∀ values : List Expr, (∀ e ∈ values, e.Keeps known) →
      Yields known (terminator >>= fun _ => pure (Stmt.print keyword values
        (keyword.kind = .kwPuts))) (Stmt.Keeps known) :=
    fun values hvalues => yields_terminator.bind fun _ _ =>
      .pure (.intro (by simpa [Stmt.ownTokens] using hkeyword) hvalues nofun)
  split
  · exact hend [] (by simp)
  · exact (yields_values h).bind hend

theorem yields_returnStatement (h : Yields known expr (Expr.Keeps known)) :
    Yields known (returnStatement expr) (Stmt.Keeps known) := by
  refine Yields.advance.bind fun keyword hkeyword => yields_atTerminator.bind fun stops _ => ?_
  have hend : ∀ value : Option Expr, (∀ e ∈ value.toList, e.Keeps known) →
      Yields known (terminator >>= fun _ => pure (Stmt.returnFrom keyword value))
        (Stmt.Keeps known) :=
    fun value hvalue => yields_terminator.bind fun _ _ =>
      .pure (.intro (by simpa [Stmt.ownTokens] using hkeyword) hvalue nofun)
  split
  · exact hend none (by simp)
  · rw [map_eq_pure_bind, bind_assoc]
    exact h.bind fun e he => hend (some e) (by simpa using he)

theorem yields_jump {jump : Token → Stmt}
    (h : ∀ keyword, known keyword → (jump keyword).Keeps known) : Yields known (do
      let keyword ← advance
      terminator
      return jump keyword) (Stmt.Keeps known) :=
  Yields.advance.bind fun keyword hkeyword => yields_terminator.bind fun _ _ =>
    .pure (h keyword hkeyword)

/-! ## Assignments to several names -/

def Reading.BeforeSign (r : Reading) : Prop :=
  r.current.kind = .identifier ∧
    (r.ahead.head?.any (·.kind = .equal) || moreNamesThenEqual r.ahead)

theorem Reading.BeforeSign.advance (h : r.BeforeSign) : r.advance.current.kind = .equal ∨
    r.advance.current.kind = .comma ∧ r.advance.advance.BeforeSign := by
  obtain ⟨current, ahead, errors⟩ := r
  obtain ⟨hname, hahead⟩ := h
  rcases ahead with _ | ⟨next, ahead⟩
  · simp [moreNamesThenEqual] at hahead
  have hnext : (Reading.mk current (next :: ahead) errors).advance = ⟨next, ahead, errors⟩ := by
    rw [Reading.advance]
    simp_all
  rw [hnext]
  rcases (Bool.or_eq_true _ _).mp hahead with hsign | hmore
  · exact .inl (by simpa using hsign)
  · right
    have hcomma : next.kind = .comma := comma_of_moreNamesThenEqual hmore
    rcases ahead with _ | ⟨name, rest⟩
    · simp [moreNamesThenEqual] at hmore
    simp only [moreNamesThenEqual, Bool.and_eq_true, decide_eq_true_eq] at hmore
    refine ⟨hcomma, ?_⟩
    simp only [Reading.advance, hcomma]
    exact ⟨hmore.1.2, hmore.2⟩

theorem yields_names (h : r.BeforeSign) {cause : Cause} :
    YieldsAt known r (commaSeparated limit (fun _ => pure ()) (expect .identifier cause))
      fun names r' => (∀ t ∈ names, known t) ∧ r'.current.kind = .equal := by
  refine .rounds (P := fun names r => (∀ t ∈ names, known t) ∧ r.BeforeSign) ?_ limit
    ⟨by simp, h⟩
  rintro names r ⟨hnames, hbefore⟩
  refine YieldsAt.bind (P := fun _ r' => r' = r) (.pure rfl) ?_
  rintro _ r rfl
  refine .expect_bind_of_eq hbefore.1 fun hname => ?_
  have hpush : ∀ t ∈ names.push r.current, known t := by
    simpa [or_imp, forall_and] using And.intro hnames hname
  rcases hbefore.advance with hsign | ⟨hcomma, hnext⟩
  · refine .eat_bind (fun hcomma => ?_) fun _ => .pure ⟨by simpa using hpush, hsign⟩
    rw [hsign] at hcomma
    cases hcomma
  · exact .eat_bind (fun _ => .pure ⟨hpush, hnext⟩) fun hnot => absurd hcomma hnot

theorem yields_parallelAssignment (h : Yields known expr (Expr.Keeps known))
    (hbefore : r.BeforeSign) :
    YieldsAt known r (parallelAssignment limit expr) fun s _ => s.Keeps known := by
  refine (yields_names hbefore).bind fun names r' ⟨hnames, hsign⟩ => ?_
  refine .expect_bind_of_eq hsign fun hknown =>
    (yields_values h _).bind fun values r'' hvalues => ?_
  split
  · next hlength =>
      refine (yields_terminator _).bind fun _ _ _ => .pure (.intro ?_ ?_ nofun)
      · simpa [Stmt.ownTokens, List.map_fst_zip (Nat.le_of_eq hlength.symm)] using hnames
      · simpa [Stmt.exprs, List.map_snd_zip (Nat.le_of_eq hlength)] using hvalues
  · exact .throw hknown rfl

end Simple

/-! ## Compound statements -/

section Compound

variable {expr : Parse Expr} {stmt : Parse Stmt}

theorem yields_parameters :
    Yields known (parameters limit) fun params => ∀ t ∈ params, known t := by
  rw [parameters_eq]
  refine .rounds (P := fun params => ∀ t ∈ params, known t) (fun params hparams r => ?_) limit
    (by simp)
  have htake : Yields known (do
      let params := params.push (← advance)
      if ← eat .comma then
        if (← currentKind) = .identifier then
          return .again params
        else
          fail .parameterName
      else
        return .done params.toList) (Round.Holds (fun params => ∀ t ∈ params, known t)
          fun params => ∀ t ∈ params, known t) := by
    refine Yields.advance.bind fun name hname => (Yields.eat _).bind fun comma _ => ?_
    have hpush : ∀ t ∈ params.push name, known t := by
      simpa [or_imp, forall_and] using And.intro hparams hname
    split
    · refine fun r => .currentKind_bind ?_
      split
      · exact .pure hpush
      · exact .fail rfl
    · exact .pure (by simpa [Round.Holds] using hpush)
  refine .currentKind_bind ?_
  split
  · split
    · exact .current_bind fun hcurrent => (YieldsAt.report hcurrent rfl).bind fun _ r' _ => htake r'
    · exact htake r
  · exact .pure (by simpa [Round.Holds] using hparams)

theorem yields_definition (h : Yields known stmt (Stmt.Keeps known)) :
    Yields known (definition limit stmt) (Stmt.Keeps known) := by
  refine Yields.advance.bind fun keyword _ => (Yields.expect _ rfl).bind fun name hname =>
    (Yields.eat _).bind fun parenthesized _ => yields_parameters.bind fun params hparams => ?_
  have hbody : Yields known (do return .define name params (← closedBody limit stmt keyword
      .functionBody)) (Stmt.Keeps known) :=
    (yields_closedBody h keyword _).bind fun body hbody =>
      .pure (.intro (List.forall_mem_cons.mpr ⟨hname, hparams⟩) nofun hbody)
  split
  · exact (Yields.expect _ rfl).bind fun _ _ => hbody
  · exact hbody

abbrev ArmsKeep (known : Token → Prop) : List (Expr × List Stmt) → Prop :=
  Stmt.ArmsAll (fun e => ∀ t ∈ e.ownTokens, known t) fun s => ∀ t ∈ s.ownTokens, known t

theorem yields_arm {β : Type} {Q : β → Reading → Prop} {f : Expr → List Stmt → Parse β}
    (h : Yields known expr (Expr.Keeps known)) (hs : Yields known stmt (Stmt.Keeps known))
    (closers : KindSet) (opener : Token)
    (hf : ∀ e body r', e.Keeps known → (∀ s ∈ body, s.Keeps known) →
      closers.contains r'.current.kind → YieldsAt known r' (f e body) Q) :
    YieldsAt known r (do
      let e ← expr
      let _ ← eat .kwThen
      f e (← block limit stmt closers opener)) Q :=
  (h r).bind fun e _ he => (Yields.eat _ _).bind fun _ _ _ =>
    (yields_block hs closers opener).bind fun body r' hbody => hf e body r' he hbody.1 hbody.2

theorem yields_ifStatement (h : Yields known expr (Expr.Keeps known))
    (hs : Yields known stmt (Stmt.Keeps known)) :
    Yields known (ifStatement limit expr stmt) (Stmt.Keeps known) := by
  rw [ifStatement_eq]
  refine Yields.advance.bind fun keyword _ r => YieldsAt.bind (P := fun arms r' =>
    ArmsKeep known arms ∧ (r'.current.kind = .kwElse ∨ r'.current.kind = .kwEnd)) ?_ ?_
  · refine .rounds (P := fun arms _ => ArmsKeep known arms.toList) (fun arms r harms => ?_) limit
      .nil
    refine yields_arm h hs _ _ fun e _ r' he hbody hcloser => ?_
    have hpush := Stmt.ArmsAll.push harms he hbody
    exact .eat_bind (fun _ => .pure hpush) fun hlast =>
      .pure ⟨hpush, kind_of_closesIfArm hcloser hlast⟩
  · exact fun arms r' harms => (yields_otherwise hs keyword _ harms.2).bind fun body _ hbody =>
      .pure (.intro (List.forall_mem_nil _) harms.1.1
        (List.forall_mem_append.mpr ⟨harms.1.2, hbody⟩))

theorem yields_unlessStatement (h : Yields known expr (Expr.Keeps known))
    (hs : Yields known stmt (Stmt.Keeps known)) :
    Yields known (unlessStatement limit expr stmt) (Stmt.Keeps known) := by
  refine Yields.advance.bind fun keyword _ r => ?_
  refine yields_arm h hs _ _ fun e body r' he hbody hcloser => ?_
  have hkind := kind_of_closesUnlessBody hcloser
  exact (yields_otherwise hs keyword _ hkind).bind fun otherwise _ hotherwise =>
    .pure (.intro (List.forall_mem_nil _) (by simpa [Stmt.exprs] using he)
      (List.forall_mem_append.mpr ⟨hbody, hotherwise⟩))

theorem yields_caseStatement (h : Yields known expr (Expr.Keeps known))
    (hs : Yields known stmt (Stmt.Keeps known)) :
    Yields known (caseStatement limit expr stmt) (Stmt.Keeps known) := by
  rw [caseStatement_eq]
  refine Yields.advance.bind fun keyword _ => h.bind fun subject hsubject r =>
    YieldsAt.skipSeparators.bind fun _ r' _ => ?_
  refine YieldsAt.bind (P := fun arms r' => ArmsKeep known arms ∧
    (arms ≠ [] → r'.current.kind = .kwElse ∨ r'.current.kind = .kwEnd)) ?_ fun arms r' harms => ?_
  · refine .rounds (P := fun arms r => ArmsKeep known arms.toList ∧
      (arms.toList ≠ [] → closesWhenArm.contains r.current.kind)) ?_ limit ⟨.nil, by simp⟩
    rintro arms r ⟨harms, hcloser⟩
    refine .eat_bind (fun _ => ?_) fun hlast =>
      .pure ⟨harms, fun hne => kind_of_closesWhenArm (hcloser hne) hlast⟩
    exact yields_arm h hs _ _ fun _ _ _ he hbody hcloser =>
      .pure ⟨Stmt.ArmsAll.push harms he hbody, fun _ => hcloser⟩
  · split
    · exact .fail rfl
    · next hne =>
        have hkind := harms.2 (by simpa using hne)
        exact (yields_otherwise hs keyword _ hkind).bind fun body _ hbody =>
          .pure (.intro (List.forall_mem_nil _) (List.forall_mem_cons.mpr ⟨hsubject, harms.1.1⟩)
            (List.forall_mem_append.mpr ⟨harms.1.2, hbody⟩))

theorem yields_beginBlock (hs : Yields known stmt (Stmt.Keeps known)) :
    Yields known (beginBlock limit stmt) (Stmt.Keeps known) :=
  Yields.advance.bind fun keyword _ => (yields_closedBody hs keyword _).bind fun _ hbody =>
    .pure (.intro (List.forall_mem_nil _) nofun hbody)

theorem yields_conditionalLoop (h : Yields known expr (Expr.Keeps known))
    (hs : Yields known stmt (Stmt.Keeps known)) :
    Yields known (conditionalLoop limit expr stmt) (Stmt.Keeps known) := by
  refine Yields.advance.bind fun keyword _ => h.bind fun e he => (Yields.eat _).bind fun _ _ =>
    (yields_closedBody hs keyword _).bind fun body hbody => ?_
  have hexprs : ∀ e' ∈ [e], e'.Keeps known := by simpa using he
  split
  · exact .pure (.intro (List.forall_mem_nil _) hexprs hbody)
  · exact .pure (.intro (List.forall_mem_nil _) hexprs hbody)

theorem yields_loopStatement (hs : Yields known stmt (Stmt.Keeps known)) :
    Yields known (loopStatement limit stmt) (Stmt.Keeps known) :=
  Yields.advance.bind fun keyword _ => (Yields.expect _ rfl).bind fun _ _ =>
    (yields_closedBody hs keyword _).bind fun _ hbody =>
    .pure (.intro (List.forall_mem_nil _) nofun hbody)

theorem yields_forStatement (h : Yields known expr (Expr.Keeps known))
    (hs : Yields known stmt (Stmt.Keeps known)) :
    Yields known (forStatement limit expr stmt) (Stmt.Keeps known) := by
  refine Yields.advance.bind fun keyword _ => (Yields.expect _ rfl).bind fun name hname =>
    (Yields.expect _ rfl).bind fun _ _ => h.bind fun iterable hiterable =>
    (Yields.eat _).bind fun _ _ => (yields_closedBody hs keyword _).bind fun body hbody => ?_
  exact .pure (.intro (by simpa [Stmt.ownTokens] using hname)
    (by simpa [Stmt.exprs] using hiterable) hbody)

/-! ## Statements -/

theorem yields_form (h : Yields known expr (Expr.Keeps known))
    (hs : Yields known stmt (Stmt.Keeps known)) (k : Kind) :
    Yields known (form limit expr stmt k) (Stmt.Keeps known) := by
  have hkeyword : ∀ s : Stmt, s.exprs = [] → s.stmts = [] → ∀ keyword, s.ownTokens = [keyword] →
      known keyword → s.Keeps known := by
    intro s hexprs hstmts keyword howned hkeyword
    exact .intro (by simpa [howned] using hkeyword) (by simp [hexprs]) (by simp [hstmts])
  unfold form
  split
  · exact yields_definition hs
  · exact yields_unlessStatement h hs
  · exact yields_ifStatement h hs
  · exact yields_printStatement h
  · exact yields_printStatement h
  · exact yields_beginBlock hs
  · exact yields_conditionalLoop h hs
  · exact yields_conditionalLoop h hs
  · exact yields_returnStatement h
  · exact yields_jump fun keyword => hkeyword (.breakLoop keyword) rfl rfl keyword rfl
  · exact yields_jump fun keyword => hkeyword (.nextRound keyword) rfl rfl keyword rfl
  · exact yields_loopStatement hs
  · exact yields_forStatement h hs
  · exact yields_caseStatement h hs
  · exact yields_expressionStatement h

theorem yields_statementWith (h : Yields known expr (Expr.Keeps known))
    (hs : Yields known stmt (Stmt.Keeps known)) :
    Yields known (statementWith limit expr stmt) (Stmt.Keeps known) := by
  intro r
  rw [statementWith_eq]
  have hlook : YieldsAt known r atParallelAssignment
      fun parallel r' => parallel → r'.BeforeSign := by
    refine fun hr => ⟨hr, fun hparallel => ?_⟩
    obtain ⟨hname, hmore⟩ := (Bool.and_eq_true _ _).mp hparallel
    exact ⟨by simpa using hname, by simp [hmore]⟩
  refine hlook.bind fun parallel r' hr' => ?_
  split
  · next hparallel => exact yields_parallelAssignment h (hr' hparallel)
  · exact .currentKind_bind (yields_form h hs _ _)

theorem yields_statement : Yields known (statement limit) (Stmt.Keeps known) :=
  .nested (fun _ hs => yields_statementWith yields_expression hs) limit

end Compound

/-! ## Programs -/

theorem yields_programRound {stmt : Parse Stmt} (hs : Yields known stmt (Stmt.Keeps known))
    {read : Array Stmt} (hread : ∀ s ∈ read, s.Keeps known) :
    Yields known (programRound stmt read) (Round.Holds (fun read => ∀ s ∈ read, s.Keeps known)
      fun body => ∀ s ∈ body, s.Keeps known) := by
  refine fun r => YieldsAt.skipSeparators.bind fun _ r' _ => .currentKind_bind ?_
  split
  · exact .pure (by simpa [Round.Holds] using hread)
  · exact (yields_declaration hs r').bind fun o _ ho => yields_keepRead hread ho

theorem yields_program : Yields known (program limit) fun body => ∀ s ∈ body, s.Keeps known := by
  rw [program_eq]
  exact .rounds (fun _ hread => yields_programRound yields_statement hread) limit (by simp)

/-- Whatever the tokens are, those that the statements and the errors keep are among them, and every
error is one that can arise. -/
theorem parse_keeps (tokens : List Token) :
    (∀ s ∈ (parse tokens).statements, s.Keeps (· ∈ tokens)) ∧
      ∀ e ∈ (parse tokens).errors, e.token ∈ tokens ∧ e.cause.arises := by
  cases tokens with
  | nil => simp [parse]
  | cons first ahead =>
      have hprogram : Yields (· ∈ first :: ahead) (program (ahead.length + 2))
          fun body => ∀ s ∈ body, s.Keeps (· ∈ first :: ahead) := yields_program
      have hread := hprogram ⟨first, ahead, #[]⟩ ⟨fun t ht => ht, by simp⟩
      rw [parse]
      cases hresult : program (ahead.length + 2) ⟨first, ahead, #[]⟩ with
      | ok statements r =>
          rw [hresult] at hread
          exact ⟨hread.2, hread.1.errors⟩
      | error e r =>
          rw [hresult] at hread
          exact ⟨List.forall_mem_nil _, hread.errors⟩

/-! ## Messages -/

def HasDigit (text : String) : Prop :=
  ∃ c ∈ text.toList, c.isDigit

theorem hasDigit_toString (n : Nat) : HasDigit (toString n) := by
  obtain ⟨d, digits, heq⟩ := List.exists_cons_of_ne_nil (Nat.toDigits_ne_nil (n := n) (b := 10))
  have hd : d ∈ Nat.toDigits 10 n := by simp [heq]
  exact ⟨d, Nat.toList_repr ▸ hd, Nat.isDigit_of_mem_toDigits (by decide) (by decide) hd⟩

theorem HasDigit.append_left {text : String} (h : HasDigit text) (before : String) :
    HasDigit (before ++ text) := by
  obtain ⟨c, hc, hdigit⟩ := h
  exact ⟨c, by simp [hc], hdigit⟩

theorem HasDigit.append_right {text : String} (h : HasDigit text) (after : String) :
    HasDigit (text ++ after) := by
  obtain ⟨c, hc, hdigit⟩ := h
  exact ⟨c, by simp [hc], hdigit⟩

/-- Whatever the tokens are, no error says that a construct is not closed by `end` where its blocks
have ended, or that a name or the sign is missing in an assignment to several names: each of these
checks finds its token. -/
theorem parse_finds_seen (tokens : List Token) : ∀ e ∈ (parse tokens).errors,
    e.cause.message ∉ ["Expect 'end' after function body.", "Expect 'end' after if statement.",
      "Expect 'end' after unless statement.", "Expect 'end' after block.",
      "Expect 'end' after loop body.", "Expect 'end' after case statement.",
      "Expect variable name.",
      "Expect '=' after variable names in parallel assignment."] := by
  intro e he hmessage
  have harises := ((parse_keeps tokens).2 e he).2
  -- two messages hold a number, and all others are texts of their own
  have hnumber : ¬HasDigit e.cause.message := by
    revert hmessage
    generalize e.cause.message = message
    simp only [List.mem_cons, List.not_mem_nil, or_false]
    rintro (rfl | rfl | rfl | rfl | rfl | rfl | rfl | rfl) <;> simp [HasDigit]
  generalize e.cause = cause at *
  cases cause with
  | valueCount expected =>
      exact hnumber (((hasDigit_toString expected).append_left _).append_right _)
  | unclosed closers opener line =>
      exact hnumber (((hasDigit_toString line).append_left _).append_right _)
  | endAfter construct => cases harises
  | variableName => cases harises
  | assignmentSign => cases harises
  | _ => exact absurd hmessage (by decide)

/-- Where the word is missing, the block itself does not end. -/
theorem parse_finds_seen_unclosed :
    let tokens : List Token := [⟨.kwDef, "def", none, 1⟩, ⟨.identifier, "f", none, 1⟩,
      ⟨.newline, "\n", none, 1⟩, .eof 2]
    let e : SyntaxError := ⟨.eof 2, .unclosed closesBody "def" 1⟩
    e ∈ (parse tokens).errors ∧ e.cause.message ≠ "Expect 'end' after function body." := by
  intro tokens e
  have hparse : parse tokens = ⟨[], [e]⟩ := by
    simp only [tokens, e]
    rfl
  have he : e ∈ (parse tokens).errors := by simp [hparse]
  have hmessage := parse_finds_seen tokens e he
  rw [List.mem_cons, not_or] at hmessage
  exact ⟨he, hmessage.1⟩

end Scriptlet.Grammar
