import Scriptlet.Proofs.Grammar.ExprComplete
import Scriptlet.Proofs.Grammar.StmtSound

/-!
# Canonical lines are read again

From the canonical tokens of a statement that can be read, that same statement is read, and at most
the end of its line is left.  Blocks are read again if their statements are, and statements that
contain no others are read again outright.
-/

namespace Scriptlet.Grammar

def Rereads (stmt : Parse Stmt) (s : Stmt) : Prop :=
  ∀ r : Reading, r.Closed → ∃ left, (∀ t ∈ left, t.kind.isSeparator) ∧
    Reads stmt (r.before (s.tokens ++ [.newline])) s (r.before left)

theorem newline_separators : ∀ t ∈ [Token.newline], t.kind.isSeparator := by
  decide

/-! ## How statements start -/

def opensStatement (k : Kind) : Bool :=
  Derives.starts k || [Kind.kwDef, .kwUnless, .kwIf, .kwPrint, .kwPuts, .kwBegin, .kwWhile,
    .kwUntil, .kwReturn, .kwBreak, .kwNext, .kwLoop, .kwFor, .kwCase].contains k

theorem opensStatement_not_separator {k : Kind} (h : opensStatement k) : k.isSeparator = false := by
  cases k <;> first | rfl | exact absurd h (by decide)

theorem opensStatement_not_closer {k : Kind} (h : opensStatement k) :
    closesBlock.contains k = false := by
  cases k <;> first | rfl | exact absurd h (by decide)

theorem closer_not_separator {k : Kind} (h : closesBlock.contains k) : k.isSeparator = false := by
  cases k <;> first | rfl | exact absurd h (by decide)

theorem closesBlock_of_closer {closers : KindSet}
    (hclosers : closers ∈ [closesBody, closesIfArm, closesUnlessBody, closesWhenArm]) {k : Kind}
    (h : closers.contains k) : closesBlock.contains k := by
  simp only [List.mem_cons, List.not_mem_nil, or_false] at hclosers
  rcases hclosers with rfl | rfl | rfl | rfl <;>
    simp only [closesBlock, closesBody, closesIfArm, closesUnlessBody, closesWhenArm,
      KindSet.ofList, List.foldl, KindSet.contains_insert] at h ⊢ <;>
    grind

theorem closesBody_kwEnd : closesBody.contains .kwEnd := by
  decide

theorem closesIfArm_kwElsif : closesIfArm.contains .kwElsif := by
  decide

theorem closesWhenArm_kwWhen : closesWhenArm.contains .kwWhen := by
  decide

theorem opensStatement_ne_eof {k : Kind} (h : opensStatement k) : k ≠ .eof := by
  rintro rfl
  exact absurd h (by decide)

theorem exists_head_commas {tss : List (List Token)} {t : Token} {ts : List Token}
    (h : tss.head? = some (t :: ts)) : ∃ rest, commas tss = t :: rest := by
  cases tss with
  | nil => cases h
  | cons first rest =>
      obtain rfl : first = t :: ts := by simpa using h
      cases rest with
      | nil => exact ⟨ts, rfl⟩
      | cons second rest => exact ⟨_, rfl⟩

theorem exists_head_values {values : List Expr} (hne : values ≠ [])
    (h : ∀ e ∈ values, e.Readable) :
    ∃ t rest, commas (values.map Expr.tokens) = t :: rest ∧ Derives.starts t.kind := by
  obtain ⟨e, values, rfl⟩ := List.exists_cons_of_ne_nil hne
  obtain ⟨t, ts, htokens, hstart⟩ := (h e (by simp)).starts_head
  have hfirst : ((e :: values).map Expr.tokens).head? = some (t :: ts) := by simp [htokens]
  obtain ⟨rest, hrest⟩ := exists_head_commas hfirst
  exact ⟨t, rest, hrest, hstart⟩

theorem exists_head_tokens {s : Stmt} (h : s.Readable) :
    ∃ t rest, s.tokens = t :: rest ∧ opensStatement t.kind := by
  have hkeyword : ∀ {t : Token} {k : Kind} {ts : List Token}, t.kind = k → opensStatement k →
      s.tokens = t :: ts → ∃ t rest, s.tokens = t :: rest ∧ opensStatement t.kind :=
    fun hkind hopens htokens => ⟨_, _, htokens, hkind ▸ hopens⟩
  cases h with
  | expr hne hvalues _ =>
      obtain ⟨t, rest, hrest, hstart⟩ := exists_head_values hne hvalues
      refine ⟨t, rest, by rw [Stmt.tokens, Expr.tokens_sequenceOf hne, hrest], ?_⟩
      rw [opensStatement, hstart]
      rfl
  | print hkind _ _ =>
      rcases hkind with hkind | hkind
      · exact hkeyword hkind rfl rfl
      · exact hkeyword hkind rfl rfl
  | @assign names values hcount _ hnames _ =>
      obtain _ | ⟨first, rest⟩ := names
      · simp at hcount
      · have hfirst : ((first :: rest).map ([·])).head? = some [first] := rfl
        obtain ⟨more, hmore⟩ := exists_head_commas hfirst
        have htokens : (Stmt.assign (first :: rest) values).tokens =
            first :: (more ++ .mark .equal :: commas (values.map Expr.tokens)) := by
          rw [Stmt.tokens, hmore, List.cons_append]
        exact hkeyword (hnames first (by simp)) rfl htokens
  | ifDo hne hlength _ _ _ =>
      obtain ⟨arms, rfl, rfl⟩ := Stmt.exists_arms hlength
      obtain ⟨⟨condition, body⟩, rest, rfl⟩ := List.exists_cons_of_ne_nil (by simpa using hne)
      exact hkeyword (t := .mark .kwIf) rfl rfl (by rw [Stmt.tokens, Stmt.branchLines_arms]; rfl)
  | block _ => exact hkeyword (t := .mark .kwBegin) rfl rfl rfl
  | unlessDo _ _ _ => exact hkeyword (t := .mark .kwUnless) rfl rfl rfl
  | whileDo _ _ => exact hkeyword (t := .mark .kwWhile) rfl rfl rfl
  | untilDo _ _ => exact hkeyword (t := .mark .kwUntil) rfl rfl rfl
  | loopDo _ => exact hkeyword (t := .mark .kwLoop) rfl rfl rfl
  | forDo _ _ _ => exact hkeyword (t := .mark .kwFor) rfl rfl rfl
  | caseDo _ _ _ _ _ _ => exact hkeyword (t := .mark .kwCase) rfl rfl rfl
  | define _ _ _ _ => exact hkeyword (t := .mark .kwDef) rfl rfl rfl
  | returnFrom hkind _ => exact hkeyword hkind rfl rfl
  | breakLoop hkind => exact hkeyword hkind rfl rfl
  | nextRound hkind => exact hkeyword hkind rfl rfl

/-! ## Lengths -/

theorem length_le_lines (body : List Stmt) : body.length ≤ (Stmt.lines body).length := by
  induction body with
  | nil => exact Nat.le_refl 0
  | cons s rest ih =>
      simp only [Stmt.lines, List.length_append, List.length_cons]
      omega

theorem length_tokens_lt_lines {body : List Stmt} {s : Stmt} (hs : s ∈ body) :
    s.tokens.length < (Stmt.lines body).length := by
  induction body with
  | nil => cases hs
  | cons first rest ih =>
      simp only [Stmt.lines, List.length_append, List.length_cons]
      rcases List.mem_cons.mp hs with rfl | hs
      · omega
      · have hrest := ih hs
        omega

theorem length_clause (word : Kind) (head lines : List Token) :
    (clause word head lines).length = head.length + lines.length + 2 := by
  simp [clause]
  omega

theorem length_le_armLines (word next : Kind) (arms : List (Expr × List Stmt)) :
    arms.length ≤ (Stmt.armLines word next arms).length := by
  induction arms generalizing word with
  | nil => exact Nat.le_refl 0
  | cons arm rest ih =>
      obtain ⟨condition, body⟩ := arm
      have hrest := ih next
      simp only [Stmt.armLines, List.length_append, List.length_cons, length_clause]
      omega

theorem length_arm_lt_armLines (word next : Kind) {arms : List (Expr × List Stmt)}
    {arm : Expr × List Stmt} (harm : arm ∈ arms) :
    arm.1.tokens.length + (Stmt.lines arm.2).length < (Stmt.armLines word next arms).length := by
  induction arms generalizing word with
  | nil => cases harm
  | cons first rest ih =>
      obtain ⟨condition, body⟩ := first
      simp only [Stmt.armLines, List.length_append, length_clause]
      rcases List.mem_cons.mp harm with rfl | harm
      · dsimp only
        omega
      · have hrest := ih next harm
        omega

theorem length_pos_elseLines (o : Option (List Stmt)) : 0 < (Stmt.elseLines o).length := by
  cases o with
  | none => exact Nat.one_pos
  | some body => exact Nat.succ_pos _

theorem length_lines_lt_elseLines (body : List Stmt) :
    (Stmt.lines body).length < (Stmt.elseLines (some body)).length := by
  simp only [Stmt.elseLines, List.length_append, length_clause]
  omega

/-! ## Lines -/

section Lines

variable {limit : Nat} {stmt : Parse Stmt} {r : Reading} {body : List Stmt}

theorem reads_declaration {s : Stmt} {r' : Reading} (h : Reads stmt r s r') :
    Reads (declaration stmt) r (some s) r' := by
  refine ⟨?_, h.clean, h.closed⟩
  unfold declaration
  rw [h.result]

theorem reads_lines {step : Array Stmt → Parse (Round (Array Stmt) (List Stmt))}
    (hbody : ∀ s ∈ body, s.Readable ∧ Rereads stmt s) (hlimit : body.length < limit) (hr : r.Closed)
    (hdone : ∀ read seps, (∀ t ∈ seps, t.kind.isSeparator) →
      Reads (step read) (r.before seps) (.done read.toList) r)
    (hagain : ∀ read seps s r₁ r₂, (∀ t ∈ seps, t.kind.isSeparator) → r₁.Closed →
      opensStatement r₁.current.kind → Reads stmt r₁ s r₂ →
      Reads (step read) (r₁.before seps) (.again (read.push s)) r₂)
    {seps : List Token} (hseps : ∀ t ∈ seps, t.kind.isSeparator) :
    Reads (rounds step limit #[]) (r.before (seps ++ Stmt.lines body)) body r := by
  -- the statements read so far and those still laid out make up the body
  refine Reads.rounds (fun n read r₁ => ∃ more seps, more.length = n ∧ read.toList ++ more = body ∧
    (∀ s ∈ more, s ∈ body) ∧ (∀ t ∈ seps, t.kind.isSeparator) ∧
    r₁ = r.before (seps ++ Stmt.lines more))
    ⟨body, seps, rfl, rfl, fun _ => id, hseps, rfl⟩ hlimit hr ?_ ?_
  · rintro read r₁ ⟨more, seps, hmore, hread, -, hseps, rfl⟩
    obtain rfl := List.length_eq_zero_iff.mp hmore
    rw [← hread]
    simpa [Stmt.lines] using hdone read seps hseps
  · rintro n read r₁ ⟨more, seps, hlength, hread, hmem, hseps, rfl⟩
    obtain ⟨s, more, rfl⟩ := List.exists_cons_of_length_eq_add_one hlength
    obtain ⟨hreadable, hrereads⟩ := hbody s (hmem s (by simp))
    have hclosed := hr.before (Stmt.lines more)
    obtain ⟨left, hleft, hs⟩ := hrereads (r.before (Stmt.lines more)) hclosed
    obtain ⟨t, rest, hhead, hopens⟩ := exists_head_tokens hreadable
    refine ⟨read.push s, r.before (left ++ Stmt.lines more), ?_, more, left, by simpa using hlength,
      by simpa using hread, fun s hs => hmem s (by simp [hs]), hleft, rfl⟩
    have hround := hagain read seps s _ _ hseps hs.closed (by rw [hhead]; exact hopens) hs
    simpa [Stmt.lines] using hround

theorem reads_keepRead {read : Array Stmt} {s : Stmt} {r' : Reading} [Advances stmt]
    (h : Reads stmt r s r') :
    Reads (do keepRead read (← declaration stmt)) r (.again (read.push s)) r' :=
  (reads_declaration h).bind (.pure h.closed_left)

theorem reads_block [Advances stmt] {closers : KindSet} {opener : Token}
    (hclosers : closers ∈ [closesBody, closesIfArm, closesUnlessBody, closesWhenArm])
    (hbody : ∀ s ∈ body, s.Readable ∧ Rereads stmt s) (hlimit : body.length < limit) (hr : r.Closed)
    (hcloser : closers.contains r.current.kind) :
    Reads (block limit stmt closers opener) (r.before (.newline :: Stmt.lines body)) body r := by
  rw [block_eq, ← List.singleton_append]
  refine reads_lines hbody hlimit hr ?_ ?_ newline_separators
  · intro read seps hseps
    have hstop := closer_not_separator (closesBlock_of_closer hclosers hcloser)
    refine (Reads.skipSeparators hr hseps hstop).bind ((Reads.currentKind hr).bind ?_)
    rw [if_pos hcloser]
    exact .pure hr
  · intro read seps s r₁ r₂ hseps hr₁ hopens hs
    have hnone : closers.contains r₁.current.kind = false := by
      refine Bool.eq_false_iff.mpr fun hcloser => ?_
      have hword := closesBlock_of_closer hclosers hcloser
      rw [opensStatement_not_closer hopens] at hword
      cases hword
    refine (Reads.skipSeparators hr₁ hseps (opensStatement_not_separator hopens)).bind
      ((Reads.currentKind hr₁).bind ?_)
    rw [hnone, if_neg Bool.false_ne_true, if_neg (opensStatement_ne_eof hopens)]
    exact reads_keepRead hs

theorem reads_closedBody [Advances stmt] {opener : Token} {construct : Construct}
    (hbody : ∀ s ∈ body, s.Readable ∧ Rereads stmt s) (hlimit : body.length < limit)
    (hr : r.Closed) :
    Reads (closedBody limit stmt opener construct)
      (r.before (.newline :: (Stmt.lines body ++ [.mark .kwEnd]))) body r := by
  rw [← List.cons_append, Reading.before_append]
  have hclosed := hr.before [Token.mark .kwEnd]
  refine (reads_block (by simp) hbody hlimit hclosed closesBody_kwEnd).bind ?_
  refine (Reads.expect (t := .mark .kwEnd) hr rfl (by decide)).bind ?_
  exact .pure hr

theorem reads_otherwise [Advances stmt] {opener : Token} {construct : Construct}
    {o : Option (List Stmt)}
    (hbody : ∀ body, o = some body → ∀ s ∈ body, s.Readable ∧ Rereads stmt s)
    (hlimit : (Stmt.elseLines o).length ≤ limit) (hr : r.Closed) :
    Reads (otherwise limit stmt opener construct) (r.before (Stmt.elseLines o)) o r := by
  have hclosed := hr.before [Token.mark .kwEnd]
  have hend : Reads (expect .kwEnd (.endAfter construct)) (r.before [Token.mark .kwEnd])
      (Token.mark .kwEnd) r := Reads.expect hr rfl (by decide)
  cases o with
  | none =>
      refine (Reads.eat_other hclosed (by rw [Reading.current_before_cons]; decide)).bind ?_
      exact (Reads.pure hclosed).bind (hend.bind (.pure hr))
  | some body =>
      have hnumber : body.length < limit :=
        calc body.length
          _ ≤ (Stmt.lines body).length := length_le_lines body
          _ < (Stmt.elseLines (some body)).length := length_lines_lt_elseLines body
          _ ≤ limit := hlimit
      rw [Stmt.elseLines, clause, List.cons_append, List.nil_append, List.cons_append]
      refine (Reads.eat (t := .mark .kwElse) hr rfl (by decide)).bind ?_
      rw [← List.cons_append, Reading.before_append]
      refine (Reads.map ?_).bind (hend.bind (.pure hr))
      exact reads_block (by simp) (hbody body rfl) hnumber hclosed closesBody_kwEnd

theorem current_elseLines (r : Reading) (o : Option (List Stmt)) :
    (r.before (Stmt.elseLines o)).current.kind ∈ [Kind.kwEnd, .kwElse] := by
  cases o with
  | none => exact (by decide : Kind.kwEnd ∈ [Kind.kwEnd, .kwElse])
  | some body => exact (by decide : Kind.kwElse ∈ [Kind.kwEnd, .kwElse])

theorem current_elseLines_ne {k : Kind} (hk : k ∉ [Kind.kwEnd, .kwElse]) (r : Reading)
    (o : Option (List Stmt)) : (r.before (Stmt.elseLines o)).current.kind ≠ k :=
  fun hkind => hk (hkind ▸ current_elseLines r o)

theorem closers_elseLines {closers : KindSet}
    (h : closers ∈ [closesIfArm, closesUnlessBody, closesWhenArm]) (r : Reading)
    (o : Option (List Stmt)) : closers.contains (r.before (Stmt.elseLines o)).current.kind := by
  have hall : ∀ closers ∈ [closesIfArm, closesUnlessBody, closesWhenArm],
      ∀ k ∈ [Kind.kwEnd, .kwElse], closers.contains k := by
    decide
  exact hall closers h _ (current_elseLines r o)

end Lines

/-! ## Expressions in statements -/

section Values

variable {limit : Nat} {r : Reading} {e : Expr} {values : List Expr}

theorem reads_expression (h : e.Readable) (hlimit : e.tokens.length ≤ limit) (hr : r.Closed)
    (hstop : Precedence.assignment.continues r.current.kind = false) :
    Reads (expression limit) (r.before e.tokens) e r :=
  Derives.reads_expression h hlimit hr hstop

theorem reads_commas {α : Type} {item : Parse α} {f : α → List Token} {xs : List α} (hne : xs ≠ [])
    (hpos : ∀ x ∈ xs, 0 < (f x).length) (hlimit : (commas (xs.map f)).length ≤ limit)
    (hr : r.Closed) (hcomma : r.current.kind ≠ .comma)
    (hitem : ∀ x ∈ xs, (f x).length ≤ limit → ∀ r₁ : Reading, r₁.Closed →
      (r₁.current.kind = .comma ∨ r₁ = r) → Reads item (r₁.before (f x)) x r₁) :
    Reads (commaSeparated limit (fun _ => pure ()) item) (r.before (commas (xs.map f))) xs r := by
  have hparts := CommaSeparated.commas (xs.map f)
  have hnumber : xs.length ≤ limit := by
    have hlength := hparts.length_le fun part hpart => by
      obtain ⟨x, hx, rfl⟩ := List.mem_map.mp hpart
      exact hpos x hx
    rw [List.length_map] at hlength
    omega
  have hread : Reads (commaSeparated limit (fun _ => pure ()) item) (r.before (commas (xs.map f)))
      ((xs.map fun x => (f x, x)).map Prod.snd) r := by
    refine Reads.commaSeparated (by simpa using hne) (by simpa using hnumber) hr
      (fun _ _ _ hr => .pure hr) ?_ (by simpa [Function.comp_def] using hparts) hcomma
    intro part hpart r₁ hr₁ hnext
    obtain ⟨x, hx, rfl⟩ := List.mem_map.mp hpart
    have hlength := hparts.length_part_le (List.mem_map_of_mem hx)
    exact hitem x hx (by omega) r₁ hr₁ hnext
  simpa [Function.comp_def] using hread

theorem reads_values (hne : values ≠ []) (h : ∀ e ∈ values, e.Readable)
    (hlimit : (commas (values.map Expr.tokens)).length ≤ limit) (hr : r.Closed)
    (hstop : Precedence.assignment.continues r.current.kind = false)
    (hcomma : r.current.kind ≠ .comma) :
    Reads (commaSeparated limit (fun _ => pure ()) (expression limit))
      (r.before (commas (values.map Expr.tokens))) values r := by
  refine reads_commas hne (fun e he => (h e he).length_pos) hlimit hr hcomma ?_
  rintro e he hlength r₁ hr₁ (hnext | rfl)
  · exact reads_expression (h e he) hlength hr₁ (by rw [hnext]; rfl)
  · exact reads_expression (h e he) hlength hr₁ hstop

theorem reads_names {names : List Token} {cause : Cause} (hne : names ≠ [])
    (h : ∀ name ∈ names, name.kind = .identifier)
    (hlimit : (commas (names.map ([·]))).length ≤ limit) (hr : r.Closed)
    (hcomma : r.current.kind ≠ .comma) :
    Reads (commaSeparated limit (fun _ => pure ()) (expect .identifier cause))
      (r.before (commas (names.map ([·])))) names r :=
  reads_commas hne (fun _ _ => Nat.one_pos) hlimit hr hcomma fun name hname _ _ hr₁ _ =>
    Reads.expect hr₁ (h name hname) (by decide)

theorem reads_terminator (hr : r.Closed) : Reads terminator (r.before [.newline]) () r := by
  have hclosed := hr.before [Token.newline]
  refine (Reads.currentKind hclosed).bind ?_
  have hsep : Token.newline.kind.isSeparator := by decide
  rw [Reading.current_before_cons, if_pos hsep]
  refine (Reads.advance hr (by decide)).bind ?_
  exact .pure hr

theorem newline_ne {k : Kind} (hk : k ≠ .newline) (r : Reading) (ts : List Token) :
    (r.before (.newline :: ts)).current.kind ≠ k :=
  hk.symm

theorem reads_atTerminator (hr : r.Closed) :
    Reads atTerminator (r.before [.newline]) true (r.before [.newline]) := by
  have hclosed := hr.before [Token.newline]
  exact (Reads.currentKind hclosed).bind (.pure hclosed)

theorem reads_atTerminator_starts (hr : r.Closed) (hstart : Derives.starts r.current.kind) :
    Reads atTerminator r false r := by
  have hopens : opensStatement r.current.kind := by
    rw [opensStatement, hstart]
    rfl
  have hnone : (r.current.kind.isSeparator || r.current.kind = .eof ||
      closesBlock.contains r.current.kind) = false := by
    rw [opensStatement_not_separator hopens, opensStatement_not_closer hopens,
      decide_eq_false (opensStatement_ne_eof hopens)]
    rfl
  refine (Reads.currentKind hr).bind ?_
  rw [hnone]
  exact .pure hr

end Values

/-! ## Choosing a form -/

section Forms

variable {limit : Nat} {expr : Parse Expr} {stmt : Parse Stmt} {r r' : Reading} {s : Stmt}

def form (limit : Nat) (expr : Parse Expr) (stmt : Parse Stmt) : Kind → Parse Stmt
  | .kwDef => definition limit stmt
  | .kwUnless => unlessStatement limit expr stmt
  | .kwIf => ifStatement limit expr stmt
  | .kwPrint | .kwPuts => printStatement limit expr
  | .kwBegin => beginBlock limit stmt
  | .kwWhile | .kwUntil => conditionalLoop limit expr stmt
  | .kwReturn => returnStatement expr
  | .kwBreak => do
      let keyword ← advance
      terminator
      return .breakLoop keyword
  | .kwNext => do
      let keyword ← advance
      terminator
      return .nextRound keyword
  | .kwLoop => loopStatement limit stmt
  | .kwFor => forStatement limit expr stmt
  | .kwCase => caseStatement limit expr stmt
  | _ => expressionStatement limit expr

theorem statementWith_eq (limit : Nat) (expr : Parse Expr) (stmt : Parse Stmt) :
    statementWith limit expr stmt = (do
      if ← atParallelAssignment then
        parallelAssignment limit expr
      else
        form limit expr stmt (← currentKind)) :=
  rfl

theorem form_of_starts (limit : Nat) (expr : Parse Expr) (stmt : Parse Stmt) {k : Kind}
    (h : Derives.starts k) :
    form limit expr stmt k = expressionStatement limit expr := by
  cases k <;> first | rfl | exact absurd h (by decide)

theorem reads_atParallelAssignment (hr : r.Closed) :
    Reads atParallelAssignment r (startsParallel r.tokens) r :=
  (Reads.get hr).bind (.pure hr)

theorem reads_form (hparallel : startsParallel r.tokens = false)
    (h : Reads (form limit expr stmt r.current.kind) r s r') :
    Reads (statementWith limit expr stmt) r s r' := by
  rw [statementWith_eq]
  refine (reads_atParallelAssignment h.closed).bind ?_
  rw [hparallel]
  exact (Reads.currentKind h.closed).bind h

theorem reads_keyword {keyword : Token} {ts : List Token} {k : Kind} (hkind : keyword.kind = k)
    (hk : k ≠ .identifier) (h : Reads (form limit expr stmt k) (r.before (keyword :: ts)) s r') :
    Reads (statementWith limit expr stmt) (r.before (keyword :: ts)) s r' := by
  refine reads_form ?_ (by rw [Reading.current_before_cons, hkind]; exact h)
  rw [Reading.tokens_before, List.cons_append, startsParallel, hkind]
  simp [hk]

end Forms

/-! ## Simple statements -/

section Simple

variable {limit : Nat} {stmt : Parse Stmt}

theorem Rereads.of_whole {s : Stmt} (h : ∀ r : Reading, r.Closed →
    Reads stmt (r.before (s.tokens ++ [.newline])) s r) : Rereads stmt s :=
  fun r hr => ⟨[], by simp, h r hr⟩

theorem rereads_expr {values : List Expr} (hne : values ≠ []) (hvalues : ∀ e ∈ values, e.Readable)
    (hparallel : startsParallel (commas (values.map Expr.tokens)) = false)
    (hlimit : (Stmt.expr (sequenceOf values)).tokens.length ≤ limit) :
    Rereads (statementWith limit (expression limit) stmt) (.expr (sequenceOf values)) := by
  rw [Stmt.tokens, Expr.tokens_sequenceOf hne] at hlimit
  refine .of_whole fun r hr => ?_
  rw [Stmt.tokens, Expr.tokens_sequenceOf hne, Reading.before_append]
  have hclosed := hr.before [Token.newline]
  refine reads_form ?_ ?_
  · rw [Reading.tokens_before, startsParallel_append, hparallel]
    simp [Reading.before, Reading.tokens, Token.newline]
  · obtain ⟨t, rest, hhead, hstart⟩ := exists_head_values hne hvalues
    have hform := form_of_starts limit (expression limit) stmt hstart
    have hread : Reads (expressionStatement limit (expression limit))
        ((r.before [.newline]).before (commas (values.map Expr.tokens))) (.expr (sequenceOf values))
        r := (reads_values hne hvalues hlimit hclosed rfl (newline_ne (by decide) r [])).bind
      ((reads_terminator hr).bind (.pure hr))
    rw [hhead] at hread ⊢
    rw [Reading.current_before_cons, hform]
    exact hread

theorem rereads_print {keyword : Token} {values : List Expr} {newline : Bool}
    (hkind : keyword.kind = .kwPrint ∨ keyword.kind = .kwPuts)
    (hnewline : newline ↔ keyword.kind = .kwPuts) (hvalues : ∀ e ∈ values, e.Readable)
    (hlimit : (Stmt.print keyword values newline).tokens.length ≤ limit) :
    Rereads (statementWith limit (expression limit) stmt) (.print keyword values newline) := by
  obtain rfl : newline = decide (keyword.kind = .kwPuts) := by
    rw [Bool.eq_iff_iff, hnewline, decide_eq_true_iff]
  refine .of_whole fun r hr => ?_
  have hclosed := hr.before [Token.newline]
  rw [Stmt.tokens] at hlimit ⊢
  rw [List.cons_append]
  have hread : Reads (printStatement limit (expression limit))
      (r.before (keyword :: (commas (values.map Expr.tokens) ++ [.newline])))
      (.print keyword values (keyword.kind = .kwPuts)) r := by
    refine (Reads.advance hr (by rcases hkind with hkind | hkind <;> rw [hkind] <;> decide)).bind ?_
    rw [Reading.before_append]
    have hend : Reads (do terminator; return Stmt.print keyword values (keyword.kind = .kwPuts))
        (r.before [.newline]) (.print keyword values (keyword.kind = .kwPuts)) r :=
      (reads_terminator hr).bind (.pure hr)
    by_cases hne : values = []
    · subst hne
      exact (reads_atTerminator hr).bind ((Reads.pure hclosed).bind hend)
    · have hroom : (commas (values.map Expr.tokens)).length ≤ limit := Nat.le_of_succ_le hlimit
      have hread := reads_values hne hvalues hroom hclosed rfl (newline_ne (by decide) r [])
      obtain ⟨t, rest, hhead, hstart⟩ := exists_head_values hne hvalues
      rw [hhead] at hread ⊢
      exact (reads_atTerminator_starts hread.closed hstart).bind (hread.bind hend)
  rcases hkind with hkind | hkind
  · exact reads_keyword hkind (by decide) hread
  · exact reads_keyword hkind (by decide) hread

theorem rereads_returnFrom {keyword : Token} {value : Option Expr}
    (hkind : keyword.kind = .kwReturn) (hvalue : ∀ e, value = some e → e.Readable)
    (hlimit : (Stmt.returnFrom keyword value).tokens.length ≤ limit) :
    Rereads (statementWith limit (expression limit) stmt) (.returnFrom keyword value) := by
  refine .of_whole fun r hr => ?_
  have hclosed := hr.before [Token.newline]
  have hend : Reads (do terminator; return Stmt.returnFrom keyword value) (r.before [.newline])
      (.returnFrom keyword value) r := (reads_terminator hr).bind (.pure hr)
  rw [Stmt.tokens, List.cons_append]
  refine reads_keyword (k := .kwReturn) hkind (by decide) ?_
  refine (Reads.advance hr (by rw [hkind]; decide)).bind ?_
  cases value with
  | none => exact (reads_atTerminator hr).bind ((Reads.pure hclosed).bind hend)
  | some e =>
      have hroom : e.tokens.length ≤ limit := Nat.le_of_succ_le hlimit
      have hread := reads_expression (hvalue e rfl) hroom hclosed rfl
      obtain ⟨t, rest, hhead, hstart⟩ := (hvalue e rfl).starts_head
      rw [Option.map_some, Option.getD_some, Reading.before_append]
      rw [hhead] at hread ⊢
      exact (reads_atTerminator_starts hread.closed hstart).bind (hread.map.bind hend)

theorem rereads_jump {keyword : Token} {jump : Token → Stmt} {k : Kind} (hkind : keyword.kind = k)
    (hk : k ≠ .identifier) (hend : k ≠ .eof) (htokens : (jump keyword).tokens = [keyword])
    (hform : form limit (expression limit) stmt k = (do
      let keyword ← advance
      terminator
      return jump keyword)) :
    Rereads (statementWith limit (expression limit) stmt) (jump keyword) := by
  refine .of_whole fun r hr => ?_
  rw [htokens]
  refine reads_keyword hkind hk ?_
  rw [hform]
  exact (Reads.advance hr (hkind ▸ hend)).bind ((reads_terminator hr).bind (.pure hr))

theorem moreNamesThenEqual_names {names : List Token} (hne : names ≠ [])
    (h : ∀ name ∈ names, name.kind = .identifier) {comma sign : Token} {ts : List Token}
    (hcomma : comma.kind = .comma) (hsign : sign.kind = .equal) :
    moreNamesThenEqual (comma :: (commas (names.map ([·])) ++ sign :: ts)) := by
  induction names generalizing comma with
  | nil => exact absurd rfl hne
  | cons name rest ih =>
      have hname := h name (by simp)
      cases rest with
      | nil => simp [commas, moreNamesThenEqual, hcomma, hname, hsign]
      | cons next rest =>
          have hmark : (Token.mark .comma).kind = .comma := rfl
          have hrest := ih (by simp) (fun name hname => h name (by simp_all)) hmark
          simp only [List.map_cons, commas, List.cons_append, List.nil_append, moreNamesThenEqual]
          simp only [List.map_cons] at hrest
          simp [hcomma, hname, hrest]

theorem startsParallel_names {names : List Token} (hcount : 2 ≤ names.length)
    (h : ∀ name ∈ names, name.kind = .identifier) (ts : List Token) :
    startsParallel (commas (names.map ([·])) ++ .mark .equal :: ts) := by
  obtain _ | ⟨first, _ | ⟨second, rest⟩⟩ := names
  · simp at hcount
  · simp at hcount
  · have hmark : (Token.mark .comma).kind = .comma := rfl
    have hmore : moreNamesThenEqual (.mark .comma ::
        (commas ((second :: rest).map ([·])) ++ .mark .equal :: ts)) :=
      moreNamesThenEqual_names (by simp) (fun name hname => h name (by simp_all)) hmark rfl
    have hname := h first (by simp)
    simpa [startsParallel, commas, hname] using hmore

theorem rereads_assign {names : List Token} {values : List Expr} (hcount : 2 ≤ names.length)
    (hlength : values.length = names.length) (hnames : ∀ name ∈ names, name.kind = .identifier)
    (hvalues : ∀ e ∈ values, e.Readable)
    (hlimit : (Stmt.assign names values).tokens.length ≤ limit) :
    Rereads (statementWith limit (expression limit) stmt) (.assign names values) := by
  have hne : names ≠ [] := by
    rintro rfl
    simp at hcount
  have hsome : values ≠ [] := by
    rintro rfl
    rw [← hlength] at hcount
    simp at hcount
  rw [Stmt.tokens, List.length_append, List.length_cons] at hlimit
  refine .of_whole fun r hr => ?_
  have hclosed := hr.before [Token.newline]
  rw [Stmt.tokens, List.append_assoc, List.cons_append, statementWith_eq]
  refine (reads_atParallelAssignment (hr.before _)).bind ?_
  rw [Reading.tokens_before, List.append_assoc, List.cons_append,
    startsParallel_names hcount hnames, if_pos rfl, Reading.before_append]
  refine (reads_names hne hnames (by omega) (hr.before _) ?_).bind ?_
  · exact (by decide : Kind.equal ≠ .comma)
  refine (Reads.expect (t := .mark .equal) hr rfl (by decide)).bind ?_
  rw [Reading.before_append]
  refine (reads_values hsome hvalues (by omega) hclosed rfl
    (newline_ne (by decide) r [])).bind ?_
  rw [if_pos hlength]
  exact (reads_terminator hr).bind (.pure hr)

end Simple

end Scriptlet.Grammar
