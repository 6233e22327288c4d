import Scriptlet.Proofs.Grammar.LineComplete

/-!
# Canonical tokens are read again

A statement that contains others is read again from its canonical tokens if they are, so all
statements that can be read are, and whole programs too.
-/

namespace Scriptlet.Grammar

/-! ## Parameters -/

theorem reads_parameter {r r' : Reading} {read : Array Token} {name : Token} {ts : List Token}
    {round : Round (Array Token) (List Token)} (hname : name.kind = .identifier)
    (hcount : read.size < maxArguments) (hr : r.Closed)
    (h : Reads (do
      if ← eat .comma then
        if (← currentKind) = .identifier then
          return .again (read.push name)
        else
          fail .parameterName
      else
        return .done (read.push name).toList) (r.before ts) round r') :
    Reads (parametersRound read) (r.before (name :: ts)) round r' := by
  refine (Reads.currentKind (hr.before _)).bind ?_
  rw [Reading.current_before_cons, if_pos hname]
  dsimp only
  rw [if_neg (Nat.not_le_of_lt hcount)]
  exact (Reads.advance hr (by rw [hname]; decide)).bind h

theorem reads_parameters {limit : Nat} {r : Reading} {params : List Token}
    (hparams : ∀ p ∈ params, p.kind = .identifier) (hcount : params.length ≤ maxArguments)
    (hlimit : (commas (params.map ([·]))).length < limit) (hr : r.Closed)
    (hstop : r.current.kind = .rightParen) :
    Reads (parameters limit) (r.before (commas (params.map ([·])))) params r := by
  have hnumber := (CommaSeparated.commas (params.map ([·]))).length_le fun part hpart => by
    obtain ⟨p, -, rfl⟩ := List.mem_map.mp hpart
    exact Nat.one_pos
  rw [List.length_map] at hnumber
  have hlimit : params.length < limit := Nat.lt_of_le_of_lt hnumber hlimit
  rw [parameters_eq]
  obtain _ | ⟨first, rest⟩ := params
  · refine Reads.rounds_done hlimit ?_ hr
    refine (Reads.currentKind hr).bind ?_
    rw [if_neg (by rw [hstop]; decide)]
    exact .pure hr
  -- every round but the last finds another name after the comma
  refine Reads.rounds (fun n read r₁ => ∃ name more, more.length = n ∧
    read.toList ++ name :: more = first :: rest ∧
    r₁ = r.before (commas ((name :: more).map ([·])))) ⟨first, rest, rfl, rfl, rfl⟩
    (Nat.lt_of_succ_lt hlimit) hr ?_ ?_
  · rintro read r₁ ⟨name, more, hmore, hread, rfl⟩
    obtain rfl := List.length_eq_zero_iff.mp hmore
    have hlength := congrArg List.length hread
    simp only [List.length_append, Array.length_toList, List.length_cons] at hlength hcount
    refine reads_parameter (hparams name (by rw [← hread]; simp)) (by omega) hr ?_
    refine (Reads.eat_other hr (by rw [hstop]; decide)).bind ?_
    rw [← hread, ← Array.toList_push]
    exact .pure hr
  · rintro n read r₁ ⟨name, more, hlength, hread, rfl⟩
    obtain ⟨next, more, rfl⟩ := List.exists_cons_of_length_eq_add_one hlength
    have hsize := congrArg List.length hread
    simp only [List.length_append, Array.length_toList, List.length_cons] at hsize hcount
    have hnext := hparams next (by rw [← hread]; simp)
    have hclosed := hr.before (commas ((next :: more).map ([·])))
    have hhead : ((next :: more).map ([·])).head? = some [next] := rfl
    obtain ⟨after, hafter⟩ := exists_head_commas hhead
    refine ⟨read.push name, r.before (commas ((next :: more).map ([·]))), ?_, next, more,
      by simpa using hlength, by simpa using hread, rfl⟩
    refine reads_parameter (hparams name (by rw [← hread]; simp)) (by omega) hr ?_
    refine (Reads.eat (t := .mark .comma) hr rfl (by decide)).bind
      ((Reads.currentKind hclosed).bind ?_)
    rw [hafter, Reading.current_before_cons, if_pos hnext]
    exact .pure (hr.before _)

/-! ## Compound statements -/

section Compound

variable {limit : Nat} {stmt : Parse Stmt} {body : List Stmt} {condition : Expr}

theorem Rereads.of_closed {s : Stmt} (h : ∀ r : Reading, r.Closed →
    Reads stmt (r.before s.tokens) s r) : Rereads stmt s := by
  intro r hr
  refine ⟨[.newline], newline_separators, ?_⟩
  rw [Reading.before_append]
  exact h _ (hr.before _)

variable [Advances stmt] (hbody : ∀ s ∈ body, s.Readable ∧ Rereads stmt s)
include hbody

theorem rereads_block (hlimit : (Stmt.block body).tokens.length ≤ limit) :
    Rereads (statementWith limit (expression limit) stmt) (.block body) := by
  simp only [Stmt.tokens, List.length_append, length_clause] at hlimit
  have hnumber := length_le_lines body
  refine .of_closed fun r hr => ?_
  rw [Stmt.tokens, clause, List.nil_append, List.cons_append, List.cons_append]
  refine reads_keyword (k := .kwBegin) rfl (by decide) ?_
  refine (Reads.advance hr (by decide)).bind ?_
  exact (reads_closedBody hbody (by omega) hr).bind (.pure hr)

theorem reads_conditionalLoop {r : Reading} {k : Kind} (hk : k ≠ .eof) (hc : condition.Readable)
    (hlimit : (clause k condition.tokens (Stmt.lines body) ++ [Token.mark .kwEnd]).length ≤ limit)
    (hr : r.Closed) :
    Reads (conditionalLoop limit (expression limit) stmt)
      (r.before (clause k condition.tokens (Stmt.lines body) ++ [.mark .kwEnd]))
      (if k = .kwWhile then .whileDo condition body else .untilDo condition body) r := by
  simp only [List.length_append, length_clause] at hlimit
  have hnumber := length_le_lines body
  have hclosed := hr.before
  rw [clause_append, clause]
  refine (Reads.advance hr hk).bind ?_
  rw [Reading.before_append]
  refine (reads_expression hc (by omega) (hclosed _) rfl).bind ?_
  refine (Reads.eat_other (hclosed _) (newline_ne (by decide) r _)).bind ?_
  refine (reads_closedBody hbody (by omega) hr).bind ?_
  change Reads (if k = .kwWhile then pure (Stmt.whileDo condition body)
    else pure (Stmt.untilDo condition body)) r _ r
  split
  · exact .pure hr
  · exact .pure hr

theorem rereads_whileDo (hc : condition.Readable)
    (hlimit : (Stmt.whileDo condition body).tokens.length ≤ limit) :
    Rereads (statementWith limit (expression limit) stmt) (.whileDo condition body) := by
  refine .of_closed fun r hr => ?_
  exact reads_keyword (k := .kwWhile) rfl (by decide)
    (reads_conditionalLoop hbody (k := .kwWhile) (by decide) hc hlimit hr)

theorem rereads_untilDo (hc : condition.Readable)
    (hlimit : (Stmt.untilDo condition body).tokens.length ≤ limit) :
    Rereads (statementWith limit (expression limit) stmt) (.untilDo condition body) := by
  refine .of_closed fun r hr => ?_
  exact reads_keyword (k := .kwUntil) rfl (by decide)
    (reads_conditionalLoop hbody (k := .kwUntil) (by decide) hc hlimit hr)

theorem rereads_loopDo (hlimit : (Stmt.loopDo body).tokens.length ≤ limit) :
    Rereads (statementWith limit (expression limit) stmt) (.loopDo body) := by
  simp only [Stmt.tokens, List.length_append, length_clause] at hlimit
  have hnumber := length_le_lines body
  refine .of_closed fun r hr => ?_
  rw [Stmt.tokens, clause_append, clause, List.cons_append, List.nil_append]
  refine reads_keyword (k := .kwLoop) rfl (by decide) ?_
  refine (Reads.advance hr (by decide)).bind ?_
  refine (Reads.expect (t := .mark .kwDo) hr rfl (by decide)).bind ?_
  exact (reads_closedBody hbody (by omega) hr).bind (.pure hr)

theorem rereads_forDo {name : Token} {iterable : Expr} (hname : name.kind = .identifier)
    (hiterable : iterable.Readable)
    (hlimit : (Stmt.forDo name iterable body).tokens.length ≤ limit) :
    Rereads (statementWith limit (expression limit) stmt) (.forDo name iterable body) := by
  simp only [Stmt.tokens, List.length_append, List.length_cons, length_clause] at hlimit
  have hnumber := length_le_lines body
  refine .of_closed fun r hr => ?_
  have hclosed := hr.before
  rw [Stmt.tokens, clause_append, clause, List.cons_append, List.cons_append]
  refine reads_keyword (k := .kwFor) rfl (by decide) ?_
  refine (Reads.advance hr (by decide)).bind ?_
  refine (Reads.expect hr hname (by decide)).bind ?_
  refine (Reads.expect (t := .mark .kwIn) hr rfl (by decide)).bind ?_
  rw [Reading.before_append]
  refine (reads_expression hiterable (by omega) (hclosed _) rfl).bind ?_
  refine (Reads.eat_other (hclosed _) (newline_ne (by decide) r _)).bind ?_
  exact (reads_closedBody hbody (by omega) hr).bind (.pure hr)

theorem rereads_define {name : Token} {params : List Token} (hname : name.kind = .identifier)
    (hparams : ∀ p ∈ params, p.kind = .identifier) (hcount : params.length ≤ maxArguments)
    (hlimit : (Stmt.define name params body).tokens.length ≤ limit) :
    Rereads (statementWith limit (expression limit) stmt) (.define name params body) := by
  simp only [Stmt.tokens, List.length_append, List.length_cons, length_clause] at hlimit
  have hnumber := length_le_lines body
  refine .of_closed fun r hr => ?_
  have hclosed := hr.before
  rw [Stmt.tokens, clause_append, clause, List.cons_append, List.cons_append, List.append_assoc]
  refine reads_keyword (k := .kwDef) rfl (by decide) ?_
  refine (Reads.advance hr (by decide)).bind ?_
  refine (Reads.expect hr hname (by decide)).bind ?_
  refine (Reads.eat (t := .mark .leftParen) hr rfl (by decide)).bind ?_
  rw [Reading.before_append]
  refine (reads_parameters hparams hcount (by omega) (hclosed _) rfl).bind ?_
  refine (Reads.expect (t := .mark .rightParen) hr rfl (by decide)).bind ?_
  exact (reads_closedBody hbody (by omega) hr).bind (.pure hr)

/-! ## Statements with arms -/

theorem reads_arm {β : Type} {f : Expr → List Stmt → Parse β} {b : β} {closers : KindSet}
    {opener : Token} {r r' : Reading}
    (hclosers : closers ∈ [closesBody, closesIfArm, closesUnlessBody, closesWhenArm])
    (hc : condition.Readable) (hcondition : condition.tokens.length ≤ limit)
    (hlimit : (Stmt.lines body).length < limit) (hcloser : closers.contains r.current.kind)
    (h : Reads (f condition body) r b r') :
    Reads (do
      let condition ← expression limit
      let _ ← eat .kwThen
      let body ← block limit stmt closers opener
      f condition body) (r.before (condition.tokens ++ .newline :: Stmt.lines body)) b r' := by
  have hnumber := length_le_lines body
  have hclosed : (r.before (.newline :: Stmt.lines body)).Closed := by simpa using h.closed
  rw [Reading.before_append]
  refine (reads_expression hc hcondition hclosed rfl).bind ?_
  refine (Reads.eat_other hclosed (newline_ne (by decide) r _)).bind ?_
  exact (reads_block hclosers hbody (by omega) h.closed hcloser).bind h

theorem rereads_unlessDo {o : Option (List Stmt)} (hc : condition.Readable)
    (hother : ∀ body, o = some body → ∀ s ∈ body, s.Readable ∧ Rereads stmt s)
    (hlimit : (Stmt.unlessDo condition body o).tokens.length ≤ limit) :
    Rereads (statementWith limit (expression limit) stmt) (.unlessDo condition body o) := by
  simp only [Stmt.tokens, List.length_append, length_clause] at hlimit
  refine .of_closed fun r hr => ?_
  rw [Stmt.tokens, Reading.before_append, clause]
  refine reads_keyword (k := .kwUnless) rfl (by decide) ?_
  refine (Reads.advance (hr.before _) (by decide)).bind ?_
  refine reads_arm hbody (by simp) hc (by omega) (by omega) (closers_elseLines (by simp) r o) ?_
  exact (reads_otherwise hother (by omega) hr).bind (.pure hr)

end Compound

section Arms

variable {limit : Nat} {stmt : Parse Stmt} [Advances stmt] {arms : List (Expr × List Stmt)}
variable {r : Reading} {opener : Token} {o : Option (List Stmt)}

def RereadsArm (stmt : Parse Stmt) (arm : Expr × List Stmt) : Prop :=
  arm.1.Readable ∧ ∀ s ∈ arm.2, s.Readable ∧ Rereads stmt s

variable (harms : ∀ arm ∈ arms, RereadsArm stmt arm)
include harms

theorem reads_ifRounds {first : Expr × List Stmt} {rest : List (Expr × List Stmt)}
    (heq : arms = first :: rest) (hlimit : (Stmt.armLines .kwIf .kwElsif arms).length < limit)
    (hr : r.Closed) (hcloser : closesIfArm.contains r.current.kind)
    (hstop : r.current.kind ≠ .kwElsif) :
    Reads (rounds (ifRound limit (expression limit) stmt opener) limit #[])
      (r.before (first.1.tokens ++ .newline ::
        (Stmt.lines first.2 ++ Stmt.armLines .kwElsif .kwElsif rest))) arms r := by
  subst heq
  have hnumber := length_le_armLines .kwIf .kwElsif (first :: rest)
  rw [List.length_cons] at hnumber
  -- a round starts behind the word of its arm, so there is always one more arm to read
  refine Reads.rounds (fun n read r₁ => ∃ arm more, more.length = n ∧
    read.toList ++ arm :: more = first :: rest ∧
    r₁ = r.before (arm.1.tokens ++ .newline ::
      (Stmt.lines arm.2 ++ Stmt.armLines .kwElsif .kwElsif more))) ⟨first, rest, rfl, rfl, rfl⟩
    (by omega) hr ?_ ?_
  · rintro read r₁ ⟨arm, more, hmore, hread, rfl⟩
    obtain rfl := List.length_eq_zero_iff.mp hmore
    have harm : arm ∈ first :: rest := by simp [← hread]
    have hlength := length_arm_lt_armLines .kwIf .kwElsif harm
    obtain ⟨hc, hbody⟩ := harms arm harm
    rw [Stmt.armLines, List.append_nil]
    refine reads_arm hbody (by simp) hc (by omega) (by omega) hcloser ?_
    refine (Reads.eat_other hr hstop).bind ?_
    rw [← hread, ← Array.toList_push]
    exact .pure hr
  · rintro n read r₁ ⟨arm, more, hmore, hread, rfl⟩
    obtain ⟨next, more, rfl⟩ := List.exists_cons_of_length_eq_add_one hmore
    have harm : arm ∈ first :: rest := by simp [← hread]
    have hlength := length_arm_lt_armLines .kwIf .kwElsif harm
    obtain ⟨hc, hbody⟩ := harms arm harm
    refine ⟨read.push arm, _, ?_, next, more, by simpa using hmore, by simpa using hread, rfl⟩
    have hsplit : arm.1.tokens ++ .newline ::
        (Stmt.lines arm.2 ++ Stmt.armLines .kwElsif .kwElsif (next :: more)) =
        (arm.1.tokens ++ .newline :: Stmt.lines arm.2) ++ .mark .kwElsif ::
          (next.1.tokens ++ .newline ::
            (Stmt.lines next.2 ++ Stmt.armLines .kwElsif .kwElsif more)) := by
      simp [Stmt.armLines, clause]
    rw [hsplit, Reading.before_append]
    refine reads_arm hbody (by simp) hc (by omega) (by omega)
      (by exact closesIfArm_kwElsif) ?_
    exact (Reads.eat (t := .mark .kwElsif) hr rfl (by decide)).bind (.pure (hr.before _))

theorem reads_caseRounds (hlimit : (Stmt.armLines .kwWhen .kwWhen arms).length < limit)
    (hr : r.Closed) (hcloser : closesWhenArm.contains r.current.kind)
    (hstop : r.current.kind ≠ .kwWhen) :
    Reads (rounds (caseRound limit (expression limit) stmt opener) limit #[])
      (r.before (Stmt.armLines .kwWhen .kwWhen arms)) arms r := by
  have hnumber := length_le_armLines .kwWhen .kwWhen arms
  refine Reads.rounds (fun n read r₁ => ∃ more, more.length = n ∧ read.toList ++ more = arms ∧
    r₁ = r.before (Stmt.armLines .kwWhen .kwWhen more)) ⟨arms, rfl, rfl, rfl⟩ (by omega) hr ?_ ?_
  · rintro read r₁ ⟨more, hmore, hread, rfl⟩
    obtain rfl := List.length_eq_zero_iff.mp hmore
    refine (Reads.eat_other hr hstop).bind ?_
    rw [← hread, List.append_nil]
    exact .pure hr
  · rintro n read r₁ ⟨more, hmore, hread, rfl⟩
    obtain ⟨arm, more, rfl⟩ := List.exists_cons_of_length_eq_add_one hmore
    have harm : arm ∈ arms := by simp [← hread]
    have hlength := length_arm_lt_armLines .kwWhen .kwWhen harm
    obtain ⟨hc, hbody⟩ := harms arm harm
    refine ⟨read.push arm, r.before (Stmt.armLines .kwWhen .kwWhen more), ?_, more,
      by simpa using hmore, by simpa using hread, rfl⟩
    have hclosed := hr.before (Stmt.armLines .kwWhen .kwWhen more)
    rw [Stmt.armLines, clause, List.cons_append]
    refine (Reads.eat (t := .mark .kwWhen) hr rfl (by decide)).bind ?_
    rw [Reading.before_append]
    refine reads_arm hbody (by simp) hc (by omega) (by omega) ?_ (.pure hclosed)
    cases more with
    | nil => exact hcloser
    | cons next more => exact closesWhenArm_kwWhen

variable (hother : ∀ body, o = some body → ∀ s ∈ body, s.Readable ∧ Rereads stmt s)
include hother

theorem rereads_ifDo (hne : arms ≠ [])
    (hlimit : (Stmt.ifDo (arms.map Prod.fst) (arms.map Prod.snd) o).tokens.length ≤ limit) :
    Rereads (statementWith limit (expression limit) stmt)
      (.ifDo (arms.map Prod.fst) (arms.map Prod.snd) o) := by
  have hpos := length_pos_elseLines o
  rw [Stmt.tokens, Stmt.branchLines_arms, List.length_append] at hlimit
  obtain ⟨first, rest, rfl⟩ := List.exists_cons_of_ne_nil hne
  refine .of_closed fun r hr => ?_
  have hclosed := hr.before (Stmt.elseLines o)
  have hword : (r.before (Stmt.elseLines o)).current.kind ≠ .kwElsif :=
    current_elseLines_ne (by decide) r o
  rw [Stmt.tokens, Stmt.branchLines_arms, Reading.before_append, Stmt.armLines, clause_append,
    clause]
  refine reads_keyword (k := .kwIf) rfl (by decide) ?_
  rw [form, ifStatement_eq]
  refine (Reads.advance hclosed (by decide)).bind ?_
  refine (reads_ifRounds harms rfl (by omega) hclosed
    (closers_elseLines (by simp) r o) hword).bind ?_
  exact (reads_otherwise hother (by omega) hr).bind (.pure hr)

theorem rereads_caseDo {subject : Expr} (hsubject : subject.Readable) (hne : arms ≠ [])
    (hlimit : (Stmt.caseDo subject (arms.map Prod.fst) (arms.map Prod.snd) o).tokens.length ≤
      limit) :
    Rereads (statementWith limit (expression limit) stmt)
      (.caseDo subject (arms.map Prod.fst) (arms.map Prod.snd) o) := by
  rw [Stmt.tokens, Stmt.branchLines_arms, List.length_append, length_clause] at hlimit
  refine .of_closed fun r hr => ?_
  have hclosed := hr.before (Stmt.elseLines o)
  have hword : (r.before (Stmt.elseLines o)).current.kind ≠ .kwWhen :=
    current_elseLines_ne (by decide) r o
  have harmsClosed := hclosed.before (Stmt.armLines .kwWhen .kwWhen arms)
  have hfirst : ((r.before (Stmt.elseLines o)).before
      (Stmt.armLines .kwWhen .kwWhen arms)).current.kind.isSeparator = false := by
    obtain ⟨first, rest, rfl⟩ := List.exists_cons_of_ne_nil hne
    rfl
  rw [Stmt.tokens, Stmt.branchLines_arms, Reading.before_append, clause]
  refine reads_keyword (k := .kwCase) rfl (by decide) ?_
  rw [form, caseStatement_eq]
  refine (Reads.advance hclosed (by decide)).bind ?_
  rw [Reading.before_append]
  refine (reads_expression hsubject (by omega) (hclosed.before _) rfl).bind ?_
  rw [← List.singleton_append, Reading.before_append]
  refine (Reads.skipSeparators harmsClosed newline_separators hfirst).bind ?_
  refine (reads_caseRounds harms (by omega) hclosed (closers_elseLines (by simp) r o) hword).bind ?_
  rw [if_neg (by simpa using hne)]
  exact (reads_otherwise hother (by omega) hr).bind (.pure hr)

end Arms

/-! ## All statements -/

section Statements

variable {limit : Nat}

def RereadsAt (limit : Nat) (s : Stmt) : Prop :=
  ∀ depth, s.tokens.length ≤ depth + 1 → s.tokens.length ≤ limit →
    Rereads (statementWith limit (expression limit)
      (nested (statementWith limit (expression limit)) depth)) s

theorem RereadsAt.nested {s : Stmt} (hs : s.Readable) (h : RereadsAt limit s) {depth : Nat}
    (hdepth : s.tokens.length ≤ depth) (hlimit : s.tokens.length ≤ limit) :
    Rereads (nested (statementWith limit (expression limit)) depth) s := by
  obtain ⟨t, rest, hhead, -⟩ := exists_head_tokens hs
  have hpos : 0 < s.tokens.length := by simp [hhead]
  obtain ⟨depth, rfl⟩ : ∃ d, depth = d + 1 := ⟨depth - 1, by omega⟩
  intro r hr
  obtain ⟨left, hleft, hread⟩ := h depth hdepth hlimit r hr
  exact ⟨left, hleft, hread.nested⟩

theorem rereads_inner {body : List Stmt} {depth : Nat} (hbody : ∀ s ∈ body, s.Readable)
    (h : ∀ s ∈ body, RereadsAt limit s) (hdepth : (Stmt.lines body).length ≤ depth + 1)
    (hlimit : (Stmt.lines body).length ≤ limit) :
    ∀ s ∈ body, s.Readable ∧ Rereads (nested (statementWith limit (expression limit)) depth) s := by
  intro s hs
  have hlength := length_tokens_lt_lines hs
  exact ⟨hbody s hs, (h s hs).nested (hbody s hs) (by omega) (by omega)⟩

theorem rereads_clause {s : Stmt} {body : List Stmt} {word : Kind} {head ts : List Token}
    {depth : Nat} (htokens : s.tokens = clause word head (Stmt.lines body) ++ ts)
    (hbody : ∀ s ∈ body, s.Readable) (h : ∀ s ∈ body, RereadsAt limit s)
    (hdepth : s.tokens.length ≤ depth + 1) (hlimit : s.tokens.length ≤ limit) :
    ∀ s ∈ body, s.Readable ∧ Rereads (nested (statementWith limit (expression limit)) depth) s := by
  rw [htokens, List.length_append, length_clause] at hdepth hlimit
  exact rereads_inner hbody h (by omega) (by omega)

theorem rereads_arms {arms : List (Expr × List Stmt)} (word next : Kind) {depth : Nat}
    (hconditions : ∀ arm ∈ arms, arm.1.Readable) (hbodies : ∀ arm ∈ arms, ∀ s ∈ arm.2, s.Readable)
    (h : ∀ arm ∈ arms, ∀ s ∈ arm.2, RereadsAt limit s)
    (hdepth : (Stmt.armLines word next arms).length ≤ depth + 1)
    (hlimit : (Stmt.armLines word next arms).length ≤ limit) :
    ∀ arm ∈ arms, RereadsArm (nested (statementWith limit (expression limit)) depth) arm := by
  intro arm harm
  have hlength := length_arm_lt_armLines word next harm
  exact ⟨hconditions arm harm,
    rereads_inner (hbodies arm harm) (h arm harm) (by omega) (by omega)⟩

theorem rereads_else {o : Option (List Stmt)} {depth : Nat}
    (hother : ∀ body, o = some body → ∀ s ∈ body, s.Readable)
    (h : ∀ body, o = some body → ∀ s ∈ body, RereadsAt limit s)
    (hdepth : (Stmt.elseLines o).length ≤ depth + 1) (hlimit : (Stmt.elseLines o).length ≤ limit) :
    ∀ body, o = some body → ∀ s ∈ body,
      s.Readable ∧ Rereads (nested (statementWith limit (expression limit)) depth) s := by
  rintro body rfl
  have hlines := length_lines_lt_elseLines body
  exact rereads_inner (hother body rfl) (h body rfl) (by omega) (by omega)

theorem advances_nested (limit depth : Nat) :
    Advances (nested (statementWith limit (expression limit)) depth) :=
  .nested (fun _ _ => inferInstance) depth

/-- Statements within a statement have fewer tokens, so its length bounds its depth. -/
theorem rereadsAt_of_readable {s : Stmt} (h : s.Readable) : RereadsAt limit s := by
  induction h with
  | expr hne hvalues hparallel =>
      intro depth _ hlimit
      exact rereads_expr hne hvalues hparallel hlimit
  | print hkind hnewline hvalues =>
      intro depth _ hlimit
      exact rereads_print hkind hnewline hvalues hlimit
  | assign hcount hlength hnames hvalues =>
      intro depth _ hlimit
      exact rereads_assign hcount hlength hnames hvalues hlimit
  | returnFrom hkind hvalue =>
      intro depth _ hlimit
      exact rereads_returnFrom hkind hvalue hlimit
  | breakLoop hkind => exact fun _ _ _ => rereads_jump hkind (by decide) (by decide) rfl rfl
  | nextRound hkind => exact fun _ _ _ => rereads_jump hkind (by decide) (by decide) rfl rfl
  | block hbody ih =>
      intro depth hdepth hlimit
      have hadvances := advances_nested limit depth
      exact rereads_block (rereads_clause rfl hbody ih hdepth hlimit) hlimit
  | whileDo hc hbody ih =>
      intro depth hdepth hlimit
      have hadvances := advances_nested limit depth
      exact rereads_whileDo (rereads_clause rfl hbody ih hdepth hlimit) hc hlimit
  | untilDo hc hbody ih =>
      intro depth hdepth hlimit
      have hadvances := advances_nested limit depth
      exact rereads_untilDo (rereads_clause rfl hbody ih hdepth hlimit) hc hlimit
  | loopDo hbody ih =>
      intro depth hdepth hlimit
      have hadvances := advances_nested limit depth
      exact rereads_loopDo (rereads_clause rfl hbody ih hdepth hlimit) hlimit
  | forDo hname hiterable hbody ih =>
      intro depth hdepth hlimit
      have hadvances := advances_nested limit depth
      exact rereads_forDo (rereads_clause rfl hbody ih hdepth hlimit) hname hiterable hlimit
  | define hname hparams hcount hbody ih =>
      intro depth hdepth hlimit
      have hadvances := advances_nested limit depth
      exact rereads_define (rereads_clause rfl hbody ih hdepth hlimit) hname hparams hcount hlimit
  | unlessDo hc hbody hother ih iho =>
      intro depth hdepth hlimit
      have hadvances := advances_nested limit depth
      have hbodies := rereads_clause rfl hbody ih hdepth hlimit
      have hroom := hlimit
      simp only [Stmt.tokens, List.length_append] at hdepth hroom
      exact rereads_unlessDo hbodies hc (rereads_else hother iho (by omega) (by omega)) hlimit
  | ifDo hne hlength hconditions hbodies hother ih iho =>
      intro depth hdepth hlimit
      have hadvances := advances_nested limit depth
      obtain ⟨arms, rfl, rfl⟩ := Stmt.exists_arms hlength
      have hroom := hlimit
      simp only [Stmt.tokens, Stmt.branchLines_arms, List.length_append] at hdepth hroom
      rw [List.forall_mem_map] at hconditions hbodies ih
      exact rereads_ifDo (rereads_arms .kwIf .kwElsif hconditions hbodies ih (by omega) (by omega))
        (rereads_else hother iho (by omega) (by omega)) (by simpa using hne) hlimit
  | caseDo hsubject hne hlength hconditions hbodies hother ih iho =>
      intro depth hdepth hlimit
      have hadvances := advances_nested limit depth
      obtain ⟨arms, rfl, rfl⟩ := Stmt.exists_arms hlength
      have hroom := hlimit
      simp only [Stmt.tokens, Stmt.branchLines_arms, List.length_append, length_clause]
        at hdepth hroom
      rw [List.forall_mem_map] at hconditions hbodies ih
      exact rereads_caseDo
        (rereads_arms .kwWhen .kwWhen hconditions hbodies ih (by omega) (by omega))
        (rereads_else hother iho (by omega) (by omega)) hsubject (by simpa using hne) hlimit

theorem reads_program {r : Reading} {statements : List Stmt} (h : ∀ s ∈ statements, s.Readable)
    (hlimit : (Stmt.lines statements).length < limit) (hr : r.Closed)
    (hend : r.current.kind = .eof) :
    Reads (program limit) (r.before (Stmt.lines statements)) statements r := by
  have hnumber := length_le_lines statements
  have hadvances := advances_nested limit limit
  have hbody : ∀ s ∈ statements, s.Readable ∧ Rereads (statement limit) s := by
    intro s hs
    have hlength := length_tokens_lt_lines hs
    exact ⟨h s hs, (rereadsAt_of_readable (h s hs)).nested (h s hs) (by omega) (by omega)⟩
  rw [program_eq, ← List.nil_append (Stmt.lines statements)]
  refine reads_lines hbody (by omega) hr ?_ ?_ (by simp)
  · intro read seps hseps
    refine (Reads.skipSeparators hr hseps (by rw [hend]; rfl)).bind ((Reads.currentKind hr).bind ?_)
    rw [if_pos hend]
    exact .pure hr
  · intro read seps s r₁ r₂ hseps hr₁ hopens hs
    refine (Reads.skipSeparators hr₁ hseps (opensStatement_not_separator hopens)).bind
      ((Reads.currentKind hr₁).bind ?_)
    rw [if_neg (opensStatement_ne_eof hopens)]
    exact reads_keepRead hs

end Statements

end Scriptlet.Grammar
