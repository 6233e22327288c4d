import Scriptlet.Proofs.Grammar.Total

/-!
# Constructs of one line

Expressions and simple statements never read past the separator that ends their line, and they find
their errors up to there.  So where a separator still comes before the end mark, none of them misses
anything at the end mark.
-/

namespace Scriptlet.Grammar

namespace Reading

def MissesNothing (r : Reading) : Prop :=
  ∀ e ∈ r.errors.toList, e.token.kind ≠ .eof

/-- A separator comes before the end mark, and so far nothing was missed at one. -/
structure InLine (r : Reading) : Prop where
  tokens : ∃ us sep rest, r.tokens = us ++ sep :: rest ∧ (∀ t ∈ us, t.kind ≠ .eof) ∧
    sep.kind.isSeparator
  missesNothing : r.MissesNothing

variable {r : Reading} {e : SyntaxError}

theorem MissesNothing.record (h : r.MissesNothing) (he : e.token.kind ≠ .eof) :
    (r.record e).MissesNothing := by
  intro e' he'
  simp only [Reading.record, Array.toList_push, List.mem_append, List.mem_singleton] at he'
  rcases he' with he' | rfl
  · exact h e' he'
  · exact he

theorem InLine.kind_ne_eof (h : r.InLine) : r.current.kind ≠ .eof := by
  obtain ⟨us, sep, rest, htokens, hus, hsep⟩ := h.tokens
  cases us with
  | nil =>
      rw [(List.cons.inj htokens).1]
      exact Extends.isSeparator_ne_eof hsep
  | cons u us =>
      rw [(List.cons.inj htokens).1]
      exact hus u List.mem_cons_self

theorem InLine.record (h : r.InLine) (he : e.token.kind ≠ .eof) : (r.record e).InLine :=
  ⟨h.tokens, h.missesNothing.record he⟩

theorem InLine.advance (h : r.InLine) (hkind : r.current.kind.isWord) : r.advance.InLine := by
  obtain ⟨us, sep, rest, htokens, hus, hsep⟩ := h.tokens
  obtain ⟨current, ahead, errors⟩ := r
  refine ⟨?_, by simpa [MissesNothing] using h.missesNothing⟩
  cases us with
  | nil =>
      rw [(List.cons.inj htokens).1] at hkind
      exact absurd hsep (Kind.not_separator_of_isWord hkind)
  | cons u us =>
      refine ⟨us, sep, rest, ?_, fun t ht => hus t (List.mem_cons_of_mem u ht), hsep⟩
      obtain ⟨-, rfl⟩ := List.cons.inj htokens
      exact tokens_advance (Kind.ne_eof_of_isWord hkind) (by simp)

end Reading

open Reading (InLine MissesNothing)

variable {α β : Type}

theorem expect_of_eq {kind : Kind} {cause : Cause} {r : Reading} (h : r.current.kind = kind) :
    expect kind cause r = .ok r.current r.advance := by
  rw [expect, Pairing.currentKind_bind, if_pos h]
  rfl

theorem expect_of_ne {kind : Kind} {cause : Cause} {r : Reading} (h : r.current.kind ≠ kind) :
    expect kind cause r = .error ⟨r.current, cause⟩ r := by
  rw [expect, Pairing.currentKind_bind, if_neg h]
  rfl

/-- From readings with `pre`, what is read leaves one with `post`, and nothing is missed at an end
mark. -/
def Leads (pre post : Reading → Prop) (x : Parse α) : Prop :=
  ∀ r, pre r → match x r with
    | .ok _ r' => post r'
    | .error e r' => (r'.record e).MissesNothing

def At (k : Kind) (r : Reading) : Prop :=
  r.InLine ∧ r.current.kind = k

def blockOpeners : List Kind :=
  [.kwDef, .kwIf, .kwUnless, .kwWhile, .kwUntil, .kwFor, .kwLoop, .kwCase, .kwBegin]

namespace Leads

variable {pre mid post : Reading → Prop} {k : Kind} {x : Parse α} {f : α → Parse β}

/-! ## Sequencing -/

theorem pure (a : α) : Leads post post (pure a : Parse α) :=
  fun _ hr => hr

theorem of_pre {pre' : Reading → Prop} (h : Leads pre post x) (hpre : ∀ r, pre' r → pre r) :
    Leads pre' post x :=
  fun r hr => h r (hpre r hr)

theorem bind (hx : Leads pre mid x) (hf : ∀ a, Leads mid post (f a)) :
    Leads pre post (x >>= f) := by
  intro r hr
  have hxr := hx r hr
  simp only [Bind.bind, EStateM.bind]
  cases hresult : x r with
  | ok a r₁ =>
      rw [hresult] at hxr
      exact hf a r₁ hxr
  | error e r₁ => rwa [hresult] at hxr

theorem throw {e : SyntaxError} (he : e.token.kind ≠ .eof) :
    Leads InLine post (throw e : Parse α) :=
  fun _ hr => hr.missesNothing.record he

theorem fail (cause : Cause) : Leads InLine post (fail cause : Parse α) :=
  fun _ hr => hr.missesNothing.record hr.kind_ne_eof

/-! ## Single tokens -/

theorem current_bind {f : Token → Parse β}
    (h : ∀ t, t.kind ≠ .eof → Leads (At t.kind) post (f t)) :
    Leads InLine post (current >>= f) :=
  fun r hr => h r.current hr.kind_ne_eof r ⟨hr, rfl⟩

theorem kind_bind_of {p : Kind → Prop} {f : Kind → Parse β}
    (h : ∀ k, p k → Leads (At k) post (f k)) :
    Leads (fun r => r.InLine ∧ p r.current.kind) post (currentKind >>= f) :=
  fun r hr => h r.current.kind hr.2 r ⟨hr.1, rfl⟩

theorem kind_bind {f : Kind → Parse β} (h : ∀ k, k ≠ .eof → Leads (At k) post (f k)) :
    Leads InLine post (currentKind >>= f) :=
  (kind_bind_of h).of_pre fun _ hr => ⟨hr, hr.kind_ne_eof⟩

theorem inLine (h : Leads InLine post x) : Leads (At k) post x :=
  fun r hr => h r hr.1

theorem advance_bind (hk : k.isWord) {f : Token → Parse β}
    (hf : ∀ t, t.kind = k → Leads InLine post (f t)) : Leads (At k) post (advance >>= f) :=
  fun r hr => hf r.current hr.2 r.advance (hr.1.advance (hr.2 ▸ hk))

theorem report {token : Token} (htoken : token.kind ≠ .eof) (cause : Cause) :
    Leads InLine InLine (report token cause) :=
  fun _ hr => hr.record htoken

theorem eat {kind : Kind} (hkind : kind.isWord) : Leads InLine InLine (eat kind) := by
  refine kind_bind fun k _ => ?_
  split
  · next heq => exact advance_bind (heq ▸ hkind) fun _ _ => .pure true
  · exact inLine (.pure false)

theorem expect_bind {kind : Kind} (hkind : kind.isWord) (cause : Cause) {f : Token → Parse β}
    (hf : ∀ t, t.kind.isWord → Leads InLine post (f t)) :
    Leads InLine post (expect kind cause >>= f) := by
  intro r hr
  by_cases heq : r.current.kind = kind
  · rw [Pairing.bind_ok (expect_of_eq heq)]
    exact hf r.current (heq ▸ hkind) r.advance (hr.advance (heq ▸ hkind))
  · simp only [Bind.bind, EStateM.bind, expect_of_ne heq]
    exact hr.missesNothing.record hr.kind_ne_eof

/-! ## Repetition and nesting -/

theorem rounds {step : α → Parse (Round α β)} (hstep : ∀ a, Leads InLine InLine (step a))
    (limit : Nat) (a : α) : Leads InLine InLine (rounds step limit a) := by
  induction limit generalizing a with
  | zero => exact .fail _
  | succ limit ih =>
      refine (hstep a).bind fun round => ?_
      cases round with
      | again a' => exact ih a'
      | done b => exact .pure b

theorem nested {body : Parse α → Parse α}
    (hbody : ∀ x, Leads InLine InLine x → Leads InLine InLine (body x)) (limit : Nat) :
    Leads InLine InLine (nested body limit) := by
  induction limit with
  | zero => exact .fail _
  | succ limit ih => exact hbody _ ih

theorem commaSeparated {check : Nat → Parse Unit} {item : Parse α}
    (hcheck : ∀ n, Leads InLine InLine (check n)) (hitem : Leads InLine InLine item)
    (limit : Nat) : Leads InLine InLine (commaSeparated limit check item) := by
  refine rounds (fun items => (hcheck _).bind fun _ => hitem.bind fun a => ?_) limit _
  refine (eat rfl).bind fun found => ?_
  split
  · exact .pure _
  · exact .pure _

/-! ## Expressions -/

section Expressions

variable {operand expr : Parse Expr} (limit : Nat)

theorem leftChain {operators : List Kind} (hoperators : ∀ k ∈ operators, k.isWord)
    (h : Leads InLine InLine operand) :
    Leads InLine InLine (leftChain limit operators operand) := by
  refine h.bind fun first => rounds (fun left => kind_bind fun k _ => ?_) limit first
  split
  · next hk =>
      have hword : k.isWord := hoperators k (List.contains_iff_mem.mp hk)
      exact advance_bind hword fun op _ => h.bind fun right => .pure _
  · exact inLine (.pure _)

theorem binary {levels : List (List Kind)}
    (hlevels : ∀ operators ∈ levels, ∀ k ∈ operators, k.isWord)
    (h : Leads InLine InLine operand) : Leads InLine InLine (binary limit operand levels) := by
  induction levels with
  | nil => exact h
  | cons operators tighter ih =>
      rw [List.forall_mem_cons] at hlevels
      exact leftChain limit hlevels.1 (ih hlevels.2)

theorem power (h : Leads InLine InLine operand) : Leads InLine InLine (power limit operand) := by
  refine h.bind fun first => rounds (fun read => kind_bind fun k _ => ?_) limit _
  split
  · next hk => exact advance_bind (hk ▸ rfl) fun op _ => h.bind fun right => .pure _
  · exact inLine (.pure _)

theorem unary (h : Leads InLine InLine operand) : Leads InLine InLine (unary limit operand) := by
  refine bind (rounds (fun ops => kind_bind fun k _ => ?_) limit _) fun ops =>
    h.bind fun e => .pure _
  split
  · next hk =>
      have hword : k.isWord :=
        Pairing.isWord_of_mem_frontOperators k (List.contains_iff_mem.mp hk)
      exact advance_bind hword fun op _ => .pure _
  · exact inLine (.pure _)

theorem arguments (h : Leads InLine InLine expr) :
    Leads InLine InLine (arguments limit expr) := by
  refine kind_bind fun k _ => inLine ?_
  split
  · exact .pure _
  · refine commaSeparated (fun n => ?_) h limit
    split
    · exact current_bind fun t ht => inLine (report ht _)
    · exact .pure _

theorem primary (h : Leads InLine InLine expr) : Leads InLine InLine (primary expr) := by
  rw [Pairing.primary_eq]
  refine current_bind fun token _ => ?_
  by_cases hword : token.kind.isWord
  · have htake : ∀ e,
        Leads (At token.kind) InLine (advance >>= fun _ => Pure.pure e : Parse Expr) :=
      fun e => advance_bind hword fun _ _ => .pure e
    rw [Pairing.primaryFrom]
    split
    · exact htake _
    · exact htake _
    · exact htake _
    · exact htake _
    · exact htake _
    · exact htake _
    · exact htake _
    · exact advance_bind hword fun _ _ => h.bind fun inner =>
        expect_bind rfl _ fun _ _ => .pure _
    · exact inLine (.fail _)
  · rw [Pairing.primaryFrom_of_not_word hword]
    exact inLine (.fail _)

theorem call (h : Leads InLine InLine expr) : Leads InLine InLine (call limit expr) := by
  refine (primary h).bind fun callee =>
    rounds (fun callee => (eat rfl).bind fun found => ?_) limit _
  split
  · exact (arguments limit h).bind fun args => expect_bind rfl _ fun paren _ => .pure _
  · exact .pure _

theorem operation (h : Leads InLine InLine expr) : Leads InLine InLine (operation limit expr) :=
  binary limit Pairing.isWord_of_mem_binaryLevels
    (power limit (unary limit (call limit h)))

theorem assignment (h : Leads InLine InLine expr) :
    Leads InLine InLine (assignment limit expr) := by
  refine (operation limit h).bind fun target => kind_bind fun k hk => ?_
  split
  · next hop =>
      have hword : k.isWord :=
        Pairing.isWord_of_mem_assignmentOperators k (List.contains_iff_mem.mp hop)
      refine advance_bind hword fun op hkind => h.bind fun value => ?_
      split
      · exact .pure _
      · exact (report (hkind ▸ hk) _).bind fun _ => .pure _
  · exact inLine (.pure _)

theorem expression : Leads InLine InLine (expression limit) :=
  nested (fun _ h => assignment limit h) limit

end Expressions

/-! ## Simple statements -/

theorem atTerminator : Leads InLine InLine atTerminator :=
  kind_bind fun _ _ => inLine (.pure _)

theorem terminator : Leads InLine MissesNothing terminator := by
  intro r hr
  have hnext : Grammar.terminator r =
      if r.current.kind.isSeparator then .ok () r.advance
      else if r.current.kind = .eof || closesBlock.contains r.current.kind then .ok () r
      else .error ⟨r.current, .terminator⟩ r := by
    change (if r.current.kind.isSeparator then advance >>= fun _ => Pure.pure ()
      else if r.current.kind = .eof || closesBlock.contains r.current.kind then Pure.pure ()
      else Grammar.fail .terminator : Parse Unit) r = _
    split_ifs <;> rfl
  rw [hnext]
  split_ifs
  · simpa [MissesNothing] using hr.missesNothing
  · exact hr.missesNothing
  · exact hr.missesNothing.record hr.kind_ne_eof

section Statements

variable {expr : Parse Expr} (limit : Nat) (h : Leads InLine InLine expr)
include h

theorem values : Leads InLine InLine (Grammar.commaSeparated limit (fun _ => Pure.pure ()) expr) :=
  commaSeparated (fun _ => .pure ()) h limit

theorem parallelAssignment : Leads InLine MissesNothing (parallelAssignment limit expr) := by
  have hname : Leads InLine InLine (Grammar.expect .identifier .variableName) := by
    simpa using expect_bind rfl .variableName (f := Pure.pure) fun t _ => .pure t
  refine (commaSeparated (fun _ => .pure ()) hname limit).bind fun names => ?_
  refine expect_bind rfl _ fun sign hsign => (values limit h).bind fun values => ?_
  split
  · exact terminator.bind fun _ => .pure _
  · exact throw (Kind.ne_eof_of_isWord hsign)

theorem expressionStatement : Leads InLine MissesNothing (expressionStatement limit expr) :=
  (values limit h).bind fun _ => terminator.bind fun _ => .pure _

theorem printStatement (hk : k.isWord) :
    Leads (At k) MissesNothing (printStatement limit expr) := by
  refine advance_bind hk fun keyword _ => atTerminator.bind fun stops => ?_
  split
  · exact terminator.bind fun _ => .pure _
  · exact (values limit h).bind fun _ => terminator.bind fun _ => .pure _

theorem returnStatement (hk : k.isWord) : Leads (At k) MissesNothing (returnStatement expr) := by
  refine advance_bind hk fun keyword _ => atTerminator.bind fun stops => ?_
  split
  · exact terminator.bind fun _ => .pure _
  · rw [map_eq_pure_bind, bind_assoc]
    exact h.bind fun _ => terminator.bind fun _ => .pure _

omit h in
theorem jump (hk : k.isWord) (jump : Token → Stmt) :
    Leads (At k) MissesNothing (do
      let keyword ← advance
      Grammar.terminator
      return jump keyword) :=
  advance_bind hk fun _ _ => terminator.bind fun _ => .pure _

theorem statementWith (stmt : Parse Stmt) :
    Leads (fun r => r.InLine ∧ r.current.kind ∉ blockOpeners) MissesNothing
      (statementWith limit expr stmt) := by
  have hlook : Leads (fun r => r.InLine ∧ r.current.kind ∉ blockOpeners)
      (fun r => r.InLine ∧ r.current.kind ∉ blockOpeners) atParallelAssignment :=
    fun _ hr => hr
  refine hlook.bind fun parallel => ?_
  split
  · exact (parallelAssignment limit h).of_pre fun r hr => hr.1
  · refine kind_bind_of (p := (· ∉ blockOpeners)) fun k hk => ?_
    split
    · exact absurd (by decide) hk
    · exact absurd (by decide) hk
    · exact absurd (by decide) hk
    · exact printStatement limit h rfl
    · exact printStatement limit h rfl
    · exact absurd (by decide) hk
    · exact absurd (by decide) hk
    · exact absurd (by decide) hk
    · exact returnStatement h rfl
    · exact jump rfl _
    · exact jump rfl _
    · exact absurd (by decide) hk
    · exact absurd (by decide) hk
    · exact absurd (by decide) hk
    · exact inLine (expressionStatement limit h)

end Statements

theorem statement (limit : Nat) :
    Leads (fun r => r.InLine ∧ r.current.kind ∉ blockOpeners) MissesNothing
      (Grammar.statement limit) := by
  cases limit with
  | zero => exact (Leads.fail _).of_pre fun r hr => hr.1
  | succ limit => exact statementWith (limit + 1) (expression (limit + 1)) _

end Leads

/-! ## Programs -/

section Programs

open Pairing

variable {front us : List Token} {last : Token} {r r' : Reading} {depth limit : Nat}

def Reading.StandsIn (front : List Token) (last : Token) (r : Reading) : Prop :=
  ∃ us, us <:+ front ∧ r.tokens = us ++ [last]

theorem Reading.StandsIn.extends (hlast : last.kind = .eof) (h : r.StandsIn front last)
    (hext : r.Extends r') : r'.StandsIn front last := by
  obtain ⟨us, hus, htokens⟩ := h
  obtain ⟨ts, hts, hends⟩ := hext.tokens
  obtain ⟨vs, rfl, hvs⟩ := exists_prefix hends hlast (htokens.symm.trans hts)
  exact ⟨vs, (List.suffix_append ts vs).trans hus, hvs⟩

theorem Reading.StandsIn.inLine (hlast : last.kind = .eof)
    (hfront : ∀ t ∈ front, t.kind ≠ .eof)
    (hborder : front = [] ∨ ∃ t, front.getLast? = some t ∧ t.kind.isSeparator)
    (h : r.StandsIn front last) (hkind : r.current.kind ≠ .eof) (hr : r.MissesNothing) :
    r.InLine ∧ r.current ∈ front := by
  obtain ⟨us, hus, htokens⟩ := h
  obtain ⟨u, us, rfl⟩ : ∃ u vs, us = u :: vs := by
    cases us with
    | nil => exact absurd ((List.cons.inj htokens).1 ▸ hlast) hkind
    | cons u us => exact ⟨u, us, rfl⟩
  have hcurrent : r.current = u := (List.cons.inj htokens).1
  obtain ⟨sep, hsep, hkindsep⟩ := hborder.resolve_left fun hnil => by
    rw [hnil, List.suffix_nil] at hus
    cases hus
  obtain ⟨vs, hvs⟩ : ∃ vs, u :: us = vs ++ [sep] := by
    obtain ⟨ws, rfl⟩ := hus
    rw [List.getLast?_append_of_ne_nil _ (List.cons_ne_nil u us)] at hsep
    exact ⟨_, (List.dropLast_append_getLast? sep hsep).symm⟩
  refine ⟨⟨⟨vs, sep, [last], ?_, fun t ht => ?_, hkindsep⟩, hr⟩, ?_⟩
  · rw [htokens, hvs, List.append_assoc]
    rfl
  · exact hfront t (hus.subset (hvs ▸ List.mem_append_left _ ht))
  · exact hcurrent ▸ hus.subset List.mem_cons_self

/-- A program without blocks that ends with a separator misses nothing at its end mark. -/
theorem missesNothing_of_program (hlast : last.kind = .eof)
    (hfront : ∀ t ∈ front, t.kind ≠ .eof ∧ t.kind ∉ blockOpeners)
    (hborder : front = [] ∨ ∃ t, front.getLast? = some t ∧ t.kind.isSeparator)
    {read : Array Stmt} {statements : List Stmt} (hr : r.StandsIn front last)
    (hmisses : r.MissesNothing)
    (h : rounds (programRound (statement depth)) limit read r = .ok statements r') :
    r'.MissesNothing := by
  induction limit generalizing read r with
  | zero => cases h
  | succ limit ih =>
      have hskip := hr.extends hlast (.skipSeparators r)
      by_cases hkind : r.skipSeparators.current.kind = .eof
      · rw [rounds, bind_ok (programRound_done hkind)] at h
        cases h
        exact hmisses
      · obtain ⟨hline, hmem⟩ := hskip.inLine hlast (fun t ht => (hfront t ht).1) hborder hkind
          hmisses
        obtain ⟨s, r₁, hs⟩ := exists_declaration (statement depth) r.skipSeparators
        obtain ⟨read₁, hkeep, -⟩ := exists_keepRead (g := id) (f := id) (fun _ _ => rfl) read s
        have hround : programRound (statement depth) read r = .ok (.again read₁) r₁ := by
          rw [programRound_again hkind, bind_ok hs, hkeep]
        rw [rounds, bind_ok hround] at h
        refine ih (hskip.extends hlast (Advances.of_ok hs)) ?_ h
        have hstmt := Leads.statement depth r.skipSeparators ⟨hline, (hfront _ hmem).2⟩
        unfold declaration at hs
        cases hresult : statement depth r.skipSeparators with
        | ok s r₂ =>
            rw [hresult] at hs hstmt
            cases hs
            exact hstmt
        | error e r₂ =>
            rw [hresult] at hs hstmt
            cases hs
            rw [MissesNothing, errors_recover]
            exact hstmt

theorem kind_of_mem_errors (hlast : last.kind = .eof)
    (hfront : ∀ t ∈ front, t.kind ≠ .eof ∧ t.kind ∉ blockOpeners)
    (hborder : front = [] ∨ ∃ t, front.getLast? = some t ∧ t.kind.isSeparator) :
    ∀ e ∈ (parse (front ++ [last])).errors, e.token.kind ≠ .eof := by
  have hend : ∃ t ∈ front ++ [last], t.kind = .eof := ⟨last, by simp, hlast⟩
  obtain ⟨⟨statements, final, hread, hparse, -⟩, -⟩ := parse_total hend
  obtain ⟨r, hr, hnone⟩ := exists_reading (show front ++ [last] ≠ [] by simp) #[]
  have hprogram := hread r hr hnone (firstEnd (front ++ [last]) + 1) (Nat.lt_succ_self _)
  rw [program_eq] at hprogram
  have hnothing : r.MissesNothing := by simp [MissesNothing, hnone]
  rw [hparse]
  exact missesNothing_of_program hlast hfront hborder ⟨front, List.suffix_refl _, hr⟩ hnothing
    hprogram

end Programs

end Scriptlet.Grammar
