import Scriptlet.Proofs.Grammar.OneLine
import Scriptlet.Proofs.Grammar.StmtComplete

/-!
# Errors inside of blocks

The lines of a block are read like the lines of a program, and a line that is dropped costs nothing
but itself: recovery stops at the end of the line at the latest, so it never takes the word that
closes the block.
-/

namespace Scriptlet.Grammar

open Pairing

variable {limit depth : Nat} {stmt : Parse Stmt} {closers : KindSet} {opener close last : Token}
variable {r r' : Reading} {read : Array Stmt} {front rest after : List Token}

/-! ## Rounds of blocks and of programs -/

theorem blockRound_done (h : closers.contains r.skipSeparators.current.kind) :
    blockRound stmt closers opener read r = .ok (.done read.toList) r.skipSeparators := by
  change (currentKind >>= fun k => if closers.contains k then pure (.done read.toList)
    else if k = .eof then fail (.unclosed closers opener.lexeme opener.line)
    else declaration stmt >>= keepRead read : Parse _) r.skipSeparators = _
  rw [currentKind_bind, if_pos h]
  rfl

theorem blockRound_eq (h : ¬closers.contains r.skipSeparators.current.kind)
    (hkind : r.skipSeparators.current.kind ≠ .eof) :
    blockRound stmt closers opener read r = programRound stmt read r := by
  rw [programRound_again hkind]
  change (currentKind >>= fun k => if closers.contains k then pure (.done read.toList)
    else if k = .eof then fail (.unclosed closers opener.lexeme opener.line)
    else declaration stmt >>= keepRead read : Parse _) r.skipSeparators = _
  rw [currentKind_bind, if_neg h, if_neg hkind]

theorem skipSeparators_of_not (h : ¬r.current.kind.isSeparator) : r.skipSeparators = r := by
  rw [Reading.skipSeparators, pastSeparators_of_not _ h]

theorem block_eq_of_skipSeparators (h : r.skipSeparators = r'.skipSeparators) (hlimit : 0 < limit) :
    block limit stmt closers opener r = block limit stmt closers opener r' := by
  obtain ⟨limit, rfl⟩ := Nat.exists_eq_add_of_le' hlimit
  have hround : blockRound stmt closers opener #[] r = blockRound stmt closers opener #[] r' := by
    change _ = (currentKind >>= fun k => if closers.contains k then pure (.done #[].toList)
      else if k = .eof then fail (.unclosed closers opener.lexeme opener.line)
      else declaration stmt >>= keepRead #[] : Parse _) r'.skipSeparators
    rw [← h]
    rfl
  simp only [block_eq, rounds, Bind.bind, EStateM.bind, hround]

theorem tokens_of_programRound [Advances stmt] [Takes stmt] {read₁ : Array Stmt} {r₁ : Reading}
    (h : programRound stmt read r = .ok (.again read₁) r₁) (hlength : 1 < r₁.tokens.length) :
    r.skipSeparators.current.kind ≠ .eof ∧
      ∃ ts, r.tokens = ts ++ r₁.tokens ∧ r.skipSeparators.current ∈ ts := by
  have hkind : r.skipSeparators.current.kind ≠ .eof := by
    intro hkind
    rw [programRound_done hkind] at h
    cases h
  rw [programRound_again hkind] at h
  have htakes := Takes.extends_of_ok h
  obtain ⟨seps, hseps, -⟩ := (Reading.Extends.skipSeparators r).tokens
  refine ⟨hkind, ?_⟩
  generalize r.skipSeparators = r₂ at htakes hseps hkind
  obtain ⟨current, ahead, errors⟩ := r₂
  obtain ⟨ts, hts, -⟩ := htakes.tokens
  have hahead : ahead ≠ [] := by
    rintro rfl
    have hlast : (Reading.advance ⟨current, [], errors⟩).tokens.length = 1 := by
      unfold Reading.advance
      split <;> simp_all [Reading.tokens]
    rw [hts, List.length_append] at hlast
    omega
  rw [Reading.tokens_advance hkind hahead] at hts
  refine ⟨seps ++ current :: ts, ?_, by simp⟩
  rw [hseps, Reading.tokens, hts]
  simp

/-! ## The lines of a block -/

/-- From the reading on, the rounds of a block come to these statements, unless the word that closes
the block stands somewhere before the border. -/
def ReachesBorder (P : Pairing) (stmt : Parse Stmt) (opener : Token) (limit : Nat)
    (read : Array Stmt) (r : Reading) (statements : List Stmt) (final : Reading) : Prop :=
  ∃ us start, r.tokens = us ++ P.after ∧ start.tokens = P.after ∧ P.SameErrors final start ∧
    ((∀ t ∈ us, t.kind ≠ .kwEnd) →
      rounds (blockRound stmt closesBody opener) limit read r = .ok statements start)

theorem closesBody_contains_iff {k : Kind} : closesBody.contains k ↔ k = .kwEnd := by
  simp [closesBody, KindSet.ofList]

theorem reachesBorder_of_skipSeparators {P : Pairing} {final start : Reading}
    (hclose : ∃ rest, P.after = close :: rest ∧ close.kind = .kwEnd) (hlimit : 0 < limit)
    (htokens : start.tokens = P.after) (hskip : start.skipSeparators = r.skipSeparators)
    (hsame : P.SameErrors final start) :
    ReachesBorder P stmt opener limit read r read.toList final := by
  obtain ⟨limit, rfl⟩ := Nat.exists_eq_add_of_le' hlimit
  obtain ⟨rest, hafter, hkind⟩ := hclose
  have hcurrent : start.current.kind = .kwEnd := by
    rwa [(List.cons.inj (htokens.trans hafter)).1]
  rw [skipSeparators_of_not (by rw [hcurrent]; decide)] at hskip
  obtain ⟨us, hus, -⟩ := (Reading.Extends.skipSeparators r).tokens
  rw [← hskip, htokens] at hus
  refine ⟨us, _, hus, htokens, hsame, fun _ => ?_⟩
  have hdone : blockRound stmt closesBody opener read r =
      .ok (.done read.toList) r.skipSeparators :=
    blockRound_done (closesBody_contains_iff.mpr (hskip ▸ hcurrent))
  rw [rounds, bind_ok hdone, hskip]
  rfl

theorem ReachesBorder.again [Advances stmt] [Takes stmt] {P : Pairing} {read₁ : Array Stmt}
    {r₁ final : Reading} {statements : List Stmt} (hlength : 1 < P.after.length)
    (hround : programRound stmt read r = .ok (.again read₁) r₁)
    (h : ReachesBorder P stmt opener limit read₁ r₁ statements final) :
    ReachesBorder P stmt opener (limit + 1) read r statements final := by
  obtain ⟨us, start, hus, hstart, hsame, hrounds⟩ := h
  have hlong : 1 < r₁.tokens.length := by
    rw [hus, List.length_append]
    omega
  obtain ⟨hkind, ts, hts, hmem⟩ := tokens_of_programRound hround hlong
  refine ⟨ts ++ us, start, by rw [hts, hus, List.append_assoc], hstart, hsame, fun hwords => ?_⟩
  rw [List.forall_mem_append] at hwords
  have hopen : ¬closesBody.contains r.skipSeparators.current.kind := fun hcloses =>
    hwords.1 _ hmem (closesBody_contains_iff.mp hcloses)
  have hagain : blockRound stmt closesBody opener read r = .ok (.again read₁) r₁ :=
    (blockRound_eq hopen hkind).trans hround
  rw [rounds, bind_ok hagain, ← hrounds hwords.2]

/-- The lines of a block are read as a program of their own is. -/
theorem block_followed (opener : Token) (hlast : last.kind = .eof)
    (hclose : close.kind = .kwEnd) (hrest : rest ≠ [])
    (hfront : ∀ t ∈ front, t.kind ≠ .eof ∧ t.kind ∉ blockOpeners)
    (hwords : ∀ t ∈ front, t.kind ≠ .kwEnd)
    (hborder : front = [] ∨ ∃ t, front.getLast? = some t ∧ t.kind.isSeparator)
    (htokens : r.tokens = front ++ close :: rest) (herrors : r.errors = #[])
    (hlimit : front.length < limit) (hdepth : front.length < depth) :
    ∃ start, block limit (innerStatement limit depth) closesBody opener r =
        .ok (parse (front ++ [last])).statements start ∧
      start.tokens = close :: rest ∧
      start.errors.toList = (parse (front ++ [last])).errors := by
  obtain ⟨r₀, htokens₀, herrors₀⟩ := exists_reading (show front ++ [last] ≠ [] by simp) #[]
  have hafter : close :: rest ≠ [] := List.cons_ne_nil _ _
  have hlength : r₀.tokens.length = front.length + 1 := by
    rw [htokens₀]
    simp
  have hstart : (followed last (close :: rest) hlast hafter).Between (front.length + 1) r₀ r := by
    have hsame : (followed last (close :: rest) hlast hafter).SameErrors r₀ r :=
      ⟨[], by simp [herrors, followed], by simp [herrors₀]⟩
    have hbound : r₀.tokens.length ≤ front.length + 1 + 0 := Nat.le_of_eq hlength
    rcases hborder with rfl | hborder
    · exact .inr ⟨trivial, htokens₀, htokens, hsame, hbound⟩
    · refine .inl ⟨?_, hsame, hbound⟩
      rw [htokens₀, htokens]
      exact abreast_followed (fun t ht => (hfront t ht).1) hborder
  have hlost : ¬(followed last (close :: rest) hlast hafter).LostIn
      (rounds (programRound (statement (r₀.tokens.length + 1))) (r₀.tokens.length + 1) #[] r₀) := by
    intro h
    obtain ⟨e, he, -, htoken⟩ := exists_lost_of_program herrors₀ h
    rw [htokens₀] at he
    exact kind_of_mem_errors hlast hfront hborder e he (htoken ▸ hlast)
  have hstmt : (followed last (close :: rest) hlast hafter).AgreeTo
      (followed last (close :: rest) hlast hafter).Between (Stmt.renumber id) (front.length + 1)
      (statement (r₀.tokens.length + 1)) (innerStatement limit depth) :=
    .innerStatement (by omega) (by omega) (by omega) (by omega)
  have hprogram := program_rounds (d := 0) (g := id)
    (R := ReachesBorder (followed last (close :: rest) hlast hafter) (innerStatement limit depth)
      opener) (fun read s => by simp [followed]) ?done ?again
    (Nat.le_succ_of_le (Nat.le_of_eq hlength.symm)) hlimit hstmt #[] hstart
  · obtain ⟨statements, final, hrounds, us, start, hus, hstarted, hsame, hblock⟩ :=
      hprogram.resolve_left hlost
    obtain rfl : us = front := List.append_cancel_right (hus.symm.trans htokens)
    have hfinal := hsame.errors_eq fun {_ t'} h => (h : t' = _)
    have hparse := parse_of_program herrors₀ hrounds
    rw [htokens₀] at hparse
    rw [hparse]
    exact ⟨start, hblock hwords, hstarted, by simpa [followed] using hfinal⟩
  case done =>
    intro m limit' read r₁ r₂ hr hkind hpos
    obtain ⟨-, -, start, hstarted, hsame, hskip⟩ :=
      hr.skipSeparators.resolve_left fun h => h.tokens.kind_ne_eof trivial hkind
    refine reachesBorder_of_skipSeparators ⟨rest, rfl, hclose⟩ hpos hstarted hskip ?_
    have herrors : (followed last (close :: rest) hlast hafter).SameErrors r₁ r₂ := by
      rcases hr with h | h <;> exact h.errors
    rwa [SameErrors, hsame]
  case again =>
    intro limit' read read₁ r₁ r₂ statements final hround h
    refine h.again ?_ hround
    have hpos := List.length_pos_iff.mpr hrest
    change 1 < (close :: rest).length
    rw [List.length_cons]
    omega

/-! ## Openers -/

inductive Opens : List Token → (List Stmt → Stmt) → Prop where
  | define {keyword name : Token} (hkeyword : keyword.kind = .kwDef)
      (hname : name.kind = .identifier) : Opens [keyword, name] (.define name [])
  | block {keyword : Token} (hkeyword : keyword.kind = .kwBegin) : Opens [keyword] .block
  | loopDo {keyword word : Token} (hkeyword : keyword.kind = .kwLoop) (hword : word.kind = .kwDo) :
      Opens [keyword, word] .loopDo
  | whileDo {keyword name : Token} (hkeyword : keyword.kind = .kwWhile)
      (hname : name.kind = .identifier) : Opens [keyword, name] (.whileDo (.var name))

variable {sep : Token} {ts : List Token} {around : List Stmt → Stmt}

theorem skipSeparators_before (hsep : sep.kind.isSeparator) (r : Reading) :
    (r.before [sep]).skipSeparators = r.skipSeparators := by
  simp [Reading.before, Reading.skipSeparators, Reading.tokens, Reading.pastSeparators, hsep]

theorem statementWith_of_keyword {expr : Parse Expr} {keyword : Token} {k : Kind}
    (hkeyword : keyword.kind = k) (hk : k ≠ .identifier) (hr : r.Closed) (ts : List Token) :
    statementWith limit expr stmt (r.before (keyword :: ts)) =
      form limit expr stmt k (r.before (keyword :: ts)) := by
  have hparallel : startsParallel (r.before (keyword :: ts)).tokens = false := by
    simp [startsParallel, hkeyword, hk]
  have hlook := (reads_atParallelAssignment (hr.before (keyword :: ts))).result
  rw [hparallel] at hlook
  rw [statementWith_eq, bind_ok hlook]
  change (currentKind >>= form limit expr stmt) _ = _
  rw [currentKind_bind, Reading.current_before_cons, hkeyword]

theorem reads_no_parameters (hlimit : 0 < limit) (hr : r.Closed)
    (hkind : r.current.kind ≠ .identifier) : Reads (parameters limit) r [] r := by
  rw [parameters_eq]
  refine Reads.rounds_done hlimit ((Reads.currentKind hr).bind ?_) hr
  rw [if_neg hkind]
  exact .pure hr

theorem derives_name {name : Token} (hname : name.kind = .identifier) :
    Derives .assignment [name] (.var name) := by
  iterate 10 refine .tighter (by decide) ?_
  exact .name hname

theorem Opens.statementWith_eq (h : Opens ts around) (stmt : Parse Stmt) (hlimit : 0 < limit)
    (hr : r.Closed) (hsep : r.current.kind.isSeparator) :
    ∃ keyword construct, statementWith limit (expression limit) stmt (r.before ts) =
      (closedBody limit stmt keyword construct >>= fun body => pure (around body)) r := by
  have hother : ∀ {k : Kind}, ¬k.isSeparator → r.current.kind ≠ k := by
    rintro k hk rfl
    exact hk hsep
  cases h with
  | @define keyword name hkeyword hname =>
      refine ⟨keyword, .functionBody, ?_⟩
      rw [statementWith_of_keyword hkeyword (by decide) hr]
      change definition limit stmt _ = _
      rw [definition, bind_ok (Reads.advance hr (by rw [hkeyword]; decide)).result,
        bind_ok (Reads.expect hr hname (by decide)).result]
      change (eat .leftParen >>= _) r = _
      rw [bind_ok (Reads.eat_other hr (hother (by decide))).result]
      rw [bind_ok (reads_no_parameters hlimit hr (hother (by decide))).result]
      rfl
  | @block keyword hkeyword =>
      refine ⟨keyword, .block, ?_⟩
      rw [statementWith_of_keyword hkeyword (by decide) hr]
      change beginBlock limit stmt _ = _
      rw [beginBlock, bind_ok (Reads.advance hr (by rw [hkeyword]; decide)).result]
      rfl
  | @loopDo keyword word hkeyword hword =>
      refine ⟨keyword, .loopBody, ?_⟩
      rw [statementWith_of_keyword hkeyword (by decide) hr]
      change loopStatement limit stmt _ = _
      rw [loopStatement, bind_ok (Reads.advance hr (by rw [hkeyword]; decide)).result,
        bind_ok (Reads.expect hr hword (by decide)).result]
      rfl
  | @whileDo keyword name hkeyword hname =>
      refine ⟨keyword, .loopBody, ?_⟩
      have hstop : Precedence.assignment.continues r.current.kind = false := by
        rw [Kind.isSeparator_iff] at hsep
        rcases hsep with h | h <;> rw [h] <;> rfl
      rw [statementWith_of_keyword hkeyword (by decide) hr]
      change conditionalLoop limit (expression limit) stmt _ = _
      rw [conditionalLoop, bind_ok (Reads.advance hr (by rw [hkeyword]; decide)).result,
        bind_ok ((derives_name hname).reads_expression hlimit hr hstop).result]
      rw [bind_ok (Reads.eat_other hr (hother (by decide))).result]
      simp only [hkeyword, if_true]

/-! ## Whole statements -/

section Blocks

variable (hlast : last.kind = .eof) (hclose : close.kind = .kwEnd) (hrest : rest ≠ [])
variable (hfront : ∀ t ∈ front, t.kind ≠ .eof ∧ t.kind ∉ blockOpeners)
variable (hwords : ∀ t ∈ front, t.kind ≠ .kwEnd)
variable (hborder : front = [] ∨ ∃ t, front.getLast? = some t ∧ t.kind.isSeparator)
include hlast hclose hrest hfront hwords hborder

theorem closedBody_followed (opener : Token) (construct : Construct)
    (hsep : sep.kind.isSeparator) (htokens : r.tokens = front ++ close :: rest)
    (herrors : r.errors = #[]) (hlimit : front.length < limit) (hdepth : front.length < depth) :
    ∃ start, closedBody limit (innerStatement limit depth) opener construct (r.before [sep]) =
        .ok (parse (front ++ [last])).statements start ∧
      start.tokens = rest ∧ start.errors.toList = (parse (front ++ [last])).errors := by
  obtain ⟨start, hblock, hstart, hsame⟩ := block_followed opener hlast hclose hrest
    hfront hwords hborder htokens herrors hlimit hdepth
  rw [← block_eq_of_skipSeparators (skipSeparators_before hsep r) (Nat.zero_lt_of_lt hlimit)]
    at hblock
  have hkind : start.current.kind = .kwEnd := by
    rwa [(List.cons.inj hstart).1]
  refine ⟨start.advance, ?_, ?_, by simpa using hsame⟩
  · rw [closedBody, bind_ok hblock, bind_ok (expect_of_eq hkind)]
    rfl
  · obtain ⟨current, ahead, errors⟩ := start
    obtain ⟨rfl, rfl⟩ := List.cons.inj hstart
    exact Reading.tokens_advance (by simp_all) hrest

variable (hopens : Opens ts around)
include hopens

theorem statement_followed (hsep : sep.kind.isSeparator)
    (htokens : r.tokens = front ++ close :: rest) (herrors : r.errors = #[]) (hr : r.Closed)
    (hlimit : front.length + 1 < limit) :
    ∃ start, statement limit (r.before (ts ++ [sep])) =
        .ok (around (parse (front ++ [last])).statements) start ∧
      start.tokens = rest ∧ start.errors.toList = (parse (front ++ [last])).errors := by
  obtain ⟨limit, rfl⟩ := Nat.exists_eq_add_of_le' (Nat.zero_lt_of_lt hlimit)
  obtain ⟨keyword, construct, hstatement⟩ := hopens.statementWith_eq
    (innerStatement (limit + 1) limit) (Nat.succ_pos limit) (hr.before [sep]) hsep
  obtain ⟨start, hbody, hstart, hsame⟩ := closedBody_followed hlast hclose hrest hfront hwords
    hborder keyword construct hsep htokens herrors (Nat.lt_of_succ_lt hlimit)
    (Nat.lt_of_succ_lt_succ hlimit)
  refine ⟨start, ?_, hstart, hsame⟩
  rw [Reading.before_append]
  exact hstatement.trans (bind_ok hbody)

end Blocks

theorem Opens.exists_head (h : Opens ts around) :
    ∃ t us, ts = t :: us ∧ t.kind ∈ blockOpeners := by
  cases h with
  | define hkeyword _ => exact ⟨_, _, rfl, hkeyword ▸ by decide⟩
  | block hkeyword => exact ⟨_, _, rfl, hkeyword ▸ by decide⟩
  | loopDo hkeyword _ => exact ⟨_, _, rfl, hkeyword ▸ by decide⟩
  | whileDo hkeyword _ => exact ⟨_, _, rfl, hkeyword ▸ by decide⟩

theorem rounds_programRound_of_statement {s : Stmt} {start : Reading}
    (hsep : ¬r.current.kind.isSeparator) (hkind : r.current.kind ≠ .eof)
    (h : stmt r = .ok s start) (read : Array Stmt) :
    rounds (programRound stmt) (limit + 1) read r =
      rounds (programRound stmt) limit (read.push s) start := by
  have hskip := skipSeparators_of_not hsep
  have hdeclaration : declaration stmt r = .ok (some s) start := by
    simp [declaration, h]
  have hround : programRound stmt read r = .ok (.again (read.push s)) start := by
    rw [programRound_again (by rwa [hskip]), hskip, bind_ok hdeclaration]
    rfl
  rw [rounds, bind_ok hround]

theorem program_after (hsep : sep.kind.isSeparator) {tokens : List Token}
    (hend : ∃ t ∈ tokens, t.kind = .eof) (htokens : r.tokens = sep :: tokens)
    (hdepth : tokens.length < depth) (hlimit : tokens.length < limit) (read : Array Stmt) :
    ∃ final, rounds (programRound (statement depth)) limit read r =
        .ok (read.toList ++ (parse tokens).statements) final ∧
      final.errors.toList = r.errors.toList ++ (parse tokens).errors := by
  obtain ⟨us, last, rest, rfl, hlast, hus⟩ := exists_first_end hend
  obtain ⟨start, hstart, hsame⟩ := exists_reading (show us ++ last :: rest ≠ [] by simp) r.errors
  obtain ⟨r₁, hr₁, hnone⟩ := exists_reading (show us ++ last :: rest ≠ [] by simp) #[]
  obtain rfl : r = start.before [sep] :=
    Reading.eq_before (by rw [htokens, hstart]; rfl) hsame.symm
  have hlength : us.length < (us ++ last :: rest).length := by
    rw [List.length_append, List.length_cons]
    omega
  obtain ⟨statements, final, hrounds, final', hrounds', herrors⟩ := program_moved id hus hlast hr₁
    (show start.tokens = _ by rw [hstart, hr₁]; simp) hnone
    (Nat.lt_succ_of_lt hlength) (Nat.lt_trans hlength hdepth) (Nat.lt_succ_of_lt hlength)
    (Nat.lt_trans hlength hlimit) read
  rw [← hr₁, parse_of_program hnone (by rwa [hr₁])]
  obtain ⟨limit, rfl⟩ := Nat.exists_eq_add_of_le' (Nat.zero_lt_of_lt hlimit)
  refine ⟨final', ?_, by simpa using herrors⟩
  rw [rounds_programRound_eq read (skipSeparators_before hsep start), hrounds']
  simp

/-- A block is read whole, whatever stands in its lines, as long as no other blocks are opened in
them and it is not closed there.  Its body and the errors in it are those of the lines as a program
of their own, and the rest of the program is read as if it stood alone. -/
theorem parse_block_recovers {lines after : List Token} {opened sep closed : Token}
    (hopens : Opens ts around) (hopened : opened.kind.isSeparator) (hsep : sep.kind.isSeparator)
    (hclosed : closed.kind.isSeparator) (hclose : close.kind = .kwEnd) (hlast : last.kind = .eof)
    (hlines : ∀ t ∈ lines, t.kind ≠ .eof ∧ t.kind ∉ blockOpeners ∧ t.kind ≠ .kwEnd)
    (hafter : ∃ t, after.getLast? = some t ∧ t.kind = .eof) :
    parse (ts ++ opened :: lines ++ sep :: close :: closed :: after) =
      ⟨around (parse (lines ++ [sep, last])).statements :: (parse after).statements,
        (parse (lines ++ [sep, last])).errors ++ (parse after).errors⟩ := by
  obtain ⟨mark, hmark, hkind⟩ := hafter
  have hne : lines ++ [sep] ++ close :: closed :: after ≠ [] := by simp
  obtain ⟨r, hr, herrors⟩ := exists_reading hne #[]
  have hcloses : r.Closed := by
    refine ⟨mark, ?_, hkind⟩
    rw [hr]
    simp [List.getLast?_append, List.getLast?_cons, hmark]
  have hfront : ∀ t ∈ lines ++ [sep],
      t.kind ≠ .eof ∧ t.kind ∉ blockOpeners ∧ t.kind ≠ .kwEnd := by
    rw [List.forall_mem_append, List.forall_mem_singleton]
    refine ⟨hlines, ?_⟩
    rcases Kind.isSeparator_iff.mp hsep with h | h <;> rw [h] <;> decide
  obtain ⟨whole, hwhole⟩ : ∃ whole, whole = r.before (ts ++ [opened]) := ⟨_, rfl⟩
  have htokens : whole.tokens = ts ++ opened :: lines ++ sep :: close :: closed :: after := by
    rw [hwhole, Reading.tokens_before, hr]
    simp
  have hlength := congrArg List.length htokens
  simp only [List.length_append, List.length_cons] at hlength
  have hroom : (lines ++ [sep]).length + 1 < whole.tokens.length + 1 := by
    rw [List.length_append, List.length_singleton]
    omega
  obtain ⟨start, hstatement, hstart, hsame⟩ := statement_followed hlast hclose
    (List.cons_ne_nil closed after) (fun t ht => ⟨(hfront t ht).1, (hfront t ht).2.1⟩)
    (fun t ht => (hfront t ht).2.2) (.inr ⟨sep, by simp, hsep⟩) hopens hopened hr herrors hcloses
    hroom
  rw [← hwhole] at hstatement
  have hleft : after.length < whole.tokens.length := by omega
  obtain ⟨final, hrounds, hfinal⟩ := program_after hclosed
    ⟨mark, List.mem_of_getLast? hmark, hkind⟩ hstart (Nat.lt_succ_of_lt hleft) hleft
    #[around (parse (lines ++ [sep] ++ [last])).statements]
  have hkeyword : whole.current.kind ∈ blockOpeners := by
    obtain ⟨t, us, rfl, ht⟩ := hopens.exists_head
    rwa [hwhole]
  have hhead : ∀ k ∈ blockOpeners, ¬k.isSeparator ∧ k ≠ .eof := by decide
  have hprogram := (rounds_programRound_of_statement (hhead _ hkeyword).1 (hhead _ hkeyword).2
    hstatement #[]).trans hrounds
  rw [← htokens, parse_of_program (by rw [hwhole, Reading.errors_before, herrors]) hprogram]
  simp [hfinal, hsame]

/-- The parenthesis is dropped with its line, inside of the function. -/
theorem parse_block_recovers_parenthesis :
    let f : Token := ⟨.identifier, "f", none, 1⟩
    let lines : List Token :=
      [.mark .rightParen, .mark .newline, ⟨.identifier, "x", none, 2⟩]
    let after : List Token :=
      [⟨.identifier, "y", none, 4⟩, .mark .newline, .mark .plus, Token.eof 5]
    Opens [.mark .kwDef, f] (.define f []) ∧ (Token.mark .newline).kind.isSeparator ∧
      (Token.mark .kwEnd).kind = .kwEnd ∧ (Token.eof 3).kind = .eof ∧
      (∀ t ∈ lines, t.kind ≠ .eof ∧ t.kind ∉ blockOpeners ∧ t.kind ≠ .kwEnd) ∧
      (∃ t, after.getLast? = some t ∧ t.kind = .eof) ∧
      parse ([.mark .kwDef, f] ++ .mark .newline :: lines ++
          .mark .newline :: .mark .kwEnd :: .mark .newline :: after) =
        ⟨[.define f [] [.expr (.var ⟨.identifier, "x", none, 2⟩)],
            .expr (.var ⟨.identifier, "y", none, 4⟩)],
          [⟨.mark .rightParen, .expression⟩, ⟨.mark .plus, .expression⟩]⟩ := by
  intro f lines after
  have hopens : Opens [.mark .kwDef, f] (.define f []) := .define rfl rfl
  have hlines : ∀ t ∈ lines, t.kind ≠ .eof ∧ t.kind ∉ blockOpeners ∧ t.kind ≠ .kwEnd := by decide
  have hafter : ∃ t, after.getLast? = some t ∧ t.kind = .eof := ⟨Token.eof 5, rfl, rfl⟩
  have hbody : parse (lines ++ [.mark .newline, Token.eof 3]) =
      ⟨[.expr (.var ⟨.identifier, "x", none, 2⟩)], [⟨.mark .rightParen, .expression⟩]⟩ := rfl
  have hrest : parse after =
      ⟨[.expr (.var ⟨.identifier, "y", none, 4⟩)], [⟨.mark .plus, .expression⟩]⟩ := rfl
  have hparse : parse ([.mark .kwDef, f] ++ .mark .newline :: lines ++
      .mark .newline :: .mark .kwEnd :: .mark .newline :: after) =
      ⟨.define f [] (parse (lines ++ [.mark .newline, Token.eof 3])).statements ::
          (parse after).statements,
        (parse (lines ++ [.mark .newline, Token.eof 3])).errors ++ (parse after).errors⟩ :=
    parse_block_recovers hopens rfl rfl rfl rfl rfl hlines hafter
  rw [hbody, hrest] at hparse
  exact ⟨hopens, rfl, rfl, rfl, hlines, hafter, hparse⟩

end Scriptlet.Grammar
