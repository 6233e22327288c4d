import Scriptlet.Proofs.Grammar.Append
import Scriptlet.Proofs.Grammar.Progress

/-!
# Every list of tokens is read to its first end mark

Reading comes to an end on any tokens with an end mark among them, however malformed: no repetition
goes round and no construct is nested more often than there are tokens, so reading is never cut off.
It never stands behind where it stood, nor past the first end mark, and what follows that mark makes
no difference.
-/

namespace Scriptlet.Grammar

def firstEnd (tokens : List Token) : Nat :=
  tokens.findIdx (·.kind = .eof)

namespace Reading

def StandsAt (tokens : List Token) (i : Nat) (r : Reading) : Prop :=
  r.tokens = tokens.drop i

def Uncut (r : Reading) : Prop :=
  ∀ e ∈ r.errors.toList, e.cause ≠ .outOfFuel

theorem eq_of_tokens {r r' : Reading} (htokens : r.tokens = r'.tokens)
    (herrors : r.errors = r'.errors) : r = r' := by
  obtain ⟨current, ahead, errors⟩ := r
  obtain ⟨current', ahead', errors'⟩ := r'
  obtain ⟨rfl, rfl⟩ := List.cons.inj htokens
  exact congrArg _ herrors

end Reading

open Reading (StandsAt Uncut)

variable {us rest rest' tokens : List Token} {last : Token} {r r' : Reading} {i limit : Nat}

/-! ## Places -/

theorem firstEnd_append (hus : ∀ t ∈ us, t.kind ≠ .eof) (hlast : last.kind = .eof) :
    firstEnd (us ++ last :: rest) = us.length := by
  have hnone : us.findIdx (·.kind = .eof) = us.length :=
    List.findIdx_eq_length_of_false fun t ht => decide_eq_false (hus t ht)
  rw [firstEnd, List.findIdx_append, hnone, if_neg (Nat.lt_irrefl _), List.findIdx_cons]
  simp [hlast]

theorem length_lt_of_tokens (h : r.tokens = us ++ last :: rest) :
    us.length < r.tokens.length + 1 := by
  rw [h, List.length_append, List.length_cons]
  omega

theorem exists_prefix {ts left : List Token} (hts : ∀ t ∈ ts, t.kind ≠ .eof)
    (hlast : last.kind = .eof) (h : us ++ last :: rest = ts ++ left) :
    ∃ vs, us = ts ++ vs ∧ left = vs ++ last :: rest := by
  rcases List.append_eq_append_iff.mp h with ⟨vs, rfl, hvs⟩ | ⟨vs, rfl, hvs⟩
  · cases vs with
    | nil => exact ⟨[], by simp, by simpa using hvs.symm⟩
    | cons v vs =>
        obtain ⟨rfl, -⟩ := List.cons.inj hvs
        exact absurd hlast (hts last (by simp))
  · exact ⟨vs, rfl, hvs⟩

theorem standsAt_of_extends (hend : ∃ t ∈ tokens, t.kind = .eof) (hi : i ≤ firstEnd tokens)
    (hr : r.StandsAt tokens i) (hext : r.Extends r') :
    ∃ j, i ≤ j ∧ j ≤ firstEnd tokens ∧ r'.StandsAt tokens j := by
  obtain ⟨us, last, rest, rfl, hlast, hus⟩ := exists_first_end hend
  rw [firstEnd_append hus hlast] at hi ⊢
  obtain ⟨ts, hts, hends⟩ := hext.tokens
  rw [StandsAt, List.drop_append_of_le_length hi] at hr
  obtain ⟨vs, hvs, hleft⟩ := exists_prefix hends hlast (hr.symm.trans hts)
  have hlength : (us.drop i).length = ts.length + vs.length := by rw [hvs, List.length_append]
  rw [List.length_drop] at hlength
  refine ⟨i + ts.length, Nat.le_add_right _ _, by omega, ?_⟩
  rw [StandsAt, hleft, ← List.drop_drop, List.drop_append_of_le_length hi, hvs, List.append_assoc,
    List.drop_left]

/-! ## The same tokens up to the first end mark -/

namespace Pairing

variable {hlast : last.kind = .eof}

theorem sameErrors_shared (hr : r.Uncut) (herrors : r'.errors = r.errors) :
    (shared last rest rest' hlast).SameErrors r r' := by
  refine ⟨r.errors.toList, by rw [herrors]; rfl, List.forall₂_same.mpr fun e he => ?_⟩
  exact ⟨rfl, by rw [shared, Cause.renumber_id, id], hr e he⟩

theorem SameErrors.uncut {P : Pairing} (h : P.SameErrors r r') : r.Uncut := by
  obtain ⟨es, -, hsame⟩ := h
  have hboth : List.Forall₂ (fun e e' => e.cause ≠ .outOfFuel ∧ P.SameError e e')
      r.errors.toList es := hsame.imp fun e e' he => ⟨he.not_cut, he⟩
  exact ((List.forall₂_and_left _ _).mp hboth).1

theorem inside_shared (hus : ∀ t ∈ us, t.kind ≠ .eof) (htokens : r.tokens = us ++ last :: rest)
    (htokens' : r'.tokens = us ++ last :: rest') (hr : r.Uncut) (herrors : r'.errors = r.errors) :
    (shared last rest rest' hlast).Inside (us.length + 1) r r' := by
  refine ⟨?_, sameErrors_shared hr herrors, ?_⟩
  · rw [htokens, htokens']
    exact abreast_shared hus
  · rw [htokens, List.length_append, List.length_cons]
    change _ ≤ us.length + 1 + rest.length
    omega

end Pairing

open Pairing

/-- A program is read to its end, and the same with other tokens after the end mark. -/
theorem program_shared (hus : ∀ t ∈ us, t.kind ≠ .eof) (hlast : last.kind = .eof)
    (htokens : r.tokens = us ++ last :: rest) (htokens' : r'.tokens = us ++ last :: rest')
    (hr : r.errors = #[]) (hr' : r'.errors = #[]) {limit' : Nat} (hlimit : us.length < limit)
    (hlimit' : us.length < limit') :
    ∃ statements final final', program limit r = .ok statements final ∧
      program limit' r' = .ok statements final' ∧ final'.errors = final.errors ∧ final.Uncut := by
  have huncut : r.Uncut := by
    intro e he
    rw [hr] at he
    cases he
  have hinside : (shared last rest rest' hlast).Inside (us.length + 1) r r' :=
    inside_shared hus htokens htokens' huncut (hr'.trans hr.symm)
  obtain ⟨statements, final, hrounds, final', hrounds', hsame⟩ := program_together id
    (g := id) (h := id) (fun a s => by rw [shared, Stmt.renumber_id]; rfl) (fun a => rfl) hlimit
    hlimit' (.statement hlimit hlimit') #[] (.inl hinside)
  refine ⟨statements, final, final', hrounds, hrounds', ?_, hsame.uncut⟩
  have herrors := hsame.errors_eq id
  simpa [shared] using herrors

theorem kind_of_program {stmt : Parse Stmt} {read : Array Stmt} {statements : List Stmt}
    (h : rounds (programRound stmt) limit read r = .ok statements r') :
    r'.current.kind = .eof := by
  induction limit generalizing read r with
  | zero => cases h
  | succ limit ih =>
      by_cases hkind : r.skipSeparators.current.kind = .eof
      · rw [rounds, bind_ok (programRound_done hkind)] at h
        cases h
        exact hkind
      · obtain ⟨s, r₁, hs⟩ := exists_declaration stmt r.skipSeparators
        have hround : ∃ read₁, programRound stmt read r = .ok (.again read₁) r₁ := by
          rw [programRound_again hkind, bind_ok hs]
          cases s with
          | none => exact ⟨read, rfl⟩
          | some s => exact ⟨read.push s, rfl⟩
        obtain ⟨read₁, hround⟩ := hround
        rw [rounds, bind_ok hround] at h
        exact ih h

theorem eq_firstEnd (hend : ∃ t ∈ tokens, t.kind = .eof) (hi : i ≤ firstEnd tokens)
    (hr : r.StandsAt tokens i) (hkind : r.current.kind = .eof) : i = firstEnd tokens := by
  obtain ⟨us, last, rest, rfl, hlast, hus⟩ := exists_first_end hend
  rw [firstEnd_append hus hlast] at hi ⊢
  refine Nat.le_antisymm hi (Nat.le_of_not_lt fun hlt => ?_)
  rw [StandsAt, List.drop_append_of_le_length hi, List.drop_eq_getElem_cons hlt] at hr
  exact hus us[i] (List.getElem_mem hlt) ((List.cons.inj hr).1 ▸ hkind)

theorem declaration_progress (hend : ∃ t ∈ tokens, t.kind = .eof) (hi : i < firstEnd tokens)
    (hr : r.StandsAt tokens i) (stmt : Parse Stmt) [Advances stmt] [Takes stmt] :
    ∃ s r' j, declaration stmt r = .ok s r' ∧ i < j ∧ j ≤ firstEnd tokens ∧
      r'.StandsAt tokens j := by
  obtain ⟨s, r', hread⟩ := exists_declaration stmt r
  have hlength : firstEnd tokens < tokens.length :=
    List.findIdx_lt_length.mpr (by simpa using hend)
  obtain ⟨current, ahead, errors⟩ := r
  rw [StandsAt, List.drop_eq_getElem_cons (Nat.lt_trans hi hlength)] at hr
  obtain ⟨rfl, rfl⟩ := List.cons.inj hr
  have hkind : tokens[i].kind ≠ .eof := of_decide_eq_false (List.not_of_lt_findIdx hi)
  have hahead : tokens.drop (i + 1) ≠ [] := by
    rw [ne_eq, List.drop_eq_nil_iff]
    omega
  obtain ⟨j, hij, hj, hstands⟩ := standsAt_of_extends hend hi
    (Reading.tokens_advance hkind hahead) (Takes.extends_of_ok hread)
  exact ⟨s, r', j, hread, hij, hj, hstands⟩

/-- A program is read to the first end mark, with any limit that leaves room for its tokens. -/
theorem program_total (hend : ∃ t ∈ tokens, t.kind = .eof) :
    ∃ statements final, (∀ r : Reading, r.tokens = tokens → r.errors = #[] →
        ∀ limit, firstEnd tokens < limit → program limit r = .ok statements final) ∧
      final.StandsAt tokens (firstEnd tokens) ∧ final.Uncut := by
  obtain ⟨us, last, rest, rfl, hlast, hus⟩ := exists_first_end hend
  obtain ⟨start, hstart, hnone⟩ := exists_reading (List.append_ne_nil_of_right_ne_nil us
    (List.cons_ne_nil last rest)) #[]
  have hfirst : firstEnd (us ++ last :: rest) = us.length := firstEnd_append hus hlast
  have hplace : ∀ {limit r statements final}, r.tokens = us ++ last :: rest →
      program limit r = .ok statements final →
      final.StandsAt (us ++ last :: rest) (firstEnd (us ++ last :: rest)) := by
    intro limit r statements final hr hread
    obtain ⟨j, -, hj, hfinal⟩ := standsAt_of_extends hend (Nat.zero_le _) hr
      (Advances.of_ok hread)
    rwa [eq_firstEnd hend hj hfinal (kind_of_program hread)] at hfinal
  obtain ⟨statements, final, -, hread, -, -, huncut⟩ := program_shared hus hlast hstart hstart
    hnone hnone (Nat.lt_succ_self us.length) (Nat.lt_succ_self us.length)
  refine ⟨statements, final, fun r hr herrors limit hlimit => ?_, hplace hstart hread, huncut⟩
  rw [hfirst] at hlimit
  obtain ⟨statements', final', final'', hread', hread'', hsame, -⟩ := program_shared hus hlast
    hstart hr hnone herrors (Nat.lt_succ_self us.length) hlimit
  rw [hread] at hread'
  cases hread'
  rw [hread'', Reading.eq_of_tokens ((hplace hr hread'').trans (hplace hstart hread).symm) hsame]

theorem parse_shared (hus : ∀ t ∈ us, t.kind ≠ .eof) (hlast : last.kind = .eof)
    (rest rest' : List Token) : parse (us ++ last :: rest') = parse (us ++ last :: rest) := by
  have hne : ∀ rest, us ++ last :: rest ≠ [] := fun rest =>
    List.append_ne_nil_of_right_ne_nil us (List.cons_ne_nil last rest)
  obtain ⟨r, hr, hnone⟩ := exists_reading (hne rest) #[]
  obtain ⟨r', hr', hnone'⟩ := exists_reading (hne rest') #[]
  obtain ⟨statements, final, final', hread, hread', hsame, -⟩ := program_shared hus hlast hr hr'
    hnone hnone' (length_lt_of_tokens hr) (length_lt_of_tokens hr')
  rw [← hr, ← hr', parse_of_program hnone hread, parse_of_program hnone' hread', hsame]

/-- Tokens with an end mark among them are read to the first one, whatever they are.  Reading ends
there and is never cut off, with any limit that exceeds the number of tokens before the mark.  From
any token up to the mark no construct goes back or past the mark, however deeply it is nested; the
next statement takes at least one token, also where it is dropped; and what comes after the mark
changes neither the statements nor the errors. -/
theorem parse_total (hend : ∃ t ∈ tokens, t.kind = .eof) :
    (∃ statements final, (∀ r : Reading, r.tokens = tokens → r.errors = #[] →
        ∀ limit, firstEnd tokens < limit → program limit r = .ok statements final) ∧
      parse tokens = ⟨statements, final.errors.toList⟩ ∧
      final.StandsAt tokens (firstEnd tokens) ∧ final.Uncut) ∧
    (∀ limit depth i (r : Reading), r.StandsAt tokens i → i ≤ firstEnd tokens →
      ∀ closers opener,
        ∀ r' ∈ [r.advance, r.skipSeparators, r.recover startsStatement,
          after (innerExpression limit depth) r, after (innerStatement limit depth) r,
          after (declaration (innerStatement limit depth)) r,
          after (block limit (innerStatement limit depth) closers opener) r,
          after (program limit) r],
        ∃ j, i ≤ j ∧ j ≤ firstEnd tokens ∧ r'.StandsAt tokens j) ∧
    (∀ limit depth i (r : Reading), r.StandsAt tokens i → i < firstEnd tokens →
      ∃ s r' j, declaration (innerStatement limit depth) r = .ok s r' ∧ i < j ∧
        j ≤ firstEnd tokens ∧ r'.StandsAt tokens j) ∧
    ∀ more, parse (tokens.take (firstEnd tokens + 1) ++ more) = parse tokens := by
  refine ⟨?terminates, fun limit depth i r hr hi closers opener r' hr' => ?inside,
    fun limit depth i r hr hi => declaration_progress hend hi hr (innerStatement limit depth),
    fun more => ?rest⟩
  case terminates =>
    obtain ⟨statements, final, hread, hplace, huncut⟩ := program_total hend
    obtain ⟨t, ht, -⟩ := hend
    obtain ⟨start, rfl, hnone⟩ := exists_reading (List.ne_nil_of_mem ht) #[]
    have hroom : firstEnd start.tokens < start.tokens.length + 1 :=
      Nat.lt_succ_of_le List.findIdx_le_length
    exact ⟨statements, final, hread, parse_of_program hnone (hread start rfl hnone _ hroom),
      hplace, huncut⟩
  case inside =>
    refine standsAt_of_extends hend hi hr ?_
    simp only [List.mem_cons, List.not_mem_nil, or_false] at hr'
    rcases hr' with rfl | rfl | rfl | rfl | rfl | rfl | rfl | rfl
    · exact .advance r
    · exact .skipSeparators r
    · exact .recover startsStatement r
    all_goals exact Advances.extends_after r
  case rest =>
    obtain ⟨us, last, rest, rfl, hlast, hus⟩ := exists_first_end hend
    have htake : (us ++ last :: rest).take (us.length + 1) = us ++ [last] :=
      List.take_length_add_append 1
    rw [firstEnd_append hus hlast, htake, List.append_assoc]
    exact parse_shared hus hlast rest more

/-- The parenthesis is dropped, and the operator between the end marks is never seen. -/
theorem parse_total_two_ends :
    let tokens : List Token := [⟨.rightParen, ")", none, 1⟩, ⟨.newline, "\n", none, 1⟩,
      ⟨.identifier, "x", none, 2⟩, .eof 2, ⟨.plus, "+", none, 3⟩, .eof 3]
    let parsed : Parsed := ⟨[.expr (.var ⟨.identifier, "x", none, 2⟩)],
      [⟨⟨.rightParen, ")", none, 1⟩, .expression⟩]⟩
    let start : Reading := ⟨⟨.rightParen, ")", none, 1⟩, tokens.tail, #[]⟩
    (∃ t ∈ tokens, t.kind = .eof) ∧ firstEnd tokens = 3 ∧ parse tokens = parsed ∧
      (∃ final, program 4 start = .ok parsed.statements final ∧ final.StandsAt tokens 3) ∧
      (∃ j, 0 < j ∧ j ≤ 3 ∧ (after (declaration (innerStatement 4 4)) start).StandsAt tokens j) ∧
      ∀ more, parse (tokens.take 4 ++ more) = parsed := by
  intro tokens parsed start
  have hend : ∃ t ∈ tokens, t.kind = .eof := ⟨.eof 2, by decide, rfl⟩
  have hfirst : firstEnd tokens = 3 := rfl
  have hparse : parse tokens = parsed := rfl
  obtain ⟨⟨statements, final, hread, hresult, hfinal, -⟩, -, hprogress, hrest⟩ := parse_total hend
  have hstart : start.StandsAt tokens 0 := rfl
  obtain ⟨s, r', j, hdeclaration, hj, hle, hstands⟩ :=
    hprogress 4 4 0 start hstart (by decide)
  rw [hparse] at hresult hrest
  rw [hfirst] at hfinal hle hrest
  have hstatements : program 4 start = .ok parsed.statements final := by
    rw [congrArg Parsed.statements hresult]
    exact hread start rfl rfl 4 (by decide)
  have hplace : (after (declaration (innerStatement 4 4)) start).StandsAt tokens j := by
    rwa [after, hdeclaration]
  exact ⟨hend, hfirst, hparse, ⟨final, hstatements, hfinal⟩, ⟨j, hj, hle, hplace⟩, hrest⟩

end Scriptlet.Grammar
