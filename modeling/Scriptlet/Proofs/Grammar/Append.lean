import Scriptlet.Proofs.Grammar.PairedStmt

/-!
# Programs put one after the other

A program that ends at a separator and leaves nothing open is read the same whatever follows it,
also where statements of it were dropped.  What follows is then read as if it stood alone.  The
first half is about two readings that part at the end mark of the first, the second half about two
readings that stay together.
-/

namespace Scriptlet.Grammar

namespace Pairing

variable {P : Pairing} {n d limit limit' : Nat} {stmt stmt' : Parse Stmt} {r r' : Reading}

theorem not_lostOn (htogether : ¬P.apart) : ¬P.LostOn r := by
  rintro ⟨e, -, happart, -⟩
  exact htogether happart

theorem exists_declaration (stmt : Parse Stmt) (r : Reading) :
    ∃ s r₁, declaration stmt r = .ok s r₁ := by
  unfold declaration
  cases stmt r with
  | ok s r₁ => exact ⟨_, _, rfl⟩
  | error e r₁ => exact ⟨_, _, rfl⟩

theorem programRound_done {read : Array Stmt} (h : r.skipSeparators.current.kind = .eof) :
    programRound stmt read r = .ok (.done read.toList) r.skipSeparators := by
  change (currentKind >>= fun k => if k = .eof then pure (.done read.toList)
    else declaration stmt >>= keepRead read : Parse _) r.skipSeparators = _
  rw [currentKind_bind, if_pos h]
  rfl

theorem programRound_again {read : Array Stmt} (h : r.skipSeparators.current.kind ≠ .eof) :
    programRound stmt read r = (declaration stmt >>= keepRead read) r.skipSeparators := by
  change (currentKind >>= fun k => if k = .eof then pure (.done read.toList)
    else declaration stmt >>= keepRead read : Parse _) r.skipSeparators = _
  rw [currentKind_bind, if_neg h]

theorem rounds_programRound_eq (read : Array Stmt) (h : r.skipSeparators = r'.skipSeparators) :
    rounds (programRound stmt) (limit + 1) read r =
      rounds (programRound stmt) (limit + 1) read r' := by
  have hround : programRound stmt read r = programRound stmt read r' := by
    by_cases hkind : r.skipSeparators.current.kind = .eof
    · rw [programRound_done hkind, programRound_done (h ▸ hkind), h]
    · rw [programRound_again hkind, programRound_again (h ▸ hkind), h]
  simp only [rounds, Bind.bind, EStateM.bind, hround]

theorem exists_keepRead {g : Array Stmt → Array Stmt} {f : Stmt → Stmt}
    (hpush : ∀ read s, (g read).push (f s) = g (read.push s)) (read : Array Stmt)
    (s : Option Stmt) :
    ∃ read₁, (∀ r, keepRead read s r = .ok (.again read₁) r) ∧
      ∀ r, keepRead (g read) (s.map f) r = .ok (.again (g read₁)) r := by
  cases s with
  | none => exact ⟨read, fun _ => rfl, fun _ => rfl⟩
  | some s =>
      refine ⟨read.push s, fun _ => rfl, fun _ => ?_⟩
      rw [← hpush]
      rfl

/-- Reading the program goes round as long as the first list has statements.  What `R` says of the
second reading has to hold when the first list ends, and before a round if it holds after it. -/
theorem program_rounds [Advances stmt] {g : Array Stmt → Array Stmt}
    {R : Nat → Array Stmt → Reading → List Stmt → Reading → Prop}
    (hpush : ∀ read s, (g read).push (Stmt.renumber P.line s) = g (read.push s))
    (hend : ∀ m limit' read r r', P.Between m r r' → r.skipSeparators.current.kind = .eof →
      d < limit' → R limit' (g read) r' read.toList r.skipSeparators)
    (hagain : ∀ limit' read read₁ r r₁ statements final,
      programRound stmt' read r = .ok (.again read₁) r₁ → R limit' read₁ r₁ statements final →
      R (limit' + 1) read r statements final)
    (hlimit : n ≤ limit) (hlimit' : n + d ≤ limit')
    (hstmt : P.AgreeTo P.Between (Stmt.renumber P.line) n stmt stmt') (read : Array Stmt)
    (hr : P.Between n r r') :
    P.LostIn (rounds (programRound stmt) limit read r) ∨
      ∃ statements final, rounds (programRound stmt) limit read r = .ok statements final ∧
        R limit' (g read) r' statements final := by
  induction n generalizing limit limit' read r r' with
  | zero => exact absurd hr not_between_zero
  | succ n ih =>
      obtain ⟨limit, rfl⟩ := Nat.exists_eq_add_of_le' (Nat.le_trans (Nat.le_add_left 1 n) hlimit)
      obtain ⟨limit', rfl⟩ : ∃ k, limit' = k + 1 :=
        Nat.exists_eq_add_of_le' (Nat.le_trans (by omega : 1 ≤ n + 1 + d) hlimit')
      by_cases hkind : r.skipSeparators.current.kind = .eof
      · right
        refine ⟨_, _, ?_, hend _ _ read r r' hr hkind (by omega)⟩
        rw [rounds, bind_ok (programRound_done hkind)]
        rfl
      · have hinside := hr.skipSeparators.resolve_right fun h => by
          rw [(List.cons.inj h.2.1).1] at hkind
          exact hkind P.kind_last
        have hkind' : r'.skipSeparators.current.kind ≠ .eof := fun h =>
          hkind ((kind_eq_iff_of_same hinside.same_current (by decide)).mp h)
        have houtcome := Agree.declaration (hstmt n (Nat.lt_succ_self n)) _ _ ⟨hinside, hkind⟩
        obtain ⟨s, r₁, hs⟩ := exists_declaration stmt r.skipSeparators
        obtain ⟨s', r₁', hs'⟩ := exists_declaration stmt' r'.skipSeparators
        rw [hs, hs'] at houtcome
        obtain ⟨read₁, hkeep, hkeep'⟩ := exists_keepRead hpush read s
        have hround : programRound stmt read r = .ok (.again read₁) r₁ := by
          rw [programRound_again hkind, bind_ok hs, hkeep]
        rw [rounds, bind_ok hround]
        cases houtcome with
        | lost h =>
            left
            exact LostOn.lostIn h
        | ok h =>
            obtain ⟨rfl, hbetween⟩ := h
            have hround' : programRound stmt' (g read) r' = .ok (.again (g read₁)) r₁' := by
              rw [programRound_again hkind', bind_ok hs', hkeep']
            rcases ih (Nat.le_of_succ_le_succ hlimit) (by omega : n + d ≤ limit')
              (fun m hm => hstmt m (Nat.lt_succ_of_lt hm)) read₁ hbetween with
              hlost | ⟨statements, final, hrounds, hR⟩
            · exact .inl hlost
            · exact .inr ⟨statements, final, hrounds, hagain _ _ _ _ _ _ _ hround' hR⟩

theorem program_apart [Advances stmt] (happart : P.apart) {g : Array Stmt → Array Stmt}
    (hpush : ∀ read s, (g read).push (Stmt.renumber P.line s) = g (read.push s))
    (hlimit : n ≤ limit) (hlimit' : n + d ≤ limit')
    (hstmt : P.AgreeTo P.Between (Stmt.renumber P.line) n stmt stmt') (read : Array Stmt)
    (hr : P.Between n r r') :
    P.LostIn (rounds (programRound stmt) limit read r) ∨
      ∃ statements final, rounds (programRound stmt) limit read r = .ok statements final ∧
        ∃ start k, start.tokens = P.after ∧ P.SameErrors final start ∧ d < k ∧
          rounds (programRound stmt') limit' (g read) r' =
            rounds (programRound stmt') k (g statements.toArray) start := by
  refine program_rounds (R := fun limit' read' r' statements final =>
    ∃ start k, start.tokens = P.after ∧ P.SameErrors final start ∧ d < k ∧
      rounds (programRound stmt') limit' read' r' =
        rounds (programRound stmt') k (g statements.toArray) start)
    hpush ?_ ?_ hlimit hlimit' hstmt read hr
  · intro m limit' read r r' hr hkind hd
    have hborder := hr.skipSeparators.resolve_left fun h => h.tokens.kind_ne_eof happart hkind
    obtain ⟨-, -, start, htokens, herrors, hskip⟩ := hborder
    refine ⟨start, limit', htokens, ?_, hd, ?_⟩
    · have hsame : P.SameErrors r r' := by
        rcases hr with h | h <;> exact h.errors
      rwa [SameErrors, herrors]
    · obtain ⟨k, rfl⟩ : ∃ k, limit' = k + 1 := Nat.exists_eq_add_of_le' (Nat.zero_lt_of_lt hd)
      exact rounds_programRound_eq (g read) hskip.symm
  · rintro limit' read read₁ r r₁ statements final hround ⟨start, k, htokens, herrors, hk, hrounds⟩
    refine ⟨start, k, htokens, herrors, hk, ?_⟩
    rw [rounds, bind_ok hround, ← hrounds]

theorem program_together [Advances stmt] (htogether : ¬P.apart) {g : Array Stmt → Array Stmt}
    {h : List Stmt → List Stmt}
    (hpush : ∀ read s, (g read).push (Stmt.renumber P.line s) = g (read.push s))
    (hdone : ∀ read, (g read).toList = h read.toList) (hlimit : n ≤ limit) (hlimit' : n ≤ limit')
    (hstmt : P.AgreeTo P.Between (Stmt.renumber P.line) n stmt stmt') (read : Array Stmt)
    (hr : P.Between n r r') :
    ∃ statements final, rounds (programRound stmt) limit read r = .ok statements final ∧
      ∃ final', rounds (programRound stmt') limit' (g read) r' = .ok (h statements) final' ∧
        P.SameErrors final final' := by
  have hlost : ¬P.LostIn (rounds (programRound stmt) limit read r) := by
    intro hlost
    generalize rounds (programRound stmt) limit read r = result at hlost
    cases result with
    | ok a r => exact not_lostOn htogether hlost
    | error e r => exact not_lostOn htogether hlost
  refine (program_rounds (d := 0) (R := fun limit' read' r' statements final =>
    ∃ final', rounds (programRound stmt') limit' read' r' = .ok (h statements) final' ∧
      P.SameErrors final final') hpush ?_ ?_ hlimit hlimit' hstmt read hr).resolve_left hlost
  · intro m limit' read r r' hr hkind hd
    have hinside := hr.skipSeparators.resolve_right fun h => htogether h.1
    have hkind' := (kind_eq_iff_of_same (k := .eof) hinside.same_current (by decide)).mpr hkind
    obtain ⟨k, rfl⟩ := Nat.exists_eq_add_of_lt hd
    refine ⟨r'.skipSeparators, ?_, hinside.errors⟩
    rw [rounds, bind_ok (programRound_done hkind'), hdone]
    rfl
  · rintro limit' read read₁ r r₁ statements final hround ⟨final', hrounds, herrors⟩
    refine ⟨final', ?_, herrors⟩
    rw [rounds, bind_ok hround, ← hrounds]

theorem SameErrors.errors_eq (hP : ∀ {t t' : Token}, P.same t t' → t' = t.renumber P.line)
    (h : P.SameErrors r r') :
    r'.errors.toList = P.before ++ r.errors.toList.map (SyntaxError.renumber P.line) := by
  obtain ⟨es, hes, hsame⟩ := h
  have hmap : ∀ {es es' : List SyntaxError}, List.Forall₂ P.SameError es es' →
      es' = es.map (SyntaxError.renumber P.line) := by
    intro es es' h
    induction h with
    | nil => rfl
    | @cons e e' _ _ he _ ih =>
        have heq : e' = e.renumber P.line := by
          cases e'
          exact SyntaxError.mk.injEq _ _ _ _ ▸ ⟨hP he.token, he.cause⟩
        rw [List.map_cons, ih, heq]
  rw [hes, hmap hsame]

/-! ## Tokens moved to other lines -/

/-- The second list is the first one with other line numbers. -/
def moved (f : Nat → Nat) (last : Token) (rest : List Token) (before : List SyntaxError)
    (hlast : last.kind = .eof) : Pairing where
  line := f
  same t t' := t' = t.renumber f
  last := last
  rest := rest
  after := (last :: rest).map (Token.renumber f)
  before := before
  apart := False
  same_renumber _ := rfl
  of_same := .inl
  kind_last := hlast
  exists_after := ⟨_, _, rfl, fun _ => rfl⟩

section Moved

variable {f : Nat → Nat} {last : Token} {ts rest : List Token} {before : List SyntaxError}
variable {hlast : last.kind = .eof}

theorem abreast_moved (hts : ∀ t ∈ ts, t.kind ≠ .eof) :
    (moved f last rest before hlast).Abreast (ts ++ last :: rest)
      ((ts ++ last :: rest).map (Token.renumber f)) := by
  induction ts with
  | nil => exact .last id
  | cons t ts ih =>
      rw [List.forall_mem_cons] at hts
      exact .cons rfl hts.1 (ih hts.2)

end Moved

theorem program_moved (f : Nat → Nat) {ts rest : List Token} {last : Token}
    (hts : ∀ t ∈ ts, t.kind ≠ .eof) (hlast : last.kind = .eof)
    (htokens : r.tokens = ts ++ last :: rest)
    (htokens' : r'.tokens = r.tokens.map (Token.renumber f)) (herrors : r.errors = #[])
    {depth depth' : Nat} (hdepth : ts.length < depth) (hdepth' : ts.length < depth')
    (hlimit : ts.length < limit) (hlimit' : ts.length < limit') (read : Array Stmt) :
    ∃ statements final,
      rounds (programRound (statement depth)) limit #[] r = .ok statements final ∧
      ∃ final', rounds (programRound (statement depth')) limit' read r' =
          .ok (read.toList ++ statements.map (Stmt.renumber f)) final' ∧
        final'.errors.toList =
          r'.errors.toList ++ final.errors.toList.map (SyntaxError.renumber f) := by
  have hstart : (moved f last rest r'.errors.toList hlast).Between (ts.length + 1) r r' := by
    refine .inl ⟨?_, ⟨[], by simp [moved], by simp [herrors]⟩, ?_⟩
    · rw [htokens', htokens]
      exact abreast_moved hts
    · rw [htokens, List.length_append, List.length_cons]
      change _ ≤ ts.length + 1 + rest.length
      omega
  obtain ⟨statements, final, hrounds, final', hrounds', hsame⟩ := program_together id
    (g := fun a => read ++ a.map (Stmt.renumber f))
    (h := fun statements => read.toList ++ statements.map (Stmt.renumber f))
    (fun a s => by rw [Array.map_push, Array.append_push]; rfl) (fun a => by simp) hlimit hlimit'
    (.statement hdepth hdepth') #[] hstart
  refine ⟨statements, final, hrounds, final', ?_, hsame.errors_eq id⟩
  simpa using hrounds'

/-! ## Tokens followed by others -/

/-- The second list has other tokens in place of the end mark. -/
def followed (last : Token) (after : List Token) (hlast : last.kind = .eof) (hafter : after ≠ []) :
    Pairing where
  line := id
  same t t' := t' = t
  last := last
  rest := []
  after := after
  before := []
  apart := True
  same_renumber _ := rfl
  of_same := .inl
  kind_last := hlast
  exists_after :=
    let ⟨next, more, h⟩ := List.exists_cons_of_ne_nil hafter
    ⟨next, more, h, fun h => absurd trivial h⟩

section Followed

variable {last : Token} {after front : List Token} {hlast : last.kind = .eof} {hafter : after ≠ []}

theorem abreast_followed (hfront : ∀ t ∈ front, t.kind ≠ .eof)
    (hborder : ∃ t, front.getLast? = some t ∧ t.kind.isSeparator) :
    (followed last after hlast hafter).Abreast (front ++ [last]) (front ++ after) := by
  induction front with
  | nil => simp at hborder
  | cons t front ih =>
      rw [List.forall_mem_cons] at hfront
      cases front with
      | nil => exact .border trivial rfl (by simpa using hborder)
      | cons u front => exact .cons rfl hfront.1 (ih hfront.2 (by simpa using hborder))

end Followed

/-! ## Tokens with others after the end mark -/

def shared (last : Token) (rest after : List Token) (hlast : last.kind = .eof) : Pairing where
  line := id
  same t t' := t' = t
  last := last
  rest := rest
  after := last :: after
  before := []
  apart := False
  same_renumber _ := rfl
  of_same := .inl
  kind_last := hlast
  exists_after := ⟨last, after, rfl, fun _ => rfl⟩

theorem abreast_shared {last : Token} {ts rest after : List Token} {hlast : last.kind = .eof}
    (hts : ∀ t ∈ ts, t.kind ≠ .eof) :
    (shared last rest after hlast).Abreast (ts ++ last :: rest) (ts ++ last :: after) := by
  induction ts with
  | nil => exact .last id
  | cons t ts ih =>
      rw [List.forall_mem_cons] at hts
      exact .cons rfl hts.1 (ih hts.2)

end Pairing

open Pairing

theorem parse_of_program {r final : Reading} {statements : List Stmt} (herrors : r.errors = #[])
    (h : rounds (programRound (statement (r.tokens.length + 1))) (r.tokens.length + 1) #[] r =
      .ok statements final) :
    parse r.tokens = ⟨statements, final.errors.toList⟩ := by
  obtain ⟨current, ahead, errors⟩ := r
  subst herrors
  change program (ahead.length + 2) ⟨current, ahead, #[]⟩ = _ at h
  simp only [parse, Reading.tokens, h]

theorem exists_lost_of_program {P : Pairing} {r : Reading} (herrors : r.errors = #[])
    (h : P.LostIn (rounds (programRound (statement (r.tokens.length + 1))) (r.tokens.length + 1)
      #[] r)) : ∃ e ∈ (parse r.tokens).errors, P.Lost e := by
  obtain ⟨current, ahead, errors⟩ := r
  subst herrors
  change P.LostIn (program (ahead.length + 2) ⟨current, ahead, #[]⟩) at h
  simp only [parse, Reading.tokens]
  cases hresult : program (ahead.length + 2) ⟨current, ahead, #[]⟩ with
  | ok statements final =>
      rw [hresult] at h
      exact h
  | error e final =>
      rw [hresult] at h
      exact h

theorem exists_reading {ts : List Token} (h : ts ≠ []) (errors : Array SyntaxError) :
    ∃ r : Reading, r.tokens = ts ∧ r.errors = errors := by
  obtain ⟨t, ts, rfl⟩ := List.exists_cons_of_ne_nil h
  exact ⟨⟨t, ts, errors⟩, rfl, rfl⟩

theorem exists_first_end {ts : List Token} (h : ∃ t ∈ ts, t.kind = .eof) :
    ∃ us last rest, ts = us ++ last :: rest ∧ last.kind = .eof ∧ ∀ t ∈ us, t.kind ≠ .eof := by
  induction ts with
  | nil => simp at h
  | cons t ts ih =>
      by_cases hkind : t.kind = .eof
      · exact ⟨[], t, ts, rfl, hkind, by simp⟩
      · obtain ⟨us, last, rest, hts, hlast, hus⟩ := ih (by simpa [hkind] using h)
        exact ⟨t :: us, last, rest, by rw [hts]; rfl, hlast, by simpa [hkind] using hus⟩

section Append

variable {front after : List Token} {last : Token}

theorem program_followed {r r' : Reading} (hfront : ∀ t ∈ front, t.kind ≠ .eof)
    (hborder : front = [] ∨ ∃ t, front.getLast? = some t ∧ t.kind.isSeparator)
    (hlast : last.kind = .eof) (hafter : after ≠ []) (htokens : r.tokens = front ++ [last])
    (htokens' : r'.tokens = front ++ after) (herrors : r.errors = #[]) (herrors' : r'.errors = #[])
    (hopen : ∀ e ∈ (parse (front ++ [last])).errors, e.token ≠ last) :
    ∃ statements final,
      rounds (programRound (statement (r.tokens.length + 1))) (r.tokens.length + 1) #[] r =
        .ok statements final ∧
      ∃ start k, start.tokens = after ∧ start.errors = final.errors ∧ after.length < k ∧
        rounds (programRound (statement (r'.tokens.length + 1))) (r'.tokens.length + 1) #[] r' =
          rounds (programRound (statement (r'.tokens.length + 1))) k statements.toArray start := by
  have hlength : r.tokens.length = front.length + 1 := by
    rw [htokens]
    simp
  have hlength' : r'.tokens.length = front.length + after.length := by
    rw [htokens']
    simp
  have hpos := List.length_pos_iff.mpr hafter
  have hstart : (followed last after hlast hafter).Between (front.length + 1) r r' := by
    have hsame : (followed last after hlast hafter).SameErrors r r' :=
      ⟨[], by simp [herrors', followed], by simp [herrors]⟩
    have hbound : r.tokens.length ≤ front.length + 1 + 0 := Nat.le_of_eq hlength
    rcases hborder with rfl | hborder
    · exact .inr ⟨trivial, htokens, htokens', hsame, hbound⟩
    · refine .inl ⟨?_, hsame, hbound⟩
      rw [htokens, htokens']
      exact abreast_followed hfront hborder
  have hlost : ¬(followed last after hlast hafter).LostIn
      (rounds (programRound (statement (r.tokens.length + 1))) (r.tokens.length + 1) #[] r) := by
    intro h
    obtain ⟨e, he, -, htoken⟩ := exists_lost_of_program herrors h
    rw [htokens] at he
    exact hopen e he htoken
  have hstmt : (followed last after hlast hafter).AgreeTo
      (followed last after hlast hafter).Between (Stmt.renumber id) (front.length + 1)
      (statement (r.tokens.length + 1)) (statement (r'.tokens.length + 1)) :=
    .statement (by omega) (by omega)
  have hlimit : front.length + 1 ≤ r.tokens.length + 1 := by omega
  have hlimit' : front.length + 1 + after.length ≤ r'.tokens.length + 1 := by omega
  obtain ⟨statements, final, hrounds, start, k, hstart, hsame, hk, hrest⟩ :=
    (program_apart (g := id) trivial (fun read s => by simp [followed]) hlimit hlimit' hstmt #[]
      hstart).resolve_left hlost
  refine ⟨statements, final, hrounds, start, k, hstart, ?_, hk, hrest⟩
  have hfinal := hsame.errors_eq fun {_ t'} h => (h : t' = _)
  simpa [followed] using hfinal

/-- A second program may also stand at other lines, which does not matter to the parser. -/
theorem parse_append_moved (f : Nat → Nat) (hfront : ∀ t ∈ front, t.kind ≠ .eof)
    (hborder : front = [] ∨ ∃ t, front.getLast? = some t ∧ t.kind.isSeparator)
    (hlast : last.kind = .eof) (hafter : ∃ t ∈ after, t.kind = .eof)
    (hopen : ∀ e ∈ (parse (front ++ [last])).errors, e.token ≠ last) :
    parse (front ++ after.map (Token.renumber f)) =
      ⟨(parse (front ++ [last])).statements ++ (parse after).statements.map (Stmt.renumber f),
        (parse (front ++ [last])).errors ++ (parse after).errors.map (SyntaxError.renumber f)⟩ := by
  obtain ⟨us, last', rest, hafter', hlast', hus⟩ := exists_first_end hafter
  have hne : after ≠ [] := by simp [hafter']
  have hne' : after.map (Token.renumber f) ≠ [] := by simp [hne]
  obtain ⟨r, htokens, herrors⟩ := exists_reading (show front ++ [last] ≠ [] by simp) #[]
  obtain ⟨r', htokens', herrors'⟩ := exists_reading
    (show front ++ after.map (Token.renumber f) ≠ [] by simp [hne]) #[]
  obtain ⟨r₂, htokens₂, herrors₂⟩ := exists_reading hne #[]
  obtain ⟨statements, final, hrounds, start, k, hstart, hstarted, hk, hrest⟩ :=
    program_followed hfront hborder hlast hne' htokens htokens' herrors herrors' hopen
  have hlength : us.length < after.length := by
    rw [hafter', List.length_append, List.length_cons]
    omega
  have hlength₂ : us.length < r₂.tokens.length + 1 := by
    rw [htokens₂]
    omega
  have hlength' : us.length < r'.tokens.length + 1 := by
    rw [htokens', List.length_append, List.length_map]
    omega
  rw [List.length_map] at hk
  have hmoved : start.tokens = r₂.tokens.map (Token.renumber f) := by
    rw [hstart, htokens₂]
  obtain ⟨statements₂, final₂, hrounds₂, final', hrounds', hfinal⟩ :=
    program_moved f hus hlast' (htokens₂.trans hafter') hmoved herrors₂ hlength₂ hlength' hlength₂
      (Nat.lt_trans hlength hk) statements.toArray
  rw [← htokens, ← htokens', ← htokens₂, parse_of_program herrors hrounds,
    parse_of_program herrors₂ hrounds₂, parse_of_program herrors' (hrest.trans hrounds')]
  simp [hfinal, hstarted]

/-- Reading one program after another gives the statements and the errors of both, if the first is
empty or ends with a separator and misses nothing at its end mark. -/
theorem parse_append (hfront : ∀ t ∈ front, t.kind ≠ .eof)
    (hborder : front = [] ∨ ∃ t, front.getLast? = some t ∧ t.kind.isSeparator)
    (hlast : last.kind = .eof) (hafter : ∃ t, after.getLast? = some t ∧ t.kind = .eof)
    (hopen : ∀ e ∈ (parse (front ++ [last])).errors, e.token ≠ last) :
    (parse (front ++ after)).statements =
        (parse (front ++ [last])).statements ++ (parse after).statements ∧
      (parse (front ++ after)).errors =
        (parse (front ++ [last])).errors ++ (parse after).errors := by
  obtain ⟨t, ht, hkind⟩ := hafter
  have happend := parse_append_moved id hfront hborder hlast
    ⟨t, List.mem_of_getLast? ht, hkind⟩ hopen
  simp only [Token.renumber_id, Stmt.renumber_id, SyntaxError.renumber_id, List.map_id] at happend
  rw [happend]
  exact ⟨rfl, rfl⟩

end Append

/-- A dropped statement inside a block keeps neither the block nor what follows from being read. -/
theorem parse_append_after_error :
    let front : List Token := [.mark .kwBegin, .mark .rightParen, .mark .newline,
      ⟨.identifier, "x", none, 1⟩, .mark .kwEnd, .mark .semicolon]
    let after : List Token :=
      [⟨.identifier, "y", none, 1⟩, .mark .newline, .mark .plus, Token.eof 2]
    (∀ t ∈ front, t.kind ≠ .eof) ∧ (∃ t, front.getLast? = some t ∧ t.kind.isSeparator) ∧
      parse (front ++ [Token.eof 1]) =
        ⟨[.block [.expr (.var ⟨.identifier, "x", none, 1⟩)]], [⟨.mark .rightParen, .expression⟩]⟩ ∧
      (parse (front ++ after)).statements =
        [.block [.expr (.var ⟨.identifier, "x", none, 1⟩)]] ++
          [.expr (.var ⟨.identifier, "y", none, 1⟩)] ∧
      (parse (front ++ after)).errors =
        [⟨.mark .rightParen, .expression⟩] ++ [⟨.mark .plus, .expression⟩] := by
  intro front after
  have hfront : ∀ t ∈ front, t.kind ≠ .eof := by decide
  have hborder : ∃ t, front.getLast? = some t ∧ t.kind.isSeparator := ⟨_, rfl, rfl⟩
  have hparse : parse (front ++ [Token.eof 1]) =
      ⟨[.block [.expr (.var ⟨.identifier, "x", none, 1⟩)]], [⟨.mark .rightParen, .expression⟩]⟩ :=
    rfl
  have happend : (parse (front ++ after)).statements =
        (parse (front ++ [Token.eof 1])).statements ++ (parse after).statements ∧
      (parse (front ++ after)).errors =
        (parse (front ++ [Token.eof 1])).errors ++ (parse after).errors :=
    parse_append hfront (.inr hborder) rfl ⟨_, rfl, rfl⟩ (by rw [hparse]; decide)
  rw [hparse] at happend
  exact ⟨hfront, hborder, hparse, happend⟩

end Scriptlet.Grammar
