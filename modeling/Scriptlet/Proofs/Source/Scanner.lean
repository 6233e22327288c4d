import Scriptlet.Proofs.Source.Jump

/-!
# The scanner and its pieces

The scanner has a result for every text, and that result is the tokens and faults among the pieces
of the text.
-/

namespace Scriptlet.Source

open LineCounter LawfulLineCounter

namespace Scanner

variable {c d : Char} {text rest before read after : List Char} {kind : Kind} {ν : Type}
  {source : String} {s : Scanner ν source} [LineCounter ν] [LawfulLineCounter ν]

/-! ## The loop -/

theorem Within.reads_unexpected (h : s.Within before [c] after) (hc : c ∉ extensions [])
    (hother : c ∉ ['\n', ' ', '\r', '\t', '#', '"', '\'']) (hdigit : isDigit c = false)
    (hname : startsName c = false) :
    s.Reads before c after (some (s.error (.unexpectedCharacter c))) := by
  have hcut : firstCut c after = ⟨0, .fault (.unexpectedCharacter c)⟩ := by
    have hequal : c ≠ '=' := by
      rintro rfl
      exact hc (by decide +kernel)
    simp only [List.mem_cons, List.not_mem_nil, or_false, not_or] at hother
    simp [firstCut, hother, hdigit, hname, hequal, operatorCut?_eq_none hc]
  refine ⟨[], after, _, _, rfl, Cut.takes_of_length hcut, rfl, h.passes_error ?_⟩
  simp only [List.mem_cons, List.not_mem_nil, or_false, not_or] at hother ⊢
  exact Ne.symm hother.1

theorem Within.reads_single (h : s.Within before [c] after) (hmem : ([c], kind) ∈ operatorSpellings)
    (hlast : extensions [c] = []) (hc : c ≠ '=') : s.Reads before c after (s.add? kind) :=
  (h.reads_add hmem (by simp [hlast]) fun heq => absurd heq hc :)

theorem Within.reads_pair (h : s.Within before [c] after) (hd : d.toNat < 128)
    {matched otherwise : Kind} (hmatched : ([c, d], matched) ∈ operatorSpellings)
    (hotherwise : ([c], otherwise) ∈ operatorSpellings)
    (hlast : extensions [c, d] = [] ∧ (extensions [c]).all (· = d)) (hc : c ≠ '=') :
    s.Reads before c after (s.addIf? d matched otherwise) :=
  (h.reads_addIf hd hmatched hotherwise hlast.1 (fun e _ hmem =>
    of_decide_eq_true (List.all_eq_true.mp hlast.2 e hmem)) hc :)

theorem Within.reads_equal (h : s.Within before ['='] after) :
    s.Reads before '=' after (match s.cursor.eat? '=' with
      | some cursor => { s with cursor }.add? .equalEqual
      | none => s.equalOrBlockComment?) := by
  by_cases hnext : after.head? = some '='
  · obtain ⟨after, rfl⟩ := List.head?_eq_some_iff.mp hnext
    obtain ⟨cursor, heat, hcursor⟩ := h.stands.eat?_some (by decide)
    have hlast : extensions ['=', '='] = [] := by decide +kernel
    have hopens : opensBlockComment ('=' :: after) = false := by
      rw [opensBlockComment, List.takeWhile_cons_of_neg (by decide)]
      rfl
    rw [heat]
    exact Within.reads_add (h.move hcursor) (by decide +kernel) (by simp [hlast])
      fun _ => hopens
  · rw [h.stands.eat?_none (by decide) hnext]
    exact h.reads_equalOrBlockComment hnext

theorem Within.reads_behind (h : s.Within before [c] after) :
    s.Reads before c after (s.scanBehind? c) := by
  unfold scanBehind?
  split
  case h_12 => exact h.reads_points
  case h_1 | h_2 | h_3 | h_4 | h_5 | h_6 | h_7 | h_8 | h_9 | h_10 | h_11 =>
    exact h.reads_single (by decide +kernel) (by decide +kernel) (by decide)
  case h_13 | h_14 | h_15 | h_16 | h_17 | h_18 | h_19 | h_20 =>
    exact h.reads_pair (by decide) (by decide +kernel) (by decide +kernel) (by decide +kernel)
      (by decide)
  case h_21 | h_22 | h_23 =>
    exact h.reads_addEither (by decide) (by decide) (by decide +kernel) (by decide +kernel)
      (by decide +kernel) (by decide +kernel) (by decide +kernel) (by decide)
  case h_24 => exact h.reads_equal
  case h_25 => exact h.reads_lineComment
  case h_26 => exact h.reads_blank (.inl rfl)
  case h_27 => exact h.reads_blank (.inr (.inl rfl))
  case h_28 => exact h.reads_blank (.inr (.inr rfl))
  case h_29 => exact h.reads_newline
  case h_30 => exact h.reads_string (.inl rfl)
  case h_31 => exact h.reads_string (.inr rfl)
  case h_32 =>
    have hlisted : (extensions []).all ("()\x7b\x7d[],;?^~.-+/%!:&|*<>=".toList.contains ·) := by
      decide +kernel
    have hc : c ∉ extensions [] := by
      intro hmem
      have hlisted := List.contains_iff_mem.mp (List.all_eq_true.mp hlisted c hmem)
      simp_all
    split
    case isTrue hdigit => exact h.reads_number hdigit
    split
    case isTrue hname => exact h.reads_identifier hname
    next hdigit hname =>
      exact h.reads_unexpected hc (by simp_all) (by simpa using hdigit)
        (by simpa using hname)

/-- One round of the loop passes the first piece of what is left. -/
theorem reads_scanToken (h : s.cursor.Stands before (c :: after))
    (hstart : s.start = s.cursor.place) : s.Reads before c after s.scanToken? := by
  by_cases hc : c.toNat < 128
  · obtain ⟨cursor, hadvance, hcursor⟩ := h.advance? hc
    have hwithin : ({ s with cursor } : Scanner ν source).Within before [c] after :=
      ⟨hstart.trans h.place, hcursor⟩
    have hread : s.scanToken? = ({ s with cursor } : Scanner ν source).scanBehind? c := by
      rw [scanToken?, h.current_of_lt hc]
      simp only [if_neg (Nat.not_le_of_lt hc), hadvance, Option.bind_eq_bind, Option.bind_some]
    rw [hread]
    exact hwithin.reads_behind
  · have hlong : 128 ≤ c.toNat := Nat.le_of_not_lt hc
    obtain ⟨cursor, hadvance, hcursor⟩ := h.advanceChar?
    have hwithin : ({ s with cursor } : Scanner ν source).Within before [c] after :=
      ⟨hstart.trans h.place, hcursor⟩
    have hread : s.scanToken? =
        some (({ s with cursor } : Scanner ν source).error (.unexpectedCharacter c)) := by
      rw [scanToken?]
      simp only [if_pos (h.le_current hlong), hadvance, Option.bind_eq_bind, Option.bind_some]
      rfl
    rw [hread]
    have hascii : (extensions [] ++ ['\n', ' ', '\r', '\t', '#', '"', '\'', '_', '$']).all
        (·.toNat < 128) := by
      decide +kernel
    have hnone :
        c ∉ extensions [] ++ ['\n', ' ', '\r', '\t', '#', '"', '\'', '_', '$'] := fun hmem =>
      Nat.not_lt_of_le hlong (of_decide_eq_true (List.all_eq_true.mp hascii c hmem))
    simp only [List.mem_append, List.mem_cons, List.not_mem_nil, or_false, not_or] at hnone
    refine hwithin.reads_unexpected hnone.1 (by simp [hnone]) (isDigit_eq_false hlong) ?_
    simp [startsName, isLetter_eq_false hlong, hnone]

inductive Rounds : Scanner ν source → List Piece → Scanner ν source → Prop where
  | done {s : Scanner ν source} (eof : s.cursor.isEof) : Rounds s [] s
  | round {s t u : Scanner ν source} {p : Piece} {ps : List Piece} (more : s.cursor.isEof = false)
      (scanned : { s with start := s.cursor.place }.scanToken? = some t)
      (passed : stretch? source s.cursor.place t.cursor.place = some p.lexeme)
      (rest : Rounds t ps u) : Rounds s (p :: ps) u

private theorem filterMap_cons_append {α β : Type} (f : α → Option β) (a : α) (as : List α) :
    (a :: as).filterMap f = (f a).toList ++ as.filterMap f := by
  cases h : f a <;> simp [h]

/-- From one scanner to another that has passed the pieces of `after`; their numbers are right as
far as the counter is exact. -/
structure Scanned (after : List Char) (s t : Scanner ν source) (ps : List (Nat × Piece)) :
    Prop where
  rounds : s.Rounds (pieces after) t
  pieces : ps.map Prod.snd = Source.pieces after
  tokens : t.tokens.toList = s.tokens.toList ++ ps.filterMap fun p => p.2.token? p.1
  errors : t.errors.toList = s.errors.toList ++ ps.filterMap fun p => p.2.error? p.1
  lines : Fits ν (number s.line + newlines after) →
    ps = numbered (number s.line) (Source.pieces after) ∧
      number t.line = number s.line + newlines after

theorem scanned_done (heof : s.cursor.isEof) : Scanned [] s s [] where
  rounds := by
    rw [pieces_nil]
    exact .done heof
  pieces := by
    rw [pieces_nil]
    rfl
  tokens := (List.append_nil _).symm
  errors := (List.append_nil _).symm
  lines _ := by
    rw [pieces_nil]
    exact ⟨rfl, rfl⟩

theorem Scanned.round {t u : Scanner ν source} {body following : List Char} {role : Role}
    {ps : List (Nat × Piece)} (hlater : Scanned following t u ps)
    (h : s.cursor.Stands before (c :: (body ++ following)))
    (htakes : (firstCut c (body ++ following)).Takes body following role)
    (hscan : { s with start := s.cursor.place }.scanToken? = some t)
    (hpasses : s.Passes t before ⟨c :: body, role⟩ following) :
    Scanned (c :: (body ++ following)) s u ((number s.line, ⟨c :: body, role⟩) :: ps) := by
  obtain ⟨hstands, htokens, herrors, hcounts⟩ := hpasses
  have hpieces := pieces_of_takes htakes
  constructor
  case rounds =>
    rw [hpieces]
    exact .round h.isEof hscan (h.sliceFrom? hstands) hlater.rounds
  case pieces => rw [hpieces, List.map_cons, hlater.pieces]
  case tokens => rw [hlater.tokens, htokens, filterMap_cons_append, List.append_assoc]
  case errors => rw [hlater.errors, herrors, filterMap_cons_append, List.append_assoc]
  case lines =>
    intro hfits
    rw [hpieces]
    have htotal : newlines (c :: (body ++ following)) =
        newlines (c :: body) + newlines following := by
      rw [← List.cons_append, newlines_append]
    rw [htotal, ← Nat.add_assoc] at hfits ⊢
    have hline : number t.line = number s.line + newlines (c :: body) :=
      hcounts (fits_of_le (Nat.le_add_right _ _) hfits)
    obtain ⟨rfl, hlast⟩ := hlater.lines (hline ▸ hfits)
    rw [numbered, ← hline]
    exact ⟨rfl, hlast⟩

theorem exists_scanned (h : s.cursor.Stands before after) :
    ∃ t, s.loop? round? = some t ∧ ∃ ps, Scanned after s t ps := by
  have hround : ∀ (p : List Char × List Char) (s : Scanner ν source), s.cursor.Stands p.1 p.2 →
      LoopStep round? (fun p s => s.cursor.Stands p.1 p.2)
        (fun p s t => ∃ ps, Scanned p.2 s t ps) p s := by
    rintro ⟨before, after⟩ s h
    cases after with
    | nil =>
        have heof : s.cursor.isEof = true := h.isEof
        exact .last s (if_pos heof) ⟨[], scanned_done heof⟩
    | cons c rest =>
        have hmore : s.cursor.isEof = false := h.isEof
        obtain ⟨body, following, role, t, rfl, htakes, hscan, hpasses⟩ :=
          reads_scanToken (s := { s with start := s.cursor.place }) h rfl
        have hread : s.round? = some (.more t) := by
          rw [round?, hmore, hscan]
          rfl
        refine .more (before ++ c :: body, following) t hread
          (h.place_lt hpasses.1 (List.cons_ne_nil c body)) hpasses.1 fun u hlater => ?_
        obtain ⟨ps, hlater⟩ := hlater
        exact ⟨_, hlater.round h htakes hscan hpasses⟩
  exact exists_loop? hround (i := (before, after)) h

end Scanner

/-- The scanner has a result for every text: tokens and faults of the pieces of the text.  They are
on the lines on which the pieces start, if the counter is exact up to the last line. -/
theorem exists_scan? (ν : Type) [LineCounter ν] [LawfulLineCounter ν] (source : String) :
    ∃ (t : Scanner ν source) (ps : List (Nat × Piece)) (last : Nat),
      (Scanner.initial ν source).Rounds (pieces source.toList) t ∧
        ps.map Prod.snd = pieces source.toList ∧
          scan? ν source = some
            ⟨ps.filterMap (fun p => p.2.token? p.1) ++ [Token.eof last],
              ps.filterMap fun p => p.2.error? p.1⟩ ∧
            (Fits ν (1 + newlines source.toList) →
              scan? ν source = some (lexChars source.toList)) := by
  have hstart : (Scanner.initial ν source).cursor.Stands [] source.toList := ⟨rfl, rfl⟩
  have hfirst : number (Scanner.initial ν source).line = 1 := number_first
  obtain ⟨t, hloop, ps, hscanned⟩ := Scanner.exists_scanned hstart
  have hscan : scan? ν source = some
      ⟨ps.filterMap (fun p => p.2.token? p.1) ++ [Token.eof (number t.line)],
        ps.filterMap fun p => p.2.error? p.1⟩ := by
    rw [scan?, Scanner.run?, hloop, Option.bind_eq_bind, Option.bind_some, hscanned.tokens,
      hscanned.errors]
    rfl
  refine ⟨t, ps, number t.line, hscanned.rounds, hscanned.pieces, hscan, fun hfits => ?_⟩
  obtain ⟨rfl, hlast⟩ := hscanned.lines (hfirst.symm ▸ hfits)
  rw [hscan, hlast, hfirst]
  rfl

/-- The tokens and faults of a text are those of its pieces. -/
theorem lex_eq (source : String) : lex source = lexChars source.toList := by
  obtain ⟨-, -, -, -, -, -, hscan⟩ := exists_scan? Nat source
  rw [lex, hscan trivial, Option.getD_some]

end Scriptlet.Source
