import Scriptlet.Proofs.Source.Round

/-!
# Pieces over several lines

A string and a block comment are passed in jumps, from one place where the loop stops to look to the
next.  The jumps come to the closing quote or word that a reading character by character comes to,
and the newlines of all of them together are those of the piece.
-/

namespace Scriptlet.Source

open LineCounter LawfulLineCounter

namespace Scanner

variable {c d : Char} {text rest before read after : List Char} {ν : Type} {source : String}
  {s : Scanner ν source} [LineCounter ν] [LawfulLineCounter ν]

/-! ### Strings -/

inductive StringEnds (s t : Scanner ν source) (quote : Char) (openedOn : ν)
    (before read after : List Char) : Prop where
  | closed (body following : List Char) (heq : after = body ++ quote :: following)
      (hclosing : Text.Quoted.closing? quote 0 after = some (body.length + 1))
      (stands : t.cursor.Stands (before ++ (quote :: (read ++ body) ++ [quote])) following)
      (tokens : t.tokens = s.tokens.push
        ⟨.string, String.ofList (quote :: (read ++ body) ++ [quote]),
          some (.str (String.ofList (Text.Quoted.decode (read ++ body)))), number openedOn⟩)
      (errors : t.errors = s.errors)
      (line : Counts s.line t.line (newlines body))
  | unterminated (hclosing : Text.Quoted.closing? quote 0 after = none)
      (stands : t.cursor.Stands (before ++ quote :: (read ++ after)) [])
      (tokens : t.tokens = s.tokens)
      (errors : t.errors = s.errors.push ⟨number openedOn, .unterminatedString⟩)
      (line : Counts s.line t.line (newlines after))

theorem StringEnds.of_later {s s' t : Scanner ν source} {quote : Char} {openedOn : ν}
    {mid : List Char} (h : StringEnds s' t quote openedOn before (read ++ mid) after)
    (hclosing : Text.Quoted.closing? quote 0 (mid ++ after) =
      (Text.Quoted.closing? quote 0 after).map (mid.length + ·))
    (htokens : s'.tokens = s.tokens) (herrors : s'.errors = s.errors)
    (hline : Counts s.line s'.line (newlines mid)) :
    StringEnds s t quote openedOn before read (mid ++ after) := by
  cases h with
  | closed body following heq hlater stands tokens errors line =>
      refine .closed (mid ++ body) following (by rw [heq, List.append_assoc]) ?_ ?_ ?_ ?_ ?_
      · rw [hclosing, hlater, Option.map_some, List.length_append, Nat.add_assoc]
      · rw [← List.append_assoc read]
        exact stands
      · rw [← htokens, ← List.append_assoc read]
        exact tokens
      · rw [errors, herrors]
      · rw [newlines_append]
        exact hline.trans line
  | unterminated hlater stands tokens errors line =>
      refine .unterminated (by rw [hclosing, hlater]; rfl) ?_ ?_ ?_ ?_
      · rw [← List.append_assoc]
        exact stands
      · rw [tokens, htokens]
      · rw [errors, herrors]
      · rw [newlines_append]
        exact hline.trans line

theorem Within.line_skip {mid : List Char} (h : s.Within before read (mid ++ after)) :
    Counts s.line (s.skip (bytes mid).length).line (newlines mid) := by
  rw [← h.stands.skip.1]
  exact Counts.skip _ _

def stopsString (quote c : Char) : Bool :=
  c = quote || c = '\\' || c = '\n'

theorem plain_stopsString {quote : Char} (hquote : quote.toNat < 128) : Plain (stopsString quote) :=
  ((plain_eq hquote).or (plain_eq (by decide))).or (plain_eq (by decide))

theorem Within.stringRound?_stop {quote : Char} {plain : List Char} (openedOn : ν)
    (h : s.Within before read (plain ++ c :: rest)) (hquote : quote.toNat < 128)
    (hplain : ∀ c ∈ plain, stopsString quote c = false) (hstop : stopsString quote c) :
    ∃ s' : Scanner ν source, s'.Within before (read ++ plain ++ [c]) rest ∧ s'.tokens = s.tokens ∧
      s'.errors = s.errors ∧ Counts s.line s'.line (newlines plain) ∧
      s.stringRound? quote openedOn =
        if c = '\\' then
          s'.cursor.advanceChar?.bind fun next => some (.more
            { s' with
              cursor := next.2
              line := if s'.cursor.current = '\n' then LineCounter.next s'.line else s'.line })
        else if c = '\n' then some (.more { s' with line := LineCounter.next s'.line })
        else (s'.addString? openedOn).bind fun t => some (.last t) := by
  have hfind : s.cursor.find? (fun c => c = quote || c = '\\' || c = '\n') =
      some (bytes plain).length :=
    h.stands.find?_some (plain_stopsString hquote) hplain hstop
  have hc : c.toNat < 128 := by
    have hcases : c = quote ∨ c = '\\' ∨ c = '\n' := by simpa [stopsString, or_assoc] using hstop
    rcases hcases with rfl | rfl | rfl
    · exact hquote
    · decide
    · decide
  obtain ⟨cursor, hadvance, hcursor⟩ := h.skip.stands.advance? hc
  refine ⟨{ s.skip (bytes plain).length with cursor }, h.skip.move hcursor, rfl, rfl,
    h.line_skip, ?_⟩
  rw [stringRound?]
  simp only [hfind, h.skip.stands.current_of_lt hc, hadvance, Option.bind_eq_bind, Option.bind_some]
  rfl

section Rounds

variable {quote : Char} {plain : List Char}

theorem ordinary_of_stopsString (hplain : ∀ c ∈ plain, stopsString quote c = false) :
    ∀ c ∈ plain, c ≠ '\\' ∧ c ≠ quote := by
  intro c hc
  have hstop := hplain c hc
  simp only [stopsString, Bool.or_eq_false_iff, decide_eq_false_iff_not] at hstop
  exact ⟨hstop.1.2, hstop.1.1⟩

inductive StringRound (s : Scanner ν source) (quote : Char) (openedOn : ν)
    (before read after : List Char) : Prop where
  | goesOn (mid rest : List Char) (s' : Scanner ν source) (heq : after = mid ++ rest)
      (nonempty : mid ≠ []) (within : s'.Within before (quote :: (read ++ mid)) rest)
      (hclosing : Text.Quoted.closing? quote 0 after = Text.Quoted.closing? quote mid.length rest)
      (tokens : s'.tokens = s.tokens) (errors : s'.errors = s.errors)
      (line : Counts s.line s'.line (newlines mid))
      (hread : s.stringRound? quote openedOn = some (.more s'))
  | ends (t : Scanner ν source) (hread : s.stringRound? quote openedOn = some (.last t))
      (hends : StringEnds s t quote openedOn before read after)

variable (openedOn : ν) (hquote : quote.toNat < 128)
  (hplain : ∀ c ∈ plain, stopsString quote c = false)
include hquote hplain

theorem Within.stringRound_end (h : s.Within before (quote :: read) plain) :
    StringRound s quote openedOn before read plain := by
  have hfind : s.cursor.find? (fun c => c = quote || c = '\\' || c = '\n') = none :=
    h.stands.find?_none (plain_stopsString hquote) hplain
  have hclosing := Text.Quoted.closing?_plain (ordinary_of_stopsString hplain) 0 []
  obtain ⟨hcount, hstands⟩ := h.stands.skipToEnd
  rw [List.append_nil, Text.Quoted.closing?] at hclosing
  refine .ends (s.skipToEnd.errorAt openedOn .unterminatedString) ?_
    (.unterminated hclosing (h.move hstands).stands rfl rfl ?_)
  · rw [stringRound?]
    simp only [hfind]
    rfl
  · rw [← hcount]
    exact Counts.skip _ _

theorem Within.stringRound_backslash (h : s.Within before (quote :: read) (plain ++ '\\' :: rest)) :
    StringRound s quote openedOn before read (plain ++ '\\' :: rest) := by
  obtain ⟨s', hwithin, htokens, herrors, hline, hread⟩ :=
    h.stringRound?_stop openedOn hquote hplain (by simp [stopsString])
  have hclosing := Text.Quoted.closing?_plain (ordinary_of_stopsString hplain) 0 ('\\' :: rest)
  rw [if_pos rfl] at hread
  cases rest with
  | nil =>
      -- nothing is left to take
      have hend : s'.cursor.current ≠ '\n' := by
        rw [hwithin.stands.current]
        decide
      rw [hwithin.stands.advanceChar?_end, Option.bind_some, if_neg hend] at hread
      rw [List.append_assoc] at hwithin
      refine .goesOn (plain ++ ['\\']) [] s' (by simp) (by simp) hwithin
        (hclosing.trans rfl) htokens
        herrors ?_ hread
      rw [newlines_append]
      exact hline
  | cons d rest =>
      obtain ⟨cursor, hadvance, hcursor⟩ := hwithin.stands.advanceChar?
      have hlater := (hwithin.move hcursor).withLine
        (if s'.cursor.current = '\n' then LineCounter.next s'.line else s'.line)
      have hcurrent : s'.cursor.current = '\n' ↔ d = '\n' := by
        have htest := hwithin.stands.test_current (plain_eq (c := '\n') (by decide)) (by decide)
        simpa using htest
      rw [hadvance, Option.bind_some] at hread
      rw [List.append_assoc, List.append_assoc, ← List.append_assoc plain] at hlater
      refine .goesOn (plain ++ ['\\'] ++ [d]) rest _ (by simp) (by simp) hlater ?_
        htokens herrors ?_
        hread
      · rw [hclosing, Text.Quoted.closing?, List.length_append, List.length_append, Nat.zero_add]
        rfl
      · rw [newlines_append, newlines_append]
        refine (hline.trans (Counts.refl _)).trans ?_
        by_cases hd : d = '\n'
        · rw [if_pos (hcurrent.mpr hd), hd]
          exact Counts.next _
        · rw [if_neg (mt hcurrent.mp hd), newlines_eq_zero (by simpa using Ne.symm hd)]
          exact Counts.refl _

theorem Within.stringRound_newline (h : s.Within before (quote :: read) (plain ++ '\n' :: rest))
    (hne : '\n' ≠ quote) : StringRound s quote openedOn before read (plain ++ '\n' :: rest) := by
  obtain ⟨s', hwithin, htokens, herrors, hline, hread⟩ :=
    h.stringRound?_stop openedOn hquote hplain (by simp [stopsString])
  have hclosing := Text.Quoted.closing?_plain (ordinary_of_stopsString hplain) 0 ('\n' :: rest)
  have hlater := hwithin.withLine (LineCounter.next s'.line)
  rw [if_neg (by decide), if_pos rfl] at hread
  rw [Text.Quoted.closing?_cons (by decide), if_neg hne, Nat.zero_add] at hclosing
  rw [List.append_assoc] at hlater
  refine .goesOn (plain ++ ['\n']) rest _ (by simp) (by simp) hlater ?_ htokens herrors ?_ hread
  · rw [hclosing, List.length_append]
    rfl
  · rw [newlines_append]
    exact hline.trans (Counts.next _)

theorem Within.stringRound_quote (h : s.Within before (quote :: read) (plain ++ quote :: rest))
    (hslash : quote ≠ '\\') (hnewline : quote ≠ '\n') :
    StringRound s quote openedOn before read (plain ++ quote :: rest) := by
  obtain ⟨s', hwithin, htokens, herrors, hline, hread⟩ :=
    h.stringRound?_stop openedOn hquote hplain (by simp [stopsString])
  have hclosing := Text.Quoted.closing?_plain (ordinary_of_stopsString hplain) 0 (quote :: rest)
  have hbody : s'.Within before (quote :: (read ++ plain) ++ [quote]) rest := hwithin
  have hadd := hbody.addString? openedOn hquote
  rw [if_neg hslash, if_neg hnewline, hadd] at hread
  rw [Text.Quoted.closing?_cons hslash, if_pos rfl, Nat.zero_add] at hclosing
  refine .ends _ hread (.closed plain rest rfl hclosing hwithin.stands ?_ herrors hline)
  rw [← htokens]
  rfl

end Rounds

theorem Within.stringRound {quote : Char} (hquote : quote = '"' ∨ quote = '\'') (openedOn : ν)
    (h : s.Within before (quote :: read) after) :
    StringRound s quote openedOn before read after := by
  have hascii : quote.toNat < 128 := by rcases hquote with rfl | rfl <;> decide
  have hne : quote ≠ '\\' ∧ quote ≠ '\n' := by rcases hquote with rfl | rfl <;> decide
  obtain ⟨plain, rest, rfl, hplain, hend⟩ := exists_run (fun c => !stopsString quote c) after
  have hpass : ∀ c ∈ plain, stopsString quote c = false := fun c hc => by simpa using hplain c hc
  cases rest with
  | nil =>
      rw [List.append_nil] at h ⊢
      exact h.stringRound_end openedOn hascii hpass
  | cons c rest =>
      have hstop : stopsString quote c := by simpa using takeWhile_eq_nil_iff.mp hend
      simp only [stopsString, Bool.or_eq_true, decide_eq_true_eq, or_assoc] at hstop
      rcases hstop with rfl | rfl | rfl
      · exact h.stringRound_quote openedOn hascii hpass hne.1 hne.2
      · exact h.stringRound_backslash openedOn hascii hpass
      · exact h.stringRound_newline openedOn hascii hpass (Ne.symm hne.2)

theorem exists_string? {quote : Char} (hquote : quote = '"' ∨ quote = '\'') (openedOn : ν)
    (h : s.Within before (quote :: read) after) :
    ∃ t, s.string? quote openedOn = some t ∧ StringEnds s t quote openedOn before read after := by
  have hround : ∀ (p : List Char × List Char) (s : Scanner ν source),
      s.Within before (quote :: p.1) p.2 →
        LoopStep (fun s => s.stringRound? quote openedOn)
          (fun p s => s.Within before (quote :: p.1) p.2)
          (fun p s t => StringEnds s t quote openedOn before p.1 p.2) p s := by
    rintro ⟨read, after⟩ s h
    cases h.stringRound hquote openedOn with
    | ends t hread hends => exact .last t hread hends
    | goesOn mid rest s' heq nonempty within hclosing tokens errors line hread =>
        subst heq
        rw [Text.Quoted.closing?_passed mid.length] at hclosing
        have hplace : s'.cursor.Stands (before ++ quote :: read ++ mid) rest := by
          rw [List.append_assoc]
          exact within.stands
        exact .more (read ++ mid, rest) s' hread (h.stands.place_lt hplace nonempty) within
          fun t hends => hends.of_later hclosing tokens errors line
  exact exists_loop? hround (i := (read, after)) h

theorem Within.reads_string (h : s.Within before [c] after) (hquote : c = '"' ∨ c = '\'') :
    s.Reads before c after (s.string? c s.line) := by
  have hcut := firstCut_quote hquote after
  have hcounts : ∀ {line : ν} {text : List Char}, Counts s.line line (newlines text) →
      Counts s.line line (newlines (c :: text)) := by
    intro line text hline
    rw [← List.singleton_append, newlines_append,
      newlines_eq_zero (by rcases hquote with rfl | rfl <;> decide), Nat.zero_add]
    exact hline
  obtain ⟨t, ht, hends⟩ := exists_string? hquote s.line h
  cases hends with
  | closed body following heq hclosing stands tokens errors line =>
      have htext : c :: ([] ++ body) ++ [c] = c :: (body ++ [c]) := by simp
      rw [htext] at stands tokens
      subst heq
      rw [List.append_cons] at hclosing ⊢
      refine ⟨body ++ [c], following, .token .string
        (some (.str (String.ofList (Text.Quoted.decode body)))), t, rfl, ?_, ht, stands, ?_, ?_, ?_⟩
      · refine Cut.takes_of_length ?_
        rw [List.append_cons] at hcut
        rw [hcut, stringCut, hclosing, List.length_append]
        simp
      · rw [tokens, Array.toList_push]
        rfl
      · rw [errors]
        simp [Piece.error?]
      · refine hcounts ?_
        rw [newlines_append, newlines_eq_zero (s := [c])
          (by rcases hquote with rfl | rfl <;> decide)]
        exact line
  | unterminated hclosing stands tokens errors line =>
      refine ⟨after, [], .fault .unterminatedString, t, (List.append_nil after).symm, ?_, ht,
        stands,
        ?_, ?_, hcounts line⟩
      · refine Cut.takes_at_end ?_ ?_
        · rw [hcut, stringCut, hclosing]
        · simp only [hcut, stringCut, hclosing, Nat.le_refl]
      · rw [tokens]
        simp [Piece.token?]
      · rw [errors, Array.toList_push]
        rfl

/-! ### Block comments -/

inductive CommentEnds (s t : Scanner ν source) (openedOn : ν) (before after : List Char) : Prop
  | closed (body line following : List Char) (heq : after = body ++ line ++ following)
      (hclosing : commentClosing? 0 after = some body.length)
      (hline : ∀ c ∈ line, c ≠ '\n') (hend : following.takeWhile (· ≠ '\n') = [])
      (stands : t.cursor.Stands (before ++ (body ++ line)) following)
      (tokens : t.tokens = s.tokens) (errors : t.errors = s.errors)
      (line : Counts s.line t.line (newlines body))
  | unterminated (hclosing : commentClosing? 0 after = none)
      (stands : t.cursor.Stands (before ++ after) [])
      (tokens : t.tokens = s.tokens)
      (errors : t.errors = s.errors.push ⟨number openedOn, .unterminatedBlockComment⟩)
      (line : Counts s.line t.line (newlines after))

theorem CommentEnds.of_later {s s' t : Scanner ν source} {openedOn : ν} {mid : List Char}
    (h : CommentEnds s' t openedOn (before ++ mid) after)
    (hclosing : commentClosing? 0 (mid ++ after) = commentClosing? mid.length after)
    (htokens : s'.tokens = s.tokens) (herrors : s'.errors = s.errors)
    (hcounts : Counts s.line s'.line (newlines mid)) :
    CommentEnds s t openedOn before (mid ++ after) := by
  rw [commentClosing?_passed mid.length] at hclosing
  cases h with
  | closed body line following heq hlater hline hend stands tokens errors lines =>
      refine .closed (mid ++ body) line following ?_ ?_ hline hend ?_ (tokens.trans htokens)
        (errors.trans herrors) ?_
      · rw [heq]
        simp
      · rw [hclosing, hlater, Option.map_some, List.length_append]
      · rw [List.append_assoc, ← List.append_assoc before]
        exact stands
      · rw [newlines_append]
        exact hcounts.trans lines
  | unterminated hlater stands tokens errors lines =>
      refine .unterminated (by rw [hclosing, hlater]; rfl) ?_ (tokens.trans htokens)
        (errors.trans (by rw [herrors])) ?_
      · rw [← List.append_assoc]
        exact stands
      · rw [newlines_append]
        exact hcounts.trans lines

/-- What one round of the loop of a block comment comes to. -/
inductive CommentRound (s : Scanner ν source) (openedOn : ν) (before after : List Char) : Prop where
  | goesOn (mid rest : List Char) (s' : Scanner ν source) (heq : after = mid ++ rest)
      (nonempty : mid ≠ []) (stands : s'.cursor.Stands (before ++ mid) rest)
      (hclosing : commentClosing? 0 after = commentClosing? mid.length rest)
      (tokens : s'.tokens = s.tokens) (errors : s'.errors = s.errors)
      (line : Counts s.line s'.line (newlines mid))
      (hread : s.blockCommentRound openedOn = .more s')
  | ends (t : Scanner ν source) (hread : s.blockCommentRound openedOn = .last t)
      (hends : CommentEnds s t openedOn before after)

theorem ascii_closingWord : ∀ w ∈ "=end".toList, w.toNat < 128 := by
  simp

theorem commentRound_end (openedOn : ν) (h : s.cursor.Stands before after)
    (hnone : ∀ t u, after = t ++ u → ¬"=end".toList <+: u) :
    CommentRound s openedOn before after := by
  have hfind : s.cursor.findWord? ['=', 'e', 'n', 'd'] = none :=
    h.findWord?_none ascii_closingWord (by decide) hnone
  obtain ⟨hcount, hstands⟩ := h.skipToEnd
  refine .ends (s.skipToEnd.errorAt openedOn .unterminatedBlockComment) ?_ ?_
  · simp only [blockCommentRound, hfind]
  · refine .unterminated (commentClosing?_none 0 hnone) hstands rfl rfl ?_
    rw [← hcount]
    exact Counts.skip _ _

/-- Over the next closing word: the comment goes on if a letter follows. -/
theorem commentRound_word (openedOn : ν) {mid : List Char}
    (h : s.cursor.Stands before (mid ++ "=end".toList ++ after))
    (hfirst : ∀ t u, mid ++ "=end".toList ++ after = t ++ u → t.length < mid.length →
      ¬"=end".toList <+: u) :
    CommentRound s openedOn before (mid ++ "=end".toList ++ after) := by
  have hfind : s.cursor.findWord? ['=', 'e', 'n', 'd'] = some (bytes mid).length :=
    h.findWord?_some ascii_closingWord (by decide) hfirst
  have hbytes : (bytes mid).length + 4 = (bytes (mid ++ "=end".toList)).length := by
    rw [bytes_append, List.length_append]
    rfl
  have hpassed : 0 + mid.length + 4 = (mid ++ "=end".toList).length := by
    rw [Nat.zero_add, List.length_append]
    rfl
  have hclosing := commentClosing?_first 0 hfirst
  rw [hpassed] at hclosing
  obtain ⟨hcount, hstands⟩ := h.skip
  have hcounts : Counts s.line (s.skip (bytes (mid ++ "=end".toList)).length).line
      (newlines (mid ++ "=end".toList)) := by
    rw [← hcount]
    exact Counts.skip _ _
  have hcurrent : isLetter (s.skip (bytes (mid ++ "=end".toList)).length).cursor.current =
      after.head?.any isLetter := hstands.test_current plain_isLetter (by decide)
  cases hletter : after.head?.any isLetter with
  | true =>
      rw [hletter] at hclosing hcurrent
      refine .goesOn (mid ++ "=end".toList) after (s.skip (bytes (mid ++ "=end".toList)).length) rfl
        (by simp) hstands hclosing rfl rfl hcounts ?_
      simp only [blockCommentRound, hfind, hbytes, hcurrent, if_true]
  | false =>
      rw [hletter] at hclosing hcurrent
      obtain ⟨line, following, rfl, hline, hend⟩ := exists_run (· ≠ '\n') after
      have hnewline : '\n' ∉ line := fun hmem => by simpa using hline _ hmem
      refine .ends { s.skip (bytes (mid ++ "=end".toList)).length with
        cursor := (s.skip (bytes (mid ++ "=end".toList)).length).cursor.skipToNewline } ?_ ?_
      · simp only [blockCommentRound, hfind, hbytes, hcurrent]
        rfl
      · refine .closed (mid ++ "=end".toList) line following (by simp) hclosing
          (fun c hc => by simpa using hline c hc) hend ?_ rfl rfl hcounts
        rw [← List.append_assoc]
        exact hstands.skipToNewline hnewline hend

theorem commentRound (openedOn : ν) (h : s.cursor.Stands before after) :
    CommentRound s openedOn before after := by
  rcases exists_first "=end".toList after with hnone | ⟨mid, rest, rfl, hfirst⟩
  · exact commentRound_end openedOn h hnone
  · exact commentRound_word openedOn h hfirst

theorem exists_blockComment? (openedOn : ν) (h : s.cursor.Stands before after) :
    ∃ t, s.blockComment? openedOn = some t ∧ CommentEnds s t openedOn before after := by
  have hround : ∀ (p : List Char × List Char) (s : Scanner ν source),
      s.cursor.Stands p.1 p.2 →
        LoopStep (fun s => some (s.blockCommentRound openedOn)) (fun p s => s.cursor.Stands p.1 p.2)
          (fun p s t => CommentEnds s t openedOn p.1 p.2) p s := by
    rintro ⟨before, after⟩ s h
    cases commentRound openedOn h with
    | ends t hread hends => exact .last t (congrArg some hread) hends
    | goesOn mid rest s' heq nonempty hstands hclosing htokens herrors hcounts hread =>
        subst heq
        exact .more (before ++ mid, rest) s' (congrArg some hread) (h.place_lt hstands nonempty)
          hstands fun t hends => hends.of_later hclosing htokens herrors hcounts
  exact exists_loop? hround (i := (before, after)) h

theorem firstCut_blockComment (hopens : opensBlockComment rest) :
    firstCut '=' rest = blockCommentCut rest := by
  simp [firstCut, isDigit, startsName, isLetter, hopens]

theorem CommentEnds.reads {t t' : Scanner ν source}
    (h : CommentEnds t t' s.line (before ++ '=' :: "begin".toList) after)
    (hopens : opensBlockComment ("begin".toList ++ after)) (htokens : t.tokens = s.tokens)
    (herrors : t.errors = s.errors) (hline : t.line = s.line) :
    s.Reads before '=' ("begin".toList ++ after) (some t') := by
  have hcut := firstCut_blockComment hopens
  have hpassed := commentClosing?_begin 0 after
  rw [commentClosing?_passed (0 + 5)] at hpassed
  have hcounts : ∀ {text : List Char}, Counts t.line t'.line (newlines text) →
      Counts s.line t'.line (newlines ('=' :: ("begin".toList ++ text))) := by
    intro text hcounts
    rw [← List.cons_append, newlines_append, newlines_eq_zero (by decide), Nat.zero_add, ← hline]
    exact hcounts
  cases h with
  | closed body line following heq hclosing hline' hend stands tokens errors lines =>
      subst heq
      rw [hclosing, Option.map_some] at hpassed
      have hdrop : ("begin".toList ++ (body ++ line ++ following)).drop (0 + 5 + body.length) =
          line ++ following := by
        have hsplit : "begin".toList ++ (body ++ line ++ following) =
            "begin".toList ++ body ++ (line ++ following) := by simp
        rw [hsplit]
        exact List.drop_left' (List.length_append ..)
      have hrun : (line ++ following).takeWhile (· ≠ '\n') = line :=
        takeWhile_run (fun c hc => by simpa using hline' c hc) hend
      have hlength : 0 + 5 + body.length + line.length =
          ("begin".toList ++ body ++ line).length := by
        rw [List.length_append, List.length_append]
        rfl
      have hsplit : "begin".toList ++ (body ++ line ++ following) =
          "begin".toList ++ body ++ line ++ following := by simp
      rw [blockCommentCut, hpassed] at hcut
      simp only [hdrop, restOfLine, hrun, hlength] at hcut
      rw [hsplit] at hcut ⊢
      refine ⟨"begin".toList ++ body ++ line, following, .blockComment, t', rfl,
        Cut.takes_of_length hcut, rfl, ?_, ?_, ?_, ?_⟩
      · simpa using stands
      · rw [tokens, htokens]
        simp [Piece.token?]
      · rw [errors, herrors]
        simp [Piece.error?]
      · have hnewlines : newlines line = 0 :=
          newlines_eq_zero fun hmem => hline' _ hmem rfl
        rw [List.append_assoc]
        refine hcounts ?_
        rw [newlines_append, hnewlines]
        exact lines
  | unterminated hclosing stands tokens errors lines =>
      rw [hclosing, Option.map_none] at hpassed
      rw [blockCommentCut, hpassed] at hcut
      refine ⟨"begin".toList ++ after, [], .fault .unterminatedBlockComment, t', by simp, ?_, rfl,
        ?_, ?_, ?_, hcounts lines⟩
      · rw [hcut]
        exact Cut.takes_at_end rfl (Nat.le_refl _)
      · simpa using stands
      · rw [tokens, htokens]
        simp [Piece.token?]
      · rw [errors, herrors, Array.toList_push]
        rfl

/-- Behind `=` and the letters that follow it there is a block comment, or `=` stands alone. -/
theorem Within.reads_equalOrBlockComment (h : s.Within before ['='] after)
    (hequal : after.head? ≠ some '=') : s.Reads before '=' after s.equalOrBlockComment? := by
  obtain ⟨word, rest, rfl, hword, hend⟩ := exists_run isLetter after
  have hstands := h.stands.eatWhile plain_isLetter hword hend
  have hslice := h.stands.sliceFrom? hstands
  have hopens : opensBlockComment (word ++ rest) = decide (word = "begin".toList) := by
    rw [opensBlockComment, takeWhile_run hword hend]
  by_cases hbegin : word = "begin".toList
  · subst hbegin
    obtain ⟨t, ht, hends⟩ := exists_blockComment? s.line
      (s := { s with cursor := s.cursor.eatWhile isLetter }) (h.move hstands).stands
    have hread : s.equalOrBlockComment? = some t := by
      rw [equalOrBlockComment?]
      simp only [hslice, Option.bind_eq_bind, Option.bind_some]
      exact ht
    rw [hread]
    exact hends.reads (by rw [hopens]; rfl) rfl rfl rfl
  · obtain ⟨cursor, hrewind, hback⟩ := h.stands.rewind? hstands
    have hne : String.ofList word ≠ "begin" := by
      intro heq
      exact hbegin (by rw [← heq, String.toList_ofList])
    have hread : s.equalOrBlockComment? = ({ s with cursor } : Scanner ν source).add? .equal := by
      rw [equalOrBlockComment?]
      simp only [hslice, Option.bind_eq_bind, Option.bind_some, if_neg hne, hrewind]
    have hagain : ({ s with cursor } : Scanner ν source).Within before ['='] (word ++ rest) :=
      ⟨h.start, hback⟩
    have hmem : (['='], Kind.equal) ∈ operatorSpellings := by decide +kernel
    have hlonger : ∀ e ∈ (word ++ rest).head?, e ∉ extensions ['='] := by
      have honly : (extensions ['=']).all (· = '=') := by decide +kernel
      intro e he hmem
      rw [of_decide_eq_true (List.all_eq_true.mp honly e hmem)] at he
      exact hequal he
    have hreads := hagain.reads_add hmem hlonger fun _ =>
      hopens.trans (decide_eq_false hbegin)
    rw [hread]
    exact hreads

end Scanner

end Scriptlet.Source
