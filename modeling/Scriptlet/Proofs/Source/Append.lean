import Scriptlet.Proofs.Source.Scanner
import Scriptlet.Proofs.Tree.Renumber

/-!
# Texts put one after the other

A text that ends with a newline and leaves nothing unterminated is cut into the same pieces whatever
text follows, and the text that follows is cut as if it stood alone.  Its tokens and faults only
move down by the number of lines in front of it.
-/

namespace Scriptlet.Source

variable {s t : List Char}

/-! ## Pieces -/

/-- From where a piece starts, the text is cut as if nothing stood in front of it. -/
theorem pieces_of_eq_append {before after : List Piece} (h : pieces s = before ++ after) :
    pieces (after.flatMap Piece.text) = after := by
  induction s using pieces_induction generalizing before with
  | nil => simp_all
  | cons c rest ih =>
      cases before with
      | nil => rw [← List.nil_append after, ← h, flatMap_text_pieces]
      | cons q before =>
          rw [pieces_cons] at h
          exact ih (List.cons.inj h).2

/-- What is true of the first piece of every text, in front of the rest of it, is true of all. -/
theorem of_pieces_eq {P : Piece → List Char → Prop}
    (first : ∀ c rest, P ⟨c :: rest.take (firstCut c rest).more, (firstCut c rest).role⟩
      (rest.drop (firstCut c rest).more))
    {before after : List Piece} {p : Piece} (h : pieces s = before ++ p :: after) :
    P p (after.flatMap Piece.text) := by
  have hpieces := pieces_of_eq_append h
  cases htext : (p :: after).flatMap Piece.text with
  | nil =>
      rw [htext, pieces_nil] at hpieces
      cases hpieces
  | cons c rest =>
      rw [htext, pieces_cons] at hpieces
      obtain ⟨rfl, rfl⟩ := List.cons.inj hpieces
      rw [flatMap_text_pieces]
      exact first c rest

/-- A text that ends with a newline does not run on into the text that follows it. -/
theorem pieces_append (hline : s = [] ∨ EndsLine s)
    (hclosed : ∀ p ∈ pieces s, p.role.isUnterminated = false) :
    pieces (s ++ t) = pieces s ++ pieces t := by
  induction s using pieces_induction with
  | nil => simp
  | cons c rest ih =>
      have hend : EndsLine (c :: rest) := hline.resolve_left (List.cons_ne_nil c rest)
      rw [pieces_cons] at hclosed
      have hlater := fun p hp => hclosed p (List.mem_cons_of_mem _ hp)
      rw [List.cons_append, pieces_cons, pieces_cons c rest]
      by_cases hc : c = '\n'
      · subst hc
        have hrest : rest = [] ∨ EndsLine rest := by
          by_cases hrest : rest = []
          · exact .inl hrest
          · exact .inr (hend.tail hrest)
        simpa [firstCut] using ih (by simpa [firstCut] using hrest) hlater
      · have hrest := hend.of_cons hc
        have hfirst := hclosed _ List.mem_cons_self
        obtain ⟨hcut, hmore⟩ := firstCut_append (t := t) hrest hc hfirst
        rw [hcut, List.take_append_of_le_length (Nat.le_of_lt hmore),
          List.drop_append_of_le_length (Nat.le_of_lt hmore), ih (.inr (hrest.drop hmore)) hlater,
          List.cons_append]

/-! ## Tokens and faults -/

theorem Piece.token?_add (p : Piece) (line k : Nat) :
    p.token? (line + k) = (p.token? line).map (Token.renumber (· + k)) := by
  unfold Piece.token?
  split <;> rfl

theorem Piece.error?_add (p : Piece) (line k : Nat) :
    p.error? (line + k) = (p.error? line).map (LexError.renumber (· + k)) := by
  unfold Piece.error?
  split <;> rfl

private theorem filterMap_map_numbered {α : Type} (k : Nat) (ps : List (Nat × Piece))
    (f : Nat × Piece → Option α) (g : α → α) (h : ∀ p, f (p.1 + k, p.2) = (f p).map g) :
    (ps.map fun p => (p.1 + k, p.2)).filterMap f = (ps.filterMap f).map g := by
  induction ps with
  | nil => rfl
  | cons p ps ih => cases hp : f p <;> simp [h, hp, ih]

theorem exists_numbered {p : Piece} {ps : List Piece} (h : p ∈ ps) :
    ∃ line, (line, p) ∈ numbered 1 ps := by
  rw [← map_snd_numbered 1 ps, List.mem_map] at h
  obtain ⟨⟨line, q⟩, hmem, rfl⟩ := h
  exact ⟨line, hmem⟩

theorem isUnterminated_of_errors
    (h : ∀ e ∈ (lexChars s).errors,
      e.fault ≠ .unterminatedString ∧ e.fault ≠ .unterminatedBlockComment) :
    ∀ p ∈ pieces s, p.role.isUnterminated = false := by
  intro p hp
  obtain ⟨line, hmem⟩ := exists_numbered hp
  cases hrole : p.role with
  | fault reason =>
      have herror : ⟨line, reason⟩ ∈ (lexChars s).errors := by
        exact List.mem_filterMap.mpr ⟨(line, p), hmem, by simp [Piece.error?, hrole]⟩
      obtain ⟨hstring, hcomment⟩ := h _ herror
      cases reason <;> simp_all [Role.isUnterminated, Fault.isUnterminated]
  | token kind literal => rfl
  | blank => rfl
  | lineComment => rfl
  | blockComment => rfl

theorem tokens_lexChars_append (h : pieces (s ++ t) = pieces s ++ pieces t) :
    (lexChars (s ++ t)).tokens = (lexChars s).tokens.dropLast ++
      (lexChars t).tokens.map (Token.renumber (· + newlines s)) := by
  have hline : 1 + newlines (s ++ t) = 1 + newlines t + newlines s := by
    rw [newlines_append]
    omega
  simp only [lexChars, h, numbered_append, numbered_add, flatMap_text_pieces, List.filterMap_append]
  rw [filterMap_map_numbered _ _ _ _ fun p => p.2.token?_add p.1 _, List.dropLast_concat,
    List.map_append, List.append_assoc, hline]
  rfl

theorem errors_lexChars_append (h : pieces (s ++ t) = pieces s ++ pieces t) :
    (lexChars (s ++ t)).errors = (lexChars s).errors ++
      (lexChars t).errors.map (LexError.renumber (· + newlines s)) := by
  simp only [lexChars, h, numbered_append, numbered_add, flatMap_text_pieces, List.filterMap_append]
  rw [filterMap_map_numbered _ _ _ _ fun p => p.2.error?_add p.1 _]

/-- Lexing one text after another gives the tokens and the faults of both, those of the second moved
down by the lines of the first, if the first text ends with a newline and reports nothing that is
left unterminated. -/
theorem lex_append {source later : String}
    (hline : source = "" ∨ source.toList.getLast? = some '\n')
    (hclosed : ∀ e ∈ (lex source).errors,
      e.fault ≠ .unterminatedString ∧ e.fault ≠ .unterminatedBlockComment) :
    (lex (source ++ later)).tokens = (lex source).tokens.dropLast ++
        (lex later).tokens.map (Token.renumber (· + newlines source.toList)) ∧
      (lex (source ++ later)).errors = (lex source).errors ++
        (lex later).errors.map (LexError.renumber (· + newlines source.toList)) := by
  have hpieces := pieces_append (t := later.toList)
    (hline.imp (fun h => by simp [h]) id) (isUnterminated_of_errors (lex_eq source ▸ hclosed))
  rw [lex_eq, lex_eq, lex_eq, String.toList_append]
  exact ⟨tokens_lexChars_append hpieces, errors_lexChars_append hpieces⟩

/-- Faults do not keep a text apart from the next, not even after a string and a comment that go
over several lines. -/
theorem lex_append_after_faults :
    (lex ("a @ 1x 'b\nc'\n=begin\n x=\n=end of it\n" ++ "@\n'open")).errors =
      [⟨1, .unexpectedCharacter '@'⟩, ⟨1, .invalidIdentifier⟩] ++
        [⟨1 + 5, .unexpectedCharacter '@'⟩, ⟨2 + 5, .unterminatedString⟩] := by
  have hfirst : (lex "a @ 1x 'b\nc'\n=begin\n x=\n=end of it\n").errors =
      [⟨1, .unexpectedCharacter '@'⟩, ⟨1, .invalidIdentifier⟩] := by
    rw [lex_eq]
    decide +kernel
  have hsecond : (lex "@\n'open").errors =
      [⟨1, .unexpectedCharacter '@'⟩, ⟨2, .unterminatedString⟩] := by
    rw [lex_eq]
    decide +kernel
  rw [(lex_append (.inr rfl) (by simp [hfirst])).2, hfirst, hsecond]
  rfl

/-! ## Tokens before the end mark -/

theorem exists_pieces_newline (hline : EndsLine s)
    (hclosed : ∀ p ∈ pieces s, p.role.isUnterminated = false) :
    ∃ ps, pieces s = ps ++ [⟨['\n'], .token .newline none⟩] := by
  induction s using pieces_induction with
  | nil => cases hline
  | cons c rest ih =>
      rw [pieces_cons] at hclosed ⊢
      have hlater := fun p hp => hclosed p (List.mem_cons_of_mem _ hp)
      by_cases hc : c = '\n'
      · subst hc
        cases rest with
        | nil => exact ⟨[], by simp [firstCut]⟩
        | cons d rest =>
            obtain ⟨ps, hps⟩ := ih (by simpa [firstCut, EndsLine] using hline) hlater
            exact ⟨_ :: ps, by rw [hps]; rfl⟩
      · have hrest := hline.of_cons hc
        have hmore := (firstCut_append (t := []) hrest hc (hclosed _ List.mem_cons_self)).2
        obtain ⟨ps, hps⟩ := ih (hrest.drop hmore) hlater
        exact ⟨_ :: ps, by rw [hps]; rfl⟩

theorem getLast?_tokens (hline : EndsLine s)
    (hclosed : ∀ p ∈ pieces s, p.role.isUnterminated = false) :
    ∃ last, (lexChars s).tokens.dropLast.getLast? = some last ∧ last.kind = .newline := by
  obtain ⟨ps, hps⟩ := exists_pieces_newline hline hclosed
  rw [lexChars, List.dropLast_concat, hps, numbered_append, List.filterMap_append]
  refine ⟨⟨.newline, "\n", none, 1 + newlines (ps.flatMap Piece.text)⟩, ?_, rfl⟩
  simp [numbered, Piece.token?]

private theorem lookup_ne_eof {spellings : List (List Char × Kind)} (word : List Char)
    (hspellings : ∀ spelling ∈ spellings, spelling.2 ≠ .eof) :
    spellings.lookup word ≠ some .eof := by
  intro h
  exact hspellings (word, .eof) (mem_of_lookup h) rfl

private theorem role_wordCut_ne_eof (c : Char) (rest : List Char) (literal : Option Literal) :
    (wordCut c rest).role ≠ .token .eof literal := by
  have hlookup : wordSpellings.lookup (c :: rest.takeWhile continuesName) ≠ some .eof :=
    lookup_ne_eof _ (by decide +kernel)
  rw [wordCut]
  cases hword : wordSpellings.lookup (c :: rest.takeWhile continuesName) with
  | none => simp
  | some kind =>
      rintro ⟨⟩
      exact hlookup hword

private theorem role_numberCut_ne_eof (c : Char) (rest : List Char) (literal : Option Literal) :
    (numberCut c rest).role ≠ .token .eof literal := by
  unfold numberCut integerRole
  dsimp only
  repeat' split
  all_goals simp

private theorem role_firstCut_ne_eof (c : Char) (rest : List Char) (literal : Option Literal) :
    (firstCut c rest).role ≠ .token .eof literal := by
  refine firstCut_cases (motive := fun cut => cut.role ≠ .token .eof literal) c rest
    (by simp) (by simp) (by simp) ?_ ?_ ?_ ?_ ?_ (by simp)
  · intro _
    unfold stringCut
    split <;> simp
  · exact fun _ => role_numberCut_ne_eof c rest literal
  · exact fun _ => role_wordCut_ne_eof c rest literal
  · intro _ _
    unfold blockCommentCut
    split <;> simp
  · intro cut hcut
    obtain ⟨n, -, k, hk, rfl⟩ := exists_of_operatorCut? hcut
    rintro ⟨⟩
    exact lookup_ne_eof _ (by decide +kernel) hk

theorem role_pieces_ne_eof {p : Piece} (h : p ∈ pieces s) (literal : Option Literal) :
    p.role ≠ .token .eof literal := by
  induction s using pieces_induction with
  | nil => simp at h
  | cons c rest ih =>
      rw [pieces_cons, List.mem_cons] at h
      rcases h with rfl | h
      · exact role_firstCut_ne_eof c rest literal
      · exact ih h

theorem kind_ne_eof_of_token? {p : Piece} {line : Nat} {t : Token} (h : p ∈ pieces s)
    (ht : p.token? line = some t) : t.kind ≠ .eof := by
  unfold Piece.token? at ht
  split at ht
  · next kind literal hrole =>
      cases ht
      rintro rfl
      exact role_pieces_ne_eof h literal hrole
  · cases ht

theorem kind_tokens_ne_eof {t : Token} (h : t ∈ (lexChars s).tokens.dropLast) : t.kind ≠ .eof := by
  rw [lexChars, List.dropLast_concat, List.mem_filterMap] at h
  obtain ⟨⟨line, p⟩, hmem, ht⟩ := h
  have hp : p ∈ pieces s := by
    rw [← map_snd_numbered 1 (pieces s)]
    exact List.mem_map_of_mem hmem
  exact kind_ne_eof_of_token? hp ht

end Scriptlet.Source
