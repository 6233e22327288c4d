import Mathlib.Data.List.Forall2
import Scriptlet.Proofs.Source.Tiling

/-!
# Lines

A token or a fault is reported on the line on which its text starts, whatever newlines stand in
strings, after backslashes or in comments before it.  The number of that line is one more than the
number of newline bytes in front of the text.
-/

namespace Scriptlet.Source

/-! ## Newlines in bytes -/

def newlineBytes (s : String) : Nat :=
  s.toByteArray.data.count 10

theorem newlineBytes_eq (s : String) : newlineBytes s = newlines s.toList := by
  have hcount := List.count_map_of_injective s.toByteArray.data.toList _ ofUInt8_injective 10
  rw [data_toByteArray] at hcount
  rw [newlineBytes, ← count_bytes, ← Array.count_toList]
  exact hcount.symm

/-! ## Places -/

def placed (start : String) : List Piece → List (String × Piece)
  | [] => []
  | p :: ps => (start, p) :: placed (start ++ p.lexeme) ps

theorem mem_placed_iff {start before : String} {p : Piece} {ps : List Piece} :
    (before, p) ∈ placed start ps ↔ ∃ earlier later, ps = earlier ++ p :: later ∧
      before = start ++ String.join (earlier.map Piece.lexeme) := by
  induction ps generalizing start with
  | nil => simp [placed]
  | cons q ps ih =>
      rw [placed, List.mem_cons, ih, Prod.mk.injEq]
      constructor
      · rintro (⟨rfl, rfl⟩ | ⟨earlier, later, rfl, rfl⟩)
        · exact ⟨[], ps, rfl, by simp⟩
        · exact ⟨q :: earlier, later, rfl, by simp [String.append_assoc]⟩
      · rintro ⟨_ | ⟨r, earlier⟩, later, heq, rfl⟩
        · obtain ⟨rfl, rfl⟩ := List.cons.inj heq
          exact .inl ⟨by simp, rfl⟩
        · obtain ⟨rfl, rfl⟩ := List.cons.inj heq
          exact .inr ⟨earlier, later, rfl, by simp [String.append_assoc]⟩

theorem numbered_eq_placed (start : String) (ps : List Piece) :
    numbered (1 + newlineBytes start) ps =
      (placed start ps).map fun b => (1 + newlineBytes b.1, b.2) := by
  induction ps generalizing start with
  | nil => rfl
  | cons p ps ih =>
      have hline : 1 + newlineBytes start + newlines p.text =
          1 + newlineBytes (start ++ p.lexeme) := by
        simp [newlineBytes_eq, newlines, Piece.lexeme, Nat.add_assoc]
      rw [numbered, hline, ih, placed, List.map_cons]

theorem numbered_one (ps : List Piece) :
    numbered 1 ps = (placed "" ps).map fun b => (1 + newlineBytes b.1, b.2) :=
  numbered_eq_placed "" ps

/-! ## Openings -/

/-- With what the text of a string literal or of a fault starts, and where it ends. -/
def Role.Opens (text following : List Char) : Role → Prop
  | .token _ (some (.str _)) =>
      ∃ quote body, (quote = '"' ∨ quote = '\'') ∧ text = quote :: body ++ [quote]
  | .fault .unterminatedString =>
      ∃ quote body, (quote = '"' ∨ quote = '\'') ∧ text = quote :: body ∧ following = []
  | .fault .unterminatedBlockComment => ∃ body, text = "=begin".toList ++ body ∧ following = []
  | .fault (.unexpectedCharacter c) => text = [c]
  | .fault .invalidIdentifier | .fault .numberOutOfRange =>
      ∃ digit more, isDigit digit ∧ text = digit :: more
  | .token _ _ | .blank | .lineComment | .blockComment => True

variable {c : Char} {s rest : List Char}

private theorem opens_stringCut (hquote : c = '"' ∨ c = '\'') :
    (stringCut c rest).role.Opens (c :: rest.take (stringCut c rest).more)
      (rest.drop (stringCut c rest).more) := by
  cases hclosing : Text.Quoted.closing? c 0 rest with
  | none =>
      simp only [stringCut, hclosing, List.take_length, List.drop_length]
      exact ⟨c, rest, hquote, rfl, rfl⟩
  | some n =>
      obtain ⟨i, hn, hi⟩ := getElem?_of_closing? hclosing
      obtain rfl : n = i + 1 := by omega
      have htake : rest.take (i + 1) = rest.take i ++ [c] := by
        rw [List.take_add_one, hi, Option.toList_some]
      simp only [stringCut, hclosing, htake]
      exact ⟨c, rest.take i, hquote, rfl⟩

private theorem opens_numberCut (hdigit : isDigit c) (text following : List Char) :
    (numberCut c rest).role.Opens (c :: text) following := by
  have hnumber : ∃ digit more, isDigit digit ∧ c :: text = digit :: more := ⟨c, text, hdigit, rfl⟩
  unfold numberCut integerRole
  dsimp only
  repeat' split
  all_goals first | exact hnumber | trivial

private theorem opens_blockCommentCut (hopens : opensBlockComment rest) :
    (blockCommentCut rest).role.Opens ('=' :: rest.take (blockCommentCut rest).more)
      (rest.drop (blockCommentCut rest).more) := by
  unfold blockCommentCut
  split
  · obtain ⟨body, rfl, -⟩ := exists_of_opensBlockComment hopens
    dsimp only
    rw [List.take_length, List.drop_length]
    exact ⟨body, rfl, rfl⟩
  · trivial

theorem opens_firstCut (c : Char) (rest : List Char) :
    (firstCut c rest).role.Opens (c :: rest.take (firstCut c rest).more)
      (rest.drop (firstCut c rest).more) := by
  refine firstCut_cases (motive := fun cut => cut.role.Opens (c :: rest.take cut.more)
    (rest.drop cut.more)) c rest ?newline ?blank ?lineComment ?string ?number ?word ?blockComment
    ?operator ?unexpected
  case string => exact fun hquote => opens_stringCut hquote
  case number => exact fun hdigit => opens_numberCut hdigit _ _
  case blockComment =>
    rintro rfl hopens
    exact opens_blockCommentCut hopens
  case unexpected => rfl
  case newline | blank | lineComment | word => exact fun _ => trivial
  case operator =>
    intro cut hcut
    obtain ⟨n, -, k, -, rfl⟩ := exists_of_operatorCut? hcut
    trivial

/-! ## Lines of tokens and faults -/

theorem pairwise_placed (start : String) (ps : List Piece) :
    (placed start ps).Pairwise fun a b => newlineBytes a.1 ≤ newlineBytes b.1 := by
  induction ps generalizing start with
  | nil => exact .nil
  | cons p ps ih =>
      refine .cons (fun b hb => ?_) (ih _)
      obtain ⟨earlier, later, -, hb⟩ := mem_placed_iff.mp hb
      simp only [hb, newlineBytes_eq, String.toList_append, newlines, List.count_append]
      omega

theorem Piece.line_of_token? {p : Piece} {line : Nat} {t : Token} (h : p.token? line = some t) :
    t.line = line := by
  unfold Piece.token? at h
  split at h
  · cases h
    rfl
  · cases h

theorem Piece.line_of_error? {p : Piece} {line : Nat} {e : LexError}
    (h : p.error? line = some e) : e.line = line := by
  unfold Piece.error? at h
  split at h
  · cases h
    rfl
  · cases h

theorem tokens_lex (source : String) :
    (lex source).tokens = (placed "" (pieces source.toList)).filterMap
        (fun b => b.2.token? (1 + newlineBytes b.1)) ++ [Token.eof (1 + newlineBytes source)] := by
  rw [lex_eq, lexChars, numbered_one, List.filterMap_map, newlineBytes_eq source]
  rfl

theorem errors_lex (source : String) :
    (lex source).errors = (placed "" (pieces source.toList)).filterMap
      fun b => b.2.error? (1 + newlineBytes b.1) := by
  rw [lex_eq]
  simp only [lexChars, numbered_one, List.filterMap_map]
  rfl

/-- Every piece stands in the text behind what is placed in front of it, and is a first piece there.
-/
theorem exists_after_of_first {P : Piece → List Char → Prop}
    (first : ∀ c rest, P ⟨c :: rest.take (firstCut c rest).more, (firstCut c rest).role⟩
      (rest.drop (firstCut c rest).more))
    {source before : String} {p : Piece} (h : (before, p) ∈ placed "" (pieces source.toList)) :
    ∃ after, source = before ++ p.lexeme ++ after ∧ P p after.toList := by
  obtain ⟨earlier, later, hpieces, rfl⟩ := mem_placed_iff.mp h
  have hsource := flatMap_text_pieces source.toList
  refine ⟨String.ofList (later.flatMap Piece.text), ?_, ?_⟩
  · rw [hpieces, List.flatMap_append, List.flatMap_cons] at hsource
    rw [← String.toList_inj]
    simp [← hsource, String.toList_join, List.flatMap_map, Piece.lexeme]
  · rw [String.toList_ofList]
    exact of_pieces_eq first hpieces

theorem exists_after_of_mem_placed {source before : String} {p : Piece}
    (h : (before, p) ∈ placed "" (pieces source.toList)) :
    ∃ after, source = before ++ p.lexeme ++ after ∧ p.role.Opens p.text after.toList :=
  exists_after_of_first (P := fun p following => p.role.Opens p.text following) opens_firstCut h

theorem pairwise_line_tokens (source : String) :
    (lex source).tokens.Pairwise fun t u => t.line ≤ u.line := by
  rw [tokens_lex, List.pairwise_append]
  refine ⟨?_, List.pairwise_singleton _ _, ?_⟩
  · refine (pairwise_placed "" (pieces source.toList)).filterMap _ fun a b hle t ht u hu => ?_
    rw [Piece.line_of_token? ht, Piece.line_of_token? hu]
    omega
  · intro t ht last hlast
    obtain ⟨b, hb, ht⟩ := List.mem_filterMap.mp ht
    obtain ⟨after, hsource, -⟩ := exists_after_of_mem_placed hb
    rw [Piece.line_of_token? ht, List.mem_singleton.mp hlast, newlineBytes_eq, newlineBytes_eq,
      hsource, String.toList_append, String.toList_append, newlines, newlines, List.count_append,
      List.count_append]
    change _ ≤ 1 + _
    omega

theorem pairwise_line_errors (source : String) :
    (lex source).errors.Pairwise fun e f => e.line ≤ f.line := by
  rw [errors_lex]
  refine (pairwise_placed "" (pieces source.toList)).filterMap _ fun a b hle e he f hf => ?_
  rw [Piece.line_of_error? he, Piece.line_of_error? hf]
  omega

theorem scan?_word {source : String} (h : newlineBytes source < UInt32.size - 1) :
    scan? UInt32 source = some (lex source) := by
  obtain ⟨-, -, -, -, -, -, hscan⟩ := exists_scan? UInt32 source
  rw [lex_eq]
  refine hscan ?_
  rw [newlineBytes_eq] at h
  change 1 + newlines source.toList < UInt32.size
  omega

/-- A scanner that keeps its line in a word of thirty-two bits, and adds to it wherever it passes
newlines, puts every token and every fault on the line after the newline bytes in front of its text,
and the end mark on the line after all of them; so lines never go down.  The text of a string starts
at its opening quote, and that of a string or a comment that is not closed goes on to the end. -/
theorem lex_lines (source : String) (hlines : newlineBytes source < UInt32.size - 1) :
    ∃ segments lexed, Tiles segments source.toList ∧ Scans UInt32 source segments lexed ∧
      lexed = lex source ∧
      (∀ b ∈ placed "" segments, ∃ after,
        source = b.1 ++ b.2.lexeme ++ after ∧ b.2.role.Opens b.2.text after.toList) ∧
      (∃ tokens, lexed.tokens = tokens ++ [Token.eof (1 + newlineBytes source)] ∧
        List.Forall₂ (fun t b => b.2.role = .token t.kind t.literal ∧ b.2.lexeme = t.lexeme ∧
            t.line = 1 + newlineBytes b.1)
          tokens ((placed "" segments).filter fun b => b.2.role.isToken)) ∧
      List.Forall₂ (fun e b => b.2.role = .fault e.fault ∧ e.line = 1 + newlineBytes b.1)
        lexed.errors ((placed "" segments).filter fun b => b.2.role.isFault) ∧
      (lexed.tokens.Pairwise fun t u => t.line ≤ u.line) ∧
      lexed.errors.Pairwise fun e f => e.line ≤ f.line := by
  obtain ⟨lexed, hscans⟩ := exists_scans UInt32 source
  obtain rfl : lexed = lex source := by
    have hword := scan?_word hlines
    rw [hscans.2.1] at hword
    exact Option.some.inj hword
  refine ⟨pieces source.toList, lex source, tiles_pieces _, hscans, rfl,
    fun b hb => exists_after_of_mem_placed hb,
    ⟨_, tokens_lex source, forall₂_token?_line _ _ _⟩, ?_,
    pairwise_line_tokens source, pairwise_line_errors source⟩
  rw [errors_lex]
  exact forall₂_error?_line _ _ _

/-- Newlines between tokens, in a string, after a backslash, in a comment that a word like its
closing word stands in, and in a comment that is never closed. -/
theorem lex_lines_everywhere :
    let source := "a\n'\n\\\n'\n=begin\n=endx\n=end\n@\n=begin\n"
    newlineBytes source < UInt32.size - 1 ∧
      (scan? UInt32 source).map (fun lexed => lexed.tokens.map Token.line) =
        some [1, 1, 2, 4, 7, 8, 10] ∧
      (scan? UInt32 source).map (fun lexed => lexed.errors.map LexError.line) = some [8, 9] := by
  intro source
  have hshort : newlineBytes source < UInt32.size - 1 := by decide +kernel
  obtain ⟨segments, lexed, -, hscans, rfl, -⟩ := lex_lines source hshort
  rw [hscans.2.1, lex_eq]
  exact ⟨hshort, by decide +kernel, by decide +kernel⟩

end Scriptlet.Source
