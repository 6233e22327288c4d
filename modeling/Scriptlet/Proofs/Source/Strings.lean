import Mathlib.Data.List.Forall2
import Scriptlet.Proofs.Source.Spelling
import Scriptlet.Proofs.Text.Quoted

/-!
# Strings

A string literal is a quote, items of which none is that quote, and the quote again; its value is
what the items stand for, side by side.  Wherever a token starts with a quote, the text is read as
such a literal if it begins with one, and otherwise everything to its end is one string that is not
terminated.
-/

namespace Scriptlet.Source

open Text

def IsQuote (c : Char) : Prop :=
  c = '"' ∨ c = '\''

def stringPiece (quote : Char) (items : List (Quoted.Item quote)) : Piece where
  text := quote :: Quoted.text items ++ [quote]
  role := .token .string (some (.str (String.ofList (Quoted.value items))))

variable {quote c : Char} {rest : List Char} {kind : Kind} {literal : Option Literal}

theorem IsQuote.ne_backslash (h : IsQuote quote) : quote ≠ '\\' := by
  rcases h with rfl | rfl <;> decide

/-! ## Where a quote stands -/

theorem stringCut_text (h : IsQuote quote) (items : List (Quoted.Item quote))
    (following : List Char) :
    stringCut quote (Quoted.text items ++ quote :: following) =
      ⟨(Quoted.text items).length + 1, (stringPiece quote items).role⟩ := by
  have hclosing := Quoted.closing?_text h.ne_backslash 0 items following
  rw [Nat.zero_add] at hclosing
  simp only [stringCut, hclosing, Nat.add_sub_cancel, List.take_left, Quoted.decode_text]
  rfl

theorem pieces_string (h : IsQuote quote) (items : List (Quoted.Item quote))
    (following : List Char) :
    pieces (quote :: (Quoted.text items ++ quote :: following)) =
      stringPiece quote items :: pieces following := by
  have hsplit : Quoted.text items ++ quote :: following =
      (Quoted.text items ++ [quote]) ++ following := by
    rw [List.append_assoc, List.singleton_append]
  rw [hsplit]
  apply pieces_of_takes
  rw [firstCut_quote h, ← hsplit, stringCut_text h]
  apply Cut.takes_of_length
  rw [List.length_append, List.length_singleton]
  rfl

theorem pieces_unterminated (h : IsQuote quote)
    (hopen : ∀ (items : List (Quoted.Item quote)) (following : List Char),
      rest ≠ Quoted.text items ++ quote :: following) :
    pieces (quote :: rest) = [⟨quote :: rest, .fault .unterminatedString⟩] := by
  have hclosing : Quoted.closing? quote 0 rest = none :=
    (Quoted.closing?_eq_none_iff h.ne_backslash).mpr hopen
  have hcut : stringCut quote rest = ⟨rest.length, .fault .unterminatedString⟩ := by
    rw [stringCut, hclosing]
  rw [pieces_cons, firstCut_quote h, hcut]
  simp

/-! ## Strings among the tokens -/

theorem kind_wordCut (h : (wordCut c rest).role = .token kind literal) :
    kind = .identifier ∨ kind.isKeyword := by
  rw [wordCut] at h
  cases hlookup : wordSpellings.lookup (c :: rest.takeWhile continuesName) with
  | none =>
      rw [hlookup] at h
      cases h
      exact .inl rfl
  | some word =>
      rw [hlookup] at h
      cases h
      exact .inr (of_mem_wordSpellings (mem_of_lookup hlookup)).1

theorem kind_numberCut (h : (numberCut c rest).role = .token kind literal) :
    kind = .integer ∨ kind = .float := by
  unfold numberCut integerRole at h
  dsimp only at h
  repeat' split at h
  all_goals cases h
  · exact .inl rfl
  · exact .inr rfl

theorem kind_operatorCut? {cut : Cut} (hcut : operatorCut? (c :: rest) = some cut)
    (h : cut.role = .token kind literal) :
    kind.isOperator ∨ kind = .kwAnd ∨ kind = .kwOr := by
  obtain ⟨n, -, k, hk, rfl⟩ := exists_of_operatorCut? hcut
  cases h
  exact (of_mem_operatorSpellings (mem_of_lookup hk)).imp And.left (.imp And.left And.left)

theorem firstCut_of_string (h : (firstCut c rest).role = .token .string literal) :
    IsQuote c ∧ firstCut c rest = stringCut c rest := by
  revert h
  refine firstCut_cases (motive := fun cut => cut.role = .token .string literal →
    IsQuote c ∧ cut = stringCut c rest) c rest ?newline ?blank ?lineComment ?string ?number ?word
    ?blockComment ?operator ?unexpected
  case string => exact fun hquote _ => ⟨hquote, rfl⟩
  case number =>
    intro _ h
    rcases kind_numberCut h with hkind | hkind <;> cases hkind
  case word =>
    intro _ h
    rcases kind_wordCut h with hkind | hkind <;> cases hkind
  case operator =>
    intro cut hcut h
    rcases kind_operatorCut? hcut h with hkind | hkind | hkind <;> cases hkind
  case blockComment =>
    intro _ _ h
    unfold blockCommentCut at h
    split at h <;> cases h
  case newline | blank | lineComment => rintro - ⟨⟩
  case unexpected => rintro ⟨⟩

theorem exists_stringPiece (h : (firstCut c rest).role = .token .string literal) :
    ∃ items : List (Quoted.Item c), IsQuote c ∧
      (⟨c :: rest.take (firstCut c rest).more, (firstCut c rest).role⟩ : Piece) =
        stringPiece c items := by
  obtain ⟨hquote, hcut⟩ := firstCut_of_string h
  rw [hcut] at h
  cases hclosing : Quoted.closing? c 0 rest with
  | none =>
      rw [stringCut, hclosing] at h
      cases h
  | some n =>
      obtain ⟨items, following, rfl, -⟩ := Quoted.exists_items_of_closing? hclosing
      have hpieces := pieces_string hquote items following
      rw [pieces_cons] at hpieces
      exact ⟨items, hquote, (List.cons.inj hpieces).1⟩

theorem exists_stringPiece_of_mem {s : List Char} {p : Piece} (hp : p ∈ pieces s)
    (h : p.role = .token .string literal) :
    ∃ (quote : Char) (items : List (Quoted.Item quote)), IsQuote quote ∧
      p = stringPiece quote items := by
  obtain ⟨before, after, hsplit⟩ := List.mem_iff_append.mp hp
  have hfirst := of_pieces_eq (P := fun p _ => p.role = .token .string literal →
    ∃ (quote : Char) (items : List (Quoted.Item quote)), IsQuote quote ∧
      p = stringPiece quote items) (fun c rest h => ⟨c, exists_stringPiece h⟩) hsplit
  exact hfirst h

theorem exists_piece_of_mem_tokens {source : String} {t : Token} (ht : t ∈ (lex source).tokens)
    (hkind : t.kind ≠ .eof) : ∃ p ∈ pieces source.toList, Spells t p := by
  obtain ⟨tokens, line, htokens, hspells⟩ := exists_tokens_lex source
  rw [htokens, List.mem_append] at ht
  rcases ht with ht | ht
  · obtain ⟨i, hi, rfl⟩ := List.getElem_of_mem ht
    have hlength := hspells.length_eq
    refine ⟨_, (List.mem_filter.mp (List.getElem_mem (hlength ▸ hi))).1, ?_⟩
    exact hspells.get hi (hlength ▸ hi)
  · rw [List.mem_singleton.mp ht] at hkind
    exact absurd rfl hkind

theorem forall₂_errors_lex (source : String) :
    List.Forall₂ (fun e p => p.role = .fault e.fault) (lex source).errors
      ((pieces source.toList).filter fun p => p.role.isFault) := by
  have herrors := forall₂_error? (numbered 1 (pieces source.toList))
  rw [map_snd_numbered] at herrors
  rwa [lex_eq]

/-- Every string among the tokens is a quote, items and the quote again; the items are the only ones
with this text, its literal is what they stand for, and decoding them leaves no backslash without a
character.  Wherever a piece starts with a quote, items up to the next such quote make it that
string, and if none lead to one, all the rest of the text is a string that is not terminated.
Pieces are tokens and faults as they are reported, one by one and in order. -/
theorem lex_strings (source : String) :
    (∀ t ∈ (lex source).tokens, t.kind = .string →
      ∃ (quote : Char) (items : List (Quoted.Item quote)), IsQuote quote ∧
        t.lexeme = String.ofList (quote :: Quoted.text items ++ [quote]) ∧
        t.literal = some (.str (String.ofList (Quoted.value items))) ∧
        (∀ other : List (Quoted.Item quote),
          Quoted.text other = Quoted.text items → other = items) ∧
        ¬Quoted.Reaches (Quoted.text items) ['\\']) ∧
      (∀ before after quote rest, pieces source.toList = before ++ after → IsQuote quote →
        after.flatMap Piece.text = quote :: rest →
          (∀ (items : List (Quoted.Item quote)) (following : List Char),
            rest = Quoted.text items ++ quote :: following →
              after = stringPiece quote items :: pieces following) ∧
          ((∀ (items : List (Quoted.Item quote)) (following : List Char),
            rest ≠ Quoted.text items ++ quote :: following) →
              after = [⟨quote :: rest, .fault .unterminatedString⟩])) ∧
      (∃ tokens line, (lex source).tokens = tokens ++ [Token.eof line] ∧
        List.Forall₂ Spells tokens ((pieces source.toList).filter fun p => p.role.isToken)) ∧
      List.Forall₂ (fun e p => p.role = .fault e.fault) (lex source).errors
        ((pieces source.toList).filter fun p => p.role.isFault) := by
  refine ⟨?_, ?_, exists_tokens_lex source, forall₂_errors_lex source⟩
  · intro t ht hkind
    obtain ⟨p, hp, hrole, hlexeme⟩ := exists_piece_of_mem_tokens ht (by simp [hkind])
    rw [hkind] at hrole
    obtain ⟨quote, items, hquote, rfl⟩ := exists_stringPiece_of_mem hp hrole
    exact ⟨quote, items, hquote, hlexeme.symm, (Role.token.inj hrole).2.symm,
      fun other hother => Quoted.text_injective hother, Quoted.not_reaches_backslash items⟩
  · intro before after quote rest hsplit hquote htext
    have hpieces := pieces_of_eq_append hsplit
    rw [htext] at hpieces
    constructor
    · rintro items following rfl
      rw [← hpieces, pieces_string hquote]
    · intro hopen
      rw [← hpieces, pieces_unterminated hquote hopen]

end Scriptlet.Source
