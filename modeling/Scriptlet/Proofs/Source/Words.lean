import Scriptlet.Proofs.Source.Strings
import Scriptlet.Proofs.Text.Sexp

/-!
# Tokens as words

Names, operators and reserved words are known by their spelling: no two tokens that are spelled
alike differ in anything but their lines.  Parentheses apart, such a token is a word wherever forms
are written.
-/

namespace Scriptlet

open Source Text

def Kind.isSpelled (k : Kind) : Bool :=
  !List.contains [Kind.string, .integer, .float, .newline, .eof] k

def Token.ofWord (text : List Char) : Token where
  kind := ((wordSpellings ++ operatorSpellings).lookup text).getD .identifier
  lexeme := String.ofList text
  literal := none
  line := 0

/-- The spelling of the token tells everything but its line, and nothing in it ends a word.  A name
starts like one. -/
structure Token.IsSpelled (t : Token) : Prop where
  ofWord_lexeme : ofWord t.lexeme.toList = t.renumber fun _ => 0
  isWord : t.kind ∉ [.leftParen, .rightParen] → Sexp.IsWord t.lexeme.toList
  isName : t.kind = .identifier → t.lexeme.toList.head?.any startsName

namespace Source

variable {c : Char} {rest text : List Char} {kind : Kind} {literal : Option Literal}

/-! ## Spellings -/

theorem lookup_spellings (h : (text, kind) ∈ wordSpellings ++ operatorSpellings) :
    (wordSpellings ++ operatorSpellings).lookup text = some kind := by
  have hspellings : ∀ spelling ∈ wordSpellings ++ operatorSpellings,
      (wordSpellings ++ operatorSpellings).lookup spelling.1 = some spelling.2 := by
    decide +kernel
  exact hspellings _ h

theorem startsName_operatorSpellings (h : (text, kind) ∈ operatorSpellings) :
    ∀ c ∈ text, startsName c = false := by
  have hspellings : operatorSpellings.all fun spelling =>
      spelling.1.all fun c => !startsName c := by
    decide +kernel
  simpa using List.all_eq_true.mp hspellings _ h

theorem ofWord_of_mem (h : (text, kind) ∈ wordSpellings ++ operatorSpellings) :
    Token.ofWord text = ⟨kind, String.ofList text, none, 0⟩ := by
  rw [Token.ofWord, lookup_spellings h, Option.getD_some]

theorem ofWord_name (h : kind.isKeyword ∨ kind.isOperator) :
    Token.ofWord kind.name.toList = ⟨kind, kind.name, none, 0⟩ := by
  have hmem : (kind.name.toList, kind) ∈ wordSpellings ++ operatorSpellings := by
    rcases h with h | h
    · exact List.mem_append_left _ (mem_wordSpellings h)
    · apply List.mem_append_right
      apply List.mem_append_left
      exact List.mem_map_of_mem (List.mem_filter.mpr ⟨Kind.mem_all kind, h⟩)
  rw [ofWord_of_mem hmem, String.ofList_toList]

/-! ## Words and operators -/

theorem ofWord_wordCut (hstart : startsName c) :
    (wordCut c rest).role =
      .token (Token.ofWord (c :: rest.takeWhile continuesName)).kind none := by
  cases hword : wordSpellings.lookup (c :: rest.takeWhile continuesName) with
  | some k =>
      rw [ofWord_of_mem (List.mem_append_left _ (mem_of_lookup hword)), wordCut, hword]
      rfl
  | none =>
      have hoperator : operatorSpellings.lookup (c :: rest.takeWhile continuesName) = none := by
        rw [Option.eq_none_iff_forall_ne_some]
        intro k hk
        have hc := startsName_operatorSpellings (mem_of_lookup hk) c List.mem_cons_self
        rw [hstart] at hc
        cases hc
      simp [Token.ofWord, wordCut, List.lookup_append, hword, hoperator]

theorem isWord_of_startsName (hstart : startsName c) (hrest : ∀ d ∈ rest, continuesName d) :
    Sexp.IsWord (c :: rest) := by
  have hall : Sexp.delimiters.all fun d => !startsName d && !continuesName d := by decide
  have hdelimiters : ∀ d ∈ Sexp.delimiters, startsName d = false ∧ continuesName d = false := by
    simpa using hall
  constructor
  · exact List.cons_ne_nil c rest
  · rw [List.forall_mem_cons]
    constructor
    · intro hc
      simp [(hdelimiters c hc).1] at hstart
    · intro d hd hdelimiter
      simpa [(hdelimiters d hdelimiter).2] using hrest d hd

theorem isWord_operatorSpellings (h : (text, kind) ∈ operatorSpellings)
    (hkind : kind ∉ [.leftParen, .rightParen]) : Sexp.IsWord text := by
  have hspellings : operatorSpellings.all fun spelling =>
      [Kind.leftParen, .rightParen].contains spelling.2 || decide (Sexp.IsWord spelling.1) := by
    decide +kernel
  have hword := List.all_eq_true.mp hspellings _ h
  rw [Bool.or_eq_true, List.contains_iff_mem, decide_eq_true_eq] at hword
  exact hword.resolve_left hkind

/-- A token that is known by its spelling is a name, a reserved word or an operator. -/
theorem firstCut_of_isSpelled (hkind : kind.isSpelled)
    (h : (firstCut c rest).role = .token kind literal) :
    startsName c ∧ firstCut c rest = wordCut c rest ∨
      operatorCut? (c :: rest) = some (firstCut c rest) := by
  revert h
  refine firstCut_cases (motive := fun cut => cut.role = .token kind literal →
    startsName c ∧ cut = wordCut c rest ∨ operatorCut? (c :: rest) = some cut) c rest ?newline
    ?blank ?lineComment ?string ?number ?word ?blockComment ?operator ?unexpected
  case word => exact fun hstart _ => .inl ⟨hstart, rfl⟩
  case operator => exact fun cut hcut _ => .inr hcut
  case newline =>
    rintro - ⟨⟩
    cases hkind
  case string =>
    intro _ h
    unfold stringCut at h
    split at h <;> cases h
    cases hkind
  case number =>
    intro _ h
    rcases kind_numberCut h with rfl | rfl <;> cases hkind
  case blockComment =>
    intro _ _ h
    unfold blockCommentCut at h
    split at h <;> cases h
  case blank | lineComment => rintro - ⟨⟩
  case unexpected => rintro ⟨⟩

theorem isSpelled_firstCut (hkind : kind.isSpelled)
    (h : (firstCut c rest).role = .token kind literal) (line : Nat) :
    Token.IsSpelled
      ⟨kind, String.ofList (c :: rest.take (firstCut c rest).more), literal, line⟩ := by
  rcases firstCut_of_isSpelled hkind h with ⟨hstart, hcut⟩ | hcut
  · have htext : rest.take (firstCut c rest).more = rest.takeWhile continuesName := by
      rw [hcut]
      exact (List.prefix_iff_eq_take.mp (List.takeWhile_prefix _)).symm
    rw [hcut, ofWord_wordCut hstart] at h
    obtain ⟨rfl, rfl⟩ := Role.token.inj h
    rw [htext]
    constructor
    case ofWord_lexeme =>
      rw [String.toList_ofList]
      rfl
    case isWord =>
      intro _
      rw [String.toList_ofList]
      exact isWord_of_startsName hstart (List.all_eq_true.mp List.all_takeWhile)
    case isName =>
      intro _
      rw [String.toList_ofList]
      simpa using hstart
  · obtain ⟨n, hn, k, hk, heq⟩ := exists_of_operatorCut? hcut
    rw [heq] at h ⊢
    cases h
    have hmem := mem_of_lookup hk
    rw [take_cons_of_operator hn] at hmem
    constructor
    case ofWord_lexeme =>
      rw [String.toList_ofList]
      exact ofWord_of_mem (List.mem_append_right _ hmem)
    case isWord =>
      intro hapart
      rw [String.toList_ofList]
      exact isWord_operatorSpellings hmem hapart
    case isName =>
      rintro rfl
      rcases of_mem_operatorSpellings hmem with ⟨hoperator, -⟩ | ⟨hname, -⟩ | ⟨hname, -⟩
      · cases hoperator
      · cases hname
      · cases hname

/-! ## Tokens of a text -/

theorem isSpelled_of_mem_tokens {source : String} {t : Token} (h : t ∈ (lex source).tokens)
    (hkind : t.kind.isSpelled) : t.IsSpelled := by
  rw [tokens_lex, List.mem_append, List.mem_singleton] at h
  rcases h with h | rfl
  · obtain ⟨⟨before, p⟩, hplaced, ht⟩ := List.mem_filterMap.mp h
    obtain ⟨after, -, hfirst⟩ := exists_after_of_first (P := fun p _ => ∀ kind literal,
      p.role = .token kind literal → kind.isSpelled → ∀ line,
        Token.IsSpelled ⟨kind, p.lexeme, literal, line⟩)
      (fun c rest kind literal h hkind line => isSpelled_firstCut hkind h line) hplaced
    unfold Piece.token? at ht
    split at ht
    · next hrole =>
        cases ht
        exact hfirst _ _ hrole hkind _
    · cases ht
  · cases hkind

end Source

theorem Token.IsSpelled.renumber_eq {t : Token} {k : Kind} (h : t.IsSpelled) (hkind : t.kind = k)
    (hk : k ∉ [.identifier, .kwAnd, .kwOr]) :
    t.renumber (fun _ => 0) = ⟨k, k.name, none, 0⟩ := by
  subst hkind
  have hword := h.ofWord_lexeme
  have hlookup := congrArg Token.kind hword
  simp only [List.mem_cons, List.not_mem_nil, or_false, not_or] at hk
  cases hfound : (wordSpellings ++ operatorSpellings).lookup t.lexeme.toList with
  | none =>
      rw [ofWord, hfound] at hlookup
      exact absurd hlookup.symm hk.1
  | some k =>
      rw [ofWord_of_mem (mem_of_lookup hfound), String.ofList_toList] at hword hlookup
      obtain rfl : k = t.kind := hlookup
      have hname : t.lexeme = t.kind.name := by
        rcases List.mem_append.mp (mem_of_lookup hfound) with hmem | hmem
        · simpa using (of_mem_wordSpellings hmem).2
        · have hspelling := of_mem_operatorSpellings hmem
          simp only [String.ofList_toList, hk, false_and, or_false] at hspelling
          exact hspelling.2
      rw [← hword, hname]

end Scriptlet
