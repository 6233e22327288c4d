import Scriptlet.Proofs.Source.Tiling

/-!
# Spacing

A token is known by its own spelling: what made it end where it does is part of the spelling, or is
not needed where a blank comes next.  So the spellings of the tokens of a text with blanks between
them are read as the same tokens, and comments and faults that stood between them are gone.
-/

namespace Scriptlet.Source

def AtBlank (following : List Char) : Prop :=
  ∀ c ∈ following.head?, c = ' '

variable {c : Char} {rest t : List Char} {kind : Kind} {literal : Option Literal}

theorem AtBlank.nil : AtBlank [] := by
  simp [AtBlank]

theorem AtBlank.cons (t : List Char) : AtBlank (' ' :: t) := by
  simp [AtBlank]

theorem AtBlank.takeWhile_eq_nil (ht : AtBlank t) {p : Char → Bool} (hp : p ' ' = false) :
    t.takeWhile p = [] := by
  cases t with
  | nil => rfl
  | cons d t =>
      obtain rfl := ht d rfl
      rw [List.takeWhile_cons, hp]
      rfl

theorem AtBlank.fractionOf_eq_nil (ht : AtBlank t) : fractionOf t = [] := by
  cases t with
  | nil => rfl
  | cons d t =>
      obtain rfl := ht d rfl
      rfl

/-! ## Strings -/

theorem exists_of_closing? {quote : Char} {passed n : Nat} {s : List Char}
    (h : Text.Quoted.closing? quote passed s = some n) :
    ∃ body after, s = body ++ after ∧ n = passed + body.length ∧
      Text.Quoted.closing? quote passed body = some n := by
  fun_induction Text.Quoted.closing? quote passed s with
  | case1 => cases h
  | case2 => cases h
  | case3 passed d rest ih =>
      obtain ⟨body, after, rfl, hn, hbody⟩ := ih h
      refine ⟨'\\' :: d :: body, after, rfl, ?_, by simpa [Text.Quoted.closing?] using hbody⟩
      rw [hn, List.length_cons, List.length_cons]
      omega
  | case4 passed rest hne =>
      cases h
      exact ⟨[quote], rest, rfl, rfl, by simp_all [Text.Quoted.closing?]⟩
  | case5 passed c rest hne hquote ih =>
      obtain ⟨body, after, rfl, hn, hbody⟩ := ih h
      refine ⟨c :: body, after, rfl, ?_, by simp_all [Text.Quoted.closing?]⟩
      rw [hn, List.length_cons]
      omega

theorem takes_stringCut (hrole : (stringCut c rest).role = .token kind literal) :
    (stringCut c (rest.take (stringCut c rest).more ++ t)).Takes
      (rest.take (stringCut c rest).more) t (stringCut c rest).role := by
  cases hclosing : Text.Quoted.closing? c 0 rest with
  | none =>
      rw [stringCut, hclosing] at hrole
      cases hrole
  | some n =>
      obtain ⟨body, after, rfl, hn, hbody⟩ := exists_of_closing? hclosing
      obtain rfl : n = body.length := by omega
      have hshort : body.length - 1 ≤ body.length := Nat.sub_le _ _
      have hcut : ∀ s, stringCut c (body ++ s) = ⟨body.length, .token .string (some (.str
          (String.ofList (Text.Quoted.decode (body.take (body.length - 1))))))⟩ := by
        intro s
        simp only [stringCut, closing?_append hbody, List.take_append_of_le_length hshort]
      rw [hcut, List.take_left]
      exact Cut.takes_of_length (hcut t)

/-! ## Numbers -/

theorem takes_numberCut (hrole : (numberCut c rest).role = .token kind literal) (ht : AtBlank t) :
    (numberCut c (rest.take (numberCut c rest).more ++ t)).Takes
      (rest.take (numberCut c rest).more) t (numberCut c rest).role := by
  have hname : (t.takeWhile continuesName).isEmpty := by
    rw [ht.takeWhile_eq_nil (by decide)]
    rfl
  have hdigit : t.takeWhile isDigit = [] := ht.takeWhile_eq_nil (by decide)
  obtain ⟨digits, after, rfl, hdigits, hend⟩ := exists_run isDigit rest
  by_cases hpoint : fractionOf after = []
  · have hcut := numberCut_integer (c := c) hdigits hend hpoint
    split at hcut
    · rw [hcut, List.take_left]
      apply Cut.takes_of_length
      rw [numberCut_integer hdigits hdigit ht.fractionOf_eq_nil, if_pos hname]
    · rw [hcut] at hrole
      cases hrole
  · obtain ⟨fraction, after, rfl, hne, hfraction, hend⟩ := exists_of_fractionOf hpoint
    have hcut := numberCut_float (c := c) hdigits hfraction hne hend
    rw [List.append_assoc] at hcut
    split at hcut
    · rw [hcut, ← List.append_assoc, List.take_left]
      apply Cut.takes_of_length
      rw [numberCut_float hdigits hfraction hne hdigit, if_pos hname]
    · rw [hcut] at hrole
      cases hrole

/-! ## Words -/

theorem takes_wordCut (ht : AtBlank t) :
    (wordCut c (rest.take (wordCut c rest).more ++ t)).Takes
      (rest.take (wordCut c rest).more) t (wordCut c rest).role := by
  obtain ⟨word, after, rfl, hword, hend⟩ := exists_run continuesName rest
  have hcut : ∀ {s : List Char}, s.takeWhile continuesName = [] →
      wordCut c (word ++ s) =
        ⟨word.length, .token ((wordSpellings.lookup (c :: word)).getD .identifier) none⟩ := by
    intro s hs
    rw [wordCut, takeWhile_run hword hs]
  rw [hcut hend, List.take_left]
  exact Cut.takes_of_length (hcut (ht.takeWhile_eq_nil (by decide)))

/-! ## Operators -/

theorem operatorCut?_blank {body : List Char}
    (h : operatorSpellings.lookup (c :: body) = some kind) (t : List Char) :
    operatorCut? (c :: body ++ ' ' :: t) = some ⟨body.length, .token kind none⟩ := by
  have hlength := (operatorSpellings_plain _ (mem_of_lookup h)).1
  have hexact : operatorSpellings.lookup ((c :: body ++ ' ' :: t).take (body.length + 1)) =
      some kind := by
    rw [← List.length_cons (a := c), List.take_left, h]
  have hlonger : ∀ n, body.length + 1 < n →
      operatorSpellings.lookup ((c :: body ++ ' ' :: t).take n) = none := by
    intro n hn
    have htake : (c :: body ++ ' ' :: t).take n =
        c :: body ++ ' ' :: t.take (n - (body.length + 2)) := by
      rw [List.take_append, List.take_of_length_le (by rw [List.length_cons]; omega),
        List.length_cons, List.take_cons (by omega), Nat.sub_sub]
    rw [htake]
    exact lookup_operatorSpellings (.inr rfl) (List.mem_append_right _ List.mem_cons_self)
  simp only [List.length_cons, List.mem_cons, List.not_mem_nil, or_false] at hlength
  generalize c :: body ++ ' ' :: t = s at hexact hlonger
  generalize body.length = n at hexact hlonger hlength
  rw [operatorCut?]
  obtain rfl | rfl | rfl : n = 0 ∨ n = 1 ∨ n = 2 := by omega
  · simp [hlonger, hexact]
  · simp [hlonger, hexact]
  · simp [hexact]

theorem takes_operatorCut? {body : List Char}
    (h : operatorSpellings.lookup (c :: body) = some kind) (ht : AtBlank t) :
    ∃ cut, operatorCut? (c :: (body ++ t)) = some cut ∧ cut.Takes body t (.token kind none) := by
  cases t with
  | cons d t =>
      obtain rfl := ht d rfl
      exact ⟨_, operatorCut?_blank h t, Cut.takes_of_length rfl⟩
  | nil =>
      have hlength := (operatorSpellings_plain _ (mem_of_lookup h)).1
      simp only [List.length_cons, List.mem_cons, List.not_mem_nil, or_false] at hlength
      have hwhole : (c :: (body ++ [])).take 3 = c :: body := by
        rw [List.append_nil, List.take_of_length_le (by rw [List.length_cons]; omega)]
      refine ⟨⟨2, .token kind none⟩, ?_, Cut.takes_at_end rfl (show body.length ≤ 2 by omega)⟩
      rw [operatorCut?, List.findSome?_cons, hwhole, h]
      rfl

theorem opensBlockComment_operator {body : List Char}
    (h : operatorSpellings.lookup (c :: body) = some kind) (ht : AtBlank t) :
    opensBlockComment (body ++ t) = false := by
  have hplain := (operatorSpellings_plain _ (mem_of_lookup h)).2
  have hword : (body ++ t).takeWhile isLetter = [] := by
    cases body with
    | nil => exact ht.takeWhile_eq_nil (by decide)
    | cons d body =>
        have hd := (hplain d (by simp)).2.2
        rw [List.cons_append, List.takeWhile_cons_of_neg (by simp [hd])]
  rw [opensBlockComment, hword]
  rfl

/-! ## Tokens -/

theorem take_cons_of_operator {n : Nat} (hn : n ∈ [3, 2, 1]) :
    (c :: rest).take n = c :: rest.take (n - 1) :=
  List.take_cons (by simp only [List.mem_cons, List.not_mem_nil, or_false] at hn; omega)

/-- The cut that gives a token gives the same token where a blank comes next. -/
theorem takes_firstCut (hrole : (firstCut c rest).role = .token kind literal) (ht : AtBlank t) :
    (firstCut c (rest.take (firstCut c rest).more ++ t)).Takes
      (rest.take (firstCut c rest).more) t (firstCut c rest).role := by
  unfold firstCut at hrole ⊢
  by_cases hnewline : c = '\n'
  · simp only [if_pos hnewline]
    exact Cut.takes_of_length rfl
  simp only [if_neg hnewline] at hrole ⊢
  by_cases hblank : (c = ' ' || c = '\r' || c = '\t') = true
  · simp only [if_pos hblank] at hrole
    cases hrole
  simp only [if_neg hblank] at hrole ⊢
  by_cases hcomment : c = '#'
  · simp only [if_pos hcomment] at hrole
    cases hrole
  simp only [if_neg hcomment] at hrole ⊢
  by_cases hquote : (c = '"' || c = '\'') = true
  · simp only [if_pos hquote] at hrole ⊢
    exact takes_stringCut hrole
  simp only [if_neg hquote] at hrole ⊢
  by_cases hdigit : isDigit c = true
  · simp only [if_pos hdigit] at hrole ⊢
    exact takes_numberCut hrole ht
  simp only [if_neg hdigit] at hrole ⊢
  by_cases hname : startsName c = true
  · simp only [if_pos hname]
    exact takes_wordCut ht
  simp only [if_neg hname] at hrole ⊢
  by_cases hopens : (c = '=' && opensBlockComment rest) = true
  · simp only [if_pos hopens, blockCommentCut] at hrole
    split at hrole <;> cases hrole
  simp only [if_neg hopens] at hrole ⊢
  cases hcut : operatorCut? (c :: rest) with
  | none =>
      rw [hcut] at hrole
      cases hrole
  | some cut =>
      obtain ⟨n, hn, k, hlookup, rfl⟩ := exists_of_operatorCut? hcut
      rw [take_cons_of_operator hn] at hlookup
      obtain ⟨cut, hblank, htakes⟩ := takes_operatorCut? hlookup ht
      have hopens : ¬(c = '=' && opensBlockComment (rest.take (n - 1) ++ t)) = true := by
        simp [opensBlockComment_operator hlookup ht]
      rw [Option.getD_some, if_neg hopens, hblank, Option.getD_some]
      exact htakes

/-- A piece that is the first one of any text that starts with it and goes on with a blank. -/
def Piece.StandsAlone (p : Piece) : Prop :=
  ∀ t, AtBlank t → pieces (p.text ++ t) = p :: pieces t

theorem standsAlone_of_isToken {s : List Char} {p : Piece} (hp : p ∈ pieces s)
    (htoken : p.role.isToken) : p.StandsAlone := by
  induction s using pieces_induction with
  | nil => simp at hp
  | cons c rest ih =>
      rw [pieces_cons, List.mem_cons] at hp
      rcases hp with rfl | hp
      · intro t ht
        cases hrole : (firstCut c rest).role with
        | token kind literal =>
            rw [← hrole]
            exact pieces_of_takes (takes_firstCut hrole ht)
        | _ =>
            rw [hrole] at htoken
            cases htoken
      · exact ih hp

/-! ## Texts with blanks between their tokens -/

def blank : Piece :=
  ⟨[' '], .blank⟩

theorem pieces_spaced {ps : List Piece} (h : ∀ p ∈ ps, p.StandsAlone) :
    pieces ([' '].intercalate (ps.map Piece.text)) = ps.intersperse blank := by
  induction ps with
  | nil => exact pieces_nil
  | cons p ps ih =>
      have hfirst := h p List.mem_cons_self
      have hlater := ih fun q hq => h q (List.mem_cons_of_mem _ hq)
      cases ps with
      | nil => simpa using hfirst [] .nil
      | cons q ps =>
          rw [List.map_cons, List.map_cons, List.intercalate_cons_cons, List.append_assoc,
            List.singleton_append, hfirst _ (.cons _), pieces_cons]
          rw [List.map_cons] at hlater
          simp [firstCut, hlater, blank]

theorem filter_intersperse_blank {keep : Piece → Bool} (hblank : keep blank = false)
    (ps : List Piece) : (ps.intersperse blank).filter keep = ps.filter keep := by
  induction ps with
  | nil => rfl
  | cons p ps ih =>
      cases ps with
      | nil => rfl
      | cons q ps =>
          have hskip : (blank :: (q :: ps).intersperse blank).filter keep =
              (q :: ps).filter keep := by
            rw [List.filter_cons_of_neg (by simp [hblank]), ih]
          rw [List.intersperse_cons_cons, List.filter_cons, hskip]
          exact List.filter_cons.symm

def Spells (t : Token) (p : Piece) : Prop :=
  p.role = .token t.kind t.literal ∧ p.lexeme = t.lexeme

theorem exists_tokens_lex (source : String) :
    ∃ tokens line, (lex source).tokens = tokens ++ [Token.eof line] ∧
      List.Forall₂ Spells tokens
        ((pieces source.toList).filter fun p => p.role.isToken) := by
  have htokens := forall₂_token? (numbered 1 (pieces source.toList))
  rw [map_snd_numbered] at htokens
  rw [lex_eq]
  exact ⟨_, _, rfl, htokens⟩

theorem errors_lex_eq_nil {source : String}
    (h : (pieces source.toList).filter (fun p => p.role.isFault) = []) :
    (lex source).errors = [] := by
  have herrors := forall₂_error? (numbered 1 (pieces source.toList))
  rw [map_snd_numbered, h] at herrors
  rw [lex_eq]
  exact List.forall₂_nil_right_iff.mp herrors

theorem toList_lexemes {tokens : List Token} {ps : List Piece}
    (h : List.Forall₂ Spells tokens ps) :
    (tokens.map Token.lexeme).map String.toList = ps.map Piece.text := by
  induction h with
  | nil => rfl
  | cons ht _ ih =>
      rw [List.map_cons, List.map_cons, List.map_cons, ih, ← ht.2, Piece.lexeme,
        String.toList_ofList]

theorem forall₂_of_spells {ts us : List Token} {ps : List Piece}
    (hts : List.Forall₂ Spells ts ps) (hus : List.Forall₂ Spells us ps) :
    List.Forall₂ (fun u t => u.kind = t.kind ∧ u.lexeme = t.lexeme ∧ u.literal = t.literal)
      us ts := by
  induction hts generalizing us with
  | nil =>
      cases hus
      exact .nil
  | cons ht _ ih =>
      cases hus with
      | cons hu hus =>
          obtain ⟨hkind, hliteral⟩ := Role.token.inj (hu.1.symm.trans ht.1)
          exact .cons ⟨hkind, hu.2.symm.trans ht.2, hliteral⟩ (ih hus)

/-- The tokens of a text, written down with a blank between each two, are read as the same tokens
and nothing else, whatever was between them and whatever faults the text had. -/
theorem lex_spaced (source : String) :
    ∃ tokens line, (lex source).tokens = tokens ++ [Token.eof line] ∧
      let again := lex (" ".intercalate (tokens.map Token.lexeme))
      again.errors = [] ∧
      ∃ tokens' line', again.tokens = tokens' ++ [Token.eof line'] ∧
        List.Forall₂ (fun t' t => t'.kind = t.kind ∧ t'.lexeme = t.lexeme ∧ t'.literal = t.literal)
          tokens' tokens := by
  obtain ⟨tokens, line, htokens, hspells⟩ := exists_tokens_lex source
  refine ⟨tokens, line, htokens, ?_⟩
  generalize hps : (pieces source.toList).filter (fun p => p.role.isToken) = ps at hspells
  have hps : ∀ p ∈ ps, p.role.isToken ∧ p.StandsAlone := by
    intro p hp
    rw [← hps, List.mem_filter] at hp
    exact ⟨hp.2, standsAlone_of_isToken hp.1 hp.2⟩
  have hpieces : pieces (" ".intercalate (tokens.map Token.lexeme)).toList =
      ps.intersperse blank := by
    rw [String.toList_intercalate, toList_lexemes hspells]
    exact pieces_spaced fun p hp => (hps p hp).2
  constructor
  · apply errors_lex_eq_nil
    rw [hpieces, filter_intersperse_blank rfl, List.filter_eq_nil_iff]
    intro p hp
    have htoken := (hps p hp).1
    cases hrole : p.role <;> simp [hrole, Role.isToken, Role.isFault] at htoken ⊢
  · obtain ⟨tokens', line', htokens', hspells'⟩ :=
      exists_tokens_lex (" ".intercalate (tokens.map Token.lexeme))
    rw [hpieces, filter_intersperse_blank rfl, List.filter_eq_self.mpr fun p hp => (hps p hp).1]
      at hspells'
    exact ⟨tokens', line', htokens', forall₂_of_spells hspells hspells'⟩

end Scriptlet.Source
