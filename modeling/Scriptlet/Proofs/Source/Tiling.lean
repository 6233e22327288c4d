import Mathlib.Data.List.Forall2
import Scriptlet.Proofs.Source.Append

/-!
# Tiling

A source text is its tokens, blanks, comments and faulty stretches side by side, with nothing left
out and nothing read twice.  What a blank and what a comment is, is said here without a word on how
they are found; tokens and faults are the ones that are reported, in order.
-/

namespace Scriptlet.Source

/-! ## Segments -/

def EndsWord (following : List Char) : Prop :=
  ∀ c ∈ following.head?, isLetter c = false

def AtLineEnd (following : List Char) : Prop :=
  ∀ c ∈ following.head?, c = '\n'

/-- `body` stands between the opening and the closing word of a block comment, and `line` is what is
left of the line after that.  A word that a letter goes on opens and closes nothing, and the closing
word is the first there is. -/
structure IsBlockComment (body line following : List Char) : Prop where
  opened : EndsWord (body ++ "=end".toList ++ line ++ following)
  closed : EndsWord (line ++ following)
  first (before after : List Char) :
    body ++ "=end".toList ++ line ++ following = before ++ "=end".toList ++ after →
      before.length < body.length → ¬EndsWord after
  oneLine : '\n' ∉ line
  lineEnd : AtLineEnd following

/-- What a stretch of text is, where it stands in front of what follows it. -/
def Piece.IsSegment (p : Piece) (following : List Char) : Prop :=
  match p.role with
  | .blank => p.text = [' '] ∨ p.text = ['\r'] ∨ p.text = ['\t']
  | .lineComment => ∃ body, p.text = '#' :: body ∧ '\n' ∉ body ∧ AtLineEnd following
  | .blockComment => ∃ body line,
      p.text = "=begin".toList ++ body ++ "=end".toList ++ line ∧ IsBlockComment body line following
  | .token _ _ | .fault _ => True

/-- The pieces lie side by side and make up the text. -/
inductive Tiles : List Piece → List Char → Prop where
  | nil : Tiles [] []
  | cons {p : Piece} {ps : List Piece} {following : List Char} (nonempty : p.text ≠ [])
      (segment : p.IsSegment following) (rest : Tiles ps following) :
      Tiles (p :: ps) (p.text ++ following)

/-! ## Comments -/

variable {s rest : List Char} {c : Char}

theorem endsWord_iff : EndsWord s ↔ s.head?.any isLetter = false := by
  cases s <;> simp [EndsWord]

theorem exists_restOfLine (s : List Char) : ∃ line following, s = line ++ following ∧
    restOfLine s = line.length ∧ '\n' ∉ line ∧ AtLineEnd following := by
  refine ⟨s.takeWhile (· ≠ '\n'), s.dropWhile (· ≠ '\n'),
    List.takeWhile_append_dropWhile.symm, rfl, ?_, ?_⟩
  · intro hmem
    have hall : (s.takeWhile (· ≠ '\n')).all (· ≠ '\n') := List.all_takeWhile
    simpa using List.all_eq_true.mp hall _ hmem
  · intro c hc
    have hstop := List.head?_dropWhile_not (· ≠ '\n') s
    rw [hc] at hstop
    simpa using hstop

theorem exists_eq_cons_append {word : List Char} (h : word.isPrefixOf s) :
    s = word ++ s.drop word.length := by
  obtain ⟨after, rfl⟩ := List.isPrefixOf_iff_prefix.mp h
  rw [List.drop_left]

theorem commentClosing?_eq_some {passed n : Nat} (h : commentClosing? passed s = some n) :
    ∃ body after, s = body ++ "=end".toList ++ after ∧ n = passed + body.length + 4 ∧
      EndsWord after ∧ ∀ before after', s = before ++ "=end".toList ++ after' →
        before.length < body.length → ¬EndsWord after' := by
  induction s generalizing passed with
  | nil => cases h
  | cons c rest ih =>
      rw [commentClosing?] at h
      split at h
      · next hcloses =>
          obtain ⟨hword, hletter⟩ := Bool.and_eq_true_iff.mp hcloses
          cases h
          refine ⟨[], rest.drop 3, exists_eq_cons_append hword, rfl, ?_, by simp⟩
          simpa [endsWord_iff] using hletter
      · next hopen =>
          obtain ⟨body, after, rfl, rfl, hafter, hfirst⟩ := ih h
          refine ⟨c :: body, after, rfl, by simp; omega, hafter, ?_⟩
          intro before after' heq hlt
          cases before with
          | nil =>
              -- the word stands right here, so it was passed because a letter goes on it
              obtain ⟨hc, hrest⟩ : c = '=' ∧
                  body ++ "=end".toList ++ after = 'e' :: 'n' :: 'd' :: after' :=
                List.cons.inj heq
              intro hends
              apply hopen
              rw [hc, hrest]
              simpa [endsWord_iff] using hends
          | cons d before =>
              obtain ⟨-, heq⟩ := List.cons.inj heq
              exact hfirst before after' heq (Nat.lt_of_succ_lt_succ hlt)

theorem exists_of_opensBlockComment (h : opensBlockComment rest) :
    ∃ s, rest = "begin".toList ++ s ∧ EndsWord s := by
  refine ⟨rest.dropWhile isLetter, ?_, ?_⟩
  · have hword : rest.takeWhile isLetter = "begin".toList := of_decide_eq_true h
    rw [← hword, List.takeWhile_append_dropWhile]
  · intro c hc
    have hstop := List.head?_dropWhile_not isLetter rest
    rwa [hc] at hstop

/-- How a block comment that is closed divides the text from its opening word on. -/
theorem exists_blockComment {n : Nat} (h : opensBlockComment rest)
    (hclosing : commentClosing? 0 rest = some n) :
    ∃ body line following,
      rest = "begin".toList ++ body ++ "=end".toList ++ line ++ following ∧
        (blockCommentCut rest).more =
          ("begin".toList ++ body ++ "=end".toList ++ line).length ∧
        IsBlockComment body line following := by
  obtain ⟨s, rfl, hopened⟩ := exists_of_opensBlockComment h
  -- the search starts inside the opening word
  have hfound := hclosing
  rw [commentClosing?_begin] at hfound
  obtain ⟨body, after, rfl, rfl, hclosed, hfirst⟩ := commentClosing?_eq_some hfound
  obtain ⟨line, following, rfl, hline, honeLine, hend⟩ := exists_restOfLine after
  refine ⟨body, line, following, by simp, ?_, ?_⟩
  · have hsplit : "begin".toList ++ (body ++ "=end".toList ++ (line ++ following)) =
        "begin".toList ++ body ++ "=end".toList ++ (line ++ following) := by simp
    have hlength : 0 + 5 + body.length + 4 = ("begin".toList ++ body ++ "=end".toList).length := by
      simp
      omega
    simp only [blockCommentCut, hclosing]
    rw [hsplit, hlength, List.drop_left, hline, ← List.length_append]
  · constructor
    · simpa using hopened
    · exact hclosed
    · simpa using hfirst
    · exact honeLine
    · exact hend

/-! ## The first segment -/

/-- Nothing is asked of tokens and faults. -/
def Role.isReported : Role → Bool
  | .token _ _ | .fault _ => true
  | _ => false

theorem Piece.isSegment_of_isReported {p : Piece} {following : List Char}
    (h : p.role.isReported) : p.IsSegment following := by
  unfold Piece.IsSegment
  cases hrole : p.role with
  | token | fault => trivial
  | blank | lineComment | blockComment =>
      rw [hrole] at h
      cases h

theorem isSegment_blockCommentCut (h : opensBlockComment rest) :
    Piece.IsSegment ⟨'=' :: rest.take (blockCommentCut rest).more, (blockCommentCut rest).role⟩
      (rest.drop (blockCommentCut rest).more) := by
  cases hclosing : commentClosing? 0 rest with
  | none =>
      apply Piece.isSegment_of_isReported
      simp [blockCommentCut, hclosing, Role.isReported]
  | some n =>
      have hrole : (blockCommentCut rest).role = .blockComment := by
        simp [blockCommentCut, hclosing]
      obtain ⟨body, line, following, heq, hmore, hcomment⟩ := exists_blockComment h hclosing
      rw [hrole, hmore, heq, List.take_left, List.drop_left]
      exact ⟨body, line, rfl, hcomment⟩

theorem isSegment_firstCut (c : Char) (rest : List Char) :
    Piece.IsSegment ⟨c :: rest.take (firstCut c rest).more, (firstCut c rest).role⟩
      (rest.drop (firstCut c rest).more) := by
  refine firstCut_cases (motive := fun cut => Piece.IsSegment ⟨c :: rest.take cut.more, cut.role⟩
    (rest.drop cut.more)) c rest ?newline ?blank ?lineComment ?string ?number ?word ?blockComment
    ?operator ?unexpected
  case newline => exact fun _ => trivial
  case blank =>
    rintro (rfl | rfl | rfl)
    · exact .inl rfl
    · exact .inr (.inl rfl)
    · exact .inr (.inr rfl)
  case lineComment =>
    rintro rfl
    obtain ⟨line, following, rfl, hline, honeLine, hend⟩ := exists_restOfLine rest
    simp only [hline, List.take_left, List.drop_left]
    exact ⟨line, rfl, honeLine, hend⟩
  case string =>
    intro _
    apply Piece.isSegment_of_isReported
    unfold stringCut
    split <;> rfl
  case number =>
    intro _
    apply Piece.isSegment_of_isReported
    unfold numberCut integerRole
    dsimp only
    repeat' split
    all_goals rfl
  case word => exact fun _ => trivial
  case blockComment =>
    rintro rfl hopens
    exact isSegment_blockCommentCut hopens
  case operator =>
    intro cut hcut
    obtain ⟨n, -, k, -, rfl⟩ := exists_of_operatorCut? hcut
    trivial
  case unexpected => trivial

theorem tiles_pieces (s : List Char) : Tiles (pieces s) s := by
  induction s using pieces_induction with
  | nil =>
      rw [pieces_nil]
      exact .nil
  | cons c rest ih =>
      have htiles := Tiles.cons (List.cons_ne_nil _ _) (isSegment_firstCut c rest) ih
      rw [pieces_cons]
      simpa using htiles

theorem Tiles.flatMap_text {ps : List Piece} (h : Tiles ps s) : ps.flatMap Piece.text = s := by
  induction h with
  | nil => rfl
  | cons _ _ _ ih => rw [List.flatMap_cons, ih]

theorem Tiles.nonempty {ps : List Piece} (h : Tiles ps s) : ∀ p ∈ ps, p.text ≠ [] := by
  induction h with
  | nil => simp
  | cons hne _ _ ih => exact List.forall_mem_cons.mpr ⟨hne, ih⟩

/-! ## Tokens and faults -/

def Role.isToken : Role → Bool
  | .token _ _ => true
  | _ => false

def Role.isFault : Role → Bool
  | .fault _ => true
  | _ => false

section Reported

variable {α : Type} (line : α → Nat) (piece : α → Piece)

theorem forall₂_token?_line (bs : List α) :
    List.Forall₂ (fun t b => (piece b).role = .token t.kind t.literal ∧
        (piece b).lexeme = t.lexeme ∧ t.line = line b)
      (bs.filterMap fun b => (piece b).token? (line b))
      (bs.filter fun b => (piece b).role.isToken) := by
  induction bs with
  | nil => exact .nil
  | cons b bs ih =>
      cases hrole : (piece b).role with
      | token kind literal => simpa [Piece.token?, Role.isToken, Piece.lexeme, hrole] using ih
      | _ => simpa [Piece.token?, Role.isToken, hrole] using ih

theorem forall₂_error?_line (bs : List α) :
    List.Forall₂ (fun e b => (piece b).role = .fault e.fault ∧ e.line = line b)
      (bs.filterMap fun b => (piece b).error? (line b))
      (bs.filter fun b => (piece b).role.isFault) := by
  induction bs with
  | nil => exact .nil
  | cons b bs ih =>
      cases hrole : (piece b).role with
      | fault reason => simpa [Piece.error?, Role.isFault, hrole] using ih
      | _ => simpa [Piece.error?, Role.isFault, hrole] using ih

end Reported

theorem forall₂_token? (ps : List (Nat × Piece)) :
    List.Forall₂ (fun t p => p.role = .token t.kind t.literal ∧ p.lexeme = t.lexeme)
      (ps.filterMap fun p => p.2.token? p.1)
      ((ps.map Prod.snd).filter fun p => p.role.isToken) := by
  rw [List.filter_map, List.forall₂_map_right_iff]
  exact (forall₂_token?_line Prod.fst Prod.snd ps).imp fun _ _ h => ⟨h.1, h.2.1⟩

theorem forall₂_error? (ps : List (Nat × Piece)) :
    List.Forall₂ (fun e p => p.role = .fault e.fault) (ps.filterMap fun p => p.2.error? p.1)
      ((ps.map Prod.snd).filter fun p => p.role.isFault) := by
  rw [List.filter_map, List.forall₂_map_right_iff]
  exact (forall₂_error?_line Prod.fst Prod.snd ps).imp fun _ _ h => h.1

/-! ## Bytes -/

theorem join_lexemes {source : String} {ps : List Piece} (h : Tiles ps source.toList) :
    String.join (ps.map Piece.lexeme) = source := by
  rw [← String.toList_inj, String.toList_join, ← h.flatMap_text, List.flatMap_map]
  simp [Piece.lexeme]

/-- What is read off a text is its segments: the tokens in order, each spelled as its segment, the
end mark once and last, and the faults in order. -/
def Lexed.Reports (lexed : Lexed) (segments : List Piece) : Prop :=
  (∃ tokens line, lexed.tokens = tokens ++ [Token.eof line] ∧ (∀ t ∈ tokens, t.kind ≠ .eof) ∧
      List.Forall₂ (fun t p => p.role = .token t.kind t.literal ∧ p.lexeme = t.lexeme) tokens
        (segments.filter fun p => p.role.isToken)) ∧
    List.Forall₂ (fun e p => p.role = .fault e.fault) lexed.errors
      (segments.filter fun p => p.role.isFault)

def Scans (ν : Type) [LineCounter ν] (source : String) (segments : List Piece) (lexed : Lexed) :
    Prop :=
  (∃ last, (Scanner.initial ν source).Rounds segments last) ∧
    scan? ν source = some lexed ∧ lexed.Reports segments

theorem exists_scans (ν : Type) [LineCounter ν] [LawfulLineCounter ν] (source : String) :
    ∃ lexed, Scans ν source (pieces source.toList) lexed := by
  obtain ⟨last, ps, line, hrounds, hpieces, hscan, -⟩ := exists_scan? ν source
  refine ⟨_, ⟨last, hrounds⟩, hscan, ?_⟩
  rw [← hpieces]
  refine ⟨⟨_, line, rfl, ?_, forall₂_token? ps⟩, forall₂_error? ps⟩
  intro t ht
  obtain ⟨p, hp, ht⟩ := List.mem_filterMap.mp ht
  exact kind_ne_eof_of_token? (hpieces ▸ List.mem_map_of_mem hp) ht

/-- A text is tiled by segments, which are its tokens, blanks, comments and faults.  The scanner
comes to an end whichever counter keeps its lines: each round of its loop passes one segment, and
the tokens and faults of the result are just those segments that are one.  Every segment is a
stretch of bytes of the text that begins and ends between two characters. -/
theorem lex_tiles (source : String) :
    ∃ segments, Tiles segments source.toList ∧ Scans Nat source segments (lex source) ∧
      (∃ lexed, Scans UInt32 source segments lexed) ∧
      ∀ before p after, segments = before ++ p :: after →
        let start := String.join (before.map Piece.lexeme)
        source.toByteArray = start.toByteArray ++ p.lexeme.toByteArray ++
            (String.join (after.map Piece.lexeme)).toByteArray ∧
          0 < p.lexeme.toByteArray.size ∧
          start.rawEndPos.IsValid source ∧ (start ++ p.lexeme).rawEndPos.IsValid source := by
  have htiles := tiles_pieces source.toList
  obtain ⟨lexed, hscans⟩ := exists_scans Nat source
  have hlex : lex source = lexed := by rw [lex, hscans.2.1, Option.getD_some]
  refine ⟨pieces source.toList, htiles, hlex ▸ hscans, exists_scans UInt32 source, ?_⟩
  intro before p after hsegments start
  have hjoin := join_lexemes htiles
  rw [hsegments, List.map_append, List.map_cons, String.join_append, String.join_cons] at hjoin
  have hsource : source = start ++ p.lexeme ++ String.join (after.map Piece.lexeme) := by
    rw [String.append_assoc]
    exact hjoin.symm
  refine ⟨?_, ?_, ?_, ?_⟩
  · rw [← String.toByteArray_append, ← String.toByteArray_append, ← hsource]
  · have hne : p.lexeme ≠ "" := by
      simpa [Piece.lexeme] using htiles.nonempty p (by simp [hsegments])
    rw [String.size_toByteArray]
    exact Nat.pos_of_ne_zero fun hzero => hne (String.utf8ByteSize_eq_zero_iff.mp hzero)
  · rw [String.Pos.Raw.isValid_iff_exists_append]
    exact ⟨start, _, hjoin.symm, rfl⟩
  · rw [String.Pos.Raw.isValid_iff_exists_append]
    exact ⟨start ++ p.lexeme, _, hsource, rfl⟩

end Scriptlet.Source
