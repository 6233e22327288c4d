import Scriptlet.Proofs.Text.Quoted
import Scriptlet.Source.Scanner

/-!
A source text cut into pieces.

What the scanner reads is described here without places, bytes or counters.  Reading starts at the
first character and takes the longest piece that can start there: a token, a blank, a comment or a
piece that is no part of the language.  Blanks and comments are left out, and what is left is
numbered by the newlines in front of it.
-/

namespace Scriptlet.Source

inductive Role where
  | token (kind : Kind) (literal : Option Literal)
  | blank
  | lineComment
  | blockComment
  | fault (reason : Fault)
  deriving DecidableEq, Repr

structure Piece where
  text : List Char
  role : Role
  deriving DecidableEq, Repr

/-- A piece by its length: how many characters follow its first one. -/
structure Cut where
  more : Nat
  role : Role
  deriving DecidableEq, Repr

/-! ## Operators and words -/

def operatorSpellings : List (List Char × Kind) :=
  (Kind.all.filter Kind.isOperator).map (fun k => (k.name.toList, k)) ++
    [("&&".toList, .kwAnd), ("||".toList, .kwOr)]

def wordSpellings : List (List Char × Kind) :=
  (Kind.all.filter Kind.isKeyword).map fun k => (k.name.toList, k)

/-- The longest operator with which the text starts; none has more than three characters. -/
def operatorCut? (s : List Char) : Option Cut :=
  [3, 2, 1].findSome? fun n =>
    (operatorSpellings.lookup (s.take n)).map fun k => ⟨n - 1, .token k none⟩

def wordCut (c : Char) (rest : List Char) : Cut :=
  let word := rest.takeWhile continuesName
  let kind := (wordSpellings.lookup (c :: word)).getD .identifier
  ⟨word.length, .token kind none⟩

/-! ## Comments -/

def restOfLine (s : List Char) : Nat :=
  (s.takeWhile (· ≠ '\n')).length

/-- Number of characters through the first `=end` that no letter follows, added to `passed`. -/
def commentClosing? (passed : Nat) : List Char → Option Nat
  | [] => none
  | c :: rest =>
      if "=end".toList.isPrefixOf (c :: rest) && !((rest.drop 3).head?.any isLetter) then
        some (passed + 4)
      else commentClosing? (passed + 1) rest

theorem exists_first (word s : List Char) : (∀ t u, s = t ++ u → ¬word <+: u) ∨
    ∃ mid after, s = mid ++ word ++ after ∧
      ∀ t u, s = t ++ u → t.length < mid.length → ¬word <+: u := by
  induction s with
  | nil =>
      by_cases hword : word = []
      · exact .inr ⟨[], [], by simp [hword], fun _ _ _ hlt => absurd hlt (Nat.not_lt_zero _)⟩
      · refine .inl fun t u h hprefix => hword ?_
        rw [(List.append_eq_nil_iff.mp h.symm).2] at hprefix
        exact List.prefix_nil.mp hprefix
  | cons c s ih =>
      by_cases hhere : word <+: c :: s
      · obtain ⟨after, hafter⟩ := hhere
        exact .inr ⟨[], after, hafter.symm, fun _ _ _ hlt => absurd hlt (Nat.not_lt_zero _)⟩
      rcases ih with hnone | ⟨mid, after, rfl, hfirst⟩
      · refine .inl fun t u h => ?_
        cases t with
        | nil =>
            obtain rfl := h
            exact hhere
        | cons d t => exact hnone t u (List.cons.inj h).2
      · refine .inr ⟨c :: mid, after, rfl, fun t u h hlt => ?_⟩
        cases t with
        | nil =>
            obtain rfl := h
            exact hhere
        | cons d t => exact hfirst t u (List.cons.inj h).2 (Nat.lt_of_succ_lt_succ hlt)

theorem commentClosing?_none {s : List Char} (passed : Nat)
    (h : ∀ t u, s = t ++ u → ¬"=end".toList <+: u) : commentClosing? passed s = none := by
  induction s generalizing passed with
  | nil => rfl
  | cons c s ih =>
      have hhere : "=end".toList.isPrefixOf (c :: s) = false :=
        Bool.eq_false_iff.mpr fun hprefix => h [] _ rfl (List.isPrefixOf_iff_prefix.mp hprefix)
      rw [commentClosing?, hhere, Bool.false_and, if_neg Bool.false_ne_true]
      exact ih _ fun t u heq => h (c :: t) u (congrArg _ heq)

theorem commentClosing?_cons {c : Char} (hc : c ≠ '=') (passed : Nat) (rest : List Char) :
    commentClosing? passed (c :: rest) = commentClosing? (passed + 1) rest := by
  simp [commentClosing?, List.isPrefixOf, Ne.symm hc]

theorem commentClosing?_begin (passed : Nat) (s : List Char) :
    commentClosing? passed ("begin".toList ++ s) = commentClosing? (passed + 5) s := by
  change commentClosing? passed ('b' :: 'e' :: 'g' :: 'i' :: 'n' :: s) = _
  rw [commentClosing?_cons (by decide), commentClosing?_cons (by decide),
    commentClosing?_cons (by decide), commentClosing?_cons (by decide),
    commentClosing?_cons (by decide)]

theorem commentClosing?_first {mid after : List Char} (passed : Nat)
    (h : ∀ t u, mid ++ "=end".toList ++ after = t ++ u → t.length < mid.length →
      ¬"=end".toList <+: u) :
    commentClosing? passed (mid ++ "=end".toList ++ after) =
      if after.head?.any isLetter then commentClosing? (passed + mid.length + 4) after
      else some (passed + mid.length + 4) := by
  induction mid generalizing passed with
  | nil =>
      cases hletter : after.head?.any isLetter with
      | false => simp [commentClosing?, List.isPrefixOf, hletter]
      | true =>
          change commentClosing? passed ('=' :: 'e' :: 'n' :: 'd' :: after) = _
          rw [commentClosing?]
          simp only [List.drop_succ_cons, List.drop_zero, hletter, Bool.not_true, Bool.and_false,
            Bool.false_eq_true, if_false, if_true]
          rw [commentClosing?_cons (by decide), commentClosing?_cons (by decide),
            commentClosing?_cons (by decide)]
          rfl
  | cons c mid ih =>
      have hhere : "=end".toList.isPrefixOf (c :: (mid ++ "=end".toList ++ after)) = false :=
        Bool.eq_false_iff.mpr fun hprefix =>
          h [] _ rfl (Nat.succ_pos _) (List.isPrefixOf_iff_prefix.mp hprefix)
      rw [List.cons_append, List.cons_append, commentClosing?, hhere, Bool.false_and,
        if_neg Bool.false_ne_true,
        ih _ fun t u heq hlt => h (c :: t) u (congrArg _ heq) (Nat.succ_lt_succ hlt),
        List.length_cons, Nat.add_right_comm passed 1, Nat.add_assoc passed mid.length 1]

theorem commentClosing?_passed (passed : Nat) (s : List Char) :
    commentClosing? passed s = (commentClosing? 0 s).map (passed + ·) := by
  suffices h : ∀ more, commentClosing? (passed + more) s =
      (commentClosing? more s).map (passed + ·) from h 0
  induction s with
  | nil => exact fun _ => rfl
  | cons c s ih =>
      intro more
      rw [commentClosing?, commentClosing?]
      split
      · rw [Nat.add_assoc]
        rfl
      · rw [Nat.add_assoc, ih]

/-- A block comment goes to the end of the line that closes it. -/
def blockCommentCut (rest : List Char) : Cut :=
  match commentClosing? 0 rest with
  | none => ⟨rest.length, .fault .unterminatedBlockComment⟩
  | some n => ⟨n + restOfLine (rest.drop n), .blockComment⟩

/-- An equals sign opens a block comment where exactly the word `begin` follows it. -/
def opensBlockComment (rest : List Char) : Bool :=
  rest.takeWhile isLetter = "begin".toList

/-! ## Literals -/

def stringCut (quote : Char) (rest : List Char) : Cut :=
  match Text.Quoted.closing? quote 0 rest with
  | none => ⟨rest.length, .fault .unterminatedString⟩
  | some n =>
      let body := rest.take (n - 1)
      ⟨n, .token .string (some (.str (String.ofList (Text.Quoted.decode body))))⟩

def integerRole (digits : List Char) : Role :=
  let n := Decimal.natOfDigits digits
  if n < Nat.pow 2 63 then .token .integer (some (.int (Int64.ofNat n)))
  else .fault .numberOutOfRange

def fractionOf : List Char → List Char
  | '.' :: rest => rest.takeWhile isDigit
  | _ => []

def numberCut (c : Char) (rest : List Char) : Cut :=
  let more := rest.takeWhile isDigit
  let fraction := fractionOf (rest.drop more.length)
  let length := if fraction.isEmpty then more.length else more.length + 1 + fraction.length
  let tail := (rest.drop length).takeWhile continuesName
  if !tail.isEmpty then ⟨length + tail.length, .fault .invalidIdentifier⟩
  else if fraction.isEmpty then ⟨length, integerRole (c :: more)⟩
  else ⟨length, .token .float (some (.float (Decimal.toFloat (c :: more) fraction)))⟩

/-! ## Numbers read digit by digit -/

variable {c : Char} {t : List Char}

theorem exists_run (p : Char → Bool) (s : List Char) :
    ∃ run after, s = run ++ after ∧ (∀ d ∈ run, p d) ∧ after.takeWhile p = [] := by
  refine ⟨s.takeWhile p, s.dropWhile p, List.takeWhile_append_dropWhile.symm,
    List.all_eq_true.mp List.all_takeWhile, ?_⟩
  have hstop := List.head?_dropWhile_not p s
  cases hrest : s.dropWhile p with
  | nil => rfl
  | cons d rest =>
      rw [hrest] at hstop
      rw [List.takeWhile_cons_of_neg (by simpa using hstop)]

theorem takeWhile_run {p : Char → Bool} {run after : List Char} (hrun : ∀ d ∈ run, p d)
    (hend : after.takeWhile p = []) : (run ++ after).takeWhile p = run := by
  rw [List.takeWhile_append_of_pos hrun, hend, List.append_nil]

theorem takeWhile_eq_nil_iff {p : Char → Bool} {s : List Char} :
    s.takeWhile p = [] ↔ s.head?.any p = false := by
  cases s with
  | nil => simp
  | cons d s => simp [List.takeWhile_cons]

section Numbers

variable {digits fraction : List Char}

theorem numberCut_integer (hdigits : ∀ d ∈ digits, isDigit d) (hend : t.takeWhile isDigit = [])
    (hpoint : fractionOf t = []) :
    numberCut c (digits ++ t) =
      if (t.takeWhile continuesName).isEmpty then ⟨digits.length, integerRole (c :: digits)⟩
      else ⟨digits.length + (t.takeWhile continuesName).length, .fault .invalidIdentifier⟩ := by
  simp only [numberCut, takeWhile_run hdigits hend, List.drop_left, hpoint, List.isEmpty_nil,
    if_true]
  cases (t.takeWhile continuesName).isEmpty <;> rfl

theorem numberCut_float (hdigits : ∀ d ∈ digits, isDigit d) (hfraction : ∀ d ∈ fraction, isDigit d)
    (hne : fraction ≠ []) (hend : t.takeWhile isDigit = []) :
    numberCut c (digits ++ '.' :: fraction ++ t) =
      if (t.takeWhile continuesName).isEmpty then
        ⟨(digits ++ '.' :: fraction).length,
          .token .float (some (.float (Decimal.toFloat (c :: digits) fraction)))⟩
      else ⟨(digits ++ '.' :: fraction).length + (t.takeWhile continuesName).length,
        .fault .invalidIdentifier⟩ := by
  have hpoint : ('.' :: (fraction ++ t)).takeWhile isDigit = [] :=
    List.takeWhile_cons_of_neg (by decide)
  have hfractionOf : fractionOf ('.' :: (fraction ++ t)) = fraction := takeWhile_run hfraction hend
  have hsome : fraction.isEmpty = false := by simpa using hne
  have hlength : digits.length + 1 + fraction.length = (digits ++ '.' :: fraction).length := by
    rw [List.length_append, List.length_cons]
    omega
  have hdrop : (digits ++ '.' :: (fraction ++ t)).drop (digits ++ '.' :: fraction).length = t := by
    rw [← List.cons_append, ← List.append_assoc, List.drop_left]
  rw [List.append_assoc, List.cons_append]
  simp only [numberCut, takeWhile_run hdigits hpoint, List.drop_left, hfractionOf, hsome,
    Bool.false_eq_true, if_false, hlength, hdrop]
  cases (t.takeWhile continuesName).isEmpty <;> rfl

end Numbers

theorem exists_of_fractionOf (h : fractionOf t ≠ []) :
    ∃ fraction after, t = '.' :: fraction ++ after ∧ fraction ≠ [] ∧
      (∀ d ∈ fraction, isDigit d) ∧ after.takeWhile isDigit = [] := by
  unfold fractionOf at h
  split at h
  · next rest =>
      obtain ⟨fraction, after, rfl, hfraction, hend⟩ := exists_run isDigit rest
      rw [takeWhile_run hfraction hend] at h
      exact ⟨fraction, after, rfl, h, hfraction, hend⟩
  · exact absurd rfl h

/-! ## The cut at the start of a text -/

def firstCut (c : Char) (rest : List Char) : Cut :=
  if c = '\n' then ⟨0, .token .newline none⟩
  else if c = ' ' || c = '\r' || c = '\t' then ⟨0, .blank⟩
  else if c = '#' then ⟨restOfLine rest, .lineComment⟩
  else if c = '"' || c = '\'' then stringCut c rest
  else if isDigit c then numberCut c rest
  else if startsName c then wordCut c rest
  else if c = '=' && opensBlockComment rest then blockCommentCut rest
  else (operatorCut? (c :: rest)).getD ⟨0, .fault (.unexpectedCharacter c)⟩

theorem firstCut_quote (h : c = '"' ∨ c = '\'') (rest : List Char) :
    firstCut c rest = stringCut c rest := by
  rcases h with rfl | rfl <;> simp [firstCut]

theorem startsName_of_isDigit (h : isDigit c) : startsName c = false := by
  have hrange : 48 ≤ c.toNat ∧ c.toNat ≤ 57 := by
    simpa [isDigit, Char.isDigit, UInt32.le_iff_toNat_le] using h
  have hother : c ≠ '_' ∧ c ≠ '$' := by
    constructor <;> rintro rfl <;> cases h
  have hletter : isLetter c = false := by
    delta isLetter Char.isAlpha Char.isUpper Char.isLower
    simp [UInt32.le_iff_toNat_le]
    omega
  simp [startsName, hother, hletter]

private theorem ne_of_test {test : Char → Bool} (h : test c) {d : Char} (hd : test d = false) :
    c ≠ d := by
  rintro rfl
  rw [h] at hd
  cases hd

theorem firstCut_digit (h : isDigit c) (rest : List Char) : firstCut c rest = numberCut c rest := by
  simp [firstCut, ne_of_test h (d := '\n') rfl, ne_of_test h (d := ' ') rfl,
    ne_of_test h (d := '\r') rfl, ne_of_test h (d := '\t') rfl, ne_of_test h (d := '#') rfl,
    ne_of_test h (d := '"') rfl, ne_of_test h (d := '\'') rfl, h]

theorem firstCut_name (h : startsName c) (rest : List Char) : firstCut c rest = wordCut c rest := by
  have hdigit : isDigit c = false := by
    refine Bool.eq_false_iff.mpr fun hdigit => ?_
    rw [startsName_of_isDigit hdigit] at h
    cases h
  simp [firstCut, ne_of_test h (d := '\n') rfl, ne_of_test h (d := ' ') rfl,
    ne_of_test h (d := '\r') rfl, ne_of_test h (d := '\t') rfl, ne_of_test h (d := '#') rfl,
    ne_of_test h (d := '"') rfl, ne_of_test h (d := '\'') rfl, hdigit, h]

def pieces : List Char → List Piece
  | [] => []
  | c :: rest =>
      let cut := firstCut c rest
      ⟨c :: rest.take cut.more, cut.role⟩ :: pieces (rest.drop cut.more)
termination_by s => s.length
decreasing_by
  rw [List.length_drop, List.length_cons]
  omega

@[simp] theorem pieces_nil : pieces [] = [] := by
  rw [pieces]

theorem pieces_cons (c : Char) (rest : List Char) :
    pieces (c :: rest) =
      ⟨c :: rest.take (firstCut c rest).more, (firstCut c rest).role⟩ ::
        pieces (rest.drop (firstCut c rest).more) := by
  rw [pieces]

theorem pieces_induction {motive : List Char → Prop} (nil : motive [])
    (cons : ∀ c rest, motive (rest.drop (firstCut c rest).more) → motive (c :: rest))
    (s : List Char) : motive s := by
  induction hlength : s.length using Nat.strongRecOn generalizing s with
  | ind n ih =>
      cases s with
      | nil => exact nil
      | cons c rest =>
          refine cons c rest (ih _ ?_ _ rfl)
          rw [List.length_drop, ← hlength, List.length_cons]
          omega

theorem flatMap_text_pieces (s : List Char) : (pieces s).flatMap Piece.text = s := by
  induction s using pieces_induction with
  | nil => simp
  | cons c rest ih =>
      rw [pieces_cons, List.flatMap_cons, ih, List.cons_append, List.take_append_drop]

def Cut.Takes (cut : Cut) (body t : List Char) (role : Role) : Prop :=
  cut.role = role ∧ (body ++ t).take cut.more = body ∧ (body ++ t).drop cut.more = t

theorem Cut.takes_of_length {cut : Cut} {body : List Char} {role : Role}
    (h : cut = ⟨body.length, role⟩) : cut.Takes body t role := by
  subst h
  exact ⟨rfl, List.take_left, List.drop_left⟩

theorem Cut.takes_at_end {cut : Cut} {body : List Char} {role : Role} (hrole : cut.role = role)
    (hmore : body.length ≤ cut.more) : cut.Takes body [] role := by
  rw [Cut.Takes, List.append_nil]
  exact ⟨hrole, List.take_of_length_le hmore, List.drop_eq_nil_of_le hmore⟩

theorem pieces_of_takes {body : List Char} {role : Role}
    (h : (firstCut c (body ++ t)).Takes body t role) :
    pieces (c :: (body ++ t)) = ⟨c :: body, role⟩ :: pieces t := by
  obtain ⟨hrole, htake, hdrop⟩ := h
  rw [pieces_cons, hrole, htake, hdrop]

/-! ## Lines -/

def newlines (s : List Char) : Nat :=
  s.count '\n'

theorem newlines_eq_zero {s : List Char} (h : '\n' ∉ s) : newlines s = 0 :=
  List.count_eq_zero.mpr h

theorem newlines_append (s t : List Char) : newlines (s ++ t) = newlines s + newlines t :=
  List.count_append

def Piece.lexeme (p : Piece) : String :=
  String.ofList p.text

def Piece.token? (line : Nat) (p : Piece) : Option Token :=
  match p.role with
  | .token kind literal => some ⟨kind, String.ofList p.text, literal, line⟩
  | _ => none

def Piece.error? (line : Nat) (p : Piece) : Option LexError :=
  match p.role with
  | .fault reason => some ⟨line, reason⟩
  | _ => none

def numbered (line : Nat) : List Piece → List (Nat × Piece)
  | [] => []
  | p :: rest => (line, p) :: numbered (line + newlines p.text) rest

theorem numbered_append (line : Nat) (ps qs : List Piece) :
    numbered line (ps ++ qs) =
      numbered line ps ++ numbered (line + newlines (ps.flatMap Piece.text)) qs := by
  induction ps generalizing line with
  | nil => rfl
  | cons p ps ih =>
      rw [List.cons_append, numbered, ih, numbered, List.flatMap_cons, newlines, newlines, newlines,
        List.count_append, Nat.add_assoc]
      rfl

theorem numbered_add (line k : Nat) (ps : List Piece) :
    numbered (line + k) ps = (numbered line ps).map fun p => (p.1 + k, p.2) := by
  induction ps generalizing line with
  | nil => rfl
  | cons p ps ih => rw [numbered, Nat.add_right_comm, ih, numbered, List.map_cons]

theorem map_snd_numbered (line : Nat) (ps : List Piece) :
    (numbered line ps).map Prod.snd = ps := by
  induction ps generalizing line with
  | nil => rfl
  | cons p ps ih => rw [numbered, List.map_cons, ih]

def lexChars (s : List Char) : Lexed where
  tokens := (numbered 1 (pieces s)).filterMap (fun p => p.2.token? p.1) ++
    [Token.eof (1 + newlines s)]
  errors := (numbered 1 (pieces s)).filterMap fun p => p.2.error? p.1

end Scriptlet.Source
