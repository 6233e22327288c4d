import Scriptlet.Proofs.Source.Piece

/-!
# Cutting up to a line end

No piece that starts on a line goes past the end of the line because of what comes later, unless it
is a string or a block comment that is never closed.  So where a text ends with a newline, its first
piece is the same whatever text follows.
-/

namespace Scriptlet.Source

/-- The text has a last line, and that line is ended. -/
def EndsLine (s : List Char) : Prop :=
  s.getLast? = some '\n'

def Fault.isUnterminated : Fault → Bool
  | .unterminatedString | .unterminatedBlockComment => true
  | _ => false

def Role.isUnterminated : Role → Bool
  | .fault reason => reason.isUnterminated
  | _ => false

variable {c : Char} {s rest t : List Char}

namespace EndsLine

theorem mem (h : EndsLine s) : '\n' ∈ s :=
  List.mem_of_getLast? h

theorem length_pos (h : EndsLine s) : 0 < s.length :=
  List.length_pos_of_mem h.mem

theorem drop (h : EndsLine s) {n : Nat} (hn : n < s.length) : EndsLine (s.drop n) := by
  simpa [EndsLine, List.getLast?_drop, Nat.not_le_of_lt hn] using h

theorem tail (h : EndsLine (c :: rest)) (hrest : rest ≠ []) : EndsLine rest := by
  cases rest with
  | nil => exact absurd rfl hrest
  | cons d rest => simpa [EndsLine] using h

theorem of_cons (h : EndsLine (c :: rest)) (hc : c ≠ '\n') : EndsLine rest := by
  apply h.tail
  rintro rfl
  simp [EndsLine, hc] at h

theorem length_takeWhile_lt (h : EndsLine s) {p : Char → Bool} (hp : p '\n' = false) :
    (s.takeWhile p).length < s.length := by
  have hle : (s.takeWhile p).length ≤ s.length := (List.takeWhile_prefix p).length_le
  have hne : (s.takeWhile p).length ≠ s.length := by
    intro heq
    have hsame := (List.takeWhile_prefix p).eq_of_length heq
    have hall : (s.takeWhile p).all p := List.all_takeWhile
    rw [hsame, List.all_eq_true] at hall
    exact absurd (hall _ h.mem) (by simp [hp])
  omega

theorem takeWhile_append (h : EndsLine s) {p : Char → Bool} (hp : p '\n' = false) :
    (s ++ t).takeWhile p = s.takeWhile p := by
  have hlt := h.length_takeWhile_lt hp
  rw [List.takeWhile_append, if_neg (by omega)]

theorem restOfLine_append (h : EndsLine s) : restOfLine (s ++ t) = restOfLine s := by
  rw [restOfLine, h.takeWhile_append (by decide), restOfLine]

theorem restOfLine_lt (h : EndsLine s) : restOfLine s < s.length :=
  h.length_takeWhile_lt (by decide)

end EndsLine

/-! ## Operators -/

theorem mem_of_lookup {spellings : List (List Char × Kind)} {word : List Char} {kind : Kind}
    (h : spellings.lookup word = some kind) : (word, kind) ∈ spellings := by
  obtain ⟨before, after, hmem, -⟩ := List.lookup_eq_some_iff.mp h
  simp [hmem]

theorem operatorSpellings_plain : ∀ spelling ∈ operatorSpellings,
    spelling.1.length ∈ [1, 2, 3] ∧
      ∀ c ∈ spelling.1, c ≠ '\n' ∧ c ≠ ' ' ∧ isLetter c = false := by
  have hspellings : operatorSpellings.all fun spelling => [1, 2, 3].contains spelling.1.length &&
      spelling.1.all fun c => c ≠ '\n' && c ≠ ' ' && !isLetter c := by
    decide +kernel
  intro spelling hmem
  have hplain := List.all_eq_true.mp hspellings spelling hmem
  simpa [and_assoc] using hplain

theorem lookup_operatorSpellings {d : Char} (hd : d = '\n' ∨ d = ' ') {word : List Char}
    (h : d ∈ word) : operatorSpellings.lookup word = none := by
  rw [Option.eq_none_iff_forall_ne_some]
  intro kind hkind
  obtain ⟨hline, hblank, -⟩ := (operatorSpellings_plain _ (mem_of_lookup hkind)).2 d h
  exact hd.elim hline hblank

theorem exists_of_operatorCut? {cut : Cut} (h : operatorCut? s = some cut) :
    ∃ n ∈ [3, 2, 1], ∃ k, operatorSpellings.lookup (s.take n) = some k ∧
      cut = ⟨n - 1, .token k none⟩ := by
  obtain ⟨n, hn, hlookup⟩ := List.exists_of_findSome?_eq_some h
  obtain ⟨k, hk, rfl⟩ := Option.map_eq_some_iff.mp hlookup
  exact ⟨n, hn, k, hk, rfl⟩

private theorem lookup_take_append (h : EndsLine s) (n : Nat) :
    operatorSpellings.lookup ((s ++ t).take n) = operatorSpellings.lookup (s.take n) := by
  by_cases hn : n ≤ s.length
  · rw [List.take_append_of_le_length hn]
  · have hlong : s.length ≤ n := by omega
    rw [List.take_append, List.take_of_length_le hlong, lookup_operatorSpellings (.inl rfl) h.mem,
      lookup_operatorSpellings (.inl rfl) (List.mem_append_left _ h.mem)]

theorem operatorCut?_append (h : EndsLine s) : operatorCut? (s ++ t) = operatorCut? s := by
  simp only [operatorCut?, lookup_take_append h]

theorem more_operatorCut?_lt (h : EndsLine s) {cut : Cut} (hcut : operatorCut? s = some cut) :
    cut.more + 1 < s.length := by
  obtain ⟨n, hn, k, hk, rfl⟩ := exists_of_operatorCut? hcut
  have hpos : 0 < n := by
    simp only [List.mem_cons, List.not_mem_nil, or_false] at hn
    omega
  have hshort : n < s.length := by
    refine Nat.lt_of_not_le fun hlong => ?_
    rw [List.take_of_length_le hlong, lookup_operatorSpellings (.inl rfl) h.mem] at hk
    cases hk
  change n - 1 + 1 < s.length
  omega

/-- What a piece may be, by its first character. -/
theorem firstCut_cases {motive : Cut → Prop} (c : Char) (rest : List Char)
    (newline : c = '\n' → motive ⟨0, .token .newline none⟩)
    (blank : c = ' ' ∨ c = '\r' ∨ c = '\t' → motive ⟨0, .blank⟩)
    (lineComment : c = '#' → motive ⟨restOfLine rest, .lineComment⟩)
    (string : c = '"' ∨ c = '\'' → motive (stringCut c rest))
    (number : isDigit c → motive (numberCut c rest))
    (word : startsName c → motive (wordCut c rest))
    (blockComment : c = '=' → opensBlockComment rest → motive (blockCommentCut rest))
    (operator : ∀ cut, operatorCut? (c :: rest) = some cut → motive cut)
    (unexpected : motive ⟨0, .fault (.unexpectedCharacter c)⟩) : motive (firstCut c rest) := by
  unfold firstCut
  split
  · next h => exact newline h
  split
  · next h => exact blank (by simpa [or_assoc] using h)
  split
  · next h => exact lineComment h
  split
  · next h => exact string (by simpa using h)
  split
  · next h => exact number h
  split
  · next h => exact word h
  split
  · next h =>
      obtain ⟨hc, hopens⟩ : c = '=' ∧ opensBlockComment rest := by simpa using h
      exact blockComment hc hopens
  · cases hcut : operatorCut? (c :: rest) with
    | none => exact unexpected
    | some cut => exact operator cut hcut

/-! ## Strings -/

section Strings

variable {quote : Char}

theorem closing?_append {passed n : Nat}
    (h : Text.Quoted.closing? quote passed s = some n) :
    Text.Quoted.closing? quote passed (s ++ t) = some n := by
  fun_induction Text.Quoted.closing? quote passed s with
  | case1 => cases h
  | case2 => cases h
  | case3 passed d rest ih => simpa [Text.Quoted.closing?] using ih h
  | case4 passed rest hne => simp_all [Text.Quoted.closing?]
  | case5 passed c rest hne hquote ih => simp_all [Text.Quoted.closing?]

theorem getElem?_of_closing? {passed n : Nat}
    (h : Text.Quoted.closing? quote passed s = some n) :
    ∃ i, n = passed + i + 1 ∧ s[i]? = some quote := by
  fun_induction Text.Quoted.closing? quote passed s with
  | case1 => cases h
  | case2 => cases h
  | case3 passed d rest ih =>
      obtain ⟨i, hn, hi⟩ := ih h
      exact ⟨i + 2, by omega, by simpa using hi⟩
  | case4 passed rest hne => exact ⟨0, by simp_all, by simp⟩
  | case5 passed c rest hne hquote ih =>
      obtain ⟨i, hn, hi⟩ := ih h
      exact ⟨i + 1, by omega, by simpa using hi⟩

theorem closing?_lt (hs : EndsLine s) (hquote : quote ≠ '\n') {n : Nat}
    (h : Text.Quoted.closing? quote 0 s = some n) : n < s.length := by
  obtain ⟨i, rfl, hi⟩ := getElem?_of_closing? h
  have hlt := (List.getElem?_eq_some_iff.mp hi).1
  -- the last character is the newline, so the quote is not the last
  have hlast : i ≠ s.length - 1 := by
    rintro rfl
    rw [← List.getLast?_eq_getElem?, hs] at hi
    exact hquote (Option.some.inj hi).symm
  omega

end Strings

/-! ## Comments -/

private theorem isPrefixOf_append_eq (word : List Char) (h : EndsLine s) (hword : '\n' ∉ word) :
    word.isPrefixOf (s ++ t) = word.isPrefixOf s := by
  rw [Bool.eq_iff_iff, List.isPrefixOf_iff_prefix, List.isPrefixOf_iff_prefix]
  constructor
  · intro hprefix
    have hs : s <+: s ++ t := List.prefix_append s t
    rcases Nat.le_total word.length s.length with hle | hle
    · exact List.prefix_of_prefix_length_le hprefix hs hle
    · have hmem := (List.prefix_of_prefix_length_le hs hprefix hle).subset h.mem
      exact absurd hmem hword
  · intro hprefix
    exact hprefix.trans (List.prefix_append s t)

private theorem endsLine_after_word (h : EndsLine (c :: rest))
    (hword : "=end".toList.isPrefixOf (c :: rest)) : EndsLine (rest.drop 3) := by
  obtain ⟨u, hu⟩ := List.isPrefixOf_iff_prefix.mp hword
  obtain ⟨rfl, rfl⟩ : '=' = c ∧ 'e' :: 'n' :: 'd' :: u = rest := List.cons.inj hu
  have he := h.of_cons (by decide)
  have hn := he.of_cons (by decide)
  have hd := hn.of_cons (by decide)
  exact hd.of_cons (by decide)

private theorem head?_append_of_endsLine (h : EndsLine s) : (s ++ t).head? = s.head? := by
  cases s with
  | nil => cases h
  | cons d s => rfl

private theorem closes_append (h : EndsLine (c :: rest)) :
    ("=end".toList.isPrefixOf (c :: (rest ++ t)) && !(((rest ++ t).drop 3).head?.any isLetter)) =
      ("=end".toList.isPrefixOf (c :: rest) && !((rest.drop 3).head?.any isLetter)) := by
  have hword := isPrefixOf_append_eq (t := t) "=end".toList h (by decide)
  rw [List.cons_append] at hword
  rw [hword]
  cases hprefix : "=end".toList.isPrefixOf (c :: rest) with
  | false => rfl
  | true =>
      have hafter := endsLine_after_word h hprefix
      have hlong := hafter.length_pos
      rw [List.length_drop] at hlong
      rw [List.drop_append_of_le_length (by omega), head?_append_of_endsLine hafter]

theorem commentClosing?_append (h : EndsLine s) {passed n : Nat}
    (hn : commentClosing? passed s = some n) :
    commentClosing? passed (s ++ t) = some n ∧ n < passed + s.length := by
  induction s generalizing passed with
  | nil => cases hn
  | cons c rest ih =>
      rw [List.cons_append, commentClosing?, closes_append h]
      rw [commentClosing?] at hn
      split at hn
      · next hcloses =>
          rw [if_pos hcloses]
          have hafter := endsLine_after_word h (Bool.and_eq_true_iff.mp hcloses).1
          have hlong := hafter.length_pos
          rw [List.length_drop] at hlong
          cases hn
          refine ⟨rfl, ?_⟩
          rw [List.length_cons]
          omega
      · next hopen =>
          rw [if_neg hopen]
          have hrest : rest ≠ [] := by
            rintro rfl
            cases hn
          obtain ⟨hsame, hlt⟩ := ih (h.tail hrest) hn
          refine ⟨hsame, ?_⟩
          rw [List.length_cons]
          omega

theorem opensBlockComment_append (h : EndsLine s) :
    opensBlockComment (s ++ t) = opensBlockComment s := by
  rw [opensBlockComment, h.takeWhile_append (by decide), opensBlockComment]

theorem blockCommentCut_append (h : EndsLine s)
    (hclosed : (blockCommentCut s).role.isUnterminated = false) :
    blockCommentCut (s ++ t) = blockCommentCut s ∧ (blockCommentCut s).more < s.length := by
  unfold blockCommentCut at hclosed ⊢
  cases hn : commentClosing? 0 s with
  | none =>
      rw [hn] at hclosed
      cases hclosed
  | some n =>
      obtain ⟨hsame, hlt⟩ := commentClosing?_append (t := t) h hn
      have hn : n < s.length := by omega
      have hafter := h.drop hn
      have hline := hafter.restOfLine_lt
      rw [List.length_drop] at hline
      rw [hsame]
      dsimp only
      rw [List.drop_append_of_le_length (Nat.le_of_lt hn), hafter.restOfLine_append]
      exact ⟨rfl, by omega⟩

/-! ## Numbers -/

private theorem fractionOf_append (h : EndsLine s) : fractionOf (s ++ t) = fractionOf s := by
  by_cases hpoint : ∃ digits, s = '.' :: digits
  · obtain ⟨digits, rfl⟩ := hpoint
    exact (h.of_cons (by decide)).takeWhile_append (by decide)
  · cases s with
    | nil => cases h
    | cons c rest =>
        have hc : c ≠ '.' := fun hc => hpoint ⟨rest, by rw [hc]⟩
        simp [fractionOf, hc]

private theorem length_fractionOf_lt (h : EndsLine s) (hpoint : fractionOf s ≠ []) :
    (fractionOf s).length + 1 < s.length := by
  unfold fractionOf at hpoint ⊢
  split at hpoint
  · next digits =>
      have hlt := (h.of_cons (by decide)).length_takeWhile_lt (p := isDigit) (by decide)
      simpa using hlt
  · exact absurd rfl hpoint

theorem numberCut_append (h : EndsLine rest) :
    numberCut c (rest ++ t) = numberCut c rest ∧ (numberCut c rest).more < rest.length := by
  have hdigits := h.length_takeWhile_lt (p := isDigit) (by decide)
  have hafter := h.drop hdigits
  have hfraction := fractionOf_append (t := t) hafter
  have hlength : (if (fractionOf (rest.drop (rest.takeWhile isDigit).length)).isEmpty then
      (rest.takeWhile isDigit).length
      else (rest.takeWhile isDigit).length + 1 +
        (fractionOf (rest.drop (rest.takeWhile isDigit).length)).length) < rest.length := by
    split
    · exact hdigits
    · next hpoint =>
        have hlt := length_fractionOf_lt hafter (by simpa using hpoint)
        rw [List.length_drop] at hlt
        omega
  unfold numberCut
  rw [h.takeWhile_append (by decide)]
  dsimp only
  rw [List.drop_append_of_le_length (Nat.le_of_lt hdigits), hfraction]
  generalize fractionOf (rest.drop (rest.takeWhile isDigit).length) = fraction at hlength ⊢
  generalize (if fraction.isEmpty then (rest.takeWhile isDigit).length
    else (rest.takeWhile isDigit).length + 1 + fraction.length) = length at hlength ⊢
  have htail := (h.drop hlength).length_takeWhile_lt (p := continuesName) (by decide)
  rw [List.length_drop] at htail
  rw [List.drop_append_of_le_length (Nat.le_of_lt hlength),
    (h.drop hlength).takeWhile_append (by decide)]
  refine ⟨rfl, ?_⟩
  split
  · dsimp only
    omega
  · split <;> exact hlength

/-! ## The first piece -/

theorem wordCut_append (h : EndsLine rest) :
    wordCut c (rest ++ t) = wordCut c rest ∧ (wordCut c rest).more < rest.length := by
  unfold wordCut
  rw [h.takeWhile_append (by decide)]
  exact ⟨rfl, h.length_takeWhile_lt (by decide)⟩

theorem stringCut_append (h : EndsLine rest) (hc : c ≠ '\n')
    (hclosed : (stringCut c rest).role.isUnterminated = false) :
    stringCut c (rest ++ t) = stringCut c rest ∧ (stringCut c rest).more < rest.length := by
  unfold stringCut at hclosed ⊢
  cases hn : Text.Quoted.closing? c 0 rest with
  | none =>
      rw [hn] at hclosed
      cases hclosed
  | some n =>
      have hlt := closing?_lt h hc hn
      rw [closing?_append hn]
      dsimp only
      rw [List.take_append_of_le_length (by omega)]
      exact ⟨rfl, hlt⟩

/-- The first piece of a line that is ended is the same whatever follows the line. -/
theorem firstCut_append (h : EndsLine rest) (hc : c ≠ '\n')
    (hclosed : (firstCut c rest).role.isUnterminated = false) :
    firstCut c (rest ++ t) = firstCut c rest ∧ (firstCut c rest).more < rest.length := by
  unfold firstCut at hclosed ⊢
  simp only [if_neg hc] at hclosed ⊢
  by_cases hblank : (c = ' ' || c = '\r' || c = '\t') = true
  · simpa only [if_pos hblank, true_and] using h.length_pos
  simp only [if_neg hblank] at hclosed ⊢
  by_cases hcomment : c = '#'
  · simpa only [if_pos hcomment, h.restOfLine_append, true_and] using h.restOfLine_lt
  simp only [if_neg hcomment] at hclosed ⊢
  by_cases hquote : (c = '"' || c = '\'') = true
  · simp only [if_pos hquote] at hclosed ⊢
    exact stringCut_append h hc hclosed
  simp only [if_neg hquote] at hclosed ⊢
  by_cases hdigit : isDigit c = true
  · simp only [if_pos hdigit]
    exact numberCut_append h
  simp only [if_neg hdigit] at hclosed ⊢
  by_cases hname : startsName c = true
  · simp only [if_pos hname]
    exact wordCut_append h
  simp only [if_neg hname, opensBlockComment_append h] at hclosed ⊢
  by_cases hopens : (c = '=' && opensBlockComment rest) = true
  · simp only [if_pos hopens] at hclosed ⊢
    exact blockCommentCut_append h hclosed
  simp only [if_neg hopens]
  have hwhole : EndsLine (c :: rest) := by
    cases rest with
    | nil => cases h
    | cons d rest => simpa [EndsLine] using h
  rw [← List.cons_append, operatorCut?_append hwhole]
  refine ⟨rfl, ?_⟩
  cases hcut : operatorCut? (c :: rest) with
  | none => exact h.length_pos
  | some cut =>
      have hlt := more_operatorCut?_lt hwhole hcut
      rw [List.length_cons] at hlt
      exact Nat.lt_of_succ_lt_succ hlt

end Scriptlet.Source
