import Scriptlet.Proofs.Source.Cursor
import Scriptlet.Proofs.Source.LineEnd

/-!
# Rounds of the scanner

One round of the loop passes the first piece of what is left of the text: it adds the token or fault
of that piece, on the line on which the piece starts, and counts its newlines once.  Pieces on one
line come first: operators, words, numbers, blanks, comments to the end of the line.
-/

namespace Scriptlet.Source

/-! ## Lines -/

/-- A counter that is exact for the line numbers that fit it. -/
class LawfulLineCounter (ν : Type) [LineCounter ν] where
  Fits : Nat → Prop
  fits_of_le {m n : Nat} : m ≤ n → Fits n → Fits m
  number_first : LineCounter.number (LineCounter.first : ν) = 1
  number_next (line : ν) : Fits (LineCounter.number line + 1) →
    LineCounter.number (LineCounter.next line) = LineCounter.number line + 1
  number_skip (line : ν) (n : Nat) : Fits (LineCounter.number line + n) →
    LineCounter.number (LineCounter.skip line n) = LineCounter.number line + n

instance : LawfulLineCounter Nat where
  Fits _ := True
  fits_of_le _ _ := trivial
  number_first := rfl
  number_next _ _ := rfl
  number_skip _ _ _ := rfl

instance : LawfulLineCounter UInt32 where
  Fits n := n < UInt32.size
  fits_of_le := Nat.lt_of_le_of_lt
  number_first := rfl
  number_next line h := by
    change (line + 1).toNat = line.toNat + 1
    have hfits : line.toNat + 1 < 2 ^ 32 := h
    rw [UInt32.toNat_add, UInt32.toNat_one, Nat.mod_eq_of_lt hfits]
  number_skip line n h := by
    change (line + UInt32.ofNat (min n 4294967295)).toNat = line.toNat + n
    have hfits : line.toNat + n < 2 ^ 32 := h
    have hn : n % 2 ^ 32 = n := Nat.mod_eq_of_lt (by omega)
    rw [UInt32.toNat_add, UInt32.toNat_ofNat', Nat.min_eq_left (by omega), hn,
      Nat.mod_eq_of_lt hfits]

open LineCounter LawfulLineCounter

section Counts

variable {ν : Type} [LineCounter ν] [LawfulLineCounter ν]

def Counts (line line' : ν) (n : Nat) : Prop :=
  Fits ν (number line + n) → number line' = number line + n

namespace Counts

variable {line line₁ line₂ : ν} {m n : Nat}

theorem refl (line : ν) : Counts line line 0 :=
  fun _ => rfl

theorem trans (h : Counts line line₁ m) (h' : Counts line₁ line₂ n) :
    Counts line line₂ (m + n) := by
  intro hfits
  rw [← Nat.add_assoc] at hfits
  have hfirst := h (fits_of_le (Nat.le_add_right _ _) hfits)
  rw [← hfirst] at hfits
  rw [h' hfits, hfirst, Nat.add_assoc]

theorem next (line : ν) : Counts line (LineCounter.next line) 1 :=
  number_next line

theorem skip (line : ν) (n : Nat) : Counts line (LineCounter.skip line n) n :=
  number_skip line n

end Counts

end Counts

/-! ## Reserved words -/

theorem exists_of_reserved? {word : String} {kind : Kind} (h : reserved? word = some kind) :
    (word.toList, kind) ∈ wordSpellings := by
  have hword : wordSpellings.contains (word.toList, kind) := by
    unfold reserved? at h
    split at h
    · cases h
    split at h
    all_goals first | split at h | cases h
    all_goals first | (cases h; decide +kernel) | cases h
  exact List.contains_iff_mem.mp hword

theorem reserved?_of_mem {word : List Char} {kind : Kind} (h : (word, kind) ∈ wordSpellings) :
    reserved? (String.ofList word) = some kind := by
  have hall : ∀ spelling ∈ wordSpellings,
      reserved? (String.ofList spelling.1) = some spelling.2 := by
    decide +kernel
  exact hall _ h

/-- The words that are told by their length and spelling are those that kinds are named by. -/
theorem reserved?_eq (word : List Char) :
    reserved? (String.ofList word) = wordSpellings.lookup word := by
  cases hlookup : wordSpellings.lookup word with
  | some kind => exact reserved?_of_mem (mem_of_lookup hlookup)
  | none =>
      rw [Option.eq_none_iff_forall_ne_some]
      intro kind hkind
      have hmem := exists_of_reserved? hkind
      rw [String.toList_ofList] at hmem
      simpa using List.lookup_eq_none_iff.mp hlookup _ hmem

/-! ## Operators -/

def extensions (word : List Char) : List Char :=
  operatorSpellings.filterMap fun spelling =>
    if word.isPrefixOf spelling.1 then spelling.1[word.length]? else none

variable {c d : Char} {text rest before read after : List Char} {kind : Kind}

theorem mem_extensions {word more : List Char}
    (h : (word ++ d :: more, kind) ∈ operatorSpellings) : d ∈ extensions word := by
  refine List.mem_filterMap.mpr ⟨_, h, ?_⟩
  dsimp only
  rw [if_pos (List.isPrefixOf_iff_prefix.mpr (List.prefix_append _ _)),
    List.getElem?_append_right (Nat.le_refl _), Nat.sub_self]
  rfl

theorem lookup_of_mem {word : List Char} (h : (word, kind) ∈ operatorSpellings) :
    operatorSpellings.lookup word = some kind := by
  have hall : ∀ spelling ∈ operatorSpellings,
      operatorSpellings.lookup spelling.1 = some spelling.2 := by
    decide +kernel
  exact hall _ h

theorem takes_operatorCut (hmem : (c :: text, kind) ∈ operatorSpellings)
    (hlonger : ∀ d ∈ rest.head?, d ∉ extensions (c :: text)) :
    ∃ cut, operatorCut? (c :: (text ++ rest)) = some cut ∧
      cut.Takes text rest (.token kind none) := by
  have hlookup := lookup_of_mem hmem
  have hlength : text.length = 0 ∨ text.length = 1 ∨ text.length = 2 := by
    have hshort := (operatorSpellings_plain _ hmem).1
    simp only [List.length_cons, List.mem_cons, List.not_mem_nil, or_false] at hshort
    omega
  cases rest with
  | nil =>
      refine ⟨⟨2, .token kind none⟩, ?_, Cut.takes_at_end rfl (by dsimp only; omega)⟩
      have htake : (c :: (text ++ [])).take 3 = c :: text := by
        rw [List.append_nil, List.take_of_length_le (by rw [List.length_cons]; omega)]
      rw [operatorCut?, List.findSome?_cons, htake, hlookup]
      rfl
  | cons d rest =>
      have hnone : ∀ n, text.length + 1 < n →
          operatorSpellings.lookup ((c :: (text ++ d :: rest)).take n) = none := by
        intro n hn
        obtain ⟨k, rfl⟩ := Nat.exists_eq_add_of_lt hn
        rw [Option.eq_none_iff_forall_ne_some]
        intro kind hkind
        have htake : (c :: (text ++ d :: rest)).take (text.length + 1 + k + 1) =
            c :: text ++ d :: rest.take k := by
          rw [← List.cons_append, List.take_append, List.take_of_length_le (by simp; omega)]
          simp [show text.length + 1 + k + 1 - (text.length + 1) = k + 1 by omega]
        rw [htake] at hkind
        exact hlonger d rfl (mem_extensions (mem_of_lookup hkind))
      have htake : (c :: (text ++ d :: rest)).take (text.length + 1) = c :: text := by
        rw [← List.cons_append, ← List.length_cons, List.take_left]
      refine ⟨⟨text.length, .token kind none⟩, ?_, Cut.takes_of_length rfl⟩
      rw [← htake] at hlookup
      -- the longest spellings are tried first
      rcases hlength with hlength | hlength | hlength <;> rw [hlength] at hlookup hnone ⊢
      · simp only [operatorCut?, List.findSome?_cons, hnone 3 (by decide), hnone 2 (by decide),
          hlookup, Option.map_none, Option.map_some]
      · simp only [operatorCut?, List.findSome?_cons, hnone 3 (by decide), hlookup,
          Option.map_none, Option.map_some]
      · simp only [operatorCut?, List.findSome?_cons, hlookup, Option.map_some]

theorem operatorCut?_eq_none (hc : c ∉ extensions []) : operatorCut? (c :: rest) = none := by
  rw [Option.eq_none_iff_forall_ne_some]
  intro cut hcut
  obtain ⟨n, hn, kind, hkind, -⟩ := exists_of_operatorCut? hcut
  cases n with
  | zero => simp at hn
  | succ n => exact hc (mem_extensions (mem_of_lookup hkind))

/-! ## Rounds -/

namespace Scanner

variable {ν : Type} {source : String} {s : Scanner ν source}

/-- The round began behind `before`, and has passed `read` since. -/
structure Within (s : Scanner ν source) (before read after : List Char) : Prop where
  start : s.start = (bytes before).length
  stands : s.cursor.Stands (before ++ read) after

theorem Within.sliceFrom? (h : s.Within before read after) :
    s.cursor.sliceFrom? s.start = some (String.ofList read) := by
  rw [Cursor.sliceFrom?, h.start, h.stands.place]
  exact stretch?_eq h.stands.text

theorem Within.move {cursor : Cursor source} {more following : List Char}
    (h : s.Within before read after) (hcursor : cursor.Stands (before ++ read ++ more) following) :
    { s with cursor }.Within before (read ++ more) following where
  start := h.start
  stands := by
    rw [← List.append_assoc]
    exact hcursor

theorem Within.withLine (h : s.Within before read after) (line : ν) :
    { s with line }.Within before read after :=
  ⟨h.start, h.stands⟩

/-- What one round of a loop comes to that stands at `i`: an end, or a later place where the loop
stands at some `j`, and from which it ends as it may end for `i`. -/
inductive LoopStep {ι : Type} (round : Scanner ν source → Option (Round ν source))
    (stands : ι → Scanner ν source → Prop) (ends : ι → Scanner ν source → Scanner ν source → Prop)
    (i : ι) (s : Scanner ν source) : Prop where
  | last (t : Scanner ν source) (hread : round s = some (.last t)) (hends : ends i s t)
  | more (j : ι) (t : Scanner ν source) (hread : round s = some (.more t))
      (hmoves : s.cursor.place < t.cursor.place) (hstands : stands j t)
      (hlater : ∀ u, ends j t u → ends i s u)

/-- A loop of which each round gets on comes to an end. -/
theorem exists_loop? {ι : Type} {round : Scanner ν source → Option (Round ν source)}
    {stands : ι → Scanner ν source → Prop} {ends : ι → Scanner ν source → Scanner ν source → Prop}
    (hround : ∀ i s, stands i s → LoopStep round stands ends i s) {i : ι} (h : stands i s) :
    ∃ t, s.loop? round = some t ∧ ends i s t := by
  induction hleft : source.utf8ByteSize - s.cursor.place using Nat.strongRecOn
    generalizing i s with
  | ind n ih =>
      cases hround i s h with
      | last t hread hends => exact ⟨t, by rw [loop?, hread], hends⟩
      | more j t hread hmoves hstands hlater =>
          have hle := t.cursor.place_le
          obtain ⟨u, hu, hends⟩ := ih _ (by omega) hstands rfl
          refine ⟨u, ?_, hlater u hends⟩
          rw [loop?, hread]
          exact (if_pos hmoves).trans hu

variable [LineCounter ν]

theorem Within.add? (h : s.Within before read after) (kind : Kind) :
    s.add? kind = some (s.push kind (String.ofList read) none s.line) := by
  rw [Scanner.add?, h.sliceFrom?]
  rfl

theorem Within.skip {mid : List Char} (h : s.Within before read (mid ++ after)) :
    (s.skip (bytes mid).length).Within before (read ++ mid) after :=
  ⟨h.start, (h.move h.stands.skip.2).stands⟩

theorem Within.addString? {quote : Char} {body : List Char}
    (h : s.Within before (quote :: body ++ [quote]) after) (openedOn : ν)
    (hquote : quote.toNat < 128) :
    s.addString? openedOn = some (s.push .string (String.ofList (quote :: body ++ [quote]))
      (some (.str (String.ofList (Text.Quoted.decode body)))) openedOn) := by
  simp only [Scanner.addString?, h.sliceFrom?, Option.bind_eq_bind, Option.bind_some,
    stretch?_body body hquote, String.toList_ofList]
  rfl

variable [LawfulLineCounter ν]

/-- From one scanner to another behind a piece: the token or fault of the piece is added, on the
line on which it starts, and its newlines are counted. -/
def Passes (s t : Scanner ν source) (before : List Char) (p : Piece) (after : List Char) : Prop :=
  t.cursor.Stands (before ++ p.text) after ∧
    t.tokens.toList = s.tokens.toList ++ (p.token? (number s.line)).toList ∧
      t.errors.toList = s.errors.toList ++ (p.error? (number s.line)).toList ∧
        Counts s.line t.line (newlines p.text)

/-- The result of a round stands behind the first piece of the text. -/
def Reads (s : Scanner ν source) (before : List Char) (c : Char) (rest : List Char)
    (result : Option (Scanner ν source)) : Prop :=
  ∃ body after role t, rest = body ++ after ∧ (firstCut c rest).Takes body after role ∧
    result = some t ∧ s.Passes t before ⟨c :: body, role⟩ after

theorem Within.passes_push {literal : Option Literal} (h : s.Within before (c :: text) after)
    (hline : '\n' ∉ c :: text) :
    s.Passes (s.push kind (String.ofList (c :: text)) literal s.line) before
      ⟨c :: text, .token kind literal⟩ after := by
  refine ⟨h.stands, ?_, ?_, ?_⟩
  · simp [push, Piece.token?]
  · simp [push, Piece.error?]
  · rw [newlines_eq_zero hline]
    exact Counts.refl _

theorem Within.passes_error {fault : Fault} (h : s.Within before (c :: text) after)
    (hline : '\n' ∉ c :: text) :
    s.Passes (s.error fault) before ⟨c :: text, .fault fault⟩ after := by
  refine ⟨h.stands, ?_, ?_, ?_⟩
  · simp [error, errorAt, Piece.token?]
  · simp [error, errorAt, Piece.error?]
  · rw [newlines_eq_zero hline]
    exact Counts.refl _

/-! ### Operators -/

theorem firstCut_operator {cut : Cut} (hcut : operatorCut? (c :: rest) = some cut)
    (hopens : c = '=' → opensBlockComment rest = false) : firstCut c rest = cut := by
  have hall : (extensions []).all fun c =>
      !List.contains ['\n', ' ', '\r', '\t', '#', '"', '\''] c && !isDigit c && !startsName c := by
    decide +kernel
  have hc : c ∈ extensions [] := by
    refine Decidable.of_not_not fun hc => ?_
    rw [operatorCut?_eq_none hc] at hcut
    cases hcut
  have hopen : (c = '=' && opensBlockComment rest) = false := by
    by_cases heq : c = '='
    · simp [heq, hopens heq]
    · simp [heq]
  have hsort := List.all_eq_true.mp hall c hc
  simp only [Bool.and_eq_true, Bool.not_eq_true', List.contains_eq_mem, decide_eq_false_iff_not,
    List.mem_cons, List.not_mem_nil, or_false, not_or] at hsort
  simp [firstCut, hsort, hopen, hcut]

theorem Within.reads_add (h : s.Within before (c :: text) after)
    (hmem : (c :: text, kind) ∈ operatorSpellings)
    (hlonger : ∀ d ∈ after.head?, d ∉ extensions (c :: text))
    (hopens : c = '=' → opensBlockComment (text ++ after) = false) :
    s.Reads before c (text ++ after) (s.add? kind) := by
  obtain ⟨cut, hcut, htakes⟩ := takes_operatorCut hmem hlonger
  have hline : '\n' ∉ c :: text := fun hmem' =>
    absurd rfl ((operatorSpellings_plain _ hmem).2 _ hmem').1
  rw [← firstCut_operator hcut hopens] at htakes
  exact ⟨text, after, _, _, rfl, htakes, h.add? kind, h.passes_push hline⟩

theorem Within.reads_addIf (h : s.Within before (c :: text) after) (hd : d.toNat < 128)
    {matched otherwise : Kind} (hmatched : (c :: (text ++ [d]), matched) ∈ operatorSpellings)
    (hotherwise : (c :: text, otherwise) ∈ operatorSpellings)
    (hlast : extensions (c :: (text ++ [d])) = [])
    (honly : ∀ e ∈ after.head?, e ∈ extensions (c :: text) → e = d) (hc : c ≠ '=') :
    s.Reads before c (text ++ after) (s.addIf? d matched otherwise) := by
  by_cases hnext : after.head? = some d
  · obtain ⟨after, rfl⟩ := List.head?_eq_some_iff.mp hnext
    obtain ⟨cursor, heat, hcursor⟩ := h.stands.eat?_some hd
    have hbehind :
        ({ s with cursor } : Scanner ν source).Within before (c :: (text ++ [d])) after :=
      h.move hcursor
    have hreads := hbehind.reads_add hmatched (by simp [hlast]) fun heq => absurd heq hc
    rw [addIf?, heat]
    rw [List.append_assoc] at hreads
    exact hreads
  · rw [addIf?, h.stands.eat?_none hd hnext]
    refine h.reads_add hotherwise (fun e he hmem => hnext ?_) fun heq => absurd heq hc
    rw [← honly e he hmem]
    exact he

theorem Within.reads_addEither (h : s.Within before [c] after) {first second : Char}
    (hfirst : first.toNat < 128) (hsecond : second.toNat < 128) {ofFirst ofSecond otherwise : Kind}
    (hofFirst : ([c, first], ofFirst) ∈ operatorSpellings)
    (hofSecond : ([c, second], ofSecond) ∈ operatorSpellings)
    (hotherwise : ([c], otherwise) ∈ operatorSpellings)
    (hlast : extensions [c, first] = [] ∧ extensions [c, second] = [])
    (honly : (extensions [c]).all fun e => e = first || e = second) (hc : c ≠ '=') :
    s.Reads before c after (s.addEither? first second ofFirst ofSecond otherwise) := by
  by_cases hnext : after.head? = some first
  · obtain ⟨after, rfl⟩ := List.head?_eq_some_iff.mp hnext
    obtain ⟨cursor, heat, hcursor⟩ := h.stands.eat?_some hfirst
    rw [addEither?, heat]
    exact (h.move hcursor).reads_add hofFirst (by simp [hlast]) fun heq => absurd heq hc
  · rw [addEither?, h.stands.eat?_none hfirst hnext]
    refine h.reads_addIf hsecond hofSecond hotherwise hlast.2 (fun e he hmem => ?_) hc
    have heither : e = first ∨ e = second := by simpa using List.all_eq_true.mp honly e hmem
    refine heither.resolve_left ?_
    rintro rfl
    exact hnext he

theorem Within.reads_points (h : s.Within before ['.'] after) :
    s.Reads before '.' after s.points? := by
  by_cases hnext : after.head? = some '.'
  · obtain ⟨after, rfl⟩ := List.head?_eq_some_iff.mp hnext
    obtain ⟨cursor, heat, hcursor⟩ := h.stands.eat?_some (by decide)
    rw [points?, heat]
    have honly : (extensions ['.', '.']).all (· = '.') := by decide +kernel
    exact Within.reads_addIf (h.move hcursor) (by decide) (by decide +kernel)
      (by decide +kernel) (by decide +kernel)
      (fun e _ hmem => of_decide_eq_true (List.all_eq_true.mp honly e hmem))
      (by decide)
  · rw [points?, h.stands.eat?_none (by decide) hnext]
    refine h.reads_add (by decide +kernel) (fun e he hmem => hnext ?_) (by simp)
    have honly : (extensions ['.']).all (· = '.') := by decide +kernel
    rw [← of_decide_eq_true (List.all_eq_true.mp honly e hmem)]
    exact he

/-! ### Lines and words -/

theorem Within.reads_newline (h : s.Within before ['\n'] after) :
    s.Reads before '\n' after (do
      let s ← s.add? .newline
      return { s with line := LineCounter.next s.line }) := by
  refine ⟨[], after, .token .newline none,
    { s.push .newline "\n" none s.line with line := LineCounter.next s.line }, rfl, ⟨rfl, rfl, rfl⟩,
    ?_, h.stands, ?_, ?_, Counts.next _⟩
  · rw [h.add?]
    rfl
  · simp [push, Piece.token?]
  · simp [push, Piece.error?]

theorem Within.reads_blank (h : s.Within before [c] after)
    (hc : c = ' ' ∨ c = '\r' ∨ c = '\t') : s.Reads before c after (some s) := by
  refine ⟨[], after, .blank, s, rfl, ?_, rfl, h.stands, ?_, ?_, ?_⟩
  · rcases hc with rfl | rfl | rfl <;> exact ⟨rfl, rfl, rfl⟩
  · simp [Piece.token?]
  · simp [Piece.error?]
  · rcases hc with rfl | rfl | rfl <;> exact Counts.refl _

theorem Within.reads_lineComment (h : s.Within before ['#'] after) :
    s.Reads before '#' after (some { s with cursor := s.cursor.skipToNewline }) := by
  obtain ⟨line, following, rfl, hline, hend⟩ := exists_run (· ≠ '\n') after
  have hnewline : '\n' ∉ line := fun hmem => by simpa using hline _ hmem
  have hcut : firstCut '#' (line ++ following) = ⟨line.length, .lineComment⟩ := by
    change (⟨((line ++ following).takeWhile _).length, _⟩ : Cut) = _
    rw [takeWhile_run hline hend]
  refine ⟨line, following, .lineComment, _, rfl, Cut.takes_of_length hcut, rfl, ?_, ?_, ?_, ?_⟩
  · exact (h.move (h.stands.skipToNewline hnewline hend)).stands
  · simp [Piece.token?]
  · simp [Piece.error?]
  · rw [newlines_eq_zero (by simpa using hnewline)]
    exact Counts.refl _

theorem Within.reads_identifier (h : s.Within before [c] after) (hc : startsName c) :
    s.Reads before c after s.identifier? := by
  obtain ⟨word, following, rfl, hword, hend⟩ := exists_run continuesName after
  have hnext := h.move (h.stands.eatWhile plain_continuesName hword hend)
  have hcut := firstCut_name hc (word ++ following)
  rw [wordCut, takeWhile_run hword hend] at hcut
  refine ⟨word, following, _, _, rfl, Cut.takes_of_length hcut, ?_, hnext.passes_push ?_⟩
  · rw [identifier?]
    simp only [hnext.sliceFrom?, Option.bind_eq_bind, Option.bind_some, hnext.add?]
    rw [reserved?_eq]
    rfl
  · intro hmem
    rcases List.mem_cons.mp hmem with rfl | hmem
    · cases hc
    · exact absurd (hword _ hmem) (by decide)

/-! ### Numbers -/

def numberRole (isFloat : Bool) (text : List Char) : Role :=
  match if isFloat then float? (String.ofList text) else integer? (String.ofList text) with
  | some literal => .token (if isFloat then .float else .integer) (some literal)
  | none => .fault .numberOutOfRange

theorem numberRole_integer (text : List Char) : numberRole false text = integerRole text := by
  simp only [numberRole, integer?, integerRole, String.toList_ofList, Bool.false_eq_true, if_false]
  by_cases hfits : Decimal.natOfDigits text < Nat.pow 2 63 <;> simp [hfits]

theorem numberRole_float {digits fraction : List Char} (hdigits : ∀ d ∈ digits, isDigit d) :
    numberRole true (digits ++ '.' :: fraction) =
      .token .float (some (.float (Decimal.toFloat digits fraction))) := by
  have hpoint : ('.' :: fraction).takeWhile isDigit = [] := List.takeWhile_cons_of_neg (by decide)
  have hdrop : (digits ++ '.' :: fraction).dropWhile isDigit = '.' :: fraction := by
    rw [List.dropWhile_append_of_pos hdigits, List.dropWhile_cons_of_neg (by decide)]
  simp only [numberRole, float?, String.toList_ofList, if_true, hdrop, takeWhile_run hdigits hpoint]

theorem Within.addNumber?_value (h : s.Within before (c :: text) after) (hline : '\n' ∉ c :: text)
    (hend : after.takeWhile continuesName = []) (isFloat : Bool) :
    ∃ t, s.addNumber? isFloat = some t ∧
      s.Passes t before ⟨c :: text, numberRole isFloat (c :: text)⟩ after := by
  have hcurrent : continuesName s.cursor.current = false := by
    rw [h.stands.test_current plain_continuesName (by decide)]
    exact takeWhile_eq_nil_iff.mp hend
  have hread : s.addNumber? isFloat =
      match if isFloat then float? (String.ofList (c :: text)) else
        integer? (String.ofList (c :: text)) with
      | some literal => some (s.push (if isFloat then .float else .integer)
          (String.ofList (c :: text)) (some literal) s.line)
      | none => some (s.error .numberOutOfRange) := by
    simp only [addNumber?, hcurrent, h.sliceFrom?, Option.bind_eq_bind, Option.bind_some]
    rfl
  rw [hread, numberRole]
  cases if isFloat then float? (String.ofList (c :: text)) else
      integer? (String.ofList (c :: text)) with
  | some literal => exact ⟨_, rfl, h.passes_push hline⟩
  | none => exact ⟨_, rfl, h.passes_error hline⟩

theorem Within.addNumber?_name {name : List Char} (h : s.Within before (c :: text) (name ++ after))
    (hline : '\n' ∉ c :: text) (hname : ∀ d ∈ name, continuesName d) (hne : name ≠ [])
    (hend : after.takeWhile continuesName = []) (isFloat : Bool) :
    ∃ t, s.addNumber? isFloat = some t ∧
      s.Passes t before ⟨c :: (text ++ name), .fault .invalidIdentifier⟩ after := by
  have hcurrent : continuesName s.cursor.current = true := by
    rw [h.stands.test_current plain_continuesName (by decide)]
    obtain ⟨d, name, rfl⟩ := List.exists_cons_of_ne_nil hne
    exact hname d List.mem_cons_self
  have hnext :
      ({ s with cursor := s.cursor.eatWhile continuesName } : Scanner ν source).Within before
        (c :: (text ++ name)) after :=
    h.move (h.stands.eatWhile plain_continuesName hname hend)
  refine ⟨_, ?_, hnext.passes_error ?_⟩
  · simp only [addNumber?, hcurrent]
    rfl
  · rw [← List.cons_append, List.mem_append, not_or]
    exact ⟨hline, fun hmem => absurd (hname _ hmem) (by decide)⟩

theorem Within.reads_addNumber (h : s.Within before (c :: text) after) (hline : '\n' ∉ c :: text)
    (isFloat : Bool)
    (hcut : firstCut c (text ++ after) = if (after.takeWhile continuesName).isEmpty then
      ⟨text.length, numberRole isFloat (c :: text)⟩
      else ⟨text.length + (after.takeWhile continuesName).length, .fault .invalidIdentifier⟩) :
    s.Reads before c (text ++ after) (s.addNumber? isFloat) := by
  obtain ⟨name, following, rfl, hname, hend⟩ := exists_run continuesName after
  rw [takeWhile_run hname hend] at hcut
  by_cases hne : name = []
  · subst hne
    obtain ⟨t, ht, hpasses⟩ := h.addNumber?_value hline hend isFloat
    exact ⟨text, following, _, t, rfl, Cut.takes_of_length hcut, ht, hpasses⟩
  · obtain ⟨t, ht, hpasses⟩ := h.addNumber?_name hline hname hne hend isFloat
    rw [List.isEmpty_eq_false_iff.mpr hne, ← List.length_append] at hcut
    rw [← List.append_assoc] at hcut ⊢
    exact ⟨text ++ name, following, _, t, rfl, Cut.takes_of_length hcut, ht, hpasses⟩

theorem Within.reads_number (h : s.Within before [c] after) (hc : isDigit c) :
    s.Reads before c after s.number? := by
  obtain ⟨digits, after, rfl, hdigits, hend⟩ := exists_run isDigit after
  have hnext := h.move (h.stands.eatWhile plain_isDigit hdigits hend)
  have hcut := firstCut_digit hc (digits ++ after)
  have hall : ∀ d ∈ c :: digits, isDigit d := List.forall_mem_cons.mpr ⟨hc, hdigits⟩
  have hpoint := hnext.stands.point_current
  by_cases hfraction : fractionOf after = []
  · rw [numberCut_integer hdigits hend hfraction, ← numberRole_integer] at hcut
    rw [hfraction] at hpoint
    have hread : s.number? = ({ s with cursor := s.cursor.eatWhile isDigit } :
        Scanner ν source).addNumber? false := by
      rw [number?]
      simp [hpoint]
    rw [hread]
    exact hnext.reads_addNumber (fun hmem => absurd (hall _ hmem) (by decide)) false hcut
  · obtain ⟨fraction, after, rfl, hne, hfraction', hend'⟩ := exists_of_fractionOf hfraction
    have hsome : (fractionOf ('.' :: fraction ++ after)).isEmpty = false := by simpa using hfraction
    rw [hsome] at hpoint
    obtain ⟨cursor, hadvance, hcursor⟩ := hnext.stands.advance? (by decide)
    have hread : s.number? = ({ s with cursor := cursor.eatWhile isDigit } :
        Scanner ν source).addNumber? true := by
      rw [number?]
      simp [hpoint, hadvance]
    have hbehind := hnext.move hcursor
    have hmore := hbehind.move (hbehind.stands.eatWhile plain_isDigit hfraction' hend')
    have htext : [c] ++ digits ++ ['.'] ++ fraction = c :: (digits ++ '.' :: fraction) := by simp
    rw [htext] at hmore
    have hline : '\n' ∉ c :: (digits ++ '.' :: fraction) := by
      intro hmem
      rcases List.mem_append.mp (List.cons_append ▸ hmem) with hmem | hmem
      · exact absurd (hall _ hmem) (by decide)
      · rcases List.mem_cons.mp hmem with heq | hmem
        · cases heq
        · exact absurd (hfraction' _ hmem) (by decide)
    rw [← List.append_assoc, numberCut_float hdigits hfraction' hne hend',
      ← numberRole_float hall] at hcut
    rw [hread, ← List.append_assoc]
    exact hmore.reads_addNumber hline true hcut

end Scanner

end Scriptlet.Source
