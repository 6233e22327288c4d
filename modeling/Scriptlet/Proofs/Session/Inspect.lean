import Scriptlet.Proofs.Grammar.Precedence
import Scriptlet.Proofs.Number.Decimal
import Scriptlet.Proofs.Source.Strings
import Scriptlet.Proofs.Value.Power
import Scriptlet.Session.Basic
import Scriptlet.Value.Text

/-!
# Inspected values

What a value shows itself as is a program of one expression, and the value of that expression is the
value again.  This holds of `nil`, of booleans, of all integers but the least, whose digits stand
for no integer before the sign is applied, and of texts without characters that are written by their
code point.
-/

namespace Scriptlet

open Source

/-! ## Digits -/

theorem pieces_integer {n : Nat} (h : n < 2 ^ 63) :
    pieces (Nat.toDigits 10 n) =
      [⟨Nat.toDigits 10 n, .token .integer (some (.int (Int64.ofNat n)))⟩] := by
  have hdigits : ∀ d ∈ Nat.toDigits 10 n, isDigit d := fun d hd =>
    Nat.isDigit_of_mem_toDigits (by decide) (by decide) hd
  have hvalue := Decimal.natOfDigits_toDigits n
  obtain ⟨c, digits, heq⟩ := List.exists_cons_of_ne_nil (Nat.toDigits_ne_nil (n := n) (b := 10))
  rw [heq, List.forall_mem_cons] at hdigits
  rw [heq] at hvalue ⊢
  have hcut := numberCut_integer (c := c) (t := []) hdigits.2 rfl rfl
  have hrole : integerRole (c :: digits) = .token .integer (some (.int (Int64.ofNat n))) := by
    rw [integerRole, hvalue]
    exact if_pos h
  have hend : ([].takeWhile continuesName).isEmpty = true := rfl
  rw [List.append_nil, if_pos hend, hrole] at hcut
  rw [pieces_cons, firstCut_digit hdigits.1, hcut]
  simp

theorem isDigit_operatorSpellings : ∀ spelling ∈ operatorSpellings,
    ∀ c ∈ spelling.1, isDigit c = false := by
  have hspellings : operatorSpellings.all fun spelling => spelling.1.all fun c => !isDigit c := by
    decide +kernel
  intro spelling hmem
  simpa using List.all_eq_true.mp hspellings spelling hmem

theorem pieces_minus {d : Char} (h : isDigit d) (rest : List Char) :
    pieces ('-' :: d :: rest) = ⟨['-'], .token .minus none⟩ :: pieces (d :: rest) := by
  have hlonger : ∀ more, operatorSpellings.lookup ('-' :: d :: more) = none := by
    intro more
    rw [Option.eq_none_iff_forall_ne_some]
    intro kind hkind
    have hdigit := isDigit_operatorSpellings _ (mem_of_lookup hkind) d (by simp)
    rw [h] at hdigit
    cases hdigit
  have hsign : operatorSpellings.lookup ['-'] = some .minus := by decide +kernel
  have hcut : firstCut '-' (d :: rest) = ⟨0, .token .minus none⟩ := by
    have hoperator : operatorCut? ('-' :: d :: rest) = some ⟨0, .token .minus none⟩ := by
      simp [operatorCut?, hlonger, hsign]
    simp [firstCut, hoperator, show isDigit '-' = false by decide,
      show startsName '-' = false by decide]
  rw [pieces_cons, hcut]
  rfl

theorem pieces_minus_integer {n : Nat} (h : n < 2 ^ 63) :
    pieces ('-' :: Nat.toDigits 10 n) =
      [⟨['-'], .token .minus none⟩,
        ⟨Nat.toDigits 10 n, .token .integer (some (.int (Int64.ofNat n)))⟩] := by
  rw [← pieces_integer h]
  obtain ⟨d, digits, heq⟩ := List.exists_cons_of_ne_nil (Nat.toDigits_ne_nil (n := n) (b := 10))
  have hdigit : isDigit d := by
    apply Nat.isDigit_of_mem_toDigits (b := 10) (n := n) (by decide) (by decide)
    rw [heq]
    exact List.mem_cons_self
  rw [heq]
  exact pieces_minus hdigit digits

/-! ## Texts -/

section Texts

open Text

/-- The character is written as itself, or with one of five short escapes. -/
def IsWrittenShort (c : Char) : Prop :=
  escapeChar ['"'] true c ∈
    [[c], ['\\', 't'], ['\\', 'r'], ['\\', 'n'], ['\\', '\\'], ['\\', '"']]

instance : DecidablePred IsWrittenShort := fun c =>
  inferInstanceAs (Decidable (escapeChar ['"'] true c ∈ _))

theorem exists_item_of_isWrittenShort {c : Char} (h : IsWrittenShort c) :
    ∃ item : Quoted.Item '"', item.text = escapeChar ['"'] true c ∧ item.value = [c] := by
  by_cases hc : c ∈ ['\x00', '\t', '\r', '\n', '\\', '"']
  · simp only [List.mem_cons, List.not_mem_nil, or_false] at hc
    rcases hc with rfl | rfl | rfl | rfl | rfl | rfl
    · exact absurd h (by unfold IsWrittenShort; decide)
    · exact ⟨.escaped 't', rfl, rfl⟩
    · exact ⟨.escaped 'r', rfl, rfl⟩
    · exact ⟨.escaped 'n', rfl, rfl⟩
    · exact ⟨.escaped '\\', rfl, rfl⟩
    · exact ⟨.escaped '"', rfl, rfl⟩
  · simp only [List.mem_cons, List.not_mem_nil, or_false, not_or] at hc
    have hshort : shortEscape? c = none := by simp [shortEscape?, hc]
    have hquote : ¬['"'].contains c = true := by simp [hc]
    have hescape : escapeChar ['"'] true c = codePoint c ∨ escapeChar ['"'] true c = [c] := by
      simp only [escapeChar, hshort, if_neg hquote]
      split
      · exact .inl rfl
      · exact .inr rfl
    have hplain : escapeChar ['"'] true c = [c] := by
      refine hescape.resolve_left fun hcode => ?_
      rw [IsWrittenShort, hcode] at h
      simp [codePoint] at h
    exact ⟨.plain c hc.2.2.2.2.1 hc.2.2.2.2.2, hplain.symm, rfl⟩

theorem exists_items_of_isWrittenShort {s : List Char} (h : ∀ c ∈ s, IsWrittenShort c) :
    ∃ items : List (Quoted.Item '"'), '"' :: (Quoted.text items ++ ['"']) = quotedChars s ∧
      Quoted.value items = s := by
  suffices hbody : ∃ items : List (Quoted.Item '"'),
      Quoted.text items = s.flatMap (escapeChar ['"'] true) ∧ Quoted.value items = s by
    obtain ⟨items, htext, hvalue⟩ := hbody
    exact ⟨items, by rw [htext, quotedChars, List.cons_append], hvalue⟩
  induction s with
  | nil => exact ⟨[], rfl, rfl⟩
  | cons c s ih =>
      obtain ⟨hc, hs⟩ := List.forall_mem_cons.mp h
      obtain ⟨item, htext, hvalue⟩ := exists_item_of_isWrittenShort hc
      obtain ⟨items, htexts, hvalues⟩ := ih hs
      refine ⟨item :: items, ?_, ?_⟩
      · rw [Quoted.text_cons, htext, htexts, List.flatMap_cons]
      · rw [Quoted.value_cons, hvalue, hvalues, List.singleton_append]

end Texts

/-! ## Programs of one expression -/

namespace Grammar

theorem parse_literal {t : Token} {v : Literal} (h : t.value? = some v) (last : Nat) :
    parse [t, Token.eof last] = ⟨[.expr (.literal v)], []⟩ := by
  obtain ⟨kind, lexeme, literal, line⟩ := t
  cases kind <;> cases h <;> rfl

theorem parse_negated {op t : Token} {v : Literal} (hop : op.kind = .minus)
    (h : t.value? = some v) (last : Nat) :
    parse [op, t, Token.eof last] = ⟨[.expr (.unary op (.literal v))], []⟩ := by
  obtain ⟨_, sign, literal, line⟩ := op
  cases hop
  obtain ⟨kind, lexeme, literal, line⟩ := t
  cases kind <;> cases h <;> rfl

end Grammar

/-- The text is a program of one expression, which has the value whatever ran before, and changes
nothing. -/
structure StandsFor (source : String) (v : Value) : Prop where
  lexed : (lex source).errors = []
  parsed : ∃ e, Grammar.parse (lex source).tokens = ⟨[.expr e], []⟩ ∧
    ∀ settings fuel m, 2 ≤ fuel → Run.evaluate settings fuel e m = .ok v m

theorem exists_tokens_of_pieces {source : String} {ps : List Piece}
    (h : pieces source.toList = ps) (htokens : ∀ p ∈ ps, p.role.isToken) :
    (lex source).errors = [] ∧ ∃ tokens line, (lex source).tokens = tokens ++ [Token.eof line] ∧
      List.Forall₂ Spells tokens ps := by
  constructor
  · apply errors_lex_eq_nil
    rw [h, List.filter_eq_nil_iff]
    intro p hp
    have htoken := htokens p hp
    cases hrole : p.role <;> simp [hrole, Role.isToken, Role.isFault] at htoken ⊢
  · obtain ⟨tokens, line, heq, hspells⟩ := exists_tokens_lex source
    rw [h, List.filter_eq_self.mpr htokens] at hspells
    exact ⟨tokens, line, heq, hspells⟩

section Programs

variable {source : String} {text : List Char} {kind : Kind} {literal : Option Literal}

theorem Source.Spells.value? {t : Token} (h : Spells t ⟨text, .token kind literal⟩) :
    t.value? = (⟨kind, "", literal, 0⟩ : Token).value? := by
  obtain ⟨k, lexeme, l, line⟩ := t
  obtain ⟨rfl, rfl⟩ := Role.token.inj h.1
  rfl

theorem standsFor_literal {v : Literal} (h : pieces source.toList = [⟨text, .token kind literal⟩])
    (hv : (⟨kind, "", literal, 0⟩ : Token).value? = some v) :
    StandsFor source (.ofLiteral v) := by
  obtain ⟨hlexed, tokens, last, htokens, hspells⟩ :=
    exists_tokens_of_pieces h (by simp [Role.isToken])
  obtain ⟨t, rest, ht, hrest, rfl⟩ := List.forall₂_cons_right_iff.mp hspells
  obtain rfl := List.forall₂_nil_right_iff.mp hrest
  refine ⟨hlexed, .literal v, ?_, ?_⟩
  · rw [htokens]
    exact Grammar.parse_literal (ht.value?.trans hv) last
  · intro settings fuel m hfuel
    obtain ⟨fuel, rfl⟩ := Nat.exists_eq_add_of_le' hfuel
    rfl

theorem standsFor_negated {n k : Int64}
    (h : pieces source.toList =
      [⟨['-'], .token .minus none⟩, ⟨text, .token .integer (some (.int n))⟩])
    (hneg : Value.unary .neg (.int n) = .ok (.int k)) : StandsFor source (.int k) := by
  obtain ⟨hlexed, tokens, last, htokens, hspells⟩ :=
    exists_tokens_of_pieces h (by simp [Role.isToken])
  obtain ⟨op, rest, hop, hoperand, rfl⟩ := List.forall₂_cons_right_iff.mp hspells
  obtain ⟨t, rest, ht, hrest, rfl⟩ := List.forall₂_cons_right_iff.mp hoperand
  obtain rfl := List.forall₂_nil_right_iff.mp hrest
  have hkind : op.kind = .minus := (Role.token.inj hop.1).1.symm
  refine ⟨hlexed, .unary op (.literal (.int n)), ?_, ?_⟩
  · rw [htokens]
    exact Grammar.parse_negated hkind ht.value? last
  · intro settings fuel m hfuel
    obtain ⟨fuel, rfl⟩ := Nat.exists_eq_add_of_le' hfuel
    have heval : Run.evaluate settings (fuel + 2) (.unary op (.literal (.int n))) m =
        Run.ofExcept op.line (Value.unary .neg (.int n)) m := by
      obtain ⟨opKind, lexeme, sign, line⟩ := op
      cases hkind
      rfl
    rw [heval, hneg]
    rfl

end Programs

/-! ## Values -/

namespace Value

/-- What is written so that it can be read: no float, list or function, not the least integer, and
no text with a character that has no short form. -/
def IsWritable : Value → Prop
  | .nil | .bool _ => True
  | .int n => n ≠ Int64.minValue
  | .str s => ∀ c ∈ s.toList, IsWrittenShort c
  | .float _ | .list _ | .host _ | .closure _ => False

theorem equals_self_of_isWritable {v : Value} (h : v.IsWritable) : v.equals v := by
  cases v with
  | nil => rfl
  | bool b => simp [equals]
  | int n => simp [equals]
  | str s => simp [equals]
  | float x => cases h
  | list items => cases h
  | host f => simp [equals]
  | closure f => simp [equals]

theorem unary_neg_eq_ok {n k : Int64} (h : k.toInt = -n.toInt) :
    unary .neg (.int n) = .ok (.int k) := by
  have hword : inWord (-n.toInt) := by
    rw [inWord_iff, ← h]
    exact ⟨k.le_toInt, k.toInt_lt⟩
  rw [unary, ofInt?, if_pos hword, ← h, Int64.ofInt_toInt]

theorem standsFor_inspect_int {n : Int64} (h : n ≠ Int64.minValue) :
    StandsFor (inspect (.int n)) (.int n) := by
  have hlt := n.toInt_lt
  have hmin : n.toInt ≠ -2 ^ 63 := by
    rw [← Int64.toInt_minValue]
    exact fun heq => h (Int64.toInt_inj.mp heq)
  have hle := n.le_toInt
  change StandsFor (toString n.toInt) _
  cases hn : n.toInt with
  | ofNat k =>
      rw [hn, Int.ofNat_eq_natCast] at hlt
      have hsmall : k < 2 ^ 63 := by omega
      have hword : Int64.ofNat k = n := by
        rw [← Int64.toInt_inj, Int64.toInt_ofNat_of_lt hsmall, hn]
        rfl
      have hpieces := pieces_integer hsmall
      rw [← toList_toString_natCast, hword] at hpieces
      exact standsFor_literal (v := .int n) hpieces rfl
  | negSucc k =>
      rw [hn, Int.negSucc_eq] at hmin hle
      have hsmall : k + 1 < 2 ^ 63 := by omega
      have hpieces := pieces_minus_integer hsmall
      rw [← toList_toString_negSucc] at hpieces
      refine standsFor_negated hpieces (unary_neg_eq_ok ?_)
      rw [Int64.toInt_ofNat_of_lt hsmall, hn]
      rfl

theorem standsFor_inspect_str {s : String} (h : ∀ c ∈ s.toList, IsWrittenShort c) :
    StandsFor (inspect (.str s)) (.str s) := by
  obtain ⟨items, htext, hvalue⟩ := exists_items_of_isWrittenShort h
  have hpieces := pieces_string (.inl rfl) items []
  rw [pieces_nil, htext, ← String.toList_ofList (l := Text.quotedChars s.toList)] at hpieces
  have hliteral : (⟨.string, "", some (.str s), 0⟩ : Token).value? = some (.str s) := rfl
  rw [stringPiece, hvalue, String.ofList_toList] at hpieces
  exact standsFor_literal hpieces hliteral

/-- What a value shows itself as is read as one expression that stands for the same value, without
an error. -/
theorem standsFor_inspect (v : Value) (h : v.IsWritable) :
    StandsFor v.inspect v ∧ v.equals v := by
  refine ⟨?_, equals_self_of_isWritable h⟩
  cases v with
  | nil =>
      have hpieces : pieces "nil".toList = [⟨"nil".toList, .token .kwNil none⟩] := by
        decide +kernel
      exact standsFor_literal hpieces rfl
  | bool b =>
      cases b with
      | true =>
          have hpieces : pieces "true".toList = [⟨"true".toList, .token .kwTrue none⟩] := by
            decide +kernel
          exact standsFor_literal hpieces rfl
      | false =>
          have hpieces : pieces "false".toList = [⟨"false".toList, .token .kwFalse none⟩] := by
            decide +kernel
          exact standsFor_literal hpieces rfl
  | int n => exact standsFor_inspect_int h
  | str s => exact standsFor_inspect_str h
  | float x => cases h
  | list items => cases h
  | host f => cases h
  | closure f => cases h

/-- A text with both quotes, a backslash, a line break and a letter outside ASCII. -/
theorem standsFor_inspect_quotes :
    IsWritable (.str "é'\"\\\n") ∧
      StandsFor (inspect (.str "é'\"\\\n")) (.str "é'\"\\\n") ∧
      equals (.str "é'\"\\\n") (.str "é'\"\\\n") := by
  have h : IsWritable (.str "é'\"\\\n") := by
    have hshort : "é'\"\\\n".toList.all fun c => decide (IsWrittenShort c) := by decide +kernel
    exact fun c hc => of_decide_eq_true (List.all_eq_true.mp hshort c hc)
  exact ⟨h, standsFor_inspect _ h⟩

end Value

end Scriptlet
