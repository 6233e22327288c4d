import Scriptlet.Text.Escape

/-!
# Reading quoted texts

The written form of a character tells where it ends and which character it stands for, and no form
starts with a double quote.  So a quoted text can be told from whatever follows it, and two texts
that are quoted alike are the same.
-/

namespace Scriptlet.Text

/-! ## Code points -/

def hexValueOf (digit : Char) : Nat :=
  if digit.isDigit then digit.toNat - 48 else digit.toNat - 87

def hexValue (digits : List Char) : Nat :=
  digits.foldl (fun n digit => 16 * n + hexValueOf digit) 0

theorem hexValueOf_digitChar : ∀ d < 16, hexValueOf d.digitChar = d := by
  decide

theorem hexDigits_eq (n : Nat) :
    hexDigits n =
      if n < 16 then [n.digitChar] else hexDigits (n / 16) ++ [(n % 16).digitChar] :=
  Nat.toDigits_eq_if (by decide)

theorem hexValue_hexDigits (n : Nat) : hexValue (hexDigits n) = n := by
  induction n using Nat.strongRecOn with
  | ind n ih =>
      rw [hexDigits_eq]
      split
      · next h => simp [hexValue, hexValueOf_digitChar n h]
      · next h =>
          have hfront := ih (n / 16) (by omega)
          have hlast := hexValueOf_digitChar (n % 16) (by omega)
          rw [hexValue] at hfront ⊢
          rw [List.foldl_append, hfront, List.foldl_cons, List.foldl_nil, hlast]
          omega

theorem brace_not_mem_hexDigits (n : Nat) : '\x7d' ∉ hexDigits n := by
  induction n using Nat.strongRecOn with
  | ind n ih =>
      have hdigit : ∀ d : Nat, '\x7d' ≠ d.digitChar := fun d h =>
        Nat.digitChar_ne '\x7d' (by decide) h.symm
      rw [hexDigits_eq]
      split
      · simp
      · next h =>
          have hfront := ih (n / 16) (by omega)
          simp [hfront, hdigit]

theorem takeWhile_hexDigits (n : Nat) (rest : List Char) :
    (hexDigits n ++ '\x7d' :: rest).takeWhile (· ≠ '\x7d') = hexDigits n := by
  have hall : ∀ c ∈ hexDigits n, decide (c ≠ '\x7d') = true := by
    intro c hc
    apply decide_eq_true
    rintro rfl
    exact brace_not_mem_hexDigits n hc
  rw [List.takeWhile_append_of_pos hall]
  simp

/-! ## Characters -/

def shortValue? : Char → Option Char
  | '0' => some '\x00'
  | 't' => some '\t'
  | 'r' => some '\r'
  | 'n' => some '\n'
  | '\\' => some '\\'
  | '"' => some '"'
  | _ => none

/-- The character whose written form comes first, and what follows the form. -/
def readChar? : List Char → Option (Char × List Char)
  | '\\' :: 'u' :: '\x7b' :: rest =>
      let digits := rest.takeWhile (· ≠ '\x7d')
      some (Char.ofNat (hexValue digits), rest.drop (digits.length + 1))
  | '\\' :: e :: rest => (shortValue? e).map (·, rest)
  | '"' :: _ => none
  | c :: rest => some (c, rest)
  | [] => none

theorem readChar?_codePoint (c : Char) (rest : List Char) :
    readChar? (codePoint c ++ rest) = some (c, rest) := by
  have hform : codePoint c ++ rest =
      '\\' :: 'u' :: '\x7b' :: (hexDigits c.toNat ++ '\x7d' :: rest) := by
    simp [codePoint]
  rw [hform, readChar?, takeWhile_hexDigits, hexValue_hexDigits]
  simp

theorem readChar?_plain {c : Char} (hslash : c ≠ '\\') (hquote : c ≠ '"') (rest : List Char) :
    readChar? (c :: rest) = some (c, rest) := by
  unfold readChar?
  split <;> simp_all

/-- The written form of a character is read as that character, whatever follows. -/
@[simp] theorem readChar?_escapeChar (c : Char) (rest : List Char) :
    readChar? (escapeChar ['"'] true c ++ rest) = some (c, rest) := by
  unfold escapeChar
  split
  · next e he =>
      unfold shortEscape? at he
      split at he <;> cases he <;> rfl
  · next hshort =>
      split
      · next hquote =>
          obtain rfl : c = '"' := by simpa using hquote
          rfl
      · next hquote =>
          split
          · exact readChar?_codePoint c rest
          · apply readChar?_plain
            · rintro rfl
              cases hshort
            · simpa using hquote

@[simp] theorem readChar?_quote (rest : List Char) : readChar? ('"' :: rest) = none := rfl

/-! ## Texts -/

theorem escaped_append_inj {s t rest rest' : List Char}
    (h : s.flatMap (escapeChar ['"'] true) ++ '"' :: rest =
      t.flatMap (escapeChar ['"'] true) ++ '"' :: rest') : s = t ∧ rest = rest' := by
  induction s generalizing t with
  | nil =>
      cases t with
      | nil => simpa using h
      | cons d t =>
          have hread := congrArg readChar? h
          simp [List.append_assoc] at hread
  | cons c s ih =>
      have hread := congrArg readChar? h
      cases t with
      | nil => simp [List.append_assoc] at hread
      | cons d t =>
          simp only [List.flatMap_cons, List.append_assoc, readChar?_escapeChar, Option.some.injEq,
            Prod.mk.injEq] at hread
          obtain ⟨rfl, hrest⟩ := hread
          simpa using ih hrest

theorem quotedChars_append_inj {s t rest rest' : List Char}
    (h : quotedChars s ++ rest = quotedChars t ++ rest') : s = t ∧ rest = rest' := by
  apply escaped_append_inj
  simpa [quotedChars] using h

end Scriptlet.Text
