import Scriptlet.Number.Decimal

/-!
# Decimal numerals

The numeral of an integer is made of digits, with a minus sign in front if the integer is negative.
-/

namespace Scriptlet

theorem Decimal.natOfDigits_toDigits (n : Nat) :
    Decimal.natOfDigits (Nat.toDigits 10 n) = n := by
  have hdigits : Nat.ofDigitChars 10 (Nat.toDigits 10 n) 0 = n := Nat.ofDigitChars_ten_toDigits
  rwa [Nat.ofDigitChars_eq_foldl] at hdigits

theorem toList_toString_natCast (n : Nat) : (toString (n : Int)).toList = Nat.toDigits 10 n := by
  rw [Int.toString_eq_repr]
  exact Nat.toList_repr

theorem toList_toString_negSucc (n : Nat) :
    (toString (Int.negSucc n)).toList = '-' :: Nat.toDigits 10 (n + 1) := by
  rw [Int.toString_eq_repr, Int.repr, String.toList_append, Nat.toList_repr]
  rfl

def Decimal.intOfNumeral : List Char → Int
  | '-' :: digits => -(natOfDigits digits : Int)
  | digits => natOfDigits digits

theorem Decimal.intOfNumeral_toString (n : Int) : intOfNumeral (toString n).toList = n := by
  cases n with
  | ofNat n =>
      rw [Int.ofNat_eq_natCast, toList_toString_natCast]
      unfold intOfNumeral
      split
      · next digits heq =>
          have hdigit : ∀ d ∈ Nat.toDigits 10 n, d.isDigit := fun d hd =>
            Nat.isDigit_of_mem_toDigits (by decide) (by decide) hd
          exact absurd (hdigit '-' (by simp [heq])) (by decide)
      · rw [natOfDigits_toDigits]
  | negSucc n =>
      rw [toList_toString_negSucc, intOfNumeral, natOfDigits_toDigits]
      rfl

theorem toList_toString_int_ne_nil (n : Int) : (toString n).toList ≠ [] := by
  cases n with
  | ofNat n =>
      rw [Int.ofNat_eq_natCast, toList_toString_natCast]
      exact Nat.toDigits_ne_nil
  | negSucc n =>
      rw [toList_toString_negSucc]
      apply List.cons_ne_nil

theorem mem_toString_int {n : Int} {c : Char} (h : c ∈ (toString n).toList) :
    c.isDigit ∨ c = '-' := by
  have hdigits : ∀ k, c ∈ Nat.toDigits 10 k → c.isDigit := fun k hc =>
    Nat.isDigit_of_mem_toDigits (by decide) (by decide) hc
  cases n with
  | ofNat n =>
      rw [Int.ofNat_eq_natCast, toList_toString_natCast] at h
      exact .inl (hdigits n h)
  | negSucc n =>
      rw [toList_toString_negSucc, List.mem_cons] at h
      exact (h.imp_right (hdigits (n + 1))).symm

end Scriptlet
