import Mathlib.Algebra.Ring.Int.Parity
import Scriptlet.Proofs.Value.Integer

/-!
# Integer powers

A power is the exact one, or an overflow.  It is an overflow if the exact power does not fit a
word, and for the bases 0, 1 and -1 also if the exponent does not fit thirty-two bits, though every
power of these fits.  With any other base such an exponent leads beyond a word anyway.
-/

namespace Scriptlet.Value

variable {base : Int} {n : Nat}

/-! ## Powers that fit -/

theorem fitsWord_pow_of_natAbs_le_one (h : base.natAbs ≤ 1) : FitsWord (base ^ n) := by
  have hsmall : (base ^ n).natAbs ≤ 1 := by
    calc (base ^ n).natAbs = base.natAbs ^ n := Int.natAbs_pow base n
      _ ≤ 1 ^ n := Nat.pow_le_pow_left h n
      _ = 1 := Nat.one_pow n
  unfold FitsWord
  omega

theorem not_fitsWord_pow (hbase : 2 ≤ base.natAbs) (hn : 64 ≤ n) : ¬FitsWord (base ^ n) := by
  have hlarge : 2 ^ 64 ≤ (base ^ n).natAbs := by
    calc 2 ^ 64 ≤ 2 ^ n := Nat.pow_le_pow_right (by decide) hn
      _ ≤ base.natAbs ^ n := Nat.pow_le_pow_left hbase n
      _ = (base ^ n).natAbs := (Int.natAbs_pow base n).symm
  unfold FitsWord
  omega

/-- Powers of 0, 1 and -1 depend on the parity of the exponent, if it is not 0. -/
theorem pow_reduced (h : base.natAbs ≤ 1) :
    base.pow (if n = 0 then 0 else 2 - n % 2) = base ^ n := by
  change base ^ (if n = 0 then 0 else 2 - n % 2) = base ^ n
  by_cases hn : n = 0
  · rw [if_pos hn, hn]
  rw [if_neg hn]
  obtain rfl | rfl | rfl : base = 0 ∨ base = 1 ∨ base = -1 := by omega
  · rw [zero_pow hn, zero_pow (by omega)]
  · rw [one_pow, one_pow]
  · rcases Nat.even_or_odd n with heven | hodd
    · rw [heven.neg_one_pow, Nat.even_iff.mp heven]
      rfl
    · rw [hodd.neg_one_pow, Nat.odd_iff.mp hodd]
      rfl

theorem power?_eq_some (h : FitsWord (base ^ n)) : power? base n = some (base ^ n) := by
  unfold power?
  split
  · next hbase => rw [pow_reduced hbase]
  · next hbase =>
      have hn : n < 64 := by
        refine Nat.lt_of_not_le fun hn => ?_
        exact not_fitsWord_pow (by omega) hn h
      have hword : inWord (base ^ n) := inWord_iff.mpr h
      rw [if_pos (by simpa [hn] using hword)]
      rfl

theorem power?_eq_none (h : ¬FitsWord (base ^ n)) : power? base n = none := by
  have hbase : ¬base.natAbs ≤ 1 := fun hbase => h (fitsWord_pow_of_natAbs_le_one hbase)
  have hword : inWord (base ^ n) = false := by
    rw [Bool.eq_false_iff]
    exact fun hword => h (inWord_iff.mp hword)
  rw [power?, if_neg hbase, if_neg (by simp [hword])]

/-! ## Results -/

variable {b e : Int64}

theorem binary_pow_of_large (h : 2 ^ 32 ≤ e.toInt.natAbs) :
    binary .pow (.int b) (.int e) = .error (.integerOverflow "**") := by
  have hlarge : UInt32.size ≤ e.toInt.natAbs := h
  change intPower b.toInt e.toInt = _
  rw [intPower, if_pos hlarge]
  rfl

theorem binary_pow_of_not_fitsWord (h : ¬FitsWord (b.toInt ^ e.toInt.natAbs)) :
    binary .pow (.int b) (.int e) = .error (.integerOverflow "**") := by
  change intPower b.toInt e.toInt = _
  rw [intPower, power?_eq_none h]
  split <;> rfl

theorem binary_pow_of_fitsWord (h : FitsWord (b.toInt ^ e.toInt.natAbs))
    (he : e.toInt.natAbs < 2 ^ 32) :
    binary .pow (.int b) (.int e) =
      .ok (if e.toInt < 0 then .str ("1/" ++ toString (b.toInt ^ e.toInt.natAbs))
        else .int (Int64.ofInt (b.toInt ^ e.toInt.natAbs))) := by
  have hsmall : ¬UInt32.size ≤ e.toInt.natAbs := Nat.not_le.mpr he
  change intPower b.toInt e.toInt = _
  rw [intPower, if_neg hsmall, power?_eq_some h]

/-- The power is an overflow exactly if it does not fit a word.  Otherwise it is exact: an integer,
or with a negative exponent the text of a fraction. -/
structure IsExactPower (b e : Int64) : Prop where
  overflow_iff : binary .pow (.int b) (.int e) = .error (.integerOverflow "**") ↔
    ¬FitsWord (b.toInt ^ e.toInt.natAbs)
  integer : FitsWord (b.toInt ^ e.toInt.natAbs) → 0 ≤ e.toInt →
    ∃ n : Int64, binary .pow (.int b) (.int e) = .ok (.int n) ∧ n.toInt = b.toInt ^ e.toInt.natAbs
  fraction : FitsWord (b.toInt ^ e.toInt.natAbs) → e.toInt < 0 →
    binary .pow (.int b) (.int e) = .ok (.str ("1/" ++ toString (b.toInt ^ e.toInt.natAbs)))

theorem isExactPower_of_lt (he : e.toInt.natAbs < 2 ^ 32) : IsExactPower b e where
  overflow_iff := by
    constructor
    · intro hoverflow hfits
      rw [binary_pow_of_fitsWord hfits he] at hoverflow
      cases hoverflow
    · exact binary_pow_of_not_fitsWord
  integer := by
    intro hfits hsign
    rw [binary_pow_of_fitsWord hfits he, if_neg (Int.not_lt.mpr hsign)]
    exact ⟨_, rfl, Int64.toInt_ofInt_of_le hfits.1 hfits.2⟩
  fraction := by
    intro hfits hsign
    rw [binary_pow_of_fitsWord hfits he, if_pos hsign]

theorem isExactPower_of_not_fitsWord (h : ¬FitsWord (b.toInt ^ e.toInt.natAbs)) :
    IsExactPower b e where
  overflow_iff := iff_of_true (binary_pow_of_not_fitsWord h) h
  integer hfits := absurd hfits h
  fraction hfits := absurd hfits h

/-- Powers are exact for every base but 0, 1 and -1, and for these as long as the exponent fits
thirty-two bits.  Beyond that their powers are overflows, though they all fit a word. -/
theorem isExactPower_iff (b e : Int64) :
    (IsExactPower b e ↔ 2 ≤ b.toInt.natAbs ∨ e.toInt.natAbs < 2 ^ 32) ∧
      (binary .pow (.int b) (.int e) = .error (.integerOverflow "**") ↔
        ¬FitsWord (b.toInt ^ e.toInt.natAbs) ∨
          b.toInt.natAbs ≤ 1 ∧ 2 ^ 32 ≤ e.toInt.natAbs) := by
  rcases Nat.lt_or_ge e.toInt.natAbs (2 ^ 32) with hsmall | hlarge
  · have hexact := isExactPower_of_lt (b := b) hsmall
    refine ⟨iff_of_true hexact (.inr hsmall), hexact.overflow_iff.trans ?_⟩
    rw [or_iff_left fun h => Nat.not_lt.mpr h.2 hsmall]
  · have hoverflow := binary_pow_of_large (b := b) hlarge
    rcases Nat.lt_or_ge b.toInt.natAbs 2 with hunit | hbase
    · have hfits := fitsWord_pow_of_natAbs_le_one (n := e.toInt.natAbs) (Nat.le_of_lt_succ hunit)
      refine ⟨iff_of_false ?_ (by omega), iff_of_true hoverflow (.inr ⟨by omega, hlarge⟩)⟩
      exact fun hexact => hexact.overflow_iff.mp hoverflow hfits
    · have hfits : ¬FitsWord (b.toInt ^ e.toInt.natAbs) := not_fitsWord_pow hbase (by omega)
      exact ⟨iff_of_true (isExactPower_of_not_fitsWord hfits) (.inl hbase),
        iff_of_true hoverflow (.inl hfits)⟩

/-- One to the power of 2 ^ 32 is an overflow. -/
theorem not_forall_isExactPower : ¬∀ b e : Int64, IsExactPower b e := by
  intro h
  have hoverflow : binary .pow (.int 1) (.int 4294967296) = .error (.integerOverflow "**") :=
    binary_pow_of_large (by decide)
  apply (h 1 4294967296).overflow_iff.mp hoverflow
  exact fitsWord_pow_of_natAbs_le_one (by decide)

end Scriptlet.Value
