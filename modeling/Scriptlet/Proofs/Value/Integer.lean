import Mathlib.Algebra.Ring.Int.Defs
import Mathlib.Algebra.Ring.Nat
import Scriptlet.Value.Operator

/-!
# Integer arithmetic

Sums, differences, products and negated integers are the exact ones, or an overflow if the exact one
does not fit a word.  A quotient and its remainder come together or fail together: the divisor is
zero, or the one quotient that does not fit a word was asked for.
-/

namespace Scriptlet.Value

def FitsWord (z : Int) : Prop :=
  -2 ^ 63 ≤ z ∧ z < 2 ^ 63

variable {a b z : Int}

theorem inWord_iff : inWord z ↔ FitsWord z := by
  rw [inWord, Int64.toInt_minValue, Int64.toInt_maxValue, FitsWord]
  simp only [Bool.and_eq_true, decide_eq_true_eq]
  omega

theorem fitsWord_toInt (n : Int64) : FitsWord n.toInt :=
  ⟨n.le_toInt, n.toInt_lt⟩

theorem toInt_ofInt_of_fitsWord (h : FitsWord z) : (Int64.ofInt z).toInt = z :=
  Int64.toInt_ofInt_of_le h.1 h.2

/-! ## Exact results -/

theorem ofInt?_of_fitsWord (h : FitsWord z) : ofInt? z = some (.int (Int64.ofInt z)) := by
  rw [ofInt?, if_pos (inWord_iff.mpr h)]

theorem ofInt?_of_not_fitsWord (h : ¬FitsWord z) : ofInt? z = none := by
  rw [ofInt?, if_neg (mt inWord_iff.mp h)]

theorem exact_of_fitsWord (op : BinaryOp) (h : FitsWord z) :
    exact op z = .ok (.int (Int64.ofInt z)) := by
  rw [exact, ofInt?_of_fitsWord h]

theorem exists_exact (op : BinaryOp) (h : FitsWord z) :
    ∃ n : Int64, exact op z = .ok (.int n) ∧ n.toInt = z :=
  ⟨Int64.ofInt z, exact_of_fitsWord op h, toInt_ofInt_of_fitsWord h⟩

theorem exact_of_not_fitsWord (op : BinaryOp) (h : ¬FitsWord z) :
    exact op z = .error (.integerOverflow op.symbol) := by
  rw [exact, ofInt?_of_not_fitsWord h]

/-- The result is the integer `z` if and only if it fits a word, and an overflow if and only if it
does not. -/
structure ExactOrOverflow (symbol : String) (z : Int) (result : Except Failure Value) : Prop where
  value_iff : (∃ n : Int64, result = .ok (.int n) ∧ n.toInt = z) ↔ FitsWord z
  overflow_iff : result = .error (.integerOverflow symbol) ↔ ¬FitsWord z

theorem exactOrOverflow {symbol : String} {result : Except Failure Value}
    (hfits : FitsWord z → result = .ok (.int (Int64.ofInt z)))
    (hnot : ¬FitsWord z → result = .error (.integerOverflow symbol)) :
    ExactOrOverflow symbol z result where
  value_iff := by
    constructor
    · rintro ⟨n, -, rfl⟩
      exact fitsWord_toInt n
    · intro h
      exact ⟨Int64.ofInt z, hfits h, toInt_ofInt_of_fitsWord h⟩
  overflow_iff := by
    constructor
    · intro hoverflow h
      rw [hfits h] at hoverflow
      cases hoverflow
    · exact hnot

theorem exactOrOverflow_exact (op : BinaryOp) (z : Int) :
    ExactOrOverflow op.symbol z (exact op z) :=
  exactOrOverflow (exact_of_fitsWord op) (exact_of_not_fitsWord op)

theorem exactOrOverflow_neg (n : Int64) :
    ExactOrOverflow "-" (-n.toInt) (unary .neg (.int n)) := by
  refine exactOrOverflow (fun h => ?_) fun h => ?_
  · rw [unary, ofInt?_of_fitsWord h]
  · rw [unary, ofInt?_of_not_fitsWord h]

/-! ## Division -/

/-- Only the least word divided by -1 has no quotient among the words. -/
theorem fitsWord_tdiv_iff (ha : FitsWord a) (hb : b ≠ 0) :
    FitsWord (a.tdiv b) ↔ ¬(a = -2 ^ 63 ∧ b = -1) := by
  unfold FitsWord at *
  obtain rfl | rfl | hlarge : b = 1 ∨ b = -1 ∨ 2 ≤ b.natAbs := by omega
  · rw [Int.tdiv_one]
    omega
  · rw [Int.tdiv_neg, Int.tdiv_one]
    omega
  · have hhalf : (a.tdiv b).natAbs ≤ a.natAbs / 2 := by
      rw [Int.natAbs_tdiv]
      exact Nat.div_le_div_left hlarge (by decide)
    omega

theorem natAbs_tmod_lt (hb : b ≠ 0) : (a.tmod b).natAbs < b.natAbs := by
  rw [Int.natAbs_tmod]
  exact Nat.mod_lt _ (Int.natAbs_pos.mpr hb)

theorem fitsWord_tmod (hb : FitsWord b) (hzero : b ≠ 0) : FitsWord (a.tmod b) := by
  have hsmall := natAbs_tmod_lt (a := a) hzero
  unfold FitsWord at *
  omega

theorem tmod_eq_zero_or_sign : a.tmod b = 0 ∨ (a.tmod b).sign = a.sign := by
  rw [Int.sign_tmod]
  split
  · next hdvd => exact .inl (Int.tmod_eq_zero_of_dvd hdvd)
  · exact .inr rfl

/-- What dividing `a` by `b` gives: the quotient and the remainder, or the same failure twice. -/
inductive Division (a b : Int64) : Except Failure Value → Except Failure Value → Prop where
  | divided {q r : Int64} (nonzero : b ≠ 0) (fits : ¬(a = Int64.minValue ∧ b = -1))
      (whole : a.toInt = q.toInt * b.toInt + r.toInt) (small : r.toInt.natAbs < b.toInt.natAbs)
      (sign : r.toInt = 0 ∨ r.toInt.sign = a.toInt.sign) :
        Division a b (.ok (.int q)) (.ok (.int r))
  | byZero (zero : b = 0) : Division a b (.error .divisionByZero) (.error .divisionByZero)
  | overflow (least : a = Int64.minValue) (opposite : b = -1) :
      Division a b (.error (.integerOverflow "/")) (.error (.integerOverflow "%"))

theorem division (a b : Int64) :
    Division a b (binary .div (.int a) (.int b)) (binary .rem (.int a) (.int b)) := by
  change Division a b (intBinary .div a.toInt b.toInt) (intBinary .rem a.toInt b.toInt)
  by_cases hzero : b = 0
  · subst hzero
    exact .byZero rfl
  have hne : b.toInt ≠ 0 := fun h => hzero (Int64.toInt_inj.mp h)
  have hfits := fitsWord_tdiv_iff (fitsWord_toInt a) hne
  rw [← Int64.toInt_minValue, show (-1 : Int) = (-1 : Int64).toInt from rfl, Int64.toInt_inj,
    Int64.toInt_inj] at hfits
  rw [intBinary, intBinary, if_neg hne, if_neg hne]
  by_cases hedge : a = Int64.minValue ∧ b = -1
  · have hnot : ¬FitsWord (a.toInt.tdiv b.toInt) := fun h => hfits.mp h hedge
    rw [exact_of_not_fitsWord _ hnot, if_neg (mt inWord_iff.mp hnot)]
    exact .overflow hedge.1 hedge.2
  · have hq := hfits.mpr hedge
    obtain ⟨q, hqExact, hqInt⟩ := exists_exact .div hq
    obtain ⟨r, hrExact, hrInt⟩ := exists_exact .rem (fitsWord_tmod (fitsWord_toInt b) hne)
    rw [hqExact, if_pos (inWord_iff.mpr hq), hrExact]
    refine .divided hzero hedge ?_ ?_ ?_
    · rw [hqInt, hrInt, Int.tdiv_mul_add_tmod]
    · rw [hrInt]
      exact natAbs_tmod_lt hne
    · rw [hrInt]
      exact tmod_eq_zero_or_sign

/-! ## Comparisons -/

/-- One of `<`, `==` and `>` holds, and the other three comparisons are their negations. -/
structure Comparisons (a b : Int64) (less equal greater : Bool) : Prop where
  lt_eq : binary .lt (.int a) (.int b) = .ok (.bool less)
  eq_eq : binary .eq (.int a) (.int b) = .ok (.bool equal)
  gt_eq : binary .gt (.int a) (.int b) = .ok (.bool greater)
  one : [less, equal, greater].count true = 1
  le_eq : binary .le (.int a) (.int b) = .ok (.bool !greater)
  ge_eq : binary .ge (.int a) (.int b) = .ok (.bool !less)
  ne_eq : binary .ne (.int a) (.int b) = .ok (.bool !equal)

theorem comparisons (a b : Int64) :
    Comparisons a b (a.toInt < b.toInt) (a.toInt = b.toInt) (a.toInt > b.toInt) where
  lt_eq := rfl
  eq_eq := by
    rw [binary, equals, decide_eq_decide.mpr Int64.toInt_inj.symm]
  gt_eq := rfl
  one := by
    rcases Int.lt_trichotomy a.toInt b.toInt with h | h | h
    · simp [h, Int.ne_of_lt h, Int.lt_asymm h]
    · simp [h]
    · simp [h, Int.ne_of_gt h, Int.lt_asymm h]
  le_eq := by
    change Except.ok (Value.bool (a.toInt ≤ b.toInt)) = _
    rw [← decide_not, decide_eq_decide.mpr Int.not_lt.symm]
  ge_eq := by
    change Except.ok (Value.bool (b.toInt ≤ a.toInt)) = _
    rw [← decide_not, decide_eq_decide.mpr Int.not_lt.symm]
  ne_eq := by
    rw [binary, equals, decide_eq_decide.mpr Int64.toInt_inj.symm]

/-- Integer arithmetic is exact or an error, and integers are ordered by their value. -/
theorem arithmetic_exact (a b : Int64) :
    ExactOrOverflow "+" (a.toInt + b.toInt) (binary .add (.int a) (.int b)) ∧
      ExactOrOverflow "-" (a.toInt - b.toInt) (binary .sub (.int a) (.int b)) ∧
      ExactOrOverflow "*" (a.toInt * b.toInt) (binary .mul (.int a) (.int b)) ∧
      ExactOrOverflow "-" (-a.toInt) (unary .neg (.int a)) ∧
      Division a b (binary .div (.int a) (.int b)) (binary .rem (.int a) (.int b)) ∧
      Comparisons a b (a.toInt < b.toInt) (a.toInt = b.toInt) (a.toInt > b.toInt) := by
  refine ⟨?_, ?_, ?_, exactOrOverflow_neg a, division a b, comparisons a b⟩
  · exact exactOrOverflow_exact .add (a.toInt + b.toInt)
  · exact exactOrOverflow_exact .sub (a.toInt - b.toInt)
  · exact exactOrOverflow_exact .mul (a.toInt * b.toInt)

end Scriptlet.Value
