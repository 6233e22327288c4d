import Scriptlet.Proofs.Value.Integer

/-!
# Copies of texts

A text times a count is so many copies of it, in a row.  There is no negative number of copies, and
copies that would take more bytes than can be held are refused, however few the characters.  Where
they are not, copies follow the laws of a product.
-/

namespace Scriptlet.Value

variable {s : String} {m n : Nat}

/-! ## Copies -/

theorem toList_repeated (s : String) (n : Nat) :
    (repeated s n).toList = (List.replicate n s.toList).flatten := by
  unfold repeated
  split
  · next hempty =>
      rw [String.isEmpty_iff.mp hempty]
      simp
  · rw [String.toList_join, List.flatMap_def, List.map_replicate]

theorem repeated_add (s : String) (m n : Nat) :
    repeated s (m + n) = repeated s m ++ repeated s n := by
  apply String.toList_injective
  rw [String.toList_append, toList_repeated, toList_repeated, toList_repeated,
    ← List.flatten_append, List.replicate_append_replicate]

@[simp] theorem repeated_zero (s : String) : repeated s 0 = "" := by
  apply String.toList_injective
  simp [toList_repeated]

@[simp] theorem repeated_one (s : String) : repeated s 1 = s := by
  apply String.toList_injective
  simp [toList_repeated]

theorem repeated_mul (s : String) (m n : Nat) :
    repeated s (m * n) = repeated (repeated s m) n := by
  induction n with
  | zero => simp
  | succ n ih => rw [Nat.mul_succ, repeated_add, ih, repeated_add, repeated_one]

theorem utf8ByteSize_repeated (s : String) (n : Nat) :
    (repeated s n).utf8ByteSize = s.utf8ByteSize * n := by
  induction n with
  | zero => simp
  | succ n ih => rw [repeated_add, String.utf8ByteSize_append, ih, repeated_one, Nat.mul_succ]

/-! ## Results -/

/-- So many copies of the text in a row, or the reason why there are none. -/
inductive Copies (s : String) (count : Int) : Except Failure Value → Prop where
  | negative (h : count < 0) : Copies s count (.error .negativeArgument)
  | tooLarge (h : 0 ≤ count) (large : 2 ^ 63 - 1 < s.utf8ByteSize * count) :
      Copies s count (.error .outOfMemory)
  | copied {t : String} {n : Nat} (h : count = n) (fits : s.utf8ByteSize * count ≤ 2 ^ 63 - 1)
      (copies : t.toList = (List.replicate n s.toList).flatten) : Copies s count (.ok (.str t))

theorem replicate_natCast (s : String) (n : Nat) :
    replicate s n =
      if 2 ^ 63 - 1 < s.utf8ByteSize * n then .error .outOfMemory
      else .ok (.str (repeated s n)) := by
  have hone := sized_reserve Nat.one_pos (s.utf8ByteSize * n) (.ok (Value.str (repeated s n)))
  simp only [Nat.one_mul] at hone
  rw [replicate, if_neg (by omega), Int.toNat_natCast]
  exact hone

theorem copies_replicate (s : String) (count : Int) : Copies s count (replicate s count) := by
  by_cases hsign : count < 0
  · rw [replicate, if_pos hsign]
    exact .negative hsign
  · obtain ⟨n, rfl⟩ := Int.eq_ofNat_of_zero_le (Int.not_lt.mp hsign)
    rw [replicate_natCast]
    split
    · next hlarge => exact .tooLarge (by omega) (by omega)
    · next hfits => exact .copied rfl (by omega) (toList_repeated s n)

/-! ## Copies of copies -/

variable {j k : Int64}

theorem mul_str_of_fits (hk : k.toInt = n) (hfits : s.utf8ByteSize * n ≤ 2 ^ 63 - 1) :
    binary .mul (.str s) (.int k) = .ok (.str (repeated s n)) := by
  change replicate s k.toInt = _
  rw [hk, replicate_natCast, if_neg (Nat.not_lt.mpr hfits)]

theorem mul_str_add (hj : 0 ≤ j.toInt) (hk : 0 ≤ k.toInt) (hword : FitsWord (j.toInt + k.toInt))
    (hfits : s.utf8ByteSize * (j.toInt + k.toInt) ≤ 2 ^ 63 - 1) :
    ∃ t, (do binary .mul (.str s) (← binary .add (.int j) (.int k))) = .ok (.str t) ∧
      (do binary .add (← binary .mul (.str s) (.int j)) (← binary .mul (.str s) (.int k))) =
        .ok (.str t) := by
  obtain ⟨m, hm⟩ := Int.eq_ofNat_of_zero_le hj
  obtain ⟨n, hn⟩ := Int.eq_ofNat_of_zero_le hk
  obtain ⟨i, hsum, hi⟩ := exists_exact .add hword
  rw [hm, hn, ← Int.natCast_add] at hi
  have hall : s.utf8ByteSize * (m + n) ≤ 2 ^ 63 - 1 := by
    rw [hm, hn, ← Int.natCast_add] at hfits
    omega
  have hfirst := Nat.le_trans (Nat.mul_le_mul_left s.utf8ByteSize (Nat.le_add_right m n)) hall
  have hsecond := Nat.le_trans (Nat.mul_le_mul_left s.utf8ByteSize (Nat.le_add_left n m)) hall
  refine ⟨repeated s (m + n), ?_, ?_⟩
  · rw [show binary .add (.int j) (.int k) = .ok (.int i) from hsum]
    exact mul_str_of_fits hi hall
  · rw [mul_str_of_fits hm hfirst, mul_str_of_fits hn hsecond, repeated_add]
    rfl

/-- As many copies as the product of two counts are copies of copies.  Only if there are to be none
of them does it have to be asked for that the copies can be held themselves. -/
theorem mul_str_mul (hj : 0 ≤ j.toInt) (hk : 0 ≤ k.toInt) (hword : FitsWord (j.toInt * k.toInt))
    (hfits : s.utf8ByteSize * (j.toInt * k.toInt) ≤ 2 ^ 63 - 1)
    (hnone : k.toInt = 0 → s.utf8ByteSize * j.toInt ≤ 2 ^ 63 - 1) :
    ∃ t, (do binary .mul (.str s) (← binary .mul (.int j) (.int k))) = .ok (.str t) ∧
      (do binary .mul (← binary .mul (.str s) (.int j)) (.int k)) = .ok (.str t) := by
  obtain ⟨m, hm⟩ := Int.eq_ofNat_of_zero_le hj
  obtain ⟨n, hn⟩ := Int.eq_ofNat_of_zero_le hk
  obtain ⟨i, hproduct, hi⟩ := exists_exact .mul hword
  rw [hm, hn, ← Int.natCast_mul] at hi
  have hall : s.utf8ByteSize * (m * n) ≤ 2 ^ 63 - 1 := by
    rw [hm, hn, ← Int.natCast_mul] at hfits
    omega
  have hinner : s.utf8ByteSize * m ≤ 2 ^ 63 - 1 := by
    rcases Nat.eq_zero_or_pos n with rfl | hpos
    · have hcopies := hnone hn
      rw [hm] at hcopies
      omega
    · refine Nat.le_trans (Nat.mul_le_mul_left s.utf8ByteSize ?_) hall
      exact Nat.le_mul_of_pos_right m hpos
  have houter : (repeated s m).utf8ByteSize * n ≤ 2 ^ 63 - 1 := by
    rw [utf8ByteSize_repeated, Nat.mul_assoc]
    exact hall
  refine ⟨repeated s (m * n), ?_, ?_⟩
  · rw [show binary .mul (.int j) (.int k) = .ok (.int i) from hproduct]
    exact mul_str_of_fits hi hall
  · rw [mul_str_of_fits hm hinner, repeated_mul]
    exact mul_str_of_fits hn houter

/-- A text times a count is so many copies of it, and copies add up and multiply as counts do. -/
theorem replication_exact (s : String) (j k : Int64) :
    Copies s j.toInt (binary .mul (.str s) (.int j)) ∧
      (0 ≤ j.toInt → 0 ≤ k.toInt → FitsWord (j.toInt + k.toInt) →
        s.utf8ByteSize * (j.toInt + k.toInt) ≤ 2 ^ 63 - 1 →
        ∃ t, (do binary .mul (.str s) (← binary .add (.int j) (.int k))) = .ok (.str t) ∧
          (do binary .add (← binary .mul (.str s) (.int j)) (← binary .mul (.str s) (.int k))) =
            .ok (.str t)) ∧
      (0 ≤ j.toInt → 0 ≤ k.toInt → FitsWord (j.toInt * k.toInt) →
        s.utf8ByteSize * (j.toInt * k.toInt) ≤ 2 ^ 63 - 1 →
        (k.toInt = 0 → s.utf8ByteSize * j.toInt ≤ 2 ^ 63 - 1) →
        ∃ t, (do binary .mul (.str s) (← binary .mul (.int j) (.int k))) = .ok (.str t) ∧
          (do binary .mul (← binary .mul (.str s) (.int j)) (.int k)) = .ok (.str t)) :=
  ⟨copies_replicate s j.toInt, mul_str_add, mul_str_mul⟩

/-- The product of the counts is as many copies of a character of two bytes as can just be held. -/
theorem replication_exact_two_bytes :
    let j : Int64 := 1537228672809129301
    let k : Int64 := 3
    (0 ≤ j.toInt ∧ 0 ≤ k.toInt ∧ FitsWord (j.toInt + k.toInt) ∧ FitsWord (j.toInt * k.toInt) ∧
        "é".utf8ByteSize * (j.toInt + k.toInt) ≤ 2 ^ 63 - 1 ∧
        "é".utf8ByteSize * (j.toInt * k.toInt) ≤ 2 ^ 63 - 1 ∧
        (k.toInt = 0 → "é".utf8ByteSize * j.toInt ≤ 2 ^ 63 - 1)) ∧
      (∃ t, (do binary .mul (.str "é") (← binary .add (.int j) (.int k))) = .ok (.str t) ∧
        (do binary .add (← binary .mul (.str "é") (.int j)) (← binary .mul (.str "é") (.int k))) =
          .ok (.str t)) ∧
      ∃ t, (do binary .mul (.str "é") (← binary .mul (.int j) (.int k))) = .ok (.str t) ∧
        (do binary .mul (← binary .mul (.str "é") (.int j)) (.int k)) = .ok (.str t) := by
  intro j k
  have hj : 0 ≤ j.toInt := by decide
  have hk : 0 ≤ k.toInt := by decide
  have hsum : FitsWord (j.toInt + k.toInt) := ⟨by decide, by decide⟩
  have hproduct : FitsWord (j.toInt * k.toInt) := ⟨by decide, by decide⟩
  have hall : "é".utf8ByteSize * (j.toInt + k.toInt) ≤ 2 ^ 63 - 1 := by decide
  have hnested : "é".utf8ByteSize * (j.toInt * k.toInt) ≤ 2 ^ 63 - 1 := by decide
  have hnone : k.toInt = 0 → "é".utf8ByteSize * j.toInt ≤ 2 ^ 63 - 1 := by decide
  obtain ⟨-, hadd, hmul⟩ := replication_exact "é" j k
  exact ⟨⟨hj, hk, hsum, hproduct, hall, hnested, hnone⟩, hadd hj hk hsum hall,
    hmul hj hk hproduct hnested hnone⟩

end Scriptlet.Value
