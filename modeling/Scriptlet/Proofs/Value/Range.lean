import Scriptlet.Proofs.Value.Integer

/-!
# Ranges

A range holds the integers between its bounds, each once and in order, up to the ends of the words.
How many there are is an integer of its own, which need not fit a word; a list of more than can be
held is refused.  Where one range ends the next one goes on.
-/

namespace Scriptlet.Value

def integers (first : Int) (n : Nat) : List Value :=
  (List.range n).map fun i : Nat => .int (Int64.ofInt (first + i))

/-- The items are the integers from `first` on, one after the other. -/
def CountsFrom (first : Int) (items : List Value) : Prop :=
  ∀ i < items.length, ∃ n : Int64, items[i]? = some (.int n) ∧ n.toInt = first + i

variable {first : Int} {m n : Nat}

@[simp] theorem length_integers (first : Int) (n : Nat) : (integers first n).length = n := by
  simp [integers]

theorem integers_add (first : Int) (m n : Nat) :
    integers first (m + n) = integers first m ++ integers (first + m) n := by
  simp only [integers, List.range_add, List.map_append, List.map_map]
  congr 2
  funext i
  rw [Function.comp_apply, Int.natCast_add, Int.add_assoc]

theorem integers_one (n : Int64) : integers n.toInt 1 = [.int n] := by
  simp [integers]

theorem countsFrom_integers (h : ∀ i < n, FitsWord (first + i)) :
    CountsFrom first (integers first n) := by
  intro i hi
  rw [length_integers] at hi
  refine ⟨Int64.ofInt (first + i), ?_, toInt_ofInt_of_fitsWord (h i hi)⟩
  simp [integers, hi]

theorem integers_succ (a : Int64) (n : Nat) :
    integers a.toInt (n + 1) = .int a :: integers (a.toInt + 1) n := by
  rw [Nat.add_comm, integers_add, integers_one]
  rfl

/-! ## What the loops put into a list -/

variable {a b c : Int64} {inclusive : Bool}

theorem toInt_sub_next (h : a < b) :
    (b.toInt - a.toInt).toNat = (b.toInt - (a + 1).toInt).toNat + 1 := by
  have hlt := Int64.lt_iff_toInt_lt.mp h
  rw [toInt_next h]
  omega

theorem toList_fillBelow (items : Array Value) (a b : Int64) :
    (fillBelow items a b).toList =
      items.toList ++ integers a.toInt (rangeLength a.toInt b.toInt false) := by
  fun_induction fillBelow items a b with
  | case1 items a h ih =>
      have hcount := toInt_sub_next h
      simp only [rangeLength, Bool.false_eq_true, if_false, Int.add_zero] at ih ⊢
      rw [ih, hcount, integers_succ, toInt_next h, Array.toList_push, List.append_assoc]
      rfl
  | case2 items a h =>
      have hnone : rangeLength a.toInt b.toInt false = 0 := by
        have hle := mt Int64.lt_iff_toInt_lt.mpr h
        simp only [rangeLength, Bool.false_eq_true, if_false]
        omega
      rw [hnone]
      exact (List.append_nil _).symm

theorem toList_fillUpTo (items : Array Value) (a b : Int64) :
    (fillUpTo items a b).toList =
      items.toList ++ integers a.toInt (rangeLength a.toInt b.toInt true) := by
  fun_induction fillUpTo items a b with
  | case1 items a h ih =>
      have hlt := Int64.lt_iff_toInt_lt.mp h
      have hcount : rangeLength a.toInt b.toInt true =
          rangeLength (a + 1).toInt b.toInt true + 1 := by
        simp only [rangeLength, if_true, toInt_next h]
        omega
      rw [ih, hcount, integers_succ, toInt_next h, Array.toList_push, List.append_assoc]
      rfl
  | case2 items =>
      have hone : rangeLength b.toInt b.toInt true = 1 := by
        simp only [rangeLength, if_true]
        omega
      rw [hone, integers_one, Array.toList_push]
  | case3 items a h hne =>
      have hnone : rangeLength a.toInt b.toInt true = 0 := by
        have hle := mt Int64.lt_iff_toInt_lt.mpr h
        have hdiffer : a.toInt ≠ b.toInt := mt Int64.toInt_inj.mp hne
        simp only [rangeLength, if_true]
        omega
      rw [hnone]
      exact (List.append_nil _).symm

/-! ## What a range gives -/

theorem range_eq (hn : (n : Int) = max 0 (b.toInt - a.toInt + if inclusive then 1 else 0)) :
    range (.int a) (.int b) inclusive =
      if 2 ^ 63 - 1 < 24 * n then .error .outOfMemory else .ok (.list (integers a.toInt n)) := by
  have hlength : rangeLength a.toInt b.toInt inclusive = n := by
    rw [rangeLength]
    omega
  have hitems : (if inclusive then fillUpTo #[] a b else fillBelow #[] a b).toList =
      integers a.toInt n := by
    rw [← hlength]
    cases inclusive with
    | false => exact toList_fillBelow #[] a b
    | true => exact toList_fillUpTo #[] a b
  rw [range, hitems, hlength]
  exact sized_reserve (by decide) n _

theorem range_cases (a b : Value) (inclusive : Bool) :
    range a b inclusive = .ok .nil ∨ range a b inclusive = .error .outOfMemory ∨
      ∃ first n, range a b inclusive = .ok (.list (integers first n)) := by
  cases a with
  | int a =>
      cases b with
      | int b =>
          obtain ⟨n, hn⟩ := Int.eq_ofNat_of_zero_le
            (Int.le_max_left 0 (b.toInt - a.toInt + if inclusive then 1 else 0))
          rw [range_eq hn.symm]
          split
          · exact .inr (.inl rfl)
          · exact .inr (.inr ⟨_, n, rfl⟩)
      | _ => exact .inl rfl
  | _ => exact .inl rfl

/-- A list of the `n` integers from `first` on, or the refusal to build it. -/
inductive Counting (first n : Int) : Except Failure Value → Prop where
  | counted {items : List Value} (fits : 24 * n ≤ 2 ^ 63 - 1) (length : items.length = n)
      (counts : CountsFrom first items) : Counting first n (.ok (.list items))
  | tooLong (long : 2 ^ 63 - 1 < 24 * n) : Counting first n (.error .outOfMemory)

theorem fitsWord_of_le {i : Nat} (a b : Int64) (hi : i ≤ b.toInt - a.toInt) :
    FitsWord (a.toInt + i) := by
  have ha := fitsWord_toInt a
  have hb := fitsWord_toInt b
  unfold FitsWord at *
  omega

theorem counting_range (a b : Int64) (inclusive : Bool) :
    Counting a.toInt (max 0 (b.toInt - a.toInt + if inclusive then 1 else 0))
      (range (.int a) (.int b) inclusive) := by
  obtain ⟨n, hn⟩ := Int.eq_ofNat_of_zero_le
    (Int.le_max_left 0 (b.toInt - a.toInt + if inclusive then 1 else 0))
  rw [range_eq hn.symm, hn]
  split
  · next hlong => exact .tooLong (by omega)
  · next hfits =>
      refine .counted (by omega) (by rw [length_integers]) (countsFrom_integers fun i hi => ?_)
      exact fitsWord_of_le a b (by omega)

/-! ## Ranges that go on -/

theorem range_inclusive (hab : a.toInt ≤ b.toInt)
    (hfits : 24 * (b.toInt - a.toInt + 1) ≤ 2 ^ 63 - 1) :
    ∃ items, range (.int a) (.int b) false = .ok (.list items) ∧
      range (.int a) (.int b) true = .ok (.list (items ++ [.int b])) := by
  obtain ⟨n, hn⟩ := Int.eq_ofNat_of_zero_le (Int.sub_nonneg_of_le hab)
  have hlast : a.toInt + n = b.toInt := by omega
  refine ⟨integers a.toInt n, ?_, ?_⟩
  · rw [range_eq (n := n) (by simp; omega), if_neg (by omega)]
  · rw [range_eq (n := n + 1) (by simp; omega), if_neg (by omega), integers_add, hlast,
      integers_one]

theorem range_append (hab : a.toInt ≤ b.toInt) (hbc : b.toInt ≤ c.toInt)
    (hfits : 24 * (c.toInt - a.toInt + 1) ≤ 2 ^ 63 - 1) :
    ∃ items later, range (.int a) (.int b) true = .ok (.list items) ∧
      range (.int a) (.int c) true = .ok (.list (items ++ later)) ∧
      later.length = c.toInt - b.toInt ∧ CountsFrom (b.toInt + 1) later := by
  obtain ⟨m, hm⟩ := Int.eq_ofNat_of_zero_le (Int.sub_nonneg_of_le hab)
  obtain ⟨n, hn⟩ := Int.eq_ofNat_of_zero_le (Int.sub_nonneg_of_le hbc)
  have hnext : a.toInt + (m + 1 : Nat) = b.toInt + 1 := by omega
  refine ⟨integers a.toInt (m + 1), integers (b.toInt + 1) n, ?_, ?_, ?_, ?_⟩
  · rw [range_eq (n := m + 1) (by simp; omega), if_neg (by omega)]
  · rw [range_eq (n := m + 1 + n) (by simp; omega), if_neg (by omega), integers_add, hnext]
  · rw [length_integers, hn]
  · refine countsFrom_integers fun i hi => ?_
    have hc := fitsWord_toInt c
    have hb := fitsWord_toInt b
    unfold FitsWord at *
    omega

/-- A range counts from its first bound to its last, and ranges that meet make up one range. -/
theorem range_exact (a b c : Int64) (inclusive : Bool) :
    Counting a.toInt (max 0 (b.toInt - a.toInt + if inclusive then 1 else 0))
        (range (.int a) (.int b) inclusive) ∧
      (a.toInt ≤ b.toInt → 24 * (b.toInt - a.toInt + 1) ≤ 2 ^ 63 - 1 →
        ∃ items, range (.int a) (.int b) false = .ok (.list items) ∧
          range (.int a) (.int b) true = .ok (.list (items ++ [.int b]))) ∧
      (a.toInt ≤ b.toInt → b.toInt ≤ c.toInt → 24 * (c.toInt - a.toInt + 1) ≤ 2 ^ 63 - 1 →
        ∃ items later, range (.int a) (.int b) true = .ok (.list items) ∧
          range (.int a) (.int c) true = .ok (.list (items ++ later)) ∧
          later.length = c.toInt - b.toInt ∧ CountsFrom (b.toInt + 1) later) :=
  ⟨counting_range a b inclusive, range_inclusive, range_append⟩

/-- The last bound may be the greatest word of all. -/
theorem range_exact_greatest :
    let a : Int64 := 9223372036854775805
    let b : Int64 := 9223372036854775806
    let c : Int64 := 9223372036854775807
    (a.toInt ≤ b.toInt ∧ b.toInt ≤ c.toInt ∧ 24 * (b.toInt - a.toInt + 1) ≤ 2 ^ 63 - 1 ∧
        24 * (c.toInt - a.toInt + 1) ≤ 2 ^ 63 - 1) ∧
      (∃ items, range (.int a) (.int b) false = .ok (.list items) ∧
        range (.int a) (.int b) true = .ok (.list (items ++ [.int b]))) ∧
      ∃ items later, range (.int a) (.int b) true = .ok (.list items) ∧
        range (.int a) (.int c) true = .ok (.list (items ++ later)) ∧
        later.length = c.toInt - b.toInt ∧ CountsFrom (b.toInt + 1) later := by
  intro a b c
  have hab : a.toInt ≤ b.toInt := by decide
  have hbc : b.toInt ≤ c.toInt := by decide
  have hfitsb : 24 * (b.toInt - a.toInt + 1) ≤ 2 ^ 63 - 1 := by decide
  have hfitsc : 24 * (c.toInt - a.toInt + 1) ≤ 2 ^ 63 - 1 := by decide
  obtain ⟨-, hinclusive, happend⟩ := range_exact a b c true
  exact ⟨⟨hab, hbc, hfitsb, hfitsc⟩, hinclusive hab hfitsb, happend hab hbc hfitsc⟩

end Scriptlet.Value
