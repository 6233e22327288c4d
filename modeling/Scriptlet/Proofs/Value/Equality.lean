import Mathlib
import Scriptlet.Value.Basic

/-!
# Equality of values

A value equals itself unless there is a NaN in it, and equality is symmetric.  It is transitive but
for one case: an integer meets a float as the double nearest to it, so a float may equal two
integers that differ from each other.
-/

namespace Scriptlet.Value

open Float.Model (UnpackedFloat)

/-! ## Floats -/

def unsignedZero : UnpackedFloat → UnpackedFloat
  | .zero _ => .zero .positive
  | other => other

theorem compare_eq_iff {a b : UnpackedFloat} :
    a.compare b = some .eq ↔ a.isNaN = false ∧ unsignedZero a = unsignedZero b := by
  cases a with
  | notANumber => simp [UnpackedFloat.compare, UnpackedFloat.isNaN]
  | infinity s =>
      cases s <;> rcases b with (_ | _) | _ | (_ | _) | _ <;>
        simp [UnpackedFloat.compare, UnpackedFloat.isNaN, unsignedZero, compare]
  | zero s =>
      rcases b with (_ | _) | _ | _ | ((_ | _) | _) <;>
        simp [UnpackedFloat.compare, UnpackedFloat.isNaN, unsignedZero]
  | finite s m e hm =>
      cases s <;> rcases b with (_ | _) | _ | _ | ((_ | _) | _) <;>
        simp [UnpackedFloat.compare, UnpackedFloat.isNaN, unsignedZero, Ordering.then_eq_eq,
          and_comm]

theorem float_beq_iff {x y : Float} : x == y ↔
    x.isNaN = false ∧ unsignedZero x.toModel.unpack = unsignedZero y.toModel.unpack := by
  change (x.toModel.unpack.compare y.toModel.unpack == some .eq) = true ↔ _
  rw [beq_iff_eq, compare_eq_iff]
  rfl

theorem float_beq_self_iff {x : Float} : x == x ↔ x.isNaN = false := by
  rw [float_beq_iff, and_iff_left rfl]

theorem isNaN_congr {x y : Float}
    (h : unsignedZero x.toModel.unpack = unsignedZero y.toModel.unpack) : x.isNaN = y.isNaN := by
  change x.toModel.unpack.isNaN = y.toModel.unpack.isNaN
  revert h
  cases x.toModel.unpack <;> cases y.toModel.unpack <;> simp [unsignedZero, UnpackedFloat.isNaN]

theorem float_beq_comm (x y : Float) : (x == y) = (y == x) := by
  rw [Bool.eq_iff_iff, float_beq_iff, float_beq_iff]
  constructor
  · rintro ⟨hx, h⟩
    exact ⟨isNaN_congr h ▸ hx, h.symm⟩
  · rintro ⟨hy, h⟩
    exact ⟨isNaN_congr h ▸ hy, h.symm⟩

theorem float_beq_trans {x y z : Float} (hxy : x == y) (hyz : y == z) : x == z := by
  rw [float_beq_iff] at hxy hyz ⊢
  exact ⟨hxy.1, hxy.2.trans hyz.2⟩

/-! ## Items of lists -/

@[elab_as_elim]
theorem items_induction {motive : Value → Prop}
    (leaf : ∀ v : Value, (∀ items, v ≠ .list items) → motive v)
    (list : ∀ items : List Value, (∀ v ∈ items, motive v) → motive (.list items)) :
    ∀ v, motive v
  | .list items => list items (each items)
  | .nil | .bool _ | .int _ | .float _ | .str _ | .host _ | .closure _ => leaf _ (by simp)
where
  each : ∀ items : List Value, ∀ v ∈ items, motive v
    | _ :: _, _, .head _ => items_induction leaf list _
    | _ :: items, _, .tail _ h => each items _ h

theorem equals_list_iff {as bs : List Value} :
    (Value.list as).equals (.list bs) ↔ List.Forall₂ (fun a b => a.equals b) as bs := by
  rw [equals]
  induction as generalizing bs with
  | nil => cases bs <;> simp [equalItems]
  | cons a as ih => cases bs <;> simp [equalItems, ih]

inductive HasNaN : Value → Prop where
  | float {x : Float} (h : x.isNaN) : HasNaN (.float x)
  | item {items : List Value} {v : Value} (hv : v ∈ items) (h : HasNaN v) : HasNaN (.list items)

theorem hasNaN_list_iff {items : List Value} :
    (Value.list items).HasNaN ↔ ∃ v ∈ items, v.HasNaN := by
  constructor
  · rintro (_ | ⟨hv, h⟩)
    exact ⟨_, hv, h⟩
  · rintro ⟨v, hv, h⟩
    exact .item hv h

/-- At one place, the outer two values are different integers and the middle one is a float. -/
inductive IntsAroundFloat : Value → Value → Value → Prop where
  | here {m n : Int64} {x : Float} (h : m ≠ n) : IntsAroundFloat (.int m) (.float x) (.int n)
  | head {a b c : Value} {as bs cs : List Value} (h : IntsAroundFloat a b c) :
      IntsAroundFloat (.list (a :: as)) (.list (b :: bs)) (.list (c :: cs))
  | tail {a b c : Value} {as bs cs : List Value}
      (h : IntsAroundFloat (.list as) (.list bs) (.list cs)) :
      IntsAroundFloat (.list (a :: as)) (.list (b :: bs)) (.list (c :: cs))

theorem intsAroundFloat_cons_iff {a b c : Value} {as bs cs : List Value} :
    IntsAroundFloat (.list (a :: as)) (.list (b :: bs)) (.list (c :: cs)) ↔
      IntsAroundFloat a b c ∨ IntsAroundFloat (.list as) (.list bs) (.list cs) := by
  constructor
  · rintro (_ | h | h)
    · exact .inl h
    · exact .inr h
  · rintro (h | h)
    · exact .head h
    · exact .tail h

/-! ## Laws -/

theorem equals_self_iff (v : Value) : v.equals v ↔ ¬v.HasNaN := by
  induction v using items_induction with
  | leaf v hv =>
      cases v with
      | list items => exact absurd rfl (hv items)
      | float x =>
          rw [equals, float_beq_self_iff, ← Bool.not_eq_true, not_iff_not]
          exact ⟨.float, fun h => by cases h; assumption⟩
      | _ => simp only [equals, decide_true, true_iff]; rintro ⟨⟩
  | list items ih =>
      rw [equals_list_iff, hasNaN_list_iff, List.forall₂_same]
      simp only [not_exists, not_and]
      exact forall₂_congr ih

theorem equalItems_comm {as : List Value} (h : ∀ a ∈ as, ∀ b, a.equals b = b.equals a)
    (bs : List Value) : equalItems as bs = equalItems bs as := by
  induction as generalizing bs with
  | nil => cases bs <;> rfl
  | cons a as ih =>
      rw [List.forall_mem_cons] at h
      cases bs with
      | nil => rfl
      | cons b bs => rw [equalItems, equalItems, h.1, ih h.2]

theorem equals_comm (a b : Value) : a.equals b = b.equals a := by
  induction a using items_induction generalizing b with
  | leaf a ha =>
      cases a with
      | list as => exact absurd rfl (ha as)
      | _ => cases b <;> simp [equals, eq_comm, float_beq_comm]
  | list as ih =>
      cases b with
      | list bs => exact equalItems_comm ih bs
      | _ => rfl

theorem items_trans_iff {as bs cs : List Value}
    (h : ∀ a ∈ as, ∀ {b c : Value}, a.equals b → b.equals c →
      (a.equals c ↔ ¬IntsAroundFloat a b c))
    (hab : List.Forall₂ (fun a b => a.equals b) as bs)
    (hbc : List.Forall₂ (fun b c => b.equals c) bs cs) :
    List.Forall₂ (fun a c => a.equals c) as cs ↔
      ¬IntsAroundFloat (.list as) (.list bs) (.list cs) := by
  induction hab generalizing cs with
  | nil =>
      cases hbc
      exact iff_of_true .nil (by rintro ⟨⟩)
  | cons ha _ ih =>
      rw [List.forall_mem_cons] at h
      cases hbc with
      | cons hb hbs =>
          rw [List.forall₂_cons, intsAroundFloat_cons_iff, not_or, h.1 ha hb, ih h.2 hbs]

theorem equals_int_cases {v : Value} {n : Int64} (h : v.equals (.int n)) :
    v = .int n ∨ ∃ x, v = .float x ∧ floatOfInt n == x := by
  cases v with
  | int m => exact .inl (congrArg Value.int (of_decide_eq_true h))
  | float x => exact .inr ⟨x, rfl, h⟩
  | _ => cases h

theorem equals_float_cases {v : Value} {x : Float} (h : v.equals (.float x)) :
    (∃ n, v = .int n ∧ floatOfInt n == x) ∨ ∃ y, v = .float y ∧ y == x := by
  cases v with
  | int n => exact .inl ⟨n, rfl, h⟩
  | float y => exact .inr ⟨y, rfl, h⟩
  | _ => cases h

theorem intsAroundFloat_iff {m n : Int64} {x : Float} :
    IntsAroundFloat (.int m) (.float x) (.int n) ↔ m ≠ n := by
  constructor
  · rintro ⟨h⟩
    exact h
  · exact .here

theorem equals_trans_int {a c : Value} {n : Int64} (hab : a.equals (.int n))
    (hcb : c.equals (.int n)) : a.equals c := by
  obtain rfl | ⟨x, rfl, hx⟩ := equals_int_cases hab
  · rwa [equals_comm]
  · obtain rfl | ⟨y, rfl, hy⟩ := equals_int_cases hcb
    · exact hx
    · rw [float_beq_comm] at hx
      exact float_beq_trans hx hy

/-- Of the values around a float, only integers may differ from each other. -/
theorem equals_trans_float {a c : Value} {x : Float} (hab : a.equals (.float x))
    (hcb : c.equals (.float x)) : a.equals c ↔ ¬IntsAroundFloat a (.float x) c := by
  obtain ⟨m, rfl, hm⟩ | ⟨y, rfl, hy⟩ := equals_float_cases hab
  · obtain ⟨n, rfl, -⟩ | ⟨z, rfl, hz⟩ := equals_float_cases hcb
    · simp [equals, intsAroundFloat_iff]
    · rw [float_beq_comm] at hz
      exact iff_of_true (float_beq_trans hm hz) (by rintro ⟨⟩)
  · refine iff_of_true ?_ (by rintro ⟨⟩)
    obtain ⟨n, rfl, hn⟩ | ⟨z, rfl, hz⟩ := equals_float_cases hcb
    · rw [float_beq_comm] at hy
      exact float_beq_trans hn hy
    · rw [float_beq_comm] at hz
      exact float_beq_trans hy hz

theorem equals_trans_iff {a b c : Value} (hab : a.equals b) (hbc : b.equals c) :
    a.equals c ↔ ¬IntsAroundFloat a b c := by
  induction a using items_induction generalizing b c with
  | leaf a ha =>
      have hcb : c.equals b := equals_comm b c ▸ hbc
      cases b with
      | list bs =>
          cases a with
          | list as => exact absurd rfl (ha as)
          | _ => cases hab
      | float x => exact equals_trans_float hab hcb
      | int n => exact iff_of_true (equals_trans_int hab hcb) (by rintro ⟨⟩)
      | _ =>
          refine iff_of_true ?_ (by rintro ⟨⟩)
          cases a <;> cases c <;> simp_all [equals]
  | list as ih =>
      cases b with
      | list bs =>
          cases c with
          | list cs =>
              rw [equals_list_iff] at hab hbc ⊢
              exact items_trans_iff ih hab hbc
          | _ => cases hbc
      | _ => cases hab

/-- Equality is an equivalence as far as these three values are concerned. -/
structure IsEquivalenceOn (a b c : Value) : Prop where
  refl : a.equals a
  symm : a.equals b → b.equals a
  trans : a.equals b → b.equals c → a.equals c

/-- Among values without a NaN, equality is an equivalence except where a float stands between two
different integers and equals both. -/
theorem isEquivalenceOn_iff (a b c : Value) :
    IsEquivalenceOn a b c ↔
      ¬a.HasNaN ∧ ¬(a.equals b ∧ b.equals c ∧ IntsAroundFloat a b c) := by
  constructor
  · intro h
    refine ⟨(equals_self_iff a).mp h.refl, ?_⟩
    rintro ⟨hab, hbc, haround⟩
    exact (equals_trans_iff hab hbc).mp (h.trans hab hbc) haround
  · rintro ⟨hnan, haround⟩
    constructor
    · exact (equals_self_iff a).mpr hnan
    · intro hab
      rwa [equals_comm]
    · intro hab hbc
      rw [equals_trans_iff hab hbc]
      exact fun h => haround ⟨hab, hbc, h⟩

/-- The double 2 ^ 53 equals the integers 2 ^ 53 and 2 ^ 53 + 1. -/
theorem not_forall_isEquivalenceOn :
    ¬∀ a b c : Value, ¬a.HasNaN → ¬b.HasNaN → ¬c.HasNaN → IsEquivalenceOn a b c := by
  intro h
  have hmiddle : ¬(Value.float 9007199254740992.0).HasNaN := by
    rw [← equals_self_iff]
    decide
  have htrans := (h (.int 9007199254740993) (.float 9007199254740992.0) (.int 9007199254740992)
    (by rintro ⟨⟩) hmiddle (by rintro ⟨⟩)).trans
  exact absurd (htrans (by decide) (by decide)) (by decide)

end Scriptlet.Value
