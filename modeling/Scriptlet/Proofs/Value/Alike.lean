import Mathlib.Data.List.Forall2
import Scriptlet.Machine.Eval
import Scriptlet.Proofs.Tree.Renumber
import Scriptlet.Proofs.Value.Range
import Scriptlet.Proofs.Value.Replication

/-!
# Values that differ in their functions

A relation on functions is carried over to all values.  If related functions are of the same
definition, but for line numbers, then no operator can tell related values apart.
-/

namespace Scriptlet

def Closure.renumber (f : Nat → Nat) (c : Closure) : Closure :=
  { c with params := c.params.map (Token.renumber f), body := c.body.map (Stmt.renumber f) }

@[simp] theorem renumber_closure_id : Closure.renumber id = id := by
  funext c
  simp [Closure.renumber]

/-- What tells the functions and the line numbers of two runs apart. -/
structure Likeness where
  closure : Closure → Closure → Prop
  line : (Nat → Nat) → Prop
  of_closure : ∀ {f f'}, closure f f' → ∃ g, line g ∧ f' = f.renumber g

def Value.isPlain : Value → Bool
  | .list _ | .closure _ => false
  | _ => true

/-- Values with related functions in the same places. -/
inductive Value.Alike (L : Likeness) : Value → Value → Prop where
  | plain {v : Value} (h : v.isPlain) : Alike L v v
  | list {as bs : List Value} (h : List.Forall₂ (Alike L) as bs) : Alike L (.list as) (.list bs)
  | closure {f f' : Closure} (h : L.closure f f') : Alike L (.closure f) (.closure f')

/-- The function is the value itself or stands in it as an item. -/
inductive Value.Holds : Value → Closure → Prop where
  | closure (f : Closure) : Holds (.closure f) f
  | item {items : List Value} {v : Value} {f : Closure} (hv : v ∈ items) (h : Holds v f) :
      Holds (.list items) f

inductive Value.AlikeResult (L : Likeness) :
    Except Failure Value → Except Failure Value → Prop where
  | ok {v v' : Value} (h : Value.Alike L v v') : AlikeResult L (.ok v) (.ok v')
  | error (failure : Failure) : AlikeResult L (.error failure) (.error failure)

namespace Value

variable {L : Likeness} {a a' b b' v v' : Value} {as as' bs bs' : List Value}

@[elab_as_elim]
theorem Alike.induct {motive : Value → Value → Prop}
    (plain : ∀ v : Value, v.isPlain → motive v v)
    (list : ∀ as bs, List.Forall₂ motive as bs → motive (.list as) (.list bs))
    (closure : ∀ f f', L.closure f f' → motive (.closure f) (.closure f'))
    {v v' : Value} : Alike L v v' → motive v v'
  | .plain h => plain _ h
  | .list h => list _ _ (items h)
  | .closure h => closure _ _ h
where
  items {as bs : List Value} : List.Forall₂ (Alike L) as bs → List.Forall₂ motive as bs
    | .nil => .nil
    | .cons h hs => .cons (Alike.induct plain list closure h) (items hs)

mutual

theorem alike_self : ∀ v : Value, (∀ f, v.Holds f → L.closure f f) → Alike L v v
  | .list items, h => .list (alikeItems_self items fun _ hitem f hf => h f (.item hitem hf))
  | .closure f, h => .closure (h f (.closure f))
  | .nil, _ | .bool _, _ | .int _, _ | .float _, _ | .str _, _ | .host _, _ => .plain rfl

private theorem alikeItems_self : ∀ items : List Value,
    (∀ item ∈ items, ∀ f, item.Holds f → L.closure f f) → List.Forall₂ (Alike L) items items
  | [], _ => .nil
  | item :: rest, h => .cons (alike_self item (h item List.mem_cons_self))
      (alikeItems_self rest fun other hother => h other (List.mem_cons_of_mem item hother))

end

theorem closure_of_alike_self {f : Closure} (hf : v.Holds f) (h : Alike L v v) : L.closure f f := by
  induction hf with
  | closure f =>
      cases h with
      | plain hplain => cases hplain
      | closure hf => exact hf
  | item hv _ ih =>
      cases h with
      | plain hplain => cases hplain
      | list hitems => exact ih (List.forall₂_same.mp hitems _ hv)

@[simp] theorem isPlain_ofLiteral (value : Literal) : (ofLiteral value).isPlain := by
  cases value <;> rfl

/-! ## What a value shows of itself -/

theorem isTruthy_of_alike (h : Alike L v v') : v'.isTruthy = v.isTruthy := by
  cases h <;> rfl

theorem inspectItems_eq (items : List Value) : inspectItems items = items.map inspect := by
  induction items with
  | nil => rfl
  | cons item rest ih => cases item <;> simp [inspectItems, inspect, ih]

private theorem name_of_closure {f f' : Closure} (h : L.closure f f') : f'.name = f.name := by
  obtain ⟨g, -, rfl⟩ := L.of_closure h
  rfl

private theorem id_of_closure {f f' : Closure} (h : L.closure f f') : f'.id = f.id := by
  obtain ⟨g, -, rfl⟩ := L.of_closure h
  rfl

theorem inspect_of_alike (h : Alike L v v') : v'.inspect = v.inspect := by
  refine h.induct (fun v hplain => rfl) (fun as bs hitems => ?_) fun f f' hf => ?_
  · have hmap : bs.map inspect = as.map inspect := by
      induction hitems with
      | nil => rfl
      | cons hitem _ ih => rw [List.map_cons, List.map_cons, hitem, ih]
    simp only [inspect, display, inspectItems_eq, hmap]
  · simp only [inspect, display, name_of_closure hf]

theorem display_of_alike (h : Alike L v v') : v'.display = v.display := by
  cases h with
  | plain hplain => rfl
  | list hitems => exact inspect_of_alike (.list hitems)
  | closure hf => exact inspect_of_alike (.closure hf)

private theorem equalItems_of_alike
    (has : List.Forall₂ (fun a a' => ∀ {b b'}, Alike L b b' → equals a' b' = equals a b) as as')
    (hbs : List.Forall₂ (Alike L) bs bs') : equalItems as' bs' = equalItems as bs := by
  induction has generalizing bs bs' with
  | nil => cases hbs <;> rfl
  | cons ha _ ih =>
      cases hbs with
      | nil => rfl
      | cons hb hbs => rw [equalItems, equalItems, ha hb, ih hbs]

theorem equals_of_alike (ha : Alike L a a') (hb : Alike L b b') :
    equals a' b' = equals a b := by
  refine ha.induct (motive := fun a a' => ∀ {b b'}, Alike L b b' → equals a' b' = equals a b)
    (fun a hplain b b' hb => ?_) (fun as as' has b b' hb => ?_) (fun f f' hf b b' hb => ?_) hb
  · cases hb with
    | plain => rfl
    | list => cases a <;> first | rfl | cases hplain
    | closure => cases a <;> first | rfl | cases hplain
  · cases hb with
    | plain hplain => cases b <;> first | rfl | cases hplain
    | closure => rfl
    | list hbs => rw [equals, equals, equalItems_of_alike has hbs]
  · cases hb with
    | plain hplain => cases b <;> first | rfl | cases hplain
    | list => rfl
    | closure hg => rw [equals, equals, id_of_closure hf, id_of_closure hg]

/-! ## Operators -/

theorem ordered_of_not_plain (op : BinaryOp) (h : ¬(a.isPlain ∧ b.isPlain)) :
    ordered op a b = .error (mismatch op a b) := by
  cases a <;> cases b <;> first | rfl | exact absurd ⟨rfl, rfl⟩ h

theorem isPlain_of_alike (h : Alike L v v') : v'.isPlain = v.isPlain := by
  cases h <;> rfl

theorem binary_of_alike (op : BinaryOp) (ha : Alike L a a') (hb : Alike L b b') :
    binary op a' b' = binary op a b := by
  have hordered : ordered op a' b' = ordered op a b := by
    by_cases hplain : a.isPlain ∧ b.isPlain
    · cases ha <;> cases hb <;> first | rfl | simp [isPlain] at hplain
    · have hplain' : ¬(a'.isPlain ∧ b'.isPlain) := by
        rwa [isPlain_of_alike ha, isPlain_of_alike hb]
      simp only [ordered_of_not_plain op hplain, ordered_of_not_plain op hplain', mismatch,
        inspect_of_alike ha, inspect_of_alike hb]
  cases op <;> simp only [binary, equals_of_alike ha hb, hordered]

/-! ## Results of operators -/

theorem AlikeResult.of_plain {r : Except Failure Value} (h : ∀ v, r = .ok v → v.isPlain) :
    AlikeResult L r r := by
  cases r with
  | ok v => exact .ok (.plain (h v rfl))
  | error failure => exact .error failure

theorem isPlain_of_exact {op : BinaryOp} {z : Int} (h : exact op z = .ok v) : v.isPlain := by
  unfold exact ofInt? at h
  split at h
  · next w hw =>
      cases h
      split at hw <;> cases hw
      rfl
  · cases h

theorem isPlain_of_intPower {base exponent : Int} (h : intPower base exponent = .ok v) :
    v.isPlain := by
  unfold intPower at h
  split at h
  · cases h
  · split at h
    · cases h
    · cases h
      split <;> rfl

theorem isPlain_of_intBinary {op : BinaryOp} {m n : Int} (h : intBinary op m n = .ok v) :
    v.isPlain := by
  cases op with
  | add => exact isPlain_of_exact h
  | sub => exact isPlain_of_exact h
  | mul => exact isPlain_of_exact h
  | div =>
      rw [intBinary] at h
      split at h
      · cases h
      · exact isPlain_of_exact h
  | rem =>
      rw [intBinary] at h
      split at h
      · cases h
      · split at h
        · exact isPlain_of_exact h
        · cases h
  | pow => exact isPlain_of_intPower h
  | eq | ne | lt | le | gt | ge =>
      cases h
      rfl

theorem isPlain_floatBinary (op : BinaryOp) (x y : Float) : (floatBinary op x y).isPlain := by
  cases op <;> rfl

theorem isPlain_of_textBinary? {op : BinaryOp} {s t : String} (h : textBinary? op s t = some v) :
    v.isPlain := by
  cases op <;> cases h <;> rfl

theorem isPlain_of_replicate {s : String} {count : Int} (h : replicate s count = .ok v) :
    v.isPlain := by
  rcases Int.lt_or_le count 0 with hsign | hsign
  · rw [replicate, if_pos hsign] at h
    cases h
  · obtain ⟨n, rfl⟩ := Int.eq_ofNat_of_zero_le hsign
    rw [replicate_natCast] at h
    split at h <;> cases h
    rfl

theorem isPlain_of_ordered {op : BinaryOp} (h : ordered op a b = .ok v) : v.isPlain := by
  unfold ordered at h
  split at h
  · exact isPlain_of_intBinary h
  · cases h
    exact isPlain_floatBinary _ _ _
  · cases h
    exact isPlain_floatBinary _ _ _
  · cases h
    exact isPlain_floatBinary _ _ _
  · split at h
    · next htext =>
        cases h
        exact isPlain_of_textBinary? htext
    · cases h
  · split at h
    · exact isPlain_of_replicate h
    · cases h
  · cases h

theorem isPlain_of_binary {op : BinaryOp} (h : binary op a b = .ok v) : v.isPlain := by
  unfold binary at h
  split at h
  · cases h
    rfl
  · cases h
    rfl
  · exact isPlain_of_ordered h

theorem isPlain_of_unary {op : UnaryOp} (h : unary op a = .ok v) : v.isPlain := by
  unfold unary ofInt? at h
  split at h
  · cases h
    rfl
  · split at h
    · next hw =>
        split at hw <;> cases hw
        cases h
        rfl
    · cases h
  · cases h
    rfl
  · cases h

/-- No operator but equality looks into a list or a function, and a new value holds neither. -/
theorem alike_binary (op : BinaryOp) (ha : Alike L a a') (hb : Alike L b b') :
    AlikeResult L (binary op a b) (binary op a' b') := by
  rw [binary_of_alike op ha hb]
  exact .of_plain fun v => isPlain_of_binary

theorem alike_unary (op : UnaryOp) (h : Alike L v v') :
    AlikeResult L (unary op v) (unary op v') := by
  have hunary : unary op v' = unary op v := by
    cases op with
    | neg => cases h <;> rfl
    | not => rw [unary, unary, isTruthy_of_alike h]
  rw [hunary]
  exact .of_plain fun v => isPlain_of_unary

theorem alike_range (inclusive : Bool) (ha : Alike L a a') (hb : Alike L b b') :
    AlikeResult L (range a b inclusive) (range a' b' inclusive) := by
  have hnil : AlikeResult L (.ok .nil) (.ok .nil) := .ok (.plain rfl)
  cases ha with
  | list => exact hnil
  | closure => cases b <;> exact hnil
  | plain hplain =>
      cases hb with
      | list => cases a <;> exact hnil
      | closure => cases a <;> exact hnil
      | plain =>
          rcases range_cases a b inclusive with hrange | hrange | ⟨first, n, hrange⟩ <;> rw [hrange]
          · exact hnil
          · exact .error _
          · refine .ok (.list (List.forall₂_same.mpr ?_))
            simp only [integers, List.mem_map]
            rintro v ⟨i, -, rfl⟩
            exact .plain rfl

theorem caseMatches_of_alike (ha : Alike L a a') (hb : Alike L b b') :
    Run.caseMatches a' b' = Run.caseMatches a b := by
  simp only [Run.caseMatches, equals_of_alike ha hb, display_of_alike ha, display_of_alike hb]

end Value

end Scriptlet
