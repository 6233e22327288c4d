import Scriptlet.Text.Quoted

/-!
# Bodies of string literals

What stands between two quotes is a list of items: characters that mean themselves, and characters
after a backslash.  A text is the body of at most one list of items.  The search for the closing
quote passes exactly the items of the body, and decoding gives their values one by one, so both take
every backslash together with the same character.
-/

namespace Scriptlet.Text.Quoted

def closing? (quote : Char) (passed : Nat) : List Char → Option Nat
  | [] => none
  | '\\' :: rest =>
      match rest with
      | [] => none
      | _ :: rest => closing? quote (passed + 2) rest
  | c :: rest => if c = quote then some (passed + 1) else closing? quote (passed + 1) rest

/-- A character that means itself, or a backslash with the character it takes. -/
inductive Item (quote : Char) where
  | plain (c : Char) (ne_backslash : c ≠ '\\') (ne_quote : c ≠ quote)
  | escaped (c : Char)

variable {quote : Char}

def Item.text : Item quote → List Char
  | .plain c _ _ => [c]
  | .escaped c => ['\\', c]

def Item.value : Item quote → List Char
  | .plain c _ _ => [c]
  | .escaped 'n' => ['\n']
  | .escaped 't' => ['\t']
  | .escaped 'r' => ['\r']
  | .escaped 'f' => ['\x0c']
  | .escaped '\'' => ['\'']
  | .escaped '"' => ['"']
  | .escaped '\\' => ['\\']
  | .escaped c => ['\\', c]

def text (items : List (Item quote)) : List Char :=
  items.flatMap Item.text

def value (items : List (Item quote)) : List Char :=
  items.flatMap Item.value

theorem text_cons (item : Item quote) (items : List (Item quote)) :
    text (item :: items) = item.text ++ text items :=
  List.flatMap_cons

theorem value_cons (item : Item quote) (items : List (Item quote)) :
    value (item :: items) = item.value ++ value items :=
  List.flatMap_cons

/-! ## A text is the body of at most one list -/

theorem eq_nil_of_text_eq_nil {items : List (Item quote)} (h : text items = []) : items = [] := by
  rcases items with _ | ⟨_ | _, items⟩
  · rfl
  · cases h
  · cases h

theorem exists_escaped_of_text {items : List (Item quote)} {c : Char} {rest : List Char}
    (h : text items = '\\' :: c :: rest) :
    ∃ more, items = .escaped c :: more ∧ text more = rest := by
  rcases items with _ | ⟨⟨d, hslash, hquote⟩ | ⟨d⟩, items⟩
  · cases h
  · exact absurd (List.cons.inj h).1 hslash
  · obtain ⟨rfl, hrest⟩ := List.cons.inj (List.cons.inj h).2
    exact ⟨items, rfl, hrest⟩

theorem exists_plain_of_text {items : List (Item quote)} {c : Char} {rest : List Char}
    (h : text items = c :: rest) (hslash : c ≠ '\\') :
    ∃ hquote more, items = .plain c hslash hquote :: more ∧ text more = rest := by
  rcases items with _ | ⟨⟨d, _, hquote⟩ | ⟨d⟩, items⟩
  · cases h
  · obtain ⟨rfl, hrest⟩ := List.cons.inj h
    exact ⟨hquote, items, rfl, hrest⟩
  · exact absurd (List.cons.inj h).1.symm hslash

theorem text_injective {items other : List (Item quote)} (h : text items = text other) :
    items = other := by
  induction other generalizing items with
  | nil => exact eq_nil_of_text_eq_nil h
  | cons item other ih =>
      cases item with
      | plain c hslash hquote =>
          obtain ⟨_, more, rfl, hmore⟩ := exists_plain_of_text h hslash
          rw [ih hmore]
      | escaped c =>
          obtain ⟨more, rfl, hmore⟩ := exists_escaped_of_text h
          rw [ih hmore]

/-! ## Decoding -/

theorem value_escaped (quote c : Char) :
    (Item.escaped c : Item quote).value = escapeValue c := by
  by_cases h : c ∈ ['n', 't', 'r', 'f', '\'', '"', '\\']
  · simp only [List.mem_cons, List.not_mem_nil, or_false] at h
    rcases h with rfl | rfl | rfl | rfl | rfl | rfl | rfl <;> rfl
  · simp only [List.mem_cons, List.not_mem_nil, or_false, not_or] at h
    simp [Item.value, escapeValue, escapeValue?, h]

theorem decodeOnto_cons {c : Char} (h : c ≠ '\\') (done rest : List Char) :
    decodeOnto done (c :: rest) = decodeOnto (c :: done) rest := by
  rw [decodeOnto]
  rintro d more rfl
  exact absurd rfl h

theorem decodeOnto_text (done : List Char) (items : List (Item quote)) (rest : List Char) :
    decodeOnto done (text items ++ rest) = decodeOnto ((value items).reverse ++ done) rest := by
  induction items generalizing done with
  | nil => rfl
  | cons item items ih =>
      rw [text_cons, value_cons, List.append_assoc, List.reverse_append, List.append_assoc]
      cases item with
      | plain c hslash hquote =>
          change decodeOnto done (c :: (text items ++ rest)) = _
          rw [decodeOnto_cons hslash, ih]
          rfl
      | escaped c =>
          change decodeOnto done ('\\' :: c :: (text items ++ rest)) = _
          rw [decodeOnto, ih, value_escaped]

theorem decode_text (items : List (Item quote)) : decode (text items) = value items := by
  have hall := decodeOnto_text [] items []
  rwa [List.append_nil, List.append_nil, decodeOnto, List.reverse_reverse] at hall

/-- What is left of a body at some step of its decoding. -/
inductive Reaches (body : List Char) : List Char → Prop where
  | start : Reaches body body
  | plain {c : Char} {rest : List Char} (h : Reaches body (c :: rest)) (hslash : c ≠ '\\') :
      Reaches body rest
  | escaped {c : Char} {rest : List Char} (h : Reaches body ('\\' :: c :: rest)) :
      Reaches body rest

theorem Reaches.exists_text {items : List (Item quote)} {rest : List Char}
    (h : Reaches (text items) rest) : ∃ more : List (Item quote), text more = rest := by
  induction h with
  | start => exact ⟨items, rfl⟩
  | plain _ hslash ih =>
      obtain ⟨more, hmore⟩ := ih
      obtain ⟨_, more, -, hrest⟩ := exists_plain_of_text hmore hslash
      exact ⟨more, hrest⟩
  | escaped _ ih =>
      obtain ⟨more, hmore⟩ := ih
      obtain ⟨more, -, hrest⟩ := exists_escaped_of_text hmore
      exact ⟨more, hrest⟩

theorem not_reaches_backslash (items : List (Item quote)) : ¬Reaches (text items) ['\\'] := by
  intro h
  obtain ⟨more, hmore⟩ := h.exists_text
  rcases more with _ | ⟨⟨c, hslash, hquote⟩ | ⟨c⟩, more⟩
  · cases hmore
  · exact hslash (List.cons.inj hmore).1
  · cases hmore

/-! ## The closing quote -/

theorem closing?_cons {c : Char} (h : c ≠ '\\') (passed : Nat) (rest : List Char) :
    closing? quote passed (c :: rest) =
      if c = quote then some (passed + 1) else closing? quote (passed + 1) rest := by
  rw [closing?]
  rintro rfl
  exact absurd rfl h

theorem closing?_plain {plain : List Char} (h : ∀ c ∈ plain, c ≠ '\\' ∧ c ≠ quote) (passed : Nat)
    (rest : List Char) :
    closing? quote passed (plain ++ rest) = closing? quote (passed + plain.length) rest := by
  induction plain generalizing passed with
  | nil => rfl
  | cons c plain ih =>
      obtain ⟨⟨hslash, hquote⟩, hplain⟩ := List.forall_mem_cons.mp h
      rw [List.cons_append, closing?_cons hslash, if_neg hquote, ih hplain, List.length_cons,
        Nat.add_right_comm, Nat.add_assoc]

theorem closing?_passed (passed : Nat) (s : List Char) :
    closing? quote passed s = (closing? quote 0 s).map (passed + ·) := by
  suffices h : ∀ more, closing? quote (passed + more) s =
      (closing? quote more s).map (passed + ·) from h 0
  intro more
  fun_induction closing? quote more s with
  | case1 => rfl
  | case2 => rfl
  | case3 more c rest ih => rw [closing?, Nat.add_assoc, ih]
  | case4 more rest hne =>
      rw [closing?_cons (fun hc => hne hc), if_pos rfl]
      rfl
  | case5 more c rest hne hquote ih =>
      rw [closing?_cons (fun hc => hne hc), if_neg hquote, Nat.add_assoc, ih]

theorem closing?_text (h : quote ≠ '\\') (passed : Nat) (items : List (Item quote))
    (rest : List Char) :
    closing? quote passed (text items ++ quote :: rest) =
      some (passed + (text items).length + 1) := by
  induction items generalizing passed with
  | nil =>
      change closing? quote passed (quote :: rest) = some (passed + 1)
      rw [closing?_cons h, if_pos rfl]
  | cons item items ih =>
      rw [text_cons, List.append_assoc, List.length_append]
      cases item with
      | plain c hslash hquote =>
          change closing? quote passed (c :: (text items ++ quote :: rest)) = _
          rw [closing?_cons hslash, if_neg hquote, ih, Nat.add_assoc passed]
          rfl
      | escaped c =>
          change closing? quote passed ('\\' :: c :: (text items ++ quote :: rest)) = _
          rw [closing?, ih, Nat.add_assoc passed]
          rfl

theorem exists_items_of_closing? {passed n : Nat} {s : List Char}
    (h : closing? quote passed s = some n) :
    ∃ (items : List (Item quote)) (rest : List Char),
      s = text items ++ quote :: rest ∧ n = passed + (text items).length + 1 := by
  fun_induction closing? quote passed s with
  | case1 => cases h
  | case2 => cases h
  | case3 passed c rest ih =>
      obtain ⟨items, after, rfl, rfl⟩ := ih h
      refine ⟨.escaped c :: items, after, rfl, ?_⟩
      rw [text_cons, List.length_append]
      change _ = passed + (2 + _) + 1
      omega
  | case4 passed rest hne =>
      cases h
      exact ⟨[], rest, rfl, rfl⟩
  | case5 passed c rest hne hquote ih =>
      obtain ⟨items, after, rfl, rfl⟩ := ih h
      have hslash : c ≠ '\\' := fun hc => hne hc
      refine ⟨.plain c hslash hquote :: items, after, rfl, ?_⟩
      rw [text_cons, List.length_append]
      change _ = passed + (1 + _) + 1
      omega

theorem closing?_eq_none_iff (h : quote ≠ '\\') {passed : Nat} {s : List Char} :
    closing? quote passed s = none ↔
      ∀ (items : List (Item quote)) (rest : List Char), s ≠ text items ++ quote :: rest := by
  constructor
  · rintro hnone items rest rfl
    rw [closing?_text h] at hnone
    cases hnone
  · intro hitems
    rw [Option.eq_none_iff_forall_ne_some]
    intro n hn
    obtain ⟨items, rest, heq, -⟩ := exists_items_of_closing? hn
    exact hitems items rest heq

end Scriptlet.Text.Quoted
