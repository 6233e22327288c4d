import Scriptlet.Proofs.Text.Escape
import Scriptlet.Text.Sexp

/-!
# Reading forms

A form ends where its text says so: a quoted text at its last quote, a group at its last
parenthesis, and a word in front of the first character that no word contains.  So forms with plain
words are known by their text, and so are lists of forms that are written line by line.
-/

namespace Scriptlet.Text.Sexp

def delimiters : List Char :=
  ['(', ')', ' ', '"', '\n']

def IsWord (text : List Char) : Prop :=
  text ≠ [] ∧ ∀ c ∈ text, c ∉ delimiters

theorem isWord_iff {text : List Char} :
    IsWord text ↔ (!text.isEmpty && text.all fun c => !delimiters.contains c) = true := by
  simp [IsWord]

instance (text : List Char) : Decidable (IsWord text) :=
  decidable_of_iff _ isWord_iff.symm

inductive IsPlain : Sexp → Prop
  | word {text : List Char} : IsWord text → IsPlain (.word text)
  | quoted (text : List Char) : IsPlain (.quoted text)
  | group {members : List Sexp} : (∀ s ∈ members, IsPlain s) → IsPlain (.group members)

theorem isPlain_group {members : List Sexp} :
    (group members).IsPlain ↔ ∀ s ∈ members, s.IsPlain := by
  constructor
  · rintro ⟨⟩
    assumption
  · exact .group

def Stops (rest : List Char) : Prop :=
  ∀ c ∈ rest.head?, c ∈ [')', ' ', '\n']

theorem mem_delimiters_of_stops {c : Char} (h : c ∈ [')', ' ', '\n']) : c ∈ delimiters := by
  have hsubset : [')', ' ', '\n'].all delimiters.contains := by decide
  exact List.contains_iff_mem.mp (List.all_eq_true.mp hsubset c h)

variable {s t : Sexp} {ss ts : List Sexp} {text text' rest rest' : List Char}

@[simp] theorem stops_nil : Stops [] := by
  simp [Stops]

@[simp] theorem stops_cons {c : Char} : Stops (c :: rest) ↔ c ∈ [')', ' ', '\n'] := by
  simp [Stops]

theorem stops_blanksBefore (h : Stops rest) : Stops (blanksBefore rest ss) := by
  cases ss <;> simp [blanksBefore, h]

/-! ## Text of a form -/

mutual

theorem charsBefore_eq (rest : List Char) (s : Sexp) : charsBefore rest s = s.chars ++ rest := by
  cases s with
  | word text => simp [charsBefore, chars]
  | quoted text => simp [charsBefore, chars]
  | group members =>
      rw [chars, charsBefore, charsBefore, spacedBefore_eq, spacedBefore_eq (')' :: [])]
      simp

theorem spacedBefore_eq (rest : List Char) (ss : List Sexp) :
    spacedBefore rest ss = spacedBefore [] ss ++ rest := by
  cases ss with
  | nil => rfl
  | cons s ss =>
      rw [spacedBefore, spacedBefore, charsBefore_eq, charsBefore_eq (blanksBefore [] ss),
        blanksBefore_eq, List.append_assoc]

theorem blanksBefore_eq (rest : List Char) (ss : List Sexp) :
    blanksBefore rest ss = blanksBefore [] ss ++ rest := by
  cases ss with
  | nil => rfl
  | cons s ss =>
      rw [blanksBefore, blanksBefore, charsBefore_eq, charsBefore_eq (blanksBefore [] ss),
        blanksBefore_eq]
      simp

end

theorem exists_head (h : s.IsPlain) (rest : List Char) :
    ∃ c after, s.charsBefore rest = c :: after ∧ c ∉ [')', ' ', '\n'] := by
  cases h with
  | @word text hword =>
      obtain ⟨c, text, rfl⟩ := List.exists_cons_of_ne_nil hword.1
      have hc := hword.2 c List.mem_cons_self
      exact ⟨c, text ++ rest, rfl, fun hstop => hc (mem_delimiters_of_stops hstop)⟩
  | quoted text => exact ⟨'"', _, rfl, by decide⟩
  | group _ => exact ⟨'(', _, rfl, by decide⟩

/-! ## Reading back -/

theorem takeWhile_word (h : IsWord text) (hrest : Stops rest) :
    (text ++ rest).takeWhile (· ∉ delimiters) = text := by
  have hall : ∀ c ∈ text, decide (c ∉ delimiters) = true := fun c hc => decide_eq_true (h.2 c hc)
  have hstop : rest.takeWhile (· ∉ delimiters) = [] := by
    cases rest with
    | nil => rfl
    | cons c rest =>
        have hc := mem_delimiters_of_stops (stops_cons.mp hrest)
        simp [hc]
  rw [List.takeWhile_append_of_pos hall, hstop, List.append_nil]

theorem word_append_inj (h : IsWord text) (h' : IsWord text') (hrest : Stops rest)
    (hrest' : Stops rest') (heq : text ++ rest = text' ++ rest') : text = text' ∧ rest = rest' := by
  have htext := congrArg (List.takeWhile (· ∉ delimiters)) heq
  rw [takeWhile_word h hrest, takeWhile_word h' hrest'] at htext
  subst htext
  exact ⟨rfl, List.append_cancel_left heq⟩

theorem word_append_ne (h : IsWord text) {c : Char} (hc : c ∈ delimiters) :
    text ++ rest ≠ c :: rest' := by
  obtain ⟨d, text, rfl⟩ := List.exists_cons_of_ne_nil h.1
  intro heq
  obtain ⟨rfl, -⟩ := List.cons.inj heq
  exact h.2 d List.mem_cons_self hc

/-- Members are told apart one by one, if each of them is told from what follows it. -/
theorem blanksBefore_inj (hss : ∀ s ∈ ss, ∀ t rest rest', t.IsPlain → Stops rest → Stops rest' →
      charsBefore rest s = charsBefore rest' t → s = t ∧ rest = rest')
    (hts : ∀ t ∈ ts, t.IsPlain)
    (h : blanksBefore (')' :: rest) ss = blanksBefore (')' :: rest') ts) :
    ss = ts ∧ rest = rest' := by
  induction ss generalizing ts with
  | nil =>
      cases ts with
      | nil => simpa [blanksBefore] using h
      | cons t ts => simp [blanksBefore] at h
  | cons s ss ih =>
      cases ts with
      | nil => simp [blanksBefore] at h
      | cons t ts =>
          rw [List.forall_mem_cons] at hss hts
          obtain ⟨rfl, hrest⟩ := hss.1 t _ _ hts.1 (stops_blanksBefore (by simp))
            (stops_blanksBefore (by simp)) (List.cons.inj h).2
          obtain ⟨rfl, rfl⟩ := ih hss.2 hts.2 hrest
          exact ⟨rfl, rfl⟩

theorem blanksBefore_of_spacedBefore (hss : ∀ s ∈ ss, s.IsPlain) (hts : ∀ t ∈ ts, t.IsPlain)
    (h : spacedBefore (')' :: rest) ss = spacedBefore (')' :: rest') ts) :
    blanksBefore (')' :: rest) ss = blanksBefore (')' :: rest') ts := by
  -- only an empty list starts with the closing parenthesis
  cases ss with
  | nil =>
      cases ts with
      | nil => exact h
      | cons t ts =>
          obtain ⟨c, after, hc, hne⟩ := exists_head (hts t List.mem_cons_self) _
          rw [spacedBefore, spacedBefore, hc] at h
          simp [← (List.cons.inj h).1] at hne
  | cons s ss =>
      cases ts with
      | nil =>
          obtain ⟨c, after, hc, hne⟩ := exists_head (hss s List.mem_cons_self) _
          rw [spacedBefore, spacedBefore, hc] at h
          simp [(List.cons.inj h).1] at hne
      | cons t ts => simpa [spacedBefore, blanksBefore] using h

/-- The text of a form tells the form and where it ends. -/
theorem charsBefore_inj (hs : s.IsPlain) (ht : t.IsPlain) (hrest : Stops rest)
    (hrest' : Stops rest') (h : charsBefore rest s = charsBefore rest' t) :
    s = t ∧ rest = rest' := by
  induction hs generalizing t rest rest' with
  | word hword =>
      cases ht with
      | word hword' =>
          obtain ⟨rfl, rfl⟩ := word_append_inj hword hword' hrest hrest' h
          exact ⟨rfl, rfl⟩
      | quoted text => exact absurd h (word_append_ne hword (by decide))
      | group _ => exact absurd h (word_append_ne hword (by decide))
  | quoted text =>
      cases ht with
      | word hword => exact absurd h.symm (word_append_ne hword (by decide))
      | quoted text' =>
          obtain ⟨rfl, rfl⟩ := quotedChars_append_inj h
          exact ⟨rfl, rfl⟩
      | group _ => simp [charsBefore, quotedChars] at h
  | @group ss hss ih =>
      cases ht with
      | word hword => exact absurd h.symm (word_append_ne hword (by decide))
      | quoted text => simp [charsBefore, quotedChars] at h
      | @group ts hts =>
          have hmembers := blanksBefore_of_spacedBefore hss hts (List.cons.inj h).2
          obtain ⟨rfl, rfl⟩ := blanksBefore_inj
            (fun s hs t rest rest' ht hrest hrest' => ih s hs ht hrest hrest') hts hmembers
          exact ⟨rfl, rfl⟩

/-! ## Lines -/

def linesAfter : List Sexp → List Char
  | [] => []
  | first :: others => '\n' :: charsBefore (linesAfter others) first

theorem stops_linesAfter (ss : List Sexp) : Stops (linesAfter ss) := by
  cases ss <;> simp [linesAfter]

theorem linesAfter_cons (s : Sexp) (ss : List Sexp) :
    linesAfter (s :: ss) = '\n' :: ("\n".intercalate ((s :: ss).map render)).toList := by
  induction ss generalizing s with
  | nil => simp [linesAfter, render, charsBefore_eq]
  | cons t ss ih =>
      rw [linesAfter, ih, charsBefore_eq]
      simp [render]

theorem linesAfter_inj (hss : ∀ s ∈ ss, s.IsPlain) (hts : ∀ t ∈ ts, t.IsPlain)
    (h : linesAfter ss = linesAfter ts) : ss = ts := by
  induction ss generalizing ts with
  | nil =>
      cases ts with
      | nil => rfl
      | cons t ts => simp [linesAfter] at h
  | cons s ss ih =>
      cases ts with
      | nil => simp [linesAfter] at h
      | cons t ts =>
          rw [List.forall_mem_cons] at hss hts
          obtain ⟨rfl, hrest⟩ := charsBefore_inj hss.1 hts.1 (stops_linesAfter ss)
            (stops_linesAfter ts) (List.cons.inj h).2
          rw [ih hss.2 hts.2 hrest]

theorem lines_ne_empty (h : s.IsPlain) (ss : List Sexp) :
    "\n".intercalate ((s :: ss).map render) ≠ "" := by
  intro hempty
  have hlines := linesAfter_cons s ss
  obtain ⟨c, after, hc, -⟩ := exists_head h (linesAfter ss)
  rw [hempty, linesAfter, hc] at hlines
  simp at hlines

theorem lines_inj (hss : ∀ s ∈ ss, s.IsPlain) (hts : ∀ t ∈ ts, t.IsPlain)
    (h : "\n".intercalate (ss.map render) = "\n".intercalate (ts.map render)) : ss = ts := by
  cases ss with
  | nil =>
      cases ts with
      | nil => rfl
      | cons t ts => exact absurd h.symm (lines_ne_empty (hts t List.mem_cons_self) ts)
  | cons s ss =>
      cases ts with
      | nil => exact absurd h (lines_ne_empty (hss s List.mem_cons_self) ss)
      | cons t ts =>
          apply linesAfter_inj hss hts
          rw [linesAfter_cons, linesAfter_cons, h]

end Scriptlet.Text.Sexp
