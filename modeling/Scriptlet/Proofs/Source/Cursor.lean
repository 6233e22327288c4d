import Mathlib.Data.List.Count
import Scriptlet.Proofs.Source.Piece

/-!
# Cursors

A cursor counts bytes, the text is characters.  Every move takes a cursor from between two
characters to between two characters, and passes just the characters it is meant to pass: a byte of
a longer character is never taken for a character of the language.
-/

namespace Scriptlet.Source

/-! ## Bytes -/

/-- The bytes of a text, each as the character of its number. -/
def bytes (s : List Char) : List Char :=
  s.flatMap fun c => (String.utf8EncodeChar c).map Char.ofUInt8

variable {c d : Char} {s t : List Char} {test : Char → Bool}

@[simp] theorem bytes_nil : bytes [] = [] :=
  rfl

@[simp] theorem bytes_append (s t : List Char) : bytes (s ++ t) = bytes s ++ bytes t :=
  List.flatMap_append

theorem bytes_cons (c : Char) (s : List Char) : bytes (c :: s) = bytes [c] ++ bytes s := by
  simp [bytes]

theorem utf8EncodeChar_of_lt (hc : c.toNat < 128) :
    String.utf8EncodeChar c = [UInt8.ofNat c.toNat] := by
  have hle : c.val.toNat ≤ 127 := Nat.le_of_lt_succ hc
  unfold String.utf8EncodeChar
  dsimp only
  rw [if_pos hle]
  rfl

theorem le_of_mem_utf8EncodeChar (hc : 128 ≤ c.toNat) {b : UInt8}
    (hb : b ∈ String.utf8EncodeChar c) : 128 ≤ b.toNat := by
  have hlong : ¬c.val.toNat ≤ 127 := Nat.not_le_of_lt hc
  unfold String.utf8EncodeChar at hb
  dsimp only at hb
  rw [if_neg hlong] at hb
  split at hb
  · simp only [List.mem_cons, List.not_mem_nil, or_false] at hb
    rcases hb with rfl | rfl <;> rw [UInt8.toNat_ofNat'] <;> omega
  split at hb
  · simp only [List.mem_cons, List.not_mem_nil, or_false] at hb
    rcases hb with rfl | rfl | rfl <;> rw [UInt8.toNat_ofNat'] <;> omega
  · simp only [List.mem_cons, List.not_mem_nil, or_false] at hb
    rcases hb with rfl | rfl | rfl | rfl <;> rw [UInt8.toNat_ofNat'] <;> omega

theorem toNat_ofUInt8 (b : UInt8) : (Char.ofUInt8 b).toNat = b.toNat :=
  UInt8.toNat_toUInt32 b

theorem ofUInt8_injective : Function.Injective Char.ofUInt8 := by
  intro a b h
  rw [← UInt8.toNat_inj, ← toNat_ofUInt8, h, toNat_ofUInt8]

theorem ofUInt8_ofNat (hc : c.toNat < 128) : Char.ofUInt8 (UInt8.ofNat c.toNat) = c := by
  rw [← Char.toNat_inj, toNat_ofUInt8, UInt8.toNat_ofNat', Nat.mod_eq_of_lt (by omega)]

theorem bytes_singleton (hc : c.toNat < 128) : bytes [c] = [c] := by
  simp [bytes, utf8EncodeChar_of_lt hc, ofUInt8_ofNat hc]

theorem bytes_cons_of_lt (hc : c.toNat < 128) : bytes (c :: s) = c :: bytes s := by
  rw [bytes_cons, bytes_singleton hc]
  rfl

theorem le_of_mem_bytes (hc : 128 ≤ c.toNat) (hd : d ∈ bytes [c]) : 128 ≤ d.toNat := by
  simp only [bytes, List.flatMap_cons, List.flatMap_nil, List.append_nil, List.mem_map] at hd
  obtain ⟨b, hb, rfl⟩ := hd
  rw [toNat_ofUInt8]
  exact le_of_mem_utf8EncodeChar hc hb

theorem exists_bytes_eq_cons (c : Char) : ∃ d ds, bytes [c] = d :: ds := by
  refine List.exists_cons_of_ne_nil fun h => ?_
  simp [bytes] at h

theorem bytes_eq_nil_iff : bytes s = [] ↔ s = [] := by
  cases s with
  | nil => simp
  | cons c s =>
      obtain ⟨d, ds, hd⟩ := exists_bytes_eq_cons c
      rw [bytes_cons, hd]
      simp

/-! ## Tests on bytes -/

/-- A test that tells no two characters beyond ASCII apart, and so no two bytes of such. -/
def Plain (test : Char → Bool) : Prop :=
  ∀ c d : Char, 128 ≤ c.toNat → 128 ≤ d.toNat → test c = test d

theorem plain_of_false (h : ∀ c : Char, 128 ≤ c.toNat → test c = false) : Plain test := by
  intro c d hc hd
  rw [h c hc, h d hd]

theorem plain_eq (hc : c.toNat < 128) : Plain (· = c) := by
  refine plain_of_false fun d hd => decide_eq_false ?_
  rintro rfl
  omega

theorem Plain.or {other : Char → Bool} (h : Plain test) (h' : Plain other) :
    Plain fun c => test c || other c := by
  intro c d hc hd
  dsimp only
  rw [h c d hc hd, h' c d hc hd]

theorem isLetter_eq_false (hc : 128 ≤ c.toNat) : isLetter c = false := by
  delta isLetter Char.isAlpha Char.isUpper Char.isLower
  simp [UInt32.le_iff_toNat_le]
  omega

theorem isDigit_eq_false (hc : 128 ≤ c.toNat) : isDigit c = false := by
  delta isDigit Char.isDigit
  simp [UInt32.le_iff_toNat_le]
  omega

theorem plain_isLetter : Plain isLetter :=
  plain_of_false fun _ => isLetter_eq_false

theorem plain_isDigit : Plain isDigit :=
  plain_of_false fun _ => isDigit_eq_false

theorem plain_continuesName : Plain continuesName :=
  (plain_isLetter.or plain_isDigit).or (plain_eq (by decide))

theorem Plain.of_mem_bytes (h : Plain test) (hd : d ∈ bytes [c]) : test d = test c := by
  by_cases hc : c.toNat < 128
  · rw [bytes_singleton hc, List.mem_singleton] at hd
    rw [hd]
  · have hc : 128 ≤ c.toNat := Nat.le_of_not_lt hc
    exact h d c (le_of_mem_bytes hc hd) hc

theorem Plain.of_forall (h : Plain test) {v : Bool} (hs : ∀ c ∈ s, test c = v) :
    ∀ d ∈ bytes s, test d = v := by
  intro d hd
  obtain ⟨c, hc, hd⟩ := List.mem_flatMap.mp hd
  rw [← hs c hc]
  exact h.of_mem_bytes (by simpa [bytes] using hd)

theorem Plain.head? (h : Plain test) (s : List Char) :
    (bytes s).head?.any test = s.head?.any test := by
  cases s with
  | nil => rfl
  | cons c s =>
      obtain ⟨d, ds, hd⟩ := exists_bytes_eq_cons c
      rw [bytes_cons, hd]
      exact h.of_mem_bytes (hd ▸ List.mem_cons_self)

theorem isPrefixOf_bytes {word : List Char} (hword : ∀ c ∈ word, c.toNat < 128) (s : List Char) :
    word <+: bytes s ↔ word <+: s := by
  induction word generalizing s with
  | nil => simp
  | cons w word ih =>
      have hw := hword w List.mem_cons_self
      cases s with
      | nil => simp
      | cons c s =>
          by_cases hc : c.toNat < 128
          · rw [bytes_cons_of_lt hc, List.cons_prefix_cons, List.cons_prefix_cons,
              ih (fun c hc => hword c (List.mem_cons_of_mem _ hc))]
          · obtain ⟨d, ds, hd⟩ := exists_bytes_eq_cons c
            have hlong := le_of_mem_bytes (Nat.le_of_not_lt hc) (hd ▸ List.mem_cons_self)
            rw [bytes_cons, hd, List.cons_append, List.cons_prefix_cons, List.cons_prefix_cons]
            constructor <;> rintro ⟨rfl, -⟩ <;> omega

theorem drop_bytes (s : List Char) (n : Nat) :
    (∃ t u, s = t ++ u ∧ n = (bytes t).length) ∨
      (∃ d ds, (bytes s).drop n = d :: ds ∧ 128 ≤ d.toNat) ∨ (bytes s).length < n := by
  induction s generalizing n with
  | nil =>
      cases n with
      | zero => exact .inl ⟨[], [], rfl, rfl⟩
      | succ n => exact .inr (.inr (Nat.succ_pos n))
  | cons c s ih =>
      rw [bytes_cons, List.drop_append, List.length_append]
      by_cases hn : n < (bytes [c]).length
      · cases n with
        | zero => exact .inl ⟨[], c :: s, rfl, rfl⟩
        | succ n =>
            -- a character of more than one byte
            have hc : 128 ≤ c.toNat := by
              refine Nat.le_of_not_lt fun hc => ?_
              rw [bytes_singleton hc] at hn
              simp at hn
            rw [List.drop_eq_getElem_cons hn]
            exact .inr (.inl ⟨_, _, rfl, le_of_mem_bytes hc (List.getElem_mem hn)⟩)
      · rw [List.drop_eq_nil_of_le (Nat.le_of_not_lt hn), List.nil_append]
        rcases ih (n - (bytes [c]).length) with ⟨t, u, rfl, ht⟩ | hinside | hlong
        · refine .inl ⟨c :: t, u, rfl, ?_⟩
          rw [bytes_cons, List.length_append]
          omega
        · exact .inr (.inl hinside)
        · exact .inr (.inr (by omega))

theorem count_bytes (s : List Char) : (bytes s).count '\n' = newlines s := by
  induction s with
  | nil => rfl
  | cons c s ih =>
      have hc : (bytes [c]).count '\n' = if c = '\n' then 1 else 0 := by
        by_cases hc : c.toNat < 128
        · rw [bytes_singleton hc, List.count_singleton]
          simp
        · have hne : c ≠ '\n' := by
            rintro rfl
            exact hc (by decide)
          rw [if_neg hne, List.count_eq_zero]
          intro hmem
          exact absurd (le_of_mem_bytes (Nat.le_of_not_lt hc) hmem) (by decide)
      rw [bytes_cons, List.count_append, ih, hc, newlines, newlines, List.count_cons]
      simp [Nat.add_comm]

/-! ## The bytes of a source text -/

variable {source : String}

theorem data_toByteArray (source : String) :
    (source.toByteArray.data.toList).map Char.ofUInt8 = bytes source.toList := by
  rw [← String.utf8Encode_toList, List.utf8Encode, List.data_toByteArray, bytes, List.map_flatMap]

theorem utf8ByteSize_eq (source : String) : source.utf8ByteSize = (bytes source.toList).length := by
  rw [← data_toByteArray, List.length_map]
  rfl

theorem byteAt_eq (source : String) (i : Nat) :
    byteAt source i = (bytes source.toList)[i]?.getD '\x00' := by
  rw [← data_toByteArray, List.getElem?_map]
  unfold byteAt
  split
  · next h =>
      have hi : i < source.toByteArray.data.toList.length := h
      rw [List.getElem?_eq_getElem hi]
      rfl
  · next h =>
      have hi : source.toByteArray.data.toList.length ≤ i := Nat.le_of_not_lt h
      rw [List.getElem?_eq_none hi]
      rfl

theorem wordAt_eq (source : String) (word : List Char) (i : Nat) :
    wordAt source word i = word.isPrefixOf ((bytes source.toList).drop i) := by
  induction word generalizing i with
  | nil => simp [wordAt]
  | cons c word ih =>
      rw [wordAt, ih, byteAt_eq, utf8ByteSize_eq]
      by_cases hi : i < (bytes source.toList).length
      · rw [List.drop_eq_getElem_cons hi, List.isPrefixOf, List.getElem?_eq_getElem hi]
        simp [hi, eq_comm, beq_eq_decide]
      · rw [List.drop_eq_nil_of_le (Nat.le_of_not_lt hi)]
        simp [hi]

theorem firstFrom?_eq_none {pass : Nat → Bool} {i : Nat}
    (h : ∀ j, i ≤ j → j < source.utf8ByteSize → pass j = false) :
    firstFrom? source pass i = none := by
  fun_induction firstFrom? source pass i with
  | case1 i hi hpass =>
      rw [h i (Nat.le_refl i) hi] at hpass
      cases hpass
  | case2 i hi _ ih => exact ih fun j hj => h j (Nat.le_of_succ_le hj)
  | case3 => rfl

theorem firstFrom?_eq_some {pass : Nat → Bool} {i j : Nat} (hij : i ≤ j)
    (hj : j < source.utf8ByteSize) (hpass : pass j)
    (hfirst : ∀ k, i ≤ k → k < j → pass k = false) : firstFrom? source pass i = some j := by
  fun_induction firstFrom? source pass i with
  | case1 i hi hi' =>
      refine congrArg some (Nat.le_antisymm hij (Nat.le_of_not_lt fun hlt => ?_))
      rw [hfirst i (Nat.le_refl i) hlt] at hi'
      cases hi'
  | case2 i hi hi' ih =>
      have hne : i ≠ j := by
        rintro rfl
        exact hi' hpass
      exact ih (by omega) fun k hk => hfirst k (Nat.le_of_succ_le hk)
  | case3 i hi => omega

/-! ## Places between two characters -/

theorem utf8ByteSize_ofList (s : List Char) :
    (String.ofList s).utf8ByteSize = (bytes s).length := by
  rw [utf8ByteSize_eq, String.toList_ofList]

theorem exists_pos? (h : source.toList = s ++ t) : ∃ p : source.Pos,
    source.pos? ⟨(bytes s).length⟩ = some p ∧ p.offset.byteIdx = (bytes s).length ∧
      p.Splits (String.ofList s) (String.ofList t) := by
  have hsource : source = String.ofList s ++ String.ofList t := by
    rw [← String.toList_inj, h, String.toList_append, String.toList_ofList, String.toList_ofList]
  have hsplits := String.Pos.splits_ofEqAppend hsource
  have hplace : (String.Pos.ofEqAppend hsource).offset = ⟨(bytes s).length⟩ := by
    rw [hsplits.offset_eq_rawEndPos, ← utf8ByteSize_ofList]
    rfl
  refine ⟨_, ?_, congrArg String.Pos.Raw.byteIdx hplace, hsplits⟩
  generalize String.Pos.ofEqAppend hsource = p at hplace ⊢
  rw [← hplace, String.pos?, String.Slice.pos?, dif_pos (by simp [p.isValid])]
  simp [String.Pos.ext_iff]

theorem stretch?_eq {u : List Char} (h : source.toList = s ++ t ++ u) :
    stretch? source (bytes s).length (bytes (s ++ t)).length = some (String.ofList t) := by
  obtain ⟨p, hp, hplace, hbefore⟩ := exists_pos? (List.append_assoc s t u ▸ h)
  obtain ⟨q, hq, hplace', hafter⟩ := exists_pos? h
  have hle : p ≤ q := by
    rw [String.Pos.le_iff, String.Pos.Raw.le_iff, hplace, hplace', bytes_append, List.length_append]
    exact Nat.le_add_right _ _
  simp only [stretch?, hp, hq, Option.bind_eq_bind, Option.bind_some, if_pos hle, Option.some_inj]
  rw [← String.toByteArray_inj]
  change source.toByteArray.extract p.offset.byteIdx q.offset.byteIdx = _
  have hsource : source = String.ofList s ++ (String.ofList t ++ String.ofList u) := by
    rw [← String.toList_inj, h]
    simp
  have hsize (s : List Char) : (String.ofList s).toByteArray.size = (bytes s).length := by
    rw [String.size_toByteArray, utf8ByteSize_ofList]
  rw [hplace, hplace', hsource, String.toByteArray_append, String.toByteArray_append,
    ByteArray.extract_append, hsize, Nat.sub_self, bytes_append, List.length_append,
    Nat.add_sub_cancel_left, ByteArray.extract_append_eq_left (hsize t).symm,
    ByteArray.extract_eq_empty_iff.mpr (by rw [hsize]; omega), ByteArray.empty_append]

theorem place_eatWhile {c : Cursor source} {run rest : List Char}
    (h : (bytes source.toList).drop c.place = run ++ rest) (hrun : ∀ b ∈ run, test b)
    (hrest : rest.head?.any test = false) :
    (c.eatWhile test).place = c.place + run.length := by
  induction run generalizing c with
  | nil =>
      have hstop : ∀ h : c.place < source.utf8ByteSize, ¬test c.current := by
        intro hlt
        rw [utf8ByteSize_eq] at hlt
        rw [List.nil_append, List.drop_eq_getElem_cons hlt] at h
        rw [← h] at hrest
        rw [Cursor.current, byteAt_eq, List.getElem?_eq_getElem hlt]
        exact Bool.eq_false_iff.mp hrest
      rw [Cursor.eatWhile]
      split
      · next hlt => rw [if_neg (hstop hlt)]; rfl
      · rfl
  | cons b run ih =>
      have hlt : c.place < (bytes source.toList).length := by
        refine Nat.lt_of_not_le fun hle => ?_
        rw [List.drop_eq_nil_of_le hle] at h
        cases h
      rw [List.drop_eq_getElem_cons hlt] at h
      obtain ⟨hb, hnext⟩ := List.cons.inj h
      have hcurrent : c.current = b := by
        rw [Cursor.current, byteAt_eq, List.getElem?_eq_getElem hlt, ← hb]
        rfl
      rw [Cursor.eatWhile, dif_pos (utf8ByteSize_eq source ▸ hlt), hcurrent,
        if_pos (hrun b List.mem_cons_self),
        ih (c := ⟨c.place + 1, _⟩) hnext fun b hb => hrun b (List.mem_cons_of_mem _ hb)]
      exact (Nat.add_assoc _ _ _).trans (congrArg _ (Nat.add_comm _ _))

/-- The cursor stands behind one text and in front of the other. -/
structure Cursor.Stands (c : Cursor source) (before after : List Char) : Prop where
  text : source.toList = before ++ after
  place : c.place = (bytes before).length

namespace Cursor.Stands

variable {c : Cursor source} {before mid after : List Char} {a : Char}

theorem drop_bytes (h : c.Stands before after) (n : Nat) :
    (bytes source.toList).drop (c.place + n) = (bytes after).drop n := by
  rw [h.text, h.place, bytes_append, List.drop_append, List.drop_eq_nil_of_le (by omega),
    List.nil_append, Nat.add_sub_cancel_left]

theorem byteAt (h : c.Stands before after) (n : Nat) :
    byteAt source (c.place + n) = (bytes after)[n]?.getD '\x00' := by
  rw [byteAt_eq, ← Nat.add_zero n, ← Nat.add_assoc, ← List.getElem?_drop, h.drop_bytes,
    List.getElem?_drop]

theorem lt_size_iff (h : c.Stands before after) (n : Nat) :
    c.place + n < source.utf8ByteSize ↔ n < (bytes after).length := by
  rw [utf8ByteSize_eq, h.text, h.place, bytes_append, List.length_append]
  omega

theorem isEof (h : c.Stands before after) : c.isEof = after.isEmpty := by
  have hsize := h.lt_size_iff 0
  rw [Bool.eq_iff_iff, Cursor.isEof, decide_eq_true_eq, List.isEmpty_iff, ← bytes_eq_nil_iff,
    ← List.length_eq_zero_iff]
  omega

theorem move {d : Cursor source} (h : c.Stands before (mid ++ after))
    (hd : d.place = c.place + (bytes mid).length) : d.Stands (before ++ mid) after where
  text := by rw [h.text, List.append_assoc]
  place := by rw [hd, h.place, bytes_append, List.length_append]

theorem place_lt {d : Cursor source} {rest : List Char} (h : c.Stands before after)
    (hd : d.Stands (before ++ mid) rest) (hmid : mid ≠ []) : c.place < d.place := by
  have hbytes := List.length_pos_iff.mpr (mt bytes_eq_nil_iff.mp hmid)
  rw [h.place, hd.place, bytes_append, List.length_append]
  omega

theorem current (h : c.Stands before after) :
    c.current = (bytes after).head?.getD '\x00' := by
  rw [Cursor.current, ← Nat.add_zero c.place, h.byteAt, List.head?_eq_getElem?]

theorem test_current (h : c.Stands before after) (hplain : Plain test)
    (hend : test '\x00' = false) :
    test c.current = after.head?.any test := by
  rw [h.current, ← hplain.head?]
  cases (bytes after).head? with
  | none => exact hend
  | some d => rfl

theorem current_of_lt (h : c.Stands before (a :: after)) (ha : a.toNat < 128) : c.current = a := by
  rw [h.current, bytes_cons_of_lt ha]
  rfl

theorem le_current (h : c.Stands before (a :: after)) (ha : 128 ≤ a.toNat) :
    128 ≤ c.current.toNat := by
  obtain ⟨d, ds, hd⟩ := exists_bytes_eq_cons a
  have hmem : d ∈ bytes [a] := hd ▸ List.mem_cons_self
  rw [h.current, bytes_cons, hd]
  exact le_of_mem_bytes ha hmem

theorem peek (h : c.Stands before (a :: after)) (ha : a.toNat < 128) :
    c.peek = (bytes after).head?.getD '\x00' := by
  rw [Cursor.peek, h.byteAt, bytes_cons_of_lt ha, List.getElem?_cons_succ, List.head?_eq_getElem?]

theorem point_current (h : c.Stands before after) :
    (c.current = '.' && isDigit c.peek) = !(fractionOf after).isEmpty := by
  have hpoint := h.test_current (plain_eq (c := '.') (by decide)) (by decide)
  rw [hpoint]
  cases after with
  | nil => rfl
  | cons a after =>
      by_cases ha : a = '.'
      · subst ha
        have hpeek : isDigit c.peek = after.head?.any isDigit := by
          rw [h.peek (by decide), ← plain_isDigit.head?]
          cases (bytes after).head? <;> rfl
        have hempty : (after.takeWhile isDigit).isEmpty = !after.head?.any isDigit := by
          rw [Bool.eq_iff_iff, List.isEmpty_iff, takeWhile_eq_nil_iff, Bool.not_eq_true']
        rw [hpeek, fractionOf, hempty, Bool.not_not]
        rfl
      · have hnone : fractionOf (a :: after) = [] := by
          rw [fractionOf]
          rintro rest ⟨⟩
          exact ha rfl
        simp [hnone, ha]

/-! ## Moves -/


theorem advance? (h : c.Stands before (a :: after)) (ha : a.toNat < 128) :
    ∃ d, c.advance? = some d ∧ d.Stands (before ++ [a]) after := by
  have hlt : c.place < source.utf8ByteSize :=
    (h.lt_size_iff 0).mpr (by rw [bytes_cons_of_lt ha]; exact Nat.succ_pos _)
  refine ⟨⟨c.place + 1, hlt⟩, ?_, ?_⟩
  · rw [Cursor.advance?, h.current_of_lt ha, if_neg (Nat.not_le_of_lt ha), dif_pos hlt]
  · refine move (show c.Stands before ([a] ++ after) from h) ?_
    rw [bytes_singleton ha]
    rfl

theorem advanceChar? (h : c.Stands before (a :: after)) :
    ∃ d, c.advanceChar? = some (some a, d) ∧ d.Stands (before ++ [a]) after := by
  obtain ⟨p, hp, hplace, hsplits⟩ := exists_pos? h.text
  have hne : p ≠ source.endPos := fun hend => by
    simpa using hsplits.eq_endPos_iff.mp hend
  obtain ⟨rest, hrest⟩ := hsplits.exists_eq_singleton_append hne
  rw [hrest] at hsplits
  have hget : p.get hne = a := by
    have htext := congrArg String.toList hrest
    simp at htext
    exact htext.1.symm
  have hnext := congrArg String.Pos.Raw.byteIdx hsplits.next.offset_eq_rawEndPos
  refine ⟨⟨(p.next hne).offset.byteIdx, (p.next hne).isValid.le_rawEndPos⟩, ?_, ?_⟩
  · rw [← h.place] at hp
    simp [Cursor.advanceChar?, hp, hne, hget]
  · refine move (show c.Stands before ([a] ++ after) from h) (hnext.trans ?_)
    rw [hget, String.byteIdx_rawEndPos, utf8ByteSize_eq, h.place]
    simp

theorem advanceChar?_end (h : c.Stands before []) : c.advanceChar? = some (none, c) := by
  obtain ⟨p, hp, -, hsplits⟩ := exists_pos? h.text
  have hend : p = source.endPos := hsplits.eq_endPos_iff.mpr rfl
  rw [← h.place] at hp
  simp [Cursor.advanceChar?, hp, hend]

theorem eat?_some (h : c.Stands before (a :: after)) (ha : a.toNat < 128) :
    ∃ d, c.eat? a = some d ∧ d.Stands (before ++ [a]) after := by
  have hlt : c.place < source.utf8ByteSize :=
    (h.lt_size_iff 0).mpr (by rw [bytes_cons_of_lt ha]; exact Nat.succ_pos _)
  refine ⟨⟨c.place + 1, hlt⟩, ?_, ?_⟩
  · rw [Cursor.eat?, dif_pos hlt, h.current_of_lt ha, if_pos rfl]
  · refine move (show c.Stands before ([a] ++ after) from h) ?_
    rw [bytes_singleton ha]
    rfl

theorem eat?_none (h : c.Stands before after) (ha : a.toNat < 128)
    (hafter : after.head? ≠ some a) : c.eat? a = none := by
  rw [Cursor.eat?]
  split
  · next hlt =>
      refine if_neg fun hcurrent => ?_
      cases after with
      | nil =>
          have hend := (h.lt_size_iff 0).mp hlt
          simp at hend
      | cons b after =>
          by_cases hb : b.toNat < 128
          · rw [h.current_of_lt hb] at hcurrent
            exact hafter (by rw [List.head?_cons, hcurrent])
          · have hlong := h.le_current (Nat.le_of_not_lt hb)
            rw [hcurrent] at hlong
            omega
  · rfl

theorem eatWhile (h : c.Stands before (mid ++ after)) (hplain : Plain test)
    (hmid : ∀ b ∈ mid, test b) (hafter : after.takeWhile test = []) :
    (c.eatWhile test).Stands (before ++ mid) after := by
  refine h.move ?_
  have hrest := h.drop_bytes 0
  rw [bytes_append, List.drop_zero, Nat.add_zero] at hrest
  refine place_eatWhile hrest (hplain.of_forall hmid) ?_
  rw [hplain.head?]
  exact takeWhile_eq_nil_iff.mp hafter

theorem rewind? {d : Cursor source} {following : List Char} (h : c.Stands before after)
    (hd : d.Stands (before ++ mid) following) :
    ∃ e, d.rewind? c.place = some e ∧ e.Stands before after := by
  have hle : c.place ≤ d.place := by
    rw [hd.place, h.place, bytes_append, List.length_append]
    exact Nat.le_add_right _ _
  exact ⟨⟨c.place, c.place_le⟩, dif_pos hle, h.text, h.place⟩

theorem jump (h : c.Stands before (mid ++ after)) :
    (c.jump (bytes mid).length).Stands (before ++ mid) after := by
  refine h.move (Nat.min_eq_left ?_)
  rw [utf8ByteSize_eq, h.text, h.place, bytes_append, bytes_append, List.length_append,
    List.length_append]
  omega

theorem size_sub_place (h : c.Stands before after) :
    source.utf8ByteSize - c.place = (bytes after).length := by
  rw [utf8ByteSize_eq, h.text, h.place, bytes_append, List.length_append, Nat.add_sub_cancel_left]

theorem skip (h : c.Stands before (mid ++ after)) :
    (c.skip (bytes mid).length).1 = newlines mid ∧
      (c.skip (bytes mid).length).2.Stands (before ++ mid) after := by
  refine ⟨?_, h.jump⟩
  have hstop : (c.jump (bytes mid).length).place - c.place = (bytes mid).length := by
    rw [h.jump.place, h.place, bytes_append, List.length_append, Nat.add_sub_cancel_left]
  have hdrop := h.drop_bytes 0
  rw [Nat.add_zero, List.drop_zero, ← data_toByteArray, bytes_append, ← List.map_drop] at hdrop
  have hmid : ((source.toByteArray.data.toList.drop c.place).take (bytes mid).length).map
      Char.ofUInt8 = bytes mid := by
    rw [List.map_take, hdrop, List.take_left]
  have hcount := List.count_map_of_injective
    ((source.toByteArray.data.toList.drop c.place).take (bytes mid).length) _ ofUInt8_injective 10
  rw [hmid] at hcount
  rw [Cursor.skip, ← count_bytes]
  refine Eq.trans ?_ hcount.symm
  rw [ByteArray.data_extract, ← Array.count_toList, Array.toList_extract,
    List.extract_eq_take_drop, hstop]

theorem skipToEnd (h : c.Stands before after) :
    c.skipToEnd.1 = newlines after ∧ c.skipToEnd.2.Stands (before ++ after) [] := by
  rw [Cursor.skipToEnd, h.size_sub_place]
  rw [← List.append_nil after] at h
  exact h.skip

/-! ## Searches -/

theorem find?_none (h : c.Stands before after) (hplain : Plain test)
    (hafter : ∀ b ∈ after, test b = false) : c.find? test = none := by
  refine Option.map_eq_none_iff.mpr (firstFrom?_eq_none fun j hj hlt => ?_)
  obtain ⟨n, rfl⟩ := Nat.exists_eq_add_of_le hj
  have hn := (h.lt_size_iff n).mp hlt
  rw [h.byteAt, List.getElem?_eq_getElem hn]
  exact hplain.of_forall hafter _ (List.getElem_mem hn)

theorem find?_some (h : c.Stands before (mid ++ a :: after)) (hplain : Plain test)
    (hmid : ∀ b ∈ mid, test b = false) (ha : test a) : c.find? test = some (bytes mid).length := by
  have hbyte : ∀ n < (bytes mid).length, test (Source.byteAt source (c.place + n)) = false := by
    intro n hn
    rw [h.byteAt, bytes_append, List.getElem?_append_left hn, List.getElem?_eq_getElem hn]
    exact hplain.of_forall hmid _ (List.getElem_mem hn)
  obtain ⟨d, ds, hd⟩ := exists_bytes_eq_cons a
  have hfound : firstFrom? source (fun i => test (Source.byteAt source i)) c.place =
      some (c.place + (bytes mid).length) := by
    refine firstFrom?_eq_some (Nat.le_add_right _ _) ?_ ?_ ?_
    · rw [h.lt_size_iff, bytes_append, bytes_cons, hd]
      simp
    · rw [h.byteAt, bytes_append, bytes_cons, hd, List.getElem?_append_right (Nat.le_refl _)]
      simpa using (hplain.of_mem_bytes (hd ▸ List.mem_cons_self)).trans ha
    · intro k hk hlt
      obtain ⟨n, rfl⟩ := Nat.exists_eq_add_of_le hk
      exact hbyte n (by omega)
  rw [Cursor.find?, hfound, Option.map_some, Nat.add_sub_cancel_left]

variable {word : List Char}

/-- Where a word of the language stands among the bytes, it stands between two characters. -/
theorem wordAt_iff (h : c.Stands before after) (hword : ∀ w ∈ word, w.toNat < 128) (hne : word ≠ [])
    (n : Nat) : wordAt source word (c.place + n) ↔
      ∃ s t, after = s ++ t ∧ n = (bytes s).length ∧ word <+: t := by
  rw [wordAt_eq, h.drop_bytes, List.isPrefixOf_iff_prefix]
  constructor
  · intro hopens
    rcases Source.drop_bytes after n with ⟨s, t, rfl, rfl⟩ | ⟨d, ds, hd, hlong⟩ | hlong
    · rw [bytes_append, List.drop_left, isPrefixOf_bytes hword] at hopens
      exact ⟨s, t, rfl, rfl, hopens⟩
    · obtain ⟨w, word, rfl⟩ := List.exists_cons_of_ne_nil hne
      rw [hd, List.cons_prefix_cons] at hopens
      have hw := hword w List.mem_cons_self
      rw [hopens.1] at hw
      omega
    · rw [List.drop_eq_nil_of_le (Nat.le_of_lt hlong), List.prefix_nil] at hopens
      exact absurd hopens hne
  · rintro ⟨s, t, rfl, rfl, hopens⟩
    rw [bytes_append, List.drop_left, isPrefixOf_bytes hword]
    exact hopens

theorem findWord?_none (h : c.Stands before after) (hword : ∀ w ∈ word, w.toNat < 128)
    (hne : word ≠ []) (hafter : ∀ s t, after = s ++ t → ¬word <+: t) :
    c.findWord? word = none := by
  refine Option.map_eq_none_iff.mpr (firstFrom?_eq_none fun j hj _ => ?_)
  obtain ⟨n, rfl⟩ := Nat.exists_eq_add_of_le hj
  refine Bool.eq_false_iff.mpr fun hat => ?_
  obtain ⟨s, t, heq, -, hopens⟩ := (h.wordAt_iff hword hne n).mp hat
  exact hafter s t heq hopens

theorem findWord?_some (h : c.Stands before (mid ++ word ++ after))
    (hword : ∀ w ∈ word, w.toNat < 128) (hne : word ≠ [])
    (hfirst : ∀ s t, mid ++ word ++ after = s ++ t → s.length < mid.length → ¬word <+: t) :
    c.findWord? word = some (bytes mid).length := by
  have hfound : firstFrom? source (wordAt source word) c.place =
      some (c.place + (bytes mid).length) := by
    refine firstFrom?_eq_some (Nat.le_add_right _ _) ?_ ?_ ?_
    · rw [h.lt_size_iff, bytes_append, bytes_append]
      have hlength := List.length_pos_iff.mpr (mt bytes_eq_nil_iff.mp hne)
      simp only [List.length_append]
      omega
    · exact (h.wordAt_iff hword hne _).mpr
        ⟨mid, word ++ after, List.append_assoc .., rfl, List.prefix_append ..⟩
    · intro k hk hlt
      obtain ⟨n, rfl⟩ := Nat.exists_eq_add_of_le hk
      refine Bool.eq_false_iff.mpr fun hat => ?_
      obtain ⟨s, t, heq, rfl, hopens⟩ := (h.wordAt_iff hword hne n).mp hat
      refine hfirst s t heq (Nat.lt_of_not_le fun hle => ?_) hopens
      -- what is longer has more bytes
      have hmid : mid <+: s := by
        refine List.prefix_of_prefix_length_le ?_ ⟨t, heq.symm⟩ hle
        exact ⟨word ++ after, by rw [List.append_assoc]⟩
      obtain ⟨s, rfl⟩ := hmid
      rw [bytes_append, List.length_append] at hlt
      omega
  rw [Cursor.findWord?, hfound, Option.map_some, Nat.add_sub_cancel_left]

theorem skipToNewline (h : c.Stands before (mid ++ after)) (hmid : '\n' ∉ mid)
    (hafter : after.takeWhile (· ≠ '\n') = []) :
    c.skipToNewline.Stands (before ++ mid) after := by
  have hplain : Plain (· = '\n') := plain_eq (by decide)
  have hnot : ∀ b ∈ mid, decide (b = '\n') = false := by
    intro b hb
    refine decide_eq_false ?_
    rintro rfl
    exact hmid hb
  rw [Cursor.skipToNewline]
  cases after with
  | nil =>
      rw [List.append_nil] at h
      rw [h.find?_none hplain hnot, Option.getD_none, h.size_sub_place]
      rw [← List.append_nil mid] at h
      exact h.jump
  | cons b after =>
      obtain rfl : b = '\n' := by simpa using takeWhile_eq_nil_iff.mp hafter
      rw [h.find?_some hplain hnot (by rfl), Option.getD_some]
      exact h.jump

/-! ## Stretches -/

theorem sliceFrom? {d : Cursor source} (h : c.Stands before (mid ++ after))
    (hd : d.Stands (before ++ mid) after) : d.sliceFrom? c.place = some (String.ofList mid) := by
  rw [Cursor.sliceFrom?, h.place, hd.place]
  exact stretch?_eq hd.text

end Cursor.Stands

theorem stretch?_body (body : List Char) {quote : Char} (hquote : quote.toNat < 128) :
    stretch? (String.ofList (quote :: body ++ [quote])) 1
      ((String.ofList (quote :: body ++ [quote])).utf8ByteSize - 1) =
        some (String.ofList body) := by
  have htext : (String.ofList (quote :: body ++ [quote])).toList = [quote] ++ body ++ [quote] := by
    rw [String.toList_ofList]
    rfl
  have hbody := stretch?_eq htext
  rw [utf8ByteSize_ofList, bytes_append, bytes_singleton hquote, List.length_append]
  rw [bytes_singleton hquote] at hbody
  exact hbody

end Scriptlet.Source
