import Scriptlet.Proofs.Grammar.Advance

/-!
# Reading without an error

A construct is read cleanly when it is read and puts no error on record.  Every part of a construct
that is read cleanly is read cleanly itself, and the tokens it takes are exactly those it was left
to stand in front of.  Each parser for single tokens, and each way of putting parsers together, has
one lemma for what a clean reading says and one for when there is such a reading.
-/

namespace Scriptlet.Grammar

namespace Reading

def before (r : Reading) : List Token → Reading
  | [] => r
  | t :: ts => ⟨t, ts ++ r.tokens, r.errors⟩

def Closed (r : Reading) : Prop :=
  ∃ last, r.tokens.getLast? = some last ∧ last.kind = .eof

variable {r r' : Reading} {t : Token} {ts us : List Token}

@[simp] theorem before_nil (r : Reading) : r.before [] = r := rfl

@[simp] theorem current_before_cons (r : Reading) (t : Token) (ts : List Token) :
    (r.before (t :: ts)).current = t := rfl

@[simp] theorem errors_before (r : Reading) (ts : List Token) :
    (r.before ts).errors = r.errors := by
  cases ts <;> rfl

@[simp] theorem tokens_before (r : Reading) (ts : List Token) :
    (r.before ts).tokens = ts ++ r.tokens := by
  cases ts <;> rfl

theorem before_append (r : Reading) (ts us : List Token) :
    r.before (ts ++ us) = (r.before us).before ts := by
  cases ts with
  | nil => rfl
  | cons t ts =>
      rw [List.cons_append, before, before, tokens_before, errors_before, List.append_assoc]

@[simp] theorem before_before (r : Reading) (ts us : List Token) :
    (r.before us).before ts = r.before (ts ++ us) :=
  (before_append r ts us).symm

theorem eq_before (htokens : r.tokens = ts ++ r'.tokens) (herrors : r.errors = r'.errors) :
    r = r'.before ts := by
  cases ts with
  | nil =>
      cases r
      cases r'
      simp_all [tokens]
  | cons t ts =>
      cases r
      simp_all [tokens, before]

@[simp] theorem closed_before : (r.before ts).Closed ↔ r.Closed := by
  rw [Closed, Closed, tokens_before]
  simp [tokens, List.getLast?_append]

theorem Closed.advance_eq (hr : r.Closed) (hkind : r.current.kind ≠ .eof) :
    r = r.advance.before [r.current] := by
  obtain ⟨last, hlast, hend⟩ := hr
  obtain ⟨current, ahead, errors⟩ := r
  cases ahead with
  | nil =>
      obtain rfl : current = last := by simpa [tokens] using hlast
      exact absurd hend hkind
  | cons next rest => simp [advance, before, tokens]

@[simp] theorem advance_before_cons (hkind : t.kind ≠ .eof) :
    (r.before (t :: ts)).advance = r.before ts := by
  cases ts <;> simp [before, advance, tokens]

theorem Closed.before (hr : r.Closed) (ts : List Token) : (r.before ts).Closed :=
  closed_before.mpr hr

theorem Closed.extends (hr : r.Closed) (h : r.Extends r') : r'.Closed := by
  obtain ⟨ts, hts, -⟩ := h.tokens
  obtain ⟨last, hlast, hend⟩ := hr
  refine ⟨last, ?_, hend⟩
  rw [hts] at hlast
  simpa [tokens, List.getLast?_append] using hlast

end Reading

/-- `x` is read from `r`, where an end mark comes last, with value `a` and without an error; `r'`
is left. -/
structure Reads {α : Type} (x : Parse α) (r : Reading) (a : α) (r' : Reading) : Prop where
  result : x r = .ok a r'
  clean : r'.errors = r.errors
  closed : r.Closed

namespace Reads

variable {α β : Type} {x : Parse α} {r r' r₁ : Reading} {a : α} {b : β}
variable {t token : Token} {ts us : List Token} {kind : Kind} {cause : Cause}

theorem closed_left [Advances x] (h : Reads x r a r') : r'.Closed :=
  h.closed.extends (Advances.of_ok h.result)

theorem eq_before [Advances x] (h : Reads x r a r') :
    ∃ ts, r = r'.before ts ∧ ∀ t ∈ ts, t.kind ≠ .eof := by
  obtain ⟨ts, hts, hends⟩ := (Advances.of_ok h.result).tokens
  exact ⟨ts, Reading.eq_before hts h.clean.symm, hends⟩

/-! ## Sequencing -/

theorem of_bind_of {f : α → Parse β} [hx : Advances x] (hf : ∀ a, Advances (f a))
    (h : Reads (x >>= f) r b r') : ∃ a r₁, Reads x r a r₁ ∧ Reads (f a) r₁ b r' := by
  have hresult := h.result
  cases hxr : x r with
  | error e r₁ => simp [Bind.bind, EStateM.bind, hxr] at hresult
  | ok a r₁ =>
      have hfr : f a r₁ = .ok b r' := by simpa [Bind.bind, EStateM.bind, hxr] using hresult
      have hfirst := hx.of_ok hxr
      have hsecond := (hf a).of_ok hfr
      -- errors only ever grow, so none are added in between if none are added in all
      have hbetween : r₁.errors = r.errors := by
        have hprefix := hsecond.errors
        rw [h.clean] at hprefix
        have hlists := hfirst.errors.eq_of_length_le hprefix.length_le
        exact (Array.toList_inj.mp hlists).symm
      exact ⟨a, r₁, ⟨hxr, hbetween, h.closed⟩,
        ⟨hfr, h.clean.trans hbetween.symm, h.closed.extends hfirst⟩⟩

theorem of_bind {f : α → Parse β} [Advances x] [∀ a, Advances (f a)]
    (h : Reads (x >>= f) r b r') : ∃ a r₁, Reads x r a r₁ ∧ Reads (f a) r₁ b r' :=
  of_bind_of inferInstance h

theorem bind {f : α → Parse β} (hx : Reads x r a r₁) (hf : Reads (f a) r₁ b r') :
    Reads (x >>= f) r b r' where
  result := by simp [Bind.bind, EStateM.bind, hx.result, hf.result]
  clean := hf.clean.trans hx.clean
  closed := hx.closed

theorem of_pure {a' : α} (h : Reads (Pure.pure a' : Parse α) r a r') : a = a' ∧ r' = r := by
  have hresult := h.result
  simp only [Pure.pure, EStateM.pure, EStateM.Result.ok.injEq] at hresult
  exact ⟨hresult.1.symm, hresult.2.symm⟩

theorem pure (hr : r.Closed) : Reads (Pure.pure a) r a r :=
  ⟨rfl, rfl, hr⟩

theorem of_map {f : α → β} [Advances x] (h : Reads (f <$> x) r b r') :
    ∃ a, Reads x r a r' ∧ b = f a := by
  rw [map_eq_pure_bind] at h
  obtain ⟨a, r₁, hx, hf⟩ := h.of_bind
  obtain ⟨rfl, rfl⟩ := hf.of_pure
  exact ⟨a, hx, rfl⟩

theorem map [Advances x] {f : α → β} (h : Reads x r a r') : Reads (f <$> x) r (f a) r' := by
  rw [map_eq_pure_bind]
  exact h.bind (.pure h.closed_left)

theorem of_throw {e : SyntaxError} (h : Reads (throw e : Parse α) r a r') : False := by
  cases h.result

theorem of_get {s : Reading} (h : Reads (get : Parse Reading) r s r') : s = r ∧ r' = r := by
  have hresult : EStateM.Result.ok r r = .ok s r' := h.result
  cases hresult
  exact ⟨rfl, rfl⟩

theorem of_modify {f : Reading → Reading} (h : Reads (modify f) r () r') : r' = f r := by
  have hresult : EStateM.Result.ok () (f r) = .ok () r' := h.result
  simpa using hresult.symm

theorem get (hr : r.Closed) : Reads (MonadState.get : Parse Reading) r r r :=
  ⟨rfl, rfl, hr⟩

/-! ## Single tokens -/

theorem of_current (h : Reads Grammar.current r t r') : t = r.current ∧ r' = r := by
  obtain ⟨s, r₁, hget, hpure⟩ := h.of_bind
  obtain ⟨rfl, rfl⟩ := hget.of_get
  exact hpure.of_pure

theorem current (hr : r.Closed) : Reads Grammar.current r r.current r :=
  (get hr).bind (.pure hr)

theorem of_currentKind (h : Reads currentKind r kind r') : kind = r.current.kind ∧ r' = r := by
  obtain ⟨s, r₁, hget, hpure⟩ := h.of_bind
  obtain ⟨rfl, rfl⟩ := hget.of_get
  exact hpure.of_pure

theorem currentKind (hr : r.Closed) : Reads Grammar.currentKind r r.current.kind r :=
  (get hr).bind (.pure hr)

theorem of_advance (h : Reads Grammar.advance r t r') (hkind : r.current.kind ≠ .eof) :
    r = r'.before [t] := by
  obtain ⟨s, r₁, hcurrent, hrest⟩ := h.of_bind
  obtain ⟨rfl, rfl⟩ := hcurrent.of_current
  obtain ⟨⟨⟩, r₂, hmodify, hpure⟩ := hrest.of_bind
  obtain ⟨rfl, rfl⟩ := hpure.of_pure
  exact hmodify.of_modify ▸ h.closed.advance_eq hkind

theorem advance (hr : r.Closed) (hkind : t.kind ≠ .eof) :
    Reads Grammar.advance (r.before (t :: ts)) t (r.before ts) := by
  refine ⟨?_, by simp, by simpa using hr⟩
  have hadvance : (r.before (t :: ts)).advance = r.before ts := Reading.advance_before_cons hkind
  rw [← hadvance]
  rfl

theorem of_fail (h : Reads (fail cause : Parse α) r a r') : False := by
  obtain ⟨s, r₁, -, hthrow⟩ := h.of_bind
  exact hthrow.of_throw

theorem of_report (h : Reads (report token cause) r () r') : False := by
  have hrecord := h.of_modify
  have hclean := congrArg Array.size h.clean
  simp [hrecord, Reading.record] at hclean

theorem of_eat {found : Bool} (h : Reads (eat kind) r found r') (hkind : kind ≠ .eof) :
    (found = true ∧ ∃ t, t.kind = kind ∧ r = r'.before [t]) ∨
      (found = false ∧ r.current.kind ≠ kind ∧ r' = r) := by
  obtain ⟨_, r₁, hcurrent, hrest⟩ := h.of_bind
  obtain ⟨rfl, rfl⟩ := hcurrent.of_currentKind
  split at hrest
  · next hfound =>
      obtain ⟨t, r₂, hadvance, hpure⟩ := hrest.of_bind
      obtain ⟨rfl, rfl⟩ := hpure.of_pure
      obtain rfl := hadvance.of_advance (hfound ▸ hkind)
      exact .inl ⟨rfl, t, hfound, rfl⟩
  · next hother =>
      obtain ⟨rfl, rfl⟩ := hrest.of_pure
      exact .inr ⟨rfl, hother, rfl⟩

theorem eat (hr : r.Closed) (hkind : t.kind = kind) (hend : kind ≠ .eof) :
    Reads (Grammar.eat kind) (r.before (t :: ts)) true (r.before ts) := by
  have hclosed := hr.before (t :: ts)
  refine (currentKind hclosed).bind ?_
  rw [if_pos (by simpa using hkind)]
  exact (advance hr (hkind ▸ hend)).bind (.pure (hr.before _))

theorem eat_other (hr : r.Closed) (hkind : r.current.kind ≠ kind) :
    Reads (Grammar.eat kind) r false r := by
  refine (currentKind hr).bind ?_
  rw [if_neg hkind]
  exact .pure hr

theorem of_expect (h : Reads (expect kind cause) r t r') (hkind : kind ≠ .eof) :
    t.kind = kind ∧ r = r'.before [t] := by
  obtain ⟨_, r₁, hcurrent, hrest⟩ := h.of_bind
  obtain ⟨rfl, rfl⟩ := hcurrent.of_currentKind
  split at hrest
  · next hfound =>
      obtain rfl := hrest.of_advance (hfound ▸ hkind)
      exact ⟨hfound, rfl⟩
  · exact hrest.of_fail.elim

theorem expect (hr : r.Closed) (hkind : t.kind = kind) (hend : kind ≠ .eof) :
    Reads (Grammar.expect kind cause) (r.before (t :: ts)) t (r.before ts) := by
  have hclosed := hr.before (t :: ts)
  refine (currentKind hclosed).bind ?_
  rw [if_pos (by simpa using hkind)]
  exact advance hr (hkind ▸ hend)

/-! ## Separators -/

private theorem pastSeparators_closed (current : Token) (ahead : List Token)
    (hclosed : ∃ last, (current :: ahead).getLast? = some last ∧ last.kind = .eof) :
    ∃ seps, (∀ t ∈ seps, t.kind.isSeparator) ∧
      current :: ahead = seps ++ (Reading.pastSeparators current ahead).1 ::
        (Reading.pastSeparators current ahead).2 ∧
      (Reading.pastSeparators current ahead).1.kind.isSeparator = false := by
  induction ahead generalizing current with
  | nil =>
      obtain ⟨last, hlast, hend⟩ := hclosed
      obtain rfl : current = last := by simpa using hlast
      refine ⟨[], by simp, rfl, ?_⟩
      change current.kind.isSeparator = false
      rw [hend]
      rfl
  | cons next rest ih =>
      rw [Reading.pastSeparators]
      split
      · next hsep =>
          obtain ⟨seps, hseps, htokens, hstop⟩ := ih next (by simpa using hclosed)
          exact ⟨current :: seps, by simpa [hsep] using hseps, by rw [htokens]; rfl, hstop⟩
      · next hstop => exact ⟨[], by simp, rfl, by simpa using hstop⟩

theorem of_skipSeparators (h : Reads skipSeparators r () r') :
    ∃ seps, (∀ t ∈ seps, t.kind.isSeparator) ∧ r = r'.before seps ∧
      r'.current.kind.isSeparator = false := by
  have hskip := h.of_modify
  obtain ⟨seps, hseps, htokens, hstop⟩ := pastSeparators_closed r.current r.ahead h.closed
  subst hskip
  exact ⟨seps, hseps, Reading.eq_before htokens rfl, hstop⟩

private theorem pastSeparators_append (seps : List Token) (t : Token) (ts : List Token)
    (hseps : ∀ t ∈ seps, t.kind.isSeparator) (ht : t.kind.isSeparator = false) (s : Token)
    (hs : s.kind.isSeparator) :
    Reading.pastSeparators s (seps ++ t :: ts) = (t, ts) := by
  induction seps generalizing s with
  | nil =>
      cases ts <;> simp [Reading.pastSeparators, hs, ht]
  | cons next rest ih =>
      simp only [List.cons_append, Reading.pastSeparators, hs, if_true]
      exact ih (fun t ht => hseps t (by simp [ht])) next (hseps next (by simp))

theorem skipSeparators {seps : List Token} (hr : r.Closed)
    (hseps : ∀ t ∈ seps, t.kind.isSeparator) (hstop : r.current.kind.isSeparator = false) :
    Reads Grammar.skipSeparators (r.before seps) () r := by
  refine ⟨?_, by simp, by simpa using hr⟩
  have hskip : (r.before seps).skipSeparators = r := by
    cases seps with
    | nil =>
        obtain ⟨current, ahead, errors⟩ := r
        cases ahead with
        | nil => rfl
        | cons next rest =>
            have hstop : current.kind.isSeparator = false := hstop
            simp [Reading.skipSeparators, Reading.pastSeparators, hstop]
    | cons s seps =>
        have hpast := pastSeparators_append seps r.current r.ahead
          (fun t ht => hseps t (by simp [ht])) hstop s (hseps s (by simp))
        simp [Reading.skipSeparators, Reading.before, Reading.tokens, hpast]
  exact congrArg (EStateM.Result.ok ()) hskip

/-! ## Repetition and nesting -/

theorem of_rounds {step : α → Parse (Round α β)} [∀ a, Advances (step a)]
    {P : α → Reading → Prop} {limit : Nat}
    (h : Reads (rounds step limit a) r b r')
    (done : ∀ a r, Reads (step a) r (.done b) r' → P a r)
    (again : ∀ a r a' r₁, Reads (step a) r (.again a') r₁ → P a' r₁ → P a r) : P a r := by
  induction limit generalizing a r with
  | zero => exact h.of_fail.elim
  | succ limit ih =>
      rw [rounds] at h
      obtain ⟨round, r₁, hstep, hrest⟩ := h.of_bind_of fun round => by
        cases round <;> infer_instance
      cases round with
      | again a' => exact again a r a' r₁ hstep (ih hrest)
      | done b' =>
          obtain ⟨rfl, rfl⟩ := hrest.of_pure
          exact done a r hstep

theorem rounds_again {step : α → Parse (Round α β)} {a' : α} {limit : Nat}
    (hstep : Reads (step a) r (.again a') r₁) (hrest : Reads (rounds step limit a') r₁ b r') :
    Reads (rounds step (limit + 1) a) r b r' :=
  hstep.bind hrest

theorem rounds_done {step : α → Parse (Round α β)} {limit : Nat} (hlimit : 0 < limit)
    (hstep : Reads (step a) r (.done b) r') (hclosed : r'.Closed) :
    Reads (rounds step limit a) r b r' := by
  obtain ⟨limit, rfl⟩ := Nat.exists_eq_succ_of_ne_zero (Nat.pos_iff_ne_zero.mp hlimit)
  exact hstep.bind (.pure hclosed)

/-- A repetition comes to its end if every round but the last leads to one with fewer rounds to
go. -/
theorem rounds {step : α → Parse (Round α β)} {limit n : Nat} (P : Nat → α → Reading → Prop)
    (h : P n a r) (hlimit : n < limit) (hclosed : r'.Closed)
    (done : ∀ a r, P 0 a r → Reads (step a) r (.done b) r')
    (again : ∀ n a r, P (n + 1) a r → ∃ a' r₁, Reads (step a) r (.again a') r₁ ∧ P n a' r₁) :
    Reads (Grammar.rounds step limit a) r b r' := by
  induction n generalizing limit a r with
  | zero => exact rounds_done hlimit (done a r h) hclosed
  | succ n ih =>
      obtain ⟨limit, rfl⟩ := Nat.exists_eq_succ_of_ne_zero (Nat.ne_of_gt (Nat.zero_lt_of_lt hlimit))
      obtain ⟨a', r₁, hstep, hrest⟩ := again n a r h
      exact rounds_again hstep (ih hrest (Nat.lt_of_succ_lt_succ hlimit))

theorem of_nested {body : Parse α → Parse α} {P : Reading → α → Reading → Prop} {limit : Nat}
    (hbody : ∀ x, Advances x → Advances (body x)) (h : Reads (nested body limit) r a r')
    (step : ∀ x [Advances x], (∀ r a r', Reads x r a r' → P r a r') →
      ∀ r a r', Reads (body x) r a r' → P r a r') : P r a r' := by
  induction limit generalizing r a r' with
  | zero => exact h.of_fail.elim
  | succ limit ih =>
      have hinner := Advances.nested hbody limit
      exact step (nested body limit) (fun r a r' h => ih h) r a r'
        ⟨h.result, h.clean, h.closed⟩

theorem nested {body : Parse α → Parse α} {limit : Nat}
    (h : Reads (body (Grammar.nested body limit)) r a r') :
    Reads (Grammar.nested body (limit + 1)) r a r' :=
  ⟨h.result, h.clean, h.closed⟩

end Reads

end Scriptlet.Grammar
