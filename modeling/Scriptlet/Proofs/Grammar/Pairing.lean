import Mathlib.Data.List.Forall2
import Scriptlet.Proofs.Grammar.Advance
import Scriptlet.Proofs.Tree.Renumber

/-!
# Two readings side by side

Two token lists that correspond token by token, up to an end mark of the first, are read in step.
Tokens correspond that differ in their line only, and a newline may stand for a semicolon.  At the
end mark the second list either has its end mark too, or it goes on: the two are then apart, and
their readings agree unless the first one misses something at its end mark.

Agreement of two parsers is a relation on their runs from corresponding readings.  It is kept by
sequencing, repetition and nesting, and the numbers that bound repetition and nesting do not matter
as long as they are not smaller than the number of tokens to come.
-/

namespace Scriptlet

def Kind.isWord (k : Kind) : Bool :=
  !k.isSeparator && k != .eof

theorem Kind.ne_eof_of_isWord {k : Kind} (h : k.isWord) : k ≠ .eof := by
  rintro rfl
  exact absurd h (by decide)

theorem Kind.not_separator_of_isWord {k : Kind} (h : k.isWord) : ¬k.isSeparator := by
  intro hsep
  simp [Kind.isWord, hsep] at h

theorem Kind.isSeparator_iff {k : Kind} : k.isSeparator ↔ k = .newline ∨ k = .semicolon := by
  simp [Kind.isSeparator]

namespace Grammar

/-- How the tokens and the errors of two readings correspond.  The first reading ends at `last`,
where the second goes on with `after`. -/
structure Pairing where
  line : Nat → Nat
  same : Token → Token → Prop
  last : Token
  rest : List Token
  after : List Token
  before : List SyntaxError
  apart : Prop
  same_renumber : ∀ t, same t (t.renumber line)
  of_same : ∀ {t t'}, same t t' →
    t' = t.renumber line ∨ t.kind.isSeparator ∧ t'.kind.isSeparator
  kind_last : last.kind = .eof
  exists_after : ∃ next more, after = next :: more ∧ (¬apart → same last next)

namespace Pairing

variable {P : Pairing} {n m : Nat} {r r' r₁ r₁' : Reading} {t t' : Token} {ts ts' : List Token}

/-! ## Corresponding readings -/

theorem last_not_separator (P : Pairing) : ¬P.last.kind.isSeparator := by
  rw [P.kind_last]
  decide

theorem of_same_of_not_separator (h : P.same t t') (hsep : ¬t.kind.isSeparator) :
    t' = t.renumber P.line :=
  (P.of_same h).resolve_right fun hseps => hsep hseps.1

theorem isSeparator_of_same (h : P.same t t') : t'.kind.isSeparator = t.kind.isSeparator := by
  rcases P.of_same h with rfl | ⟨hsep, hsep'⟩
  · rfl
  · rw [hsep, hsep']

/-- The tokens to come, as far as the end mark of the first list.  Lists that part at the end mark
part right after a separator. -/
inductive Abreast (P : Pairing) : List Token → List Token → Prop where
  | last (happart : ¬P.apart) : Abreast P (P.last :: P.rest) P.after
  | border {t t' : Token} (happart : P.apart) (hsame : P.same t t') (hsep : t.kind.isSeparator) :
      Abreast P (t :: P.last :: P.rest) (t' :: P.after)
  | cons {t t' : Token} {ts ts' : List Token} (hsame : P.same t t') (hkind : t.kind ≠ .eof)
      (htail : Abreast P ts ts') : Abreast P (t :: ts) (t' :: ts')

structure SameError (P : Pairing) (e e' : SyntaxError) : Prop where
  token : P.same e.token e'.token
  cause : e'.cause = e.cause.renumber P.line
  not_cut : e.cause ≠ .outOfFuel

def SameErrors (P : Pairing) (r r' : Reading) : Prop :=
  ∃ es, r'.errors.toList = P.before ++ es ∧ List.Forall₂ P.SameError r.errors.toList es

structure Inside (P : Pairing) (n : Nat) (r r' : Reading) : Prop where
  tokens : P.Abreast r.tokens r'.tokens
  errors : P.SameErrors r r'
  bound : r.tokens.length ≤ n + P.rest.length

structure AtBorder (P : Pairing) (n : Nat) (r r' : Reading) : Prop where
  apart : P.apart
  tokens : r.tokens = P.last :: P.rest
  after : r'.tokens = P.after
  errors : P.SameErrors r r'
  bound : r.tokens.length ≤ n + P.rest.length

def Between (P : Pairing) (n : Nat) (r r' : Reading) : Prop :=
  P.Inside n r r' ∨ P.AtBorder n r r'

theorem Abreast.length_lt (h : P.Abreast ts ts') : P.rest.length < ts.length := by
  induction h with
  | last happart => simp
  | border happart hsame hsep =>
      rw [List.length_cons, List.length_cons]
      omega
  | cons hsame hkind htail ih =>
      rw [List.length_cons]
      omega

theorem after_ne_nil (P : Pairing) : P.after ≠ [] := by
  obtain ⟨next, more, hafter, -⟩ := P.exists_after
  simp [hafter]

theorem Abreast.right_ne_nil (h : P.Abreast ts ts') : ts' ≠ [] := by
  cases h with
  | last happart => exact P.after_ne_nil
  | border happart hsame hsep => simp
  | cons hsame hkind htail => simp

theorem Abreast.same_head (h : P.Abreast (t :: ts) (t' :: ts')) : P.same t t' := by
  obtain ⟨next, more, hafter, hsame⟩ := P.exists_after
  generalize hleft : t :: ts = left at h
  generalize hright : t' :: ts' = right at h
  cases h with
  | last happart =>
      rw [hafter] at hright
      cases hleft
      cases hright
      exact hsame happart
  | border happart hsame hsep =>
      cases hleft
      cases hright
      exact hsame
  | cons hsame hkind htail =>
      cases hleft
      cases hright
      exact hsame

theorem Abreast.tail (h : P.Abreast (t :: ts) (t' :: ts')) (hkind : t.kind ≠ .eof) :
    P.Abreast ts ts' ∨
      (P.apart ∧ t.kind.isSeparator ∧ ts = P.last :: P.rest ∧ ts' = P.after) := by
  generalize hleft : t :: ts = left at h
  generalize hright : t' :: ts' = right at h
  cases h with
  | last happart =>
      cases hleft
      exact absurd P.kind_last hkind
  | border happart hsame hsep =>
      cases hleft
      cases hright
      exact .inr ⟨happart, hsep, rfl, rfl⟩
  | cons hsame hkind htail =>
      cases hleft
      cases hright
      exact .inl htail

theorem Abreast.kind_ne_eof (h : P.Abreast (t :: ts) ts') (happart : P.apart) : t.kind ≠ .eof := by
  cases h with
  | last hnot => exact absurd happart hnot
  | border happart hsame hsep => exact Reading.Extends.isSeparator_ne_eof hsep
  | cons hsame hkind htail => exact hkind

theorem Inside.mono (h : P.Inside n r r') (hn : n ≤ m) : P.Inside m r r' :=
  ⟨h.tokens, h.errors, Nat.le_trans h.bound (Nat.add_le_add_right hn _)⟩

theorem AtBorder.mono (h : P.AtBorder n r r') (hn : n ≤ m) : P.AtBorder m r r' :=
  ⟨h.apart, h.tokens, h.after, h.errors, Nat.le_trans h.bound (Nat.add_le_add_right hn _)⟩

theorem Between.mono (h : P.Between n r r') (hn : n ≤ m) : P.Between m r r' :=
  h.imp (fun h => h.mono hn) fun h => h.mono hn

theorem not_inside_zero : ¬P.Inside 0 r r' := by
  intro h
  have hlength := h.tokens.length_lt
  have hbound := h.bound
  omega

theorem not_between_zero : ¬P.Between 0 r r' := by
  rintro (h | h)
  · exact not_inside_zero h
  · have hbound := h.bound
    rw [h.tokens, List.length_cons] at hbound
    omega

theorem Inside.same_current (h : P.Inside n r r') : P.same r.current r'.current :=
  h.tokens.same_head

theorem Inside.isSeparator_current (h : P.Inside n r r') :
    r'.current.kind.isSeparator = r.current.kind.isSeparator :=
  isSeparator_of_same h.same_current

theorem Inside.of_extends (h : P.Inside n r r') (hext : r.Extends r₁) (h₁ : P.Inside m r₁ r₁') :
    P.Inside n r₁ r₁' := by
  refine ⟨h₁.tokens, h₁.errors, ?_⟩
  obtain ⟨us, hus, -⟩ := hext.tokens
  have hbound := h.bound
  rw [hus, List.length_append] at hbound
  omega

/-! ## Agreement -/

def Lost (P : Pairing) (e : SyntaxError) : Prop :=
  P.apart ∧ e.token = P.last

def LostOn (P : Pairing) (r : Reading) : Prop :=
  ∃ e ∈ r.errors.toList, P.Lost e

variable {α α' β β' : Type}

def LostIn (P : Pairing) : EStateM.Result SyntaxError Reading α → Prop
  | .ok _ r => P.LostOn r
  | .error e r => P.LostOn (r.record e)

inductive Outcome (P : Pairing) (post : α → α' → Reading → Reading → Prop) :
    EStateM.Result SyntaxError Reading α → EStateM.Result SyntaxError Reading α' → Prop where
  | lost {x x'} (h : P.LostIn x) : Outcome P post x x'
  | ok {a a' r r'} (h : post a a' r r') : Outcome P post (.ok a r) (.ok a' r')
  | error {e e' r r'} {n : Nat} (herror : P.SameError e e') (h : P.Inside n r r') :
      Outcome P post (.error e r) (.error e' r')

/-- From readings related by `pre`, both parsers give up alike, or both read something and
`post` holds of it and of what is left. -/
def Agree (P : Pairing) (pre : Reading → Reading → Prop) (x : Parse α) (x' : Parse α')
    (post : α → α' → Reading → Reading → Prop) : Prop :=
  ∀ r r', pre r r' → P.Outcome post (x r) (x' r')

def Gives (left : α → Reading → Reading → Prop) (g : α → α') (a : α) (a' : α')
    (r r' : Reading) : Prop :=
  a' = g a ∧ left a r r'

theorem lostOn_record {e : SyntaxError} : P.LostOn (r.record e) ↔ P.LostOn r ∨ P.Lost e := by
  simp [LostOn, Reading.record, or_and_right, exists_or]

theorem LostOn.extends (h : P.LostOn r) (hext : r.Extends r₁) : P.LostOn r₁ := by
  obtain ⟨e, he, hlost⟩ := h
  exact ⟨e, hext.errors.subset he, hlost⟩

theorem LostOn.lostIn {x : Parse α} [hx : Advances x] (h : P.LostOn r) : P.LostIn (x r) := by
  cases hxr : x r with
  | ok a r₁ => exact h.extends (hx.of_ok hxr)
  | error e r₁ => exact lostOn_record.mpr (.inl (h.extends (hx.of_error hxr)))

theorem LostIn.bind_of {x : Parse α} {f : α → Parse β} (hadv : ∀ a, Advances (f a))
    (h : P.LostIn (x r)) : P.LostIn ((x >>= f) r) := by
  simp only [Bind.bind, EStateM.bind]
  cases hxr : x r with
  | ok a r₁ =>
      rw [hxr] at h
      exact LostOn.lostIn h
  | error e r₁ => rwa [hxr] at h

section Rules

variable {pre pre₁ : Reading → Reading → Prop} {x : Parse α} {x' : Parse α'}
variable {post post₁ : α → α' → Reading → Reading → Prop}

theorem Outcome.mono {y : EStateM.Result SyntaxError Reading α}
    {y' : EStateM.Result SyntaxError Reading α'} (h : P.Outcome post y y')
    (hpost : ∀ a a' r r', post a a' r r' → post₁ a a' r r') : P.Outcome post₁ y y' := by
  cases h with
  | lost h => exact .lost h
  | ok h => exact .ok (hpost _ _ _ _ h)
  | error herror h => exact .error herror h

theorem Agree.mono (h : P.Agree pre x x' post) (hpre : ∀ r r', pre₁ r r' → pre r r')
    (hpost : ∀ a a' r r', post a a' r r' → post₁ a a' r r') : P.Agree pre₁ x x' post₁ :=
  fun r r' hr => (h r r' (hpre r r' hr)).mono hpost

theorem Agree.of_pre (h : P.Agree pre x x' post) (hpre : ∀ r r', pre₁ r r' → pre r r') :
    P.Agree pre₁ x x' post :=
  h.mono hpre fun _ _ _ _ => id

theorem Agree.of_left {left left₁ : α → Reading → Reading → Prop} {g : α → α'}
    (h : P.Agree pre x x' (Gives left g)) (hleft : ∀ a r r', left a r r' → left₁ a r r') :
    P.Agree pre x x' (Gives left₁ g) :=
  h.mono (fun _ _ => id) fun _ _ _ _ => And.imp_right (hleft _ _ _)

theorem Agree.pure {left : α → Reading → Reading → Prop} {g : α → α'} {a : α} {a' : α'}
    (ha : a' = g a) (h : ∀ r r', pre r r' → left a r r') :
    P.Agree pre (Pure.pure a) (Pure.pure a') (Gives left g) :=
  fun r r' hr => .ok ⟨ha, h r r' hr⟩

theorem Agree.bind_of {left : α → Reading → Reading → Prop} {g : α → α'} {f : α → Parse β}
    {f' : α' → Parse β'} {post : β → β' → Reading → Reading → Prop} (hadv : ∀ a, Advances (f a))
    (hx : P.Agree pre x x' (Gives left g)) (hf : ∀ a, P.Agree (left a) (f a) (f' (g a)) post) :
    P.Agree pre (x >>= f) (x' >>= f') post := by
  intro r r' hr
  have hfirst := hx r r' hr
  by_cases hlost : P.LostIn (x r)
  · exact .lost (hlost.bind_of hadv)
  simp only [Bind.bind, EStateM.bind]
  generalize x r = y at hfirst hlost ⊢
  generalize x' r' = y' at hfirst ⊢
  cases hfirst with
  | lost h => exact absurd h hlost
  | ok h =>
      obtain ⟨rfl, hleft⟩ := h
      exact hf _ _ _ hleft
  | error herror h => exact .error herror h

theorem Agree.bind {left : α → Reading → Reading → Prop} {g : α → α'} {f : α → Parse β}
    {f' : α' → Parse β'} {post : β → β' → Reading → Reading → Prop} [∀ a, Advances (f a)]
    (hx : P.Agree pre x x' (Gives left g)) (hf : ∀ a, P.Agree (left a) (f a) (f' (g a)) post) :
    P.Agree pre (x >>= f) (x' >>= f') post :=
  .bind_of inferInstance hx hf

theorem Agree.map {left : Reading → Reading → Prop} {g : α → α'} {h : α → β} {h' : α' → β'}
    {k : β → β'} (hx : P.Agree pre x x' (Gives (fun _ => left) g)) (hk : ∀ a, h' (g a) = k (h a)) :
    P.Agree pre (h <$> x) (h' <$> x') (Gives (fun _ => left) k) := by
  rw [map_eq_pure_bind, map_eq_pure_bind]
  exact hx.bind fun a => .pure (hk a) fun _ _ => id

end Rules

/-! ## Single tokens -/

theorem SameErrors.record {e e' : SyntaxError} (h : P.SameErrors r r') (he : P.SameError e e') :
    P.SameErrors (r.record e) (r'.record e') := by
  obtain ⟨es, hes, hsame⟩ := h
  refine ⟨es ++ [e'], by simp [Reading.record, hes], ?_⟩
  simpa [Reading.record] using List.rel_append hsame (.cons he .nil)

theorem Inside.record {e e' : SyntaxError} (h : P.Inside n r r') (he : P.SameError e e') :
    P.Inside n (r.record e) (r'.record e') :=
  ⟨h.tokens, h.errors.record he, h.bound⟩

theorem Inside.advance (h : P.Inside (n + 1) r r') (hkind : r.current.kind ≠ .eof) :
    P.Between n r.advance r'.advance ∧
      (r.current.kind.isWord → P.Inside n r.advance r'.advance) := by
  obtain ⟨current, ahead, errors⟩ := r
  obtain ⟨current', ahead', errors'⟩ := r'
  have hsame := h.same_current
  have hkind' : current'.kind ≠ .eof := by
    rcases P.of_same hsame with hline | ⟨-, hsep⟩
    · rw [show current' = current.renumber P.line from hline, Token.kind_renumber]
      exact hkind
    · exact Reading.Extends.isSeparator_ne_eof hsep
  have hbound := h.bound
  have herrors : P.SameErrors (Reading.advance ⟨current, ahead, errors⟩)
      (Reading.advance ⟨current', ahead', errors'⟩) := by
    simpa [SameErrors] using h.errors
  rcases h.tokens.tail hkind with htail | ⟨happart, hsep, rfl, rfl⟩
  · have hahead : ahead ≠ [] := by
      rintro rfl
      exact absurd htail.length_lt (by simp)
    have hahead' := htail.right_ne_nil
    have hinside : P.Inside n (Reading.advance ⟨current, ahead, errors⟩)
        (Reading.advance ⟨current', ahead', errors'⟩) := by
      refine ⟨?_, herrors, ?_⟩
      · rwa [Reading.tokens_advance hkind hahead, Reading.tokens_advance hkind' hahead']
      · rw [Reading.tokens_advance hkind hahead]
        simp only [Reading.tokens, List.length_cons] at hbound
        omega
    exact ⟨.inl hinside, fun _ => hinside⟩
  · have hafter := P.after_ne_nil
    refine ⟨.inr ⟨happart, Reading.tokens_advance hkind (by simp),
      Reading.tokens_advance hkind' hafter, herrors,
      ?_⟩, fun hword => absurd hword ?_⟩
    · rw [Reading.tokens_advance hkind (by simp)]
      simp only [Reading.tokens, List.length_cons] at hbound ⊢
      omega
    · simp only at hsep
      simp [Kind.isWord, hsep]

theorem kind_eq_iff_of_same {k : Kind} (h : P.same t t') (hk : ¬k.isSeparator) :
    t'.kind = k ↔ t.kind = k := by
  rcases P.of_same h with rfl | ⟨hsep, hsep'⟩
  · rfl
  · constructor
    · rintro rfl
      exact absurd hsep' hk
    · rintro rfl
      exact absurd hsep hk

theorem contains_of_same {ks : KindSet} (h : P.same t t')
    (hks : ∀ k, ks.contains k → ¬k.isSeparator) : ks.contains t'.kind = ks.contains t.kind := by
  rcases P.of_same h with rfl | ⟨hsep, hsep'⟩
  · rfl
  · rw [Bool.eq_false_iff.mpr fun hmem => hks _ hmem hsep,
      Bool.eq_false_iff.mpr fun hmem => hks _ hmem hsep']

section Tokens

variable {y z : Parse α} {y' z' : Parse α'} {post : α → α' → Reading → Reading → Prop}

def OnWord (P : Pairing) (n : Nat) (r r' : Reading) : Prop :=
  P.Inside n r r' ∧ r.current.kind.isWord

theorem Agree.kind {f : Kind → Parse α} {f' : Kind → Parse α'}
    (hword : ∀ k, k.isWord →
      P.Agree (fun r r' => P.OnWord n r r' ∧ r.current.kind = k) (f k) (f' k) post)
    (hend : ¬P.apart → P.Agree (P.Inside n) (f .eof) (f' .eof) post)
    (hsep : ∀ k k', k.isSeparator → k'.isSeparator →
      P.Agree (fun r r' => P.Inside n r r' ∧ r.current.kind.isSeparator) (f k) (f' k') post) :
    P.Agree (P.Inside n) (currentKind >>= f) (currentKind >>= f') post := by
  intro r r' hr
  change P.Outcome post (f r.current.kind r) (f' r'.current.kind r')
  by_cases hsepr : r.current.kind.isSeparator
  · exact hsep _ _ hsepr (hr.isSeparator_current ▸ hsepr) r r' ⟨hr, hsepr⟩
  · have hkind : r'.current.kind = r.current.kind :=
      (kind_eq_iff_of_same hr.same_current hsepr).mpr rfl
    rw [hkind]
    by_cases hendr : r.current.kind = .eof
    · rw [hendr]
      exact hend (fun happart => hr.tokens.kind_ne_eof happart hendr) r r' hr
    · have hwordr : r.current.kind.isWord := by simp [Kind.isWord, hsepr, hendr]
      exact hword _ hwordr r r' ⟨⟨hr, hwordr⟩, rfl⟩

theorem Agree.current {f : Token → Parse α} {f' : Token → Parse α'}
    (hword : ∀ t, t.kind.isWord → P.Agree (P.OnWord n) (f t) (f' (t.renumber P.line)) post)
    (helse : ∀ t t', ¬t.kind.isWord → ¬t'.kind.isWord → P.Agree (P.Inside n) (f t) (f' t') post) :
    P.Agree (P.Inside n) (current >>= f) (Grammar.current >>= f') post := by
  intro r r' hr
  change P.Outcome post (f r.current r) (f' r'.current r')
  by_cases hwordr : r.current.kind.isWord
  · rw [of_same_of_not_separator hr.same_current (Kind.not_separator_of_isWord hwordr)]
    exact hword _ hwordr r r' ⟨hr, hwordr⟩
  · refine helse _ _ hwordr (fun hwordr' => hwordr ?_) r r' hr
    rwa [← (kind_eq_iff_of_same hr.same_current (Kind.not_separator_of_isWord hwordr')).mp rfl]
      at hwordr'

theorem Agree.ifKind {c : Kind → Prop} [DecidablePred c] (hc : ∀ k, c k → k.isWord)
    (hthen : P.Agree (P.OnWord n) y y' post) (helse : P.Agree (P.Inside n) z z' post) :
    P.Agree (P.Inside n) (currentKind >>= fun k => if c k then y else z)
      (currentKind >>= fun k => if c k then y' else z') post := by
  have hnot : ∀ k : Kind, ¬k.isWord → ¬c k := fun k hk h => hk (hc k h)
  refine Agree.kind (fun k hk => ?_) (fun _ => ?_) fun k k' hk hk' => ?_
  · split
    · exact hthen.of_pre fun _ _ => And.left
    · exact helse.of_pre fun _ _ h => h.1.1
  · rwa [if_neg (hnot _ (by decide)), if_neg (hnot _ (by decide))]
  · rw [if_neg (hnot _ (by simp [Kind.isWord, hk])), if_neg (hnot _ (by simp [Kind.isWord, hk']))]
    exact helse.of_pre fun _ _ => And.left

theorem Agree.advance :
    P.Agree (P.OnWord (n + 1)) advance advance
      (Gives (fun _ => P.Inside n) (Token.renumber P.line)) := by
  intro r r' ⟨hr, hword⟩
  exact .ok ⟨of_same_of_not_separator hr.same_current (Kind.not_separator_of_isWord hword),
    (hr.advance (Kind.ne_eof_of_isWord hword)).2 hword⟩

theorem Agree.advance_keep :
    P.Agree (P.OnWord n) Grammar.advance Grammar.advance
      (Gives (fun _ => P.Inside n) (Token.renumber P.line)) := by
  cases n with
  | zero => exact fun _ _ hr => absurd hr.1 not_inside_zero
  | succ n => exact Agree.advance.of_left fun _ _ _ h => h.mono (Nat.le_succ n)

section Errors

variable {cause : Cause} (hcut : cause ≠ .outOfFuel)
include hcut

theorem Agree.fail :
    P.Agree (P.Inside n) (fail cause) (fail (cause.renumber P.line)) post :=
  fun _ _ hr => .error ⟨hr.same_current, rfl, hcut⟩ hr

theorem Agree.throw {token : Token} :
    P.Agree (P.Inside n) (throw ⟨token, cause⟩)
      (throw ⟨token.renumber P.line, cause.renumber P.line⟩) post :=
  fun _ _ hr => .error ⟨P.same_renumber token, rfl, hcut⟩ hr

theorem Agree.report {token : Token} :
    P.Agree (P.Inside n) (report token cause)
      (report (token.renumber P.line) (cause.renumber P.line)) (Gives (fun _ => P.Inside n) id) :=
  fun _ _ hr => .ok ⟨rfl, hr.record ⟨P.same_renumber token, rfl, hcut⟩⟩

theorem Agree.reportCurrent :
    P.Agree (P.Inside n) (Grammar.current >>= fun t => Grammar.report t cause)
      (Grammar.current >>= fun t => Grammar.report t (cause.renumber P.line))
      (Gives (fun _ => P.Inside n) id) :=
  fun _ _ hr => .ok ⟨rfl, hr.record ⟨hr.same_current, rfl, hcut⟩⟩

theorem Agree.reportThen (h : P.Agree (P.OnWord n) y y' post) :
    P.Agree (P.OnWord n)
      (Grammar.current >>= fun t => Grammar.report t cause >>= fun _ => y)
      (Grammar.current >>= fun t => Grammar.report t (cause.renumber P.line) >>= fun _ => y')
      post :=
  fun _ _ hr => h _ _ ⟨hr.1.record ⟨hr.1.same_current, rfl, hcut⟩, hr.2⟩

end Errors

theorem Agree.eat {kind : Kind} (hkind : kind.isWord) :
    P.Agree (P.Inside (n + 1)) (eat kind) (eat kind)
      (Gives (fun found => P.Inside (if found then n else n + 1)) id) := by
  refine Agree.ifKind (fun k hk => hk ▸ hkind) ?_ (.pure rfl fun _ _ => id)
  exact Agree.advance.bind fun _ => .pure rfl fun _ _ => id

theorem Agree.eat_keep {kind : Kind} (hkind : kind.isWord) :
    P.Agree (P.Inside n) (Grammar.eat kind) (Grammar.eat kind)
      (Gives (fun _ => P.Inside n) id) := by
  cases n with
  | zero => exact fun _ _ hr => absurd hr not_inside_zero
  | succ n =>
      refine (Agree.eat hkind).of_left fun found _ _ h => ?_
      cases found with
      | true => exact h.mono (Nat.le_succ n)
      | false => exact h

theorem Agree.expect {kind : Kind} {cause : Cause} (hkind : kind.isWord)
    (hcause : cause.renumber P.line = cause) (hcut : cause ≠ .outOfFuel) :
    P.Agree (P.Inside (n + 1)) (expect kind cause) (expect kind cause)
      (Gives (fun _ => P.Inside n) (Token.renumber P.line)) := by
  refine Agree.ifKind (fun k hk => hk ▸ hkind) .advance ?_
  have hfail : P.Agree (P.Inside (n + 1)) (Grammar.fail cause)
      (Grammar.fail (cause.renumber P.line))
      (Gives (fun _ => P.Inside n) (Token.renumber P.line)) := .fail hcut
  rwa [hcause] at hfail

theorem Agree.expect_keep {kind : Kind} {cause : Cause} (hkind : kind.isWord)
    (hcause : cause.renumber P.line = cause) (hcut : cause ≠ .outOfFuel) :
    P.Agree (P.Inside n) (Grammar.expect kind cause) (Grammar.expect kind cause)
      (Gives (fun _ => P.Inside n) (Token.renumber P.line)) := by
  cases n with
  | zero => exact fun _ _ hr => absurd hr not_inside_zero
  | succ n => exact (Agree.expect hkind hcause hcut).of_left fun _ _ _ h => h.mono (Nat.le_succ n)

end Tokens

/-! ## Separators -/

theorem pastSeparators_of_not {current : Token} (ahead : List Token)
    (h : ¬current.kind.isSeparator) :
    Reading.pastSeparators current ahead = (current, ahead) := by
  cases ahead with
  | nil => rfl
  | cons next rest => rw [Reading.pastSeparators, if_neg h]

/-- Separators go up to where the lists part, if not to a token before; the second list may have
more of them there. -/
private theorem Abreast.pastSeparators {current current' : Token} {ahead ahead' : List Token}
    (h : P.Abreast (current :: ahead) (current' :: ahead')) :
    (P.Abreast
        ((Reading.pastSeparators current ahead).1 :: (Reading.pastSeparators current ahead).2)
        ((Reading.pastSeparators current' ahead').1 ::
          (Reading.pastSeparators current' ahead').2)) ∨
      P.apart ∧ Reading.pastSeparators current ahead = (P.last, P.rest) ∧
        ∃ next more, P.after = next :: more ∧
          Reading.pastSeparators current' ahead' = Reading.pastSeparators next more := by
  induction ahead generalizing current current' ahead' with
  | nil =>
      by_cases hsep : current.kind.isSeparator
      · rcases h.tail (Reading.Extends.isSeparator_ne_eof hsep) with htail | ⟨-, -, htail, -⟩
        · exact absurd htail.length_lt (by simp)
        · simp at htail
      · have hsep' : ¬current'.kind.isSeparator := by rwa [isSeparator_of_same h.same_head]
        rw [pastSeparators_of_not _ hsep, pastSeparators_of_not _ hsep']
        exact .inl h
  | cons next rest ih =>
      by_cases hsep : current.kind.isSeparator
      · have hsep' : current'.kind.isSeparator := by rwa [isSeparator_of_same h.same_head]
        rcases h.tail (Reading.Extends.isSeparator_ne_eof hsep) with
          htail | ⟨happart, -, hrest, hrest'⟩
        · cases ahead' with
          | nil => exact absurd rfl htail.right_ne_nil
          | cons next' rest' =>
              rw [Reading.pastSeparators, if_pos hsep, Reading.pastSeparators, if_pos hsep']
              exact ih htail
        · obtain ⟨rfl, rfl⟩ := List.cons.inj hrest
          obtain ⟨next', more, hafter, -⟩ := P.exists_after
          rw [hrest', hafter, Reading.pastSeparators, if_pos hsep, Reading.pastSeparators,
            if_pos hsep', pastSeparators_of_not _ P.last_not_separator]
          exact .inr ⟨happart, rfl, next', more, rfl, rfl⟩
      · have hsep' : ¬current'.kind.isSeparator := by rwa [isSeparator_of_same h.same_head]
        rw [pastSeparators_of_not _ hsep, pastSeparators_of_not _ hsep']
        exact .inl h

theorem Between.skipSeparators (h : P.Between n r r') :
    P.Inside n r.skipSeparators r'.skipSeparators ∨
      P.apart ∧ r.skipSeparators.tokens = P.last :: P.rest ∧
        ∃ start : Reading, start.tokens = P.after ∧ start.errors = r'.errors ∧
          start.skipSeparators = r'.skipSeparators := by
  obtain ⟨current, ahead, errors⟩ := r
  obtain ⟨current', ahead', errors'⟩ := r'
  rcases h with h | h
  · rcases Abreast.pastSeparators h.tokens with htokens | ⟨happart, hpast, next, more,
      hafter, hpast'⟩
    · obtain ⟨us, hus, -⟩ := (Reading.Extends.skipSeparators ⟨current, ahead, errors⟩).tokens
      have hbound := h.bound
      rw [hus, List.length_append] at hbound
      exact .inl ⟨htokens, h.errors, by omega⟩
    · refine .inr ⟨happart, ?_, ⟨next, more, errors'⟩, hafter.symm, rfl, ?_⟩
      · simp [Reading.skipSeparators, Reading.tokens, hpast]
      · simp [Reading.skipSeparators, hpast']
  · obtain ⟨rfl, rfl⟩ := List.cons.inj h.tokens
    refine .inr ⟨h.apart, ?_, _, h.after, rfl, rfl⟩
    simp [Reading.skipSeparators, Reading.tokens, pastSeparators_of_not _ P.last_not_separator]

theorem Agree.skipSeparators {y : Parse α} {y' : Parse α'}
    {post : α → α' → Reading → Reading → Prop}
    (hlost : P.apart → ∀ r : Reading, r.current = P.last → P.LostIn (y r))
    (hy : P.Agree (P.Inside n) y y' post) :
    P.Agree (P.Between n) (skipSeparators >>= fun _ => y)
      (skipSeparators >>= fun _ => y') post := by
  intro r r' hr
  change P.Outcome post (y r.skipSeparators) (y' r'.skipSeparators)
  rcases hr.skipSeparators with hinside | ⟨happart, htokens, -⟩
  · exact hy _ _ hinside
  · exact .lost (hlost happart _ (List.cons.inj htokens).1)

/-! ## Recovery -/

theorem nextStart_of_stop {starts : KindSet} {previous current : Token} (ahead : List Token)
    (h : current.kind = .eof || previous.kind.isSeparator || starts.contains current.kind) :
    Reading.nextStart starts previous current ahead = (current, ahead) := by
  cases ahead with
  | nil => rfl
  | cons next rest => rw [Reading.nextStart, if_pos h]

private theorem Abreast.nextStart {starts : KindSet} {previous previous' current current' : Token}
    {ahead ahead' : List Token} (hstarts : ∀ k, starts.contains k → ¬k.isSeparator)
    (hprevious : previous'.kind.isSeparator = previous.kind.isSeparator)
    (h : P.Abreast (current :: ahead) (current' :: ahead')) :
    let (next, more) := Reading.nextStart starts previous current ahead
    let (next', more') := Reading.nextStart starts previous' current' ahead'
    P.Abreast (next :: more) (next' :: more') ∨
      P.apart ∧ next :: more = P.last :: P.rest ∧ next' :: more' = P.after := by
  have hstop : ∀ {previous previous' current current' : Token}, P.same current current' →
      previous'.kind.isSeparator = previous.kind.isSeparator →
      (current'.kind = .eof || previous'.kind.isSeparator || starts.contains current'.kind) =
        (current.kind = .eof || previous.kind.isSeparator || starts.contains current.kind) := by
    intro previous previous' current current' hsame hprevious
    rw [hprevious, contains_of_same hsame hstarts,
      decide_eq_decide.mpr (kind_eq_iff_of_same (k := .eof) hsame (by decide))]
  induction ahead generalizing previous previous' current current' ahead' with
  | nil =>
      have hend : current.kind = .eof := by
        by_cases hkind : current.kind = .eof
        · exact hkind
        rcases h.tail hkind with htail | ⟨-, -, htail, -⟩
        · exact absurd htail.length_lt (by simp)
        · simp at htail
      have hend' := (kind_eq_iff_of_same (k := .eof) h.same_head (by decide)).mpr hend
      rw [nextStart_of_stop _ (by simp [hend]), nextStart_of_stop _ (by simp [hend'])]
      exact .inl h
  | cons next rest ih =>
      have hsame := hstop h.same_head hprevious
      by_cases hcurrent : (current.kind = .eof || previous.kind.isSeparator ||
          starts.contains current.kind) = true
      · rw [nextStart_of_stop _ hcurrent, nextStart_of_stop _ (hsame.trans hcurrent)]
        exact .inl h
      · have hkind : current.kind ≠ .eof := by
          intro hkind
          simp [hkind] at hcurrent
        rcases h.tail hkind with htail | ⟨happart, hsep, hrest, hrest'⟩
        · cases ahead' with
          | nil => exact absurd rfl htail.right_ne_nil
          | cons next' rest' =>
              rw [Reading.nextStart, if_neg hcurrent, Reading.nextStart, if_neg (hsame ▸ hcurrent)]
              exact ih (isSeparator_of_same h.same_head) htail
        · cases ahead' with
          | nil => exact absurd hrest'.symm P.after_ne_nil
          | cons next' rest' =>
              have hsep' := (isSeparator_of_same h.same_head).trans hsep
              rw [Reading.nextStart, if_neg hcurrent, Reading.nextStart, if_neg (hsame ▸ hcurrent),
                nextStart_of_stop _ (by simp [hsep]), nextStart_of_stop _ (by simp [hsep'])]
              exact .inr ⟨happart, hrest, hrest'⟩

@[simp] theorem errors_recover (starts : KindSet) (r : Reading) :
    (r.recover starts).errors = r.errors := by
  simp [Reading.recover]

private theorem length_nextStart_le (starts : KindSet) (previous current : Token)
    (ahead : List Token) :
    (Reading.nextStart starts previous current ahead).2.length ≤ ahead.length := by
  induction ahead generalizing previous current with
  | nil => exact Nat.le_refl _
  | cons next rest ih =>
      rw [Reading.nextStart]
      split
      · exact Nat.le_refl _
      · exact Nat.le_trans (ih current next) (Nat.le_succ _)

theorem not_separator_of_startsStatement {k : Kind} (h : startsStatement.contains k) :
    ¬k.isSeparator := by
  rw [Kind.isSeparator_iff]
  rintro (rfl | rfl) <;> exact absurd h (by decide)

private theorem Inside.nextStart {previous previous' : Token}
    (hprevious : previous'.kind.isSeparator = previous.kind.isSeparator) (h : P.Inside n r r') :
    let (next, more) := Reading.nextStart startsStatement previous r.current r.ahead
    let (next', more') := Reading.nextStart startsStatement previous' r'.current r'.ahead
    P.Between n ⟨next, more, r.errors⟩ ⟨next', more', r'.errors⟩ := by
  have hlength := length_nextStart_le startsStatement previous r.current r.ahead
  have hbound := h.bound
  simp only [Reading.tokens, List.length_cons] at hbound
  rcases Abreast.nextStart (fun _ => not_separator_of_startsStatement) hprevious h.tokens with
    htokens | ⟨happart, hrest, hrest'⟩
  · exact .inl ⟨htokens, h.errors, by simp only [Reading.tokens, List.length_cons]; omega⟩
  · exact .inr ⟨happart, hrest, hrest', h.errors,
      by simp only [Reading.tokens, List.length_cons]; omega⟩

theorem Inside.recover (h : P.Inside (n + 1) r r')
    (hend : r.current.kind = .eof → P.Inside n r r') :
    P.Between n (r.recover startsStatement) (r'.recover startsStatement) := by
  have hsep := h.isSeparator_current
  by_cases hkind : r.current.kind = .eof
  · have hkind' := (kind_eq_iff_of_same (k := .eof) h.same_current (by decide)).mpr hkind
    have hstay : r.advance = r := by simp [Reading.advance, hkind]
    have hstay' : r'.advance = r' := by simp [Reading.advance, hkind']
    have hnext := (hend hkind).nextStart hsep
    rwa [Reading.recover, Reading.recover, hstay, hstay']
  obtain ⟨hbetween, hword⟩ := h.advance hkind
  by_cases hsepr : r.current.kind.isSeparator
  · rcases hbetween with hinside | hborder
    · exact hinside.nextStart hsep
    · -- the separator just taken stops both at once
      rw [Reading.recover, Reading.recover, nextStart_of_stop _ (by simp [hsepr]),
        nextStart_of_stop _ (by simp [hsep.trans hsepr])]
      exact .inr hborder
  · exact (hword (by simp [Kind.isWord, hsepr, hkind])).nextStart hsep

theorem Agree.declaration {stmt stmt' : Parse Stmt} [hadv : Advances stmt]
    (hstmt : P.Agree (P.Inside (n + 1)) stmt stmt'
      (Gives (fun _ => P.Between n) (Stmt.renumber P.line))) :
    P.Agree (fun r r' => P.Inside (n + 1) r r' ∧ r.current.kind ≠ .eof)
      (declaration stmt) (declaration stmt')
      (Gives (fun _ => P.Between n) (Option.map (Stmt.renumber P.line))) := by
  intro r r' ⟨hr, hkind⟩
  have houtcome := hstmt r r' hr
  unfold Grammar.declaration
  cases hresult : stmt r with
  | ok s r₁ =>
      rw [hresult] at houtcome
      generalize stmt' r' = y' at houtcome ⊢
      cases houtcome with
      | lost h =>
          apply Outcome.lost
          exact h
      | ok h => exact .ok ⟨congrArg some h.1, h.2⟩
  | error e r₁ =>
      have hext := hadv.of_error hresult
      rw [hresult] at houtcome
      generalize stmt' r' = y' at houtcome ⊢
      cases houtcome with
      | lost h =>
          apply Outcome.lost
          exact LostOn.extends (r := r₁.record e) h (.recover _ _)
      | error herror h =>
          have hrecord := (hr.of_extends hext h).record herror
          refine .ok ⟨rfl, hrecord.recover fun hend => ⟨hrecord.tokens, hrecord.errors, ?_⟩⟩
          -- the error was found further on than where the statement starts
          obtain ⟨us, hus, -⟩ := hext.tokens
          cases us with
          | nil =>
              obtain ⟨hcurrent, -⟩ := List.cons.inj hus
              exact absurd (hcurrent ▸ hend) hkind
          | cons u us =>
              have hbound := hr.bound
              rw [hus, List.cons_append, List.length_cons, List.length_append] at hbound
              change r₁.tokens.length ≤ _
              omega

/-! ## Repetition and nesting -/

def roundLeft (again done : Reading → Reading → Prop) : Round α β → Reading → Reading → Prop
  | .again _ => again
  | .done _ => done

section Repetition

variable {I J : Nat → Reading → Reading → Prop} {pre again done : Reading → Reading → Prop}
variable {g : α → α'} {h : β → β'} {limit limit' : Nat}
variable {step : α → Parse (Round α β)} {step' : α' → Parse (Round α' β')}
variable [hadv : ∀ a, Advances (step a)]

theorem Agree.rounds_succ {a : α}
    (hstep : P.Agree pre (step a) (step' (g a)) (Gives (roundLeft again done) (Round.map g h)))
    (hrest : ∀ a, P.Agree again (rounds step limit a) (rounds step' limit' (g a))
      (Gives (fun _ => done) h)) :
    P.Agree pre (rounds step (limit + 1) a) (rounds step' (limit' + 1) (g a))
      (Gives (fun _ => done) h) := by
  have hafter : ∀ round : Round α β, Advances (match round with
      | .again a => Grammar.rounds step limit a
      | .done b => Pure.pure b) := by
    intro round
    cases round <;> infer_instance
  refine .bind_of hafter hstep fun round => ?_
  cases round with
  | again a => exact hrest a
  | done b => exact .pure rfl fun _ _ => id

/-- The limits do not matter as long as no more tokens are to come. -/
theorem Agree.rounds (hzero : ∀ r r', ¬I 0 r r') (hJ : ∀ m r r', J m r r' → J (m + 1) r r')
    (hstep : ∀ m ≤ n, ∀ a, P.Agree (I (m + 1)) (step a) (step' (g a))
      (Gives (roundLeft (I m) (J m)) (Round.map g h)))
    (hlimit : n < limit) (hlimit' : n < limit') {a : α} {a' : α'} (ha : a' = g a) :
    P.Agree (I (n + 1)) (rounds step limit a) (Grammar.rounds step' limit' a')
      (Gives (fun _ => J n) h) := by
  subst ha
  induction n generalizing limit limit' a with
  | zero =>
      obtain ⟨limit, rfl⟩ := Nat.exists_eq_succ_of_ne_zero (Nat.ne_of_gt hlimit)
      obtain ⟨limit', rfl⟩ := Nat.exists_eq_succ_of_ne_zero (Nat.ne_of_gt hlimit')
      exact Agree.rounds_succ (hstep 0 (Nat.le_refl 0) a) fun a r r' hr => absurd hr (hzero r r')
  | succ n ih =>
      obtain ⟨limit, rfl⟩ := Nat.exists_eq_succ_of_ne_zero (Nat.ne_of_gt (Nat.zero_lt_of_lt hlimit))
      obtain ⟨limit', rfl⟩ :=
        Nat.exists_eq_succ_of_ne_zero (Nat.ne_of_gt (Nat.zero_lt_of_lt hlimit'))
      refine Agree.rounds_succ (hstep (n + 1) (Nat.le_refl _) a) fun a => ?_
      exact (ih (fun m hm => hstep m (Nat.le_succ_of_le hm)) (Nat.lt_of_succ_lt_succ hlimit)
        (Nat.lt_of_succ_lt_succ hlimit')).of_left fun _ r r' => hJ n r r'

theorem Agree.rounds_keep {a : α} {a' : α'}
    (hstep : ∀ m < n, ∀ a, P.Agree (P.Inside (m + 1)) (step a) (step' (g a))
      (Gives (roundLeft (P.Inside m) (P.Inside (m + 1))) (Round.map g h)))
    (hlimit : n ≤ limit) (hlimit' : n ≤ limit') (ha : a' = g a) :
    P.Agree (P.Inside n) (Grammar.rounds step limit a) (Grammar.rounds step' limit' a')
      (Gives (fun _ => P.Inside n) h) := by
  cases n with
  | zero => exact fun _ _ hr => absurd hr not_inside_zero
  | succ n =>
      exact Agree.rounds (J := fun m => P.Inside (m + 1)) (fun _ _ => not_inside_zero)
        (fun m _ _ h => h.mono (Nat.le_succ _)) (fun m hm => hstep m (Nat.lt_succ_of_le hm))
        hlimit hlimit' ha

end Repetition

/-- From before at least one token, and at most `n` of them, the parsers agree and take one. -/
def AgreeTo (P : Pairing) (J : Nat → Reading → Reading → Prop) (g : α → α') (n : Nat)
    (x : Parse α) (x' : Parse α') : Prop :=
  ∀ m < n, P.Agree (P.Inside (m + 1)) x x' (Gives (fun _ => J m) g)

theorem AgreeTo.nested {J : Nat → Reading → Reading → Prop} {g : α → α'}
    {body : Parse α → Parse α} {body' : Parse α' → Parse α'} {limit limit' : Nat}
    (hadv : ∀ x, Advances x → Advances (body x))
    (hbody : ∀ m < n, ∀ x x', Advances x → P.AgreeTo J g m x x' →
      P.AgreeTo J g (m + 1) (body x) (body' x'))
    (hlimit : n ≤ limit) (hlimit' : n ≤ limit') :
    P.AgreeTo J g n (nested body limit) (nested body' limit') := by
  induction n generalizing limit limit' with
  | zero => exact fun m hm => absurd hm (Nat.not_lt_zero m)
  | succ n ih =>
      obtain ⟨limit, rfl⟩ := Nat.exists_eq_add_of_le' (Nat.le_trans (Nat.le_add_left 1 n) hlimit)
      obtain ⟨limit', rfl⟩ := Nat.exists_eq_add_of_le' (Nat.le_trans (Nat.le_add_left 1 n) hlimit')
      exact hbody n (Nat.lt_succ_self n) _ _ (Advances.nested hadv limit)
        (ih (fun m hm => hbody m (Nat.lt_succ_of_lt hm)) (Nat.le_of_succ_le_succ hlimit)
          (Nat.le_of_succ_le_succ hlimit'))

theorem AgreeTo.keep {g : α → α'} {x : Parse α} {x' : Parse α'}
    (h : P.AgreeTo P.Inside g n x x') (hm : m ≤ n) :
    P.Agree (P.Inside m) x x' (Gives (fun _ => P.Inside m) g) := by
  cases m with
  | zero => exact fun _ _ hr => absurd hr not_inside_zero
  | succ m => exact (h m hm).of_left fun _ _ _ h => h.mono (Nat.le_succ m)

def commaRound (check : Nat → Parse Unit) (item : Parse α) (items : Array α) :
    Parse (Round (Array α) (List α)) := do
  check items.size
  let items := items.push (← item)
  if ← eat .comma then return .again items else return .done items.toList

instance {check : Nat → Parse Unit} {item : Parse α} [∀ k, Advances (check k)] [Advances item]
    (items : Array α) : Advances (commaRound check item items) := by
  unfold commaRound
  infer_instance

theorem commaSeparated_eq (limit : Nat) (check : Nat → Parse Unit) (item : Parse α) :
    commaSeparated limit check item = rounds (commaRound check item) limit #[] :=
  rfl

theorem AgreeTo.commaSeparated {g : α → α'} {check check' : Nat → Parse Unit} {item : Parse α}
    {item' : Parse α'} [∀ k, Advances (check k)] [Advances item] {limit limit' : Nat}
    (hcheck : ∀ m k, P.Agree (P.Inside m) (check k) (check' k) (Gives (fun _ => P.Inside m) id))
    (hitem : P.AgreeTo P.Inside g n item item') (hlimit : n ≤ limit) (hlimit' : n ≤ limit') :
    P.AgreeTo P.Inside (List.map g) n (commaSeparated limit check item)
      (Grammar.commaSeparated limit' check' item') := by
  intro m hm
  rw [commaSeparated_eq, commaSeparated_eq]
  refine Agree.rounds (I := P.Inside) (J := P.Inside) (g := Array.map g) (h := List.map g)
    (fun _ _ => not_inside_zero) (fun m _ _ h => h.mono (Nat.le_succ m)) (fun k hk items => ?_)
    (Nat.lt_of_lt_of_le hm hlimit) (Nat.lt_of_lt_of_le hm hlimit') (by simp)
  rw [commaRound, commaRound, Array.size_map]
  refine (hcheck _ _).bind fun _ => (hitem k (Nat.lt_of_le_of_lt hk hm)).bind fun item => ?_
  refine (Agree.eat_keep (by decide)).bind fun found => ?_
  cases found with
  | true => exact .pure (by simp [Round.map]) fun _ _ => id
  | false => exact .pure (by simp [Round.map]) fun _ _ => id

/-! ## Looking ahead -/

theorem moreNamesThenEqual_of_not_comma {t : Token} (ts : List Token) (h : t.kind ≠ .comma) :
    moreNamesThenEqual (t :: ts) = false := by
  cases ts <;> simp [moreNamesThenEqual, h]

theorem moreNamesThenEqual_of_not_name {t u : Token} (ts : List Token) (h : u.kind ≠ .identifier) :
    moreNamesThenEqual (t :: u :: ts) = false := by
  simp [moreNamesThenEqual, h]

theorem Abreast.head?_any {k : Kind} (h : P.Abreast ts ts') (hk : ¬k.isSeparator) :
    ts'.head?.any (·.kind = k) = ts.head?.any (·.kind = k) := by
  cases ts with
  | nil => exact absurd h.length_lt (by simp)
  | cons t ts =>
      cases ts' with
      | nil => exact absurd rfl h.right_ne_nil
      | cons t' ts' => exact decide_eq_decide.mpr (kind_eq_iff_of_same h.same_head hk)

theorem Abreast.moreNamesThenEqual (h : P.Abreast ts ts') :
    Grammar.moreNamesThenEqual ts' = Grammar.moreNamesThenEqual ts ∧
      ∀ {t t' : Token}, P.same t t' →
        Grammar.moreNamesThenEqual (t' :: ts') = Grammar.moreNamesThenEqual (t :: ts) := by
  induction h with
  | last happart =>
      obtain ⟨next, more, hafter, hsame⟩ := P.exists_after
      have hnext : next.kind = .eof :=
        (kind_eq_iff_of_same (hsame happart) (by decide)).mpr P.kind_last
      rw [hafter]
      constructor
      · rw [moreNamesThenEqual_of_not_comma _ (by simp [hnext]),
          moreNamesThenEqual_of_not_comma _ (by simp [P.kind_last])]
      · intro t t' _
        rw [moreNamesThenEqual_of_not_name _ (by simp [hnext]),
          moreNamesThenEqual_of_not_name _ (by simp [P.kind_last])]
  | @border t t' happart hsame hsep =>
      have hsep' := (isSeparator_of_same hsame).trans hsep
      have hne : ∀ {k l : Kind}, k.isSeparator → ¬l.isSeparator → k ≠ l := by
        rintro k l hk hl rfl
        exact hl hk
      constructor
      · rw [moreNamesThenEqual_of_not_comma _ (hne hsep' (by decide)),
          moreNamesThenEqual_of_not_comma _ (hne hsep (by decide))]
      · intro u u' _
        rw [moreNamesThenEqual_of_not_name _ (hne hsep' (by decide)),
          moreNamesThenEqual_of_not_name _ (hne hsep (by decide))]
  | cons hsame hkind htail ih =>
      obtain ⟨ih, ihcons⟩ := ih
      refine ⟨ihcons hsame, fun hsame' => ?_⟩
      rw [Grammar.moreNamesThenEqual, Grammar.moreNamesThenEqual, ih,
        htail.head?_any (k := .equal) (by decide),
        decide_eq_decide.mpr (kind_eq_iff_of_same (k := .comma) hsame' (by decide)),
        decide_eq_decide.mpr (kind_eq_iff_of_same (k := .identifier) hsame (by decide))]

end Pairing

end Grammar

end Scriptlet
