import Scriptlet.Proofs.Grammar.Precedence

/-!
# Expressions that are read are phrases

Level by level, from the tightest up: what is read cleanly is a phrase of the level, and what comes
next cannot go on it.
-/

namespace Scriptlet.Grammar

/-- From `r` to `r'` stands a phrase of level `p` with tree `e`, and it ends there. -/
def Phrase (p : Precedence) (r : Reading) (e : Expr) (r' : Reading) : Prop :=
  ∃ ts, r = r'.before ts ∧ Derives p ts e ∧ p.continues r'.current.kind = false

namespace Reads

variable {limit : Nat} {expr operand : Parse Expr} {r r' : Reading} {e : Expr}

/-! ## Binary operators -/

theorem of_leftChain [Advances operand] {p : Precedence} (hp : p.groupsLeft)
    (hoperand : ∀ r e r', Reads operand r e r' → Phrase p.tighter r e r')
    (h : Reads (leftChain limit p.operators operand) r e r') : Phrase p r e r' := by
  obtain ⟨first, r₁, hfirst, hrounds⟩ := h.of_bind
  obtain ⟨ts, rfl, hts, hstop⟩ := hoperand _ _ _ hfirst
  have hprimary : p ≠ .primary := by
    rintro rfl
    cases hp
  -- what is read so far is a phrase, and each round makes it longer
  refine of_rounds (P := fun left r => ∀ ls, Derives p ls left →
      p.tighter.continues r.current.kind = false → Phrase p (r.before ls) e r')
    hrounds ?_ ?_ ts (.tighter hprimary hts) hstop
  · intro left r hround ls hls htighter
    obtain ⟨k, r₂, hkind, hrest⟩ := hround.of_bind
    obtain ⟨rfl, rfl⟩ := hkind.of_currentKind
    split at hrest
    · obtain ⟨op, r₃, -, hoperands⟩ := hrest.of_bind
      obtain ⟨right, r₄, -, hagain⟩ := hoperands.of_bind
      cases hagain.of_pure.1
    · next hother =>
        obtain ⟨hdone, rfl⟩ := hrest.of_pure
        cases hdone
        refine ⟨ls, rfl, hls, ?_⟩
        rw [Precedence.continues_eq, htighter]
        simpa using hother
  · intro left r left' r₂ hround hnext ls hls _
    obtain ⟨k, r₃, hkind, hrest⟩ := hround.of_bind
    obtain ⟨rfl, rfl⟩ := hkind.of_currentKind
    split at hrest
    · next hop =>
        have hop : r₃.current.kind ∈ p.operators := by simpa using hop
        obtain ⟨op, r₄, hadvance, hoperands⟩ := hrest.of_bind
        obtain rfl := hadvance.of_advance (Precedence.operators_ne_eof hop)
        obtain ⟨right, r₅, hright, hpure⟩ := hoperands.of_bind
        obtain ⟨hagain, rfl⟩ := hpure.of_pure
        cases hagain
        obtain ⟨rs, rfl, hrs, htighter⟩ := hoperand _ _ _ hright
        have hlonger := Derives.chain hp hop hls hrs
        rw [← Precedence.join_eq_node hp hop] at hlonger
        simpa using hnext _ hlonger htighter
    · cases hrest.of_pure.1

theorem of_power [Advances operand]
    (hoperand : ∀ r e r', Reads operand r e r' → Phrase .unary r e r')
    (h : Reads (power limit operand) r e r') : Phrase .power r e r' := by
  obtain ⟨first, r₁, hfirst, hrounds⟩ := h.of_bind
  obtain ⟨ts, rfl, hts, hstop⟩ := hoperand _ _ _ hfirst
  -- the last operand read so far starts a phrase, which the earlier operands are joined to
  have key : ∃ right, Phrase .power (r₁.before ts) right r' ∧ e = joinRight [] right := by
    refine of_rounds (P := fun read r => ∀ ls, Derives .unary ls read.2 →
        Precedence.unary.continues r.current.kind = false →
        ∃ right, Phrase .power (r.before ls) right r' ∧ e = joinRight read.1 right)
      hrounds ?_ ?_ ts hts hstop
    · intro read r hround ls hls htighter
      obtain ⟨k, r₂, hkind, hrest⟩ := hround.of_bind
      obtain ⟨rfl, rfl⟩ := hkind.of_currentKind
      split at hrest
      · obtain ⟨op, r₃, -, hoperands⟩ := hrest.of_bind
        obtain ⟨right, r₄, -, hagain⟩ := hoperands.of_bind
        cases hagain.of_pure.1
      · next hother =>
          obtain ⟨hdone, rfl⟩ := hrest.of_pure
          cases hdone
          refine ⟨read.2, ⟨ls, rfl, .tighter (by decide) hls, ?_⟩, rfl⟩
          rw [Precedence.continues_eq]
          simp [Precedence.tighter, htighter, Precedence.operators, hother]
    · intro read r read' r₂ hround hnext ls hls _
      obtain ⟨k, r₃, hkind, hrest⟩ := hround.of_bind
      obtain ⟨rfl, rfl⟩ := hkind.of_currentKind
      split at hrest
      · next hop =>
          obtain ⟨op, r₄, hadvance, hoperands⟩ := hrest.of_bind
          obtain rfl := hadvance.of_advance (by rw [hop]; decide)
          obtain ⟨next, r₅, hright, hpure⟩ := hoperands.of_bind
          obtain ⟨hagain, rfl⟩ := hpure.of_pure
          cases hagain
          obtain ⟨us, rfl, hus, hstop⟩ := hoperand _ _ _ hright
          obtain ⟨right, ⟨rs, hrs, hphrase, hend⟩, rfl⟩ := hnext us hus hstop
          have hop : op.kind ∈ Precedence.power.operators := by
            simpa [Precedence.operators] using hop
          exact ⟨.binary read.2 op right, ⟨ls ++ op :: rs, by
            rw [hrs]
            simp, .power hop hls hphrase, hend⟩, rfl⟩
      · cases hrest.of_pure.1
  obtain ⟨right, hphrase, rfl⟩ := key
  exact hphrase

/-! ## Operators in front -/

theorem of_front {ops : List Token} (h : Reads (front limit) r ops r') :
    ∃ ts, r = r'.before ts ∧ ops = ts.reverse ∧ ∀ t ∈ ts, t.kind ∈ frontOperators := by
  have key : ∃ ts, r = r'.before ts ∧ ops = ts.reverse ++ [] ∧
      ∀ t ∈ ts, t.kind ∈ frontOperators := by
    refine of_rounds (P := fun before r => ∃ ts, r = r'.before ts ∧ ops = ts.reverse ++ before ∧
      ∀ t ∈ ts, t.kind ∈ frontOperators) h ?_ ?_
    · intro before r hround
      obtain ⟨k, r₁, hkind, hrest⟩ := hround.of_bind
      obtain ⟨rfl, rfl⟩ := hkind.of_currentKind
      split at hrest
      · obtain ⟨op, r₂, -, hagain⟩ := hrest.of_bind
        cases hagain.of_pure.1
      · obtain ⟨hdone, rfl⟩ := hrest.of_pure
        cases hdone
        exact ⟨[], rfl, rfl, by simp⟩
    · intro before r before' r₁ hround ⟨ts, hts, hops, hkinds⟩
      obtain ⟨k, r₂, hkind, hrest⟩ := hround.of_bind
      obtain ⟨rfl, rfl⟩ := hkind.of_currentKind
      split at hrest
      · next hop =>
          have hop : r₂.current.kind ∈ frontOperators := by simpa using hop
          obtain ⟨op, r₃, hadvance, hpure⟩ := hrest.of_bind
          obtain rfl := hadvance.of_advance (by rintro heof; simp [heof, frontOperators] at hop)
          obtain ⟨hagain, rfl⟩ := hpure.of_pure
          cases hagain
          subst hts
          exact ⟨op :: ts, by simp, by simpa using hops, by simpa using ⟨hop, hkinds⟩⟩
      · cases hrest.of_pure.1
  simpa using key

theorem of_unary [Advances operand]
    (hoperand : ∀ r e r', Reads operand r e r' → Phrase .call r e r')
    (h : Reads (unary limit operand) r e r') : Phrase .unary r e r' := by
  obtain ⟨ops, r₁, hops, hrest⟩ := h.of_bind
  obtain ⟨fronts, rfl, rfl, hkinds⟩ := hops.of_front
  obtain ⟨inner, r₂, hinner, hpure⟩ := hrest.of_bind
  obtain ⟨rfl, rfl⟩ := hpure.of_pure
  obtain ⟨ts, rfl, hts, hstop⟩ := hoperand _ _ _ hinner
  have hphrase : ∀ fronts : List Token, (∀ t ∈ fronts, t.kind ∈ frontOperators) →
      Derives .unary (fronts ++ ts) (fronts.reverse.foldl (fun e op => .unary op e) inner) := by
    intro fronts hkinds
    induction fronts with
    | nil => exact .tighter (by decide) hts
    | cons op fronts ih =>
        have hinner := ih fun t ht => hkinds t (by simp [ht])
        simpa using Derives.unary (hkinds op (by simp)) hinner
  exact ⟨fronts ++ ts, by simp, hphrase fronts hkinds, hstop⟩

/-! ## Calls and primaries -/

theorem of_arguments [Advances expr] {args : List Expr}
    (hexpr : ∀ r e r', Reads expr r e r' → Phrase .assignment r e r')
    (h : Reads (arguments limit expr) r args r') :
    ∃ (parts : List (List Token × Expr)) (ts : List Token), args = parts.map Prod.snd ∧
      parts.length ≤ 255 ∧ CommaSeparated (parts.map Prod.fst) ts ∧
      (∀ part ∈ parts, Derives .assignment part.1 part.2) ∧ r = r'.before ts := by
  obtain ⟨k, r₁, hkind, hrest⟩ := h.of_bind
  obtain ⟨rfl, rfl⟩ := hkind.of_currentKind
  split at hrest
  · obtain ⟨rfl, rfl⟩ := hrest.of_pure
    exact ⟨[], [], rfl, by decide, .nil, by simp, rfl⟩
  · have hcheck : ∀ (n : Nat) (r r' : Reading), Reads (do
        if maxArguments ≤ n then report (← Grammar.current) .tooManyArguments) r () r' →
        r' = r ∧ n < 255 := by
      intro n r r' hcheck
      split at hcheck
      · obtain ⟨t, r₂, -, hreport⟩ := hcheck.of_bind
        exact hreport.of_report.elim
      · next hcount => exact ⟨hcheck.of_pure.2, Nat.lt_of_not_le hcount⟩
    obtain ⟨parts, rfl, hitems, hcounts⟩ := hrest.of_commaSeparated (· < 255)
      (fun ts e => Derives .assignment ts e) hcheck (fun r e r' h => by
        obtain ⟨ts, hts, hphrase, -⟩ := hexpr r e r' h
        exact ⟨ts, hts, hphrase⟩)
    obtain ⟨ts, hts, rfl⟩ := hitems.tokens
    refine ⟨parts, ts, rfl, ?_, hts, hitems.spells, rfl⟩
    have hlast := hcounts (parts.length - 1)
      (Nat.sub_lt (List.length_pos_iff.mpr hitems.nonempty) Nat.one_pos)
    omega

theorem of_primary [Advances expr] (hexpr : ∀ r e r', Reads expr r e r' → Phrase .assignment r e r')
    (h : Reads (primary expr) r e r') : Phrase .primary r e r' := by
  obtain ⟨t, r₁, hcurrent, hrest⟩ := h.of_bind_of fun t => by
    split <;> infer_instance
  obtain ⟨rfl, rfl⟩ := hcurrent.of_current
  have hliteral : ∀ v, r₁.current.value? = some v →
      Reads (do let _ ← Grammar.advance; return .literal v) r₁ e r' → Phrase .primary r₁ e r' := by
    intro v hv h
    obtain ⟨t, r₂, hadvance, hpure⟩ := h.of_bind
    obtain rfl := hadvance.of_advance (by rintro heof; simp [Token.value?, heof] at hv)
    obtain ⟨rfl, rfl⟩ := hpure.of_pure
    exact ⟨[t], rfl, .literal hv, rfl⟩
  split at hrest
  · next hkind => exact hliteral _ (by simp [Token.value?, hkind]) hrest
  · next hkind => exact hliteral _ (by simp [Token.value?, hkind]) hrest
  · next hkind => exact hliteral _ (by simp [Token.value?, hkind]) hrest
  · next hkind => exact hliteral _ (by simp [Token.value?, hkind]) hrest
  · next hkind => exact hliteral _ (by simp [Token.value?, hkind]) hrest
  · next hkind => exact hliteral _ (by simp [Token.value?, hkind]) hrest
  · next hkind =>
      obtain ⟨t, r₂, hadvance, hpure⟩ := hrest.of_bind
      obtain rfl := hadvance.of_advance (by rw [hkind]; decide)
      obtain ⟨rfl, rfl⟩ := hpure.of_pure
      exact ⟨[t], rfl, .name hkind, rfl⟩
  · next hkind =>
      obtain ⟨left, r₂, hadvance, hgroup⟩ := hrest.of_bind
      obtain rfl := hadvance.of_advance (by rw [hkind]; decide)
      obtain ⟨inner, r₃, hinner, hclose⟩ := hgroup.of_bind
      obtain ⟨ts, rfl, hts, -⟩ := hexpr _ _ _ hinner
      obtain ⟨right, r₄, hexpect, hpure⟩ := hclose.of_bind
      obtain ⟨hright, rfl⟩ := hexpect.of_expect (by decide)
      obtain ⟨rfl, rfl⟩ := hpure.of_pure
      exact ⟨left :: (ts ++ [right]), by simp, .group hkind hright hts, rfl⟩
  · exact hrest.of_fail.elim

theorem of_call [Advances expr] (hexpr : ∀ r e r', Reads expr r e r' → Phrase .assignment r e r')
    (h : Reads (call limit expr) r e r') : Phrase .call r e r' := by
  obtain ⟨first, r₁, hfirst, hrounds⟩ := h.of_bind
  obtain ⟨ts, rfl, hts, -⟩ := hfirst.of_primary hexpr
  refine of_rounds (P := fun callee r => ∀ cs, Derives .call cs callee →
      Phrase .call (r.before cs) e r') hrounds ?_ ?_ ts (.tighter (by decide) hts)
  · intro callee r hround cs hcs
    obtain ⟨found, r₂, heat, hrest⟩ := hround.of_bind
    rcases heat.of_eat (by decide) with ⟨rfl, -⟩ | ⟨rfl, hstop, rfl⟩
    · obtain ⟨args, r₃, -, hclose⟩ := hrest.of_bind
      obtain ⟨paren, r₄, -, hpure⟩ := hclose.of_bind
      cases hpure.of_pure.1
    · obtain ⟨hdone, rfl⟩ := hrest.of_pure
      cases hdone
      refine ⟨cs, rfl, hcs, ?_⟩
      rw [Precedence.continues_eq]
      simpa [Precedence.operators] using ⟨hstop, rfl⟩
  · intro callee r callee' r₂ hround hnext cs hcs
    obtain ⟨found, r₃, heat, hrest⟩ := hround.of_bind
    rcases heat.of_eat (by decide) with ⟨rfl, left, hleft, rfl⟩ | ⟨rfl, -, rfl⟩
    · obtain ⟨args, r₄, hargs, hclose⟩ := hrest.of_bind
      obtain ⟨parts, ts, rfl, hcount, hcommas, hparts, rfl⟩ := hargs.of_arguments hexpr
      obtain ⟨right, r₅, hexpect, hpure⟩ := hclose.of_bind
      obtain ⟨hright, rfl⟩ := hexpect.of_expect (by decide)
      obtain ⟨hagain, rfl⟩ := hpure.of_pure
      cases hagain
      simpa using hnext _ (.call hleft hright hcount hcommas hcs hparts)
    · cases hrest.of_pure.1

/-! ## Assignments -/

theorem of_operation [Advances expr]
    (hexpr : ∀ r e r', Reads expr r e r' → Phrase .assignment r e r')
    (h : Reads (operation limit expr) r e r') : Phrase .or r e r' := by
  have hpower : ∀ r e r', Reads (binary limit (power limit (unary limit (call limit expr))) [])
      r e r' → Phrase .power r e r' := fun _ _ _ h =>
    h.of_power fun _ _ _ h => h.of_unary fun _ _ _ h => h.of_call hexpr
  refine of_leftChain (p := .or) rfl (fun _ _ _ h => ?_) h
  refine of_leftChain (p := .and) rfl (fun _ _ _ h => ?_) h
  refine of_leftChain (p := .equality) rfl (fun _ _ _ h => ?_) h
  refine of_leftChain (p := .comparison) rfl (fun _ _ _ h => ?_) h
  refine of_leftChain (p := .term) rfl (fun _ _ _ h => ?_) h
  exact of_leftChain (p := .factor) rfl hpower h

def assignTo (target : Expr) (op : Token) (value : Expr) : Parse Expr :=
  match target with
  | .var name => return .assign name op value
  | other => do
      report op .assignmentTarget
      return other

instance (target : Expr) (op : Token) (value : Expr) : Advances (assignTo target op value) := by
  unfold assignTo
  split <;> infer_instance

theorem assignment_eq (limit : Nat) (expr : Parse Expr) : assignment limit expr = (do
    let target ← operation limit expr
    if assignmentOperators.contains (← Grammar.currentKind) then
      let op ← Grammar.advance
      assignTo target op (← expr)
    else
      return target) :=
  rfl

theorem of_assignTo {target value : Expr} {op : Token}
    (h : Reads (assignTo target op value) r e r') :
    ∃ name, target = .var name ∧ e = .assign name op value ∧ r' = r := by
  unfold assignTo at h
  split at h
  · next name =>
      obtain ⟨rfl, rfl⟩ := h.of_pure
      exact ⟨name, rfl, rfl, rfl⟩
  · obtain ⟨_, r₁, hreport, -⟩ := h.of_bind
    exact hreport.of_report.elim

theorem of_assignment [Advances expr]
    (hexpr : ∀ r e r', Reads expr r e r' → Phrase .assignment r e r')
    (h : Reads (assignment limit expr) r e r') : Phrase .assignment r e r' := by
  rw [assignment_eq] at h
  obtain ⟨target, r₁, htarget, hrest⟩ := h.of_bind
  obtain ⟨ts, rfl, hts, hstop⟩ := htarget.of_operation hexpr
  obtain ⟨k, r₂, hkind, hchoice⟩ := hrest.of_bind
  obtain ⟨rfl, rfl⟩ := hkind.of_currentKind
  split at hchoice
  · next hop =>
      have hop : r₂.current.kind ∈ Precedence.assignment.operators :=
        List.contains_iff_mem.mp hop
      obtain ⟨op, r₃, hadvance, hvalue⟩ := hchoice.of_bind
      obtain rfl := hadvance.of_advance (Precedence.operators_ne_eof hop)
      obtain ⟨value, r₄, hread, hassign⟩ := hvalue.of_bind
      obtain ⟨us, rfl, hus, hend⟩ := hexpr _ _ _ hread
      obtain ⟨name, rfl, rfl, rfl⟩ := hassign.of_assignTo
      obtain ⟨rfl, hname⟩ := hts.of_var
      exact ⟨name :: op :: us, by simp, .assign hname hop hus, hend⟩
  · next hother =>
      obtain ⟨rfl, rfl⟩ := hchoice.of_pure
      refine ⟨ts, rfl, .tighter (by decide) hts, ?_⟩
      have hother : Precedence.assignment.operators.contains r'.current.kind = false :=
        Bool.eq_false_iff.mpr hother
      rw [Precedence.continues_eq, hother]
      exact hstop

theorem of_expression (h : Reads (expression limit) r e r') : Phrase .assignment r e r' :=
  of_nested (fun _ _ => inferInstance) h fun _ _ hexpr _ _ _ h => h.of_assignment hexpr

end Reads

end Scriptlet.Grammar
