import Scriptlet.Proofs.Grammar.Gives
import Scriptlet.Proofs.Grammar.OneLine
import Scriptlet.Proofs.Tree.Parts

/-!
# Where trees and errors come from

Reading makes no token up: the tokens that trees and errors keep are tokens that were read.  Nor is
every check one that can fail, as some look for a token that was already seen.

Both are carried by one judgement on what is read and on the reading that is left.  Here are its
rules, one for each way in which readers are put together, and expressions.
-/

namespace Scriptlet.Grammar

/-- Whether the check can fail.  A block ends right before a word that closes it, and the names and
the sign of an assignment to several names are looked for before the first of them is taken. -/
def Cause.arises : Cause → Bool
  | .endAfter _ | .variableName | .assignmentSign => false
  | _ => true

variable {known : Token → Prop}

namespace Reading

structure Sound (known : Token → Prop) (r : Reading) : Prop where
  tokens : ∀ t ∈ r.tokens, known t
  errors : ∀ e ∈ r.errors.toList, known e.token ∧ e.cause.arises

variable {r r' : Reading}

theorem Sound.current (h : r.Sound known) : known r.current :=
  h.tokens r.current List.mem_cons_self

theorem Sound.record {e : SyntaxError} (h : r.Sound known) (htoken : known e.token)
    (hcause : e.cause.arises) : (r.record e).Sound known := by
  refine ⟨h.tokens, fun e' he' => ?_⟩
  simp only [Reading.record, Array.toList_push, List.mem_append, List.mem_singleton] at he'
  rcases he' with he' | rfl
  · exact h.errors e' he'
  · exact ⟨htoken, hcause⟩

theorem Sound.of_extends (h : r.Sound known) (hext : r.Extends r')
    (herrors : r'.errors = r.errors) : r'.Sound known := by
  obtain ⟨us, hus, -⟩ := hext.tokens
  refine ⟨fun t ht => h.tokens t ?_, ?_⟩
  · rw [hus]
    exact List.mem_append_right us ht
  · rw [herrors]
    exact h.errors

theorem Sound.advance (h : r.Sound known) : r.advance.Sound known :=
  h.of_extends (.advance r) (errors_advance r)

end Reading

open Reading (Sound)

/-- From `r` on `x` reads something of which `Q` holds together with what is left, or is given up
with an error that can arise.  No token is made up on the way. -/
def YieldsAt {α : Type} (known : Token → Prop) (r : Reading) (x : Parse α)
    (Q : α → Reading → Prop) : Prop :=
  r.Sound known → match x r with
    | .ok a r' => r'.Sound known ∧ Q a r'
    | .error e r' => (r'.record e).Sound known

def Yields {α : Type} (known : Token → Prop) (x : Parse α) (P : α → Prop) : Prop :=
  ∀ r, YieldsAt known r x fun a _ => P a

variable {α β : Type} {r : Reading} {x : Parse α}

namespace YieldsAt

variable {P Q : α → Reading → Prop} {R : β → Reading → Prop}

/-! ## Sequencing -/

theorem pure {a : α} (h : Q a r) : YieldsAt known r (pure a) Q :=
  fun hr => ⟨hr, h⟩

theorem bind {f : α → Parse β} (hx : YieldsAt known r x P)
    (hf : ∀ a r', P a r' → YieldsAt known r' (f a) R) : YieldsAt known r (x >>= f) R := by
  intro hr
  have hfirst := hx hr
  simp only [Bind.bind, EStateM.bind]
  cases hread : x r with
  | ok a r' =>
      rw [hread] at hfirst
      exact hf a r' hfirst.2 hfirst.1
  | error e r' => rwa [hread] at hfirst

theorem map {f : α → β} (hx : YieldsAt known r x P) (hf : ∀ a r', P a r' → R (f a) r') :
    YieldsAt known r (f <$> x) R := by
  rw [map_eq_pure_bind]
  exact hx.bind fun a r' ha => pure (hf a r' ha)

theorem throw {e : SyntaxError} (htoken : known e.token) (hcause : e.cause.arises) :
    YieldsAt known r (throw e) Q :=
  fun hr => hr.record htoken hcause

theorem fail {cause : Cause} (hcause : cause.arises) : YieldsAt known r (fail cause) Q :=
  fun hr => hr.record hr.current hcause

/-! ## Single tokens -/

theorem current_bind {f : Token → Parse β}
    (h : known r.current → YieldsAt known r (f r.current) R) :
    YieldsAt known r (current >>= f) R :=
  fun hr => h hr.current hr

theorem currentKind_bind {f : Kind → Parse β} (h : YieldsAt known r (f r.current.kind) R) :
    YieldsAt known r (currentKind >>= f) R :=
  h

theorem advance_bind {f : Token → Parse β}
    (h : known r.current → YieldsAt known r.advance (f r.current) R) :
    YieldsAt known r (advance >>= f) R :=
  fun hr => h hr.current hr.advance

theorem report {token : Token} {cause : Cause} (htoken : known token) (hcause : cause.arises) :
    YieldsAt known r (report token cause) fun _ _ => True :=
  fun hr => ⟨hr.record htoken hcause, trivial⟩

theorem skipSeparators : YieldsAt known r skipSeparators fun _ _ => True :=
  fun hr => ⟨hr.of_extends (.skipSeparators r) rfl, trivial⟩

theorem eat_bind {kind : Kind} {f : Bool → Parse β}
    (htaken : r.current.kind = kind → YieldsAt known r.advance (f true) R)
    (hleft : r.current.kind ≠ kind → YieldsAt known r (f false) R) :
    YieldsAt known r (eat kind >>= f) R := by
  refine bind (P := fun found r' => YieldsAt known r' (f found) R) ?_ fun _ _ h => h
  refine currentKind_bind ?_
  split
  · next hkind => exact advance_bind fun _ => pure (htaken hkind)
  · next hkind => exact pure (hleft hkind)

theorem expect_bind_of_eq {kind : Kind} {cause : Cause} {f : Token → Parse β}
    (hkind : r.current.kind = kind)
    (h : known r.current → YieldsAt known r.advance (f r.current) R) :
    YieldsAt known r (expect kind cause >>= f) R := by
  intro hr
  rw [Pairing.bind_ok (expect_of_eq hkind)]
  exact h hr.current hr.advance

/-! ## Repetition -/

theorem rounds {step : α → Parse (Round α β)}
    (hstep : ∀ a r, P a r →
      YieldsAt known r (step a) fun round r' => round.Holds (P · r') (R · r'))
    (limit : Nat) {a : α} (ha : P a r) : YieldsAt known r (rounds step limit a) R := by
  induction limit generalizing a r with
  | zero => exact .fail rfl
  | succ limit ih =>
      refine (hstep a r ha).bind fun round r' hround => ?_
      cases round with
      | again a' => exact ih hround
      | done b => exact .pure hround

end YieldsAt

namespace Yields

variable {P : α → Prop} {Q : β → Prop}

theorem pure {a : α} (h : P a) : Yields known (pure a) P :=
  fun _ => .pure h

theorem bind {f : α → Parse β} (hx : Yields known x P) (hf : ∀ a, P a → Yields known (f a) Q) :
    Yields known (x >>= f) Q :=
  fun r => (hx r).bind fun a r' ha => hf a ha r'

theorem fail {cause : Cause} (hcause : cause.arises) : Yields known (fail cause) P :=
  fun _ => .fail hcause

theorem advance : Yields known advance known :=
  fun _ hr => ⟨hr.advance, hr.current⟩

theorem eat (kind : Kind) : Yields known (eat kind) fun _ => True := by
  refine fun r => .currentKind_bind ?_
  split
  · exact .advance_bind fun _ => .pure trivial
  · exact .pure trivial

theorem expect (kind : Kind) {cause : Cause} (hcause : cause.arises) :
    Yields known (expect kind cause) known := by
  refine fun r => .currentKind_bind ?_
  split
  · exact advance r
  · exact .fail hcause

theorem rounds {step : α → Parse (Round α β)}
    (hstep : ∀ a, P a → Yields known (step a) (Round.Holds P Q)) (limit : Nat) {a : α} (ha : P a) :
    Yields known (rounds step limit a) Q :=
  fun _ => .rounds (P := fun a _ => P a) (fun a r ha => hstep a ha r) limit ha

theorem nested {body : Parse α → Parse α}
    (hbody : ∀ x, Yields known x P → Yields known (body x) P) (limit : Nat) :
    Yields known (nested body limit) P := by
  induction limit with
  | zero => exact fail rfl
  | succ limit ih => exact hbody _ ih

theorem commaSeparated {check : Nat → Parse Unit}
    (hcheck : ∀ count, Yields known (check count) fun _ => True) (hx : Yields known x P)
    (limit : Nat) : Yields known (commaSeparated limit check x) fun items => ∀ a ∈ items, P a := by
  refine rounds (P := fun items => ∀ a ∈ items, P a) (fun items hitems => ?_) limit (by simp)
  refine (hcheck _).bind fun _ _ => hx.bind fun a ha => (eat _).bind fun comma _ => ?_
  have hpush : ∀ b ∈ items.push a, P b := by
    simpa [or_imp, forall_and] using And.intro hitems ha
  split
  · exact pure hpush
  · exact pure (by simpa [Round.Holds] using hpush)

end Yields

/-! ## Expressions -/

section Expressions

variable {limit : Nat} {operand expr : Parse Expr}

theorem keeps_join {left right : Expr} {op : Token} (hleft : left.Keeps known) (hop : known op)
    (hright : right.Keeps known) : (join left op right).Keeps known := by
  have hparts : ∀ e ∈ [left, right], e.Keeps known := by simp [hleft, hright]
  unfold join
  split <;> exact .intro (by simpa [Expr.ownTokens] using hop) hparts

theorem yields_leftChain {operators : List Kind}
    (h : Yields known operand (Expr.Keeps known)) :
    Yields known (leftChain limit operators operand) (Expr.Keeps known) := by
  refine h.bind fun first hfirst => .rounds (fun left hleft r => .currentKind_bind ?_) limit hfirst
  split
  · exact .advance_bind fun hop => (h _).bind fun right _ hright =>
      .pure (keeps_join hleft hop hright)
  · exact .pure hleft

theorem yields_binary (levels : List (List Kind)) (h : Yields known operand (Expr.Keeps known)) :
    Yields known (binary limit operand levels) (Expr.Keeps known) := by
  induction levels with
  | nil => exact h
  | cons operators tighter ih => exact yields_leftChain ih

theorem keeps_joinRight {before : List (Expr × Token)} {last : Expr}
    (hbefore : ∀ b ∈ before, b.1.Keeps known ∧ known b.2) (hlast : last.Keeps known) :
    (joinRight before last).Keeps known := by
  induction before generalizing last with
  | nil => exact hlast
  | cons b before ih =>
      rw [List.forall_mem_cons] at hbefore
      obtain ⟨⟨hleft, hop⟩, hbefore⟩ := hbefore
      refine ih hbefore (.intro (by simpa [Expr.ownTokens] using hop) ?_)
      simp [Expr.parts, hleft, hlast]

theorem yields_power (h : Yields known operand (Expr.Keeps known)) :
    Yields known (power limit operand) (Expr.Keeps known) := by
  refine h.bind fun first hfirst => .rounds (P := fun read =>
    (∀ b ∈ read.1, b.1.Keeps known ∧ known b.2) ∧ read.2.Keeps known) ?_ limit ⟨by simp, hfirst⟩
  rintro ⟨before, last⟩ ⟨hbefore, hlast⟩ r
  refine .currentKind_bind ?_
  split
  · refine .advance_bind fun hop => (h _).bind fun right _ hright => .pure ⟨?_, hright⟩
    exact List.forall_mem_cons.mpr ⟨⟨hlast, hop⟩, hbefore⟩
  · exact .pure (keeps_joinRight hbefore hlast)

theorem yields_front : Yields known (front limit) fun ops => ∀ op ∈ ops, known op := by
  refine .rounds (P := fun ops => ∀ op ∈ ops, known op) (fun ops hops r => .currentKind_bind ?_)
    limit (by simp)
  split
  · exact .advance_bind fun hop => .pure (List.forall_mem_cons.mpr ⟨hop, hops⟩)
  · exact .pure hops

theorem yields_unary (h : Yields known operand (Expr.Keeps known)) :
    Yields known (unary limit operand) (Expr.Keeps known) := by
  refine yields_front.bind fun ops hops => h.bind fun e he => .pure ?_
  induction ops generalizing e with
  | nil => exact he
  | cons op ops ih =>
      rw [List.forall_mem_cons] at hops
      apply ih hops.2
      exact .intro (by simpa [Expr.ownTokens] using hops.1) (by simpa [Expr.parts] using he)

theorem yields_arguments (h : Yields known expr (Expr.Keeps known)) :
    Yields known (arguments limit expr) fun args => ∀ e ∈ args, e.Keeps known := by
  refine fun r => .currentKind_bind ?_
  split
  · exact .pure (by simp)
  · refine Yields.commaSeparated (fun count r => ?_) h limit r
    split
    · exact .current_bind fun hcurrent => .report hcurrent rfl
    · exact .pure trivial

theorem yields_primary (h : Yields known expr (Expr.Keeps known)) :
    Yields known (primary expr) (Expr.Keeps known) := by
  have hliteral : ∀ {r : Reading} (value : Literal),
      YieldsAt known r (advance >>= fun _ => pure (Expr.literal value)) fun e _ => e.Keeps known :=
    fun value => .advance_bind fun _ => .pure (.intro (List.forall_mem_nil _) nofun)
  intro r
  rw [Pairing.primary_eq]
  refine .current_bind fun hcurrent => ?_
  rw [Pairing.primaryFrom]
  split
  · exact hliteral _
  · exact hliteral _
  · exact hliteral _
  · exact hliteral _
  · exact hliteral _
  · exact hliteral _
  · exact .advance_bind fun _ => .pure (.intro (by simpa [Expr.ownTokens] using hcurrent) nofun)
  · refine .advance_bind fun _ => (h _).bind fun inner _ hinner => ?_
    refine (Yields.expect _ rfl _).bind fun _ _ _ => .pure (.intro (List.forall_mem_nil _) ?_)
    simpa [Expr.parts] using hinner
  · exact .fail rfl

theorem yields_call (h : Yields known expr (Expr.Keeps known)) :
    Yields known (call limit expr) (Expr.Keeps known) := by
  refine (yields_primary h).bind fun callee hcallee =>
    .rounds (fun callee hcallee => (Yields.eat _).bind fun found _ => ?_) limit hcallee
  split
  · refine (yields_arguments h).bind fun args hargs =>
      (Yields.expect _ rfl).bind fun paren hparen => .pure ?_
    exact .intro (by simpa [Expr.ownTokens] using hparen)
      (List.forall_mem_cons.mpr ⟨hcallee, hargs⟩)
  · exact .pure hcallee

theorem yields_operation (h : Yields known expr (Expr.Keeps known)) :
    Yields known (operation limit expr) (Expr.Keeps known) :=
  yields_binary binaryLevels (yields_power (yields_unary (yields_call h)))

theorem yields_assignment (h : Yields known expr (Expr.Keeps known)) :
    Yields known (assignment limit expr) (Expr.Keeps known) := by
  refine (yields_operation h).bind fun target htarget r => .currentKind_bind ?_
  split
  · refine .advance_bind fun hop => (h _).bind fun value _ hvalue => ?_
    split
    · next name =>
        have hname : known name := (Expr.all_iff.mp htarget).1 name (by simp [Expr.ownTokens])
        refine .pure (.intro ?_ (by simpa [Expr.parts] using hvalue))
        simp [Expr.ownTokens, hname, hop]
    · exact (YieldsAt.report hop rfl).bind fun _ _ _ => .pure htarget
  · exact .pure htarget

theorem yields_expression : Yields known (expression limit) (Expr.Keeps known) :=
  .nested (fun _ h => yields_assignment h) limit

end Expressions

end Scriptlet.Grammar
