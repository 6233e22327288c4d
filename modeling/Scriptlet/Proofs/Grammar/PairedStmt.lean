import Scriptlet.Proofs.Grammar.PairedExpr
import Scriptlet.Proofs.Grammar.Progress
import Scriptlet.Proofs.Grammar.StmtSound

/-!
# Statements read in step

Blocks look for the next statement behind separators, so they start where two readings may have
parted; the first of the two then misses the end of the block at its end mark.  A statement that is
dropped leaves both readings where the next statement may start.
-/

namespace Scriptlet.Grammar.Pairing

variable {P : Pairing} {n m limit limit' : Nat} {expr expr' : Parse Expr} {stmt stmt' : Parse Stmt}

/-! ## Ends of simple statements -/

theorem isWord_of_contains {ks : KindSet} (hend : ks.contains .eof = false)
    (hnewline : ks.contains .newline = false) (hsemicolon : ks.contains .semicolon = false) :
    ∀ k, ks.contains k → k.isWord := by
  intro k hk
  by_contra hword
  have hcases : k = .newline ∨ k = .semicolon ∨ k = .eof := by
    simpa [Kind.isWord, Kind.isSeparator, or_assoc, imp_iff_not_or] using hword
  rcases hcases with rfl | rfl | rfl <;> simp_all

theorem Agree.atTerminator :
    P.Agree (P.Inside n) atTerminator atTerminator (Gives (fun _ => P.Inside n) id) := by
  refine Agree.kind (fun k _ => ?_) (fun _ => ?_) fun k k' hk hk' => ?_
  · exact .pure rfl fun _ _ h => h.1.1
  · exact .pure rfl fun _ _ => id
  · exact .pure (by simp [hk, hk']) fun _ _ => And.left

theorem Agree.terminator :
    P.Agree (P.Inside n) terminator terminator (Gives (fun _ => P.Between n) id) := by
  refine Agree.kind (fun k hk => ?_) (fun _ => ?_) fun k k' hk hk' => ?_
  · rw [if_neg (Kind.not_separator_of_isWord hk)]
    split
    · exact .pure rfl fun _ _ h => .inl h.1.1
    · exact (Agree.fail (by simp)).of_pre fun _ _ h => h.1.1
  · exact .pure rfl fun _ _ => .inl
  · rw [if_pos hk, if_pos hk']
    rintro r r' ⟨hr, hsep⟩
    have hbetween := (hr.mono (Nat.le_succ n)).advance (Reading.Extends.isSeparator_ne_eof hsep)
    exact .ok ⟨rfl, hbetween.1⟩

/-! ## Blocks -/

theorem Agree.keepRead {read : Array Stmt} {read' : Array Stmt} {s : Option Stmt}
    {g : Array Stmt → Array Stmt} {h : List Stmt → List Stmt}
    {left : Reading → Reading → Prop} (done : Reading → Reading → Prop) (hread : read' = g read)
    (hpush : ∀ s, (g read).push (Stmt.renumber P.line s) = g (read.push s)) :
    P.Agree left (keepRead read s) (Grammar.keepRead read' (s.map (Stmt.renumber P.line)))
      (Gives (roundLeft left done) (Round.map g h)) := by
  subst hread
  cases s with
  | none => exact .pure rfl fun _ _ => id
  | some s => exact .pure (by rw [hpush]; rfl) fun _ _ => id

theorem currentKind_bind {α : Type} (f : Kind → Parse α) (r : Reading) :
    (currentKind >>= f) r = f r.current.kind r :=
  rfl

theorem bind_ok {α β : Type} {x : Parse α} {f : α → Parse β} {a : α} {r r' : Reading}
    (h : x r = .ok a r') : (x >>= f) r = f a r' := by
  simp [Bind.bind, EStateM.bind, h]

theorem not_contains_eof {closers : KindSet} (hclosers : ∀ k, closers.contains k → k.isWord) :
    ¬closers.contains .eof :=
  fun h => Kind.ne_eof_of_isWord (hclosers _ h) rfl

theorem lostIn_fail {α : Type} (happart : P.apart) {r : Reading} (hlast : r.current = P.last)
    (cause : Cause) : P.LostIn (fail cause r : EStateM.Result SyntaxError Reading α) :=
  lostOn_record.mpr (.inr ⟨happart, hlast⟩)

theorem Agree.block [Advances stmt] {closers : KindSet}
    (hclosers : ∀ k, closers.contains k → k.isWord) (hm : m ≤ n) (hlimit : n ≤ limit)
    (hlimit' : n ≤ limit')
    (hstmt : P.AgreeTo P.Between (Stmt.renumber P.line) n stmt stmt') {opener : Token} :
    P.Agree (P.Between m) (block limit stmt closers opener)
      (Grammar.block limit' stmt' closers (opener.renumber P.line))
      (Gives (fun _ => P.Inside m) (List.map (Stmt.renumber P.line))) := by
  cases m with
  | zero => exact fun _ _ hr => absurd hr not_between_zero
  | succ m =>
      rw [block_eq, block_eq]
      refine Agree.rounds (I := P.Between) (J := fun m => P.Inside (m + 1))
        (g := Array.map (Stmt.renumber P.line)) (fun _ _ => not_between_zero)
        (fun _ _ _ h => h.mono (Nat.le_succ _)) (fun k hk read => ?_)
        (Nat.lt_of_lt_of_le hm hlimit) (Nat.lt_of_lt_of_le hm hlimit') (by simp)
      have hround : P.Agree (fun r r' => P.Inside (k + 1) r r' ∧ r.current.kind ≠ .eof)
          (Grammar.declaration stmt >>= Grammar.keepRead read)
          (Grammar.declaration stmt' >>= Grammar.keepRead (read.map (Stmt.renumber P.line)))
          (Gives (roundLeft (P.Between k) (P.Inside (k + 1)))
            (Round.map (Array.map (Stmt.renumber P.line)) (List.map (Stmt.renumber P.line)))) :=
        (Agree.declaration (hstmt k (Nat.lt_of_lt_of_le (Nat.lt_succ_of_le hk) hm))).bind fun s =>
          Agree.keepRead _ rfl (by simp)
      have hend := not_contains_eof hclosers
      refine Agree.skipSeparators (fun happart r hlast => ?_) ?_
      · have hkind : r.current.kind = .eof := hlast ▸ P.kind_last
        rw [currentKind_bind, hkind, if_neg hend, if_pos rfl]
        exact lostIn_fail happart hlast _
      refine Agree.kind (fun c hc => ?_) (fun _ => ?_) fun c c' hc hc' => ?_
      · split
        · exact .pure (by simp [Round.map]) fun _ _ h => h.1.1
        · rw [if_neg (Kind.ne_eof_of_isWord hc), if_neg (Kind.ne_eof_of_isWord hc)]
          exact hround.of_pre fun _ _ h => ⟨h.1.1, Kind.ne_eof_of_isWord h.1.2⟩
      · rw [if_neg hend, if_pos rfl, if_neg hend, if_pos rfl]
        exact .fail (by simp)
      · have hnot : ∀ {c : Kind}, c.isSeparator → ¬closers.contains c :=
          fun hc h => Kind.not_separator_of_isWord (hclosers _ h) hc
        rw [if_neg (hnot hc), if_neg (hnot hc'), if_neg (Reading.Extends.isSeparator_ne_eof hc),
          if_neg (Reading.Extends.isSeparator_ne_eof hc')]
        exact hround.of_pre fun _ _ h => ⟨h.1, Reading.Extends.isSeparator_ne_eof h.2⟩

section Blocks

variable [Advances stmt] (hlimit : n ≤ limit) (hlimit' : n ≤ limit')
variable (hstmt : P.AgreeTo P.Between (Stmt.renumber P.line) n stmt stmt') (hm : m ≤ n)
variable {opener : Token} {construct : Construct}
include hlimit hlimit' hstmt hm

theorem Agree.closedBody :
    P.Agree (P.Inside m) (closedBody limit stmt opener construct)
      (Grammar.closedBody limit' stmt' (opener.renumber P.line) construct)
      (Gives (fun _ => P.Inside m) (List.map (Stmt.renumber P.line))) := by
  have hclosers : ∀ k, closesBody.contains k → k.isWord :=
    isWord_of_contains (by decide) (by decide) (by decide)
  refine ((Agree.block hclosers hm hlimit hlimit' hstmt).of_pre fun _ _ => .inl).bind fun body => ?_
  exact (Agree.expect_keep rfl rfl (by simp)).bind fun _ => .pure rfl fun _ _ => id

theorem Agree.otherwise :
    P.Agree (P.Inside m) (otherwise limit stmt opener construct)
      (Grammar.otherwise limit' stmt' (opener.renumber P.line) construct)
      (Gives (fun _ => P.Inside m) (Option.map (List.map (Stmt.renumber P.line)))) := by
  have hclosers : ∀ k, closesBody.contains k → k.isWord :=
    isWord_of_contains (by decide) (by decide) (by decide)
  have hend : ∀ body : Option (List Stmt), P.Agree (P.Inside m)
      (Grammar.expect .kwEnd (.endAfter construct) >>= fun _ => Pure.pure body)
      (Grammar.expect .kwEnd (.endAfter construct) >>= fun _ =>
        Pure.pure (body.map (List.map (Stmt.renumber P.line))))
      (Gives (fun _ => P.Inside m) (Option.map (List.map (Stmt.renumber P.line)))) :=
    fun body => (Agree.expect_keep rfl rfl (by simp)).bind fun _ => .pure rfl fun _ _ => id
  refine (Agree.eat_keep rfl).bind fun hasElse => ?_
  cases hasElse with
  | true =>
      refine Agree.bind (Agree.map (k := Option.map (List.map (Stmt.renumber P.line))) ?_
        fun _ => rfl) hend
      exact (Agree.block hclosers hm hlimit hlimit' hstmt).of_pre fun _ _ => .inl
  | false => exact hend none

end Blocks

/-! ## Definitions -/

theorem Agree.parameters (hlimit : m ≤ limit) (hlimit' : m ≤ limit') :
    P.Agree (P.Inside m) (parameters limit) (Grammar.parameters limit')
      (Gives (fun _ => P.Inside m) (List.map (Token.renumber P.line))) := by
  rw [parameters_eq, parameters_eq]
  refine Agree.rounds_keep (g := Array.map (Token.renumber P.line)) (fun k hk params => ?_)
    hlimit hlimit' (by simp)
  have hdone : ∀ params : Array Token, P.Agree (P.Inside (k + 1))
      (Pure.pure (.done params.toList) : Parse (Round (Array Token) (List Token)))
      (Pure.pure (.done (params.map (Token.renumber P.line)).toList))
      (Gives (roundLeft (P.Inside k) (P.Inside (k + 1)))
        (Round.map (Array.map (Token.renumber P.line)) (List.map (Token.renumber P.line)))) :=
    fun params => .pure (by simp [Round.map]) fun _ _ => id
  refine Agree.ifKind (fun c hc => hc ▸ rfl) ?_ (hdone params)
  rw [Array.size_map]
  have hname : P.Agree (P.OnWord (k + 1))
      (Grammar.advance >>= fun name => Grammar.eat .comma >>= fun found =>
        if found then currentKind >>= fun c =>
          if c = .identifier then Pure.pure (.again (params.push name))
          else Grammar.fail .parameterName
        else Pure.pure (.done (params.push name).toList))
      (Grammar.advance >>= fun name => Grammar.eat .comma >>= fun found =>
        if found then currentKind >>= fun c =>
          if c = .identifier then
            Pure.pure (.again ((params.map (Token.renumber P.line)).push name))
          else Grammar.fail .parameterName
        else Pure.pure (.done ((params.map (Token.renumber P.line)).push name).toList))
      (Gives (roundLeft (P.Inside k) (P.Inside (k + 1)))
        (Round.map (Array.map (Token.renumber P.line)) (List.map (Token.renumber P.line)))) := by
    refine Agree.advance.bind fun name => (Agree.eat_keep rfl).bind fun found => ?_
    rw [← Array.map_push]
    cases found with
    | true =>
        exact Agree.ifKind (fun c hc => hc ▸ rfl) (.pure rfl fun _ _ => And.left)
          (.fail (by simp))
    | false => exact (hdone _).of_pre fun _ _ h => h.mono (Nat.le_succ k)
  dsimp only
  split
  · exact Agree.reportThen (by simp) hname
  · exact hname

theorem Agree.definition [Advances stmt] (hlimit : n ≤ limit) (hlimit' : n ≤ limit')
    (hstmt : P.AgreeTo P.Between (Stmt.renumber P.line) n stmt stmt') (hm : m ≤ n) :
    P.Agree (P.OnWord (m + 1)) (definition limit stmt) (Grammar.definition limit' stmt')
      (Gives (fun _ => P.Between m) (Stmt.renumber P.line)) := by
  refine Agree.advance.bind fun keyword => (Agree.expect_keep rfl rfl (by simp)).bind fun name => ?_
  refine (Agree.eat_keep rfl).bind fun parenthesized => ?_
  refine (Agree.parameters (Nat.le_trans hm hlimit) (Nat.le_trans hm hlimit')).bind
    fun params => ?_
  have hbody : P.Agree (P.Inside m)
      (Grammar.closedBody limit stmt keyword .functionBody >>= fun body =>
        Pure.pure (Stmt.define name params body))
      (Grammar.closedBody limit' stmt' (keyword.renumber P.line) .functionBody >>= fun body =>
        Pure.pure (Stmt.define (name.renumber P.line) (params.map (Token.renumber P.line)) body))
      (Gives (fun _ => P.Between m) (Stmt.renumber P.line)) :=
    (Agree.closedBody hlimit hlimit' hstmt hm).bind fun body =>
      .pure (by simp [Stmt.renumber]) fun _ _ => .inl
  cases parenthesized with
  | true => exact (Agree.expect_keep rfl rfl (by simp)).bind fun _ => hbody
  | false => exact hbody

/-! ## Simple statements -/

theorem renumber_sequenceOf (f : Nat → Nat) (es : List Expr) :
    (sequenceOf es).renumber f = sequenceOf (es.map (Expr.renumber f)) := by
  have hfold : ∀ (es : List Expr) (first : Expr),
      (es.foldl .sequence first).renumber f =
        (es.map (Expr.renumber f)).foldl .sequence (first.renumber f) := by
    intro es
    induction es with
    | nil => exact fun _ => rfl
    | cons e es ih => exact fun first => ih _
  cases es with
  | nil => rfl
  | cons first es => exact hfold es first

section Simple

variable [Advances expr] (hlimit : n ≤ limit) (hlimit' : n ≤ limit')
variable (hexpr : P.AgreeTo P.Inside (Expr.renumber P.line) n expr expr')
include hlimit hlimit' hexpr

theorem AgreeTo.values :
    P.AgreeTo P.Inside (List.map (Expr.renumber P.line)) n
      (Grammar.commaSeparated limit (fun _ => pure ()) expr)
      (Grammar.commaSeparated limit' (fun _ => pure ()) expr') :=
  .commaSeparated (fun _ _ => .pure rfl fun _ _ => id) hexpr hlimit hlimit'

theorem AgreeTo.parallelAssignment :
    P.AgreeTo P.Between (Stmt.renumber P.line) n (parallelAssignment limit expr)
      (Grammar.parallelAssignment limit' expr') := by
  intro m hm
  have hnames : P.AgreeTo P.Inside (List.map (Token.renumber P.line)) n
      (Grammar.commaSeparated limit (fun _ => pure ()) (expect .identifier .variableName))
      (Grammar.commaSeparated limit' (fun _ => pure ()) (expect .identifier .variableName)) :=
    .commaSeparated (fun _ _ => .pure rfl fun _ _ => id) (fun _ _ => .expect rfl rfl (by simp))
      hlimit hlimit'
  refine (hnames m hm).bind fun names => (Agree.expect_keep rfl rfl (by simp)).bind fun sign => ?_
  refine ((hexpr.values hlimit hlimit').keep (Nat.le_of_lt hm)).bind fun values => ?_
  rw [List.length_map, List.length_map]
  split
  · refine Agree.terminator.bind fun _ => .pure ?_ fun _ _ => id
    simp [Stmt.renumber]
  · exact .throw (by simp)

theorem AgreeTo.expressionStatement :
    P.AgreeTo P.Between (Stmt.renumber P.line) n (expressionStatement limit expr)
      (Grammar.expressionStatement limit' expr') := by
  intro m hm
  refine (hexpr.values hlimit hlimit' m hm).bind fun values => Agree.terminator.bind fun _ => ?_
  exact .pure (by rw [Stmt.renumber, renumber_sequenceOf]) fun _ _ => id

theorem Agree.printStatement (hm : m ≤ n) :
    P.Agree (P.OnWord (m + 1)) (printStatement limit expr) (Grammar.printStatement limit' expr')
      (Gives (fun _ => P.Between m) (Stmt.renumber P.line)) := by
  refine Agree.advance.bind fun keyword => Agree.atTerminator.bind fun stops => ?_
  have hend : ∀ values : List Expr, P.Agree (P.Inside m)
      (Grammar.terminator >>= fun _ =>
        Pure.pure (Stmt.print keyword values (keyword.kind = .kwPuts)))
      (Grammar.terminator >>= fun _ =>
        Pure.pure (Stmt.print (keyword.renumber P.line) (values.map (Expr.renumber P.line))
          (keyword.kind = .kwPuts)))
      (Gives (fun _ => P.Between m) (Stmt.renumber P.line)) :=
    fun values => Agree.terminator.bind fun _ => .pure rfl fun _ _ => id
  cases stops with
  | true => exact hend []
  | false => exact ((hexpr.values hlimit hlimit').keep hm).bind hend

end Simple

theorem Agree.returnStatement [Advances expr] (hm : m ≤ n)
    (hexpr : P.AgreeTo P.Inside (Expr.renumber P.line) n expr expr') :
    P.Agree (P.OnWord (m + 1)) (returnStatement expr) (Grammar.returnStatement expr')
      (Gives (fun _ => P.Between m) (Stmt.renumber P.line)) := by
  refine Agree.advance.bind fun keyword => Agree.atTerminator.bind fun stops => ?_
  have hend : ∀ value : Option Expr, P.Agree (P.Inside m)
      (Grammar.terminator >>= fun _ => Pure.pure (Stmt.returnFrom keyword value))
      (Grammar.terminator >>= fun _ =>
        Pure.pure (Stmt.returnFrom (keyword.renumber P.line) (value.map (Expr.renumber P.line))))
      (Gives (fun _ => P.Between m) (Stmt.renumber P.line)) :=
    fun value => Agree.terminator.bind fun _ => .pure rfl fun _ _ => id
  cases stops with
  | true => exact hend none
  | false =>
      exact ((hexpr.keep hm).map (k := Option.map (Expr.renumber P.line)) fun _ => rfl).bind hend

theorem Agree.jump {jump : Token → Stmt}
    (hjump : ∀ t, (jump t).renumber P.line = jump (t.renumber P.line)) :
    P.Agree (P.OnWord (m + 1))
      (Grammar.advance >>= fun t => Grammar.terminator >>= fun _ => Pure.pure (jump t))
      (Grammar.advance >>= fun t => Grammar.terminator >>= fun _ => Pure.pure (jump t))
      (Gives (fun _ => P.Between m) (Stmt.renumber P.line)) :=
  Agree.advance.bind fun _ => Agree.terminator.bind fun _ => .pure (hjump _).symm fun _ _ => id

/-! ## Loops and branches -/

theorem caseRounds_of_not_when {keyword : Token} {r : Reading} (hlimit : 0 < limit)
    (hkind : r.current.kind ≠ .kwWhen) :
    Grammar.rounds (caseRound limit expr stmt keyword) limit #[] r = .ok [] r := by
  obtain ⟨l, hl⟩ := Nat.exists_eq_add_of_lt hlimit
  have heat : Grammar.eat .kwWhen r = .ok false r := by
    rw [Grammar.eat, currentKind_bind, if_neg hkind]
    rfl
  have hround : caseRound limit expr stmt keyword #[] r = .ok (.done []) r := by
    rw [caseRound, bind_ok heat]
    rfl
  generalize caseRound limit expr stmt keyword = step at hround
  rw [hl, rounds, bind_ok hround]
  rfl

section Compound

variable [Advances expr] [Advances stmt] (hlimit : n ≤ limit) (hlimit' : n ≤ limit')
variable (hexpr : P.AgreeTo P.Inside (Expr.renumber P.line) n expr expr')
variable (hstmt : P.AgreeTo P.Between (Stmt.renumber P.line) n stmt stmt') (hm : m ≤ n)

section

include hlimit hlimit' hstmt hm

theorem Agree.beginBlock :
    P.Agree (P.OnWord (m + 1)) (beginBlock limit stmt) (Grammar.beginBlock limit' stmt')
      (Gives (fun _ => P.Between m) (Stmt.renumber P.line)) := by
  refine Agree.advance.bind fun keyword => ?_
  refine (Agree.closedBody hlimit hlimit' hstmt hm).bind fun body => ?_
  exact .pure (by simp [Stmt.renumber]) fun _ _ => .inl

theorem Agree.loopStatement :
    P.Agree (P.OnWord (m + 1)) (loopStatement limit stmt) (Grammar.loopStatement limit' stmt')
      (Gives (fun _ => P.Between m) (Stmt.renumber P.line)) := by
  refine Agree.advance.bind fun keyword => (Agree.expect_keep rfl rfl (by simp)).bind fun _ => ?_
  refine (Agree.closedBody hlimit hlimit' hstmt hm).bind fun body => ?_
  exact .pure (by simp [Stmt.renumber]) fun _ _ => .inl

include hexpr

theorem Agree.conditionalLoop :
    P.Agree (P.OnWord (m + 1)) (conditionalLoop limit expr stmt)
      (Grammar.conditionalLoop limit' expr' stmt')
      (Gives (fun _ => P.Between m) (Stmt.renumber P.line)) := by
  refine Agree.advance.bind fun keyword => (hexpr.keep hm).bind fun condition => ?_
  refine (Agree.eat_keep rfl).bind fun _ => ?_
  refine (Agree.closedBody hlimit hlimit' hstmt hm).bind fun body => ?_
  rw [Token.kind_renumber]
  split
  · exact .pure (by simp [Stmt.renumber]) fun _ _ => .inl
  · exact .pure (by simp [Stmt.renumber]) fun _ _ => .inl

theorem Agree.forStatement :
    P.Agree (P.OnWord (m + 1)) (forStatement limit expr stmt)
      (Grammar.forStatement limit' expr' stmt')
      (Gives (fun _ => P.Between m) (Stmt.renumber P.line)) := by
  refine Agree.advance.bind fun keyword => (Agree.expect_keep rfl rfl (by simp)).bind fun name => ?_
  refine (Agree.expect_keep rfl rfl (by simp)).bind fun _ => (hexpr.keep hm).bind fun iterable => ?_
  refine (Agree.eat_keep rfl).bind fun _ => ?_
  refine (Agree.closedBody hlimit hlimit' hstmt hm).bind fun body => ?_
  exact .pure (by simp [Stmt.renumber]) fun _ _ => .inl

theorem Agree.unlessStatement :
    P.Agree (P.OnWord (m + 1)) (unlessStatement limit expr stmt)
      (Grammar.unlessStatement limit' expr' stmt')
      (Gives (fun _ => P.Between m) (Stmt.renumber P.line)) := by
  have hclosers : ∀ k, closesUnlessBody.contains k → k.isWord :=
    isWord_of_contains (by decide) (by decide) (by decide)
  refine Agree.advance.bind fun keyword => (hexpr.keep hm).bind fun condition => ?_
  refine (Agree.eat_keep rfl).bind fun _ => ?_
  refine ((Agree.block hclosers hm hlimit hlimit' hstmt).of_pre fun _ _ => .inl).bind fun body => ?_
  refine (Agree.otherwise hlimit hlimit' hstmt hm).bind fun orElse => ?_
  exact .pure (by simp [Stmt.renumber]) fun _ _ => .inl

end

def renumberArm (f : Nat → Nat) (arm : Expr × List Stmt) : Expr × List Stmt :=
  (arm.1.renumber f, arm.2.map (Stmt.renumber f))

include hlimit hlimit' hexpr hstmt

theorem Agree.ifRounds (hm : m ≤ n) {keyword : Token} :
    P.Agree (P.Inside m) (Grammar.rounds (ifRound limit expr stmt keyword) limit #[])
      (Grammar.rounds (ifRound limit' expr' stmt' (keyword.renumber P.line)) limit' #[])
      (Gives (fun _ => P.Inside m) (List.map (renumberArm P.line))) := by
  have hclosers : ∀ k, closesIfArm.contains k → k.isWord :=
    isWord_of_contains (by decide) (by decide) (by decide)
  refine Agree.rounds_keep (g := Array.map (renumberArm P.line)) (fun k hk arms => ?_)
    (Nat.le_trans hm hlimit) (Nat.le_trans hm hlimit') (by simp)
  have hkn := Nat.lt_of_lt_of_le hk hm
  refine (hexpr k hkn).bind fun condition => (Agree.eat_keep rfl).bind fun _ => ?_
  refine ((Agree.block hclosers (Nat.le_of_lt hkn) hlimit hlimit' hstmt).of_pre
    fun _ _ => .inl).bind fun body => ?_
  refine (Agree.eat_keep rfl).bind fun found => ?_
  cases found with
  | true => exact .pure (by simp [Round.map, renumberArm]) fun _ _ => id
  | false => exact .pure (by simp [Round.map, renumberArm]) fun _ _ h => h.mono (Nat.le_succ k)

theorem Agree.caseRounds (hm : m ≤ n) {keyword : Token} :
    P.Agree (P.Inside m) (Grammar.rounds (caseRound limit expr stmt keyword) limit #[])
      (Grammar.rounds (caseRound limit' expr' stmt' (keyword.renumber P.line)) limit' #[])
      (Gives (fun _ => P.Inside m) (List.map (renumberArm P.line))) := by
  have hclosers : ∀ k, closesWhenArm.contains k → k.isWord :=
    isWord_of_contains (by decide) (by decide) (by decide)
  refine Agree.rounds_keep (g := Array.map (renumberArm P.line)) (fun k hk arms => ?_)
    (Nat.le_trans hm hlimit) (Nat.le_trans hm hlimit') (by simp)
  have hkn := Nat.le_of_lt (Nat.lt_of_lt_of_le hk hm)
  refine (Agree.eat rfl).bind fun found => ?_
  cases found with
  | true =>
      refine (hexpr.keep hkn).bind fun condition => (Agree.eat_keep rfl).bind fun _ => ?_
      refine ((Agree.block hclosers hkn hlimit hlimit' hstmt).of_pre fun _ _ => .inl).bind
        fun body => ?_
      exact .pure (by simp [Round.map, renumberArm]) fun _ _ => id
  | false => exact .pure (by simp [Round.map]) fun _ _ => id

theorem Agree.ifStatement (hm : m ≤ n) :
    P.Agree (P.OnWord (m + 1)) (ifStatement limit expr stmt)
      (Grammar.ifStatement limit' expr' stmt')
      (Gives (fun _ => P.Between m) (Stmt.renumber P.line)) := by
  rw [ifStatement_eq, ifStatement_eq]
  refine Agree.advance.bind fun keyword => ?_
  refine (Agree.ifRounds hlimit hlimit' hexpr hstmt hm).bind fun arms => ?_
  refine (Agree.otherwise hlimit hlimit' hstmt hm).bind fun orElse => ?_
  exact .pure (by simp [Stmt.renumber, renumberArm]) fun _ _ => .inl

theorem Agree.caseStatement (hm : m ≤ n) (hpos : 0 < limit) :
    P.Agree (P.OnWord (m + 1)) (caseStatement limit expr stmt)
      (Grammar.caseStatement limit' expr' stmt')
      (Gives (fun _ => P.Between m) (Stmt.renumber P.line)) := by
  rw [caseStatement_eq, caseStatement_eq]
  refine Agree.advance.bind fun keyword => ?_
  refine (hexpr.keep hm).bind fun subject => ?_
  refine Agree.of_pre (Agree.skipSeparators (fun happart r hlast => ?_) ?_) fun _ _ => .inl
  · have hkind : r.current.kind ≠ .kwWhen := by
      rw [hlast, P.kind_last]
      decide
    rw [bind_ok (caseRounds_of_not_when hpos hkind)]
    exact lostIn_fail happart hlast _
  · refine (Agree.caseRounds hlimit hlimit' hexpr hstmt hm).bind fun arms => ?_
    rw [List.isEmpty_map]
    split
    · exact .fail (by simp)
    · refine (Agree.otherwise hlimit hlimit' hstmt hm).bind fun orElse => ?_
      exact .pure (by simp [Stmt.renumber, renumberArm]) fun _ _ => .inl

end Compound

/-! ## Statements -/

theorem Agree.atParallelAssignment :
    P.Agree (P.Inside n) atParallelAssignment atParallelAssignment
      (Gives (fun _ => P.Inside n) id) := by
  intro r r' hr
  refine .ok ⟨?_, hr⟩
  have hkind := kind_eq_iff_of_same (k := .identifier) hr.same_current (by decide)
  by_cases hname : r.current.kind = .identifier
  · -- a name is not the place where the lists part
    have hahead := (hr.tokens.tail (by simp [hname])).resolve_right fun h => by
      simp [hname, Kind.isSeparator] at h
    simp [hname, hkind.mpr hname, hahead.moreNamesThenEqual.1]
  · have hname' : r'.current.kind ≠ .identifier := fun h => hname (hkind.mp h)
    simp [hname, hname']

theorem AgreeTo.statementWith [Advances expr] [Advances stmt] (hlimit : n < limit)
    (hlimit' : n < limit') (hexpr : P.AgreeTo P.Inside (Expr.renumber P.line) (n + 1) expr expr')
    (hstmt : P.AgreeTo P.Between (Stmt.renumber P.line) n stmt stmt') :
    P.AgreeTo P.Between (Stmt.renumber P.line) (n + 1) (statementWith limit expr stmt)
      (Grammar.statementWith limit' expr' stmt') := by
  intro m hm
  have hmn := Nat.le_of_lt_succ hm
  have hl := Nat.le_of_lt hlimit
  have hl' := Nat.le_of_lt hlimit'
  have hinner : P.AgreeTo P.Inside (Expr.renumber P.line) n expr expr' :=
    fun k hk => hexpr k (Nat.lt_succ_of_lt hk)
  have hother := hexpr.expressionStatement hlimit hlimit' m hm
  refine Agree.atParallelAssignment.bind_of (fun parallel => ?_) fun parallel => ?_
  · split
    · infer_instance
    · refine Advances.of_bind inferInstance fun kind => ?_
      split <;> infer_instance
  cases parallel with
  | true => exact hexpr.parallelAssignment hlimit hlimit' m hm
  | false =>
      refine Agree.kind (fun k hk => ?_) (fun _ => hother) fun k k' hk hk' => ?_
      · refine Agree.of_pre ?_ fun r r' h => h.1
        split
        · exact .definition hl hl' hstmt hmn
        · exact .unlessStatement hl hl' hinner hstmt hmn
        · exact .ifStatement hl hl' hinner hstmt hmn
        · exact .printStatement hl hl' hinner hmn
        · exact .printStatement hl hl' hinner hmn
        · exact .beginBlock hl hl' hstmt hmn
        · exact .conditionalLoop hl hl' hinner hstmt hmn
        · exact .conditionalLoop hl hl' hinner hstmt hmn
        · exact .returnStatement hmn hinner
        · exact .jump fun _ => rfl
        · exact .jump fun _ => rfl
        · exact .loopStatement hl hl' hstmt hmn
        · exact .forStatement hl hl' hinner hstmt hmn
        · exact .caseStatement hl hl' hinner hstmt hmn (Nat.zero_lt_of_lt hlimit)
        · exact hother.of_pre fun _ _ h => h.1
      · rw [Kind.isSeparator_iff] at hk hk'
        rcases hk with rfl | rfl <;> rcases hk' with rfl | rfl <;>
          exact hother.of_pre fun _ _ => And.left

theorem AgreeTo.innerStatement {depth depth' : Nat} (hlimit : n ≤ limit) (hlimit' : n ≤ limit')
    (hdepth : n ≤ depth) (hdepth' : n ≤ depth') :
    P.AgreeTo P.Between (Stmt.renumber P.line) n (innerStatement limit depth)
      (Grammar.innerStatement limit' depth') :=
  .nested (fun _ _ => inferInstance)
    (fun _ hm _ _ _ h => .statementWith
      (Nat.lt_of_lt_of_le hm hlimit) (Nat.lt_of_lt_of_le hm hlimit')
      (.expression (Nat.le_trans hm hlimit) (Nat.le_trans hm hlimit')) h) hdepth hdepth'

theorem AgreeTo.statement (hlimit : n ≤ limit) (hlimit' : n ≤ limit') :
    P.AgreeTo P.Between (Stmt.renumber P.line) n (statement limit) (Grammar.statement limit') :=
  .innerStatement hlimit hlimit' hlimit hlimit'

end Scriptlet.Grammar.Pairing
