import Scriptlet.Proofs.Grammar.ExprSound
import Scriptlet.Proofs.Grammar.Rendering

/-!
# What is read cleanly is laid out again

The tokens a statement is read from differ from its canonical tokens in layout only, and the
statement is one that can be read.
-/

namespace Scriptlet.Grammar

def Written (r : Reading) (s : Stmt) (r' : Reading) : Prop :=
  ∃ ts, r = r'.before ts ∧ Layout ts (s.tokens ++ [.newline]) ∧ s.Readable

def WrittenLines (r : Reading) (body : List Stmt) (r' : Reading) : Prop :=
  ∃ ts, r = r'.before ts ∧ Layout ts (Stmt.lines body) ∧ ∀ s ∈ body, s.Readable

theorem WrittenLines.cons {r r₁ r' : Reading} {s : Stmt} {body : List Stmt} {seps : List Token}
    (hseps : ∀ t ∈ seps, t.kind.isSeparator) (hs : Written r s r₁) (h : WrittenLines r₁ body r') :
    WrittenLines (r.before seps) (s :: body) r' := by
  obtain ⟨ts, rfl, hts, hreadable⟩ := hs
  obtain ⟨us, rfl, hus, hbody⟩ := h
  refine ⟨seps ++ (ts ++ us), by simp, ?_, by simpa using ⟨hreadable, hbody⟩⟩
  have hlines := Layout.separators hseps (hts.append hus)
  simpa [Stmt.lines] using hlines

theorem WrittenLines.nil {r : Reading} {seps : List Token}
    (hseps : ∀ t ∈ seps, t.kind.isSeparator) :
    WrittenLines (r.before seps) [] r :=
  ⟨seps, rfl, by simpa [Stmt.lines] using Layout.separators hseps .nil, by simp⟩

theorem Written.clause {r : Reading} {s : Stmt} {word : Kind} {keyword : Token}
    {hs ls head lines : List Token} (hword : word.isFixed) (hkeyword : keyword.kind = word)
    (hhead : Layout hs head) (hlines : Layout ls lines)
    (htokens : s.tokens = clause word head lines)
    (hreadable : s.Readable) : Written (r.before (keyword :: (hs ++ ls))) s r :=
  ⟨_, rfl, htokens ▸ (Layout.clause hword hkeyword hhead hlines).lineEnd, hreadable⟩

/-! ## Rounds of blocks -/

def keepRead (read : Array Stmt) : Option Stmt → Parse (Round (Array Stmt) (List Stmt))
  | some s => return .again (read.push s)
  | none => return .again read

instance (read : Array Stmt) (s : Option Stmt) : Advances (keepRead read s) := by
  cases s <;> (unfold keepRead; infer_instance)

def blockRound (stmt : Parse Stmt) (closers : KindSet) (opener : Token) (read : Array Stmt) :
    Parse (Round (Array Stmt) (List Stmt)) := do
  skipSeparators
  let kind ← currentKind
  if closers.contains kind then
    return .done read.toList
  else if kind = .eof then
    fail (.unclosed closers opener.lexeme opener.line)
  else
    keepRead read (← declaration stmt)

instance {stmt : Parse Stmt} [Advances stmt] (closers : KindSet) (opener : Token)
    (read : Array Stmt) : Advances (blockRound stmt closers opener read) := by
  unfold blockRound
  infer_instance

theorem block_eq (limit : Nat) (stmt : Parse Stmt) (closers : KindSet) (opener : Token) :
    block limit stmt closers opener = rounds (blockRound stmt closers opener) limit #[] :=
  rfl

def parametersRound (params : Array Token) : Parse (Round (Array Token) (List Token)) := do
  if (← currentKind) = .identifier then
    if maxArguments ≤ params.size then
      report (← current) .tooManyParameters
    let params := params.push (← advance)
    if ← eat .comma then
      if (← currentKind) = .identifier then
        return .again params
      else
        fail .parameterName
    else
      return .done params.toList
  else
    return .done params.toList

instance (params : Array Token) : Advances (parametersRound params) := by
  unfold parametersRound
  refine Advances.of_bind inferInstance fun kind => ?_
  split
  · dsimp only
    split <;> infer_instance
  · infer_instance

theorem parameters_eq (limit : Nat) : parameters limit = rounds parametersRound limit #[] :=
  rfl

def sides (arms : List (Expr × List Stmt)) : List Expr × List (List Stmt) :=
  (arms.map Prod.fst, arms.map Prod.snd)

def columns (arms : Array (Expr × List Stmt)) : Array Expr × Array (List Stmt) :=
  ((sides arms.toList).1.toArray, (sides arms.toList).2.toArray)

theorem columns_push (arms : Array (Expr × List Stmt)) (e : Expr) (body : List Stmt) :
    columns (arms.push (e, body)) = ((columns arms).1.push e, (columns arms).2.push body) := by
  simp [columns, sides]

theorem sides_push (arms : Array (Expr × List Stmt)) (e : Expr) (body : List Stmt) :
    sides (arms.push (e, body)).toList =
      (((columns arms).1.push e).toList, ((columns arms).2.push body).toList) := by
  simp [columns, sides]

def ifRound (limit : Nat) (expr : Parse Expr) (stmt : Parse Stmt) (keyword : Token)
    (arms : Array (Expr × List Stmt)) :
    Parse (Round (Array (Expr × List Stmt)) (List (Expr × List Stmt))) := do
  let condition ← expr
  let _ ← eat .kwThen
  let arms := arms.push (condition, ← block limit stmt closesIfArm keyword)
  if ← eat .kwElsif then return .again arms else return .done arms.toList

theorem ifStatement_eq (limit : Nat) (expr : Parse Expr) (stmt : Parse Stmt) :
    ifStatement limit expr stmt = (do
      let keyword ← advance
      let arms ← rounds (ifRound limit expr stmt keyword) limit #[]
      return .ifDo (arms.map Prod.fst) (arms.map Prod.snd)
        (← otherwise limit stmt keyword .ifStatement)) := by
  refine congrArg (advance >>= ·) (funext fun keyword => ?_)
  refine (congrArg (· >>= _) (rounds_map columns sides (ifRound limit expr stmt keyword)
    (fun arms => ?_) limit #[])).trans ?_
  · simp only [ifRound, map_bind, apply_ite (Round.map columns sides <$> ·), map_pure, Round.map,
      columns_push, sides_push]
  · exact bind_map_left sides _ _

def caseRound (limit : Nat) (expr : Parse Expr) (stmt : Parse Stmt) (keyword : Token)
    (arms : Array (Expr × List Stmt)) :
    Parse (Round (Array (Expr × List Stmt)) (List (Expr × List Stmt))) := do
  if ← eat .kwWhen then
    let condition ← expr
    let _ ← eat .kwThen
    return .again (arms.push (condition, ← block limit stmt closesWhenArm keyword))
  else
    return .done arms.toList

theorem caseStatement_eq (limit : Nat) (expr : Parse Expr) (stmt : Parse Stmt) :
    caseStatement limit expr stmt = (do
      let keyword ← advance
      let subject ← expr
      skipSeparators
      let arms ← rounds (caseRound limit expr stmt keyword) limit #[]
      if arms.isEmpty then
        fail .whenAfterSubject
      else
        return .caseDo subject (arms.map Prod.fst) (arms.map Prod.snd)
          (← otherwise limit stmt keyword .caseStatement)) := by
  refine congrArg (advance >>= ·) (funext fun keyword => congrArg (expr >>= ·)
    (funext fun subject => congrArg (skipSeparators >>= ·) (funext fun _ => ?_)))
  refine (congrArg (· >>= _) (rounds_map columns sides (caseRound limit expr stmt keyword)
    (fun arms => ?_) limit #[])).trans ?_
  · simp only [caseRound, map_bind, apply_ite (Round.map columns sides <$> ·), map_pure, Round.map,
      columns_push]
    rfl
  · rw [bind_map_left]
    simp only [sides, List.isEmpty_map]

section

variable {expr : Parse Expr} {stmt : Parse Stmt} [Advances expr] [Advances stmt]

instance (limit : Nat) (keyword : Token) (arms : Array (Expr × List Stmt)) :
    Advances (ifRound limit expr stmt keyword arms) := by
  unfold ifRound
  infer_instance

instance (limit : Nat) (keyword : Token) (arms : Array (Expr × List Stmt)) :
    Advances (caseRound limit expr stmt keyword arms) := by
  unfold caseRound
  infer_instance

end

def programRound (stmt : Parse Stmt) (read : Array Stmt) :
    Parse (Round (Array Stmt) (List Stmt)) := do
  skipSeparators
  if (← currentKind) = .eof then
    return .done read.toList
  else
    keepRead read (← declaration stmt)

instance {stmt : Parse Stmt} [Advances stmt] (read : Array Stmt) :
    Advances (programRound stmt read) := by
  unfold programRound
  infer_instance

theorem program_eq (limit : Nat) :
    program limit = rounds (programRound (statement limit)) limit #[] :=
  rfl

namespace Reads

variable {limit : Nat} {stmt : Parse Stmt} {r r' : Reading} {e : Expr} {s : Stmt}

private theorem errors_recover (starts : KindSet) (r : Reading) :
    (r.recover starts).errors = r.errors := by
  unfold Reading.recover Reading.advance
  split <;> rfl

theorem of_declaration [hs : Advances stmt] {o : Option Stmt}
    (h : Reads (declaration stmt) r o r') : ∃ s, o = some s ∧ Reads stmt r s r' := by
  have hresult := h.result
  unfold declaration at hresult
  cases hsr : stmt r with
  | ok s r₁ =>
      rw [hsr] at hresult
      cases hresult
      exact ⟨s, rfl, hsr, h.clean, h.closed⟩
  | error e r₁ =>
      rw [hsr] at hresult
      cases hresult
      have hgrown := (hs.of_error hsr).errors.length_le
      have hclean := congrArg Array.size h.clean
      rw [errors_recover, Reading.record, Array.size_push] at hclean
      simp only [Array.length_toList] at hgrown
      omega

theorem of_keepRead [Advances stmt] {read : Array Stmt} {round : Round (Array Stmt) (List Stmt)}
    (hstmt : ∀ r s r', Reads stmt r s r' → Written r s r')
    (h : Reads (do keepRead read (← declaration stmt)) r round r') :
    ∃ s, round = .again (read.push s) ∧ Written r s r' := by
  obtain ⟨o, r₁, hdeclaration, hkeep⟩ := h.of_bind
  obtain ⟨s, rfl, hs⟩ := hdeclaration.of_declaration
  obtain ⟨rfl, rfl⟩ := hkeep.of_pure
  exact ⟨s, rfl, hstmt _ _ _ hs⟩

def LineRound (stop : Kind → Prop) (read : Array Stmt) (r : Reading)
    (round : Round (Array Stmt) (List Stmt)) (r' : Reading) : Prop :=
  ∃ seps r₁, (∀ t ∈ seps, t.kind.isSeparator) ∧ r = r₁.before seps ∧
    ((round = .done read.toList ∧ r' = r₁ ∧ stop r₁.current.kind) ∨
      ∃ s, round = .again (read.push s) ∧ Written r₁ s r')

theorem of_lineRounds {step : Array Stmt → Parse (Round (Array Stmt) (List Stmt))}
    [∀ read, Advances (step read)] (stop : Kind → Prop) {body : List Stmt}
    (hstep : ∀ read r round r', Reads (step read) r round r' → LineRound stop read r round r')
    (h : Reads (Grammar.rounds step limit #[]) r body r') :
    WrittenLines r body r' ∧ stop r'.current.kind := by
  have key : ∃ more, body = (#[] : Array Stmt).toList ++ more ∧ WrittenLines r more r' ∧
      stop r'.current.kind := by
    refine of_rounds (P := fun read r => ∃ more, body = read.toList ++ more ∧
      WrittenLines r more r' ∧ stop r'.current.kind) h ?_ ?_
    · intro read r hround
      obtain ⟨seps, r₁, hseps, rfl, ⟨hdone, rfl, hstop⟩ | ⟨s, hagain, -⟩⟩ := hstep _ _ _ _ hround
      · cases hdone
        exact ⟨[], by simp, .nil hseps, hstop⟩
      · cases hagain
    · intro read r read' r₁ hround ⟨more, hbody, hmore, hstop⟩
      obtain ⟨seps, r₂, hseps, rfl, ⟨hdone, -⟩ | ⟨s, hagain, hs⟩⟩ := hstep _ _ _ _ hround
      · cases hdone
      · cases hagain
        exact ⟨s :: more, by simpa using hbody, .cons hseps hs hmore, hstop⟩
  simpa using key

theorem of_block [Advances stmt] {closers : KindSet} {opener : Token} {body : List Stmt}
    (hstmt : ∀ r s r', Reads stmt r s r' → Written r s r')
    (h : Reads (block limit stmt closers opener) r body r') :
    WrittenLines r body r' ∧ closers.contains r'.current.kind := by
  rw [block_eq] at h
  refine h.of_lineRounds (fun k => closers.contains k) ?_
  intro read r round r' hround
  obtain ⟨_, r₁, hskip, hrest⟩ := hround.of_bind
  obtain ⟨seps, hseps, rfl, -⟩ := hskip.of_skipSeparators
  obtain ⟨k, r₂, hkind, hchoice⟩ := hrest.of_bind
  obtain ⟨rfl, rfl⟩ := hkind.of_currentKind
  refine ⟨seps, r₂, hseps, rfl, ?_⟩
  split at hchoice
  · next hcloser =>
      obtain ⟨rfl, rfl⟩ := hchoice.of_pure
      exact .inl ⟨rfl, rfl, hcloser⟩
  · split at hchoice
    · exact hchoice.of_fail.elim
    · exact .inr (hchoice.of_keepRead hstmt)

theorem of_closedBody [Advances stmt] {opener : Token} {construct : Construct} {body : List Stmt}
    (hstmt : ∀ r s r', Reads stmt r s r' → Written r s r')
    (h : Reads (closedBody limit stmt opener construct) r body r') :
    ∃ ts, r = r'.before ts ∧ Layout ts (Stmt.lines body ++ [.mark .kwEnd]) ∧
      ∀ s ∈ body, s.Readable := by
  obtain ⟨body', r₁, hblock, hrest⟩ := h.of_bind
  obtain ⟨⟨ts, rfl, hts, hbody⟩, -⟩ := hblock.of_block hstmt
  obtain ⟨t, r₂, hexpect, hpure⟩ := hrest.of_bind
  obtain ⟨hkind, rfl⟩ := hexpect.of_expect (by decide)
  obtain ⟨rfl, rfl⟩ := hpure.of_pure
  exact ⟨ts ++ [t], by simp, hts.append (.cons (.mark rfl hkind) .nil), hbody⟩

theorem of_otherwise [Advances stmt] {opener : Token} {construct : Construct}
    {o : Option (List Stmt)} (hstmt : ∀ r s r', Reads stmt r s r' → Written r s r')
    (h : Reads (otherwise limit stmt opener construct) r o r') :
    ∃ ts, r = r'.before ts ∧ Layout ts (Stmt.elseLines o) ∧
      ∀ body, o = some body → ∀ s ∈ body, s.Readable := by
  obtain ⟨found, r₁, heat, hrest⟩ := h.of_bind
  rcases heat.of_eat (by decide) with ⟨rfl, word, hword, rfl⟩ | ⟨rfl, -, rfl⟩
  · obtain ⟨o', r₂, hbody, hclose⟩ := hrest.of_bind
    obtain ⟨t, r₃, hexpect, hpure⟩ := hclose.of_bind
    obtain ⟨hkind, rfl⟩ := hexpect.of_expect (by decide)
    obtain ⟨rfl, rfl⟩ := hpure.of_pure
    obtain ⟨body, hblock, rfl⟩ := hbody.of_map
    obtain ⟨⟨ts, rfl, hts, hreadable⟩, -⟩ := hblock.of_block hstmt
    refine ⟨word :: (ts ++ [t]), by simp, ?_, ?_⟩
    · have hlines := (Layout.clause rfl hword .nil hts).append (.cons (.mark rfl hkind) .nil)
      simpa [Stmt.elseLines] using hlines
    · rintro body' ⟨⟩
      exact hreadable
  · obtain ⟨o', r₂, hbody, hclose⟩ := hrest.of_bind
    obtain ⟨rfl, rfl⟩ := hbody.of_pure
    obtain ⟨t, r₃, hexpect, hpure⟩ := hclose.of_bind
    obtain ⟨hkind, rfl⟩ := hexpect.of_expect (by decide)
    obtain ⟨rfl, rfl⟩ := hpure.of_pure
    exact ⟨[t], rfl, .cons (.mark rfl hkind) .nil, by simp⟩

/-! ## Expressions in statements -/

theorem of_expression_alike (h : Reads (expression limit) r e r') :
    ∃ ts, r = r'.before ts ∧ List.Forall₂ Alike ts e.tokens ∧ e.Readable := by
  obtain ⟨ts, hts, hphrase, -⟩ := h.of_expression
  exact ⟨ts, hts, hphrase.alike, hphrase.canonical⟩

theorem of_values {values : List Expr}
    (h : Reads (Grammar.commaSeparated limit (fun _ => Pure.pure ()) (expression limit)) r values
      r') :
    values ≠ [] ∧ ∃ ts, r = r'.before ts ∧
      List.Forall₂ Alike ts (commas (values.map Expr.tokens)) ∧ ∀ e ∈ values, e.Readable := by
  obtain ⟨parts, rfl, hitems, -⟩ := h.of_commaSeparated (fun _ => True)
    (fun ts e => List.Forall₂ Alike ts e.tokens ∧ e.Readable)
    (fun _ _ _ h => ⟨h.of_pure.2, trivial⟩) fun _ _ _ h => h.of_expression_alike
  obtain ⟨ts, hts, rfl⟩ := hitems.tokens
  refine ⟨by simpa using hitems.nonempty, ts, rfl, ?_, ?_⟩
  · rw [List.map_map]
    exact hts.alike fun part hpart => (hitems.spells part hpart).1
  · intro e he
    obtain ⟨part, hpart, rfl⟩ := List.mem_map.mp he
    exact (hitems.spells part hpart).2

theorem of_eat_filler {found : Bool} {kind : Kind} (hkind : kind = .kwThen ∨ kind = .kwDo)
    (h : Reads (Grammar.eat kind) r found r') :
    ∃ ts, r = r'.before ts ∧ ∀ us vs, Layout us vs → Layout (ts ++ us) vs := by
  have heof : kind ≠ .eof := by
    rcases hkind with rfl | rfl <;> decide
  rcases h.of_eat heof with ⟨-, t, ht, rfl⟩ | ⟨-, -, rfl⟩
  · exact ⟨[t], rfl, fun us vs h => .filler (ht ▸ hkind) h⟩
  · exact ⟨[], rfl, fun us vs h => h⟩

theorem of_terminator (h : Reads terminator r () r') :
    (∃ ts, r = r'.before ts ∧ Layout ts [.newline]) ∧
      r.current.kind ∉ [Kind.comma, .identifier, .equal] := by
  obtain ⟨k, r₁, hkind, hrest⟩ := h.of_bind
  obtain ⟨rfl, rfl⟩ := hkind.of_currentKind
  split at hrest
  · next hsep =>
      obtain ⟨t, r₂, hadvance, hpure⟩ := hrest.of_bind
      obtain rfl := hadvance.of_advance (Reading.Extends.isSeparator_ne_eof hsep)
      obtain ⟨-, rfl⟩ := hpure.of_pure
      refine ⟨⟨[t], rfl, .separator hsep (.newline .nil)⟩, ?_⟩
      intro hother
      simp only [List.mem_cons, List.not_mem_nil, or_false] at hother
      rcases hother with hother | hother | hother <;> rw [hother] at hsep <;> cases hsep
  · split at hrest
    · next hstop =>
        obtain ⟨-, rfl⟩ := hrest.of_pure
        refine ⟨⟨[], rfl, .newline .nil⟩, ?_⟩
        intro hother
        simp only [List.mem_cons, List.not_mem_nil, or_false] at hother
        rcases hother with hother | hother | hother <;> rw [hother] at hstop <;>
          simp [closesBlock, closesIfArm, KindSet.ofList] at hstop
    · exact hrest.of_fail.elim

theorem of_atTerminator {b : Bool} (h : Reads atTerminator r b r') : r' = r := by
  obtain ⟨k, r₁, hkind, hpure⟩ := h.of_bind
  obtain ⟨rfl, rfl⟩ := hkind.of_currentKind
  exact hpure.of_pure.2

theorem of_atParallelAssignment {b : Bool} (h : Reads atParallelAssignment r b r') :
    b = startsParallel r.tokens ∧ r' = r := by
  obtain ⟨s, r₁, hget, hpure⟩ := h.of_bind
  obtain ⟨rfl, rfl⟩ := hget.of_get
  exact hpure.of_pure

/-! ## Simple statements -/

theorem of_expressionStatement (hparallel : startsParallel r.tokens = false)
    (h : Reads (expressionStatement limit (expression limit)) r s r') : Written r s r' := by
  obtain ⟨values, r₁, hvalues, hrest⟩ := h.of_bind
  obtain ⟨hne, ts, rfl, hts, hreadable⟩ := hvalues.of_values
  obtain ⟨_, r₂, hterminator, hpure⟩ := hrest.of_bind
  obtain ⟨⟨us, rfl, hus⟩, hstop⟩ := hterminator.of_terminator
  obtain ⟨rfl, rfl⟩ := hpure.of_pure
  refine ⟨ts ++ us, by simp, ?_, .expr hne hreadable ?_⟩
  · rw [Stmt.tokens, Expr.tokens_sequenceOf hne]
    exact (Layout.of_forall₂ hts).append hus
  · rw [← startsParallel_alike hts]
    rwa [Reading.tokens_before, startsParallel_append] at hparallel
    intro t ht
    obtain rfl : _ = t := by simpa [Reading.tokens] using ht
    exact hstop

theorem of_printStatement (hkind : r.current.kind = .kwPrint ∨ r.current.kind = .kwPuts)
    (h : Reads (printStatement limit (expression limit)) r s r') : Written r s r' := by
  obtain ⟨keyword, r₁, hadvance, hrest⟩ := h.of_bind
  obtain rfl := hadvance.of_advance (by rcases hkind with hkind | hkind <;> rw [hkind] <;> decide)
  obtain ⟨stop, r₂, hstop, hchoice⟩ := hrest.of_bind
  obtain rfl := hstop.of_atTerminator
  have hvalues : ∃ values r₃, (∃ ts, r₂ = r₃.before ts ∧
      List.Forall₂ Alike ts (commas (values.map Expr.tokens)) ∧ ∀ e ∈ values, e.Readable) ∧
      Reads (do terminator; return .print keyword values (keyword.kind = .kwPuts)) r₃ s r' := by
    dsimp only at hchoice
    split at hchoice
    · obtain ⟨values, r₃, hnone, hend⟩ := hchoice.of_bind
      obtain ⟨rfl, rfl⟩ := hnone.of_pure
      exact ⟨[], r₃, ⟨[], rfl, .nil, by simp⟩, hend⟩
    · obtain ⟨values, r₃, hvalues, hend⟩ := hchoice.of_bind
      exact ⟨values, r₃, hvalues.of_values.2, hend⟩
  obtain ⟨values, r₃, ⟨ts, rfl, hts, hreadable⟩, hend⟩ := hvalues
  obtain ⟨_, r₄, hterminator, hpure⟩ := hend.of_bind
  obtain ⟨⟨us, rfl, hus⟩, -⟩ := hterminator.of_terminator
  obtain ⟨rfl, rfl⟩ := hpure.of_pure
  exact ⟨keyword :: (ts ++ us), by simp,
    .cons (.refl keyword) ((Layout.of_forall₂ hts).append hus), .print hkind (by simp) hreadable⟩

theorem of_returnStatement (hkind : r.current.kind = .kwReturn)
    (h : Reads (returnStatement (expression limit)) r s r') : Written r s r' := by
  obtain ⟨keyword, r₁, hadvance, hrest⟩ := h.of_bind
  obtain rfl := hadvance.of_advance (by rw [hkind]; decide)
  obtain ⟨stop, r₂, hstop, hchoice⟩ := hrest.of_bind
  obtain rfl := hstop.of_atTerminator
  have hvalue : ∃ (value : Option Expr) (r₃ : Reading), (∃ ts, r₂ = r₃.before ts ∧
      List.Forall₂ Alike ts ((value.map Expr.tokens).getD []) ∧
      ∀ e, value = some e → e.Readable) ∧
      Reads (do terminator; return .returnFrom keyword value) r₃ s r' := by
    dsimp only at hchoice
    split at hchoice
    · obtain ⟨value, r₃, hnone, hend⟩ := hchoice.of_bind
      obtain ⟨rfl, rfl⟩ := hnone.of_pure
      exact ⟨none, r₃, ⟨[], rfl, .nil, by simp⟩, hend⟩
    · obtain ⟨value, r₃, hsome, hend⟩ := hchoice.of_bind
      obtain ⟨e, hvalue, rfl⟩ := hsome.of_map
      obtain ⟨ts, rfl, hts, hreadable⟩ := hvalue.of_expression_alike
      exact ⟨some e, r₃, ⟨ts, rfl, hts, by rintro e' ⟨⟩; exact hreadable⟩, hend⟩
  obtain ⟨value, r₃, ⟨ts, rfl, hts, hreadable⟩, hend⟩ := hvalue
  obtain ⟨_, r₄, hterminator, hpure⟩ := hend.of_bind
  obtain ⟨⟨us, rfl, hus⟩, -⟩ := hterminator.of_terminator
  obtain ⟨rfl, rfl⟩ := hpure.of_pure
  exact ⟨keyword :: (ts ++ us), by simp,
    .cons (.refl keyword) ((Layout.of_forall₂ hts).append hus), .returnFrom hkind hreadable⟩

theorem of_jump {jump : Token → Stmt} (hjump : ∀ t, (jump t).tokens = [t])
    (hreadable : (jump r.current).Readable) (hend : r.current.kind ≠ .eof)
    (h : Reads (do let keyword ← Grammar.advance; terminator; return jump keyword) r s r') :
    Written r s r' := by
  obtain ⟨keyword, r₁, hadvance, hrest⟩ := h.of_bind
  obtain rfl := hadvance.of_advance hend
  obtain ⟨_, r₂, hterminator, hpure⟩ := hrest.of_bind
  obtain ⟨⟨us, rfl, hus⟩, -⟩ := hterminator.of_terminator
  obtain ⟨rfl, rfl⟩ := hpure.of_pure
  refine ⟨keyword :: us, by simp, ?_, hreadable⟩
  rw [hjump]
  exact .cons (.refl keyword) hus

/-! ## Names separated by commas -/

theorem of_names {names : List Token} {cause : Cause}
    (h : Reads (Grammar.commaSeparated limit (fun _ => Pure.pure ())
      (Grammar.expect .identifier cause)) r names r') :
    names ≠ [] ∧ (∀ name ∈ names, name.kind = .identifier) ∧
      ∃ ts, r = r'.before ts ∧ CommaSeparated (names.map ([·])) ts := by
  obtain ⟨parts, rfl, hitems, -⟩ := h.of_commaSeparated (fun _ => True)
    (fun ts name => ts = [name] ∧ name.kind = .identifier)
    (fun _ _ _ h => ⟨h.of_pure.2, trivial⟩) fun r name r' h => by
      obtain ⟨hkind, rfl⟩ := h.of_expect (by decide)
      exact ⟨[name], rfl, rfl, hkind⟩
  obtain ⟨ts, hts, rfl⟩ := hitems.tokens
  refine ⟨by simpa using hitems.nonempty, ?_, ts, rfl, ?_⟩
  · intro name hname
    obtain ⟨part, hpart, rfl⟩ := List.mem_map.mp hname
    exact (hitems.spells part hpart).2
  · have hsingle : parts.map Prod.fst = (parts.map Prod.snd).map ([·]) := by
      rw [List.map_map]
      exact List.map_congr_left fun part hpart => (hitems.spells part hpart).1
    rwa [hsingle] at hts

theorem of_parametersRound {read : Array Token} {round : Round (Array Token) (List Token)}
    (h : Reads (parametersRound read) r round r') :
    (r.current.kind ≠ .identifier ∧ round = .done read.toList ∧ r' = r) ∨
    ∃ name, name.kind = .identifier ∧ read.size + 1 ≤ maxArguments ∧
      ((round = .done (read.push name).toList ∧ r = r'.before [name]) ∨
        ∃ comma : Token, comma.kind = .comma ∧ r'.current.kind = .identifier ∧
          r = r'.before [name, comma] ∧ round = .again (read.push name)) := by
  obtain ⟨k, r₁, hkind, hrest⟩ := h.of_bind_of fun k => by
    split
    · split <;> infer_instance
    · infer_instance
  obtain ⟨rfl, rfl⟩ := hkind.of_currentKind
  split at hrest
  · next hname =>
      split at hrest
      · obtain ⟨t, r₂, -, hreport⟩ := hrest.of_bind
        obtain ⟨_, r₃, hreport, -⟩ := hreport.of_bind
        exact hreport.of_report.elim
      · next hcount =>
          obtain ⟨name, r₂, hadvance, hafter⟩ := hrest.of_bind
          obtain rfl := hadvance.of_advance (by rw [hname]; decide)
          obtain ⟨found, r₃, heat, hnext⟩ := hafter.of_bind
          refine .inr ⟨name, hname, Nat.lt_of_not_le hcount, ?_⟩
          rcases heat.of_eat (by decide) with ⟨rfl, comma, hcomma, rfl⟩ | ⟨rfl, -, rfl⟩
          · obtain ⟨k, r₄, hkind, hend⟩ := hnext.of_bind
            obtain ⟨rfl, rfl⟩ := hkind.of_currentKind
            split at hend
            · next hidentifier =>
                obtain ⟨rfl, rfl⟩ := hend.of_pure
                exact .inr ⟨comma, hcomma, hidentifier, by simp, rfl⟩
            · exact hend.of_fail.elim
          · obtain ⟨rfl, rfl⟩ := hnext.of_pure
            exact .inl ⟨rfl, rfl⟩
  · next hother =>
      obtain ⟨rfl, rfl⟩ := hrest.of_pure
      exact .inl ⟨hother, rfl, rfl⟩

theorem of_parallelAssignment (hparallel : startsParallel r.tokens)
    (h : Reads (parallelAssignment limit (expression limit)) r s r') : Written r s r' := by
  obtain ⟨names, r₁, hnames, hsigns⟩ := h.of_bind
  obtain ⟨hne, hkinds, ts, rfl, hts⟩ := hnames.of_names
  obtain ⟨sign, r₂, hexpect, hrest⟩ := hsigns.of_bind
  obtain ⟨hsign, rfl⟩ := hexpect.of_expect (by decide)
  obtain ⟨values, r₃, hvalues, hcount⟩ := hrest.of_bind
  obtain ⟨-, us, rfl, hus, hreadable⟩ := hvalues.of_values
  split at hcount
  · next hlength =>
      obtain ⟨_, r₄, hterminator, hpure⟩ := hcount.of_bind
      obtain ⟨⟨vs, rfl, hvs⟩, -⟩ := hterminator.of_terminator
      obtain ⟨rfl, rfl⟩ := hpure.of_pure
      refine ⟨ts ++ sign :: (us ++ vs), by simp, ?_, .assign ?_ hlength hkinds hreadable⟩
      · rw [Stmt.tokens, List.append_assoc, List.cons_append]
        exact (Layout.of_forall₂ hts.alike_names).append
          (.cons (.mark rfl hsign) ((Layout.of_forall₂ hus).append hvs))
      · -- a single name would be followed by the sign
        obtain ⟨name, _ | ⟨next, more⟩, rfl⟩ := List.exists_cons_of_ne_nil hne
        · cases hts
          simp only [Reading.tokens_before, List.cons_append, List.nil_append, startsParallel,
            Bool.and_eq_true] at hparallel
          have hcomma := comma_of_moreNamesThenEqual hparallel.2
          rw [hsign] at hcomma
          cases hcomma
        · simp
  · exact hcount.of_throw.elim

theorem of_parameters {params : List Token} (h : Reads (parameters limit) r params r') :
    (∀ p ∈ params, p.kind = .identifier) ∧ params.length ≤ maxArguments ∧
      ∃ ts, r = r'.before ts ∧ CommaSeparated (params.map ([·])) ts := by
  rw [parameters_eq] at h
  have key : ∃ more ts, params = (#[] : Array Token).toList ++ more ∧ r = r'.before ts ∧
      (∀ p ∈ more, p.kind = .identifier) ∧ CommaSeparated (more.map ([·])) ts ∧
      (r.current.kind = .identifier → more ≠ []) ∧
      (more ≠ [] → (#[] : Array Token).size + more.length ≤ maxArguments) := by
    refine of_rounds (P := fun read r => ∃ more ts, params = read.toList ++ more ∧
      r = r'.before ts ∧ (∀ p ∈ more, p.kind = .identifier) ∧
      CommaSeparated (more.map ([·])) ts ∧ (r.current.kind = .identifier → more ≠ []) ∧
      (more ≠ [] → read.size + more.length ≤ maxArguments)) h ?_ ?_
    · intro read r hround
      rcases hround.of_parametersRound with ⟨hstop, hdone, rfl⟩ | ⟨name, hname, hcount, hrest⟩
      · cases hdone
        exact ⟨[], [], by simp, rfl, by simp, .nil, fun h => absurd h hstop, by simp⟩
      · rcases hrest with ⟨hdone, rfl⟩ | ⟨comma, _, _, _, hagain⟩
        · cases hdone
          exact ⟨[name], [name], by simp, rfl, by simpa using hname, .single _, by simp,
            fun _ => hcount⟩
        · cases hagain
    · intro read r read' r₁ hround ⟨more, ts, hparams, hts, hkinds, hcommas, hnext, hcounts⟩
      rcases hround.of_parametersRound with ⟨-, hdone, -⟩ | ⟨name, hname, hcount, hrest⟩
      · cases hdone
      · rcases hrest with ⟨hdone, -⟩ | ⟨comma, hcomma, hidentifier, rfl, hagain⟩
        · cases hdone
        · cases hagain
          subst hts
          have hmore := hnext hidentifier
          obtain ⟨second, more, rfl⟩ := List.exists_cons_of_ne_nil hmore
          refine ⟨name :: second :: more, name :: comma :: ts, by simpa using hparams, by simp,
            by simpa using ⟨hname, by simpa using hkinds⟩, .cons hcomma hcommas, by simp, ?_⟩
          intro _
          have hlength := hcounts hmore
          simp only [Array.size_push, List.length_cons] at hlength ⊢
          omega
  obtain ⟨more, ts, hparams, rfl, hkinds, hcommas, -, hcount⟩ := key
  obtain rfl : params = more := by simpa using hparams
  refine ⟨hkinds, ?_, ts, rfl, hcommas⟩
  by_cases hnone : params = []
  · simp [hnone]
  · simpa using hcount hnone

/-! ## Compound statements -/

section Compound

variable [Advances stmt] (hstmt : ∀ r s r', Reads stmt r s r' → Written r s r')
include hstmt

theorem of_definition (hkind : r.current.kind = .kwDef)
    (h : Reads (definition limit stmt) r s r') : Written r s r' := by
  obtain ⟨keyword, r₁, hadvance, hrest⟩ := h.of_bind
  obtain rfl := hadvance.of_advance (by rw [hkind]; decide)
  obtain ⟨name, r₂, hexpect, hparams⟩ := hrest.of_bind
  obtain ⟨hname, rfl⟩ := hexpect.of_expect (by decide)
  obtain ⟨parenthesized, r₃, heat, hparams⟩ := hparams.of_bind
  obtain ⟨params, r₄, hnames, hclose⟩ := hparams.of_bind
  obtain ⟨hkinds, hcount, ps, rfl, hps⟩ := hnames.of_parameters
  have hkeyword : keyword.kind = .kwDef := hkind
  rcases heat.of_eat (by decide) with ⟨rfl, left, hleft, rfl⟩ | ⟨rfl, -, rfl⟩
  · dsimp only at hclose
    rw [if_pos rfl] at hclose
    obtain ⟨right, r₅, hexpect, hbody⟩ := hclose.of_bind
    obtain ⟨hright, rfl⟩ := hexpect.of_expect (by decide)
    obtain ⟨body, r₆, hclosed, hpure⟩ := hbody.of_bind
    obtain ⟨ts, rfl, hts, hreadable⟩ := hclosed.of_closedBody hstmt
    obtain ⟨rfl, rfl⟩ := hpure.of_pure
    refine ⟨keyword :: name :: left :: (ps ++ right :: ts), by simp, ?_,
      .define hname hkinds hcount hreadable⟩
    have hhead : Layout (name :: left :: (ps ++ [right]))
        (name :: .mark .leftParen :: (commas (params.map ([·])) ++ [.mark .rightParen])) :=
      .cons (.refl name) (.cons (.mark rfl hleft) ((Layout.of_forall₂ hps.alike_names).append
        (.cons (.mark rfl hright) .nil)))
    simpa [Stmt.tokens, clause_append] using (Layout.clause rfl hkeyword hhead hts).lineEnd
  · obtain ⟨body, r₅, hclosed, hpure⟩ := hclose.of_bind
    obtain ⟨ts, rfl, hts, hreadable⟩ := hclosed.of_closedBody hstmt
    obtain ⟨rfl, rfl⟩ := hpure.of_pure
    refine ⟨keyword :: name :: (ps ++ ts), by simp, ?_, .define hname hkinds hcount hreadable⟩
    have hlayout := Layout.parameters hkeyword hname hkinds hps (.newline hts.lineEnd)
    simpa [Stmt.tokens, clause] using hlayout

theorem of_beginBlock (hkind : r.current.kind = .kwBegin)
    (h : Reads (beginBlock limit stmt) r s r') : Written r s r' := by
  obtain ⟨keyword, r₁, hadvance, hrest⟩ := h.of_bind
  obtain rfl := hadvance.of_advance (by rw [hkind]; decide)
  obtain ⟨body, r₂, hclosed, hpure⟩ := hrest.of_bind
  obtain ⟨ts, rfl, hts, hreadable⟩ := hclosed.of_closedBody hstmt
  obtain ⟨rfl, rfl⟩ := hpure.of_pure
  have hwritten := Written.clause (r := r') (s := .block body) rfl hkind .nil hts
    (by rw [Stmt.tokens, clause_append]) (.block hreadable)
  simpa using hwritten

theorem of_conditionalLoop (hkind : r.current.kind = .kwWhile ∨ r.current.kind = .kwUntil)
    (h : Reads (conditionalLoop limit (expression limit) stmt) r s r') : Written r s r' := by
  obtain ⟨keyword, r₁, hadvance, hrest⟩ := h.of_bind
  obtain rfl := hadvance.of_advance (by rcases hkind with hkind | hkind <;> rw [hkind] <;> decide)
  obtain ⟨condition, r₂, hexpr, hfiller⟩ := hrest.of_bind
  obtain ⟨cs, rfl, hcs, hcondition⟩ := hexpr.of_expression_alike
  obtain ⟨found, r₃, heat, hbody⟩ := hfiller.of_bind
  obtain ⟨fill, rfl, hfill⟩ := heat.of_eat_filler (.inr rfl)
  obtain ⟨body, r₄, hclosed, hchoice⟩ := hbody.of_bind
  obtain ⟨ts, rfl, hts, hreadable⟩ := hclosed.of_closedBody hstmt
  have hhead := Layout.of_forall₂ hcs
  have hlines := hfill _ _ hts
  split at hchoice
  · next hwhile =>
      obtain ⟨rfl, rfl⟩ := hchoice.of_pure
      have hwritten := Written.clause (r := r') (s := .whileDo condition body) rfl hwhile hhead
        hlines (by rw [Stmt.tokens, clause_append]) (.whileDo hcondition hreadable)
      simpa using hwritten
  · next hother =>
      obtain ⟨rfl, rfl⟩ := hchoice.of_pure
      have hwritten := Written.clause (r := r') (s := .untilDo condition body) rfl
        (hkind.resolve_left hother) hhead hlines (by rw [Stmt.tokens, clause_append])
        (.untilDo hcondition hreadable)
      simpa using hwritten

theorem of_loopStatement (hkind : r.current.kind = .kwLoop)
    (h : Reads (loopStatement limit stmt) r s r') : Written r s r' := by
  obtain ⟨keyword, r₁, hadvance, hrest⟩ := h.of_bind
  obtain rfl := hadvance.of_advance (by rw [hkind]; decide)
  obtain ⟨word, r₂, hexpect, hbody⟩ := hrest.of_bind
  obtain ⟨hword, rfl⟩ := hexpect.of_expect (by decide)
  obtain ⟨body, r₃, hclosed, hpure⟩ := hbody.of_bind
  obtain ⟨ts, rfl, hts, hreadable⟩ := hclosed.of_closedBody hstmt
  obtain ⟨rfl, rfl⟩ := hpure.of_pure
  have hwritten := Written.clause (r := r') (s := .loopDo body) rfl hkind
    (.cons (.mark rfl hword) .nil) hts (by rw [Stmt.tokens, clause_append]) (.loopDo hreadable)
  simpa using hwritten

theorem of_forStatement (hkind : r.current.kind = .kwFor)
    (h : Reads (forStatement limit (expression limit) stmt) r s r') : Written r s r' := by
  obtain ⟨keyword, r₁, hadvance, hrest⟩ := h.of_bind
  obtain rfl := hadvance.of_advance (by rw [hkind]; decide)
  obtain ⟨name, r₂, hexpect, hin⟩ := hrest.of_bind
  obtain ⟨hname, rfl⟩ := hexpect.of_expect (by decide)
  obtain ⟨word, r₃, hexpect, hrange⟩ := hin.of_bind
  obtain ⟨hword, rfl⟩ := hexpect.of_expect (by decide)
  obtain ⟨iterable, r₄, hexpr, hfiller⟩ := hrange.of_bind
  obtain ⟨is, rfl, his, hiterable⟩ := hexpr.of_expression_alike
  obtain ⟨found, r₅, heat, hbody⟩ := hfiller.of_bind
  obtain ⟨fill, rfl, hfill⟩ := heat.of_eat_filler (.inr rfl)
  obtain ⟨body, r₆, hclosed, hpure⟩ := hbody.of_bind
  obtain ⟨ts, rfl, hts, hreadable⟩ := hclosed.of_closedBody hstmt
  obtain ⟨rfl, rfl⟩ := hpure.of_pure
  have hwritten := Written.clause (r := r') (s := .forDo name iterable body) rfl hkind
    (.cons (.refl name) (.cons (.mark rfl hword) (Layout.of_forall₂ his))) (hfill _ _ hts)
    (by rw [Stmt.tokens, clause_append]) (.forDo hname hiterable hreadable)
  simpa using hwritten

/-! ## Statements with arms -/

theorem of_arm {β : Type} {f : Expr → List Stmt → Parse β} {b : β} {closers : KindSet}
    {opener : Token} [∀ condition body, Advances (f condition body)]
    (h : Reads (do
      let condition ← expression limit
      let _ ← Grammar.eat .kwThen
      let body ← block limit stmt closers opener
      f condition body) r b r') :
    ∃ condition body r₁ ts, r = r₁.before ts ∧ condition.Readable ∧ (∀ s ∈ body, s.Readable) ∧
      (∀ word keyword us vs, word.isFixed → keyword.kind = word → Layout us vs →
        Layout (keyword :: (ts ++ us)) (clause word condition.tokens (Stmt.lines body) ++ vs)) ∧
      Reads (f condition body) r₁ b r' := by
  obtain ⟨condition, r₁, hexpr, hfiller⟩ := h.of_bind
  obtain ⟨cs, rfl, hcs, hcondition⟩ := hexpr.of_expression_alike
  obtain ⟨found, r₂, heat, hbody⟩ := hfiller.of_bind
  obtain ⟨fill, rfl, hfill⟩ := heat.of_eat_filler (.inl rfl)
  obtain ⟨body, r₃, hblock, hrest⟩ := hbody.of_bind
  obtain ⟨⟨ts, rfl, hts, hreadable⟩, -⟩ := hblock.of_block hstmt
  refine ⟨condition, body, r₃, cs ++ (fill ++ ts), by simp, hcondition, hreadable, ?_, hrest⟩
  intro word keyword us vs hword hkeyword hus
  rw [clause_append, List.append_assoc, List.append_assoc]
  exact .clause hword hkeyword (Layout.of_forall₂ hcs) (hfill _ _ (hts.append hus))

theorem of_unlessStatement (hkind : r.current.kind = .kwUnless)
    (h : Reads (unlessStatement limit (expression limit) stmt) r s r') : Written r s r' := by
  obtain ⟨keyword, r₁, hadvance, hrest⟩ := h.of_bind
  obtain rfl := hadvance.of_advance (by rw [hkind]; decide)
  obtain ⟨condition, body, r₂, ts, rfl, hcondition, hreadable, hclause, helse⟩ := hrest.of_arm hstmt
  obtain ⟨o, r₃, hotherwise, hpure⟩ := helse.of_bind
  obtain ⟨us, rfl, hus, hother⟩ := hotherwise.of_otherwise hstmt
  obtain ⟨rfl, rfl⟩ := hpure.of_pure
  exact ⟨keyword :: (ts ++ us), by simp, (hclause _ _ _ _ rfl hkind hus).lineEnd,
    .unlessDo hcondition hreadable hother⟩

theorem of_ifRounds {opener : Token} {read : Array (Expr × List Stmt)}
    {arms : List (Expr × List Stmt)}
    (h : Reads (Grammar.rounds (ifRound limit (expression limit) stmt opener) limit read) r arms
      r') :
    ∃ more ts, arms = read.toList ++ more ∧ r = r'.before ts ∧ more ≠ [] ∧
      (∀ arm ∈ more, arm.1.Readable) ∧ (∀ arm ∈ more, ∀ s ∈ arm.2, s.Readable) ∧
      ∀ (word : Kind) (keyword : Token) (us vs : List Token), word.isFixed → keyword.kind = word →
        Layout us vs →
        Layout (keyword :: (ts ++ us)) (Stmt.armLines word .kwElsif more ++ vs) := by
  refine of_rounds (P := fun read r => ∃ more ts, arms = read.toList ++ more ∧ r = r'.before ts ∧
    more ≠ [] ∧ (∀ arm ∈ more, arm.1.Readable) ∧ (∀ arm ∈ more, ∀ s ∈ arm.2, s.Readable) ∧
    ∀ (word : Kind) (keyword : Token) (us vs : List Token), word.isFixed → keyword.kind = word →
      Layout us vs →
      Layout (keyword :: (ts ++ us)) (Stmt.armLines word .kwElsif more ++ vs)) h ?_ ?_
  · intro read r hround
    obtain ⟨condition, body, r₁, ts, rfl, hcondition, hreadable, hclause, hnext⟩ :=
      hround.of_arm hstmt
    obtain ⟨found, r₂, heat, hend⟩ := hnext.of_bind
    rcases heat.of_eat (by decide) with ⟨rfl, -⟩ | ⟨rfl, -, rfl⟩
    · cases hend.of_pure.1
    · obtain ⟨hdone, rfl⟩ := hend.of_pure
      cases hdone
      refine ⟨[(condition, body)], ts, by simp, rfl, by simp, by simpa using hcondition,
        by simpa using hreadable, ?_⟩
      simpa [Stmt.armLines] using hclause
  · rintro read r read' r₁ hround ⟨more, ts, harms, hts, hne, hconditions, hbodies, hlayout⟩
    obtain ⟨condition, body, r₂, cs, rfl, hcondition, hreadable, hclause, hnext⟩ :=
      hround.of_arm hstmt
    obtain ⟨found, r₃, heat, hend⟩ := hnext.of_bind
    rcases heat.of_eat (by decide) with ⟨rfl, word, hword, rfl⟩ | ⟨rfl, -, rfl⟩
    · obtain ⟨hagain, rfl⟩ := hend.of_pure
      cases hagain
      subst hts
      refine ⟨(condition, body) :: more, cs ++ word :: ts, by simpa using harms, by simp, by simp,
        by simpa using ⟨hcondition, by simpa using hconditions⟩,
        by simpa using ⟨hreadable, by simpa using hbodies⟩, ?_⟩
      intro first keyword us vs hfirst hkeyword hus
      have hrest := hlayout .kwElsif word us vs rfl hword hus
      simpa [Stmt.armLines] using hclause first keyword _ _ hfirst hkeyword hrest
    · cases hend.of_pure.1

theorem of_ifStatement (hkind : r.current.kind = .kwIf)
    (h : Reads (ifStatement limit (expression limit) stmt) r s r') : Written r s r' := by
  rw [ifStatement_eq] at h
  obtain ⟨keyword, r₁, hadvance, hrest⟩ := h.of_bind
  obtain rfl := hadvance.of_advance (by rw [hkind]; decide)
  obtain ⟨arms, r₂, hrounds, helse⟩ := hrest.of_bind
  obtain ⟨more, ts, harms, rfl, hne, hconditions, hbodies, hlayout⟩ := hrounds.of_ifRounds hstmt
  obtain rfl : arms = more := by simpa using harms
  obtain ⟨o, r₃, hotherwise, hpure⟩ := helse.of_bind
  obtain ⟨us, rfl, hus, hother⟩ := hotherwise.of_otherwise hstmt
  obtain ⟨rfl, rfl⟩ := hpure.of_pure
  refine ⟨keyword :: (ts ++ us), by simp, ?_, .ifDo_arms hne hconditions hbodies hother⟩
  rw [Stmt.tokens, Stmt.branchLines_arms]
  exact (hlayout _ _ _ _ rfl hkind hus).lineEnd

theorem of_caseRounds {opener : Token} {read : Array (Expr × List Stmt)}
    {arms : List (Expr × List Stmt)}
    (h : Reads (Grammar.rounds (caseRound limit (expression limit) stmt opener) limit read) r arms
      r') :
    ∃ more ts, arms = read.toList ++ more ∧ r = r'.before ts ∧
      (∀ arm ∈ more, arm.1.Readable) ∧ (∀ arm ∈ more, ∀ s ∈ arm.2, s.Readable) ∧
      Layout ts (Stmt.armLines .kwWhen .kwWhen more) := by
  refine of_rounds (P := fun read r => ∃ more ts, arms = read.toList ++ more ∧ r = r'.before ts ∧
    (∀ arm ∈ more, arm.1.Readable) ∧ (∀ arm ∈ more, ∀ s ∈ arm.2, s.Readable) ∧
    Layout ts (Stmt.armLines .kwWhen .kwWhen more)) h ?_ ?_
  · intro read r hround
    obtain ⟨found, r₁, heat, hrest⟩ := hround.of_bind
    rcases heat.of_eat (by decide) with ⟨rfl, -⟩ | ⟨rfl, -, rfl⟩
    · obtain ⟨condition, body, r₂, -, -, -, -, -, hagain⟩ := hrest.of_arm hstmt
      cases hagain.of_pure.1
    · obtain ⟨hdone, rfl⟩ := hrest.of_pure
      cases hdone
      exact ⟨[], [], by simp, rfl, by simp, by simp, .nil⟩
  · rintro read r read' r₁ hround ⟨more, ts, harms, hts, hconditions, hbodies, hlayout⟩
    obtain ⟨found, r₂, heat, hrest⟩ := hround.of_bind
    rcases heat.of_eat (by decide) with ⟨rfl, word, hword, rfl⟩ | ⟨rfl, -, rfl⟩
    · obtain ⟨condition, body, r₃, cs, rfl, hcondition, hreadable, hclause, hpure⟩ :=
        hrest.of_arm hstmt
      obtain ⟨hagain, rfl⟩ := hpure.of_pure
      cases hagain
      subst hts
      exact ⟨(condition, body) :: more, word :: (cs ++ ts), by simpa using harms, by simp,
        by simpa using ⟨hcondition, by simpa using hconditions⟩,
        by simpa using ⟨hreadable, by simpa using hbodies⟩, hclause _ _ _ _ rfl hword hlayout⟩
    · cases hrest.of_pure.1

theorem of_caseStatement (hkind : r.current.kind = .kwCase)
    (h : Reads (caseStatement limit (expression limit) stmt) r s r') : Written r s r' := by
  rw [caseStatement_eq] at h
  obtain ⟨keyword, r₁, hadvance, hrest⟩ := h.of_bind
  obtain rfl := hadvance.of_advance (by rw [hkind]; decide)
  obtain ⟨subject, r₂, hexpr, hskip⟩ := hrest.of_bind
  obtain ⟨ss, rfl, hss, hsubject⟩ := hexpr.of_expression_alike
  obtain ⟨_, r₃, hskipped, harms⟩ := hskip.of_bind
  obtain ⟨seps, hseps, rfl, -⟩ := hskipped.of_skipSeparators
  obtain ⟨arms, r₄, hrounds, hchoice⟩ := harms.of_bind
  obtain ⟨more, ts, heq, rfl, hconditions, hbodies, hlayout⟩ := hrounds.of_caseRounds hstmt
  obtain rfl : arms = more := by simpa using heq
  split at hchoice
  · exact hchoice.of_fail.elim
  · next hne =>
      obtain ⟨o, r₅, hotherwise, hpure⟩ := hchoice.of_bind
      obtain ⟨us, rfl, hus, hother⟩ := hotherwise.of_otherwise hstmt
      obtain ⟨rfl, rfl⟩ := hpure.of_pure
      have hwritten := Written.clause (r := r')
        (s := .caseDo subject (arms.map Prod.fst) (arms.map Prod.snd) o) rfl hkind
        (Layout.of_forall₂ hss) (Layout.separators hseps (hlayout.append hus))
        (by rw [Stmt.tokens, Stmt.branchLines_arms, clause_append])
        (.caseDo_arms hsubject (by simpa using hne) hconditions hbodies hother)
      simpa using hwritten

/-! ## Programs -/

theorem of_statementWith (h : Reads (statementWith limit (expression limit) stmt) r s r') :
    Written r s r' := by
  obtain ⟨parallel, r₁, hparallel, hchoice⟩ := h.of_bind_of fun parallel => by
    split
    · infer_instance
    · refine Advances.of_bind inferInstance fun kind => ?_
      split <;> infer_instance
  obtain ⟨rfl, rfl⟩ := hparallel.of_atParallelAssignment
  split at hchoice
  · next hparallel => exact hchoice.of_parallelAssignment hparallel
  · next hparallel =>
      obtain ⟨kind, r₂, hkind, hform⟩ := hchoice.of_bind_of fun kind => by
        split <;> infer_instance
      obtain ⟨rfl, rfl⟩ := hkind.of_currentKind
      split at hform
      · next hkind => exact hform.of_definition hstmt hkind
      · next hkind => exact hform.of_unlessStatement hstmt hkind
      · next hkind => exact hform.of_ifStatement hstmt hkind
      · next hkind => exact hform.of_printStatement (.inl hkind)
      · next hkind => exact hform.of_printStatement (.inr hkind)
      · next hkind => exact hform.of_beginBlock hstmt hkind
      · next hkind => exact hform.of_conditionalLoop hstmt (.inl hkind)
      · next hkind => exact hform.of_conditionalLoop hstmt (.inr hkind)
      · next hkind => exact hform.of_returnStatement hkind
      · next hkind =>
          exact hform.of_jump (fun _ => rfl) (.breakLoop hkind) (by rw [hkind]; decide)
      · next hkind =>
          exact hform.of_jump (fun _ => rfl) (.nextRound hkind) (by rw [hkind]; decide)
      · next hkind => exact hform.of_loopStatement hstmt hkind
      · next hkind => exact hform.of_forStatement hstmt hkind
      · next hkind => exact hform.of_caseStatement hstmt hkind
      · exact hform.of_expressionStatement (by simpa using hparallel)

end Compound

theorem of_statement (h : Reads (statement limit) r s r') : Written r s r' :=
  of_nested (fun _ _ => inferInstance) h fun _ _ hstmt _ _ _ h => h.of_statementWith hstmt

theorem of_program {statements : List Stmt} (h : Reads (program limit) r statements r') :
    WrittenLines r statements r' ∧ r'.current.kind = .eof := by
  rw [program_eq] at h
  refine h.of_lineRounds (fun k => k = .eof) ?_
  intro read r round r' hround
  obtain ⟨_, r₁, hskip, hrest⟩ := hround.of_bind
  obtain ⟨seps, hseps, rfl, -⟩ := hskip.of_skipSeparators
  obtain ⟨k, r₂, hkind, hchoice⟩ := hrest.of_bind
  obtain ⟨rfl, rfl⟩ := hkind.of_currentKind
  refine ⟨seps, r₂, hseps, rfl, ?_⟩
  split at hchoice
  · next hend =>
      obtain ⟨rfl, rfl⟩ := hchoice.of_pure
      exact .inl ⟨rfl, rfl, hend⟩
  · exact .inr (hchoice.of_keepRead fun _ _ _ h => h.of_statement)

end Reads

end Scriptlet.Grammar
