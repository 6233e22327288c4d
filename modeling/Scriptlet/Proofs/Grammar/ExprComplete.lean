import Scriptlet.Proofs.Grammar.ExprSound

/-!
# Phrases are read

Every phrase that ends where the next token cannot go on it is read whole, with its own tree.  The
grammar puts phrases together from the left where the parser goes round a loop, so at those levels
the statement that is carried along a derivation is about the loop: what the loop makes of the
whole phrase, it makes of the first operand in some more rounds.
-/

namespace Scriptlet.Grammar

/-! ## The parsers of the levels -/

def chainRound (operators : List Kind) (operand : Parse Expr) (left : Expr) :
    Parse (Round Expr Expr) := do
  if operators.contains (← currentKind) then
    let op ← advance
    return .again (join left op (← operand))
  else
    return .done left

def powerRound (operand : Parse Expr) (read : List (Expr × Token) × Expr) :
    Parse (Round (List (Expr × Token) × Expr) Expr) := do
  let (before, last) := read
  if (← currentKind) = .starStar then
    let op ← advance
    return .again ((last, op) :: before, ← operand)
  else
    return .done (joinRight before last)

def frontRound (ops : List Token) : Parse (Round (List Token) (List Token)) := do
  if frontOperators.contains (← currentKind) then
    return .again ((← advance) :: ops)
  else
    return .done ops

def callRound (limit : Nat) (expr : Parse Expr) (callee : Expr) : Parse (Round Expr Expr) := do
  if ← eat .leftParen then
    let args ← arguments limit expr
    let paren ← expect .rightParen .closingArguments
    return .again (.call callee paren args)
  else
    return .done callee

def unaryFrom (operand : Parse Expr) (ops : List Token) : Parse Expr := do
  return ops.foldl (fun e op => .unary op e) (← operand)

def level (limit : Nat) (expr : Parse Expr) : Precedence → Parse Expr
  | .assignment => assignment limit expr
  | .or => operation limit expr
  | .and => binary limit (power limit (unary limit (call limit expr))) (binaryLevels.drop 1)
  | .equality => binary limit (power limit (unary limit (call limit expr))) (binaryLevels.drop 2)
  | .comparison => binary limit (power limit (unary limit (call limit expr))) (binaryLevels.drop 3)
  | .term => binary limit (power limit (unary limit (call limit expr))) (binaryLevels.drop 4)
  | .factor => binary limit (power limit (unary limit (call limit expr))) (binaryLevels.drop 5)
  | .power => power limit (unary limit (call limit expr))
  | .unary => unary limit (call limit expr)
  | .call => call limit expr
  | .primary => primary expr

def level.round (limit : Nat) (expr : Parse Expr) : Precedence → Expr → Parse (Round Expr Expr)
  | .call => callRound limit expr
  | p => chainRound p.operators (level limit expr p.tighter)

theorem level_eq_bind {limit : Nat} {expr : Parse Expr} {p : Precedence}
    (hp : p.groupsLeft ∨ p = .call) : level limit expr p =
      level limit expr p.tighter >>= rounds (level.round limit expr p) limit := by
  cases p <;> first | rfl | simp [Precedence.groupsLeft] at hp

/-! ## What is carried along a derivation -/

section

variable (limit : Nat) (expr : Parse Expr)

/-- The phrase `ts` of level `p` is read whole wherever the next token cannot go on it. -/
def Whole (p : Precedence) (ts : List Token) (e : Expr) : Prop :=
  ∀ r : Reading, r.Closed → p.continues r.current.kind = false →
    Reads (level limit expr p) (r.before ts) e r

/-- What the rounds of level `p` make of `e`, they make of the first operand of `ts`. -/
def Grouped (p : Precedence) (ts : List Token) (e : Expr) : Prop :=
  ∃ n < ts.length, ∀ (r r' : Reading) (e' : Expr) (left : Nat), r.Closed →
    p.tighter.continues r.current.kind = false →
    Reads (rounds (level.round limit expr p) left e) r e' r' →
    Reads (level limit expr p.tighter >>= rounds (level.round limit expr p) (left + n))
      (r.before ts) e' r'

def Completes (p : Precedence) (ts : List Token) (e : Expr) : Prop :=
  match p with
  | .assignment | .primary => Whole limit expr p ts e
  | .power => ∀ (before : List (Expr × Token)) (left : Nat) (r : Reading), ts.length ≤ left →
      r.Closed → Precedence.power.continues r.current.kind = false →
      Reads (unary limit (call limit expr) >>= fun first =>
        rounds (powerRound (unary limit (call limit expr))) left (before, first))
        (r.before ts) (joinRight before e) r
  | .unary => ∀ (ops : List Token) (left : Nat) (r : Reading), ts.length ≤ left → r.Closed →
      Precedence.unary.continues r.current.kind = false →
      Reads (rounds frontRound left ops >>= unaryFrom (call limit expr)) (r.before ts)
        (ops.foldl (fun e op => .unary op e) e) r
  | p => Grouped limit expr p ts e

end

variable {limit : Nat} {expr operand : Parse Expr} {p : Precedence} {ts ls rs : List Token}
variable {e left right : Expr} {op : Token} {r : Reading}

theorem completes_iff_grouped (hp : p.groupsLeft ∨ p = .call) :
    Completes limit expr p ts e ↔ Grouped limit expr p ts e := by
  cases p <;> first | rfl | simp [Precedence.groupsLeft] at hp

/-! ## Rounds -/

theorem reads_chainRound (left : Expr) {operators : List Kind} (hop : op.kind ∈ operators)
    (heof : op.kind ≠ .eof)
    (hr : r.Closed) (hright : Reads operand (r.before rs) right r) :
    Reads (chainRound operators operand left) (r.before (op :: rs))
      (.again (join left op right)) r := by
  refine (Reads.currentKind (hr.before _)).bind ?_
  rw [if_pos (by simpa using hop)]
  exact (Reads.advance hr heof).bind (hright.bind (.pure hr))

theorem reads_chainRound_done {operators : List Kind} (hr : r.Closed)
    (hstop : operators.contains r.current.kind = false) :
    Reads (chainRound operators operand left) r (.done left) r := by
  refine (Reads.currentKind hr).bind ?_
  rw [hstop]
  exact .pure hr

theorem reads_powerRound {before : List (Expr × Token)} {r' : Reading} (hop : op.kind = .starStar)
    (hr : r.Closed) (hright : Reads operand (r.before rs) right r') (hr' : r'.Closed) :
    Reads (powerRound operand (before, left)) (r.before (op :: rs))
      (.again ((left, op) :: before, right)) r' := by
  refine (Reads.currentKind (hr.before _)).bind ?_
  rw [if_pos (by simpa using hop)]
  exact (Reads.advance hr (by rw [hop]; decide)).bind (hright.bind (.pure hr'))

theorem reads_powerRound_done {before : List (Expr × Token)} (hr : r.Closed)
    (hstop : r.current.kind ≠ .starStar) :
    Reads (powerRound operand (before, left)) r (.done (joinRight before left)) r := by
  refine (Reads.currentKind hr).bind ?_
  rw [if_neg hstop]
  exact .pure hr

theorem reads_frontRound {ops : List Token} (hop : op.kind ∈ frontOperators) (hr : r.Closed) :
    Reads (frontRound ops) (r.before (op :: ts)) (.again (op :: ops)) (r.before ts) := by
  refine (Reads.currentKind (hr.before _)).bind ?_
  rw [if_pos (by simpa using hop)]
  have heof : op.kind ≠ .eof := by
    rintro heof
    simp [heof, frontOperators] at hop
  exact (Reads.advance hr heof).bind (.pure (hr.before _))

theorem reads_frontRound_done {ops : List Token} (hr : r.Closed)
    (hstop : r.current.kind ∉ frontOperators) : Reads (frontRound ops) r (.done ops) r := by
  refine (Reads.currentKind hr).bind ?_
  rw [if_neg (by simpa using hstop)]
  exact .pure hr

theorem reads_callRound_done (hr : r.Closed) (hstop : r.current.kind ≠ .leftParen) :
    Reads (callRound limit expr left) r (.done left) r :=
  (Reads.eat_other hr hstop).bind (.pure hr)

theorem reads_round_done (hp : p.groupsLeft ∨ p = .call) (hr : r.Closed)
    (hstop : p.continues r.current.kind = false) :
    Reads (level.round limit expr p left) r (.done left) r := by
  rw [Precedence.continues_eq, Bool.or_eq_false_iff] at hstop
  cases p with
  | call => exact reads_callRound_done hr (by simpa [Precedence.operators] using hstop.1)
  | assignment | power | unary | primary => simp [Precedence.groupsLeft] at hp
  | _ => exact reads_chainRound_done hr hstop.1

/-! ## From what is carried to whole phrases -/

theorem Completes.whole (h : Completes limit expr p ts e) (hlimit : ts.length ≤ limit) :
    Whole limit expr p ts e := by
  intro r hr hstop
  by_cases hp : p.groupsLeft ∨ p = .call
  · obtain ⟨n, hn, hrounds⟩ := (completes_iff_grouped hp).mp h
    obtain ⟨left, rfl⟩ : ∃ left, limit = left + n := ⟨limit - n, by omega⟩
    rw [level_eq_bind hp]
    have htighter : p.tighter.continues r.current.kind = false := by
      rw [Precedence.continues_eq, Bool.or_eq_false_iff] at hstop
      exact hstop.2
    exact hrounds r r e left hr htighter
      (Reads.rounds_done (by omega) (reads_round_done hp hr hstop) hr)
  · cases p with
    | assignment | primary => exact h r hr hstop
    | power => exact h [] limit r hlimit hr hstop
    | unary => exact h [] limit r hlimit hr hstop
    | _ => simp [Precedence.groupsLeft] at hp

/-! ## One production at a time -/

theorem startsPrimary_not_front {k : Kind} (h : Derives.startsPrimary k) : k ∉ frontOperators := by
  revert h
  cases k <;> decide

theorem Completes.tighter (hp : p ≠ .primary) (hts : Derives p.tighter ts e)
    (h : Whole limit expr p.tighter ts e) : Completes limit expr p ts e := by
  have hpos := hts.length_pos
  by_cases hgroups : p.groupsLeft ∨ p = .call
  · refine (completes_iff_grouped hgroups).mpr ⟨0, hpos, ?_⟩
    intro r r' e' left hr hstop hrounds
    exact (h r hr hstop).bind hrounds
  · cases p with
    | assignment =>
        intro r hr hstop
        rw [Precedence.continues_eq, Bool.or_eq_false_iff] at hstop
        refine (h r hr hstop.2).bind ((Reads.currentKind hr).bind ?_)
        have hnone : assignmentOperators.contains r.current.kind = false := hstop.1
        rw [hnone]
        exact .pure hr
    | power =>
        intro before left r hlength hr hstop
        rw [Precedence.continues_eq, Bool.or_eq_false_iff] at hstop
        refine (h r hr hstop.2).bind (Reads.rounds_done (Nat.lt_of_lt_of_le hpos hlength) ?_ hr)
        exact reads_powerRound_done hr (by simpa [Precedence.operators] using hstop.1)
    | unary =>
        intro ops left r hlength hr hstop
        obtain ⟨t, rest, rfl, hstart⟩ := hts.head
        have hstart := startsPrimary_not_front (hstart.resolve_right fun hcall => hcall.1 rfl)
        have hrightd := hr.before (t :: rest)
        refine (Reads.rounds_done (Nat.lt_of_lt_of_le hpos hlength)
          (reads_frontRound_done hrightd hstart) hrightd).bind ?_
        exact (h r hr hstop).bind (.pure hr)
    | primary => exact absurd rfl hp
    | _ => simp [Precedence.groupsLeft] at hgroups

theorem Completes.chain (hp : p.groupsLeft) (hop : op.kind ∈ p.operators)
    (hleft : Completes limit expr p ls left) (hright : Whole limit expr p.tighter rs right) :
    Completes limit expr p (ls ++ op :: rs) (p.node op left right) := by
  rw [completes_iff_grouped (.inl hp)] at hleft ⊢
  obtain ⟨n, hn, hrounds⟩ := hleft
  refine ⟨n + 1, by simp; omega, ?_⟩
  intro r r' e' more hr hstop hrest
  have hround : Reads (level.round limit expr p left) (r.before (op :: rs))
      (.again (p.node op left right)) r := by
    have hchain := reads_chainRound left hop (Precedence.operators_ne_eof hop) hr
      (hright r hr hstop)
    rw [Precedence.join_eq_node hp hop] at hchain
    cases p <;> first | exact hchain | simp [Precedence.groupsLeft] at hp
  have hnext := hrounds (r.before (op :: rs)) r' e' (more + 1) (hr.before _)
    (Precedence.tighter_continues hop) (.rounds_again hround hrest)
  rw [Reading.before_append, Nat.add_comm n 1, ← Nat.add_assoc]
  exact hnext

instance [Advances operand] (read : List (Expr × Token) × Expr) :
    Advances (powerRound operand read) := by
  unfold powerRound
  infer_instance

theorem Completes.power [Advances expr] (hop : op.kind ∈ Precedence.power.operators)
    (hleft : Whole limit expr .unary ls left) (hright : Completes limit expr .power rs right) :
    Completes limit expr .power (ls ++ op :: rs) (.binary left op right) := by
  intro before more r hlength hr hstop
  simp only [List.length_append, List.length_cons] at hlength
  obtain ⟨more, rfl⟩ : ∃ n, more = n + 1 := ⟨more - 1, by omega⟩
  obtain ⟨first, r₁, hfirst, hrest⟩ :=
    (hright ((left, op) :: before) more r (by omega) hr hstop).of_bind
  have hop : op.kind = .starStar := by simpa [Precedence.operators] using hop
  rw [Reading.before_append]
  refine (hleft _ (hr.before _) ?_).bind ?_
  · rw [Reading.current_before_cons, hop]
    rfl
  · exact .rounds_again (reads_powerRound hop hr hfirst hrest.closed) hrest

instance (ops : List Token) : Advances (frontRound ops) := by
  unfold frontRound
  infer_instance

instance [Advances operand] (ops : List Token) : Advances (unaryFrom operand ops) := by
  unfold unaryFrom
  infer_instance

theorem Completes.unary [Advances expr] (hop : op.kind ∈ frontOperators)
    (h : Completes limit expr .unary ts e) :
    Completes limit expr .unary (op :: ts) (.unary op e) := by
  intro ops more r hlength hr hstop
  obtain ⟨more, rfl⟩ : ∃ n, more = n + 1 := ⟨more - 1, by simp at hlength; omega⟩
  obtain ⟨ops', r₁, hfront, hoperand⟩ :=
    (h (op :: ops) more r (by simpa using hlength) hr hstop).of_bind
  exact (Reads.rounds_again (reads_frontRound hop hr) hfront).bind hoperand

theorem Completes.name {name : Token} (hname : name.kind = .identifier) :
    Completes limit expr .primary [name] (.var name) := by
  intro r hr _
  refine (Reads.current (hr.before _)).bind ?_
  rw [Reading.current_before_cons, hname]
  exact (Reads.advance hr (by rw [hname]; decide)).bind (.pure hr)

theorem Whole.name (expr : Parse Expr) {name : Token} (hname : name.kind = .identifier)
    (hlimit : 0 < limit) :
    Whole limit expr .or [name] (.var name) := by
  have climb : ∀ p : Precedence, p ≠ .primary →
      Derives p.tighter [name] (.var name) ∧ Whole limit expr p.tighter [name] (.var name) →
      Derives p [name] (.var name) ∧ Whole limit expr p [name] (.var name) := by
    rintro p hp ⟨hts, hwhole⟩
    exact ⟨.tighter hp hts, (Completes.tighter hp hts hwhole).whole hlimit⟩
  have hunary := climb .unary (by decide)
    (climb .call (by decide) ⟨.name hname, Completes.name hname⟩)
  have hterm := climb .term (by decide)
    (climb .factor (by decide) (climb .power (by decide) hunary))
  have hequality := climb .equality (by decide) (climb .comparison (by decide) hterm)
  exact (climb .or (by decide) (climb .and (by decide) hequality)).2

def Inner (expr : Parse Expr) (ts : List Token) (e : Expr) : Prop :=
  ∀ r : Reading, r.Closed → Precedence.assignment.continues r.current.kind = false →
    Reads expr (r.before ts) e r

theorem Completes.assign {name : Token} (hname : name.kind = .identifier)
    (hop : op.kind ∈ Precedence.assignment.operators) (hlimit : 0 < limit)
    (hvalue : Inner expr ts e) :
    Completes limit expr .assignment (name :: op :: ts) (.assign name op e) := by
  intro r hr hstop
  have hrightd := hr.before (op :: ts)
  have htarget := Whole.name expr hname hlimit (r.before (op :: ts)) hrightd
    (Precedence.tighter_continues hop)
  rw [Reading.before_before] at htarget
  refine htarget.bind ((Reads.currentKind hrightd).bind ?_)
  have hassign : assignmentOperators.contains op.kind := List.contains_iff_mem.mpr hop
  rw [Reading.current_before_cons, if_pos hassign]
  exact (Reads.advance hr (Precedence.operators_ne_eof hop)).bind
    ((hvalue r hr hstop).bind (.pure hr))

theorem Completes.group {left right : Token} (hleft : left.kind = .leftParen)
    (hright : right.kind = .rightParen) (hinner : Inner expr ts e) :
    Completes limit expr .primary (left :: (ts ++ [right])) (.group e) := by
  intro r hr _
  have hrightd := hr.before [right]
  refine (Reads.current (hr.before _)).bind ?_
  rw [Reading.current_before_cons, hleft]
  refine (Reads.advance hr (by rw [hleft]; decide)).bind ?_
  rw [Reading.before_append]
  refine (hinner _ hrightd (by rw [Reading.current_before_cons, hright]; rfl)).bind ?_
  exact (Reads.expect hr hright (by decide)).bind (.pure hr)

theorem Completes.literal {t : Token} {v : Literal} (hv : t.value? = some v) :
    Completes limit expr .primary [t] (.literal v) := by
  intro r hr _
  refine (Reads.current (hr.before _)).bind ?_
  rw [Reading.current_before_cons]
  have heof : t.kind ≠ .eof := by
    rintro heof
    simp [Token.value?, heof] at hv
  have hread : ∀ w, Reads (do let _ ← advance; return .literal w) (r.before [t])
      (.literal w : Expr) r := fun w => (Reads.advance hr heof).bind (.pure hr)
  unfold Token.value? at hv
  split at hv
  case h_7 => cases hv
  all_goals
    next hkind =>
      cases hv
      rw [hkind]
      exact hread _

/-! ## Calls -/

theorem reads_arguments {parts : List (List Token × Expr)} {args : List Token}
    (hparts : ∀ part ∈ parts, Derives .assignment part.1 part.2)
    (hinner : ∀ part ∈ parts, Inner expr part.1 part.2) (hcount : parts.length ≤ maxArguments)
    (hlimit : parts.length ≤ limit) (hargs : CommaSeparated (parts.map Prod.fst) args)
    (hr : r.Closed) (hstop : r.current.kind = .rightParen) :
    Reads (arguments limit expr) (r.before args) (parts.map Prod.snd) r := by
  refine (Reads.currentKind (hr.before _)).bind ?_
  by_cases hnone : parts = []
  · subst hnone
    cases hargs
    rw [Reading.before_nil, if_pos hstop]
    exact .pure hr
  · obtain ⟨part, rest, rfl⟩ := List.exists_cons_of_ne_nil hnone
    obtain ⟨t, more, hhead, hstart⟩ := (hparts part (by simp)).starts_head
    obtain ⟨after, rfl⟩ := hargs.exists_append
    have hfirst : ((r.before (part.1 ++ after)).current).kind ≠ .rightParen := by
      rw [hhead, List.cons_append, Reading.current_before_cons]
      intro hkind
      rw [hkind] at hstart
      exact absurd hstart (by decide)
    rw [if_neg hfirst]
    refine Reads.commaSeparated (by simp) hlimit hr ?_ ?_ hargs (by rw [hstop]; decide)
    · intro i hi r hr
      rw [if_neg (Nat.not_le_of_lt (Nat.lt_of_lt_of_le hi hcount))]
      exact .pure hr
    · rintro part hpart r₁ hr₁ (hcomma | rfl)
      · exact hinner part hpart r₁ hr₁ (by rw [hcomma]; rfl)
      · exact hinner part hpart r₁ hr₁ (by rw [hstop]; rfl)

theorem Completes.call [Advances expr] {left right : Token} {cs args : List Token} {callee : Expr}
    {parts : List (List Token × Expr)} (hleft : left.kind = .leftParen)
    (hright : right.kind = .rightParen) (hcount : parts.length ≤ 255)
    (hargs : CommaSeparated (parts.map Prod.fst) args)
    (hparts : ∀ part ∈ parts, Derives .assignment part.1 part.2)
    (hinner : ∀ part ∈ parts, Inner expr part.1 part.2) (hlimit : parts.length ≤ limit)
    (hcallee : Completes limit expr .call cs callee) :
    Completes limit expr .call (cs ++ left :: (args ++ [right]))
      (.call callee right (parts.map Prod.snd)) := by
  obtain ⟨n, hn, hrounds⟩ := hcallee
  refine ⟨n + 1, by simp; omega, ?_⟩
  intro r r' e' more hr hstop hrest
  have hrightd := hr.before [right]
  have hround : Reads (level.round limit expr .call callee)
      (r.before (left :: (args ++ [right])))
        (.again (.call callee right (parts.map Prod.snd))) r := by
    refine (Reads.eat hr hleft (by decide)).bind ?_
    rw [Reading.before_append]
    refine (reads_arguments hparts hinner hcount hlimit hargs hrightd hright).bind ?_
    exact (Reads.expect hr hright (by decide)).bind (.pure hr)
  have hnext := hrounds (r.before (left :: (args ++ [right]))) r' e' (more + 1) (hr.before _)
    rfl (.rounds_again hround hrest)
  rw [Reading.before_append, Nat.add_comm n 1, ← Nat.add_assoc]
  exact hnext

/-! ## Whole derivations -/

theorem Inner.of_completes (hts : Derives .assignment ts e) {depth : Nat}
    (h : ∀ depth, ts.length ≤ depth + 1 → ts.length ≤ limit →
      Completes limit (nested (assignment limit) depth) .assignment ts e)
    (hdepth : ts.length ≤ depth) (hlimit : ts.length ≤ limit) :
    Inner (nested (assignment limit) depth) ts e := by
  intro r hr hstop
  have hpos := hts.length_pos
  obtain ⟨depth, rfl⟩ : ∃ d, depth = d + 1 := ⟨depth - 1, by omega⟩
  exact (h depth hdepth hlimit r hr hstop).nested

theorem advances_nested_assignment (limit depth : Nat) :
    Advances (nested (assignment limit) depth) :=
  .nested (fun _ _ => inferInstance) depth

theorem Derives.completes (h : Derives p ts e) :
    ∀ depth, ts.length ≤ depth + 1 → ts.length ≤ limit →
      Completes limit (nested (assignment limit) depth) p ts e := by
  induction h with
  | tighter hp hts ih =>
      intro depth hdepth hlimit
      exact .tighter hp hts ((ih depth hdepth hlimit).whole hlimit)
  | assign hname hop hts ih =>
      intro depth hdepth hlimit
      simp only [List.length_cons] at hdepth hlimit
      exact .assign hname hop (by omega) (.of_completes hts ih (by omega) (by omega))
  | chain hp hop _ _ ihl ihr =>
      intro depth hdepth hlimit
      simp only [List.length_append, List.length_cons] at hdepth hlimit
      exact .chain hp hop (ihl depth (by omega) (by omega))
        ((ihr depth (by omega) (by omega)).whole (by omega))
  | power hop _ _ ihl ihr =>
      intro depth hdepth hlimit
      simp only [List.length_append, List.length_cons] at hdepth hlimit
      have hadvances := advances_nested_assignment limit depth
      exact .power hop ((ihl depth (by omega) (by omega)).whole (by omega))
        (ihr depth (by omega) (by omega))
  | unary hop _ ih =>
      intro depth hdepth hlimit
      simp only [List.length_cons] at hdepth hlimit
      have hadvances := advances_nested_assignment limit depth
      exact .unary hop (ih depth (by omega) (by omega))
  | @call _ _ cs args _ parts hleft hright hcount hargs hcallee hparts ihc ihp =>
      intro depth hdepth hlimit
      simp only [List.length_append, List.length_cons] at hdepth hlimit
      have hadvances := advances_nested_assignment limit depth
      have hpositive : ∀ part ∈ parts.map Prod.fst, 0 < part.length := by
        intro part hpart
        obtain ⟨p, hp, rfl⟩ := List.mem_map.mp hpart
        exact (hparts p hp).length_pos
      have hnumber := hargs.length_le hpositive
      rw [List.length_map] at hnumber
      refine .call hleft hright hcount hargs hparts ?_ (by omega) (ihc depth (by omega) (by omega))
      intro part hpart
      have hlength := hargs.length_part_le (List.mem_map_of_mem hpart)
      exact .of_completes (hparts part hpart) (ihp part hpart) (by omega) (by omega)
  | literal hv => exact fun _ _ _ => .literal hv
  | name hname => exact fun _ _ _ => .name hname
  | group hleft hright hts ih =>
      intro depth hdepth hlimit
      simp only [List.length_cons, List.length_append] at hdepth hlimit
      exact .group hleft hright (.of_completes hts ih (by omega) (by omega))

/-- A phrase that ends where it ends is read whole as an expression. -/
theorem Derives.reads_expression (h : Derives .assignment ts e) (hlimit : ts.length ≤ limit)
    (hr : r.Closed) (hstop : Precedence.assignment.continues r.current.kind = false) :
    Reads (expression limit) (r.before ts) e r :=
  Inner.of_completes h (fun depth hdepth hlimit => h.completes depth hdepth hlimit) hlimit hlimit
    r hr hstop

/-- A list of tokens has at most one tree. -/
theorem Derives.unique {e₁ e₂ : Expr} (h₁ : Derives .assignment ts e₁)
    (h₂ : Derives .assignment ts e₂) : e₁ = e₂ := by
  have hr : Reading.Closed ⟨Token.eof 0, [], #[]⟩ := ⟨Token.eof 0, rfl, rfl⟩
  have hfirst := (h₁.reads_expression (Nat.le_refl _) hr rfl).result
  have hsecond := (h₂.reads_expression (Nat.le_refl _) hr rfl).result
  rw [hfirst] at hsecond
  cases hsecond
  rfl

/-- Reading an expression, in tokens that end in an end mark, is the same as finding a phrase: what
is read without an error is spelled, token for token and by no other tree, in front of a token that
cannot go on it; and every phrase in front of such a token is read, in any room for its length. -/
theorem expression_reads_phrases (limit : Nat) (r r' : Reading) (e : Expr) (hr : r.Closed) :
    (expression limit r = .ok e r' ∧ r'.errors = r.errors →
      ∃ ts, r = r'.before ts ∧ Derives .assignment ts e ∧
        Precedence.assignment.continues r'.current.kind = false ∧
        ∀ e', Derives .assignment ts e' → e' = e) ∧
    (∀ ts, r = r'.before ts → Derives .assignment ts e →
      Precedence.assignment.continues r'.current.kind = false → ts.length ≤ limit →
      expression limit r = .ok e r' ∧ r'.errors = r.errors) := by
  constructor
  · rintro ⟨hresult, hclean⟩
    obtain ⟨ts, hts, hphrase, hstop⟩ := Reads.of_expression ⟨hresult, hclean, hr⟩
    exact ⟨ts, hts, hphrase, hstop, fun e' h => h.unique hphrase⟩
  · rintro ts rfl hphrase hstop hlimit
    have hreads := hphrase.reads_expression hlimit (Reading.closed_before.mp hr) hstop
    exact ⟨hreads.result, hreads.clean⟩

/-- `- x ** 2` is the square of `- x`. -/
theorem expression_reads_phrases_power :
    let minus : Token := ⟨.minus, "-", none, 1⟩
    let x : Token := ⟨.identifier, "x", none, 1⟩
    let power : Token := ⟨.starStar, "**", none, 1⟩
    let two : Token := ⟨.integer, "2", some (.int 2), 1⟩
    let tree : Expr := .binary (.unary minus (.var x)) power (.literal (.int 2))
    Reading.Closed ⟨minus, [x, power, two, Token.eof 1], #[]⟩ ∧
      Derives .assignment [minus, x, power, two] tree ∧
      expression 4 ⟨minus, [x, power, two, Token.eof 1], #[]⟩ =
        .ok tree ⟨Token.eof 1, [], #[]⟩ := by
  intro minus x power two tree
  have hclosed : Reading.Closed ⟨minus, [x, power, two, Token.eof 1], #[]⟩ :=
    ⟨Token.eof 1, rfl, rfl⟩
  have hbase : Derives .unary [minus, x] (.unary minus (.var x)) :=
    .unary (by decide) (.tighter (by decide) (.tighter (by decide) (.name rfl)))
  have hexponent : Derives .power [two] (.literal (.int 2)) :=
    .tighter (by decide) (.tighter (by decide) (.tighter (by decide) (.literal rfl)))
  have hphrase : Derives .power [minus, x, power, two] tree := .power (by decide) hbase hexponent
  have htree : Derives .assignment [minus, x, power, two] tree := by
    iterate 7 refine .tighter (by decide) ?_
    exact hphrase
  exact ⟨hclosed, htree, ((expression_reads_phrases 4 _ ⟨Token.eof 1, [], #[]⟩ tree hclosed).2
    _ rfl htree rfl (by decide)).1⟩

end Scriptlet.Grammar
