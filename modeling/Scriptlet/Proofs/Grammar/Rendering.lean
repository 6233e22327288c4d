import Mathlib.Data.List.Forall2
import Scriptlet.Grammar.Stmt
import Scriptlet.Proofs.Grammar.Precedence
import Scriptlet.Proofs.Tree.Parts

/-!
# Trees laid out as tokens

Every tree has one canonical list of tokens: clauses and statements stand on lines of their own,
parameters stand in parentheses, and no optional word is used.  Tokens that a tree keeps are laid
out as they were read; all others are made up from their kind or from the value of a literal.
-/

namespace Scriptlet

def Kind.isFixed (k : Kind) : Bool :=
  !List.contains [Kind.identifier, .string, .integer, .float] k

def Kind.isLaidOut (k : Kind) : Bool :=
  !List.contains [Kind.newline, .semicolon, .kwThen, .kwDo, .leftParen, .rightParen, .kwFalse,
    .kwTrue, .kwNil, .integer, .float, .string] k

namespace Token

def mark (k : Kind) : Token :=
  ⟨k, k.name, none, 0⟩

def newline : Token :=
  ⟨.newline, "\n", none, 0⟩

end Token

def Literal.token (v : Literal) : Token :=
  match v with
  | .nil => .mark .kwNil
  | .bool true => .mark .kwTrue
  | .bool false => .mark .kwFalse
  | .int _ => ⟨.integer, v.display, some v, 0⟩
  | .float _ => ⟨.float, v.display, some v, 0⟩
  | .str _ => ⟨.string, v.display, some v, 0⟩

theorem Literal.value?_token (v : Literal) : v.token.value? = some v := by
  rcases v with _ | (_ | _) | _ | _ | _ <;> rfl

/-! ## Canonical tokens -/

def commas : List (List Token) → List Token
  | [] => []
  | [ts] => ts
  | ts :: rest => ts ++ .mark .comma :: commas rest

def clause (word : Kind) (head lines : List Token) : List Token :=
  .mark word :: (head ++ .newline :: lines)

theorem clause_append (word : Kind) (head lines ts : List Token) :
    clause word head lines ++ ts = clause word head (lines ++ ts) := by
  simp [clause]

namespace Expr

mutual

def tokens : Expr → List Token
  | .literal value => [value.token]
  | .group inner => .mark .leftParen :: (inner.tokens ++ [.mark .rightParen])
  | .unary op operand => op :: operand.tokens
  | .binary left op right => left.tokens ++ op :: right.tokens
  | .logical left op right => left.tokens ++ op :: right.tokens
  | .range left op right _ => left.tokens ++ op :: right.tokens
  | .var name => [name]
  | .assign name op value => name :: op :: value.tokens
  | .call callee paren arguments =>
      callee.tokens ++ .mark .leftParen :: (commas (tokensEach arguments) ++ [paren])
  | .sequence left right => left.tokens ++ .mark .comma :: right.tokens

def tokensEach : List Expr → List (List Token)
  | [] => []
  | e :: rest => e.tokens :: tokensEach rest

end

@[simp] theorem tokensEach_eq (es : List Expr) : tokensEach es = es.map tokens := by
  induction es with
  | nil => rfl
  | cons e rest ih => rw [tokensEach, ih, List.map_cons]

end Expr

namespace Stmt

mutual

def tokens : Stmt → List Token
  | .expr e => e.tokens
  | .print keyword values _ => keyword :: commas (values.map Expr.tokens)
  | .assign names values =>
      commas (names.map ([·])) ++ .mark .equal :: commas (values.map Expr.tokens)
  | .block body => clause .kwBegin [] (lines body) ++ [.mark .kwEnd]
  | .ifDo conditions branches otherwise =>
      branchLines .kwIf .kwElsif conditions branches ++ elseLines otherwise
  | .unlessDo condition body otherwise =>
      clause .kwUnless condition.tokens (lines body) ++ elseLines otherwise
  | .whileDo condition body => clause .kwWhile condition.tokens (lines body) ++ [.mark .kwEnd]
  | .untilDo condition body => clause .kwUntil condition.tokens (lines body) ++ [.mark .kwEnd]
  | .loopDo body => clause .kwLoop [.mark .kwDo] (lines body) ++ [.mark .kwEnd]
  | .forDo name iterable body =>
      clause .kwFor (name :: .mark .kwIn :: iterable.tokens) (lines body) ++ [.mark .kwEnd]
  | .caseDo subject conditions branches otherwise =>
      clause .kwCase subject.tokens (branchLines .kwWhen .kwWhen conditions branches) ++
        elseLines otherwise
  | .define name params body =>
      clause .kwDef
        (name :: .mark .leftParen :: (commas (params.map ([·])) ++ [.mark .rightParen]))
        (lines body) ++ [.mark .kwEnd]
  | .returnFrom keyword value => keyword :: (value.map Expr.tokens).getD []
  | .breakLoop keyword => [keyword]
  | .nextRound keyword => [keyword]

def lines : List Stmt → List Token
  | [] => []
  | s :: rest => s.tokens ++ .newline :: lines rest

def branchLines (word next : Kind) : List Expr → List (List Stmt) → List Token
  | condition :: conditions, body :: branches =>
      clause word condition.tokens (lines body) ++ branchLines next next conditions branches
  | _, _ => []

def elseLines : Option (List Stmt) → List Token
  | none => [.mark .kwEnd]
  | some body => clause .kwElse [] (lines body) ++ [.mark .kwEnd]

end

def armLines (word next : Kind) : List (Expr × List Stmt) → List Token
  | [] => []
  | (condition, body) :: rest =>
      clause word condition.tokens (lines body) ++ armLines next next rest

@[simp] theorem branchLines_arms (word next : Kind) (arms : List (Expr × List Stmt)) :
    branchLines word next (arms.map Prod.fst) (arms.map Prod.snd) = armLines word next arms := by
  induction arms generalizing word with
  | nil => simp [branchLines, armLines]
  | cons arm arms ih => rw [List.map_cons, List.map_cons, branchLines, armLines, ih]

end Stmt

namespace Grammar

/-! ## Tokens that say the same -/

/-- `u` is the canonical token for `t`: the same token, or the mark of its kind, or a literal of the
same value. -/
inductive Alike : Token → Token → Prop
  | refl (t : Token) : Alike t t
  | mark {t : Token} {k : Kind} : k.isFixed → t.kind = k → Alike t (.mark k)
  | literal {t : Token} {v : Literal} : t.value? = some v → Alike t v.token

/-- `us` is a canonical layout of `ts`.  Besides the spelling of tokens, only separators, the words
`then` and `do`, and the parentheses around the parameters of a definition can differ. -/
inductive Layout : List Token → List Token → Prop
  | nil : Layout [] []
  | cons {t u : Token} {ts us : List Token} : Alike t u → Layout ts us → Layout (t :: ts) (u :: us)
  | separator {t : Token} {ts us : List Token} :
      t.kind.isSeparator → Layout ts us → Layout (t :: ts) us
  | newline {ts us : List Token} : Layout ts us → Layout ts (.newline :: us)
  | filler {t : Token} {ts us : List Token} :
      t.kind = .kwThen ∨ t.kind = .kwDo → Layout ts us → Layout (t :: ts) us
  | parameters {keyword name : Token} {params : List Token} {ps ts us : List Token} :
      keyword.kind = .kwDef → name.kind = .identifier → (∀ p ∈ params, p.kind = .identifier) →
      CommaSeparated (params.map ([·])) ps → Layout ts us →
      Layout (keyword :: name :: (ps ++ ts))
        (.mark .kwDef :: name :: .mark .leftParen ::
          (commas (params.map ([·])) ++ .mark .rightParen :: us))

namespace Layout

variable {ts us ts' us' : List Token}

theorem append (h : Layout ts us) (h' : Layout ts' us') : Layout (ts ++ ts') (us ++ us') := by
  induction h with
  | nil => exact h'
  | cons ht _ ih => exact .cons ht ih
  | separator ht _ ih => exact .separator ht ih
  | newline _ ih => exact .newline ih
  | filler ht _ ih => exact .filler ht ih
  | parameters hkeyword hname hparams hps _ ih =>
      simpa using Layout.parameters hkeyword hname hparams hps ih

theorem of_forall₂ (h : List.Forall₂ Alike ts us) : Layout ts us := by
  induction h with
  | nil => exact .nil
  | cons ht _ ih => exact .cons ht ih

theorem separators {seps : List Token} (hseps : ∀ t ∈ seps, t.kind.isSeparator)
    (h : Layout ts us) : Layout (seps ++ ts) us := by
  induction seps with
  | nil => exact h
  | cons t seps ih =>
      exact .separator (hseps t (by simp)) (ih fun t ht => hseps t (by simp [ht]))

theorem lineEnd (h : Layout ts us) : Layout ts (us ++ [.newline]) := by
  simpa using h.append (.newline .nil)

theorem clause {word : Kind} {keyword : Token} {hs ls head lines : List Token}
    (hword : word.isFixed) (hkeyword : keyword.kind = word) (hhead : Layout hs head)
    (hlines : Layout ls lines) : Layout (keyword :: (hs ++ ls)) (clause word head lines) :=
  .cons (.mark hword hkeyword) (hhead.append (.newline hlines))

end Layout

/-! ## Phrases -/

namespace CommaSeparated

variable {α : Type} {parts : List (List Token × α)} {ts : List Token}

theorem commas (parts : List (List Token)) : CommaSeparated parts (commas parts) := by
  match parts with
  | [] => exact .nil
  | [ts] => exact .single ts
  | ts :: us :: parts => exact .cons rfl (CommaSeparated.commas (us :: parts))

theorem alike {f : α → List Token} (h : CommaSeparated (parts.map Prod.fst) ts)
    (hparts : ∀ part ∈ parts, List.Forall₂ Alike part.1 (f part.2)) :
    List.Forall₂ Alike ts (Scriptlet.commas (parts.map fun part => f part.2)) := by
  induction parts generalizing ts with
  | nil =>
      cases h
      exact .nil
  | cons part rest ih =>
      cases rest with
      | nil =>
          cases h
          exact hparts part (by simp)
      | cons next rest =>
          cases h with
          | @cons comma _ _ us _ hcomma hus =>
              have hrest := ih hus fun part hpart => hparts part (by simp_all)
              exact List.rel_append (hparts part (by simp)) (.cons (.mark rfl hcomma) hrest)

theorem alike_names {names : List Token} (h : CommaSeparated (names.map ([·])) ts) :
    List.Forall₂ Alike ts (Scriptlet.commas (names.map ([·]))) := by
  have hparts : CommaSeparated ((names.map fun name => ([name], name)).map Prod.fst) ts := by
    simpa [Function.comp_def] using h
  have halike := hparts.alike (f := ([·])) fun part hpart => by
    obtain ⟨name, -, rfl⟩ := List.mem_map.mp hpart
    exact .cons (.refl name) .nil
  simpa [Function.comp_def] using halike

end CommaSeparated

theorem Precedence.tokens_node (p : Precedence) (op : Token) (left right : Expr) :
    (p.node op left right).tokens = left.tokens ++ op :: right.tokens := by
  unfold Precedence.node
  split <;> rfl

namespace Derives

variable {p : Precedence} {ts : List Token} {e : Expr}

theorem alike (h : Derives p ts e) : List.Forall₂ Alike ts e.tokens := by
  induction h with
  | tighter _ _ ih => exact ih
  | assign _ _ _ ih => exact .cons (.refl _) (.cons (.refl _) ih)
  | chain _ _ _ _ ihl ihr =>
      rw [Precedence.tokens_node]
      exact List.rel_append ihl (.cons (.refl _) ihr)
  | power _ _ _ ihl ihr => exact List.rel_append ihl (.cons (.refl _) ihr)
  | unary _ _ ih => exact .cons (.refl _) ih
  | call hleft _ _ hargs _ _ ihc ihp =>
      have hcommas := hargs.alike ihp
      rw [Expr.tokens, Expr.tokensEach_eq, List.map_map]
      exact List.rel_append ihc (.cons (.mark rfl hleft)
        (List.rel_append hcommas (.cons (.refl _) .nil)))
  | literal hv => exact .cons (.literal hv) .nil
  | name _ => exact .cons (.refl _) .nil
  | group hleft hright _ ih =>
      exact .cons (.mark rfl hleft) (List.rel_append ih (.cons (.mark rfl hright) .nil))

theorem canonical (h : Derives p ts e) : Derives p e.tokens e := by
  induction h with
  | tighter hp _ ih => exact .tighter hp ih
  | assign hname hop _ ih => exact .assign hname hop ih
  | chain hp hop _ _ ihl ihr =>
      rw [Precedence.tokens_node]
      exact .chain hp hop ihl ihr
  | power hop _ _ ihl ihr => exact .power hop ihl ihr
  | unary hop _ ih => exact .unary hop ih
  | @call _ right _ _ callee parts _ hright hcount _ _ _ ihc ihp =>
      have hparts : ∀ part ∈ parts.map fun part => (part.2.tokens, part.2),
          Derives .assignment part.1 part.2 := by
        intro part hpart
        obtain ⟨original, horiginal, rfl⟩ := List.mem_map.mp hpart
        exact ihp original horiginal
      have hleft : (Token.mark .leftParen).kind = .leftParen := rfl
      have hcall := Derives.call hleft hright (by simpa using hcount)
        (CommaSeparated.commas _) ihc hparts
      simpa [Expr.tokens, Function.comp_def] using hcall
  | literal _ => exact .literal (Literal.value?_token _)
  | name hname => exact .name hname
  | group _ _ _ ih => exact .group rfl rfl ih

end Derives

/-! ## Assignments to several names -/

namespace Alike

variable {t u : Token}

theorem kind_eq (h : Alike t u) : t.kind = u.kind ∨ t.value?.isSome ∧ u.value?.isSome := by
  cases h with
  | refl => exact .inl rfl
  | mark _ hkind => exact .inl hkind
  | literal hv => exact .inr ⟨by rw [hv]; rfl, by rw [Literal.value?_token]; rfl⟩

theorem kind_iff (h : Alike t u) {k : Kind}
    (hk : ∀ t : Token, t.value?.isSome → t.kind ≠ k) : t.kind = k ↔ u.kind = k := by
  rcases h.kind_eq with hkind | ⟨ht, hu⟩
  · rw [hkind]
  · exact iff_of_false (hk t ht) (hk u hu)

end Alike

theorem Token.value?_isSome {t : Token} (h : t.value?.isSome) :
    [Kind.kwFalse, .kwTrue, .kwNil, .integer, .float, .string].contains t.kind := by
  unfold Token.value? at h
  split at h <;> simp_all

private theorem kind_iff_of_isLaidOut {t u : Token} (h : Alike t u) {k : Kind}
    (hk : k.isLaidOut) : t.kind = k ↔ u.kind = k := by
  refine h.kind_iff fun t ht hkind => ?_
  have hvalue := Token.value?_isSome ht
  rw [hkind] at hvalue
  revert hk hvalue
  cases k <;> decide

theorem count_alike {ts us : List Token} (h : List.Forall₂ Alike ts us) {k : Kind}
    (hk : k.isLaidOut) : ts.countP (·.kind = k) = us.countP (·.kind = k) := by
  induction h with
  | nil => rfl
  | cons ht _ ih => simp only [List.countP_cons, ih, kind_iff_of_isLaidOut ht hk]

theorem Layout.count {ts us : List Token} (h : Layout ts us) {k : Kind} (hk : k.isLaidOut) :
    ts.countP (·.kind = k) = us.countP (·.kind = k) := by
  have hother : ∀ {t : Token}, t.kind.isLaidOut = false → decide (t.kind = k) = false := by
    intro t ht
    refine decide_eq_false ?_
    rintro rfl
    rw [ht] at hk
    cases hk
  induction h with
  | nil => rfl
  | cons ht _ ih => simp only [List.countP_cons, ih, kind_iff_of_isLaidOut ht hk]
  | @separator t _ _ hsep _ ih =>
      have ht : t.kind.isLaidOut = false := by
        revert hsep
        cases t.kind <;> decide
      rw [List.countP_cons, hother ht, ih]
      rfl
  | newline _ ih =>
      rw [List.countP_cons, hother rfl, ih]
      rfl
  | @filler t _ _ hfill _ ih =>
      have ht : t.kind.isLaidOut = false := by
        rcases hfill with hfill | hfill <;> rw [hfill] <;> rfl
      rw [List.countP_cons, hother ht, ih]
      rfl
  | parameters hkeyword _ _ hps _ ih =>
      have hnames := count_alike hps.alike_names hk
      have hleft : decide ((Token.mark .leftParen).kind = k) = false := hother rfl
      have hright : decide ((Token.mark .rightParen).kind = k) = false := hother rfl
      simp only [List.countP_cons, List.countP_append, hnames, ih, hkeyword, hleft, hright]
      rfl

def startsParallel : List Token → Bool
  | [] => false
  | name :: rest => name.kind = .identifier && moreNamesThenEqual rest

private theorem kind_iff_of_alike {t u : Token} (h : Alike t u) {k : Kind}
    (hk : k ∈ [Kind.comma, .identifier, .equal]) : t.kind = k ↔ u.kind = k := by
  refine h.kind_iff fun t ht hkind => ?_
  have hvalue := Token.value?_isSome ht
  rw [hkind] at hvalue
  clear hkind
  revert k
  decide

theorem moreNamesThenEqual_alike {ts us : List Token} (h : List.Forall₂ Alike ts us) :
    moreNamesThenEqual ts = moreNamesThenEqual us := by
  fun_induction moreNamesThenEqual ts generalizing us with
  | case1 comma name rest ih =>
      cases h with
      | @cons _ comma' _ _ hcomma h =>
          cases h with
          | @cons _ name' _ rest' hname hrest =>
              have hequal :
                  rest.head?.any (·.kind = .equal) = rest'.head?.any (·.kind = .equal) := by
                cases hrest with
                | nil => rfl
                | cons hsign _ =>
                    simpa using kind_iff_of_alike hsign (k := .equal) (by decide)
              rw [moreNamesThenEqual, ih hrest, hequal,
                decide_eq_decide.mpr (kind_iff_of_alike hcomma (by decide)),
                decide_eq_decide.mpr (kind_iff_of_alike hname (by decide))]
  | case2 ts hshort =>
      unfold moreNamesThenEqual
      split
      · next comma name rest =>
          cases h with
          | cons _ h =>
              cases h with
              | cons _ _ => exact (hshort _ _ _ rfl).elim
      · rfl

theorem startsParallel_alike {ts us : List Token} (h : List.Forall₂ Alike ts us) :
    startsParallel ts = startsParallel us := by
  cases h with
  | nil => rfl
  | cons ht hrest =>
      rw [startsParallel, startsParallel, moreNamesThenEqual_alike hrest,
        decide_eq_decide.mpr (kind_iff_of_alike ht (by decide))]

theorem comma_of_moreNamesThenEqual {t : Token} {ts : List Token}
    (h : moreNamesThenEqual (t :: ts)) : t.kind = .comma := by
  cases ts with
  | nil => cases h
  | cons name rest =>
      simp only [moreNamesThenEqual, Bool.and_eq_true, decide_eq_true_eq] at h
      exact h.1.1

theorem moreNamesThenEqual_append {ts us : List Token}
    (hstop : ∀ t ∈ us.head?, t.kind ∉ [Kind.comma, .identifier, .equal]) :
    moreNamesThenEqual (ts ++ us) = moreNamesThenEqual ts := by
  fun_induction moreNamesThenEqual ts with
  | case1 comma name rest ih =>
      have hequal :
          (rest ++ us).head?.any (·.kind = .equal) = rest.head?.any (·.kind = .equal) := by
        cases rest with
        | nil =>
            cases us with
            | nil => rfl
            | cons t us =>
                have ht := hstop t rfl
                simp_all
        | cons t rest => rfl
      rw [List.cons_append, List.cons_append, moreNamesThenEqual, ih, hequal]
  | case2 ts hshort =>
      match ts, us with
      | [], [] => rfl
      | [], [t] => rfl
      | [], t :: t' :: us =>
          have ht := hstop t rfl
          simp_all [moreNamesThenEqual]
      | [t], [] => rfl
      | [t], t' :: us =>
          have ht := hstop t' rfl
          simp_all [moreNamesThenEqual]
      | t :: t' :: ts, us => exact (hshort _ _ _ rfl).elim

theorem startsParallel_append {ts us : List Token}
    (hstop : ∀ t ∈ us.head?, t.kind ∉ [Kind.comma, .identifier, .equal]) :
    startsParallel (ts ++ us) = startsParallel ts := by
  cases ts with
  | nil =>
      cases us with
      | nil => rfl
      | cons t us =>
          have ht := hstop t rfl
          simp_all [startsParallel]
  | cons t ts =>
      rw [List.cons_append, startsParallel, startsParallel, moreNamesThenEqual_append hstop]

/-! ## Trees that can be read -/

end Grammar

open Grammar

def Expr.Readable (e : Expr) : Prop :=
  Derives .assignment e.tokens e

/-- Statements the grammar has a form for: keywords are of the right kind, what has to be a name is
one, and a list of values cannot be taken for an assignment to several names. -/
inductive Stmt.Readable : Stmt → Prop
  | expr {values : List Expr} : values ≠ [] → (∀ e ∈ values, e.Readable) →
      startsParallel (commas (values.map Expr.tokens)) = false →
      Readable (.expr (sequenceOf values))
  | print {keyword : Token} {values : List Expr} {newline : Bool} :
      keyword.kind = .kwPrint ∨ keyword.kind = .kwPuts → (newline ↔ keyword.kind = .kwPuts) →
      (∀ e ∈ values, e.Readable) → Readable (.print keyword values newline)
  | assign {names : List Token} {values : List Expr} : 2 ≤ names.length →
      values.length = names.length → (∀ name ∈ names, name.kind = .identifier) →
      (∀ e ∈ values, e.Readable) → Readable (.assign names values)
  | block {body : List Stmt} : (∀ s ∈ body, Readable s) → Readable (.block body)
  | ifDo {conditions : List Expr} {branches : List (List Stmt)} {otherwise : Option (List Stmt)} :
      conditions ≠ [] → conditions.length = branches.length →
      (∀ e ∈ conditions, e.Readable) → (∀ body ∈ branches, ∀ s ∈ body, Readable s) →
      (∀ body, otherwise = some body → ∀ s ∈ body, Readable s) →
      Readable (.ifDo conditions branches otherwise)
  | unlessDo {condition : Expr} {body : List Stmt} {otherwise : Option (List Stmt)} :
      condition.Readable → (∀ s ∈ body, Readable s) →
      (∀ body, otherwise = some body → ∀ s ∈ body, Readable s) →
      Readable (.unlessDo condition body otherwise)
  | whileDo {condition : Expr} {body : List Stmt} :
      condition.Readable → (∀ s ∈ body, Readable s) → Readable (.whileDo condition body)
  | untilDo {condition : Expr} {body : List Stmt} :
      condition.Readable → (∀ s ∈ body, Readable s) → Readable (.untilDo condition body)
  | loopDo {body : List Stmt} : (∀ s ∈ body, Readable s) → Readable (.loopDo body)
  | forDo {name : Token} {iterable : Expr} {body : List Stmt} : name.kind = .identifier →
      iterable.Readable → (∀ s ∈ body, Readable s) → Readable (.forDo name iterable body)
  | caseDo {subject : Expr} {conditions : List Expr} {branches : List (List Stmt)}
      {otherwise : Option (List Stmt)} : subject.Readable →
      conditions ≠ [] → conditions.length = branches.length →
      (∀ e ∈ conditions, e.Readable) → (∀ body ∈ branches, ∀ s ∈ body, Readable s) →
      (∀ body, otherwise = some body → ∀ s ∈ body, Readable s) →
      Readable (.caseDo subject conditions branches otherwise)
  | define {name : Token} {params : List Token} {body : List Stmt} : name.kind = .identifier →
      (∀ p ∈ params, p.kind = .identifier) → params.length ≤ maxArguments →
      (∀ s ∈ body, Readable s) → Readable (.define name params body)
  | returnFrom {keyword : Token} {value : Option Expr} : keyword.kind = .kwReturn →
      (∀ e, value = some e → e.Readable) → Readable (.returnFrom keyword value)
  | breakLoop {keyword : Token} : keyword.kind = .kwBreak → Readable (.breakLoop keyword)
  | nextRound {keyword : Token} : keyword.kind = .kwNext → Readable (.nextRound keyword)

section Arms

variable {arms : List (Expr × List Stmt)} {otherwise : Option (List Stmt)}

theorem Stmt.Readable.ifDo_arms (hne : arms ≠ []) (hconditions : ∀ arm ∈ arms, arm.1.Readable)
    (hbodies : ∀ arm ∈ arms, ∀ s ∈ arm.2, s.Readable)
    (hother : ∀ body, otherwise = some body → ∀ s ∈ body, s.Readable) :
    Readable (.ifDo (arms.map Prod.fst) (arms.map Prod.snd) otherwise) :=
  .ifDo (by simpa using hne) (by simp) (List.forall_mem_map.mpr hconditions)
    (List.forall_mem_map.mpr hbodies) hother

theorem Stmt.Readable.caseDo_arms {subject : Expr} (hsubject : subject.Readable) (hne : arms ≠ [])
    (hconditions : ∀ arm ∈ arms, arm.1.Readable) (hbodies : ∀ arm ∈ arms, ∀ s ∈ arm.2, s.Readable)
    (hother : ∀ body, otherwise = some body → ∀ s ∈ body, s.Readable) :
    Readable (.caseDo subject (arms.map Prod.fst) (arms.map Prod.snd) otherwise) :=
  .caseDo hsubject (by simpa using hne) (by simp) (List.forall_mem_map.mpr hconditions)
    (List.forall_mem_map.mpr hbodies) hother

end Arms

theorem commas_append_comma (ts us : List Token) (rest : List (List Token)) :
    commas ((ts ++ .mark .comma :: us) :: rest) = commas (ts :: us :: rest) := by
  cases rest with
  | nil => rfl
  | cons vs rest => simp [commas]

theorem Expr.tokens_sequenceOf {values : List Expr} (h : values ≠ []) :
    (sequenceOf values).tokens = commas (values.map Expr.tokens) := by
  obtain ⟨first, rest, rfl⟩ := List.exists_cons_of_ne_nil h
  change (rest.foldl Expr.sequence first).tokens = _
  induction rest generalizing first with
  | nil => rfl
  | cons next rest ih =>
      rw [List.foldl_cons, ih (.sequence first next) (by simp), List.map_cons, Expr.tokens,
        commas_append_comma]
      rfl

theorem Expr.all_sequenceOf {p : Expr → Prop} {values : List Expr} (hnil : p (.literal .nil))
    (hpair : ∀ left right, p (.sequence left right)) (h : ∀ e ∈ values, e.All p) :
    (sequenceOf values).All p := by
  cases values with
  | nil => exact .intro hnil nofun
  | cons first rest =>
      rw [List.forall_mem_cons] at h
      obtain ⟨hfirst, hrest⟩ := h
      rw [sequenceOf]
      induction rest generalizing first with
      | nil => exact hfirst
      | cons next rest ih =>
          rw [List.forall_mem_cons] at hrest
          have hparts : ∀ part ∈ [first, next], part.All p := by simp [hfirst, hrest.1]
          exact ih _ (.intro (hpair first next) hparts) hrest.2

end Scriptlet
