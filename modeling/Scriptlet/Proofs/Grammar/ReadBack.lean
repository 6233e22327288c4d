import Scriptlet.Proofs.Grammar.Legible

/-!
# Trees read back from their forms

The first word of a group tells which node the group is, and the other words and groups tell the
parts of the node.  So a legible tree can be read back from its form, and nothing but its lines is
lost.
-/

namespace Scriptlet

open Source Grammar Text

/-! ## Reading expressions -/

namespace Expr

def ofText (text : List Char) : Expr :=
  if text.head?.any startsName then
    match (Token.ofWord text).value? with
    | some value => .literal value
    | none => .var (Token.ofWord text)
  else
    .literal (.int (Int64.ofInt (Decimal.intOfNumeral text)))

def ofOperation (op : Token) : List Expr → Expr
  | [operand] => .unary op operand
  | [left, right] =>
      if assignmentOperators.contains op.kind then
        match left with
        | .var name => .assign name op right
        | other => other
      else join left op right
  | _ => .literal .nil

def ofConstruct (word : String) : List Expr → Expr
  | [] => .literal .nil
  | first :: others =>
      if word = "call" then .call first (.mark .rightParen) others
      else match others with
        | [] => .group first
        | second :: _ => .sequence first second

def ofGroup (head : Token) (parts : List Expr) : Expr :=
  if head.kind.isOperation then ofOperation head parts else ofConstruct head.lexeme parts

mutual

/-- The expression of a form, on no line; a form that is none of an expression is read as `nil`. -/
def ofSexp : Sexp → Expr
  | .word text => ofText text
  | .quoted text => .literal (.str (String.ofList text))
  | .group (.word head :: members) => ofGroup (Token.ofWord head) (ofSexps members)
  | .group _ => .literal .nil

def ofSexps : List Sexp → List Expr
  | [] => []
  | s :: rest => ofSexp s :: ofSexps rest

end

@[simp] theorem ofSexps_eq (ss : List Sexp) : ofSexps ss = ss.map ofSexp := by
  induction ss with
  | nil => rfl
  | cons s rest ih => rw [ofSexps, ih, List.map_cons]

abbrev IsReadBack (e : Expr) : Prop :=
  ofSexp e.sexp = e.renumber fun _ => 0

theorem map_ofSexp_sexp {es : List Expr} (h : ∀ e ∈ es, e.IsReadBack) :
    (es.map sexp).map ofSexp = es.map (renumber fun _ => 0) := by
  rw [List.map_map]
  exact List.map_congr_left h

theorem ofSexp_operation {op : Token} (hop : op.IsSpelled) (hkind : op.kind.isOperation)
    (members : List Sexp) :
    ofSexp (.group (op.sexp :: members)) =
      ofOperation (op.renumber fun _ => 0) (members.map ofSexp) := by
  rw [Token.sexp, atom, ofSexp, ofSexps_eq, hop.ofWord_lexeme, ofGroup, Token.kind_renumber,
    if_pos hkind]

theorem ofSexp_twoOperands {left right : Expr} {op : Token} (hop : op.IsSpelled)
    (hkind : op.kind.isOperation) (h : ∀ e ∈ [left, right], e.IsReadBack) :
    ofSexp (.group [op.sexp, left.sexp, right.sexp]) =
      ofOperation (op.renumber fun _ => 0)
        [left.renumber fun _ => 0, right.renumber fun _ => 0] := by
  have hoperands := map_ofSexp_sexp h
  simp only [List.map_cons, List.map_nil] at hoperands
  rw [ofSexp_operation hop hkind, List.map_cons, List.map_singleton, hoperands]

theorem ofSexp_construct {word : String}
    (hword : (Token.ofWord word.toList).kind.isOperation = false)
    (members : List Sexp) :
    ofSexp (.group (atom word :: members)) = ofConstruct word (members.map ofSexp) := by
  rw [atom, ofSexp, ofSexps_eq, ofGroup, hword, if_neg (by decide), Token.ofWord,
    String.ofList_toList]

theorem ofSexp_name {name : Token} (hname : name.IsSpelled) (hkind : name.kind = .identifier) :
    ofSexp name.sexp = .var (name.renumber fun _ => 0) := by
  have hvalue : (name.renumber fun _ => 0).value? = none := by simp [Token.value?, hkind]
  rw [Token.sexp, atom, ofSexp, ofText, if_pos (hname.isName hkind), hname.ofWord_lexeme, hvalue]

theorem ofSexp_reserved {k : Kind} {value : Literal} (hk : k.isKeyword)
    (hvalue : (Token.mark k).value? = some value) (hstart : k.name.toList.head?.any startsName) :
    ofSexp (atom k.name) = .literal value := by
  rw [atom, ofSexp, ofText, if_pos hstart, ofWord_name (.inl hk)]
  simp only [Token.mark] at hvalue
  rw [hvalue]

theorem startsName_toString_int (n : Int) : (toString n).toList.head?.any startsName = false := by
  cases htext : (toString n).toList with
  | nil => rfl
  | cons c text =>
      have hc : c.isDigit ∨ c = '-' := by
        apply mem_toString_int (n := n)
        rw [htext]
        exact List.mem_cons_self
      rw [List.head?_cons, Option.any_some]
      rcases hc with hc | rfl
      · exact startsName_of_isDigit hc
      · decide

theorem ofSexp_int (n : Int64) : ofSexp (atom (Literal.int n).display) = .literal (.int n) := by
  have hstart : ¬(toString n.toInt).toList.head?.any startsName = true := by
    rw [startsName_toString_int]
    decide
  rw [atom, ofSexp, ofText, Literal.display, if_neg hstart, Decimal.intOfNumeral_toString,
    Int64.ofInt_toInt]

theorem ofSexp_literal {value : Literal} (h : (literal value).NotFloat) :
    ofSexp value.sexp = .literal value := by
  cases value with
  | nil => exact ofSexp_reserved (k := .kwNil) rfl rfl (by decide)
  | bool b =>
      cases b with
      | true => exact ofSexp_reserved (k := .kwTrue) rfl rfl (by decide)
      | false => exact ofSexp_reserved (k := .kwFalse) rfl rfl (by decide)
  | int n => exact ofSexp_int n
  | float x => exact absurd rfl (h x)
  | str s => simp [Literal.sexp, ofSexp]

section Operations

variable {left right : Expr} {op : Token}

theorem ofOperation_binary (h : (binary left op right).HasShape) :
    ofOperation op [left, right] = .binary left op right := by
  obtain ⟨kind, lexeme, literal, line⟩ := op
  cases kind <;> first | rfl | cases h

theorem ofOperation_logical (h : (logical left op right).HasShape) :
    ofOperation op [left, right] = .logical left op right := by
  rcases h with h | h <;> simp [ofOperation, join, assignmentOperators, h]

theorem ofOperation_range {inclusive : Bool} (h : (range left op right inclusive).HasShape) :
    ofOperation op [left, right] = .range left op right inclusive := by
  obtain ⟨h | h, hinclusive⟩ := h <;> simp_all [ofOperation, join, assignmentOperators]

theorem ofOperation_assign {name : Token} (h : (assign name op right).HasShape) :
    ofOperation op [.var name, right] = .assign name op right := by
  have hop : assignmentOperators.contains op.kind := by
    simp only [HasShape] at h
    revert h
    cases op.kind <;> decide
  rw [ofOperation, if_pos hop]

end Operations

/-- An expression is read back from its form as it is, but for its lines. -/
theorem ofSexp_sexp {e : Expr} (h : e.All Legible) : ofSexp e.sexp = e.renumber fun _ => 0 := by
  induction h with
  | @intro e hnode _ ih =>
      obtain ⟨hshape, hnames, hfloat, hspelled⟩ := hnode
      cases e with
      | literal value => exact ofSexp_literal hfloat
      | group inner =>
          rw [sexp, ofSexp_construct (by decide +kernel)]
          simp [ofConstruct, renumber, ih inner (by simp [parts])]
      | unary op operand =>
          rw [sexp, ofSexp_operation (hspelled op (by simp [ownTokens])) (hshape.isOperation rfl)]
          simp [ofOperation, renumber, ih operand (by simp [parts])]
      | binary left op right =>
          rw [sexp, ofSexp_twoOperands (hspelled op (by simp [ownTokens]))
            (hshape.isOperation rfl) ih]
          exact ofOperation_binary hshape
      | logical left op right =>
          rw [sexp, ofSexp_twoOperands (hspelled op (by simp [ownTokens]))
            (hshape.isOperation rfl) ih]
          exact ofOperation_logical hshape
      | range left op right inclusive =>
          rw [sexp, ofSexp_twoOperands (hspelled op (by simp [ownTokens]))
            (hshape.isOperation rfl) ih]
          exact ofOperation_range hshape
      | var name => exact ofSexp_name (hspelled name (by simp [ownTokens])) hnames
      | assign name op value =>
          rw [sexp, ofSexp_operation (hspelled op (by simp [ownTokens])) (hshape.isOperation rfl),
            List.map_cons, List.map_singleton,
            ofSexp_name (hspelled name (by simp [ownTokens])) hnames, ih value (by simp [parts])]
          exact ofOperation_assign hshape
      | call callee paren arguments =>
          have hparen := (hspelled paren (by simp [ownTokens])).renumber_eq hnames (by decide)
          have hparts := map_ofSexp_sexp ih
          rw [parts, List.map_cons] at hparts
          rw [sexp, sexps_eq, ofSexp_construct (by decide +kernel), hparts]
          simp [ofConstruct, renumber, hparen, Token.mark]
      | sequence left right =>
          rw [sexp, ofSexp_construct (by decide +kernel)]
          simp [ofConstruct, renumber, ih left (by simp [parts]), ih right (by simp [parts])]

end Expr

/-! ## Reading statements -/

namespace Stmt

def nameOf : Sexp → Token
  | .word text => Token.ofWord text
  | _ => .mark .identifier

mutual

def ofSexp : Sexp → Stmt
  | .group (.word head :: members) =>
      match (Token.ofWord head).kind, members with
      | .kwPrint, values | .kwPuts, values =>
          .print (Token.ofWord head) (values.map Expr.ofSexp)
            ((Token.ofWord head).kind = .kwPuts)
      | .equal, .group names :: values =>
          .assign (names.map nameOf) (values.map Expr.ofSexp)
      | .kwIf, members =>
          .ifDo ((thensOf members).1.map Prod.fst) ((thensOf members).1.map Prod.snd)
            (thensOf members).2
      | .kwUnless, members =>
          match thensOf members with
          | ([(condition, body)], otherwise) => .unlessDo condition body otherwise
          | _ => .block []
      | .kwWhile, condition :: body => .whileDo (Expr.ofSexp condition) (ofSexps body)
      | .kwUntil, condition :: body => .untilDo (Expr.ofSexp condition) (ofSexps body)
      | .kwLoop, body => .loopDo (ofSexps body)
      | .kwFor, name :: iterable :: body =>
          .forDo (nameOf name) (Expr.ofSexp iterable) (ofSexps body)
      | .kwCase, subject :: members =>
          .caseDo (Expr.ofSexp subject) ((whensOf members).1.map Prod.fst)
            ((whensOf members).1.map Prod.snd) (whensOf members).2
      | .kwDef, name :: .group params :: body =>
          .define (nameOf name) (params.map nameOf) (ofSexps body)
      | .kwReturn, value => .returnFrom (.mark .kwReturn) (value.head?.map Expr.ofSexp)
      | .kwBreak, _ => .breakLoop (.mark .kwBreak)
      | .kwNext, _ => .nextRound (.mark .kwNext)
      | _, members =>
          if (Token.ofWord head).lexeme = "block" then .block (ofSexps members)
          else match members with
            | e :: _ => .expr (Expr.ofSexp e)
            | [] => .block []
  | _ => .block []

def ofSexps : List Sexp → List Stmt
  | [] => []
  | s :: rest => ofSexp s :: ofSexps rest

def thensOf : List Sexp → List (Expr × List Stmt) × Option (List Stmt)
  | condition :: .group (_ :: body) :: rest =>
      ((Expr.ofSexp condition, ofSexps body) :: (thensOf rest).1, (thensOf rest).2)
  | [.group (_ :: body)] => ([], some (ofSexps body))
  | _ => ([], none)

def whensOf : List Sexp → List (Expr × List Stmt) × Option (List Stmt)
  | .group (.word head :: members) :: rest =>
      match (Token.ofWord head).kind, members with
      | .kwWhen, condition :: body =>
          ((Expr.ofSexp condition, ofSexps body) :: (whensOf rest).1, (whensOf rest).2)
      | _, body => ([], some (ofSexps body))
  | _ => ([], none)

end

theorem kind_ofWord {word : String} {k : Kind} (hword : word = k.name)
    (hk : k.isKeyword ∨ k.isOperator) : (Token.ofWord word.toList).kind = k := by
  rw [hword, ofWord_name hk]

theorem nameOf_sexp {t : Token} (h : t.IsSpelled) : nameOf t.sexp = t.renumber fun _ => 0 :=
  h.ofWord_lexeme

theorem map_nameOf_sexp {ts : List Token} (h : ∀ t ∈ ts, t.IsSpelled) :
    (ts.map Token.sexp).map nameOf = ts.map (Token.renumber fun _ => 0) := by
  rw [List.map_map]
  exact List.map_congr_left fun t ht => nameOf_sexp (h t ht)

/-! ### Bodies and branches -/

section Parts

variable {body : List Stmt} {arms : List (Expr × List Stmt)} {otherwise : Option (List Stmt)}

abbrev IsReadBack (s : Stmt) : Prop :=
  ofSexp s.sexp = s.renumber fun _ => 0

theorem ofSexps_sexps (h : ∀ s ∈ body, s.IsReadBack) :
    ofSexps (sexps body) = renumberAll (fun _ => 0) body := by
  induction body with
  | nil => rfl
  | cons s rest ih =>
      rw [List.forall_mem_cons] at h
      rw [sexps, ofSexps, renumberAll, h.1, ih h.2]

theorem thensOf_thenSexps
    (hconditions : ∀ e ∈ arms.map Prod.fst, e.IsReadBack)
    (hbodies : ∀ s ∈ arms.flatMap Prod.snd ++ otherwise.getD [], s.IsReadBack) :
    thensOf (thenSexps (arms.map Prod.fst) (arms.map Prod.snd) ++ elseSexps otherwise) =
      (arms.map fun arm => (arm.1.renumber fun _ => 0, renumberAll (fun _ => 0) arm.2),
        renumberElse (fun _ => 0) otherwise) := by
  induction arms with
  | nil =>
      cases otherwise with
      | none => rfl
      | some body =>
          have hbody : ofSexps (sexps body) = renumberAll (fun _ => 0) body :=
            ofSexps_sexps (by simpa using hbodies)
          simp only [List.map_nil, thenSexps, elseSexps, List.nil_append, thensOf, hbody]
          rfl
  | cons arm rest ih =>
      obtain ⟨condition, body⟩ := arm
      simp only [List.map_cons, List.forall_mem_cons, List.flatMap_cons, List.append_assoc,
        List.forall_mem_append] at hconditions hbodies
      have hbody := ofSexps_sexps hbodies.1
      have hrest := ih hconditions.2 (List.forall_mem_append.mpr hbodies.2)
      simp only [List.map_cons, thenSexps, List.cons_append, thensOf, hconditions.1, hbody, hrest]

theorem whensOf_whenSexps
    (hconditions : ∀ e ∈ arms.map Prod.fst, e.IsReadBack)
    (hbodies : ∀ s ∈ arms.flatMap Prod.snd ++ otherwise.getD [], s.IsReadBack) :
    whensOf (whenSexps (arms.map Prod.fst) (arms.map Prod.snd) ++ elseSexps otherwise) =
      (arms.map fun arm => (arm.1.renumber fun _ => 0, renumberAll (fun _ => 0) arm.2),
        renumberElse (fun _ => 0) otherwise) := by
  induction arms with
  | nil =>
      cases otherwise with
      | none => rfl
      | some body =>
          have hkind : (Token.ofWord "else".toList).kind = .kwElse := kind_ofWord rfl (.inl rfl)
          have hbody : ofSexps (sexps body) = renumberAll (fun _ => 0) body :=
            ofSexps_sexps (by simpa using hbodies)
          simp only [List.map_nil, whenSexps, elseSexps, atom, List.nil_append, whensOf, hkind,
            hbody]
          rfl
  | cons arm rest ih =>
      obtain ⟨condition, body⟩ := arm
      have hkind : (Token.ofWord "when".toList).kind = .kwWhen := kind_ofWord rfl (.inl rfl)
      simp only [List.map_cons, List.forall_mem_cons, List.flatMap_cons, List.append_assoc,
        List.forall_mem_append] at hconditions hbodies
      have hbody := ofSexps_sexps hbodies.1
      have hrest := ih hconditions.2 (List.forall_mem_append.mpr hbodies.2)
      simp only [List.map_cons, whenSexps, atom, List.cons_append, whensOf, hkind, hconditions.1,
        hbody, hrest]

end Parts

theorem ofSexp_sexp {s : Stmt} (h : s.All Expr.Legible Legible) :
    ofSexp s.sexp = s.renumber fun _ => 0 := by
  induction h with
  | @intro s hnode hexprs _ ih =>
      obtain ⟨hshape, hnames, hspelled⟩ := hnode
      replace hexprs : ∀ e ∈ s.exprs, e.IsReadBack :=
        fun e he => Expr.ofSexp_sexp (hexprs e he)
      cases s with
      | expr e =>
          have hhead : Token.ofWord "expr".toList = ⟨.identifier, "expr", none, 0⟩ := by
            decide +kernel
          rw [sexp, atom, ofSexp.eq_def]
          simp only [hhead, hexprs e (by simp [exprs]), renumber]
          rfl
      | print keyword values newline =>
          have hhead := (hspelled keyword (by simp [ownTokens])).ofWord_lexeme
          have hvalues := Expr.map_ofSexp_sexp hexprs
          rw [exprs] at hvalues
          rw [sexp, Token.sexp, atom, Expr.sexps_eq, ofSexp.eq_def]
          simp only [HasShape] at hshape
          obtain ⟨hkinds, hnewline⟩ := hshape
          obtain rfl : newline = decide (keyword.kind = .kwPuts) := by
            rw [Bool.eq_iff_iff, hnewline, decide_eq_true_iff]
          rcases hkinds with hkind | hkind <;>
            simp only [hhead, Token.kind_renumber, hkind, hvalues, renumber]
      | assign names values =>
          have hkind : (Token.ofWord "=".toList).kind = .equal := kind_ofWord rfl (.inr rfl)
          have hnames : (names.map Token.sexp).map nameOf =
              names.map (Token.renumber fun _ => 0) := map_nameOf_sexp hspelled
          have hvalues := Expr.map_ofSexp_sexp hexprs
          rw [exprs] at hvalues
          rw [sexp, atom, Expr.sexps_eq, ofSexp.eq_def]
          simp only [hkind, hnames, hvalues, renumber]
      | block body =>
          have hhead : Token.ofWord "block".toList = ⟨.identifier, "block", none, 0⟩ := by
            decide +kernel
          have hbody : ofSexps (sexps body) = renumberAll (fun _ => 0) body := ofSexps_sexps ih
          rw [sexp, atom, ofSexp.eq_def]
          simp only [hhead, hbody, renumber]
          rfl
      | ifDo conditions branches otherwise =>
          obtain ⟨arms, rfl, rfl⟩ := exists_arms hshape.2
          have hkind : (Token.ofWord "if".toList).kind = .kwIf := kind_ofWord rfl (.inl rfl)
          rw [sexp, atom, List.cons_append, ofSexp.eq_def]
          simp only [hkind, thensOf_thenSexps hexprs ih]
          simp [renumber, Function.comp_def]
      | unlessDo condition body otherwise =>
          have hkind : (Token.ofWord "unless".toList).kind = .kwUnless :=
            kind_ofWord rfl (.inl rfl)
          have hthens : thensOf (thenSexps [condition] [body] ++ elseSexps otherwise) =
              ([(condition.renumber fun _ => 0, renumberAll (fun _ => 0) body)],
                renumberElse (fun _ => 0) otherwise) := by
            have harms : ∀ e ∈ [(condition, body)].map Prod.fst, e.IsReadBack := hexprs
            exact thensOf_thenSexps harms (by simpa [stmts] using ih)
          simp only [thenSexps, List.cons_append, List.nil_append] at hthens
          rw [sexp, atom, ofSexp.eq_def]
          simp only [hkind, hthens, renumber]
      | whileDo condition body =>
          have hkind : (Token.ofWord "while".toList).kind = .kwWhile := kind_ofWord rfl (.inl rfl)
          have hbody : ofSexps (sexps body) = renumberAll (fun _ => 0) body := ofSexps_sexps ih
          rw [sexp, atom, ofSexp.eq_def]
          simp only [hkind, hexprs condition (by simp [exprs]), hbody, renumber]
      | untilDo condition body =>
          have hkind : (Token.ofWord "until".toList).kind = .kwUntil := kind_ofWord rfl (.inl rfl)
          have hbody : ofSexps (sexps body) = renumberAll (fun _ => 0) body := ofSexps_sexps ih
          rw [sexp, atom, ofSexp.eq_def]
          simp only [hkind, hexprs condition (by simp [exprs]), hbody, renumber]
      | loopDo body =>
          have hkind : (Token.ofWord "loop".toList).kind = .kwLoop := kind_ofWord rfl (.inl rfl)
          have hbody : ofSexps (sexps body) = renumberAll (fun _ => 0) body := ofSexps_sexps ih
          rw [sexp, atom, ofSexp.eq_def]
          simp only [hkind, hbody, renumber]
      | forDo name iterable body =>
          have hkind : (Token.ofWord "for".toList).kind = .kwFor := kind_ofWord rfl (.inl rfl)
          have hname := nameOf_sexp (hspelled name (by simp [ownTokens]))
          have hbody : ofSexps (sexps body) = renumberAll (fun _ => 0) body := ofSexps_sexps ih
          rw [sexp, atom, ofSexp.eq_def]
          simp only [hkind, hname, hexprs iterable (by simp [exprs]), hbody, renumber]
      | caseDo subject conditions branches otherwise =>
          obtain ⟨arms, rfl, rfl⟩ := exists_arms hshape.2
          have hkind : (Token.ofWord "case".toList).kind = .kwCase := kind_ofWord rfl (.inl rfl)
          have hwhens := whensOf_whenSexps
            (fun e he => hexprs e (List.mem_cons_of_mem subject he)) ih
          rw [sexp, atom, List.cons_append, List.cons_append, ofSexp.eq_def]
          simp only [hkind, hexprs subject (by simp [exprs]), hwhens]
          simp [renumber, Function.comp_def]
      | define name params body =>
          have hkind : (Token.ofWord "def".toList).kind = .kwDef := kind_ofWord rfl (.inl rfl)
          have hname := nameOf_sexp (hspelled name (by simp [ownTokens]))
          have hparams : (params.map Token.sexp).map nameOf =
              params.map (Token.renumber fun _ => 0) :=
            map_nameOf_sexp fun t ht => hspelled t (by simp [ownTokens, ht])
          have hbody : ofSexps (sexps body) = renumberAll (fun _ => 0) body := ofSexps_sexps ih
          rw [sexp, atom, ofSexp.eq_def]
          simp only [hkind, hname, hparams, hbody, renumber]
      | returnFrom keyword value =>
          have hkind : (Token.ofWord "return".toList).kind = .kwReturn :=
            kind_ofWord rfl (.inl rfl)
          have hkeyword := (hspelled keyword (by simp [ownTokens])).renumber_eq hnames (by decide)
          rw [sexp, atom, ofSexp.eq_def]
          simp only [hkind, renumber, hkeyword]
          cases value with
          | none => rfl
          | some e => simp [hexprs e (by simp [exprs]), Token.mark]
      | breakLoop keyword =>
          have hkind : (Token.ofWord "break".toList).kind = .kwBreak := kind_ofWord rfl (.inl rfl)
          have hkeyword := (hspelled keyword (by simp [ownTokens])).renumber_eq hnames (by decide)
          rw [sexp, atom, ofSexp.eq_def]
          simp only [hkind, renumber, hkeyword]
          rfl
      | nextRound keyword =>
          have hkind : (Token.ofWord "next".toList).kind = .kwNext := kind_ofWord rfl (.inl rfl)
          have hkeyword := (hspelled keyword (by simp [ownTokens])).renumber_eq hnames (by decide)
          rw [sexp, atom, ofSexp.eq_def]
          simp only [hkind, renumber, hkeyword]
          rfl

end Stmt

end Scriptlet
