import Mathlib.Data.List.FinRange
import Mathlib.Data.List.Forall2
import Mathlib.Logic.Equiv.Defs
import Scriptlet.Proofs.Machine.Ending
import Scriptlet.Proofs.Machine.Regime
import Scriptlet.Proofs.Scope.Successive

/-!
# Assignments to several names

All initial values are found before the first name is bound.  So a failure on the way leaves no name
bound, and an assignment of names to one another permutes their values.
-/

namespace Scriptlet

/-! ## Scopes are not lost -/

namespace Regime

def growing : Regime where
  body _ := True
  scope _ _ := True
  store _ := True
  onward st st' := st.size ≤ st'.size
  stops _ := True

theorem lawful_growing : growing.Lawful where
  onward_refl _ := Nat.le_refl _
  onward_trans := Nat.le_trans
  scope_mono _ _ := trivial
  stand_mono _ _ := trivial
  scope_of_stand _ := trivial
  fits_bound _ _ _ _ _ _ := ⟨trivial, trivial⟩
  store_define _ _ _ := ⟨trivial, Nat.le_of_eq (Store.size_define _ _ _ _).symm⟩
  store_assign _ _ _ _ := ⟨trivial, Nat.le_of_eq (Store.size_assign _ _ _ _).symm⟩
  store_addChild _ _ := ⟨trivial, by simp [growing], trivial⟩
  store_addClosure _ := ⟨trivial, Nat.le_refl _⟩
  stops_failed _ _ _ := trivial
  stops_jump _ _ _ := trivial

theorem hosts_growing {settings : Settings} : growing.Hosts settings where
  fits _ _ _ _ := ⟨trivial, trivial⟩
  stops _ _ := trivial

end Regime

namespace Run

variable {settings : Settings} {m m' m₁ m₂ : Machine}

theorem keeps_of_ends {e : Expr} {v : Value} (h : Ends (evaluate settings · e) m (.ok v m')) :
    Regime.growing.Keeps m m' := by
  obtain ⟨-, fuel, h⟩ := h
  have hhost : Regime.growing.Hosts settings := Regime.hosts_growing
  have hsafe := (Regime.lawful_growing.evaluate_execute hhost (p := fun _ => True)
    (q := fun _ => True) (fun _ _ s _ => Stmt.all_of_forall (fun _ => trivial) (fun _ => trivial) s)
    (fun _ _ _ _ _ => trivial) (fun _ _ _ _ => trivial) (fun _ _ _ _ _ => trivial) trivial fuel).1
    m.depth m.store e (Expr.all_of_forall (fun _ => trivial) e)
  have hlands := hsafe m ⟨rfl, Nat.le_refl _, trivial, trivial⟩
  have hfuel : evaluate settings fuel e m = .ok v m' := h fuel (Nat.le_refl _)
  rw [hfuel] at hlands
  exact hlands.1

/-! ## The initial values -/

inductive EvaluatesAll (settings : Settings) :
    List Expr → Machine → List Value → Machine → Prop where
  | nil (m : Machine) : EvaluatesAll settings [] m [] m
  | cons {e : Expr} {es : List Expr} {v : Value} {vs : List Value} {m m₁ m₂ : Machine}
      (head : Ends (evaluate settings · e) m (.ok v m₁))
      (tail : EvaluatesAll settings es m₁ vs m₂) :
      EvaluatesAll settings (e :: es) m (v :: vs) m₂

theorem EvaluatesAll.length_eq {es : List Expr} {vs : List Value}
    (h : EvaluatesAll settings es m vs m') : vs.length = es.length := by
  induction h with
  | nil m => rfl
  | cons _ _ ih => simp [ih]

theorem EvaluatesAll.keeps {es : List Expr} {vs : List Value}
    (h : EvaluatesAll settings es m vs m') : Regime.growing.Keeps m m' := by
  induction h with
  | nil m => exact ⟨rfl, rfl, Nat.le_refl _, trivial⟩
  | cons head _ ih => exact Regime.lawful_growing.keeps_trans (keeps_of_ends head) ih

theorem EvaluatesAll.ends {es : List Expr} {vs : List Value}
    (h : EvaluatesAll settings es m vs m') :
    Ends (fun fuel => evaluateAll (evaluate settings fuel) es) m (.ok vs m') := by
  induction h with
  | nil m => exact ends_of_finished rfl (finished_ok _ _)
  | cons head _ ih =>
      exact head.bind (ih.bind (ends_of_finished rfl (finished_ok _ _)))

theorem EvaluatesAll.ends_of_error {es : List Expr} {vs : List Value} {e : Expr} {halt : Halt}
    (h : EvaluatesAll settings es m vs m₁)
    (herror : Ends (evaluate settings · e) m₁ (.error halt m₂)) (rest : List Expr) :
    Ends (fun fuel => evaluateAll (evaluate settings fuel) (es ++ e :: rest)) m
      (.error halt m₂) := by
  induction h with
  | nil m => exact herror.bind_of_error _
  | cons head _ ih => exact head.bind ((ih herror).bind_of_error _)

theorem ends_var {name : Token} {v : Value}
    (h : m.store.lookup m.env.current name.lexeme = some v) :
    Ends (evaluate settings · (.var name)) m (.ok v m) := by
  have hlookup : lookup name m = .ok v m := by
    rw [lookup_apply, Environment.lookup, h]
  exact ends_evaluate_of_evaluateWith (ends_of_finished hlookup (finished_ok _ _))

theorem evaluatesAll_vars {ι : Type} {is : List ι} {names : ι → Token} {values : ι → Value}
    (h : ∀ i ∈ is, m.store.lookup m.env.current (names i).lexeme = some (values i)) :
    EvaluatesAll settings (is.map fun i => .var (names i)) m (is.map values) m := by
  induction is with
  | nil => exact .nil m
  | cons i is ih =>
      rw [List.forall_mem_cons] at h
      exact .cons (ends_var h.1) (ih h.2)

/-! ## The names -/

theorem define_apply_of_not_constant {name : Token} (h : ¬isConstantName name.lexeme) (v : Value)
    (m : Machine) : define name v m =
      .ok () { m with store := (m.store.define m.env.current name.lexeme v).2 } := by
  have hnone := Store.define_of_not_constant h m.store m.env.current v
  rw [define_apply]
  revert hnone
  rcases m.store.define m.env.current name.lexeme v with ⟨error?, st⟩
  rintro rfl
  rfl

theorem defineAll_apply {bs : List (Token × Value)} (h : ∀ b ∈ bs, ¬isConstantName b.1.lexeme)
    (m : Machine) : defineAll bs m = .ok ()
      { m with store := m.store.defineEach m.env.current (bs.map (Prod.map Token.lexeme id)) } := by
  induction bs generalizing m with
  | nil => rfl
  | cons b bs ih =>
      rw [List.forall_mem_cons] at h
      change EStateM.bind (define b.1 b.2) (fun _ => defineAll bs) m = _
      rw [EStateM.bind, define_apply_of_not_constant h.1]
      exact ih h.2 _

section Names

variable {names : List Token} {es : List Expr} {vs : List Value}

def bindings (names : List Token) (vs : List Value) : List (String × Value) :=
  (names.map Token.lexeme).zip vs

theorem bindings_eq (names : List Token) (vs : List Value) :
    bindings names vs = (names.zip vs).map (Prod.map Token.lexeme id) :=
  List.zip_map_left

theorem ends_assign_of_error {before after : List Expr} {e : Expr} {halt : Halt}
    (h : EvaluatesAll settings before m vs m₁)
    (herror : Ends (evaluate settings · e) m₁ (.error halt m₂)) :
    Ends (execute settings · (.assign names (before ++ e :: after))) m (.error halt m₂) :=
  ends_execute_of_executeWith ((h.ends_of_error herror after).bind_of_error _)

theorem ends_assign (h : EvaluatesAll settings es m vs m₁)
    (hnames : ∀ name ∈ names, ¬isConstantName name.lexeme) :
    Ends (execute settings · (.assign names es)) m (.ok .normal
      { m₁ with store := m₁.store.defineEach m₁.env.current (bindings names vs) }) := by
  have hdefine : defineAll (names.zip vs) m₁ = .ok ()
      { m₁ with store := m₁.store.defineEach m₁.env.current (bindings names vs) } := by
    rw [bindings_eq]
    exact defineAll_apply (fun b hb => hnames b.1 (List.of_mem_zip hb).1) m₁
  refine ends_execute_of_executeWith (h.ends.bind ?_)
  refine Ends.bind (ends_of_finished hdefine (finished_ok _ _)) ?_
  exact ends_of_finished rfl (finished_ok _ _)

theorem lookup_bindings (h : EvaluatesAll settings es m vs m₁)
    (hnames : ∀ name ∈ names, ¬isConstantName name.lexeme)
    (hm : m.env.current < m.store.size) (hlength : names.length = es.length)
    (hdistinct : (names.map Token.lexeme).Nodup) {b : String × Value}
    (hb : b ∈ bindings names vs) :
    (m₁.store.defineEach m₁.env.current (bindings names vs)).lookup m₁.env.current b.1 =
      some b.2 := by
  have hkeeps := h.keeps
  have hvalues : (names.map Token.lexeme).length = vs.length := by
    rw [List.length_map, hlength, h.length_eq]
  refine Store.lookup_defineEach ?_ ?_ ?_ hb
  · rw [hkeeps.env_eq]
    exact Nat.lt_of_lt_of_le hm hkeeps.onward
  · intro c hc
    obtain ⟨name, hname, heq⟩ := List.mem_map.mp (List.of_mem_zip hc).1
    exact heq ▸ hnames name hname
  · rwa [bindings, List.map_fst_zip (Nat.le_of_eq hvalues)]

end Names

/-! ## Names assigned to one another -/

/-- The statement gives each target the value of the source with the same number. -/
def Copies {k : Nat} (targets sources : Fin k → String) (s : Stmt) : Prop :=
  ∃ left right : Fin k → Token, (∀ i, (left i).lexeme = targets i) ∧
    (∀ i, (right i).lexeme = sources i) ∧
    s = .assign ((List.finRange k).map left) ((List.finRange k).map fun i => .var (right i))

/-- The names have changed places, and no other name has got another value. -/
structure Rearranged {k : Nat} (id : ScopeId) (names : Fin k → String) (p : Fin k → Fin k)
    (st st' : Store) : Prop where
  names_eq (i : Fin k) : st'.lookup id (names i) = st.lookup id (names (p i))
  others_eq {x : String} : (∀ i, x ≠ names i) → st'.lookup id x = st.lookup id x

section Copies

variable {k : Nat} {id : ScopeId} {names : Fin k → String} {p q : Fin k → Fin k}
variable {st st' st'' : Store} {s : Stmt}

theorem Rearranged.lookup_eq (h : Rearranged id names p st st')
    (h' : Rearranged id names q st' st'') (hinverse : ∀ i, p (q i) = i) (x : String) :
    st''.lookup id x = st.lookup id x := by
  by_cases hx : ∃ i, x = names i
  · obtain ⟨i, rfl⟩ := hx
    rw [h'.names_eq, h.names_eq, hinverse]
  · rw [not_exists] at hx
    rw [h'.others_eq hx, h.others_eq hx]

theorem ends_of_copies (settings : Settings) (hs : Copies names (names ∘ p) s)
    (hinj : names.Injective) (hnames : ∀ i, ¬isConstantName (names i))
    (hbound : ∀ i, (m.store.lookup m.env.current (names i)).isSome) :
    ∃ st', Ends (execute settings · s) m (.ok .normal { m with store := st' }) ∧
      Rearranged m.env.current names p m.store st' := by
  obtain ⟨left, right, hleft, hright, rfl⟩ := hs
  choose values hvalues using fun i => Option.isSome_iff_exists.mp (hbound (p i))
  let targets := (List.finRange k).map left
  let bs := (List.finRange k).map fun i => (names i, values i)
  have hevaluates : EvaluatesAll settings ((List.finRange k).map fun i => .var (right i)) m
      ((List.finRange k).map values) m := by
    refine evaluatesAll_vars fun i _ => ?_
    rw [hright]
    exact hvalues i
  have hbindings : bindings targets ((List.finRange k).map values) = bs := by
    rw [bindings, List.map_map, List.zip_map']
    simp [bs, hleft]
  have hconstants : ∀ name ∈ targets, ¬isConstantName name.lexeme := by
    simpa [targets, hleft] using hnames
  have hdistinct : (targets.map Token.lexeme).Nodup := by
    rw [List.map_map]
    refine List.Nodup.map ?_ (List.nodup_finRange k)
    intro i j hij
    simp only [Function.comp_apply, hleft] at hij
    exact hinj hij
  have hends := ends_assign hevaluates hconstants
  rw [hbindings] at hends
  refine ⟨_, hends, ?_, ?_⟩
  · intro i
    have hm : m.env.current < m.store.size := Store.lt_size_of_lookup (hvalues i)
    have hi : (names i, values i) ∈ bindings targets ((List.finRange k).map values) := by
      rw [hbindings]
      exact List.mem_map_of_mem (List.mem_finRange i)
    have hlookup := lookup_bindings hevaluates hconstants hm (by simp [targets]) hdistinct hi
    rw [hbindings] at hlookup
    rw [hlookup, hvalues]
  · intro x hx
    refine Store.lookup_defineEach_of_not_mem ?_ _
    simpa [bs] using hx

end Copies

/-- The initial values of an assignment are found one after the other before any name is bound.  If
one of them stops the run, it stops with the machine as it is then.  Otherwise the names are defined
in order in the current scope, so that names that are distinct have their own values.  In particular
an assignment of names to one another permutes their values, and the inverse one undoes it. -/
theorem assign_simultaneous (settings : Settings) (m : Machine) :
    (∀ (names : List Token) (before after : List Expr) (e : Expr) (vs : List Value) (halt : Halt)
        (m₁ m₂ : Machine), EvaluatesAll settings before m vs m₁ →
      Ends (evaluate settings · e) m₁ (.error halt m₂) →
      Ends (execute settings · (.assign names (before ++ e :: after))) m (.error halt m₂)) ∧
    (∀ (names : List Token) (es : List Expr) (vs : List Value) (m₁ : Machine),
      EvaluatesAll settings es m vs m₁ → (∀ name ∈ names, ¬isConstantName name.lexeme) →
      ∃ m₂, m₂ = { m₁ with store := m₁.store.defineEach m₁.env.current (bindings names vs) } ∧
        Ends (execute settings · (.assign names es)) m (.ok .normal m₂) ∧
        (m.env.current < m.store.size → names.length = es.length →
          (names.map Token.lexeme).Nodup →
          List.Forall₂ (fun name v => m₂.env.lookup m₂.store name.lexeme = some v) names vs)) ∧
    ∀ (k : Nat) (names : Fin k → String) (p : Equiv.Perm (Fin k)) (s s' : Stmt),
      names.Injective → (∀ i, ¬isConstantName (names i)) →
      (∀ i, (m.store.lookup m.env.current (names i)).isSome) →
      Copies names (names ∘ p) s → Copies names (names ∘ p.symm) s' →
      ∃ st₁ st₂, Ends (execute settings · s) m (.ok .normal { m with store := st₁ }) ∧
        Rearranged m.env.current names p m.store st₁ ∧
        Ends (execute settings · s') { m with store := st₁ }
          (.ok .normal { m with store := st₂ }) ∧
        ∀ x, st₂.lookup m.env.current x = m.store.lookup m.env.current x := by
  refine ⟨?_, ?_, ?_⟩
  · intro names before after e vs halt m₁ m₂ h herror
    exact ends_assign_of_error h herror
  · intro names es vs m₁ h hnames
    refine ⟨_, rfl, ends_assign h hnames, ?_⟩
    intro hm hlength hdistinct
    refine List.forall₂_iff_zip.mpr ⟨hlength.trans h.length_eq.symm, fun {name v} hmem => ?_⟩
    have hb : (name.lexeme, v) ∈ bindings names vs := by
      rw [bindings_eq]
      exact List.mem_map_of_mem hmem
    rw [Environment.lookup, lookup_bindings h hnames hm hlength hdistinct hb]
  · intro k names p s s' hinj hnames hbound hs hs'
    obtain ⟨st₁, hfirst, hst₁⟩ := ends_of_copies settings hs hinj hnames hbound
    have hbound₁ : ∀ i, (st₁.lookup m.env.current (names i)).isSome := by
      intro i
      rw [hst₁.names_eq]
      exact hbound (p i)
    obtain ⟨st₂, hsecond, hst₂⟩ := ends_of_copies settings
      (m := { m with store := st₁ }) hs' hinj hnames hbound₁
    exact ⟨st₁, st₂, hfirst, hst₁, hsecond, hst₁.lookup_eq hst₂ p.apply_symm_apply⟩

/-- `d, a = 7, missing` binds nothing, `a, b = b, 7` gives each name its value, and `a, b, c = b, c,
a` is undone by `a, b, c = c, a, b`. -/
theorem assign_simultaneous_three_names :
    let settings : Settings := .packing 10
    let m := Machine.initial.withGlobals [("a", .int 1), ("b", .int 2), ("c", .int 3)]
    let token (name : String) : Token := ⟨.identifier, name, none, 1⟩
    let seven : Expr := .literal (.int 7)
    let missing : Expr := .var (token "missing")
    let halt : Halt := .failed ⟨.undefinedVariable "missing", 1⟩
    let names : Fin 3 → String := ["a", "b", "c"].get
    let turn : Equiv.Perm (Fin 3) :=
      ⟨(· + 1), (· + 2), fun i => by decide +revert, fun i => by decide +revert⟩
    let copy (p : Fin 3 → Fin 3) : Stmt :=
      .assign ((List.finRange 3).map fun i => token (names i))
        ((List.finRange 3).map fun i => .var (token (names (p i))))
    (EvaluatesAll settings [seven] m [.int 7] m ∧
      Ends (evaluate settings · missing) m (.error halt m) ∧
      Ends (execute settings · (.assign [token "d", token "a"] ([seven] ++ missing :: []))) m
        (.error halt m)) ∧
    (EvaluatesAll settings [.var (token "b"), seven] m [.int 2, .int 7] m ∧
      m.env.current < m.store.size ∧
      ∃ m₂, Ends (execute settings · (.assign [token "a", token "b"]
          [.var (token "b"), seven])) m (.ok .normal m₂) ∧
        m₂.env.lookup m₂.store "a" = some (.int 2) ∧ m₂.env.lookup m₂.store "b" = some (.int 7)) ∧
    names.Injective ∧ (∀ i, ¬isConstantName (names i)) ∧
      (∀ i, (m.store.lookup m.env.current (names i)).isSome) ∧
      ∃ st₁ st₂, Ends (execute settings · (copy turn)) m (.ok .normal { m with store := st₁ }) ∧
        Rearranged m.env.current names turn m.store st₁ ∧
        Ends (execute settings · (copy turn.symm)) { m with store := st₁ }
          (.ok .normal { m with store := st₂ }) ∧
        ∀ x, st₂.lookup m.env.current x = m.store.lookup m.env.current x := by
  intro settings m token seven missing halt names turn copy
  obtain ⟨hstops, hbinds, hpermutes⟩ := assign_simultaneous settings m
  have hm : m.env.current < m.store.size := by decide
  have hlookup (name : String) :
      m.store.lookup m.env.current name = m.store.get? m.env.current name := by
    have hroot : m.store.parent? m.env.current = none := rfl
    simp [Store.lookup, Store.chain_of_root hroot]
  have hseven : Ends (evaluate settings · seven) m (.ok (.int 7) m) :=
    ends_evaluate_of_evaluateWith (ends_of_finished rfl (finished_ok _ _))
  have hb : Ends (evaluate settings · (.var (token "b"))) m (.ok (.int 2) m) := by
    refine ends_var ?_
    rw [hlookup]
    rfl
  have hmissing : Ends (evaluate settings · missing) m (.error halt m) := by
    have hget : m.store.get? m.env.current "missing" = none := rfl
    have hglobal : ¬isGlobalName "missing" := by decide
    have hfails : lookup (token "missing") m = .error halt m := by
      simp [lookup_apply, Environment.lookup, hlookup, token, hget, hglobal, halt]
    exact ends_evaluate_of_evaluateWith (ends_of_finished hfails (finished_failed _ _))
  have hone : EvaluatesAll settings [seven] m [.int 7] m := .cons hseven (.nil m)
  have htwo : EvaluatesAll settings [.var (token "b"), seven] m [.int 2, .int 7] m := .cons hb hone
  have hinj : names.Injective := by
    change ∀ i j, names i = names j → i = j
    decide
  have hnames : ∀ i, ¬isConstantName (names i) := by decide
  have hbound : ∀ i, (m.store.lookup m.env.current (names i)).isSome := by
    simp only [hlookup]
    decide
  have hcopy (p : Fin 3 → Fin 3) : Copies names (names ∘ p) (copy p) :=
    ⟨fun i => token (names i), fun i => token (names (p i)), fun _ => rfl, fun _ => rfl, rfl⟩
  refine ⟨⟨hone, hmissing, ?_⟩, ⟨htwo, hm, ?_⟩, hinj, hnames, hbound, ?_⟩
  · exact hstops [token "d", token "a"] [seven] [] missing _ halt m m hone hmissing
  · obtain ⟨m₂, -, hends, hnow⟩ := hbinds [token "a", token "b"] _ _ m htwo (by decide)
    have hvalues := hnow hm rfl (by decide)
    simp only [List.forall₂_cons] at hvalues
    exact ⟨m₂, hends, hvalues.1, hvalues.2.1⟩
  · exact hpermutes 3 names turn _ _ hinj hnames hbound (hcopy turn) (hcopy turn.symm)

end Run

end Scriptlet
