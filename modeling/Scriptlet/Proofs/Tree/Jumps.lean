import Scriptlet.Proofs.Tree.Parts
import Scriptlet.Value.Failure

/-!
# Jumps and the loops around them

A jump is enclosed if a loop stands around it, with no function between the two.  One that is not
is either let out by the statement in which it stands, or stands in the body of a function and is
let out by that body.
-/

namespace Scriptlet.Stmt

def isLoop : Stmt → Bool
  | .whileDo _ _ | .untilDo _ _ | .loopDo _ | .forDo _ _ _ => true
  | _ => false

def isDefinition : Stmt → Bool
  | .define _ _ _ => true
  | _ => false

def jumpError? : Stmt → Option RuntimeError
  | .breakLoop keyword => some ⟨.invalidBreak, keyword.line⟩
  | .nextRound keyword => some ⟨.invalidNext, keyword.line⟩
  | _ => none

/-- The last statement stands somewhere in the first, or is the first itself.  The list has the
statements around it, from the inside out. -/
inductive Contains : Stmt → List Stmt → Stmt → Prop where
  | self (s : Stmt) : Contains s [] s
  | inside {s t u : Stmt} {around : List Stmt} (ht : t ∈ s.stmts) (h : Contains t around u) :
      Contains s (around ++ [s]) u

/-- Whether a loop stands around a place, with no function between the two. -/
def isEnclosed : List Stmt → Bool
  | [] => false
  | s :: outer => s.isLoop || !s.isDefinition && isEnclosed outer

/-- A statement stands in the program and is not enclosed. -/
def Loose (program : List Stmt) (t : Stmt) : Prop :=
  ∃ s ∈ program, ∃ around, s.Contains around t ∧ isEnclosed around = false

/-- Neither a loop nor a function keeps a jump with the error inside the statement. -/
inductive LetsOut (e : RuntimeError) : Stmt → Prop where
  | jump {s : Stmt} (h : s.jumpError? = some e) : LetsOut e s
  | part {s t : Stmt} (hloop : s.isLoop = false) (hdefinition : s.isDefinition = false)
      (ht : t ∈ s.stmts) (h : LetsOut e t) : LetsOut e s

variable {s t u : Stmt} {around : List Stmt} {program body : List Stmt} {e : RuntimeError}

theorem isLoop_eq_false_of_isDefinition (h : s.isDefinition) : s.isLoop = false := by
  cases s <;> first | rfl | cases h

/-! ## Places -/

theorem isEnclosed_append {outer : List Stmt} (h : isEnclosed around = false)
    (houter : isEnclosed outer = false) : isEnclosed (around ++ outer) = false := by
  induction around with
  | nil => exact houter
  | cons t around ih =>
      simp only [isEnclosed, Bool.or_eq_false_iff, Bool.and_eq_false_iff] at h
      simp only [List.cons_append, isEnclosed, Bool.or_eq_false_iff, Bool.and_eq_false_iff]
      exact ⟨h.1, h.2.imp_right ih⟩

theorem isEnclosed_singleton (h : s.isLoop = false) : isEnclosed [s] = false := by
  simp [isEnclosed, h]

theorem isEnclosed_cons_of_isDefinition (h : s.isDefinition) (outer : List Stmt) :
    isEnclosed (s :: outer) = false := by
  simp [isEnclosed, h, isLoop_eq_false_of_isDefinition h]

theorem Contains.trans {outer : List Stmt} (hs : s.Contains outer t)
    (ht : t.Contains around u) : s.Contains (around ++ outer) u := by
  induction hs with
  | self => simpa using ht
  | inside hmem _ ih =>
      rw [← List.append_assoc]
      exact .inside hmem (ih ht)

/-- What holds at every place in a statement holds throughout it. -/
theorem all_of_contains {q : Stmt → Prop} (s : Stmt)
    (h : ∀ around t, s.Contains around t → q t) : s.All (fun _ => True) q :=
  .intro (h [] s (.self s)) (fun e _ => Expr.all_of_forall (fun _ => trivial) e) fun t ht =>
    all_of_contains t fun _ _ hu => h _ _ (.inside ht hu)
termination_by s
decreasing_by exact sizeOf_stmt ht

/-! ## Jumps that are let out -/

theorem jumpError?_of_isLoop (h : s.isLoop) : s.jumpError? = none := by
  cases s <;> first | rfl | cases h

theorem not_letsOut_of_isLoop (h : s.isLoop) : ¬LetsOut e s := by
  rintro (he | ⟨hloop, -, -, -⟩)
  · rw [jumpError?_of_isLoop h] at he
    cases he
  · rw [h] at hloop
    cases hloop

theorem failure_of_jumpError? (h : s.jumpError? = some e) :
    e.failure = .invalidBreak ∨ e.failure = .invalidNext := by
  unfold jumpError? at h
  split at h <;> cases h
  · exact .inl rfl
  · exact .inr rfl

theorem LetsOut.failure_eq (h : LetsOut e s) :
    e.failure = .invalidBreak ∨ e.failure = .invalidNext := by
  induction h with
  | jump h => exact failure_of_jumpError? h
  | part _ _ _ _ ih => exact ih

theorem LetsOut.exists_contains (h : LetsOut e s) :
    ∃ around t, s.Contains around t ∧ isEnclosed around = false ∧ t.jumpError? = some e := by
  induction h with
  | jump h => exact ⟨[], _, .self _, rfl, h⟩
  | part hloop _ ht _ ih =>
      obtain ⟨around, u, hu, hopen, he⟩ := ih
      exact ⟨_, u, .inside ht hu, isEnclosed_append hopen (isEnclosed_singleton hloop), he⟩

theorem Loose.of_define {name : Token} {params : List Token} {s : Stmt} (hs : s ∈ program)
    (hdefine : s.Contains around (.define name params body)) (h : Loose body t) :
    Loose program t := by
  obtain ⟨u, hu, inner, ht, hopen⟩ := h
  have hpath : (Stmt.define name params body).Contains (inner ++ [.define name params body]) t :=
    .inside hu ht
  refine ⟨s, hs, _, hdefine.trans hpath, ?_⟩
  rw [List.append_assoc]
  exact isEnclosed_append hopen (isEnclosed_cons_of_isDefinition rfl around)

theorem Loose.of_letsOut (hs : s ∈ program) (h : LetsOut e s) :
    ∃ t, Loose program t ∧ t.jumpError? = some e := by
  obtain ⟨around, t, ht, hopen, he⟩ := h.exists_contains
  exact ⟨t, ⟨s, hs, around, ht, hopen⟩, he⟩

end Scriptlet.Stmt
