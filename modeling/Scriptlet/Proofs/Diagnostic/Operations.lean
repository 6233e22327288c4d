import Mathlib.Logic.Basic
import Scriptlet.Proofs.Diagnostic.Queue

/-!
# A queue in use

A queue is offered diagnostics one by one or many at once, and emptied in between.  Whatever is done
to it, its contents, its counts and its answers can be told from the diagnostics that it was offered
since it was last emptied.
-/

namespace Scriptlet.Diagnostic.Queue

inductive Operation where
  | add (d : Diagnostic)
  | emit (d : Diagnostic)
  | extend (ds : List Diagnostic)
  | flush

namespace Operation

def apply (q : Queue) : Operation → Queue
  | .add d => (q.add d).2
  | .emit d => q.emit d
  | .extend ds => q.extend ds
  | .flush => q.flush.2

/-- What has been offered since the last flush, if that was `ds` before the operation. -/
def offer (ds : List Diagnostic) : Operation → List Diagnostic
  | .add d | .emit d => ds ++ [d]
  | .extend es => ds ++ es
  | .flush => []

end Operation

def run (config : QueueConfig) (ops : List Operation) : Queue :=
  ops.foldl Operation.apply (empty config)

def offered (ops : List Operation) : List Diagnostic :=
  ops.foldl Operation.offer []

variable {q : Queue} {config : QueueConfig} {ds : List Diagnostic}

theorem Keeps.apply (h : Keeps config ds q) (op : Operation) :
    Keeps config (op.offer ds) (op.apply q) := by
  cases op with
  | add d => exact h.add d
  | emit d => exact h.add d
  | extend es => exact h.extend es
  | flush => exact h.flush

theorem Keeps.foldl (h : Keeps config ds q) (ops : List Operation) :
    Keeps config (ops.foldl Operation.offer ds) (ops.foldl Operation.apply q) := by
  induction ops generalizing q ds with
  | nil => exact h
  | cons op ops ih => exact ih (h.apply op)

theorem keeps_run (config : QueueConfig) (ops : List Operation) :
    Keeps config (offered ops) (run config ops) :=
  (Keeps.empty config).foldl ops

theorem Keeps.isFull_of_dropped (h : Keeps config ds q) (hdropped : 0 < q.dropped) : q.isFull := by
  obtain ⟨hlimit, hsize⟩ := h.size_of_dropped hdropped
  rw [isFull_iff, h.config_eq]
  exact ⟨hlimit, Nat.le_of_eq hsize.symm⟩

/-! ## Answers -/

theorem add_eq_true_iff (q : Queue) (d : Diagnostic) :
    (q.add d).1 = true ↔ (q.add d).2.size = q.size + 1 := by
  obtain ⟨-, hq⟩ | ⟨-, -, hq⟩ | ⟨-, hq⟩ := q.add_cases d
  all_goals rw [hq]; simp [size]

theorem add_refused (h : Keeps config ds q) {d : Diagnostic} (hrefused : (q.add d).1 = false) :
    Xor (q.isFull ∧ (q.add d).2.dropped = q.dropped + 1)
      (config.deduplicate ∧ (∃ e ∈ q.toList, e.line = d.line ∧ e.message = d.message) ∧
        (q.add d).2 = q) := by
  obtain ⟨hfull, hq⟩ | ⟨hdeduplicate, hrepeated, hq⟩ | ⟨-, hq⟩ := q.add_cases d
  all_goals rw [hq] at hrefused ⊢
  case inl =>
    refine .inl ⟨⟨hfull, rfl⟩, fun ⟨_, _, hsame⟩ => ?_⟩
    have hdropped := congrArg dropped hsame
    simp at hdropped
  case inr.inl =>
    rw [h.config_eq] at hdeduplicate
    refine .inr ⟨⟨hdeduplicate, exists_repeated_of_isRepeated hrepeated, rfl⟩, fun ⟨_, hsame⟩ => ?_⟩
    simp at hsame
  case inr.inr => simp at hrefused

/-- After any operations a queue has errors exactly if it was offered a diagnostic since it was last
flushed.  It holds some of those it was offered, in order and with the first one, and no more than
its limit; nothing is dropped before the limit is reached.  It answers with yes exactly if it holds
one diagnostic more, and with no either because it is full and counts one more as dropped, or
because it has the diagnostic already and stays as it is. -/
theorem accounts_kept (config : QueueConfig) (ops : List Operation) :
    let q := run config ops
    let ds := offered ops
    (q.hasErrors ↔ ds ≠ []) ∧ (0 < config.limit → q.size ≤ config.limit) ∧
      (0 < q.dropped → q.isFull) ∧ q.toList.Sublist ds ∧ q.toList.head? = ds.head? ∧
      ∀ d, ((q.add d).1 = true ↔ (q.add d).2.size = q.size + 1) ∧
        ((q.add d).1 = false → Xor (q.isFull ∧ (q.add d).2.dropped = q.dropped + 1)
          (config.deduplicate ∧ (∃ e ∈ q.toList, e.line = d.line ∧ e.message = d.message) ∧
            (q.add d).2 = q)) := by
  intro q ds
  have h : Keeps config ds q := keeps_run config ops
  exact ⟨h.hasErrors_iff, h.size_le, h.isFull_of_dropped, h.sublist, h.head?_eq,
    fun d => ⟨add_eq_true_iff q d, add_refused h⟩⟩

/-- A queue for two that was full and emptied, and is full again: a repetition was passed over and
a third diagnostic is dropped. -/
theorem accounts_kept_full_again :
    let d (line : Nat) : Diagnostic := ⟨line, .line, "Unexpected character."⟩
    let ops : List Operation :=
      [.extend [d 1, d 2, d 3], .flush, .add (d 4), .emit (d 4), .add (d 5), .emit (d 6)]
    let q := run ⟨2, true⟩ ops
    q = ⟨⟨2, true⟩, [d 5, d 4], 1⟩ ∧ offered ops = [d 4, d 4, d 5, d 6] ∧ 0 < q.dropped ∧
      q.isFull ∧ (q.add (d 5)).1 = false ∧ (q.add (d 5)).2.dropped = q.dropped + 1 := by
  intro d ops q
  have hq : q = ⟨⟨2, true⟩, [d 5, d 4], 1⟩ := by decide +kernel
  have hkept := accounts_kept ⟨2, true⟩ ops
  rw [show run ⟨2, true⟩ ops = _ from hq] at hkept
  obtain ⟨-, -, hfull, -, -, hadd⟩ := hkept
  have hno : (add ⟨⟨2, true⟩, [d 5, d 4], 1⟩ (d 5)).1 = false := rfl
  have hcounted := ((hadd (d 5)).2 hno).or.resolve_right fun h => absurd h.2.2 (by decide)
  rw [hq]
  exact ⟨rfl, rfl, Nat.one_pos, hfull Nat.one_pos, hno, hcounted.2⟩

end Scriptlet.Diagnostic.Queue
