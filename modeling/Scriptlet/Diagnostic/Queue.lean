import Scriptlet.Diagnostic.Basic

/-!
A queue of diagnostics that is bounded and free of repetitions.

The queue counts what it drops once it is full.  It leaves out a diagnostic that repeats one of
those queued last for the same line; a diagnostic for another line in between hides the earlier
ones, so the check never looks further back than the current line.
-/

namespace Scriptlet.Diagnostic

/-- `limit = 0` means no limit. -/
structure QueueConfig where
  limit : Nat
  deduplicate : Bool
  deriving DecidableEq, Repr, Inhabited

namespace QueueConfig

def standard : QueueConfig :=
  ⟨50, true⟩

def unlimited : QueueConfig :=
  ⟨0, false⟩

end QueueConfig

/-- `newestFirst` holds the queued diagnostics in reverse order. -/
structure Queue where
  config : QueueConfig
  newestFirst : List Diagnostic
  dropped : Nat
  deriving DecidableEq, Repr, Inhabited

namespace Queue

def empty (config : QueueConfig) : Queue :=
  ⟨config, [], 0⟩

def size (q : Queue) : Nat :=
  q.newestFirst.length

def toList (q : Queue) : List Diagnostic :=
  q.newestFirst.reverse

def isFull (q : Queue) : Bool :=
  0 < q.config.limit && q.config.limit ≤ q.size

def hasErrors (q : Queue) : Bool :=
  0 < q.size

/-- Whether one of the diagnostics queued last for the same line says the same. -/
def isRepeated (q : Queue) (d : Diagnostic) : Bool :=
  (q.newestFirst.takeWhile fun e => e.line = d.line).any fun e => e.message = d.message

def add (q : Queue) (d : Diagnostic) : Bool × Queue :=
  if q.isFull then (false, { q with dropped := q.dropped + 1 })
  else if q.config.deduplicate && q.isRepeated d then (false, q)
  else (true, { q with newestFirst := d :: q.newestFirst })

/-- Offers a diagnostic where it does not matter whether it is queued: that there is an error is
certain either way. -/
def emit (q : Queue) (d : Diagnostic) : Queue :=
  (q.add d).2

def extend (q : Queue) (ds : List Diagnostic) : Queue :=
  ds.foldl (fun q d => (q.add d).2) q

def flush (q : Queue) : List Diagnostic × Queue :=
  (q.toList, { q with newestFirst := [], dropped := 0 })

@[simp] theorem toList_empty (config : QueueConfig) : (empty config).toList = [] := rfl

@[simp] theorem length_toList (q : Queue) : q.toList.length = q.size := by
  simp [toList, size]

@[simp] theorem config_add (q : Queue) (d : Diagnostic) : (q.add d).2.config = q.config := by
  unfold add
  split
  · rfl
  · split <;> rfl

theorem toList_add (q : Queue) (d : Diagnostic) :
    (q.add d).2.toList = q.toList ++ (if (q.add d).1 then [d] else []) := by
  unfold add
  split
  · simp [toList]
  · split <;> simp [toList]

end Queue

end Scriptlet.Diagnostic
