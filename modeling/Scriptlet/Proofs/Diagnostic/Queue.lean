import Mathlib.Data.List.Basic
import Mathlib.Data.List.Induction
import Scriptlet.Diagnostic.Queue

/-!
# What a queue keeps

A queue keeps some of the diagnostics that it is offered, in the order in which they come.  The
first is always kept, so a queue is empty only if there was nothing to keep, whatever its limit and
however it treats repetitions.
-/

namespace Scriptlet.Diagnostic.Queue

variable {q : Queue} {config : QueueConfig} {d : Diagnostic} {ds : List Diagnostic}

theorem extend_concat (q : Queue) (ds : List Diagnostic) (d : Diagnostic) :
    q.extend (ds ++ [d]) = ((q.extend ds).add d).2 := by
  simp [extend]

theorem isFull_iff : q.isFull ↔ 0 < q.config.limit ∧ q.config.limit ≤ q.size := by
  simp [isFull]

theorem exists_repeated_of_isRepeated (h : q.isRepeated d) :
    ∃ e ∈ q.toList, e.line = d.line ∧ e.message = d.message := by
  rw [isRepeated, List.any_eq_true] at h
  obtain ⟨e, he, hmessage⟩ := h
  have hline := List.all_eq_true.mp List.all_takeWhile e he
  refine ⟨e, ?_, of_decide_eq_true hline, of_decide_eq_true hmessage⟩
  simpa [toList] using (List.takeWhile_sublist _).subset he

theorem size_pos_of_isRepeated (h : q.isRepeated d) : 0 < q.size := by
  obtain ⟨e, he, -⟩ := exists_repeated_of_isRepeated h
  rw [← length_toList]
  exact List.length_pos_of_mem he

theorem add_cases (q : Queue) (d : Diagnostic) :
    (q.isFull ∧ q.add d = (false, { q with dropped := q.dropped + 1 })) ∨
    (q.config.deduplicate = true ∧ q.isRepeated d ∧ q.add d = (false, q)) ∨
    (¬q.isFull ∧ q.add d = (true, { q with newestFirst := d :: q.newestFirst })) := by
  rw [add]
  by_cases hfull : q.isFull
  · exact .inl ⟨hfull, if_pos hfull⟩
  rw [if_neg hfull]
  by_cases hagain : (q.config.deduplicate && q.isRepeated d) = true
  · obtain ⟨hdeduplicate, hrepeated⟩ := Bool.and_eq_true_iff.mp hagain
    exact .inr (.inl ⟨hdeduplicate, hrepeated, if_pos hagain⟩)
  · exact .inr (.inr ⟨hfull, if_neg hagain⟩)

/-- What is left of the diagnostics `ds` in a queue to which they were offered: some of them, in
order and starting with the first, and no more than the limit allows.  Nothing is dropped before
the limit is reached, and only repetitions are neither kept nor counted as dropped. -/
structure Keeps (config : QueueConfig) (ds : List Diagnostic) (q : Queue) : Prop where
  config_eq : q.config = config
  sublist : q.toList.Sublist ds
  head?_eq : q.toList.head? = ds.head?
  size_le : 0 < config.limit → q.size ≤ config.limit
  size_of_dropped : 0 < q.dropped → 0 < config.limit ∧ q.size = config.limit
  counted : config.deduplicate = false → q.size + q.dropped = ds.length

namespace Keeps

theorem empty (config : QueueConfig) : Keeps config [] (empty config) where
  config_eq := rfl
  sublist := .refl []
  head?_eq := rfl
  size_le _ := Nat.zero_le _
  size_of_dropped hdropped := absurd hdropped (Nat.lt_irrefl 0)
  counted _ := rfl

theorem size_eq_zero_iff (h : Keeps config ds q) : q.size = 0 ↔ ds = [] := by
  rw [← length_toList, List.length_eq_zero_iff, ← List.head?_eq_none_iff, h.head?_eq,
    List.head?_eq_none_iff]

theorem head?_concat (h : Keeps config ds q) (hsize : 0 < q.size) (d : Diagnostic) :
    q.toList.head? = (ds ++ [d]).head? := by
  have hds : ds ≠ [] := fun hnil => Nat.ne_of_gt hsize (h.size_eq_zero_iff.mpr hnil)
  rw [h.head?_eq]
  exact (List.head?_append_of_ne_nil ds hds).symm

theorem add (h : Keeps config ds q) (d : Diagnostic) : Keeps config (ds ++ [d]) (q.add d).2 := by
  have hconfig := h.config_eq
  obtain ⟨hfull, hq⟩ | ⟨hdeduplicate, hrepeated, hq⟩ | ⟨hroom, hq⟩ := q.add_cases d
  all_goals rw [hq]
  case inl =>
    obtain ⟨hlimit, hfull⟩ := isFull_iff.mp hfull
    have hpos : 0 < q.size := Nat.lt_of_lt_of_le hlimit hfull
    rw [hconfig] at hlimit hfull
    have hsize : q.size = config.limit := Nat.le_antisymm (h.size_le hlimit) hfull
    exact {
      config_eq := hconfig
      sublist := h.sublist.trans (List.sublist_append_left ds [d])
      head?_eq := h.head?_concat hpos d
      size_le := h.size_le
      size_of_dropped := fun _ => ⟨hlimit, hsize⟩
      counted := fun hall => by
        have hcounted := h.counted hall
        rw [List.length_append, List.length_singleton, ← hcounted, ← Nat.add_assoc]
        rfl }
  case inr.inl =>
    rw [hconfig] at hdeduplicate
    exact {
      config_eq := hconfig
      sublist := h.sublist.trans (List.sublist_append_left ds [d])
      head?_eq := h.head?_concat (size_pos_of_isRepeated hrepeated) d
      size_le := h.size_le
      size_of_dropped := h.size_of_dropped
      counted := fun hall => absurd (hdeduplicate.symm.trans hall) nofun }
  case inr.inr =>
    have hlist : toList { q with newestFirst := d :: q.newestFirst } = q.toList ++ [d] :=
      List.reverse_cons
    have hsize : size { q with newestFirst := d :: q.newestFirst } = q.size + 1 := rfl
    rw [isFull_iff, hconfig] at hroom
    exact {
      config_eq := hconfig
      sublist := by
        rw [hlist]
        exact h.sublist.append (.refl [d])
      head?_eq := by rw [hlist, List.head?_append, h.head?_eq, List.head?_append]
      size_le := fun hlimit => by
        rw [hsize]
        omega
      size_of_dropped := fun hdropped => by
        -- once something is dropped there is no room
        obtain ⟨hlimit, hfull⟩ := h.size_of_dropped hdropped
        exact absurd ⟨hlimit, Nat.le_of_eq hfull.symm⟩ hroom
      counted := fun hall => by
        have hcounted := h.counted hall
        rw [hsize, List.length_append, List.length_singleton, ← hcounted]
        exact Nat.add_right_comm _ _ _ }

theorem extend (h : Keeps config ds q) (es : List Diagnostic) :
    Keeps config (ds ++ es) (q.extend es) := by
  induction es generalizing q ds with
  | nil => simpa [Queue.extend] using h
  | cons d es ih => simpa [Queue.extend] using ih (h.add d)

theorem flush (h : Keeps config ds q) : Keeps config [] q.flush.2 := by
  have hempty : q.flush.2 = Queue.empty config := by
    rw [← h.config_eq]
    rfl
  rw [hempty]
  exact .empty config

theorem hasErrors_iff (h : Keeps config ds q) : q.hasErrors ↔ ds ≠ [] := by
  rw [hasErrors, decide_eq_true_iff, Nat.pos_iff_ne_zero, ne_eq, h.size_eq_zero_iff]

end Keeps

theorem keeps_extend (config : QueueConfig) (ds : List Diagnostic) :
    Keeps config ds ((empty config).extend ds) :=
  (Keeps.empty config).extend ds

theorem hasErrors_extend_empty (config : QueueConfig) (ds : List Diagnostic) :
    ((empty config).extend ds).hasErrors = !ds.isEmpty := by
  rw [Bool.eq_iff_iff, (keeps_extend config ds).hasErrors_iff]
  simp

end Scriptlet.Diagnostic.Queue
