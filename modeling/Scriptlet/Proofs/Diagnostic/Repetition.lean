import Scriptlet.Proofs.Diagnostic.Queue

/-!
# Repetitions that a queue lets through

A queue compares a diagnostic with those queued last for the same line.  So it passes a repetition
over as long as diagnostics come line by line, and takes one in where a diagnostic for another line
came between the two, unless it is full by then.
-/

namespace Scriptlet.Diagnostic

variable {config : QueueConfig} {d e other : Diagnostic} {ds es : List Diagnostic}

/-- The diagnostic was there before, and one for another line came after that. -/
def Recurs (ds : List Diagnostic) (d : Diagnostic) : Prop :=
  ∃ e other, [e, other].Sublist ds ∧ e.repeats d ∧ other.line ≠ d.line

def NoRepetition (ds : List Diagnostic) : Prop :=
  ds.Pairwise fun d e => ¬d.repeats e

theorem repeats_iff : d.repeats e ↔ d.line = e.line ∧ d.message = e.message := by
  simp [repeats]

theorem repeats_trans (h : d.repeats e) (h' : e.repeats other) : d.repeats other := by
  obtain ⟨hline, hmessage⟩ := repeats_iff.mp h
  obtain ⟨hline', hmessage'⟩ := repeats_iff.mp h'
  exact repeats_iff.mpr ⟨hline.trans hline', hmessage.trans hmessage'⟩

theorem Recurs.mono (h : Recurs ds d) (hsub : ds.Sublist es) : Recurs es d := by
  obtain ⟨e, other, hpair, hrest⟩ := h
  exact ⟨e, other, hpair.trans hsub, hrest⟩

theorem pair_sublist_concat :
    [e, other].Sublist (ds ++ [d]) ↔ [e, other].Sublist ds ∨ e ∈ ds ∧ other = d := by
  rw [← List.reverse_sublist, List.reverse_append, List.reverse_singleton, List.singleton_append]
  simp only [List.reverse_cons, List.reverse_nil, List.nil_append, List.singleton_append,
    List.cons_sublist_cons', List.singleton_sublist, List.mem_reverse]
  rw [← List.reverse_sublist, List.reverse_reverse, and_comm]
  rfl

theorem pair_sublist_append (h : [e, other].Sublist (ds ++ es)) :
    [e, other].Sublist ds ∨ other ∈ es := by
  induction es using List.reverseRecOn with
  | nil => exact .inl (by simpa using h)
  | append_singleton es d ih =>
      rw [← List.append_assoc, pair_sublist_concat] at h
      rcases h with h | ⟨-, rfl⟩
      · exact (ih h).imp_right (List.mem_append_left _)
      · exact .inr List.mem_concat_self

theorem not_recurs_of_sorted (h : (ds ++ [d]).Pairwise fun d e => d.line ≤ e.line) :
    ¬Recurs ds d := by
  rintro ⟨e, other, hpair, hrepeats, hline⟩
  have hthree := h.sublist (hpair.append (.refl [d]))
  simp only [List.cons_append, List.nil_append, List.pairwise_cons, List.mem_cons,
    List.not_mem_nil, or_false, forall_eq_or_imp, forall_eq] at hthree
  have hsame := (repeats_iff.mp hrepeats).1
  omega

namespace Queue

variable {q : Queue}

/-! ## The last line -/

theorem exists_of_isRepeated (h : q.isRepeated d) :
    ∃ front run, q.toList = front ++ run ∧ (∀ e ∈ run, e.line = d.line) ∧
      ∃ e ∈ run, e.repeats d := by
  rw [isRepeated, List.any_eq_true] at h
  obtain ⟨e, he, hmessage⟩ := h
  have hrun : ∀ e ∈ q.newestFirst.takeWhile (fun e => e.line = d.line), e.line = d.line :=
    fun e he => of_decide_eq_true (List.all_eq_true.mp List.all_takeWhile e he)
  refine ⟨(q.newestFirst.dropWhile fun e => e.line = d.line).reverse,
    (q.newestFirst.takeWhile fun e => e.line = d.line).reverse, ?_, ?_, e, ?_, ?_⟩
  · rw [← List.reverse_append, List.takeWhile_append_dropWhile, toList]
  · simpa using hrun
  · simpa using he
  · exact repeats_iff.mpr ⟨hrun e he, of_decide_eq_true hmessage⟩

theorem recurs_of_not_isRepeated (h : ¬q.isRepeated d) (he : e ∈ q.toList)
    (hrepeats : e.repeats d) : Recurs q.toList d := by
  obtain ⟨hline, hmessage⟩ := repeats_iff.mp hrepeats
  have hafter : e ∉ q.newestFirst.takeWhile fun e => e.line = d.line := by
    intro hmem
    refine h (List.any_eq_true.mpr ⟨e, hmem, decide_eq_true hmessage⟩)
  have hall : q.newestFirst = q.newestFirst.takeWhile (fun e => e.line = d.line) ++
      q.newestFirst.dropWhile fun e => e.line = d.line := List.takeWhile_append_dropWhile.symm
  rw [toList, List.mem_reverse, hall, List.mem_append, or_iff_right hafter] at he
  have hstop := List.head?_dropWhile_not (fun e : Diagnostic => e.line = d.line) q.newestFirst
  cases hrest : q.newestFirst.dropWhile fun e => e.line = d.line with
  | nil => simp [hrest] at he
  | cons other older =>
      rw [hrest] at he hstop
      have hother : other.line ≠ d.line := by simpa using hstop
      have hmem : e ∈ older := by
        rcases List.mem_cons.mp he with rfl | hmem
        · exact absurd hline hother
        · exact hmem
      refine ⟨e, other, ?_, hrepeats, hother⟩
      rw [toList, ← List.reverse_sublist, List.reverse_reverse, hall, hrest]
      exact ((List.singleton_sublist.mpr hmem).cons_cons other).trans
        (List.sublist_append_right _ _)

/-! ## Offering one after the other -/

theorem add_of_isFull (h : q.isFull) (d : Diagnostic) :
    (q.add d).2.isFull ∧ (q.add d).2.toList = q.toList := by
  rw [add, if_pos h]
  exact ⟨h, rfl⟩

theorem toList_add_of_room (hroom : ¬q.isFull) (hdeduplicate : q.config.deduplicate = true)
    (d : Diagnostic) :
    (q.add d).2.toList = if q.isRepeated d then q.toList else q.toList ++ [d] := by
  rw [toList_add, add, if_neg hroom, hdeduplicate, Bool.true_and]
  split <;> simp

theorem config_extend (config : QueueConfig) (ds : List Diagnostic) :
    ((empty config).extend ds).config = config :=
  (keeps_extend config ds).config_eq

theorem not_isFull_of_concat (h : ¬((empty config).extend (ds ++ [d])).isFull) :
    ¬((empty config).extend ds).isFull := by
  intro hfull
  rw [extend_concat] at h
  exact h (add_of_isFull hfull d).1

theorem toList_extend_concat (hdeduplicate : config.deduplicate = true)
    (hroom : ¬((empty config).extend ds).isFull) (d : Diagnostic) :
    ((empty config).extend (ds ++ [d])).toList =
      if ((empty config).extend ds).isRepeated d then ((empty config).extend ds).toList
      else ((empty config).extend ds).toList ++ [d] := by
  rw [extend_concat]
  exact toList_add_of_room hroom (by rw [config_extend, hdeduplicate]) d

theorem exists_repeated (hdeduplicate : config.deduplicate = true)
    (hroom : ¬((empty config).extend ds).isFull) (hd : d ∈ ds) :
    ∃ e ∈ ((empty config).extend ds).toList, e.repeats d := by
  induction ds using List.reverseRecOn with
  | nil => cases hd
  | append_singleton ds last ih =>
      have hearlier := not_isFull_of_concat hroom
      rw [toList_extend_concat hdeduplicate hearlier]
      rcases List.mem_append.mp hd with hd | hd
      · obtain ⟨e, he, hrepeats⟩ := ih hearlier hd
        refine ⟨e, ?_, hrepeats⟩
        split
        · exact he
        · exact List.mem_append_left _ he
      · obtain rfl := List.mem_singleton.mp hd
        split
        · next hrepeated =>
            obtain ⟨front, run, hlist, -, e, he, hrepeats⟩ := exists_of_isRepeated hrepeated
            exact ⟨e, by rw [hlist]; exact List.mem_append_right _ he, hrepeats⟩
        · exact ⟨d, List.mem_concat_self, repeats_iff.mpr ⟨rfl, rfl⟩⟩

theorem recurs_toList (hdeduplicate : config.deduplicate = true)
    (hroom : ¬((empty config).extend ds).isFull) (h : Recurs ds d) :
    Recurs ((empty config).extend ds).toList d := by
  induction ds using List.reverseRecOn with
  | nil =>
      obtain ⟨e, other, hpair, -⟩ := h
      cases hpair
  | append_singleton ds last ih =>
      have hearlier := not_isFull_of_concat hroom
      have hlist := toList_extend_concat hdeduplicate hearlier last
      obtain ⟨e, other, hpair, hrepeats, hother⟩ := h
      rcases pair_sublist_concat.mp hpair with hpair | ⟨he, rfl⟩
      · refine (ih hearlier ⟨e, other, hpair, hrepeats, hother⟩).mono ?_
        rw [hlist]
        split
        · exact .refl _
        · exact List.sublist_append_left _ _
      · -- the last diagnostic is for another line, so the queue ends with that line now
        obtain ⟨f, hf, hfe⟩ := exists_repeated hdeduplicate hearlier he
        have hfd := repeats_trans hfe hrepeats
        rw [hlist]
        split
        · next hrepeated =>
            obtain ⟨front, run, hlist, hrun, z, hz, -⟩ := exists_of_isRepeated hrepeated
            have hfront : f ∈ front := by
              rw [hlist, List.mem_append] at hf
              refine hf.resolve_right fun hmem => hother ?_
              rw [← hrun f hmem, (repeats_iff.mp hfd).1]
            refine ⟨f, z, ?_, hfd, by rwa [hrun z hz]⟩
            rw [hlist]
            exact (List.singleton_sublist.mpr hfront).append (List.singleton_sublist.mpr hz)
        · exact ⟨f, other, pair_sublist_concat.mpr (.inr ⟨hf, rfl⟩), hfd, hother⟩

theorem not_noRepetition_of_recurs (hdeduplicate : config.deduplicate = true)
    (hroom : ¬((empty config).extend ds).isFull) (h : Recurs ds d) :
    ¬NoRepetition ((empty config).extend (ds ++ [d])).toList := by
  obtain ⟨e, other, hpair, hrepeats, hother⟩ := recurs_toList hdeduplicate hroom h
  rw [toList_extend_concat hdeduplicate hroom]
  intro hnone
  split at hnone
  · next hrepeated =>
      obtain ⟨front, run, hlist, hrun, f, hf, hfd⟩ := exists_of_isRepeated hrepeated
      have hfront : e ∈ front := by
        rw [hlist] at hpair
        refine (pair_sublist_append hpair).resolve_right (fun hmem => hother (hrun other hmem))
          |>.subset List.mem_cons_self
      rw [hlist, NoRepetition, List.pairwise_append] at hnone
      refine hnone.2.2 e hfront f hf (repeats_iff.mpr ?_)
      obtain ⟨hline, hmessage⟩ := repeats_iff.mp hrepeats
      obtain ⟨hline', hmessage'⟩ := repeats_iff.mp hfd
      exact ⟨hline.trans hline'.symm, hmessage.trans hmessage'.symm⟩
  · rw [NoRepetition, List.pairwise_append] at hnone
    exact hnone.2.2 e (hpair.subset List.mem_cons_self) d List.mem_cons_self hrepeats

theorem toList_extend_sublist (config : QueueConfig) (ds es : List Diagnostic) :
    ((empty config).extend ds).toList.Sublist ((empty config).extend (ds ++ es)).toList := by
  induction es using List.reverseRecOn with
  | nil => simp
  | append_singleton es d ih =>
      rw [← List.append_assoc, extend_concat, toList_add]
      exact ih.trans (List.sublist_append_left _ _)

/-- A queue that leaves out repetitions holds one exactly if it was offered a diagnostic, while
there was room, that had been offered before it was offered one for another line. -/
theorem noRepetition_toList_iff (hdeduplicate : config.deduplicate = true) :
    NoRepetition ((empty config).extend ds).toList ↔
      ∀ before d after, ds = before ++ d :: after → Recurs before d →
        ((empty config).extend before).isFull := by
  constructor
  · rintro hnone before d after rfl hrecurs
    by_contra hroom
    refine not_noRepetition_of_recurs hdeduplicate hroom hrecurs ?_
    rw [List.append_cons] at hnone
    exact hnone.sublist (toList_extend_sublist config (before ++ [d]) after)
  · intro hfull
    induction ds using List.reverseRecOn with
    | nil => exact .nil
    | append_singleton ds d ih =>
        have hearlier := ih fun before e after heq hrecurs =>
          hfull before e (after ++ [d]) (by rw [heq]; simp) hrecurs
        by_cases hroom : ((empty config).extend ds).isFull
        · rw [extend_concat, (add_of_isFull hroom d).2]
          exact hearlier
        rw [toList_extend_concat hdeduplicate hroom]
        split
        · exact hearlier
        · next hrepeated =>
            rw [NoRepetition, List.pairwise_append]
            refine ⟨hearlier, List.pairwise_singleton _ _, ?_⟩
            intro e he last hlast hrepeats
            obtain rfl := List.mem_singleton.mp hlast
            have hrecurs := recurs_of_not_isRepeated hrepeated he hrepeats
            exact hroom (hfull ds last [] rfl (hrecurs.mono (keeps_extend config ds).sublist))

end Queue

end Scriptlet.Diagnostic
