import Scriptlet.Proofs.Diagnostic.Repetition

/-!
# Diagnostics in the order of their lines

As long as diagnostics come line by line, looking no further back than the current line finds every
repetition.  A queue then holds exactly the diagnostics that are new, up to its limit, and drops
everything after the last of them that it takes in.
-/

namespace Scriptlet.Diagnostic

variable {d : Diagnostic} {ds before : List Diagnostic} {limit : Nat}

/-- The diagnostics that repeat none of `before` and none in front of them, each with all that come
after it. -/
def newAfter (before : List Diagnostic) : List Diagnostic → List (Diagnostic × List Diagnostic)
  | [] => []
  | d :: after =>
      if before.any (·.repeats d) then newAfter (before ++ [d]) after
      else (d, after) :: newAfter (before ++ [d]) after

theorem newAfter_concat (before ds : List Diagnostic) (d : Diagnostic) :
    newAfter before (ds ++ [d]) =
      (newAfter before ds).map (fun p => (p.1, p.2 ++ [d])) ++
        if (before ++ ds).any (·.repeats d) then [] else [(d, [])] := by
  induction ds generalizing before with
  | nil => simp [newAfter]
  | cons e ds ih =>
      rw [List.cons_append, newAfter, newAfter, ih, List.append_assoc, List.singleton_append]
      split <;> simp

def news (ds : List Diagnostic) : List (Diagnostic × List Diagnostic) :=
  newAfter [] ds

theorem news_concat (ds : List Diagnostic) (d : Diagnostic) :
    news (ds ++ [d]) = (news ds).map (fun p => (p.1, p.2 ++ [d])) ++
      if ds.any (·.repeats d) then [] else [(d, [])] :=
  newAfter_concat [] ds d

theorem getElem?_news_concat {i : Nat} (hi : i < (news ds).length) (d : Diagnostic) :
    (news (ds ++ [d]))[i]? = some ((news ds)[i].1, (news ds)[i].2 ++ [d]) := by
  rw [news_concat, List.getElem?_append_left (by simpa using hi)]
  simp [hi]

theorem take_news_concat (hlimit : limit ≤ (news ds).length) (d : Diagnostic) :
    ((news (ds ++ [d])).map Prod.fst).take limit = ((news ds).map Prod.fst).take limit := by
  rw [news_concat, List.map_append, List.take_append_of_le_length (by simpa using hlimit)]
  simp [Function.comp_def]

theorem length_after_news_concat (hlimit : (news ds).length < limit) (d : Diagnostic) :
    ((news (ds ++ [d]))[limit - 1]?).elim 0 (fun p => p.2.length) = 0 := by
  rw [news_concat, List.getElem?_append_right (by simp; omega)]
  split
  · simp
  · cases limit - 1 - ((news ds).map fun p => (p.1, p.2 ++ [d])).length <;> simp

namespace Queue

theorem isRepeated_extend (hsorted : (ds ++ [d]).Pairwise fun d e => d.line ≤ e.line)
    {config : QueueConfig} (hdeduplicate : config.deduplicate = true)
    (hroom : ¬((empty config).extend ds).isFull) :
    ((empty config).extend ds).isRepeated d = ds.any (·.repeats d) := by
  have hkeeps := keeps_extend config ds
  rw [Bool.eq_iff_iff, List.any_eq_true]
  constructor
  · intro h
    obtain ⟨e, he, hsame⟩ := exists_repeated_of_isRepeated h
    exact ⟨e, hkeeps.sublist.subset he, repeats_iff.mpr hsame⟩
  · rintro ⟨e, he, hrepeats⟩
    obtain ⟨f, hf, hfe⟩ := exists_repeated hdeduplicate hroom he
    by_contra h
    have hrecurs := recurs_of_not_isRepeated h hf (repeats_trans hfe hrepeats)
    exact not_recurs_of_sorted hsorted (hrecurs.mono hkeeps.sublist)

theorem dropped_add (q : Queue) (d : Diagnostic) :
    (q.add d).2.dropped = if q.isFull then q.dropped + 1 else q.dropped := by
  unfold add
  split
  · rfl
  · split <;> rfl

theorem extend_concat_of_room (hsorted : (ds ++ [d]).Pairwise fun d e => d.line ≤ e.line)
    (hroom : ¬((empty ⟨limit, true⟩).extend ds).isFull)
    (hlist : ((empty ⟨limit, true⟩).extend ds).toList = (news ds).map Prod.fst)
    (hdropped : ((empty ⟨limit, true⟩).extend ds).dropped = 0) :
    ((empty ⟨limit, true⟩).extend (ds ++ [d])).toList = (news (ds ++ [d])).map Prod.fst ∧
      ((empty ⟨limit, true⟩).extend (ds ++ [d])).dropped = 0 := by
  constructor
  · rw [toList_extend_concat rfl hroom, isRepeated_extend hsorted rfl hroom, hlist, news_concat]
    split <;> simp [Function.comp_def]
  · rw [extend_concat, dropped_add, if_neg hroom, hdropped]

theorem extend_of_room (hsorted : ds.Pairwise fun d e => d.line ≤ e.line)
    (hroom : ¬((empty ⟨limit, true⟩).extend ds).isFull) :
    ((empty ⟨limit, true⟩).extend ds).toList = (news ds).map Prod.fst ∧
      ((empty ⟨limit, true⟩).extend ds).dropped = 0 := by
  induction ds using List.reverseRecOn with
  | nil => exact ⟨rfl, rfl⟩
  | append_singleton ds d ih =>
      have hearlier := not_isFull_of_concat hroom
      obtain ⟨hlist, hdropped⟩ := ih (hsorted.sublist (List.sublist_append_left _ _)) hearlier
      exact extend_concat_of_room hsorted hearlier hlist hdropped

theorem size_lt_of_room (hlimit : 0 < limit) (hroom : ¬((empty ⟨limit, true⟩).extend ds).isFull) :
    ((empty ⟨limit, true⟩).extend ds).size < limit := by
  rw [isFull_iff, config_extend] at hroom
  exact Nat.lt_of_not_le fun h => hroom ⟨hlimit, h⟩

/-- What comes after the last diagnostic that a queue with a limit takes in is dropped. -/
theorem extend_of_limit (hsorted : ds.Pairwise fun d e => d.line ≤ e.line) (hlimit : 0 < limit) :
    ((empty ⟨limit, true⟩).extend ds).toList = ((news ds).map Prod.fst).take limit ∧
      ((empty ⟨limit, true⟩).extend ds).dropped =
        ((news ds)[limit - 1]?).elim 0 fun p => p.2.length := by
  induction ds using List.reverseRecOn with
  | nil => simp [news, newAfter, extend, empty, toList]
  | append_singleton ds d ih =>
      have hearlier := hsorted.sublist (List.sublist_append_left ds [d])
      by_cases hfull : ((empty ⟨limit, true⟩).extend ds).isFull
      · obtain ⟨hlist, hdropped⟩ := ih hearlier
        have hsize : limit ≤ (news ds).length := by
          have hlength := congrArg List.length hlist
          rw [isFull_iff, config_extend] at hfull
          simp only [length_toList, List.length_take, List.length_map] at hlength hfull
          omega
        have hlast : limit - 1 < (news ds).length := by omega
        rw [extend_concat, (add_of_isFull hfull d).2, dropped_add, if_pos hfull, hlist, hdropped,
          take_news_concat hsize, getElem?_news_concat hlast, List.getElem?_eq_getElem hlast]
        simp
      · obtain ⟨hlist, hdropped⟩ := extend_of_room hearlier hfull
        have hsize := size_lt_of_room hlimit hfull
        rw [← length_toList, hlist, List.length_map] at hsize
        obtain ⟨hlist', hdropped'⟩ := extend_concat_of_room hsorted hfull hlist hdropped
        have hsize' := (keeps_extend ⟨limit, true⟩ (ds ++ [d])).size_le hlimit
        rw [← length_toList, hlist'] at hsize'
        rw [hlist', hdropped', List.take_of_length_le hsize', length_after_news_concat hsize]
        exact ⟨rfl, rfl⟩

/-- A queue that leaves out repetitions is offered diagnostics whose lines never go back.  It holds
those that repeat none in front of them, in order, and if it has a limit, as many of them as that.
What comes after the last one that it can hold is dropped, whether or not it is new. -/
theorem extend_in_line_order {ds : List Diagnostic}
    (hsorted : ds.Pairwise fun d e => d.line ≤ e.line) (limit : Nat) :
    ((empty ⟨limit, true⟩).extend ds).toList =
        (if limit = 0 then (news ds).map Prod.fst else ((news ds).map Prod.fst).take limit) ∧
      ((empty ⟨limit, true⟩).extend ds).dropped =
        (if limit = 0 then 0
          else ((news ds)[limit - 1]?).elim 0 fun (_, after) => after.length) := by
  by_cases hlimit : limit = 0
  · have hroom : ¬((empty ⟨limit, true⟩).extend ds).isFull := by
      rw [isFull_iff, config_extend]
      simp [hlimit]
    rw [if_pos hlimit, if_pos hlimit]
    exact extend_of_room hsorted hroom
  · rw [if_neg hlimit, if_neg hlimit]
    exact extend_of_limit hsorted (Nat.pos_of_ne_zero hlimit)

/-- The second diagnostic for line 3 repeats the first, and the new one for line 4 comes too late.
-/
theorem extend_in_line_order_two :
    let d (line : Nat) : Diagnostic := ⟨line, .line, "Unexpected character."⟩
    let ds := [d 1, d 3, d 3, d 4]
    let q := (empty ⟨2, true⟩).extend ds
    (ds.Pairwise fun d e => d.line ≤ e.line) ∧ q.toList = [d 1, d 3] ∧ q.dropped = 2 := by
  intro d ds q
  have hsorted : ds.Pairwise fun d e => d.line ≤ e.line := by decide
  obtain ⟨hlist, hdropped⟩ := extend_in_line_order hsorted 2
  exact ⟨hsorted, hlist, hdropped⟩

end Queue

end Scriptlet.Diagnostic
