import Scriptlet.Proofs.Grammar.Reads

/-!
# Items separated by commas

How the tokens of a comma-separated list are made up of those of its items.
-/

namespace Scriptlet.Grammar

inductive CommaSeparated : List (List Token) → List Token → Prop
  | nil : CommaSeparated [] []
  | single (ts : List Token) : CommaSeparated [ts] ts
  | cons {comma : Token} {ts us rest : List Token} {parts : List (List Token)} :
      comma.kind = .comma → CommaSeparated (us :: parts) rest →
      CommaSeparated (ts :: us :: parts) (ts ++ comma :: rest)

namespace CommaSeparated

variable {parts : List (List Token)} {ts : List Token}

theorem length_le (h : CommaSeparated parts ts) (hparts : ∀ part ∈ parts, 0 < part.length) :
    parts.length ≤ ts.length := by
  induction h with
  | nil => exact Nat.le_refl 0
  | single ts => exact hparts ts (by simp)
  | @cons comma ts us rest parts _ _ ih =>
      have hrest := ih fun part hpart => hparts part (by simp_all)
      simp only [List.length_cons, List.length_append] at hrest ⊢
      omega

theorem exists_append {part : List Token} (h : CommaSeparated (part :: parts) ts) :
    ∃ rest, ts = part ++ rest := by
  cases h with
  | single => exact ⟨[], (List.append_nil _).symm⟩
  | cons => exact ⟨_, rfl⟩

theorem length_part_le (h : CommaSeparated parts ts) {part : List Token} (hpart : part ∈ parts) :
    part.length ≤ ts.length := by
  induction h with
  | nil => simp at hpart
  | single ts => simp_all
  | @cons comma ts us rest parts _ _ ih =>
      rcases List.mem_cons.mp hpart with rfl | hpart
      · simp
      · have hrest := ih hpart
        simp only [List.length_append, List.length_cons]
        omega

end CommaSeparated

namespace Reads

variable {α : Type} {check : Nat → Parse Unit} {item : Parse α} {limit : Nat}
variable {r r' : Reading} {values : List α}

structure Items (spells : List Token → α → Prop) (parts : List (List Token × α))
    (r r' : Reading) : Prop where
  nonempty : parts ≠ []
  spells : ∀ part ∈ parts, spells part.1 part.2
  tokens : ∃ ts, CommaSeparated (parts.map Prod.fst) ts ∧ r = r'.before ts
  stops : r'.current.kind ≠ .comma

theorem of_commaSeparated [∀ n, Advances (check n)] [Advances item] (ok : Nat → Prop)
    (spells : List Token → α → Prop)
    (hcheck : ∀ n r r', Reads (check n) r () r' → r' = r ∧ ok n)
    (hitem : ∀ r a r', Reads item r a r' → ∃ ts, r = r'.before ts ∧ spells ts a)
    (h : Reads (commaSeparated limit check item) r values r') :
    ∃ parts, values = parts.map Prod.snd ∧ Items spells parts r r' ∧
      ∀ i < parts.length, ok i := by
  have key : ∃ parts, values = (#[] : Array α).toList ++ parts.map Prod.snd ∧
      Items spells parts r r' ∧ ∀ i < parts.length, ok ((#[] : Array α).size + i) := by
    refine of_rounds (P := fun items r => ∃ parts, values = items.toList ++ parts.map Prod.snd ∧
      Items spells parts r r' ∧ ∀ i < parts.length, ok (items.size + i)) h ?_ ?_
    · intro items r hround
      obtain ⟨_, r₁, hchecked, hread⟩ := hround.of_bind
      obtain ⟨rfl, hok⟩ := hcheck _ _ _ hchecked
      obtain ⟨a, r₂, ha, hcomma⟩ := hread.of_bind
      obtain ⟨ts, rfl, hts⟩ := hitem _ _ _ ha
      obtain ⟨found, r₃, heat, hend⟩ := hcomma.of_bind
      rcases heat.of_eat (by decide) with ⟨rfl, -⟩ | ⟨rfl, hstop, rfl⟩
      · cases hend.of_pure.1
      · obtain ⟨hvalues, rfl⟩ := hend.of_pure
        cases hvalues
        exact ⟨[(ts, a)], by simp,
          ⟨by simp, by simpa using hts, ⟨ts, .single ts, rfl⟩, hstop⟩, by simpa using hok⟩
    · intro items r items' r₁ hround ⟨parts, hvalues, hitems, hoks⟩
      obtain ⟨_, r₂, hchecked, hread⟩ := hround.of_bind
      obtain ⟨rfl, hok⟩ := hcheck _ _ _ hchecked
      obtain ⟨a, r₃, ha, hrest⟩ := hread.of_bind
      obtain ⟨ts, rfl, hts⟩ := hitem _ _ _ ha
      obtain ⟨found, r₄, heat, hend⟩ := hrest.of_bind
      rcases heat.of_eat (by decide) with ⟨rfl, comma, hcomma, rfl⟩ | ⟨rfl, -, rfl⟩
      · obtain ⟨hagain, rfl⟩ := hend.of_pure
        cases hagain
        obtain ⟨us, hus, rfl⟩ := hitems.tokens
        obtain ⟨part, parts, rfl⟩ := List.exists_cons_of_ne_nil hitems.nonempty
        refine ⟨(ts, a) :: part :: parts, by simpa using hvalues,
          ⟨by simp, ?_, ?_, hitems.stops⟩, ?_⟩
        · intro p hp
          rcases List.mem_cons.mp hp with rfl | hp
          · exact hts
          · exact hitems.spells p hp
        · exact ⟨ts ++ comma :: us, .cons hcomma hus, by simp⟩
        · intro i hi
          cases i with
          | zero => exact hok
          | succ i =>
              have hnext := hoks i (by simpa using hi)
              rw [Array.size_push] at hnext
              rwa [Nat.add_assoc, Nat.add_comm 1] at hnext
      · cases hend.of_pure.1
  simpa using key

theorem commaSeparated {parts : List (List Token × α)} {ts : List Token}
    (hparts : parts ≠ []) (hlimit : parts.length ≤ limit) (hclosed : r'.Closed)
    (hcheck : ∀ i < parts.length, ∀ r : Reading, r.Closed → Reads (check i) r () r)
    (hitem : ∀ part ∈ parts, ∀ r : Reading, r.Closed →
      (r.current.kind = .comma ∨ r = r') → Reads item (r.before part.1) part.2 r)
    (hts : CommaSeparated (parts.map Prod.fst) ts) (hstop : r'.current.kind ≠ .comma) :
    Reads (Grammar.commaSeparated limit check item) (r'.before ts) (parts.map Prod.snd) r' := by
  have hpos : 0 < parts.length := List.length_pos_iff.mpr hparts
  refine rounds (fun n items r => ∃ more ts, more.length = n + 1 ∧
      items.size + more.length = parts.length ∧
      items.toList ++ more.map Prod.snd = parts.map Prod.snd ∧ (∀ part ∈ more, part ∈ parts) ∧
      CommaSeparated (more.map Prod.fst) ts ∧ r = r'.before ts)
    ⟨parts, ts, (Nat.sub_add_cancel hpos).symm, by simp, rfl, fun _ => id, hts, rfl⟩
    (Nat.lt_of_lt_of_le (Nat.sub_lt hpos Nat.one_pos) hlimit) hclosed ?_ ?_
  · rintro items r ⟨more, us, hlast, hsize, hvalues, hmore, hus, rfl⟩
    obtain ⟨part, rfl⟩ := List.length_eq_one_iff.mp hlast
    have hpart := hmore part (by simp)
    cases hus with
    | single =>
        refine (hcheck items.size (by simp at hsize; omega) _ (hclosed.before _)).bind ?_
        refine (hitem part hpart r' hclosed (.inr rfl)).bind ?_
        refine (eat_other hclosed hstop).bind ?_
        have hdone : (items.push part.2).toList = parts.map Prod.snd := by simpa using hvalues
        rw [← hdone]
        exact pure hclosed
  · rintro n items r ⟨more, us, hlast, hsize, hvalues, hmore, hus, rfl⟩
    obtain _ | ⟨part, _ | ⟨next, more⟩⟩ := more
    · simp at hlast
    · simp at hlast
    have hpart := hmore part (by simp)
    cases hus with
    | @cons comma _ _ us _ hcomma hus =>
        refine ⟨items.push part.2, r'.before us, ?_, next :: more, us, by simpa using hlast, ?_, ?_,
          fun p hp => hmore p (by simp_all), hus, rfl⟩
        · rw [Reading.before_append]
          have hnext := hclosed.before (comma :: us)
          refine (hcheck items.size (by simp at hsize; omega) _ (hnext.before _)).bind ?_
          refine (hitem part hpart _ hnext (.inl hcomma)).bind ?_
          refine (eat hclosed hcomma (by decide)).bind ?_
          exact pure (hclosed.before _)
        · simp at hsize ⊢
          omega
        · simpa using hvalues

end Reads

end Scriptlet.Grammar
