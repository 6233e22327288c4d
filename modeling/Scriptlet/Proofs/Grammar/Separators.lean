import Scriptlet.Proofs.Grammar.OriginStmt
import Scriptlet.Proofs.Grammar.Total

/-!
# Newlines and semicolons

A newline and a semicolon separate statements alike.  Where one stands for the other, the same
statements are read and the same errors are found at the same places, also where statements are
dropped.

Several tokens of a list can be equal, so the place of an error is told by reading the list with the
places of its tokens for their lines.
-/

namespace Scriptlet

/-- The same token, or two separators. -/
def Token.UpToSeparator (t t' : Token) : Prop :=
  t' = t ∨ t.kind.isSeparator ∧ t'.kind.isSeparator

namespace Grammar

variable {same : Token → Token → Prop} {tokens tokens' us us' rest rest' : List Token}
variable {last : Token}

/-- Tokens correspond that are equal, and besides only some separators. -/
structure Coarsens (same : Token → Token → Prop) : Prop where
  refl : ∀ t, same t t
  upToSeparator : ∀ {t t'}, same t t' → t.UpToSeparator t'

/-! ## Corresponding lists -/

namespace Pairing

def alongside (hsame : Coarsens same) (last : Token) (rest rest' : List Token)
    (hlast : last.kind = .eof) : Pairing where
  line := id
  same := same
  last := last
  rest := rest
  after := last :: rest'
  before := []
  apart := False
  same_renumber := hsame.refl
  of_same := hsame.upToSeparator
  kind_last := hlast
  exists_after := ⟨last, rest', rfl, fun _ => hsame.refl last⟩

theorem abreast_alongside (hsame : Coarsens same) (hlast : last.kind = .eof)
    (h : List.Forall₂ same us us') (hus : ∀ t ∈ us, t.kind ≠ .eof) :
    (alongside hsame last rest rest' hlast).Abreast (us ++ last :: rest)
      (us' ++ last :: rest') := by
  induction h with
  | nil => exact .last id
  | cons htoken _ ih =>
      rw [List.forall_mem_cons] at hus
      exact .cons htoken hus.1 (ih hus.2)

end Pairing

open Pairing

theorem exists_first_end_both (hsame : Coarsens same) (h : List.Forall₂ same tokens tokens')
    (hend : ∃ t ∈ tokens, t.kind = .eof) : ∃ us us' last rest rest',
      tokens = us ++ last :: rest ∧ tokens' = us' ++ last :: rest' ∧ last.kind = .eof ∧
        (∀ t ∈ us, t.kind ≠ .eof) ∧ List.Forall₂ same us us' := by
  induction h with
  | nil => simp at hend
  | @cons t t' ts ts' htoken htail ih =>
      by_cases hkind : t.kind = .eof
      · obtain rfl := (hsame.upToSeparator htoken).resolve_right fun hsep => by
          rw [hkind] at hsep
          exact absurd hsep.1 (by decide)
        exact ⟨[], [], t', ts, ts', rfl, rfl, hkind, by simp, .nil⟩
      · obtain ⟨us, us', last, rest, rest', rfl, rfl, hlast, hus, hfront⟩ :=
          ih (by simpa [hkind] using hend)
        exact ⟨t :: us, t' :: us', last, rest, rest', rfl, rfl, hlast, by simpa [hkind] using hus,
          .cons htoken hfront⟩

theorem parse_alongside (hsame : Coarsens same) (h : List.Forall₂ same tokens tokens')
    (hend : ∃ t ∈ tokens, t.kind = .eof) :
    (parse tokens').statements = (parse tokens).statements ∧
      List.Forall₂ (fun e e' => same e.token e'.token ∧ e'.cause = e.cause)
        (parse tokens).errors (parse tokens').errors := by
  obtain ⟨us, us', last, rest, rest', rfl, rfl, hlast, hus, hfront⟩ :=
    exists_first_end_both hsame h hend
  obtain ⟨r, hr, hnone⟩ := exists_reading (show us ++ last :: rest ≠ [] by simp) #[]
  obtain ⟨r', hr', hnone'⟩ := exists_reading (show us' ++ last :: rest' ≠ [] by simp) #[]
  have hinside : (alongside hsame last rest rest' hlast).Inside (us.length + 1) r r' := by
    refine ⟨?_, ⟨[], by simp [hnone', alongside], by simp [hnone]⟩, ?_⟩
    · rw [hr, hr']
      exact abreast_alongside hsame hlast hfront hus
    · rw [hr, List.length_append, List.length_cons]
      change _ ≤ us.length + 1 + rest.length
      omega
  have hlimit := length_lt_of_tokens hr
  have hlimit' : us.length < r'.tokens.length + 1 := hfront.length_eq ▸ length_lt_of_tokens hr'
  obtain ⟨statements, final, hread, final', hread', es, hes, herrors⟩ := program_together id
    (g := id) (h := id) (fun a s => by rw [alongside, Stmt.renumber_id]; rfl) (fun a => rfl) hlimit
    hlimit' (.statement hlimit hlimit') #[] (.inl hinside)
  rw [← hr, ← hr', parse_of_program hnone hread, parse_of_program hnone' hread']
  refine ⟨rfl, ?_⟩
  rw [hes]
  exact herrors.imp fun e e' he => ⟨he.token, by simpa [alongside] using he.cause⟩

/-! ## Places of errors -/

theorem parse_renumber (f : Nat → Nat) (hend : ∃ t ∈ tokens, t.kind = .eof) :
    (parse (tokens.map (Token.renumber f))).errors =
      (parse tokens).errors.map (SyntaxError.renumber f) := by
  obtain ⟨us, last, rest, rfl, hlast, hus⟩ := exists_first_end hend
  obtain ⟨r, hr, hnone⟩ := exists_reading (show us ++ last :: rest ≠ [] by simp) #[]
  obtain ⟨r', hr', hnone'⟩ := exists_reading
    (show (us ++ last :: rest).map (Token.renumber f) ≠ [] by simp) #[]
  have hlimit := length_lt_of_tokens hr
  have hlimit' : us.length < r'.tokens.length + 1 := by
    rw [hr', List.length_map, ← hr]
    exact hlimit
  obtain ⟨statements, final, hread, final', hread', herrors⟩ := program_moved f hus hlast hr
    (hr'.trans (congrArg _ hr.symm)) hnone hlimit hlimit' hlimit hlimit' #[]
  rw [← hr', ← hr, parse_of_program hnone hread, parse_of_program hnone' hread', herrors, hnone']
  rfl

def numbered (tokens : List Token) : List Token :=
  tokens.mapIdx fun i t => t.renumber fun _ => i

def errorPlaces (tokens : List Token) : List Nat :=
  (parse (numbered tokens)).errors.map (·.token.line)

@[simp] theorem length_numbered (tokens : List Token) : (numbered tokens).length = tokens.length :=
  List.length_mapIdx

theorem getElem_numbered {i : Nat} (hi : i < tokens.length) (h : i < (numbered tokens).length) :
    (numbered tokens)[i] = tokens[i].renumber fun _ => i :=
  List.getElem_mapIdx

theorem exists_kind_numbered {k : Kind} (h : ∃ t ∈ tokens, t.kind = k) :
    ∃ t ∈ numbered tokens, t.kind = k := by
  obtain ⟨t, ht, hkind⟩ := h
  obtain ⟨i, hi, rfl⟩ := List.getElem_of_mem ht
  have hi' : i < (numbered tokens).length := by simpa using hi
  refine ⟨(numbered tokens)[i], List.getElem_mem hi', ?_⟩
  rw [getElem_numbered hi]
  exact hkind

theorem renumber_numbered (tokens : List Token) : (numbered tokens).map
    (Token.renumber fun i => (tokens[i]?.map Token.line).getD 0) = tokens := by
  apply List.ext_getElem
  · simp
  · intro i hi hi'
    rw [List.getElem_map, getElem_numbered hi']
    simp [Token.renumber, hi']

/-- The token of an error is the one at its place. -/
theorem token_of_errorPlaces (hend : ∃ t ∈ tokens, t.kind = .eof) :
    (parse tokens).errors.map (fun e => some e.token) = (errorPlaces tokens).map (tokens[·]?) := by
  conv_lhs => rw [← renumber_numbered tokens]
  rw [parse_renumber _ (exists_kind_numbered hend), errorPlaces, List.map_map, List.map_map]
  apply List.map_congr_left
  intro e he
  obtain ⟨i, hi, htoken⟩ := List.getElem_of_mem ((parse_keeps (numbered tokens)).2 e he).1
  rw [length_numbered] at hi
  rw [getElem_numbered hi] at htoken
  simp [SyntaxError.renumber, ← htoken, Token.renumber, hi]

/-! ## Separators -/

theorem coarsens_upToSeparator : Coarsens Token.UpToSeparator where
  refl _ := .inl rfl
  upToSeparator := id

theorem coarsens_inPlace : Coarsens fun t t' => t.UpToSeparator t' ∧ t'.line = t.line where
  refl _ := ⟨.inl rfl, rfl⟩
  upToSeparator := And.left

theorem numbered_alongside (h : List.Forall₂ Token.UpToSeparator tokens tokens') :
    List.Forall₂ (fun t t' => t.UpToSeparator t' ∧ t'.line = t.line) (numbered tokens)
      (numbered tokens') := by
  obtain ⟨hlength, hget⟩ := List.forall₂_iff_get.mp h
  refine List.forall₂_iff_get.mpr ⟨by simpa using hlength, fun i hi hi' => ?_⟩
  rw [length_numbered] at hi hi'
  rw [List.get_eq_getElem, List.get_eq_getElem, getElem_numbered hi, getElem_numbered hi']
  refine ⟨?_, rfl⟩
  rcases hget i hi hi' with heq | hsep
  · exact .inl (congrArg (Token.renumber fun _ => i) heq)
  · exact .inr hsep

/-- Where some separators of a list are replaced by others, whatever is on them, the same statements
are read, and the same errors are found at the same places. -/
theorem parse_upToSeparators (hend : ∃ t ∈ tokens, t.kind = .eof)
    (h : List.Forall₂ Token.UpToSeparator tokens tokens') :
    (parse tokens').statements = (parse tokens).statements ∧
      (parse tokens').errors.map (·.cause.message) = (parse tokens).errors.map (·.cause.message) ∧
      errorPlaces tokens' = errorPlaces tokens ∧
      ∀ ts ∈ [tokens, tokens'],
        (parse ts).errors.map (fun e => some e.token) = (errorPlaces ts).map (ts[·]?) := by
  have hend' : ∃ t ∈ tokens', t.kind = .eof := by
    obtain ⟨us, us', last, rest, rest', -, rfl, hlast, -⟩ :=
      exists_first_end_both coarsens_upToSeparator h hend
    exact ⟨last, by simp, hlast⟩
  obtain ⟨hstatements, herrors⟩ := parse_alongside coarsens_upToSeparator h hend
  obtain ⟨-, hplaces⟩ := parse_alongside coarsens_inPlace (numbered_alongside h)
    (exists_kind_numbered hend)
  have hmap : ∀ {β : Type} {g : SyntaxError → β} {es es' : List SyntaxError},
      List.Forall₂ (fun e e' => g e' = g e) es es' → es'.map g = es.map g := by
    intro β g es es' h
    rw [eq_comm, ← List.forall₂_eq_eq_eq, List.forall₂_map_left_iff, List.forall₂_map_right_iff]
    exact h.imp fun _ _ => Eq.symm
  refine ⟨hstatements, hmap (herrors.imp fun e e' he => ?_),
    hmap (hplaces.imp fun e e' he => ?_), ?_⟩
  · rw [he.2]
  · exact he.1.2
  · rw [List.forall_mem_cons, List.forall_mem_singleton]
    exact ⟨token_of_errorPlaces hend, token_of_errorPlaces hend'⟩

/-- The group is not closed where its line ends, whichever separator ends it. -/
theorem parse_upToSeparators_open_group :
    let x : Token := ⟨.identifier, "x", none, 1⟩
    let newline : Token := ⟨.newline, "\n", none, 1⟩
    let semicolon : Token := ⟨.semicolon, ";", none, 1⟩
    let tokens : List Token := [⟨.leftParen, "(", none, 1⟩, x, newline, x, semicolon, .eof 1]
    let tokens' : List Token := [⟨.leftParen, "(", none, 1⟩, x, semicolon, x, newline, .eof 1]
    (∃ t ∈ tokens, t.kind = .eof) ∧ List.Forall₂ Token.UpToSeparator tokens tokens' ∧
      (parse tokens').statements = [.expr (.var x)] ∧
      (parse tokens').errors.map (·.cause.message) = ["Expect ')' after expression."] ∧
      errorPlaces tokens' = [2] ∧
      (parse tokens').errors.map (fun e => some e.token) = [some semicolon] := by
  intro x newline semicolon tokens tokens'
  have hend : ∃ t ∈ tokens, t.kind = .eof := ⟨.eof 1, by decide, rfl⟩
  have hswapped : List.Forall₂ Token.UpToSeparator tokens tokens' :=
    .cons (.inl rfl) (.cons (.inl rfl) (.cons (.inr ⟨rfl, rfl⟩) (.cons (.inl rfl)
      (.cons (.inr ⟨rfl, rfl⟩) (.cons (.inl rfl) .nil)))))
  obtain ⟨hstatements, hmessages, hplaces, htokens⟩ := parse_upToSeparators hend hswapped
  have hparse : parse tokens = ⟨[.expr (.var x)], [⟨newline, .closingGroup⟩]⟩ := by
    simp only [tokens, x, newline, semicolon]
    rfl
  have hplace : errorPlaces tokens = [2] := by
    simp only [tokens, x, newline, semicolon]
    rfl
  have hfound := htokens tokens' (by simp)
  rw [hplaces, hplace] at hfound
  rw [hparse] at hstatements hmessages
  exact ⟨hend, hswapped, hstatements, hmessages, hplaces.trans hplace, hfound⟩

end Grammar

end Scriptlet
