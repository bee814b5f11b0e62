import Stencil.Proofs.Script.Scanning

/-! # Blanks and comments

What stands between two tokens is a gap: blanks and complete comments. A comment that runs to the
end of its line is complete at the line break, or where the script ends. The lexer skips a gap if
and only if neither a blank nor a comment begins behind it, whatever the offset.
-/

namespace Stencil.Script

open List Text

/-- Blanks and comments. The last comment may lack its line break if `atEnd` holds. -/
inductive Gap (atEnd : Prop) : List Char → Prop where
  | nil : Gap atEnd []
  | blank {c rest} (isBlank : isBlank c = true) (more : Gap atEnd rest) : Gap atEnd (c :: rest)
  | line {body rest} (inside : '\n' ∉ body) (ended : rest.head? = some '\n' ∨ rest = [] ∧ atEnd)
      (more : Gap atEnd rest) : Gap atEnd ('/' :: '/' :: (body ++ rest))
  | block {body rest} (inside : ¬ ['*', '/'] <:+: body) (more : Gap atEnd rest) :
      Gap atEnd ('/' :: '*' :: (body ++ '*' :: '/' :: rest))

/-- Neither a blank nor a comment begins here. -/
def Solid : List Char → Prop
  | [] => True
  | c :: cs =>
    isBlank c = false ∧ (c = '/' → cs.head?.any (fun d => d == '/' || d == '*') = false)

/-- What the lexer notes of a gap. -/
def Trivia.of (gap : List Char) : Trivia :=
  ⟨gap.length, gap.any (· == '\n')⟩

theorem Trivia.of_cons (c gap) : of (c :: gap) = (of gap).more c := by
  simp [of, more, Bool.or_comm]

namespace Gap

theorem mono (h : Gap atEnd gap) (le : atEnd → atEnd') : Gap atEnd' gap := by
  induction h with
  | nil => exact .nil
  | blank isBlank _ ih => exact .blank isBlank ih
  | line inside ended _ ih => exact .line inside (ended.imp_right fun h => ⟨h.1, le h.2⟩) ih
  | block inside _ ih => exact .block inside ih

theorem append (h : Gap False gap) (h' : Gap atEnd rest) : Gap atEnd (gap ++ rest) := by
  induction h with
  | nil => exact h'
  | blank isBlank _ ih => exact .blank isBlank ih
  | @line body more inside ended _ ih =>
    have first : more.head? = some '\n' := ended.resolve_right fun h => h.2
    rw [cons_append, cons_append, append_assoc]
    exact .line inside (.inl (by rw [head?_append, first]; rfl)) ih
  | @block body more inside _ ih =>
    rw [cons_append, cons_append, append_assoc]
    exact .block inside ih

theorem of_blank (isBlank : ∀ c ∈ gap, isBlank c = true) : Gap atEnd gap := by
  induction gap with
  | nil => exact .nil
  | cons c gap ih =>
    obtain ⟨first, others⟩ := forall_mem_cons.mp isBlank
    exact .blank first (ih others)

/-- A gap before a token does not end with a backslash. -/
theorem getLast?_ne (h : Gap False gap) : gap.getLast? ≠ some '\\' := by
  induction h with
  | nil => simp
  | @blank c rest isBlank _ ih =>
    rw [getLast?_cons]
    cases last : rest.getLast? with
    | none =>
      rintro ⟨⟩
      exact absurd isBlank (by decide)
    | some d => rwa [last] at ih
  | @line body rest _ ended _ ih =>
    obtain ⟨rest, rfl⟩ := head?_eq_some_iff.mp (ended.resolve_right fun h => h.2)
    simpa [getLast?_cons] using ih
  | @block body rest _ _ ih =>
    cases last : rest.getLast? with
    | none => simp [getLast?_cons, last]
    | some d => simpa [getLast?_cons, last] using ih

end Gap

/-! ## What is skipped -/

theorem ne_slash_of_blank (blank : isBlank c = true) : c ≠ '/' := by
  rintro rfl
  exact absurd blank (by decide)

/-- Before a character that begins no comment, blanks are skipped one by one. -/
theorem skipTrivia_cons
    (noComment : c = '/' → cs.head?.any (fun d => d == '/' || d == '*') = false) :
    skipTrivia pos .blank (c :: cs) =
      if isBlank c then do return (← skipTrivia (pos + c.utf8Size) .blank cs).more c
      else return ⟨0, false⟩ := by
  rw [skipTrivia.eq_def]
  split
  iterate 2
    next same =>
      obtain ⟨rfl, rfl⟩ := List.cons.inj same
      cases noComment rfl
  next same =>
    obtain ⟨rfl, rfl⟩ := List.cons.inj same
    rfl
  all_goals simp_all

theorem skipTrivia_blank_cons (blank : isBlank c = true) :
    skipTrivia pos .blank (c :: cs) =
      (do return (← skipTrivia (pos + c.utf8Size) .blank cs).more c) := by
  rw [skipTrivia_cons fun slash => absurd slash (ne_slash_of_blank blank), if_pos blank]

theorem skipTrivia_solid (pos) (solid : isBlank c = false)
    (noComment : c = '/' → cs.head?.any (fun d => d == '/' || d == '*') = false) :
    skipTrivia pos .blank (c :: cs) = .ok ⟨0, false⟩ := by
  rw [skipTrivia_cons noComment, if_neg (by simp [solid])]
  rfl

theorem Solid.skipTrivia (solid : Solid cs) (pos) : skipTrivia pos .blank cs = .ok ⟨0, false⟩ := by
  cases cs with
  | nil => rfl
  | cons c cs => exact skipTrivia_solid pos solid.1 solid.2

theorem skipTrivia_line (inside : '\n' ∉ body) (ended : rest.head? = some '\n' ∨ rest = [])
    (run : ∀ pos, skipTrivia pos .blank rest = .ok (.of gap)) :
    skipTrivia pos .lineComment (body ++ rest) = .ok (.of (body ++ gap)) := by
  induction body generalizing pos with
  | nil =>
    rcases ended with first | rfl
    · obtain ⟨rest, rfl⟩ := head?_eq_some_iff.mp first
      exact (skipTrivia_blank_cons rfl).symm.trans (run pos)
    · exact run pos
  | cons c body ih =>
    obtain ⟨other, inside⟩ := not_or.mp (mem_cons.not.mp inside)
    have goesOn : (if c == '\n' then TriviaMode.blank else .lineComment) = .lineComment :=
      if_neg (by simpa using Ne.symm other)
    rw [cons_append, cons_append, Trivia.of_cons]
    show (do return (← skipTrivia _ (if c == '\n' then .blank else .lineComment) _).more c) = _
    rw [goesOn, ih inside]
    rfl

theorem skipTrivia_block (inside : ¬ ['*', '/'] <:+: body)
    (run : ∀ pos, skipTrivia pos .blank rest = .ok (.of gap)) :
    skipTrivia pos (.blockComment start) (body ++ '*' :: '/' :: rest) =
      .ok (.of (body ++ '*' :: '/' :: gap)) := by
  induction body generalizing pos with
  | nil =>
    show (do return ((← skipTrivia (pos + 2) .blank rest).more '/').more '*') = _
    rw [run, nil_append, Trivia.of_cons, Trivia.of_cons]
    rfl
  | cons c body ih =>
    have noClose : ∀ ds, c = '*' → body ++ '*' :: '/' :: rest = '/' :: ds → False := by
      rintro ds rfl slash
      cases body with
      | nil => cases slash
      | cons d body =>
        obtain rfl : d = '/' := (List.cons.inj slash).1
        exact inside ⟨[], body, rfl⟩
    have later := fun pos => @ih pos fun within => inside (within.trans (suffix_cons c body).isInfix)
    rw [skipTrivia.eq_def]
    split <;> simp_all [Trivia.of_cons]

/-- A gap is skipped up to what is solid. -/
theorem Gap.skipTrivia {after} (h : Gap (after = []) gap) (solid : Solid after) (pos) :
    skipTrivia pos .blank (gap ++ after) = .ok (.of gap) := by
  induction h generalizing pos with
  | nil => exact solid.skipTrivia pos
  | blank isBlank _ ih =>
    rw [cons_append, skipTrivia_blank_cons isBlank, ih, Trivia.of_cons]
    rfl
  | @line body rest inside ended _ ih =>
    have behind : (rest ++ after).head? = some '\n' ∨ rest ++ after = [] := by
      rcases ended with first | ⟨rfl, rfl⟩
      · exact .inl (by rw [head?_append, first]; rfl)
      · exact .inr rfl
    rw [cons_append, cons_append, append_assoc]
    show (do return ((← Script.skipTrivia (pos + 2) .lineComment _).more '/').more '/') = _
    rw [skipTrivia_line inside behind ih, Trivia.of_cons, Trivia.of_cons]
    rfl
  | @block body rest inside _ ih =>
    rw [cons_append, cons_append, append_assoc, cons_append, cons_append]
    show (do return ((← Script.skipTrivia (pos + 2) (.blockComment pos) _).more '*').more '/') = _
    rw [skipTrivia_block inside ih, Trivia.of_cons, Trivia.of_cons]
    rfl

/-- The rest of a gap inside of which a comment may be open. -/
def Gap.Rest (atEnd : Prop) : TriviaMode → List Char → Prop
  | .blank, gap => Gap atEnd gap
  | .lineComment, gap => ∃ body rest, gap = body ++ rest ∧ '\n' ∉ body ∧
      (rest.head? = some '\n' ∨ rest = [] ∧ atEnd) ∧ Gap atEnd rest
  | .blockComment _, gap => ∃ body rest, gap = body ++ '*' :: '/' :: rest ∧
      ¬ ['*', '/'] <:+: body ∧ Gap atEnd rest

theorem ok_of_more {x : Except SyntaxError Trivia} {f : Trivia → Trivia}
    (run : (do return f (← x)) = Except.ok t) : ∃ u, x = .ok u ∧ f u = t := by
  obtain ⟨u, inner, ok⟩ := ok_of_bind run
  exact ⟨u, inner, Except.ok.inj ok⟩

theorem gap_of_skipTrivia (run : skipTrivia pos mode cs = .ok t) :
    ∃ gap after, cs = gap ++ after ∧ t = .of gap ∧ Gap.Rest (after = []) mode gap ∧ Solid after := by
  fun_induction skipTrivia pos mode cs generalizing t with
  | case1 pos cs ih =>
    obtain ⟨_, inner, rfl⟩ := ok_of_more run
    obtain ⟨_, after, rfl, rfl, ⟨body, rest, rfl, inside, ended, more⟩, solid⟩ := ih inner
    exact ⟨_, after, by simp, by rw [Trivia.of_cons, Trivia.of_cons], .line inside ended more, solid⟩
  | case2 pos cs ih =>
    obtain ⟨_, inner, rfl⟩ := ok_of_more run
    obtain ⟨_, after, rfl, rfl, ⟨body, rest, rfl, inside, more⟩, solid⟩ := ih inner
    exact ⟨_, after, by simp, by rw [Trivia.of_cons, Trivia.of_cons], .block inside more, solid⟩
  | case3 pos c cs noLine noBlock blank ih =>
    obtain ⟨_, inner, rfl⟩ := ok_of_more run
    obtain ⟨gap, after, rfl, rfl, more, solid⟩ := ih inner
    exact ⟨c :: gap, after, rfl, (Trivia.of_cons ..).symm, .blank blank more, solid⟩
  | case4 pos c cs noLine noBlock solid =>
    cases run
    refine ⟨[], c :: cs, rfl, rfl, .nil, by simpa using solid, fun slash => ?_⟩
    cases cs with
    | nil => rfl
    | cons d cs =>
      have line : d ≠ '/' := fun eq => noLine cs slash (by rw [eq])
      have block : d ≠ '*' := fun eq => noBlock cs slash (by rw [eq])
      simp [line, block]
  | case5 pos =>
    cases run
    exact ⟨[], [], rfl, rfl, .nil, trivial⟩
  | case6 pos c cs mode =>
    rename_i ih
    obtain ⟨_, inner, rfl⟩ := ok_of_more run
    obtain ⟨gap, after, rfl, rfl, more, solid⟩ := ih inner
    refine ⟨c :: gap, after, rfl, (Trivia.of_cons ..).symm, ?_, solid⟩
    by_cases break_ : c = '\n'
    · subst break_
      exact ⟨[], '\n' :: gap, rfl, by simp, .inl rfl, .blank rfl more⟩
    · obtain ⟨body, rest, rfl, inside, ended, more⟩ : Gap.Rest _ .lineComment gap := by
        simpa [mode, break_] using more
      exact ⟨c :: body, rest, rfl, by simp [Ne.symm break_, inside], ended, more⟩
  | case7 pos =>
    cases run
    exact ⟨[], [], rfl, rfl, ⟨[], [], rfl, by simp, .inr ⟨rfl, rfl⟩, .nil⟩, trivial⟩
  | case8 pos start cs ih =>
    obtain ⟨_, inner, rfl⟩ := ok_of_more run
    obtain ⟨gap, after, rfl, rfl, more, solid⟩ := ih inner
    exact ⟨'*' :: '/' :: gap, after, rfl, by rw [Trivia.of_cons, Trivia.of_cons],
      ⟨[], gap, rfl, by simp, more⟩, solid⟩
  | case9 pos start c cs noClose ih =>
    obtain ⟨_, inner, rfl⟩ := ok_of_more run
    obtain ⟨_, after, rfl, rfl, ⟨body, rest, rfl, inside, more⟩, solid⟩ := ih inner
    refine ⟨_, after, by simp, (Trivia.of_cons ..).symm, ⟨c :: body, rest, rfl, ?_, more⟩, solid⟩
    intro within
    rcases infix_cons_iff.mp within with front | later
    · obtain ⟨rfl, body, rfl⟩ := cons_prefix_cons.mp front
      exact noClose _ rfl rfl
    · exact inside later
  | case10 pos start => cases run

theorem skipTrivia_at (run : skipTrivia pos .blank cs = .ok t) (pos') :
    skipTrivia pos' .blank cs = .ok t := by
  obtain ⟨gap, after, rfl, rfl, more, solid⟩ := gap_of_skipTrivia run
  exact more.skipTrivia solid pos'

/-- What the lexer skips before a token, or before the end. -/
theorem skipTrivia_eq_ok {after} {newline} :
    skipTrivia pos .blank (gap ++ after) = .ok ⟨gap.length, newline⟩ ↔
      Gap (after = []) gap ∧ Solid after ∧ newline = gap.any (· == '\n') := by
  constructor
  · intro run
    obtain ⟨gap', after', split, same, more, solid⟩ := gap_of_skipTrivia run
    obtain ⟨length, newline⟩ := Trivia.mk.inj same
    obtain ⟨rfl, rfl⟩ := append_inj split length
    exact ⟨more, solid, newline⟩
  · rintro ⟨more, solid, rfl⟩
    exact more.skipTrivia solid pos

theorem skipTrivia_end_eq_ok :
    skipTrivia pos .blank gap = .ok ⟨gap.length, newline⟩ ↔
      Gap True gap ∧ newline = gap.any (· == '\n') := by
  have whole := @skipTrivia_eq_ok pos gap [] newline
  simpa [Solid] using whole

theorem IsName.solid (isName : IsName name) (after) : Solid (name ++ after) := by
  obtain ⟨c, more, rfl, start, -⟩ := isName
  obtain ⟨solid, noSlash⟩ := solid_of_isNameStart start
  exact ⟨solid, fun slash => absurd slash noSlash⟩

/-! ## In a script that was written into -/

theorem Solid.weave (solid : Solid cs) (seated : Seated m before pos cs) :
    Solid (weave m pos cs) := by
  cases cs with
  | nil => trivial
  | cons c cs =>
    cases mark : m pos with
    | none =>
      rw [weave_cons_none mark]
      refine ⟨solid.1, fun slash => ?_⟩
      rw [seated.2.any_head_weave, solid.2 slash]
      intro d start
      simp only [Bool.or_eq_false_iff, beq_eq_false_iff_ne]
      constructor <;> rintro rfl <;> exact absurd start (by decide)
    | some k =>
      obtain ⟨start, _, named⟩ := seated.1 k mark
      obtain ⟨d, ds, text, dStart⟩ := k.text_begins named
      obtain ⟨dSolid, noSlash⟩ := solid_of_isNameStart dStart
      simp only [weave_cons, mark, Option.elim_some, text]
      exact ⟨dSolid, fun slash => absurd slash noSlash⟩

/-- The trivia before a token is skipped in a script that was written into behind it. -/
theorem skipTrivia_weave {after} (run : skipTrivia pos .blank (gap ++ after) = .ok ⟨gap.length, newline⟩)
    (seated : Seated m before pos (gap ++ after)) (pos') :
    skipTrivia pos' .blank (gap ++ weave m (pos + bytes gap) after) = .ok ⟨gap.length, newline⟩ := by
  obtain ⟨more, solid, breaks⟩ := skipTrivia_eq_ok.mp run
  refine skipTrivia_eq_ok.mpr ⟨more.mono ?_, solid.weave (seated_append.mp seated).2, breaks⟩
  rintro rfl
  rfl

end Stencil.Script
