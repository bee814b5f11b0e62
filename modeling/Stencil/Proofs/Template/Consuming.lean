import Mathlib.Logic.Function.Iterate
import Stencil.Proofs.Template.Places

/-! # Every template is read to its end

Each step of the reader reads something, except where the innermost open element ends: at the end of
the template, or before an end tag that names an open element. Such an end tag closes the innermost
element that it names, and the elements inside of that one have no end tag.
-/

namespace Stencil

open List Text Reading

/-- Something was read. -/
def Input.Advances (i j : Input) : Prop :=
  i.Reaches j ∧ j.rest.length < i.rest.length

/-! ## Attributes -/

/-- Brackets in a name are read up to their end, and the name goes on behind them. -/
theorem attributeNameLength_true (cs) : ∃ read rest, cs = read ++ rest ∧
    attributeNameLength true cs = read.length + attributeNameLength false rest := by
  induction cs with
  | nil => exact ⟨[], [], rfl, rfl⟩
  | cons c cs ih =>
    by_cases ends : c = '>'
    · exact ⟨[], c :: cs, rfl, by simp [attributeNameLength, ends]⟩
    by_cases closes : c = ']'
    · exact ⟨[c], cs, rfl, by simp [attributeNameLength, closes, Nat.add_comm]⟩
    obtain ⟨read, rest, rfl, length⟩ := ih
    refine ⟨c :: read, rest, rfl, ?_⟩
    have stays : (c != ']') = true := by simpa using closes
    simp only [attributeNameLength, ends, stays, ↓reduceIte, length_cons]
    omega

/-- Unless it ends here, a name goes on behind the brackets or the character that come next. -/
theorem attributeNameLength_false (cs)
    (inside : (isBlank c || c = '/' || c = '>' || c = '=') = false) :
    ∃ read rest, c :: cs = read ++ rest ∧ read ≠ [] ∧
      attributeNameLength false (c :: cs) = read.length + attributeNameLength false rest := by
  by_cases bracket : c = '['
  · obtain ⟨read, rest, rfl, length⟩ := attributeNameLength_true cs
    refine ⟨c :: read, rest, rfl, by simp, ?_⟩
    simp [attributeNameLength, bracket, length, Nat.add_right_comm]
  · refine ⟨[c], cs, rfl, by simp, ?_⟩
    simp [attributeNameLength, bracket, inside, Nat.add_comm]

theorem Input.Advances.behindBlank {i j : Input} (h : i.skipBlank.Advances j) : i.Advances j :=
  ⟨i.reaches_skipBlank.trans h.1, Nat.lt_of_lt_of_le h.2 i.length_skipBlank⟩

/-- Unless they end here, attributes are read on behind an attribute or a slash. -/
theorem readAttributes_goesOn (earlier) {i : Input} (more : ¬endsAttributes i.skipBlank.rest) :
    ∃ j earlier', i.Advances j ∧
      (readAttributes earlier i).input = (readAttributes earlier' j).input ∧
      (readAttributes earlier i).attributes = (readAttributes earlier' j).attributes := by
  have pos := length_pos_of_not_endsAttributes more
  have slash : i.skipBlank.Advances (i.skipBlank.skip 1) :=
    ⟨i.skipBlank.reaches_skip 1, by rw [Input.length_skip]; omega⟩
  have named : i.skipBlank.Advances (readAttribute i.skipBlank).input :=
    ⟨reaches_readAttribute _, length_readAttribute _ (length_pos_iff.mp pos)⟩
  rw [readAttributes, dif_neg more]
  split
  · exact ⟨_, earlier, slash.behindBlank, rfl, rfl⟩
  · dsimp only
    split <;> exact ⟨_, _, named.behindBlank, rfl, rfl⟩

/-! ## Markup -/

namespace Reading

variable {s : Reading}

/-- An end tag begins here that names an open element. -/
structure AtEndTag (s : Reading) : Prop where
  opens : ∃ c rest, s.input.rest = '<' :: '/' :: c :: rest ∧ isAsciiLetter c = true
  names : ∃ el ∈ s.stack, s.endsHere el = true

/-- Nothing more is read inside of the innermost open element. -/
def Leaves (s : Reading) : Prop :=
  s.input.rest = [] ∨ s.AtEndTag

theorem endsHere_iff (here : s.input.rest = '<' :: '/' :: rest) :
    s.endsHere el = sameIgnoringCase el.element.tag (endTagName s.input) := by
  simp [endsHere, here, beginsWith, after?, sameIgnoringCase, BEq.comm]

theorem step_of_leaves (h : s.Leaves) : s.step o = s.close o := by
  obtain empty | ⟨⟨c, rest, here, letter⟩, names⟩ := h
  · rw [step, empty]
  · have noEnd : c ≠ '>' := by
      rintro rfl
      cases letter
    have names : s.stack.any (fun el => sameIgnoringCase el.element.tag (endTagName s.input)) := by
      simpa [endsHere_iff here] using names
    unfold step
    split <;> grind

theorem step_reaches (h : ¬s.Leaves) :
    s.input.Reaches (s.step o).input ∧ s.stack <:+ (s.step o).stack := by
  have same : s.stack <:+ s.stack := suffix_refl _
  have reads (n : Nat) := s.input.reaches_skip n
  have content : s.input.Reaches (s.content o).input ∧ s.stack <:+ (s.content o).stack := by
    unfold Reading.content interpolation
    dsimp only
    split
    · split <;> exact ⟨reads _, same⟩
    · exact ⟨reads _, same⟩
  unfold step
  split
  next empty => exact absurd (.inl empty) h
  · exact ⟨reads 3, same⟩
  next rest _ here =>
    split
    next letter =>
      split
      next names =>
        obtain ⟨c, first, letter⟩ := (Option.any_eq_true _ _).mp letter
        obtain ⟨rest, rfl⟩ := head?_eq_some_iff.mp first
        obtain ⟨el, member, same⟩ := any_eq_true.mp names
        exact absurd (.inr ⟨⟨c, rest, here, letter⟩, el, member, (endsHere_iff here).trans same⟩) h
      · exact ⟨reaches_skipEndTag s.input, same⟩
    · exact ⟨reads _, same⟩
  · unfold comment
    dsimp only
    split <;> exact ⟨reads _, same⟩
  · exact ⟨reads _, same⟩
  · split
    · unfold startTag
      dsimp only
      split
      · exact ⟨((reads _).trans (reaches_readAttributes ..)).skip _, same⟩
      · exact ⟨((reads _).trans (reaches_readAttributes ..)).skip _, suffix_cons ..⟩
    · exact content
  · exact content

theorem step_advances (h : ¬s.Leaves) :
    s.input.Advances (s.step o).input ∧ s.stack <:+ (s.step o).stack := by
  obtain ⟨reaches, stack⟩ := step_reaches (o := o) h
  have shrinks := size_step o (s := s) fun done => h (.inl (isEmpty_iff.mp done.1))
  have grows := stack.length_le
  refine ⟨⟨reaches, ?_⟩, stack⟩
  unfold size at shrinks
  omega

/-- The elements inside of the innermost one that ends here lack their end tags. -/
theorem iterate_step {inner} (at_ : s.AtEndTag) (stack : s.stack = inner ++ el :: outer)
    (others : ∀ e ∈ inner, s.endsHere e = false) (ends : s.endsHere el = true) :
    ∃ children, (step o)^[inner.length + 1] s = {
      input := (skipEndTag s.input).1
      nodes := .element { el.element with
        span := ⟨el.element.span.start, (skipEndTag s.input).1.pos⟩ } children :: el.before
      stack := outer
      diagnostics := s.diagnostics ++ inner.map (fun e => .error .missingEndTag e.element.span) ++
        (skipEndTag s.input).2 } := by
  induction inner generalizing s with
  | nil =>
    rw [length_nil, Function.iterate_one, step_of_leaves (.inr at_), close]
    simp [stack, ends]
  | cons e inner ih =>
    have lacks := others e mem_cons_self
    have closed : s.step o = s.close o := step_of_leaves (.inr at_)
    have input : (s.step o).input = s.input := by simp [closed, close, stack, lacks]
    have inside : (s.step o).stack = inner ++ el :: outer := by simp [closed, close, stack]
    have reported : (s.step o).diagnostics =
        s.diagnostics ++ [.error .missingEndTag e.element.span] := by
      simp [closed, close, stack, lacks]
    have same (e : OpenElement) : (s.step o).endsHere e = s.endsHere e := by
      rw [endsHere, input, endsHere]
    obtain ⟨children, run⟩ := @ih (s.step o) ⟨input ▸ at_.opens, el, by simp [inside], (same el).trans ends⟩
      inside (fun e member => (same e).trans (others e (mem_cons_of_mem _ member))) ((same el).trans ends)
    rw [length_cons, Function.iterate_succ_apply, run, input, reported]
    simp

theorem run_eq_iterate (o) (s : Reading) : ∃ n, s.run o = (step o)^[n] s := by
  fun_induction run o s with
  | case1 s _ => exact ⟨0, rfl⟩
  | case2 s _ ih =>
    obtain ⟨n, run⟩ := ih
    exact ⟨n + 1, run⟩

theorem input_run (o) (source : String) :
    (run o ⟨⟨0, source.toList⟩, [], [], []⟩).input = ⟨bytes source.toList, []⟩ := by
  have rest (s : Reading) : (s.run o).input.rest = [] := by
    fun_induction run o s with
    | case1 s done => exact isEmpty_iff.mp done.1
    | case2 s _ ih => exact ih
  have start : Placed source.toList ⟨⟨0, source.toList⟩, [], [], []⟩ :=
    ⟨⟨[], rfl, rfl⟩, ⟨by simp, .nil (Nat.le_refl _)⟩, .nil, by simp⟩
  obtain ⟨front, split, pos⟩ := (start.run o).input
  rw [rest, append_nil] at split
  rw [split, pos, ← split, ← rest]

end Reading

/-- Reading ends when nothing is left and no element is open. Until then each step reads something,
    or it closes the innermost open element. An end tag closes the innermost element that it names,
    and what is open inside of that is reported. The loops over the attributes of a tag and over the
    characters of a name read something each time too. -/
theorem readTemplate_consumes (o : Options) (source : String) :
    (∃ n, let s := (step o)^[n] ⟨⟨0, source.toList⟩, [], [], []⟩
      s.input = ⟨bytes source.toList, []⟩ ∧ s.stack = [] ∧
      (readTemplate o source).1.children = o.arrange false s.nodes.reverse ∧
      (readTemplate o source).2 = s.diagnostics) ∧
    (∀ s : Reading, ¬s.Leaves → s.input.Advances (s.step o).input ∧ s.stack <:+ (s.step o).stack) ∧
    (∀ s : Reading, s.Leaves → s.step o = s.close o) ∧
    (∀ s : Reading, s.AtEndTag → ∃ inner el outer, s.stack = inner ++ el :: outer ∧
      s.endsHere el = true ∧ (∀ e ∈ inner, s.endsHere e = false) ∧
      s.input.Advances (skipEndTag s.input).1 ∧ ∃ children, (step o)^[inner.length + 1] s = {
        input := (skipEndTag s.input).1
        nodes := .element { el.element with
          span := ⟨el.element.span.start, (skipEndTag s.input).1.pos⟩ } children :: el.before
        stack := outer
        diagnostics := s.diagnostics ++ inner.map (fun e => .error .missingEndTag e.element.span) ++
          (skipEndTag s.input).2 }) ∧
    (∀ earlier i, ¬endsAttributes i.skipBlank.rest → ∃ j earlier', i.Advances j ∧
      (readAttributes earlier i).input = (readAttributes earlier' j).input ∧
      (readAttributes earlier i).attributes = (readAttributes earlier' j).attributes) ∧
    ∀ c cs, (isBlank c || c = '/' || c = '>' || c = '=') = false →
      ∃ read rest, c :: cs = read ++ rest ∧ read ≠ [] ∧
        attributeNameLength false (c :: cs) = read.length + attributeNameLength false rest := by
  refine ⟨?_, fun s => step_advances, fun s => step_of_leaves, fun s at_ => ?_, fun earlier i => readAttributes_goesOn earlier,
    fun c => attributeNameLength_false⟩
  · obtain ⟨n, run⟩ := run_eq_iterate o ⟨⟨0, source.toList⟩, [], [], []⟩
    refine ⟨n, ?_⟩
    rw [← run]
    exact ⟨input_run o source, stack_run .., rfl, rfl⟩
  · obtain ⟨el, found⟩ := Option.isSome_iff_exists.mp (find?_isSome.mpr at_.names)
    obtain ⟨ends, inner, outer, stack, others⟩ := find?_eq_some_iff_append.mp found
    obtain ⟨c, rest, here, _⟩ := at_.opens
    have others : ∀ e ∈ inner, s.endsHere e = false := by simpa using others
    exact ⟨inner, el, outer, stack, ends, others, ⟨reaches_skipEndTag _, length_skipEndTag_lt here⟩,
      iterate_step at_ stack others ends⟩

end Stencil
