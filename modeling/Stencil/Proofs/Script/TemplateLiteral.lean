import Stencil.Proofs.Script.Scanning

/-! # Template literals

What is open inside a template literal, without the offsets, forms a stack. The rules for one step
over it describe which texts are template literals and where the bodies of such a text are. A
literal that was written into follows the same rules, and its bodies are the old ones with the same
things written into them.
-/

namespace Stencil.Script

open List Text

/-- What is open inside a template literal. -/
inductive Shape where
  | literal
  | body (depth : Nat)
  | string (double : Bool)

def quoteOf (double : Bool) : Char :=
  if double then '"' else '\''

/-- One step over the characters of a literal: what is open before, what is read, the character
    that follows, and what is open afterwards. -/
inductive Step : List Shape → List Char → Option Char → List Shape → Prop where
  | escape {d next fs} : Step (.literal :: fs) ['\\', d] next (.literal :: fs)
  | finish {next fs} : Step (.literal :: fs) ['\x60'] next fs
  | opens {next fs} : Step (.literal :: fs) ['$', '{'] next (.body 0 :: .literal :: fs)
  | written {c next fs} (noEscape : c ≠ '\\') (noEnd : c ≠ '\x60')
      (noBody : c = '$' → next ≠ some '{') : Step (.literal :: fs) [c] next (.literal :: fs)
  | brace {next depth fs} : Step (.body depth :: fs) ['{'] next (.body (depth + 1) :: fs)
  | unbrace {next depth fs} : Step (.body (depth + 1) :: fs) ['}'] next (.body depth :: fs)
  | closes {next fs} : Step (.body 0 :: fs) ['}'] next fs
  | nested {next depth fs} : Step (.body depth :: fs) ['\x60'] next (.literal :: .body depth :: fs)
  | quote {double next depth fs} :
      Step (.body depth :: fs) [quoteOf double] next (.string double :: .body depth :: fs)
  | code {c next depth fs} (other : c ∉ ['{', '}', '\x60', '"', '\'']) :
      Step (.body depth :: fs) [c] next (.body depth :: fs)
  | escapeQuoted {d double next fs} :
      Step (.string double :: fs) ['\\', d] next (.string double :: fs)
  | unquote {double next fs} : Step (.string double :: fs) [quoteOf double] next fs
  | quoted {c double next fs} (noEscape : c ≠ '\\') (other : c ≠ quoteOf double) :
      Step (.string double :: fs) [c] next (.string double :: fs)

/-- A body of a template literal: the text before it and its own. -/
abbrev Cut := List Char × List Char

namespace Cut

def after (x : List Char) (cut : Cut) : Cut :=
  (x ++ cut.1, cut.2)

def range (pos : Nat) (cut : Cut) : Nat × Nat :=
  (pos + bytes cut.1, pos + bytes cut.1 + bytes cut.2)

def woven (m : Marks) (pos : Nat) (cut : Cut) : Cut :=
  (weave m pos cut.1, weave m (pos + bytes cut.1) cut.2)

theorem map_after_nil (cuts : List Cut) : cuts.map (after []) = cuts := by
  induction cuts with
  | nil => rfl
  | cons cut cuts ih => simpa [after] using ih

theorem map_after_map_after (x y) (cuts : List Cut) :
    (cuts.map (after x)).map (after y) = cuts.map (after (y ++ x)) := by
  simp [after]

theorem range_after (x pos) (cut : Cut) : (cut.after x).range pos = cut.range (pos + bytes x) := by
  simp [after, range, Nat.add_assoc]

theorem woven_after (m x pos) (cut : Cut) :
    (cut.after x).woven m pos = (cut.woven m (pos + bytes x)).after (weave m pos x) := by
  simp [after, woven, weave_append, Nat.add_assoc]

end Cut

/-- The rest of a template literal, read where the shapes are open; `part` is what is left of the
    part of the outermost literal that is being read (a body, or literal text with the brace that
    opens the next body), and `cuts` are the bodies behind it. -/
inductive Literal : List Shape → List Char → List Char → List Cut → Prop where
  | done : Literal [.literal] ['\x60'] ['\x60'] []
  | within {fs fs' x rest part cuts} (step : Step fs x rest.head? fs')
      (level : fs.length = 1 ↔ fs'.length = 1) (more : Literal fs' rest part cuts) :
      Literal fs (x ++ rest) (x ++ part) (cuts.map (.after x))
  | opens {rest part cuts} (more : Literal [.body 0, .literal] rest part cuts) :
      Literal [.literal] (['$', '{'] ++ rest) ['$', '{']
        ((['$', '{'], part) :: cuts.map (.after ['$', '{']))
  | closes {rest part cuts} (more : Literal [.literal] rest part cuts) :
      Literal [.body 0, .literal] (['}'] ++ rest) [] (cuts.map (.after ['}']))

namespace Literal

variable (read : Literal fs text part cuts)
include read

theorem getLast? : text.getLast? = some '\x60' := by
  induction read with
  | done => rfl
  | within _ _ _ ih => simp [ih]
  | opens _ ih => rw [getLast?_append, ih, Option.some_or]
  | closes _ ih => rw [getLast?_append, ih, Option.some_or]

theorem ne_nil : ∃ f rest, fs = f :: rest := by
  cases read with
  | done => exact ⟨_, _, rfl⟩
  | within step => cases step <;> exact ⟨_, _, rfl⟩
  | opens => exact ⟨_, _, rfl⟩
  | closes => exact ⟨_, _, rfl⟩

theorem part_prefix : part <+: text := by
  induction read with
  | done => simp
  | within _ _ _ ih => simpa using ih
  | opens _ ih => simp
  | closes _ ih => simp

theorem fits :
    ∀ cut ∈ cuts, cut.1.getLast? = some '{' ∧ cut.1 ++ cut.2 <+: text := by
  have shift : ∀ {x rest : List Char} {cuts : List Cut},
      (∀ cut ∈ cuts, cut.1.getLast? = some '{' ∧ cut.1 ++ cut.2 <+: rest) →
        ∀ cut ∈ cuts.map (Cut.after x), cut.1.getLast? = some
    '{' ∧ cut.1 ++ cut.2 <+: x ++ rest := by
    intro x rest cuts ih cut member
    obtain ⟨old, oldMember, rfl⟩ := mem_map.mp member
    obtain ⟨last, front⟩ := ih old oldMember
    exact ⟨by simp [Cut.after, last], by simpa [Cut.after] using front⟩
  induction read with
  | done => simp
  | within _ _ _ ih => exact shift ih
  | opens more ih =>
    intro cut member
    rcases mem_cons.mp member with rfl | later
    · exact ⟨rfl, by simpa using more.part_prefix⟩
    · exact shift ih cut later
  | closes _ ih => exact shift ih

theorem inOrder :
    (∀ cut ∈ cuts, part <+: cut.1) ∧ cuts.Pairwise fun a b => a.1 ++ a.2 <+: b.1 := by
  have shift : ∀ {x : List Char} {cuts : List Cut},
      (cuts.Pairwise fun a b => a.1 ++ a.2 <+: b.1) →
        (cuts.map (Cut.after x)).Pairwise fun a b => a.1 ++ a.2 <+: b.1 := by
    intro x cuts ih
    rw [pairwise_map]
    exact ih.imp fun h => by simpa [Cut.after] using h
  have behind : ∀ {x part : List Char} {cuts : List Cut}, (∀ cut ∈ cuts, part <+: cut.1) →
      ∀ cut ∈ cuts.map (Cut.after x), x ++ part <+: cut.1 := by
    intro x part cuts ih cut member
    obtain ⟨old, oldMember, rfl⟩ := mem_map.mp member
    simpa [Cut.after] using ih old oldMember
  induction read with
  | done => simp
  | within _ _ _ ih => exact ⟨behind ih.1, shift ih.2⟩
  | opens _ ih =>
    refine ⟨fun cut member => ?_, pairwise_cons.mpr ⟨behind ih.1, shift ih.2⟩⟩
    rcases mem_cons.mp member with rfl | later
    · exact prefix_rfl
    · obtain ⟨old, _, rfl⟩ := mem_map.mp later
      exact prefix_append ..
  | closes _ ih => exact ⟨by simp, shift ih.2⟩

end Literal

/-- A character that does nothing inside a literal. -/
def isInert (c : Char) : Bool :=
  !(['\\', '\x60', '{', '}', '"', '\''].contains c)

theorem Step.inert {f : Shape} {c : Char} {next : Option Char}
    (inert : isInert c = true) (noBrace : next ≠ some '{') : Step (f :: fs) [c] next (f :: fs) := by
  have other : c ∉ ['\\', '\x60', '{', '}', '"', '\''] := by simpa [isInert] using inert
  cases f with
  | literal =>
    apply written
    · rintro rfl
      simp at other
    · rintro rfl
      simp at other
    · exact fun _ => noBrace
  | body depth =>
    apply code
    intro member
    grind
  | string double =>
    apply quoted
    · rintro rfl
      simp at other
    · rintro rfl
      cases double <;> simp [quoteOf] at other

variable {outer : List TemplateFrame} {pos : Nat} {top : TemplateFrame}

/-- Inert text before a literal belongs to the part that is being read. -/
theorem Literal.inert (inert : ∀ c ∈ x, isInert c = true) (plain : x ≠ [] → text.head? ≠ some '{')
    (read : Literal fs text part cuts) :
    Literal fs (x ++ text) (x ++ part) (cuts.map (.after x)) := by
  induction x with
  | nil =>
    rwa [Cut.map_after_nil]
  | cons c x ih =>
    obtain ⟨f, fs, rfl⟩ := read.ne_nil
    have rest := ih (fun d member => inert d (by simp [member])) fun _ => plain (by simp)
    have next : (x ++ text).head? ≠ some '{' := by
      cases x with
      | nil => exact plain (by simp)
      | cons d x =>
        have := inert d (by simp)
        rintro brace
        obtain rfl : d = '{' := by simpa using brace
        revert this
        decide
    have step : Step (f :: fs) [c] (x ++ text).head? (f :: fs) := .inert (inert c (by simp)) next
    have all := within step Iff.rfl rest
    rwa [Cut.map_after_map_after] at all

theorem Mark.inert {k : Mark} (named : k.Named) : ∀ c ∈ k.text, isInert c = true := by
  intro c member
  have : ∀ d ∈ ['\\', '\x60', '{', '}', '"', '\''],
      isNamePart d = false ∧ d ≠ '.' ∧ d ≠ ':' ∧ d ≠ ' ' := forall_of_all (by decide)
  simp only [isInert, Bool.not_eq_true', contains_eq_mem, decide_eq_false_iff_not]
  intro special
  obtain ⟨noPart, noDot, noColon, noSpace⟩ := this c special
  rcases k.text_chars named member with part | rfl | rfl | rfl
  · simp [noPart] at part
  · exact noDot rfl
  · exact noColon rfl
  · exact noSpace rfl

theorem Seated.none_of_not_start (seated : Seated m before pos (c :: cs))
    (other : isNameStart c = false) : m pos = none := by
  cases mark : m pos with
  | none => rfl
  | some k => simp [(seated.1 k mark).1] at other

theorem Seated.none_after_backslash (seated : Seated m (some '\\') pos (c :: cs)) :
    m pos = none := by
  cases mark : m pos with
  | none => rfl
  | some k => exact absurd rfl (seated.1 k mark).2.1

/-- Only the first character that a step reads can be marked. -/
theorem Step.weave_front {next} (step : Step fs x next fs') (seated : Seated m before pos (x ++ rest)) :
    weave m pos x = (m pos).elim [] Mark.text ++ x := by
  have one : ∀ c, weave m pos [c] = (m pos).elim [] Mark.text ++ [c] := fun c => rfl
  have two : ∀ c d, m (pos + c.utf8Size) = none →
      weave m pos [c, d] = (m pos).elim [] Mark.text ++ [c, d] := by
    intro c d second
    rw [weave_cons, weave_cons_none second, weave_nil]
  cases step with
  | escape => exact two _ _ seated.2.none_after_backslash
  | escapeQuoted => exact two _ _ seated.2.none_after_backslash
  | opens => exact two _ _ (seated.2.none_of_not_start (by decide))
  | _ => exact one _

/-- A step sees of the next character only whether it is an opening brace. -/
theorem Step.next {fs' : List Shape} {next next' : Option Char}
    (step : Step fs x next fs') (same : next' = some '{' → next = some '{') :
    Step fs x next' fs' := by
  cases step with
  | written noEscape noEnd noBody =>
    exact .written noEscape noEnd fun dollar brace => noBody dollar (same brace)
  | code other => exact .code other
  | quoted noEscape other => exact .quoted noEscape other
  | _ => constructor

theorem Seated.head_weave_brace (seated : Seated m before pos cs)
    (brace : (weave m pos cs).head? = some '{') : cs.head? = some '{' := by
  rcases seated.head_weave with same | ⟨c, d, _, _, head, start⟩
  · rwa [← same]
  · obtain rfl : d = '{' := by simpa [head] using brace
    exact absurd start (by decide)

/-- A literal that was written into is one with the same bodies, written into. -/
theorem Literal.weave (read : Literal fs text part cuts) (seated : Seated m before pos text) :
    Literal fs (weave m pos text) (weave m pos part) (cuts.map (.woven m pos)) := by
  have shift : ∀ (x : List Char) (pos : Nat) (cuts : List Cut),
      (cuts.map (Cut.after x)).map (Cut.woven m pos) =
        (cuts.map (Cut.woven m (pos + bytes x))).map (Cut.after (Script.weave m pos x)) := by
    simp [Cut.woven_after]
  -- what the first mark writes is inert, as long as a name follows it
  have lead : ∀ {c : Char} {cs : List Char} {before : Option Char} {pos : Nat},
      Seated m before pos (c :: cs) → (∀ d ∈ (m pos).elim [] Mark.text, isInert d = true) ∧
        ((m pos).elim [] Mark.text ≠ [] → c ≠ '{') := by
    intro c cs before pos seated
    cases mark : m pos with
    | none => simp
    | some k =>
      obtain ⟨start, _, named⟩ := seated.1 k mark
      refine ⟨k.inert named, fun _ => ?_⟩
      rintro rfl
      revert start
      decide
  induction read generalizing before pos with
  | done =>
    have unmarked := seated.none_of_not_start (by decide)
    rw [weave_cons_none unmarked]
    exact .done
  | @within fs fs' x rest part cuts step level more ih =>
    have tail := (seated_append.mp seated).2
    have newStep := step.next fun brace => tail.head_weave_brace brace
    have all := Literal.within newStep level (ih tail)
    rw [shift, weave_append, weave_append, step.weave_front seated, ← Cut.map_after_map_after,
      append_assoc, append_assoc]
    obtain ⟨c, cs, eq⟩ : ∃ c cs, x = c :: cs := by cases step <;> exact ⟨_, _, rfl⟩
    subst eq
    obtain ⟨inert, plain⟩ := lead seated
    exact all.inert inert fun written => by simpa using plain written
  | @opens rest part cuts more ih =>
    have tail := (seated_append.mp seated).2
    have all := Literal.opens (ih tail)
    have step : Step [.literal] ['$', '{'] rest.head? [.body 0, .literal] := .opens
    have front := step.weave_front seated
    rw [map_cons, shift, weave_append, front, ← Cut.map_after_map_after]
    have written := all.inert (lead seated).1 fun _ => by simp
    simpa [Cut.after, Cut.woven, front] using written
  | @closes rest part cuts more ih =>
    have unmarked := seated.none_of_not_start (by decide)
    have tail := (seated_append.mp seated).2
    have same : Script.weave m pos ['}'] = ['}'] := by rw [weave_cons_none unmarked, weave_nil]
    rw [shift, weave_append, same]
    exact .closes (ih tail)

/-- A step can be made over every text but a single backslash. -/
theorem exists_step (f : Shape) (fs) {c : Char} {cs : List Char} (whole : c = '\\' → cs ≠ []) :
    ∃ x rest fs', c :: cs = x ++ rest ∧ Step (f :: fs) x rest.head? fs' := by
  cases f with
  | literal =>
    by_cases escape : c = '\\'
    · obtain ⟨d, rest, rfl⟩ := exists_cons_of_ne_nil (whole escape)
      exact ⟨['\\', d], rest, _, by simp [escape], .escape⟩
    by_cases finish : c = '\x60'
    · exact ⟨['\x60'], cs, _, by simp [finish], .finish⟩
    by_cases opens : c = '$' ∧ cs.head? = some '{'
    · obtain ⟨rfl, head⟩ := opens
      obtain ⟨rest, rfl⟩ := head?_eq_some_iff.mp head
      exact ⟨['$', '{'], rest, _, rfl, .opens⟩
    · exact ⟨[c], cs, _, rfl, .written escape finish fun dollar brace => opens ⟨dollar, brace⟩⟩
  | body depth =>
    by_cases special : c ∈ ['{', '}', '\x60', '"', '\'']
    · simp only [mem_cons, not_mem_nil, or_false] at special
      rcases special with rfl | rfl | rfl | rfl | rfl
      · exact ⟨['{'], cs, _, rfl, .brace⟩
      · cases depth with
        | zero => exact ⟨['}'], cs, _, rfl, .closes⟩
        | succ depth => exact ⟨['}'], cs, _, rfl, .unbrace⟩
      · exact ⟨['\x60'], cs, _, rfl, .nested⟩
      · exact ⟨['"'], cs, _, rfl, @Step.quote true _ _ _⟩
      · exact ⟨['\''], cs, _, rfl, @Step.quote false _ _ _⟩
    · exact ⟨[c], cs, _, rfl, .code special⟩
  | string double =>
    by_cases escape : c = '\\'
    · obtain ⟨d, rest, rfl⟩ := exists_cons_of_ne_nil (whole escape)
      exact ⟨['\\', d], rest, _, by simp [escape], .escapeQuoted⟩
    by_cases unquote : c = quoteOf double
    · exact ⟨[quoteOf double], cs, _, by simp [unquote], .unquote⟩
    · exact ⟨[c], cs, _, rfl, .quoted escape unquote⟩

inductive TemplateFrame.Has : TemplateFrame → Shape → Prop where
  | literal {start} : Has (.literal start) .literal
  | body {start depth} : Has (.body start depth) (.body depth)
  | string {double start} : Has (.string (quoteOf double) start) (.string double)

/-- Frames with their shapes, inside a literal; `opened` is the start of the body of the outermost
    literal that is open, if one is. -/
inductive Frames : (opened : Option Nat) → List TemplateFrame → List Shape → Prop where
  | literal {start} : Frames none [.literal start] [.literal]
  | body {start depth begun} :
      Frames (some start) [.body start depth, .literal begun] [.body depth, .literal]
  | inner {start f g frames a b shapes} (has : f.Has a)
      (outer : Frames (some start) (g :: frames) (b :: shapes)) :
      Frames (some start) (f :: g :: frames) (a :: b :: shapes)

/-- The bodies of a literal that is read from `pos` on, the open one first. -/
def ranges (opened : Option Nat) (pos : Nat) (part : List Char) (cuts : List Cut) : List (Nat × Nat) :=
  opened.toList.map (·, pos + bytes part) ++ cuts.map (Cut.range pos)

theorem ranges_after (opened pos x part) (cuts : List Cut) :
    ranges opened pos (x ++ part) (cuts.map (.after x)) = ranges opened (pos + bytes x) part cuts := by
  simp [ranges, Cut.range_after, Nat.add_assoc]

theorem ranges_opens (pos part) (cuts : List Cut) :
    ranges none pos ['$', '{'] ((['$', '{'], part) :: cuts.map (.after ['$', '{'])) =
      ranges (some (pos + 2)) (pos + 2) part cuts := by
  have size : bytes ['$', '{'] = 2 := by decide
  simp only [ranges, map_cons, map_map, Function.comp_def, Cut.range_after, size]
  simp [Cut.range, size]

theorem ranges_closes (start pos part) (cuts : List Cut) :
    ranges (some start) pos [] (cuts.map (.after ['}'])) =
      (start, pos) :: ranges none (pos + 1) part cuts := by
  have size : bytes ['}'] = 1 := by decide
  simp only [ranges, map_map, Function.comp_def, Cut.range_after, size]
  simp [bytes]

namespace Frames

theorem of_literal (h : Frames opened (top :: outer) (.literal :: fs)) :
    (∃ start, top = .literal start) ∧ ((opened = none ∧ outer = [] ∧ fs = []) ∨
      ∃ g rest, outer = g :: rest ∧ opened ≠ none ∧ Frames opened outer fs) := by
  cases h with
  | literal => exact ⟨⟨_, rfl⟩, .inl ⟨rfl, rfl, rfl⟩⟩
  | inner has outer =>
    cases has
    exact ⟨⟨_, rfl⟩, .inr ⟨_, _, rfl, by simp, outer⟩⟩

theorem of_body (h : Frames opened (top :: outer) (.body depth :: fs)) :
    ∃ start, top = .body start depth ∧
      (∀ depth', Frames opened (.body start depth' :: outer) (.body depth' :: fs)) ∧
      (∀ f a, f.Has a → Frames opened (f :: top :: outer) (a :: .body depth :: fs)) ∧
      (fs = [.literal] ∨ ∃ g g' rest, outer = g :: g' :: rest ∧ Frames opened outer fs) := by
  cases h with
  | body => exact ⟨_, rfl, fun _ => .body, fun _ _ has => .inner has .body, .inl rfl⟩
  | inner has outer =>
    cases has
    refine ⟨_, rfl, fun _ => .inner .body outer, fun _ _ has => .inner has (.inner .body outer),
      .inr ?_⟩
    cases outer with
    | body => exact ⟨_, _, _, rfl, .body⟩
    | inner has outer => exact ⟨_, _, _, rfl, .inner has outer⟩

theorem of_string (h : Frames opened (top :: outer) (.string double :: fs)) :
    ∃ start g rest, top = .string (quoteOf double) start ∧ outer = g :: rest ∧
      Frames opened outer fs := by
  cases h with
  | inner has outer =>
    cases has
    exact ⟨_, _, _, rfl, rfl, outer⟩

end Frames

/-- A step that stays on one side of the outermost bodies is a step of `scanTemplate`. -/
theorem scanTemplate_of_step {next} (step : Step shapes x next shapes')
    (level : shapes.length = 1 ↔ shapes'.length = 1) (frames : Frames opened (top :: outer) shapes)
    (pos) :
    ∃ top' outer', Frames opened (top' :: outer') shapes' ∧
      ∀ rest : List Char, rest.head? = next → scanTemplate pos top outer (x ++ rest) =
        do return (← scanTemplate (pos + bytes x) top' outer' rest).more x.length := by
  have size : ∀ c : Char, bytes [c] = c.utf8Size := fun c => by simp [bytes]
  cases step with
  | escape =>
    obtain ⟨⟨start, rfl⟩, _⟩ := frames.of_literal
    refine ⟨_, _, frames, fun rest _ => ?_⟩
    simp [scanTemplate, bytes, Nat.add_assoc]
  | finish =>
    obtain ⟨⟨start, rfl⟩, ⟨_, _, rfl⟩ | ⟨g, rest, rfl, _, behind⟩⟩ := frames.of_literal
    · simp at level
    · exact ⟨_, _, behind, fun rest _ => rfl⟩
  | opens =>
    obtain ⟨⟨start, rfl⟩, ⟨_, _, rfl⟩ | ⟨g, rest, rfl, inside, _⟩⟩ := frames.of_literal
    · simp at level
    · obtain ⟨s, rfl⟩ := Option.ne_none_iff_exists'.mp inside
      exact ⟨.body (pos + 2) 0, _, .inner .body frames, fun rest _ => rfl⟩
  | @written c next fs noEscape noEnd noBody =>
    obtain ⟨⟨start, rfl⟩, _⟩ := frames.of_literal
    refine ⟨_, _, frames, fun rest head => ?_⟩
    rw [singleton_append, scanTemplate]
    · rfl
    · exact noEnd
    · exact fun _ _ eq => absurd eq noEscape
    · rintro ds rfl rfl
      exact noBody rfl head.symm
  | brace | unbrace =>
    obtain ⟨start, rfl, deeper, _⟩ := frames.of_body
    exact ⟨_, _, deeper _, fun rest _ => rfl⟩
  | closes =>
    obtain ⟨start, rfl, _, _, rfl | ⟨g, g', rest, rfl, behind⟩⟩ := frames.of_body
    · simp at level
    · exact ⟨_, _, behind, fun rest _ => rfl⟩
  | nested =>
    obtain ⟨start, rfl, _, push, _⟩ := frames.of_body
    exact ⟨.literal pos, _, push _ _ .literal, fun rest _ => rfl⟩
  | @quote double =>
    obtain ⟨start, rfl, _, push, _⟩ := frames.of_body
    refine ⟨.string (quoteOf double) pos, _, push _ _ .string, fun rest _ => ?_⟩
    cases double <;> rfl
  | @code c _ depth fs other =>
    obtain ⟨start, rfl, _⟩ := frames.of_body
    simp only [mem_cons, not_or] at other
    obtain ⟨noOpen, noClose, noEnd, noDouble, noSingle⟩ := other
    refine ⟨_, _, frames, fun rest head => ?_⟩
    rw [singleton_append, scanTemplate, size]
    · simp [noDouble, noSingle]
    · exact noOpen
    · exact noClose
    · exact noEnd
  | escapeQuoted =>
    obtain ⟨start, _, _, rfl, _⟩ := frames.of_string
    refine ⟨_, _, frames, fun rest _ => ?_⟩
    simp [scanTemplate, bytes, Nat.add_assoc]
  | @unquote double =>
    obtain ⟨start, g, rest, rfl, rfl, behind⟩ := frames.of_string
    refine ⟨_, _, behind, fun rest _ => ?_⟩
    cases double <;> rfl
  | @quoted c double _ fs noEscape other =>
    obtain ⟨start, _, _, rfl, _⟩ := frames.of_string
    refine ⟨_, _, frames, fun rest head => ?_⟩
    rw [singleton_append, scanTemplate]
    · rfl
    · exact fun _ _ eq => absurd eq noEscape
    · exact fun _ _ same => absurd (by simpa using same) other

theorem Literal.head?_append (read : Literal fs text part cuts) (after) :
    (text ++ after).head? = text.head? := by
  cases text with
  | nil => simpa using read.getLast?
  | cons c text => rfl

/-- A text that is read as a template literal begins with one. -/
theorem literal_of_scanTemplate (frames : Frames opened (top :: outer) shapes)
    (run : scanTemplate pos top outer cs = .ok scan) :
    ∃ text after part cuts, cs = text ++ after ∧ Literal shapes text part cuts ∧
      scan = ⟨text.length, ranges opened pos part cuts⟩ := by
  induction size : cs.length using Nat.strong_induction_on
    generalizing pos top outer cs scan opened shapes with
  | _ n ih =>
  subst size
  cases cs with
  | nil => cases run
  | cons c cs =>
    have whole : c = '\\' → cs ≠ [] := by
      rintro rfl rfl
      cases frames with
      | inner has =>
        cases has with
        | @string double => cases double <;> cases run
        | _ => cases run
      | _ => cases run
    obtain ⟨f, fs, rfl⟩ : ∃ f fs, shapes = f :: fs := by cases frames <;> exact ⟨_, _, rfl⟩
    obtain ⟨x, rest, shapes', split, step⟩ := exists_step f fs whole
    have shorter : rest.length < (c :: cs).length := by
      rw [split, length_append]
      refine Nat.lt_add_of_pos_left (length_pos_iff.mpr ?_)
      cases step <;> simp
    rw [split] at run ⊢
    by_cases level : (f :: fs).length = 1 ↔ shapes'.length = 1
    · obtain ⟨top', outer', behind, same⟩ := scanTemplate_of_step step level frames pos
      rw [same rest rfl] at run
      obtain ⟨_, inner, ⟨⟩⟩ := ok_of_bind run
      obtain ⟨text, after, part, cuts, rfl, read, rfl⟩ := ih _ shorter behind inner rfl
      rw [read.head?_append] at step
      refine ⟨x ++ text, after, x ++ part, _, by simp, .within step level read, ?_⟩
      simp [TemplateScan.more, ranges_after, Nat.add_comm]
    -- the literal ends here, or a body of it begins or ends
    · cases frames with
      | literal =>
        cases step with
        | finish =>
          cases run
          exact ⟨['\x60'], rest, _, _, rfl, .done, rfl⟩
        | opens =>
          obtain ⟨_, inner, ⟨⟩⟩ := ok_of_bind run
          obtain ⟨text, after, part, cuts, rfl, read, rfl⟩ := ih _ shorter .body inner rfl
          refine ⟨['$', '{'] ++ text, after, _, _, rfl, .opens read, ?_⟩
          rw [ranges_opens]
          rfl
        | _ => exact absurd (by simp) level
      | body =>
        cases step with
        | closes =>
          obtain ⟨_, inner, ⟨⟩⟩ := ok_of_bind run
          obtain ⟨text, after, part, cuts, rfl, read, rfl⟩ := ih _ shorter .literal inner rfl
          refine ⟨['}'] ++ text, after, _, _, rfl, .closes read, ?_⟩
          rw [ranges_closes]
          rfl
        | _ => exact absurd (by simp) level
      | inner has outer =>
        have deep : ∃ a b fs, shapes' = a :: b :: fs := by
          cases step <;> cases outer <;> exact ⟨_, _, _, rfl⟩
        obtain ⟨a, b, fs, rfl⟩ := deep
        exact absurd (by simp) level

theorem scanTemplate_of_literal (read : Literal shapes text part cuts)
    (frames : Frames opened (top :: outer) shapes) (after) :
    scanTemplate pos top outer (text ++ after) = .ok ⟨text.length, ranges opened pos part cuts⟩ := by
  induction read generalizing pos top outer opened with
  | done =>
    cases frames
    rfl
  | within step level more ih =>
    obtain ⟨top', outer', behind, run⟩ := scanTemplate_of_step step level frames pos
    rw [append_assoc, run _ (more.head?_append after), ih behind, ranges_after]
    simp [TemplateScan.more, bind, Except.bind, pure, Except.pure, Nat.add_comm]
  | @opens rest part cuts more ih =>
    cases frames
    rename_i start
    have inner := @ih [.literal start] (pos + 2) (.body (pos + 2) 0) _ .body
    have step : scanTemplate pos (.literal start) [] ('$' :: '{' :: (rest ++ after)) =
        do return (← scanTemplate (pos + 2) (.body (pos + 2) 0) [.literal start]
          (rest ++ after)).more 2 :=
      rfl
    refine step.trans ?_
    rw [inner, ranges_opens]
    rfl
  | @closes rest part cuts more ih =>
    cases frames with
    | inner _ outer => cases outer
    | @body start _ begun =>
      have inner := @ih [] (pos + 1) (.literal begun) _ .literal
      have step : scanTemplate pos (.body start 0) [.literal begun] ('}' :: (rest ++ after)) = do
          let scan ← scanTemplate (pos + 1) (.literal begun) [] (rest ++ after)
          return ⟨scan.length + 1, (start, pos) :: scan.bodies⟩ := rfl
      refine step.trans ?_
      rw [inner, ranges_closes]
      rfl

end Stencil.Script
