import Stencil.Proofs.Script.Moved
import Stencil.Proofs.Script.Stable

/-! # A script with something behind it

A script that stands inside another text, before a closing bracket or a comma, has the same tokens
as alone. What stands behind it goes on with no token, but a comment that runs to the end of the
line would take it in.
-/

namespace Stencil.Script

open List Text Except Option Nat

/-- What may stand right behind a script. -/
def separators : List Char :=
  [')', ',', ']', '\x7d', ' ', '\n']

/-- The text is empty, or begins with a separator. -/
def Apart (post : List Char) : Prop :=
  post.head?.all separators.contains = true

variable {cs more spaces x : List Char}

theorem Apart.head_any (apart : Apart post)
    (other : separators.all (fun c => !p c) = true) : post.head?.any p = false := by
  cases post with
  | nil => rfl
  | cons c post =>
    have member : c ∈ separators := by simpa [Apart] using apart
    simpa using all_eq_true.mp other c member

theorem head_any_append (x : List Char) (stops : post.head?.any p = false) :
    (x ++ post).head?.any p = x.head?.any p := by
  cases x with
  | nil => exact stops
  | cons c x => rfl

theorem takeWhile_append_stops (x : List Char) (stops : post.head?.any p = false) :
    (x ++ post).takeWhile p = x.takeWhile p := by
  induction x with
  | nil =>
    cases post with
    | nil => rfl
    | cons c post =>
      have no : p c = false := stops
      rw [nil_append, takeWhile_cons, no]
      rfl
  | cons c x ih => simp only [cons_append, takeWhile_cons, ih]

theorem numberLength_append (apart : Apart post) (signs afterE x) :
    numberLength signs afterE (x ++ post) = numberLength signs afterE x := by
  induction x generalizing afterE with
  | nil =>
    cases post with
    | nil => rfl
    | cons c post =>
      have no := apart.head_any (p := fun c => isAsciiAlphanumeric c || c == '.' ||
        c == '_' || (c == '+' || c == '-')) (by decide)
      have stops : ¬ (isAsciiAlphanumeric c || c == '.' || c == '_' ||
          (signs && afterE && (c == '+' || c == '-'))) = true := by
        simp only [head?_cons, any_some, Bool.or_eq_false_iff] at no
        simp [no]
      show numberLength signs afterE (c :: post) = 0
      rw [numberLength, if_neg stops]
  | cons c x ih => simp only [cons_append, numberLength, ih]

theorem separator_not_mem (member : c ∈ separators) {p} (listed : p ∈ punctuators) :
    c ∉ p.toList.tail := by
  have all : (punctuators.all fun p =>
      separators.all fun c => !p.toList.tail.contains c) = true := by decide +kernel
  simpa using all_eq_true.mp (all_eq_true.mp all p listed) c member

theorem find?_apart (apart : Apart post) (c x) :
    (punctuators.find? fun p => beginsWith p.toList (c :: (x ++ post))) =
      punctuators.find? fun p => beginsWith p.toList (c :: x) := by
  apply find?_congr
  intro p listed
  rw [Bool.eq_iff_iff, beginsWith_iff, beginsWith_iff]
  constructor
  · intro front
    have whole : c :: x <+: c :: (x ++ post) := ⟨post, rfl⟩
    rcases prefix_or_prefix_of_prefix front whole with le | ⟨z, eq⟩
    · exact le
    · cases z with
      | nil => simp [← eq]
      | cons d z =>
        rw [← eq, cons_append, cons_prefix_cons] at front
        obtain ⟨more, rfl⟩ : ∃ more, post = d :: more := by
          obtain ⟨more, same⟩ := (prefix_append_right_inj x).mp front.2
          exact ⟨z ++ more, same.symm⟩
        have member : d ∈ separators := by simpa [Apart] using apart
        have inside : d ∈ p.toList.tail := by simp [← eq]
        exact absurd inside (separator_not_mem member listed)
  · exact fun front => front.trans ⟨post, rfl⟩

/-- A token that ends in `x` does not change with what stands behind `x`. -/
theorem Scans.swap (h : Scans signs previous pos c (x ++ post) kind n) (inside : n ≤ x.length)
    (apart : Apart post) (apart' : Apart post') :
    Scans signs previous pos c (x ++ post') kind n := by
  have front_of : ∀ {front after : List Char}, x ++ post = front ++ after →
      front.length ≤ x.length → ∃ w, x = front ++ w := by
    intro front after eq le
    exact (prefix_of_prefix_length_le ⟨after, eq.symm⟩ (prefix_append x post) le).imp
      fun _ same => same.symm
  have parts : ∀ {post}, Apart post → post.head?.any isNamePart = false := fun apart =>
    apart.head_any (by decide)
  have digits : ∀ {post}, Apart post → post.head?.any isAsciiDigit = false := fun apart =>
    apart.head_any (by decide)
  cases h with
  | word start =>
    rw [takeWhile_append_stops x (parts apart), ← takeWhile_append_stops x (parts apart')]
    exact .word start
  | number noWord digit =>
    rw [numberLength_append apart, ← numberLength_append apart']
    refine .number noWord ?_
    rwa [head_any_append x (digits apart'), ← head_any_append x (digits apart)]
  | string quote found =>
    have noEscape : c ≠ '\\' := by
      rintro rfl
      simp at quote
    obtain ⟨front, after, eq, rfl, _, same⟩ := stringLength?_front noEscape found
    obtain ⟨w, rfl⟩ := front_of eq inside
    rw [append_assoc]
    exact .string quote (same _)
  | template tick split read =>
    obtain ⟨w, rfl⟩ := front_of split inside
    exact .template tick (append_assoc ..) read
  | @regex n slash allowed found =>
    obtain ⟨front, after, eq, rfl, _, same⟩ := regexLength?_front found
    obtain ⟨w, rfl⟩ := front_of eq (by omega)
    have flags : ((front ++ w ++ post).drop front.length).takeWhile isNamePart =
        ((front ++ w ++ post').drop front.length).takeWhile isNamePart := by
      rw [append_assoc, append_assoc, drop_left, drop_left,
        takeWhile_append_stops w (parts apart), takeWhile_append_stops w (parts apart')]
    rw [flags]
    exact .regex slash allowed (by rw [append_assoc]; exact same _)
  | @punctuator p noWord noDigit noQuote noRegex found =>
    rw [find?_apart apart] at found
    have next : (p == "?." && ((x ++ post).drop 1).head?.any isAsciiDigit) =
        (p == "?." && ((x ++ post').drop 1).head?.any isAsciiDigit) := by
      by_cases optional : p = "?."
      · subst optional
        have chars : "?.".toList = ['?', '.'] := by decide
        have begins := find?_some found
        rw [beginsWith_iff] at begins
        obtain ⟨w, eq⟩ := begins
        obtain ⟨_, rfl⟩ := List.cons.inj eq
        exact congrArg _ ((head_any_append w (digits apart)).trans
          (head_any_append w (digits apart')).symm)
      · rw [beq_false_of_ne optional, Bool.false_and, Bool.false_and]
    rw [next]
    refine .punctuator noWord ?_ noQuote noRegex (by rwa [find?_apart apart'])
    rwa [head_any_append x (digits apart'), ← head_any_append x (digits apart)]

theorem blank_not_mem_number (signs afterE) (cs : List Char) :
    ' ' ∉ cs.take (numberLength signs afterE cs) := by
  fun_induction numberLength signs afterE cs with
  | case1 => simp
  | case2 afterE c cs belongs ih =>
    rw [take_succ_cons, mem_cons, not_or]
    refine ⟨?_, ih⟩
    rintro rfl
    revert belongs
    cases signs <;> cases afterE <;> decide
  | case3 => simp

theorem Scans.last (h : Scans signs previous pos c cs kind n) :
    (c :: cs.take n).getLast? ≠ some ' ' := by
  have absent : ∀ {more : List Char}, c ≠ ' ' → ' ' ∉ more → (c :: more).getLast? ≠ some ' ' := by
    intro more first others last
    rcases mem_cons.mp (mem_of_getLast? last) with same | later
    · exact first same.symm
    · exact others later
  have solid : isNamePart ' ' = false := by decide
  cases h with
  | word start =>
    obtain ⟨word, after, rfl, taken, parts, _⟩ := takeWhile_split isNamePart cs
    rw [taken, take_left]
    refine absent ?_ fun member => absurd (parts _ member) (by simp [solid])
    rintro rfl
    exact absurd start (by decide)
  | number noWord digit =>
    refine absent ?_ (blank_not_mem_number signs false cs)
    rintro rfl
    exact absurd digit (by simp [isAsciiDigit])
  | string quote found =>
    have noEscape : c ≠ '\\' ∧ c ≠ ' ' := by rcases quote with rfl | rfl <;> decide
    obtain ⟨front, after, rfl, rfl, last, _⟩ := stringLength?_front noEscape.1 found
    simp [getLast?_cons, last, noEscape]
  | template tick split read =>
    subst split
    simp [getLast?_cons, read.getLast?]
  | @regex n slash allowed found =>
    obtain ⟨front, rest, rfl, rfl, last, _⟩ := regexLength?_front found
    obtain ⟨flags, after, rfl, taken, parts, _⟩ := takeWhile_split isNamePart rest
    rw [drop_left, taken, ← append_assoc, ← length_append, take_left,
      getLast?_cons, getLast?_append, last]
    cases flagsLast : flags.getLast? with
    | none => simp
    | some d =>
      have part := parts d (mem_of_getLast? flagsLast)
      intro same
      obtain rfl : d = ' ' := by simpa using same
      cases part
  | @punctuator p noWord noDigit noQuote noRegex found =>
    have listed := mem_of_find?_eq_some found
    have begins : p.toList <+: c :: cs := by
      simpa [beginsWith_iff] using find?_some found
    have chars : ' ' ∉ p.toList := by
      have all : (punctuators.all fun p => !p.toList.contains ' ') = true := by decide +kernel
      simpa using all_eq_true.mp all p listed
    have size : 0 < p.toList.length := length_pos_iff.mpr (punctuator_ne_nil listed)
    have le : (if (p == "?." && (cs.drop 1).head?.any isAsciiDigit) = true then 0
        else p.length - 1) + 1 ≤ p.toList.length := by
      rw [String.length_toList] at size ⊢
      split <;> omega
    have within := prefix_of_prefix_length_le (List.take_prefix _ (c :: cs)) begins
      (le_trans (length_take_le ..) le)
    exact fun last => chars (within.subset (mem_of_getLast? last))

/-! ## Blanks and comments -/

/-- Whether blanks and comments end in a comment that runs to the end of its line. -/
def opensLine : TriviaMode → List Char → Bool
  | .blank, '/' :: '/' :: cs => opensLine .lineComment cs
  | .blank, '/' :: '*' :: cs => opensLine (.blockComment 0) cs
  | .blank, _ :: cs => opensLine .blank cs
  | .blank, [] => false
  | .lineComment, c :: cs => opensLine (if c == '\n' then .blank else .lineComment) cs
  | .lineComment, [] => true
  | .blockComment _, '*' :: '/' :: cs => opensLine .blank cs
  | .blockComment _, _ :: cs => opensLine (.blockComment 0) cs
  | .blockComment _, [] => false

theorem opensLine_blank (blank : isBlank c = true) (cs) :
    opensLine .blank (c :: cs) = opensLine .blank cs := by
  rw [opensLine]
  · exact fun _ slash => absurd slash (ne_slash_of_blank blank)
  · exact fun _ slash => absurd slash (ne_slash_of_blank blank)

theorem opensLine_line (inside : '\n' ∉ body) :
    opensLine .lineComment (body ++ rest) = opensLine .lineComment rest := by
  induction body with
  | nil => rfl
  | cons c body ih =>
    obtain ⟨other, inside⟩ := not_or.mp (mem_cons.not.mp inside)
    show opensLine (if c == '\n' then .blank else .lineComment) (body ++ rest) = _
    rw [if_neg (by simpa using Ne.symm other), ih inside]

theorem opensLine_block (inside : ¬ ['*', '/'] <:+: body) :
    opensLine (.blockComment 0) (body ++ '*' :: '/' :: rest) = opensLine .blank rest := by
  induction body with
  | nil => rfl
  | cons c body ih =>
    rw [cons_append, opensLine, ih fun within => inside (within.trans (suffix_cons c body).isInfix)]
    rintro ds rfl slash
    cases body with
    | nil => cases slash
    | cons d body =>
      obtain rfl : d = '/' := (List.cons.inj slash).1
      exact inside ⟨[], body, rfl⟩

/-- A gap that opens no line is complete whatever stands behind it. -/
theorem Gap.closed (h : Gap True gap) (closed : opensLine .blank gap = false) : Gap False gap := by
  induction h with
  | nil => exact .nil
  | blank isBlank _ ih =>
    rw [opensLine_blank isBlank] at closed
    exact .blank isBlank (ih closed)
  | @line body rest inside ended _ ih =>
    change opensLine .lineComment (body ++ rest) = false at closed
    rw [opensLine_line inside] at closed
    rcases ended with first | ⟨rfl, _⟩
    · obtain ⟨rest, rfl⟩ := head?_eq_some_iff.mp first
      exact .line inside (.inl rfl) (ih closed)
    · cases closed
  | block inside _ ih => exact .block inside (ih ((opensLine_block inside).symm.trans closed))

theorem Solid.apart (apart : Apart post) (nonempty : x ≠ []) : Solid (x ++ post) ↔ Solid x := by
  obtain ⟨c, x, rfl⟩ := exists_cons_of_ne_nil nonempty
  rw [cons_append, Solid, Solid, head_any_append x (apart.head_any (by decide))]

/-- The trivia before a token does not change with what stands behind the token. -/
theorem skipTrivia_apart (apart : Apart post) (nonempty : x ≠ []) :
    skipTrivia pos .blank (gap ++ (x ++ post)) = .ok ⟨gap.length, newline⟩ ↔
      skipTrivia pos .blank (gap ++ x) = .ok ⟨gap.length, newline⟩ := by
  simp only [skipTrivia_eq_ok, Solid.apart apart nonempty, append_eq_nil_iff, nonempty, false_and]

section

variable (blank : ∀ c ∈ spaces, c = ' ')
include blank

theorem apart_of_spaces : Apart spaces := by
  cases spaces with
  | nil => rfl
  | cons c spaces =>
    obtain rfl := blank c mem_cons_self
    rfl

/-- What does not begin with a space ends before the spaces. -/
theorem split_before_spaces {front rest} (whole : front ++ rest = x ++ spaces)
    (solid : ∃ c ∈ rest.head?, c ≠ ' ') : ∃ w, x = front ++ w ∧ rest = w ++ spaces := by
  rcases append_eq_append_iff.mp whole with found | ⟨w, rfl, inside⟩
  · exact found
  · obtain ⟨c, first, other⟩ := solid
    have member : c ∈ w ++ rest := mem_append_right w (mem_of_mem_head? first)
    exact absurd (blank c (inside ▸ member)) other

theorem Gap.trim (h : Gap False gap) (split : gap = x ++ spaces) : Gap False x := by
  induction h generalizing x with
  | nil =>
    obtain ⟨rfl, _⟩ := append_eq_nil_iff.mp split.symm
    exact .nil
  | @blank c rest isBlank more ih =>
    cases x with
    | nil => exact .nil
    | cons d x =>
      obtain ⟨rfl, tail⟩ := List.cons.inj split
      exact .blank isBlank (ih tail)
  | @line body rest inside ended more ih =>
    have first : rest.head? = some '\n' := ended.resolve_right fun h => h.2
    obtain ⟨w, rfl, rest'⟩ := @split_before_spaces spaces x blank ('/' :: '/' :: body) rest split
      ⟨'\n', first, by decide⟩
    refine .line inside (.inl ?_) (ih rest')
    cases w with
    | nil =>
      rw [rest'] at first
      exact absurd (blank '\n' (mem_of_mem_head? first)) (by decide)
    | cons d w => rwa [rest'] at first
  | @block body rest inside more ih =>
    obtain ⟨w, rfl, rest'⟩ := @split_before_spaces spaces x blank ('/' :: '*' :: body)
      ('*' :: '/' :: rest) split ⟨'*', rfl, by decide⟩
    rcases w with _ | ⟨star, _ | ⟨slash, w⟩⟩
    · rw [nil_append] at rest'
      exact absurd (blank '*' (rest' ▸ mem_cons_self)) (by decide)
    · have behind : '/' :: rest = spaces := (List.cons.inj rest').2
      exact absurd (blank '/' (behind ▸ mem_cons_self)) (by decide)
    · obtain ⟨rfl, rfl, tail⟩ : '*' = star ∧ '/' = slash ∧ rest = w ++ spaces := by
        simpa using rest'
      exact .block inside (ih tail)

end

/-! ## Tokens -/

/-- The blanks and comments behind the last token of a script that begins at `pos`. -/
def gapBehind (pos : Nat) (tokens : List Token) (cs : List Char) : List Char :=
  (dropBytes? ((tokens.getLast?.map Token.stop).getD pos - pos) cs).getD []

theorem gapBehind_nil (pos cs) : gapBehind pos [] cs = cs := by
  simp only [gapBehind, getLast?_nil, map_none, getD_none, Nat.sub_self]
  exact congrArg (getD · []) (dropBytes?_append [] cs)

theorem gapBehind_cons {t : Token} {rest front after} (stop : t.stop = pos + bytes front)
    (later : ∀ u ∈ rest, pos + bytes front ≤ u.stop) :
    gapBehind pos (t :: rest) (front ++ after) = gapBehind (pos + bytes front) rest after := by
  cases last : rest.getLast? with
  | none =>
    obtain rfl := getLast?_eq_none_iff.mp last
    have size : t.stop - pos = bytes front := by omega
    rw [gapBehind_nil]
    simp [gapBehind, size, dropBytes?_append]
  | some u =>
    have behind := later u (mem_of_getLast? last)
    have size : u.stop - pos = bytes front + (u.stop - (pos + bytes front)) := by omega
    simp [gapBehind, getLast?_cons, last, size, dropBytes?_add]

/-- Punctuators of one character that no other one begins with. -/
def singles : List Char :=
  [')', ',', ']', '\x7d', '(', '[', '\x7b', ':']

/-- The punctuators that may follow an operand. -/
def isStop (c : Char) : Bool :=
  [')', ',', ']', '\x7d'].contains c

theorem isStop_iff : isStop c = true ↔ c = ')' ∨ c = ',' ∨ c = ']' ∨ c = '\x7d' := by
  simp [isStop]

theorem single_of_isStop (stop : isStop c = true) : c ∈ singles := by
  rcases isStop_iff.mp stop with rfl | rfl | rfl | rfl <;> simp [singles]

theorem single_cases (single : c ∈ singles) : c = ')' ∨ c = ',' ∨ c = ']' ∨ c = '\x7d' ∨
    c = '(' ∨ c = '[' ∨ c = '\x7b' ∨ c = ':' := by
  simpa [singles] using single

theorem scanToken_single (single : c ∈ singles) (signs previous pos cs) :
    scanToken signs previous pos c cs = .ok (.punctuator, 0) := by
  have found : (punctuators.find? fun p => beginsWith p.toList (c :: cs)) =
      some (String.ofList [c]) := by
    rcases single_cases single with rfl | rfl | rfl | rfl | rfl | rfl | rfl | rfl <;> rfl
  have other : isNameStart c = false ∧ isAsciiDigit c = false ∧ c ≠ '.' ∧ c ≠ '"' ∧
      c ≠ '\'' ∧ c ≠ '\x60' ∧ c ≠ '/' ∧ (String.ofList [c] == "?.") = false ∧
      (String.ofList [c]).length = 1 := by
    rcases single_cases single with rfl | rfl | rfl | rfl | rfl | rfl | rfl | rfl <;> decide
  obtain ⟨noWord, noDigit, noDot, noDouble, noSingle, noTick, noSlash, noChain, length⟩ := other
  have scans : Scans signs previous pos c cs .punctuator _ := .punctuator noWord
    (by simp [noDigit, noDot]) ⟨noDouble, noSingle, noTick⟩ (by simp [noSlash]) found
  rw [noChain, length] at scans
  exact scans.scanToken

structure StandsAlone (c : Char) (more : List Char) : Prop where
  trivia : ∀ pos, skipTrivia pos .blank (c :: more) = .ok ⟨0, false⟩
  scan : ∀ signs previous pos, scanToken signs previous pos c more = .ok (.punctuator, 0)
  size : bytes [c] = 1

theorem standsAlone_of_single (single : c ∈ singles) (more) : StandsAlone c more := by
  refine ⟨fun pos => ?_, fun _ _ _ => scanToken_single single .., ?_⟩ <;>
    rcases single_cases single with rfl | rfl | rfl | rfl | rfl | rfl | rfl | rfl <;> rfl

/-- The punctuator of one character at a place. -/
def singleToken (c : Char) (start : Nat) (newline : Bool) : Token :=
  ⟨.punctuator, String.ofList [c], start, newline⟩

theorem Lexes.alone (alone : StandsAlone c cs)
    (behind : Lexes signs (some (singleToken c pos false)) (pos + 1) cs tokens) :
    Lexes signs previous pos (c :: cs) (singleToken c pos false :: tokens) := by
  refine @next signs previous pos [] false c [] cs .punctuator tokens
    (alone.trivia pos) (alone.scan ..) ?_
  rw [alone.size]
  exact behind

theorem Lexes.single (single : c ∈ singles)
    (behind : Lexes signs (some (singleToken c pos false)) (pos + 1) cs tokens) :
    Lexes signs previous pos (c :: cs) (singleToken c pos false :: tokens) :=
  .alone (standsAlone_of_single single cs) behind

theorem apart_of_stop (blank : ∀ d ∈ blanks, d = ' ' ∨ d = '\n') (stop : isStop c = true) :
    Apart (blanks ++ c :: more) := by
  cases blanks with
  | nil =>
    rcases isStop_iff.mp stop with rfl | rfl | rfl | rfl <;> rfl
  | cons d blanks => rcases blank d mem_cons_self with rfl | rfl <;> rfl

/-- A token ends before the spaces that its script ends in. -/
theorem Scans.before_spaces {gap after}
    (h : Scans signs previous pos c (more ++ after) kind more.length)
    (split : gap ++ c :: (more ++ after) = x ++ spaces) (blank : ∀ c ∈ spaces, c = ' ') :
    ∃ w, x = gap ++ c :: (more ++ w) ∧ after = w ++ spaces := by
  have last := h.last
  rw [take_left] at last
  have front : (gap ++ c :: more) ++ after = x ++ spaces := by simpa using split
  rcases append_eq_append_iff.mp front with ⟨w, eq, eq'⟩ | ⟨w, eq, eq'⟩
  · exact ⟨w, by simpa using eq, eq'⟩
  · cases wLast : w.getLast? with
    | none =>
      obtain rfl := getLast?_eq_none_iff.mp wLast
      exact ⟨[], by simpa using eq.symm, by simpa using eq'.symm⟩
    | some d =>
      obtain rfl := blank d (by simp [eq', mem_of_getLast? wLast])
      have whole := congrArg List.getLast? eq
      simp only [getLast?_append, wLast] at whole
      cases ends : (c :: more).getLast? with
      | none => simp at ends
      | some e =>
        exact absurd whole last

/-- A script without the spaces at its end, and then blanks and a punctuator: the tokens of the
    script come first. -/
theorem Lexes.close (h : Lexes signs previous pos cs tokens) (split : cs = x ++ spaces)
    (trailing : ∀ c ∈ spaces, c = ' ') (closed : opensLine .blank (gapBehind pos tokens cs) = false)
    (isBlank : ∀ d ∈ blanks, d = ' ' ∨ d = '\n') (alone : StandsAlone c more)
    (apart : Apart (blanks ++ c :: more))
    (behind : ∀ newline, Lexes signs (some (singleToken c (pos + bytes (x ++ blanks)) newline))
      (pos + bytes (x ++ blanks) + 1) more rest) :
    ∃ newline, Lexes signs previous pos (x ++ (blanks ++ c :: more))
      (tokens ++ singleToken c (pos + bytes (x ++ blanks)) newline :: rest) := by
  induction h generalizing x with
  | @done previous pos gap newline trivia =>
    subst split
    rw [gapBehind_nil] at closed
    have front := ((skipTrivia_end_eq_ok.mp trivia).1.closed closed).trim trailing rfl
    have blank : Gap (c :: more = []) blanks := .of_blank fun d member => by
      rcases isBlank d member with rfl | rfl <;> rfl
    have solid := (@skipTrivia_eq_ok pos [] (c :: more) false).mp (alone.trivia pos)
    have all := (front.append blank).skipTrivia solid.2.1 pos
    have token := @Lexes.next signs previous pos (x ++ blanks) _ c [] more
      .punctuator rest all (alone.scan ..) (by rw [alone.size]; exact behind _)
    rw [append_assoc] at token
    exact ⟨_, token⟩
  | @next previous pos gap newline d more' after kind rest' trivia scan others ih =>
    have scans := scans_of_scanToken scan
    obtain ⟨w, rfl, rfl⟩ := scans.before_spaces split trailing
    have place : pos + bytes gap + bytes (d :: more') + bytes (w ++ blanks) =
        pos + bytes (gap ++ d :: (more' ++ w) ++ blanks) := by
      simp only [bytes_append, bytes]
      omega
    have size : pos + bytes (gap ++ d :: more') = pos + bytes gap + bytes (d :: more') := by
      rw [bytes_append, Nat.add_assoc]
    have gaps := @gapBehind_cons pos
      ⟨kind, String.ofList (d :: more'), pos + bytes gap, newline⟩ rest' (gap ++ d :: more')
      (w ++ spaces)
      (by simp [Token.stop, Nat.add_assoc]) fun u member => by
        rw [size]
        exact le_trans (others.piece member).bounds.1 (Nat.le_add_right ..)
    rw [size, append_assoc] at gaps
    obtain ⟨newline', lexes⟩ := ih rfl (gaps ▸ closed) (by rw [place]; exact behind)
    rw [place] at lexes
    have trivia' : skipTrivia pos .blank (gap ++ d :: (more' ++ (w ++ (blanks ++ c :: more)))) =
        .ok ⟨gap.length, newline⟩ := by
      have nonempty : d :: (more' ++ w) ≠ [] := cons_ne_nil _ _
      have bare := (skipTrivia_apart (apart_of_spaces trailing) nonempty).mp (by simpa using trivia)
      simpa using (skipTrivia_apart apart nonempty).mpr bare
    have scan' : Scans signs previous (pos + bytes gap) d (more' ++ (w ++ (blanks ++ c :: more)))
        kind more'.length := by
      rw [← append_assoc] at scans ⊢
      exact scans.swap (by simp) (apart_of_spaces trailing) apart
    exact ⟨newline', by simpa using Lexes.next trivia' scan'.scanToken lexes⟩

end Stencil.Script
