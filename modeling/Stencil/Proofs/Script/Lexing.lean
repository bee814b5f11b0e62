import Mathlib.Data.List.Find
import Mathlib.Data.List.Forall2
import Stencil.Proofs.Script.Gaps
import Stencil.Proofs.Script.TemplateLiteral

/-! # Tokens of a script that was written into

A token is a piece of the script, and so is every body of a template literal. In a script that was
written into, the tokens are the old ones, but that a marked name is preceded by what is written
before it. The only case in which this fails is a mark right behind a number.
-/

namespace Stencil.Script

open List Text

/-- The bodies of a template literal are pieces of its text, in order and right after an opening
    brace. -/
structure Bodies (start : Nat) (text : List Char) (bodies : List Body) : Prop where
  piece : ∀ b ∈ bodies, ∃ front after, text = front ++ (b.text ++ after) ∧
    b.offset = start + bytes front ∧ front.getLast? = some '{' ∧ 2 ≤ front.length
  inOrder : bodies.Pairwise fun a b => a.offset + bytes a.text ≤ b.offset

/-- Only template literals have bodies. -/
def TokenKind.Sound (start : Nat) (text : List Char) : TokenKind → Prop
  | .template bodies => Bodies start text bodies
  | _ => True

structure Body.Woven (w : Weaving) (b b' : Body) : Prop where
  text : b'.text = weave w.marks b.offset b.text
  places : w.Places b.offset b'.offset b.text

inductive TokenKind.Woven (w : Weaving) : TokenKind → TokenKind → Prop where
  | same {kind} (plain : ∀ bodies, kind ≠ .template bodies) : Woven w kind kind
  | template {bodies bodies'} (each : List.Forall₂ (Body.Woven w) bodies bodies') :
      Woven w (.template bodies) (.template bodies')

/-- What is known of a token that begins with `c`: which further characters it takes, and what it
    takes of a script that was written into. -/
structure Takes (signs : Bool) (previous : Option Token) (pos : Nat) (c : Char)
    (more after : List Char) (kind : TokenKind) : Prop where
  last : (c :: more).getLast? ≠ some '\\'
  sound : kind.Sound pos (c :: more)
  word : kind = .word ↔ isNameStart c = true
  name : kind = .word → (∀ d ∈ more, isNamePart d = true) ∧ after.head?.any isNamePart = false
  woven : ∀ (w : Weaving) (before : Option Char) (previous' : Option Token) (pos' : Nat),
    Seated w.marks before pos (c :: (more ++ after)) → w.marks pos = none ∨ kind = .word →
    w.Places (pos + c.utf8Size) (pos' + c.utf8Size) more →
    regexAllowed previous' = regexAllowed previous →
    ((∀ bodies, kind ≠ .template bodies) →
      Unmarked w.marks (pos + c.utf8Size) (pos + bytes (c :: more))) →
    (kind = .number → w.marks (pos + bytes (c :: more)) = none) →
    ∃ kind', scanToken signs previous' pos' c (weave w.marks (pos + c.utf8Size) (more ++ after)) =
        .ok (kind', (weave w.marks (pos + c.utf8Size) more).length) ∧ kind.Woven w kind'

theorem not_digit_of_isNameStart (start : isNameStart c = true) : isAsciiDigit c = false := by
  cases digit : isAsciiDigit c with
  | false => rfl
  | true =>
    have table : ∀ n < 58, 48 ≤ n → isNameStart (Char.ofNat n) = false := by decide +kernel
    simp only [isAsciiDigit, Bool.and_eq_true, decide_eq_true_eq] at digit
    have low : 48 ≤ c.toNat := digit.1
    have high : c.toNat ≤ 57 := digit.2
    rw [← Char.ofNat_toNat c, table c.toNat (by omega) low] at start
    cases start

theorem Seated.stops_weave (seated : Seated m before pos cs)
    (stops : cs.head?.any isNamePart = false) : (weave m pos cs).head?.any isNamePart = false := by
  rcases seated.head_weave with same | ⟨c, d, head, start, _, _⟩
  · rwa [same]
  · simp [head, isNamePart_of_isNameStart start] at stops

theorem Seated.behind {before more after} (seated : Seated m before pos (c :: (more ++ after))) :
    ∃ before', Seated m before' (pos + c.utf8Size + bytes more) after :=
  ⟨_, (seated_append.mp seated.2).2⟩

theorem weave_plain (after) (h : Unmarked m (pos + c.utf8Size) (pos + bytes (c :: more))) :
    weave m (pos + c.utf8Size) more = more ∧
      weave m (pos + c.utf8Size) (more ++ after) =
        more ++ weave m (pos + c.utf8Size + bytes more) after := by
  have same : weave m (pos + c.utf8Size) more = more :=
    weave_unmarked (h.mono (Nat.le_refl _) (by simp [bytes, Nat.add_assoc]))
  exact ⟨same, by rw [weave_append, same]⟩

theorem head?_map_getD (p : Char → Bool) (cs : List Char) :
    (cs.head?.map p).getD false = cs.head?.any p := by
  cases cs <;> rfl

/-- The body at a cut of a literal that begins at `pos`. -/
def Cut.body (pos : Nat) (cut : Cut) : Body :=
  ⟨pos + bytes cut.1, cut.2⟩

/-- The bodies that the lexer slices out of a literal. -/
theorem bodies_eq {text part after cuts} (pos) (read : Literal [.literal] text part cuts) :
    (ranges none (pos + 1) part cuts).map (fun (start, stop) =>
      Body.mk start (slice (start - pos) (stop - pos) ('\x60' :: (text ++ after)))) =
        cuts.map (Cut.body (pos + 1)) := by
  simp only [ranges, Option.toList_none, map_nil, nil_append, map_map]
  apply map_congr_left
  intro cut member
  obtain ⟨rest, split⟩ := (read.fits cut member).2
  have whole : '\x60' :: (text ++ after) = ('\x60' :: cut.1) ++ (cut.2 ++ (rest ++ after)) := by
    simp [← split]
  have start : pos + 1 + bytes cut.1 - pos = bytes ('\x60' :: cut.1) := by
    have : '\x60'.utf8Size = 1 := rfl
    simp only [bytes]
    omega
  have stop : pos + 1 + bytes cut.1 + bytes cut.2 - pos = bytes ('\x60' :: cut.1) + bytes cut.2 := by
    omega
  simp only [Function.comp_apply, Cut.range, Cut.body, start, stop, whole, slice_append]

/-- The ways to scan a token that begins with `c`. -/
inductive Scans (signs : Bool) (previous : Option Token) (pos : Nat) (c : Char) (cs : List Char) :
    TokenKind → Nat → Prop where
  | word (start : isNameStart c = true) :
      Scans signs previous pos c cs .word (cs.takeWhile isNamePart).length
  | number (noWord : isNameStart c = false)
      (digit : (isAsciiDigit c || (c == '.' && cs.head?.any isAsciiDigit)) = true) :
      Scans signs previous pos c cs .number (numberLength signs false cs)
  | string {n : Nat} (quote : c = '"' ∨ c = '\'') (found : stringLength? c cs = some n) :
      Scans signs previous pos c cs .string n
  | template {more after part cuts} (tick : c = '\x60')
      (split : cs = more ++ after) (read : Literal [.literal] more part cuts) :
      Scans signs previous pos c cs (.template (cuts.map (Cut.body (pos + 1)))) more.length
  | regex {n : Nat} (slash : c = '/') (allowed : regexAllowed previous = true)
      (found : regexLength? false cs = some n) :
      Scans signs previous pos c cs .regex (n + ((cs.drop n).takeWhile isNamePart).length)
  | punctuator {p : String} (noWord : isNameStart c = false)
      (noDigit : (isAsciiDigit c || (c == '.' && cs.head?.any isAsciiDigit)) = false)
      (noQuote : c ≠ '"' ∧ c ≠ '\'' ∧ c ≠ '\x60')
      (noRegex : (c == '/' && regexAllowed previous) = false)
      (found : (punctuators.find? fun p => beginsWith p.toList (c :: cs)) = some p) :
      Scans signs previous pos c cs .punctuator
        (if p == "?." && (cs.drop 1).head?.any isAsciiDigit then 0 else p.length - 1)

theorem scans_of_scanToken (run : scanToken signs previous pos c cs = .ok (kind, n)) :
    Scans signs previous pos c cs kind n := by
  rw [scanToken, head?_map_getD, head?_map_getD] at run
  split at run
  next start =>
    cases run
    exact .word start
  next noWord =>
  have noWord : isNameStart c = false := by simpa using noWord
  split at run
  next digit =>
    cases run
    exact .number noWord digit
  next noDigit =>
  have noDigit := Bool.eq_false_iff.mpr noDigit
  split at run
  next quote =>
    split at run
    next found =>
      cases run
      exact .string (by simpa using quote) found
    · cases run
  next noQuote =>
  split at run
  next tick =>
    obtain rfl : c = '\x60' := by simpa using tick
    obtain ⟨scan, inner, ok⟩ := ok_of_bind run
    cases ok
    obtain ⟨more, after, part, cuts, rfl, read, rfl⟩ := literal_of_scanTemplate .literal inner
    have bodies := @bodies_eq more part after cuts pos read
    exact bodies ▸ .template rfl rfl read
  next noTick =>
  split at run
  next slash =>
    obtain ⟨rfl, allowed⟩ : c = '/' ∧ regexAllowed previous = true := by simpa using slash
    split at run
    next found =>
      cases run
      exact .regex rfl allowed found
    · cases run
  next noSlash =>
  split at run
  · cases run
  next p found =>
    have scans : Scans signs previous pos c cs .punctuator _ := .punctuator noWord noDigit
      (by simpa [and_assoc] using And.intro noQuote noTick)
      (Bool.eq_false_iff.mpr noSlash)
      found
    split at run
    next digit =>
      cases run
      rwa [if_pos digit] at scans
    next noDigit =>
      cases run
      rwa [if_neg noDigit] at scans

theorem Scans.scanToken (h : Scans signs previous pos c cs kind n) :
    scanToken signs previous pos c cs = .ok (kind, n) := by
  unfold Script.scanToken
  rw [head?_map_getD, head?_map_getD]
  cases h with
  | word start =>
    rw [if_pos start]
    rfl
  | number noWord digit =>
    rw [if_neg (by simp [noWord]), if_pos digit]
    rfl
  | string quote found =>
    have plain : isNameStart c = false ∧ isAsciiDigit c = false ∧ c ≠ '.' := by
      rcases quote with rfl | rfl <;> decide
    rw [if_neg (by simp [plain]), if_neg (by simp [plain]), if_pos (by simpa using quote), found]
    rfl
  | @template more after part cuts tick split read =>
    subst tick split
    rw [if_neg (by decide), if_neg (by simp [isAsciiDigit]), if_neg (by decide),
      if_pos (by decide), scanTemplate_of_literal read .literal]
    show Except.ok (TokenKind.template _, _) = _
    rw [bodies_eq pos read]
  | regex slash allowed found =>
    subst slash
    rw [if_neg (by decide), if_neg (by simp [isAsciiDigit]), if_neg (by decide),
      if_neg (by decide), if_pos (by simp [allowed]), found]
    rfl
  | @punctuator p noWord noDigit noQuote noRegex found =>
    rw [if_neg (by simp [noWord]), if_neg (Bool.eq_false_iff.mp noDigit),
      if_neg (by simp [noQuote]), if_neg (by simp [noQuote]), if_neg (by simp [noRegex]), found]
    show (if _ then pure (_, 0) else pure (_, _)) = _
    split <;> rfl

/-! ## Tokens that are taken -/

theorem takes_word (start : isNameStart c = true) :
    ∃ more after, cs = more ++ after ∧ more.length = (cs.takeWhile isNamePart).length ∧
      Takes signs previous pos c more after .word := by
  obtain ⟨more, after, rfl, word, parts, stops⟩ := takeWhile_split isNamePart cs
  refine ⟨more, after, rfl, by rw [word], ?_, trivial, by simp [start], fun _ => ⟨parts, stops⟩, ?_⟩
  · intro last
    have part := IsName.parts ⟨c, more, rfl, start, parts⟩ _ (mem_of_getLast? last)
    exact absurd part (by decide)
  · intro w before previous' pos' seated _ _ _ plain _
    obtain ⟨same, front⟩ := weave_plain after (plain (by simp))
    obtain ⟨before', behind⟩ := seated.behind
    refine ⟨.word, ?_, .same (by simp)⟩
    rw [scanToken, if_pos start, front, same, takeWhile_append parts (behind.stops_weave stops)]
    rfl

theorem takes_number (noWord : isNameStart c = false)
    (digit : (isAsciiDigit c || (c == '.' && cs.head?.any isAsciiDigit)) = true) :
    ∃ more after, cs = more ++ after ∧ more.length = numberLength signs false cs ∧
      Takes signs previous pos c more after .number := by
  obtain ⟨more, after, rfl, length, plainMore, same⟩ := numberLength_front signs false cs
  refine ⟨more, after, rfl, length, ?_, trivial, by simp [noWord], by simp, ?_⟩
  · intro last
    rcases mem_cons.mp (mem_of_getLast? last) with rfl | later
    · revert digit
      simp [isAsciiDigit]
    · exact plainMore later
  · intro w before previous' pos' seated _ _ _ plain apart
    obtain ⟨sameMore, front⟩ := weave_plain after (plain (by simp))
    have sameHead : (weave w.marks (pos + c.utf8Size + bytes more) after).head? = after.head? := by
      have unmarked : w.marks (pos + c.utf8Size + bytes more) = none := by
        simpa [bytes, Nat.add_assoc] using apart rfl
      cases after with
      | nil => rfl
      | cons d after => rw [weave_cons_none unmarked]; rfl
    have stillDigit : (isAsciiDigit c || (c == '.' && (more ++
        weave w.marks (pos + c.utf8Size + bytes more) after).head?.any isAsciiDigit)) = true := by
      rw [← digit, head?_append, head?_append, sameHead]
    have scans : Scans signs previous' pos' c _ .number _ := .number noWord stillDigit
    rw [same _ sameHead] at scans
    rw [front, sameMore]
    exact ⟨.number, scans.scanToken, .same (by simp)⟩

theorem takes_string (quote : c = '"' ∨ c = '\'') (scan : stringLength? c cs = some n) :
    ∃ more after, cs = more ++ after ∧ more.length = n ∧
      Takes signs previous pos c more after .string := by
  have noEscape : c ≠ '\\' := by
    rintro rfl
    simp at quote
  obtain ⟨more, after, rfl, length, last, same⟩ := stringLength?_front noEscape scan
  have noWord : isNameStart c = false := by
    rcases quote with rfl | rfl <;> decide
  refine ⟨more, after, rfl, length, ?_, trivial, by simp [noWord], by simp, ?_⟩
  · simp [getLast?_cons, last, noEscape]
  · intro w before previous' pos' seated _ _ _ plain _
    obtain ⟨sameMore, front⟩ := weave_plain after (plain (by simp))
    rw [front, sameMore, length]
    exact ⟨.string, (Scans.string quote (same _)).scanToken, .same (by simp)⟩

theorem takes_regex (allowed : regexAllowed previous = true)
    (scan : regexLength? false cs = some n) : ∃ more after, cs = more ++ after ∧
      more.length = n + ((cs.drop n).takeWhile isNamePart).length ∧
      Takes signs previous pos '/' more after .regex := by
  obtain ⟨front, rest, rfl, rfl, last, same⟩ := regexLength?_front scan
  obtain ⟨flags, after, rfl, word, parts, stops⟩ := takeWhile_split isNamePart rest
  refine ⟨front ++ flags, after, by simp, by simp [word], ?_, trivial, by decide, by simp, ?_⟩
  · intro slash
    rw [getLast?_cons, getLast?_append, last] at slash
    cases flagsLast : flags.getLast? with
    | none => simp [flagsLast] at slash
    | some d =>
      obtain rfl : d = '\\' := by simpa [flagsLast] using slash
      exact absurd (parts _ (mem_of_getLast? flagsLast)) (by decide)
  · intro w before previous' pos' seated _ _ regex plain _
    obtain ⟨sameMore, behindMore⟩ := weave_plain after (plain (by simp))
    obtain ⟨before', behind⟩ := seated.behind
    have scans : Scans signs previous' pos' '/' _ .regex _ := .regex rfl (regex.trans allowed)
      (same (flags ++ weave w.marks (pos + '/'.utf8Size + bytes (front ++ flags)) after))
    rw [drop_left, takeWhile_append parts (behind.stops_weave stops)] at scans
    rw [behindMore, sameMore, length_append, append_assoc]
    exact ⟨.regex, scans.scanToken, .same (by simp)⟩

/-- No punctuator holds a character of a name or a backslash. -/
theorem punctuator_chars (member : p ∈ punctuators) :
    ∀ c ∈ p.toList, isNameStart c = false ∧ c ≠ '\\' := by
  have all : (punctuators.all fun p =>
      p.toList.all fun c => decide (isNameStart c = false ∧ c ≠ '\\')) = true := by
    decide +kernel
  exact forall_of_all (all_eq_true.mp all p member)

theorem punctuator_ne_nil (member : p ∈ punctuators) : p.toList ≠ [] := by
  revert p
  decide

theorem takes_punctuator (noWord : isNameStart c = false)
    (noDigit : (isAsciiDigit c || (c == '.' && cs.head?.any isAsciiDigit)) = false)
    (noQuote : c ≠ '"' ∧ c ≠ '\'' ∧ c ≠ '\x60')
    (noRegex : (c == '/' && regexAllowed previous) = false)
    (found : (punctuators.find? fun p => beginsWith p.toList (c :: cs)) = some p) :
    ∃ more after, cs = more ++ after ∧ more.length =
        (if p == "?." && (cs.drop 1).head?.any isAsciiDigit then 0 else p.length - 1) ∧
      Takes signs previous pos c more after .punctuator := by
  have member := mem_of_find?_eq_some found
  have chars := punctuator_chars member
  obtain ⟨rest, whole⟩ : p.toList <+: c :: cs := by
    simpa [beginsWith_iff] using find?_some found
  obtain ⟨d, tail, eq⟩ : ∃ d tail, p.toList = d :: tail :=
    exists_cons_of_ne_nil (punctuator_ne_nil member)
  rw [eq] at whole
  obtain ⟨rfl, rfl⟩ := List.cons.inj whole
  have length : p.length - 1 = tail.length := by
    rw [← String.length_toList, eq]
    rfl
  rw [length]
  generalize more : (if p == "?." && ((tail ++ rest).drop 1).head?.any isAsciiDigit
    then 0 else tail.length) = n
  have le : n ≤ tail.length := by
    rw [← more]
    split <;> omega
  refine ⟨tail.take n, tail.drop n ++ rest, by simp [← append_assoc], by simp [le], ?_, trivial,
    by simp [noWord], by simp, ?_⟩
  · intro last
    have inside : '\\' ∈ d :: tail := by
      rcases mem_cons.mp (mem_of_getLast? last) with same | later
      · simp [← same]
      · exact mem_cons_of_mem _ (mem_of_mem_take later)
    exact absurd rfl (chars '\\' (eq ▸ inside)).2
  · intro w before previous' pos' seated unmarked _ regex plain _
    obtain ⟨sameMore, _⟩ := weave_plain (tail.drop n ++ rest) (plain (by simp))
    have tailSplit : tail.take n ++ (tail.drop n ++ rest) = tail ++ rest := by
      rw [← append_assoc, take_append_drop]
    rw [tailSplit] at seated ⊢
    have unmarked : w.marks pos = none := by simpa using unmarked
    have sameDigit := seated.2.any_head_weave (p := isAsciiDigit) fun c =>
      not_digit_of_isNameStart
    have sameFound : (punctuators.find? fun p => beginsWith p.toList
        (d :: weave w.marks (pos + d.utf8Size) (tail ++ rest))) = some p := by
      rw [← found]
      apply find?_congr
      intro q qMember
      rw [← weave_cons_none unmarked, Bool.eq_iff_iff, beginsWith_iff, beginsWith_iff]
      exact seated.prefix_weave fun c inside => (punctuator_chars qMember c inside).1
    have sameNext : (p == "?." &&
          ((weave w.marks (pos + d.utf8Size) (tail ++ rest)).drop 1).head?.any isAsciiDigit) =
        (p == "?." && ((tail ++ rest).drop 1).head?.any isAsciiDigit) := by
      by_cases optional : p = "?."
      · subst optional
        obtain rfl : tail = ['.'] := by
          have dot : "?.".toList = ['?', '.'] := by decide
          exact (List.cons.inj eq).2.symm
        have dotUnmarked := seated.2.none_of_not_start (by decide)
        have behindDot : Seated w.marks (some '.') (pos + d.utf8Size + '.'.utf8Size) rest := seated.2.2
        have nextDigit := behindDot.any_head_weave (p := isAsciiDigit) fun c =>
          not_digit_of_isNameStart
        rw [singleton_append, weave_cons_none dotUnmarked, drop_one, drop_one,
          tail_cons, tail_cons, nextDigit]
      · rw [beq_false_of_ne optional, Bool.false_and, Bool.false_and]
    have scans : Scans signs previous' pos' d _ .punctuator _ :=
      .punctuator noWord (by rwa [sameDigit]) noQuote (by rwa [regex]) sameFound
    rw [sameNext, length, more] at scans
    rw [sameMore, length_take_of_le le]
    exact ⟨.punctuator, scans.scanToken, .same (by simp)⟩

theorem takes_template {more after part cuts} (read : Literal [.literal] more part cuts) :
    Takes signs previous pos '\x60' more after
      (.template (cuts.map (Cut.body (pos + 1)))) := by
  have tick : '\x60'.utf8Size = 1 := rfl
  refine ⟨?_, ?_, by simp; decide, by simp, ?_⟩
  · simp [getLast?_cons, read.getLast?]
  · refine ⟨fun b member => ?_, ?_⟩
    · obtain ⟨cut, cutMember, rfl⟩ := mem_map.mp member
      obtain ⟨last, rest, split⟩ := read.fits cut cutMember
      have nonempty : cut.1 ≠ [] := fun empty => by simp [empty] at last
      refine ⟨'\x60' :: cut.1, rest, by simp [Cut.body, ← split], ?_,
        by simp [getLast?_cons, last], Nat.succ_lt_succ (length_pos_iff.mpr nonempty)⟩
      simp [Cut.body, bytes, tick, Nat.add_assoc]
    · rw [pairwise_map]
      refine read.inOrder.2.imp fun {a b} before => ?_
      obtain ⟨rest, split⟩ := before
      simp only [Cut.body, ← split, bytes_append]
      omega
  · intro w before previous' pos' seated _ places _ _ _
    have inside := (seated_append.mp seated.2).1
    have split := weave_append w.marks (pos + 1) more after
    have scans : Scans signs previous' pos' '\x60' _ _ _ := .template rfl split (read.weave inside)
    refine ⟨_, scans.scanToken, .template ?_⟩
    rw [map_map, forall₂_map_left_iff, forall₂_map_right_iff, forall₂_same]
    intro cut member
    obtain ⟨rest, split⟩ := (read.fits cut member).2
    rw [← split] at places
    exact ⟨rfl, places.front.behind⟩

/-- Every token of the lexer is a piece of the script that is taken as described. -/
theorem takes_of_scanToken (run : scanToken signs previous pos c cs = .ok (kind, n)) :
    ∃ more after, cs = more ++ after ∧ more.length = n ∧ Takes signs previous pos c more after kind := by
  cases scans_of_scanToken run with
  | word start => exact takes_word start
  | number noWord digit => exact takes_number noWord digit
  | string quote found => exact takes_string quote found
  | @template more after _ _ tick split read =>
    subst tick
    exact ⟨more, after, split, rfl, takes_template read⟩
  | regex slash allowed found =>
    subst slash
    exact takes_regex allowed found
  | punctuator noWord noDigit noQuote noRegex found =>
    exact takes_punctuator noWord noDigit noQuote noRegex found

/-- The tokens of a script from offset `pos` on, after the token `previous`. -/
inductive Lexes (signs : Bool) : Option Token → Nat → List Char → List Token → Prop where
  | done {previous pos gap newline} (trivia : skipTrivia pos .blank gap = .ok ⟨gap.length, newline⟩) :
      Lexes signs previous pos gap []
  | next {previous pos gap newline c more after kind rest}
      (trivia : skipTrivia pos .blank (gap ++ c :: (more ++ after)) = .ok ⟨gap.length, newline⟩)
      (scan : scanToken signs previous (pos + bytes gap) c (more ++ after) = .ok (kind, more.length))
      (others : Lexes signs (some ⟨kind, String.ofList (c :: more), pos + bytes gap, newline⟩)
        (pos + bytes gap + bytes (c :: more)) after rest) :
      Lexes signs previous pos (gap ++ c :: (more ++ after))
        (⟨kind, String.ofList (c :: more), pos + bytes gap, newline⟩ :: rest)

theorem tokensFrom_of_lexes
    (h : Lexes signs previous pos cs tokens) : tokensFrom signs previous pos cs = .ok tokens := by
  induction h with
  | done trivia =>
    rw [tokensFrom, trivia]
    simp only [bind, Except.bind]
    split
    · rfl
    next eq => simp at eq
  | @next previous pos gap newline c more after kind rest trivia scan others ih =>
    rw [tokensFrom, trivia]
    simp only [bind, Except.bind]
    split
    next eq => simp at eq
    next d ds eq =>
      obtain ⟨rfl, rfl⟩ := List.cons.inj (drop_left.symm.trans eq)
      simp only [scan, take_left, drop_left, ih]
      rfl

theorem lexes_of_tokensFrom
    (run : tokensFrom signs previous pos cs = .ok tokens) : Lexes signs previous pos cs tokens := by
  fun_induction tokensFrom signs previous pos cs generalizing tokens with
  | case1 previous pos cs ih =>
    obtain ⟨⟨length, newline⟩, trivia, token⟩ := ok_of_bind run
    obtain ⟨gap, after, rfl, same, _⟩ := gap_of_skipTrivia trivia
    obtain ⟨rfl, _⟩ := Trivia.mk.inj same
    simp only [take_left] at token ih
    split at token
    next empty =>
      cases token
      obtain rfl : after = [] := drop_left.symm.trans empty
      rw [append_nil] at trivia ⊢
      exact .done trivia
    next c rest eq =>
      obtain rfl : after = c :: rest := drop_left.symm.trans eq
      obtain ⟨⟨kind, n⟩, scan, token⟩ := ok_of_bind token
      obtain ⟨tokens, others, ok⟩ := ok_of_bind token
      cases ok
      obtain ⟨more, after, rfl, rfl, _⟩ := takes_of_scanToken scan
      have behind := @ih ⟨gap.length, newline⟩ c (more ++ after) eq kind more.length tokens
      simp only [take_left, drop_left] at others behind ⊢
      exact .next trivia scan (behind others)

theorem tokenize_eq_ok :
    tokenize offset script = .ok tokens ↔
      Lexes (!beginsWith ['0', 'x'] script) none offset script tokens :=
  ⟨lexes_of_tokensFrom, tokensFrom_of_lexes⟩

end Stencil.Script
