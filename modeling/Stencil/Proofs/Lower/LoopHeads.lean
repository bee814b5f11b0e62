import Stencil.Lower.Loop
import Stencil.Proofs.Script.Words

/-! # Heads of loops

A loop is written as its aliases, a word between blanks and its source. Its head is what stands
between them, wherever blanks and parentheses are put, and each part of it has the span of its text.
-/

namespace Stencil

open List Text Option
open Script (Piece IsName isNamePart)

def loopWords : List (List Char) :=
  [['i', 'n'], ['o', 'f']]

/-- Whether a text begins with `in` or `of`, and a blank or nothing stands behind it. -/
def beginsLoopWord (cs : List Char) : Bool :=
  loopWords.any fun word => (after? word cs).any (·.head?.all isBlank)

/-- Whether no word between the blanks of a text is `in` or `of`. One may begin right away if
    `start` says so. -/
def quiet (start : Bool) : List Char → Bool
  | [] => true
  | c :: cs => !(start && beginsLoopWord (c :: cs)) && quiet (isBlank c) cs

variable {cs front back gap source word : List Char}

theorem beginsLoopWord_append (outside : c ∉ ['i', 'n', 'o', 'f'])
    (h : beginsLoopWord (front ++ c :: back) = true) : beginsLoopWord front = true := by
  rcases front with _ | ⟨a, _ | ⟨b, _ | ⟨d, front⟩⟩⟩ <;>
    simp_all [beginsLoopWord, loopWords, after?] <;> grind

theorem quiet_append (outside : c ∉ ['i', 'n', 'o', 'f']) (h : quiet start front = true)
    (h' : quiet true back = true) : quiet start (front ++ c :: back) = true := by
  induction front generalizing start with
  | nil =>
    have none : beginsLoopWord (c :: back) = false := by
      by_contra found
      cases @beginsLoopWord_append [] _ _ outside (by simpa using found)
    have behind : quiet (isBlank c) back = true := by
      cases back <;> simp_all [quiet]
    simp [quiet, none, behind]
  | cons d front ih =>
    simp only [quiet, cons_append, Bool.and_eq_true, Bool.not_eq_true', Bool.and_eq_false_iff] at h ⊢
    refine ⟨h.1.imp_right fun none => ?_, ih h.2⟩
    by_contra found
    simp [@beginsLoopWord_append (d :: front) _ _ outside (by simpa using found)] at none

theorem quiet_lead (outside : ∀ c ∈ gap, c ∉ ['i', 'n', 'o', 'f']) (h : quiet true cs = true) :
    quiet true (gap ++ cs) = true := by
  induction gap with
  | nil => exact h
  | cons c gap ih =>
    obtain ⟨here, later⟩ := forall_mem_cons.mp outside
    exact @quiet_append [] _ _ _ here rfl (ih later)

theorem quiet_join (nonempty : gap ≠ []) (outside : ∀ c ∈ gap, c ∉ ['i', 'n', 'o', 'f'])
    (h : quiet true front = true) (h' : quiet true back = true) :
    quiet true (front ++ (gap ++ back)) = true := by
  obtain ⟨c, gap, rfl⟩ := exists_cons_of_ne_nil nonempty
  obtain ⟨here, later⟩ := forall_mem_cons.mp outside
  exact quiet_append here h (quiet_lead later h')

/-! ## The source -/

theorem loopSource?_eq_some (h : loopSource? cs = some source) :
    beginsLoopWord (cs.dropWhile isBlank) = true ∧ source <:+ cs := by
  simp only [loopSource?] at h
  split at h
  next c rest found =>
    obtain ⟨word, isWord, same⟩ : ∃ word ∈ loopWords, cs.dropWhile isBlank = word ++ c :: rest := by
      split at found
      next same => exact ⟨_, mem_cons_self, found ▸ same⟩
      next same => exact ⟨_, mem_cons_of_mem _ mem_cons_self, found ▸ same⟩
      · cases found
    rw [found] at h
    split at h
    next spaced =>
      obtain rfl := some.inj h
      constructor
      · rw [same, beginsLoopWord, List.any_eq_true]
        exact ⟨word, isWord, by simpa [after?_append] using (Bool.and_eq_true_iff.mp spaced).1⟩
      · have behind : c :: rest <:+ cs.dropWhile isBlank := same ▸ suffix_append word _
        exact (dropWhile_suffix _).trans (behind.trans (dropWhile_suffix _))
    · cases h
  · cases h

theorem loopSource?_append {after} (leading : ∀ c ∈ gap, isBlank c = true)
    (isWord : word ∈ loopWords) (spaced : after ≠ []) (blank : ∀ c ∈ after, isBlank c = true)
    (nonempty : source ≠ []) (head : ∀ c ∈ source.head?, isBlank c = false) :
    loopSource? (gap ++ (word ++ (after ++ source))) = some source := by
  obtain ⟨c, after, rfl⟩ := exists_cons_of_ne_nil spaced
  have finish : (if isBlank c && !((c :: after ++ source).dropWhile isBlank).isEmpty then
      some ((c :: after ++ source).dropWhile isBlank) else none) = some source := by
    rw [dropWhile_around blank head]
    simpa [blank] using nonempty
  simp only [loopWords, mem_cons, not_mem_nil, or_false] at isWord
  rcases isWord with rfl | rfl
  all_goals
    simp only [loopSource?]
    rw [dropWhile_around leading (by rintro _ ⟨⟩; decide)]
    exact finish

theorem not_mem_of_blank (blank : isBlank c = true) : c ∉ ['i', 'n', 'o', 'f'] := by
  have solid : ∀ d ∈ ['i', 'n', 'o', 'f'], isBlank d = false := forall_of_all (by decide)
  exact fun letter => by simp [solid c letter] at blank

/-- No source begins in a text without `in` or `of` that ends with something else than a blank. -/
theorem loopSource?_quiet (isGap : isBlank g = true) (blank : isBlank c = true)
    (h : quiet true cs = true) (last : ∀ d ∈ (c :: cs).getLast?, isBlank d = false) :
    loopSource? (c :: (cs ++ g :: back)) = none := by
  induction cs generalizing c with
  | nil => cases blank.symm.trans (last c rfl)
  | cons d cs ih =>
    have last' : ∀ e ∈ (d :: cs).getLast?, isBlank e = false := by simpa using last
    cases next : isBlank d with
    | true =>
      have same : loopSource? (c :: (d :: cs ++ g :: back)) = loopSource? (d :: cs ++ g :: back) := by
        simp [loopSource?, blank]
      rw [same]
      exact ih next (by simpa [next] using (Bool.and_eq_true_iff.mp h).2) last'
    | false =>
      rw [eq_none_iff_forall_ne_some]
      intro source found
      have begins := (loopSource?_eq_some found).1
      rw [dropWhile_cons_of_pos blank, cons_append, dropWhile_cons_of_neg (by simp [next]),
        ← cons_append] at begins
      simp [quiet, beginsLoopWord_append (not_mem_of_blank isGap) begins] at h

/-- A loop is cut before the blanks and the word that stand behind its aliases. -/
theorem splitLoop?_append (h : quiet start front = true)
    (last : ∀ c ∈ front.getLast?, isBlank c = false) (spaced : gap ≠ [])
    (blank : ∀ c ∈ gap, isBlank c = true) (found : loopSource? (gap ++ back) = some source) :
    splitLoop? (front ++ (gap ++ back)) = some (front, source) := by
  obtain ⟨g, gap, rfl⟩ := exists_cons_of_ne_nil spaced
  have isGap := blank g mem_cons_self
  induction front generalizing start with
  | nil =>
    rw [cons_append] at found
    rw [nil_append, cons_append, splitLoop?.eq_def]
    dsimp only
    rw [if_pos isGap, found]
  | cons c front ih =>
    have quiet' := (Bool.and_eq_true_iff.mp h).2
    have none : (if isBlank c then loopSource? (c :: (front ++ (g :: gap ++ back))) else none) =
        none := by
      split
      next isBlank => exact loopSource?_quiet isGap isBlank (isBlank ▸ quiet') last
      · rfl
    rw [cons_append, splitLoop?.eq_def]
    dsimp only
    rw [none, ih quiet' fun d isLast => last d (by rw [getLast?_cons, isLast]; rfl)]
    rfl

/-! ## The aliases -/

/-- A comma behind which a bracket is closed belongs to the value. -/
theorem splitAliases_append {rest : List Char} (closed : ',' ∈ cs → '\x7d' ∈ rest ∨ ']' ∈ rest) :
    splitAliases (cs ++ rest) = (cs ++ (splitAliases rest).1, (splitAliases rest).2) := by
  induction cs with
  | nil => rfl
  | cons c cs ih =>
    have none : (if c = ',' then keyAndIndex? (cs ++ rest) else none) = none := by
      split
      next comma =>
        rw [keyAndIndex?]
        rcases closed (comma ▸ mem_cons_self) with inside | inside <;> simp [inside]
      · rfl
    rw [cons_append, splitAliases.eq_def]
    dsimp only
    rw [none, ih fun inside => closed (mem_cons_of_mem c inside)]
    rfl

theorem splitAliases_comma (found : keyAndIndex? cs = some r) :
    splitAliases (',' :: cs) = ([], some r) := by
  rw [splitAliases.eq_def]
  dsimp only
  rw [if_pos rfl, found]

theorem not_mem_of_plain (plain : ∀ d ∈ cs, isBlank d = true ∨ isNamePart d = true) :
    ∀ c ∈ [',', '\x7d', ']', '(', ')'], c ∉ cs := by
  have marks : ∀ c ∈ [',', '\x7d', ']', '(', ')'], isBlank c = false ∧ isNamePart c = false :=
    forall_of_all (by decide)
  intro c mark inside
  simpa [marks c mark] using plain c inside

theorem plain_around (leading : ∀ c ∈ front, isBlank c = true) (isName : IsName name)
    (trailing : ∀ c ∈ back, isBlank c = true) :
    ∀ c ∈ front ++ (name ++ back), isBlank c = true ∨ isNamePart c = true := by
  simp only [forall_mem_append]
  exact ⟨fun c inside => .inl (leading c inside), fun c inside => .inr (isName.parts c inside),
    fun c inside => .inl (trailing c inside)⟩

theorem keyAndIndex?_one (plain : ∀ c ∈ cs, isBlank c = true ∨ isNamePart c = true) :
    keyAndIndex? cs = some (cs, none) := by
  have absent := not_mem_of_plain plain
  simp [keyAndIndex?, absent, pieces_eq_singleton]

theorem keyAndIndex?_two (plain : ∀ c ∈ front, isBlank c = true ∨ isNamePart c = true)
    (plain' : ∀ c ∈ back, isBlank c = true ∨ isNamePart c = true) :
    keyAndIndex? (front ++ ',' :: back) = some (front, some back) := by
  have absent := not_mem_of_plain plain
  have absent' := not_mem_of_plain plain'
  simp [keyAndIndex?, absent, absent', pieces_append, pieces_eq_singleton]

/-! ## Reading -/

/-- The aliases of a loop without the parentheses around them. -/
def stripParens (cs : List Char) : List Char :=
  let inner := match cs with
    | '(' :: rest => rest
    | _ => cs
  (before? [')'] inner).getD inner

theorem stripParens_bare (bare : ∀ rest, cs = '(' :: rest → False) :
    stripParens cs = (before? [')'] cs).getD cs := by
  unfold stripParens
  split
  next rest => cases bare rest rfl
  · rfl

theorem LoopHead.of_read? {e head} (read : read? e = some head) :
    ∃ front back start value rest, splitLoop? e.source.toList = some (front, back) ∧
      Piece e.span.start front start (stripParens (trim front)) ∧
      splitAliases (stripParens (trim front)) = (value, rest) ∧
      head.source = .snippet (String.ofList (trimEnd back)) false
          ⟨e.span.start + (bytes e.source.toList - bytes back),
            e.span.start + (bytes e.source.toList - bytes back) + bytes (trimEnd back)⟩ ∧
      head.value = loopPart? start value ∧
      head.key = rest.bind (fun r => loopPart? (start + bytes value + 1) r.1) ∧
      head.index = rest.bind fun r =>
        r.2.bind (loopPart? (start + bytes value + 1 + bytes r.1 + 1)) := by
  unfold read? at read
  extract_lets script at read
  split at read
  · cases read
  next front back found =>
    extract_lets sourceStart sourceText source opened first at read
    obtain ⟨before, after, eq, blanks, -⟩ := trim_eq front
    have whole : Piece e.span.start front first opened :=
      ⟨before, after, eq, by simp only [first, blanks]⟩
    refine ⟨front, back, ?_⟩
    rw [show trim front = opened from rfl]
    clear_value opened first
    split at read
    next aliases start opens =>
    extract_lets inner at read
    have strip : inner = stripParens opened ∧ Piece e.span.start front start aliases := by
      split at opens
      · cases opens
        exact ⟨rfl, whole.trans ⟨['('], [], by simp, rfl⟩⟩
      next other =>
        cases opens
        exact ⟨(stripParens_bare other).symm, whole⟩
    have closed : Piece e.span.start front start inner := by
      cases close : before? [')'] aliases with
      | none => simpa [inner, close] using strip.2
      | some content =>
        refine strip.2.trans ⟨[], [')'], ?_, rfl⟩
        simpa [inner, close] using before?_eq_some close
    split at read
    next value rest isSplit =>
    rw [strip.1] at closed isSplit
    refine ⟨start, value, rest, found, closed, isSplit, ?_⟩
    split at read
    all_goals
      cases read
      exact ⟨rfl, rfl, rfl, rfl⟩

theorem eq_append_of_splitLoop? (h : splitLoop? cs = some (front, back)) :
    ∃ gap, cs = front ++ (gap ++ back) := by
  induction cs generalizing front with
  | nil =>
    cases h
  | cons c cs ih =>
    rw [splitLoop?.eq_def] at h
    dsimp only at h
    split at h
    next source found =>
      obtain ⟨rfl, rfl⟩ := Prod.mk.inj (some.inj h)
      split at found
      · obtain ⟨gap, same⟩ := (loopSource?_eq_some found).2
        exact ⟨gap, same.symm⟩
      · cases found
    · obtain ⟨⟨front', back'⟩, found, same⟩ := map_eq_some_iff.mp h
      obtain ⟨rfl, rfl⟩ := Prod.mk.inj same
      obtain ⟨gap, rfl⟩ := ih found
      exact ⟨gap, rfl⟩

/-- Value, key and index stand one after the other, with a comma between them. -/
theorem eq_append_of_splitAliases (h : splitAliases cs = (front, rest)) :
    cs = front ++ (rest.map fun r => ',' :: r.1 ++ (r.2.map (',' :: ·)).getD []).getD [] := by
  have inner {cs : List Char} {r} (found : keyAndIndex? cs = some r) :
      cs = r.1 ++ (r.2.map (',' :: ·)).getD [] := by
    have joined := flatMap_pieces ',' cs
    rw [keyAndIndex?] at found
    split at found
    · cases found
    · split at found
      next same =>
        cases found
        simpa [same] using joined.symm
      next same =>
        cases found
        simpa [same] using joined.symm
      · cases found
  induction cs generalizing front with
  | nil =>
    cases h
    rfl
  | cons c cs ih =>
    rw [splitAliases.eq_def] at h
    dsimp only at h
    split at h
    next r found =>
      cases h
      split at found
      next comma => simp [comma, inner found]
      · cases found
    · cases h
      simpa using ih rfl

/-- A script that is a piece of a text. -/
def Expression.PieceOf (base : Nat) (text : List Char) (e : Expression) : Prop :=
  ∃ start cs, e = .snippet (String.ofList cs) false ⟨start, start + bytes cs⟩ ∧
    Piece base text start cs

theorem pieceOf_loopPart? (inside : Piece base cs place front)
    (found : loopPart? place front = some e) : e.PieceOf base cs := by
  obtain ⟨before, after, split, blanks, -⟩ := trim_eq front
  simp only [loopPart?] at found
  split at found
  · cases found
  · cases found
    refine ⟨_, _, rfl, inside.trans ⟨before, after, split, ?_⟩⟩
    rw [blanks]

def LoopHead.aliases (h : LoopHead) : List Expression :=
  h.value.toList ++ (h.key.toList ++ h.index.toList)

/-- Every part that is read stands in the text of the loop. -/
theorem LoopHead.pieceOf_read? {e head} (read : read? e = some head) :
    ∀ part ∈ head.source :: head.aliases, part.PieceOf e.span.start e.source.toList := by
  obtain ⟨front, back, start, value, rest, found, inside, isSplit, source, isValue, isKey, isIndex⟩ :=
    of_read? read
  obtain ⟨gap, whole⟩ := eq_append_of_splitLoop? found
  have inside : Piece e.span.start e.source.toList start _ :=
    .trans ⟨[], gap ++ back, whole, rfl⟩ inside
  rw [eq_append_of_splitAliases isSplit] at inside
  simp only [aliases, forall_mem_cons, forall_mem_append, mem_toList, source, isValue, isKey, isIndex]
  have comma : bytes [','] = 1 := by decide
  refine ⟨⟨_, _, rfl, ?_⟩, ?_, ?_, ?_⟩
  · refine ⟨front ++ gap, (back.reverse.takeWhile isBlank).reverse, ?_, ?_⟩
    · rw [whole, append_assoc, trimEnd_eq]
    · simp [whole, ← Nat.add_assoc]
  · exact fun e => pieceOf_loopPart? (inside.trans ⟨[], _, rfl, rfl⟩)
  · intro part member
    obtain ⟨r, rfl, found⟩ := bind_eq_some_iff.mp member
    refine pieceOf_loopPart? (inside.trans ⟨value ++ [','], _, by simp; rfl, ?_⟩) found
    simp [comma, Nat.add_assoc]
  · intro part member
    obtain ⟨⟨key, index⟩, rfl, found⟩ := bind_eq_some_iff.mp member
    obtain ⟨index, rfl, found⟩ := bind_eq_some_iff.mp found
    refine pieceOf_loopPart?
      (inside.trans ⟨value ++ ([','] ++ (key ++ [','])), [], by simp, ?_⟩) found
    simp only [bytes_append, comma, Nat.add_assoc]

/-! ## Writing -/

/-- A key or index behind a comma, with the blanks around the comma. -/
structure LoopAlias where
  before : List Char
  after : List Char
  name : List Char

def LoopAlias.text (a : LoopAlias) : List Char :=
  a.before ++ ',' :: a.after ++ a.name

/-- `value, key, index in source` with blanks wherever they may stand. -/
structure LoopText where
  front : List Char
  /-- Whether the aliases stand in parentheses. -/
  parens : Bool
  /-- The blanks inside of the parentheses. -/
  pads : List Char × List Char
  value : List Char
  aliases : List LoopAlias
  before : List Char
  word : List Char
  after : List Char
  source : List Char
  back : List Char

/-- A text with something else than blanks and parentheses at its ends. -/
structure Firm (cs : List Char) : Prop where
  nonempty : cs ≠ []
  ends : ∀ c, c ∈ cs.head? ∨ c ∈ cs.getLast? → isBlank c = false ∧ c ∉ ['(', ')']

namespace Firm

theorem name (h : IsName cs) : Firm cs := by
  have marks : ∀ c ∈ ['(', ')'], isNamePart c = false := forall_of_all (by decide)
  refine ⟨fun empty => ?_, fun c isEnd => ?_⟩
  · obtain ⟨c, more, same, -⟩ := h
    cases empty.symm.trans same
  · have part := h.parts c (isEnd.elim mem_of_mem_head? mem_of_getLast?)
    refine ⟨Bool.eq_false_iff.mpr fun blank => ?_, fun paren => by simp [marks c paren] at part⟩
    cases part.symm.trans (Script.isNamePart_of_isBlank blank)

theorem bracket (left : l ∈ ['\x7b', '['])
    (right : r ∈ ['\x7d', ']']) : Firm (l :: (middle ++ [r])) := by
  have marks : ∀ c ∈ ['\x7b', '[', '\x7d', ']'], isBlank c = false ∧ c ∉ ['(', ')'] :=
    forall_of_all (by decide)
  refine ⟨cons_ne_nil _ _, fun c isEnd => marks c ?_⟩
  rw [← cons_append, getLast?_concat] at isEnd
  rcases isEnd with ⟨⟨⟩⟩ | ⟨⟨⟩⟩
  · exact mem_append_left ['\x7d', ']'] left
  · exact mem_append_right ['\x7b', '['] right

theorem append (h : Firm front) (h' : Firm back) : Firm (front ++ (gap ++ back)) := by
  refine ⟨append_ne_nil_of_left_ne_nil h.nonempty _, fun c isEnd => ?_⟩
  rw [head?_append_of_ne_nil _ h.nonempty, ← append_assoc,
    getLast?_append_of_ne_nil _ h'.nonempty] at isEnd
  exact isEnd.elim (h.ends c ∘ .inl) (h'.ends c ∘ .inr)

variable (h : Firm cs)
include h

theorem trimmed : Trimmed cs :=
  ⟨fun c head => (h.ends c (.inl head)).1, fun c last => (h.ends c (.inr last)).1⟩

theorem stripParens_eq : stripParens cs = cs := by
  obtain ⟨c, rest, rfl⟩ := exists_cons_of_ne_nil h.nonempty
  have opened : c ≠ '(' := by
    rintro rfl
    simpa using h.ends '(' (.inl rfl)
  have closed : before? [')'] (c :: rest) = none := by
    rw [eq_none_iff_forall_ne_some]
    intro front found
    have last := h.ends ')' (.inr ?_)
    · simp at last
    · rw [before?_eq_some found, getLast?_concat]
      rfl
  simp [stripParens, opened, closed]

theorem loopPart?_around (leading : ∀ c ∈ front, isBlank c = true)
    (trailing : ∀ c ∈ back, isBlank c = true) :
    (loopPart? place (front ++ (cs ++ back))).map Expression.source = some (String.ofList cs) := by
  simp only [loopPart?, h.trimmed.trim_around leading trailing]
  rw [if_neg (by simpa using h.nonempty)]
  rfl

end Firm

namespace LoopText

variable (t : LoopText)

def gaps : List (List Char) :=
  t.front :: t.before :: t.after :: t.back :: t.pads.1 :: t.pads.2 ::
    t.aliases.flatMap fun a => [a.before, a.after]

def inner : List Char :=
  t.value ++ t.aliases.flatMap LoopAlias.text

def outer : List Char :=
  if t.parens then '(' :: (t.pads.1 ++ (t.inner ++ (t.pads.2 ++ [')']))) else t.inner

def text : List Char :=
  t.front ++ (t.outer ++ (t.before ++ (t.word ++ (t.after ++ (t.source ++ t.back)))))

/-- Value, key and index are names, but the value may be anything in brackets, and none of their
    words is `in` or `of`. -/
structure Legal : Prop where
  blank : ∀ gap ∈ t.gaps, ∀ c ∈ gap, isBlank c = true
  bare : t.parens = false → t.pads = ([], [])
  spaced : t.before ≠ [] ∧ t.after ≠ []
  isWord : t.word ∈ loopWords
  isSource : t.source ≠ [] ∧ Trimmed t.source
  isValue : IsName t.value ∨ ∃ l ∈ ['\x7b', '['], ∃ middle, ∃ r ∈ ['\x7d', ']'],
    t.value = l :: (middle ++ [r])
  isAlias : ∀ a ∈ t.aliases, IsName a.name
  few : t.aliases.length ≤ 2
  quiet : ∀ part ∈ t.value :: t.aliases.map LoopAlias.name, quiet true part = true

variable {t}

theorem inner_induction {P : List Char → Prop} (value : P t.value)
    (step : ∀ front, P front → ∀ a ∈ t.aliases, P (front ++ a.text)) : P t.inner := by
  have run : ∀ (as : List LoopAlias) (front : List Char), as ⊆ t.aliases → P front →
      P (front ++ as.flatMap LoopAlias.text) := by
    intro as
    induction as with
    | nil => simp
    | cons a as ih =>
      intro front known holds
      obtain ⟨here, later⟩ := cons_subset.mp known
      rw [flatMap_cons, ← append_assoc]
      exact ih _ later (step front holds a here)
  exact run t.aliases t.value (Subset.refl _) value

namespace Legal

variable (legal : t.Legal)
include legal

theorem quiet_outer : Stencil.quiet true (t.front ++ t.outer) = true := by
  have outside : ∀ gap ∈ t.gaps, ∀ c ∈ gap, c ∉ ['i', 'n', 'o', 'f'] :=
    fun gap isGap c inside => not_mem_of_blank (legal.blank gap isGap c inside)
  simp only [gaps, forall_mem_cons, forall_mem_flatMap] at outside
  obtain ⟨front, -, -, -, opening, closing, aliases⟩ := outside
  obtain ⟨value, names⟩ := forall_mem_cons.mp legal.quiet
  have inner : Stencil.quiet true t.inner = true := by
    refine inner_induction (P := (Stencil.quiet true · = true)) value fun front quiet a here => ?_
    refine quiet_join (by simp) ?_ quiet (names _ (mem_map_of_mem here))
    have := aliases a here
    simp_all [or_imp, forall_and]
  unfold outer
  split
  · have opened : ∀ c ∈ t.front ++ '(' :: t.pads.1, c ∉ ['i', 'n', 'o', 'f'] := by
      simp_all [or_imp, forall_and]
    have closed : ∀ c ∈ t.pads.2 ++ [')'], c ∉ ['i', 'n', 'o', 'f'] := by
      simp_all [or_imp, forall_and]
    have all := quiet_lead opened (@quiet_join _ [] _ (by simp) closed inner rfl)
    simpa using all
  · exact quiet_lead front inner

theorem firm_value : Firm t.value := by
  rcases legal.isValue with name | ⟨l, left, middle, r, right, same⟩
  · exact .name name
  · exact same ▸ .bracket left right

theorem of_outer : t.outer ≠ [] ∧ Trimmed t.outer ∧
    stripParens t.outer = t.pads.1 ++ (t.inner ++ t.pads.2) := by
  have firm : Firm t.inner := inner_induction legal.firm_value fun _ firm a here =>
    firm.append (.name (legal.isAlias a here))
  unfold outer
  split
  · have round : isBlank '(' = false ∧ isBlank ')' = false := by decide
    refine ⟨cons_ne_nil _ _, ?_, by simp [stripParens, before?, after?]⟩
    simpa [Trimmed, getLast?_cons] using round
  next bare =>
    refine ⟨firm.nonempty, firm.trimmed, ?_⟩
    simpa [legal.bare (by simpa using bare)] using firm.stripParens_eq

/-- The value is cut where the blanks behind it end. -/
theorem splitAliases_value (leading : ∀ c ∈ p, isBlank c = true)
    (trailing : ∀ c ∈ q, isBlank c = true) (tail) :
    splitAliases (p ++ (t.value ++ q) ++ tail) =
      (p ++ (t.value ++ q) ++ (splitAliases tail).1, (splitAliases tail).2) := by
  rcases legal.isValue with name | ⟨l, left, middle, r, right, same⟩
  · have absent := not_mem_of_plain (plain_around leading name trailing) ',' (by simp)
    exact splitAliases_append (absurd · absent)
  · have other : r ≠ ',' := by
      rintro rfl
      simp at right
    have absent : ',' ∉ r :: q := by
      have := not_mem_of_plain (fun c inside => .inl (trailing c inside)) ',' (by simp)
      simp [this, other.symm]
    have front := @splitAliases_append (p ++ l :: middle) (r :: q ++ tail) fun _ => by
      rcases mem_cons.mp right with rfl | right <;> simp_all
    rw [@splitAliases_append (r :: q) tail (absurd · absent)] at front
    simpa [same] using front

end Legal

end LoopText

theorem LoopHead.read?_of_splitLoop? {e : Expression}
    (found : splitLoop? e.source.toList = some r) : ∃ head, read? e = some head := by
  unfold read?
  dsimp only
  rw [found]
  dsimp only
  split <;> exact ⟨_, rfl⟩

/-- The head has the parts that the text is made of. -/
def LoopText.Names (t : LoopText) (head : LoopHead) : Prop :=
  head.source.source = String.ofList t.source ∧
    head.value.map Expression.source = some (String.ofList t.value) ∧
    head.key.map Expression.source = t.aliases[0]?.map (String.ofList ·.name) ∧
    head.index.map Expression.source = t.aliases[1]?.map (String.ofList ·.name)

theorem LoopText.Legal.read {t : LoopText} {e : Expression} (legal : t.Legal)
    (written : e.source.toList = t.text) : ∃ head, LoopHead.read? e = some head ∧ t.Names head := by
  have blank := legal.blank
  simp only [gaps, forall_mem_cons, forall_mem_flatMap] at blank
  obtain ⟨front, before, after, back, p, q, aliases⟩ := blank
  obtain ⟨nonempty, trimmed, stripped⟩ := legal.of_outer
  have split : splitLoop? e.source.toList = some (t.front ++ t.outer, t.source ++ t.back) := by
    have found : loopSource? (t.before ++ (t.word ++ (t.after ++ (t.source ++ t.back)))) =
        some (t.source ++ t.back) := by
      refine loopSource?_append before legal.isWord legal.spaced.2 after
        (by simp [legal.isSource.1]) ?_
      rw [head?_append_of_ne_nil _ legal.isSource.1]
      exact legal.isSource.2.1
    have last : ∀ c ∈ (t.front ++ t.outer).getLast?, isBlank c = false := by
      rw [getLast?_append_of_ne_nil _ nonempty]
      exact trimmed.2
    rw [written, text, ← append_assoc]
    exact splitLoop?_append legal.quiet_outer last legal.spaced.1 before found
  obtain ⟨head, read⟩ := LoopHead.read?_of_splitLoop? split
  obtain ⟨_, _, start, value, rest, same, -, isSplit, source, isValue, isKey, isIndex⟩ :=
    LoopHead.of_read? read
  obtain ⟨rfl, rfl⟩ := Prod.mk.inj (some.inj (split.symm.trans same))
  have opened := @Trimmed.trim_around _ _ [] trimmed front (by simp)
  rw [append_nil] at opened
  rw [opened, stripped] at isSplit
  refine ⟨head, read, ?_, ?_⟩
  · rw [source, trimEnd_append legal.isSource.2.2 back]
    rfl
  rw [isValue, isKey, isIndex]
  have cut {gap tail : List Char} {r} (blank : ∀ c ∈ gap, isBlank c = true)
      (behind : splitAliases tail = ([], r)) (whole : t.inner ++ t.pads.2 = t.value ++ gap ++ tail) :
      (loopPart? start value).map Expression.source = some (String.ofList t.value) ∧ rest = r := by
    have all := legal.splitAliases_value p blank tail
    rw [append_assoc, ← whole, behind, append_nil, isSplit] at all
    obtain ⟨rfl, rfl⟩ := Prod.mk.inj all
    exact ⟨legal.firm_value.loopPart?_around p blank, rfl⟩
  have names := legal.isAlias
  rcases known : t.aliases with _ | ⟨k, _ | ⟨i, _ | _⟩⟩
  all_goals
    simp only [known, forall_mem_cons] at names aliases
  · obtain ⟨isValue, rfl⟩ := @cut t.pads.2 [] none q rfl (by simp [inner, known])
    exact ⟨isValue, rfl, rfl⟩
  · have key := keyAndIndex?_one (plain_around aliases.1.2.1 names.1 q)
    obtain ⟨isValue, rfl⟩ := cut aliases.1.1 (splitAliases_comma key)
      (by simp [inner, LoopAlias.text, known])
    exact ⟨isValue, (Firm.name names.1).loopPart?_around aliases.1.2.1 q, rfl⟩
  · have both := keyAndIndex?_two (plain_around aliases.1.2.1 names.1 aliases.2.1.1)
      (plain_around aliases.2.1.2.1 names.2.1 q)
    obtain ⟨isValue, rfl⟩ := cut aliases.1.1 (splitAliases_comma both)
      (by simp [inner, LoopAlias.text, known])
    exact ⟨isValue, (Firm.name names.1).loopPart?_around aliases.1.2.1 aliases.2.1.1,
      (Firm.name names.2.1).loopPart?_around aliases.2.1.2.1 q⟩
  · have few := legal.few
    simp [known] at few

theorem Expression.PieceOf.slice {e : Expression} (h : e.PieceOf base cs) :
    base ≤ e.span.start ∧
      slice? (e.span.start - base) (e.span.stop - base) cs = some e.source.toList := by
  obtain ⟨_, piece, rfl, front, after, rfl, rfl⟩ := h
  have here := slice?_append front piece after
  simpa [span, Expression.source, snippet, Snippet.new, Nat.add_assoc] using here

/-- A loop that is written in any of its forms is read as its parts. Whatever is read as a loop,
    the spans of its parts are where their texts stand. -/
theorem LoopHead.read?_text :
    (∀ (t : LoopText) (e : Expression), t.Legal → e.source.toList = t.text →
      ∃ head, read? e = some head ∧ t.Names head) ∧
    ∀ (e : Expression) (head : LoopHead), read? e = some head →
      ∀ part ∈ head.source :: head.aliases, e.span.start ≤ part.span.start ∧
        slice? (part.span.start - e.span.start) (part.span.stop - e.span.start) e.source.toList =
          some part.source.toList :=
  ⟨fun _ _ legal written => legal.read written,
    fun _ _ read part isPart => (pieceOf_read? read part isPart).slice⟩

def spacedLoop : LoopText where
  front := [' ']
  parens := true
  pads := ([' '], [])
  value := "\x7b a, b \x7d".toList
  aliases := [⟨[], [' '], ['k']⟩, ⟨[' '], [], ['j']⟩]
  before := [' ', '\n']
  word := ['o', 'f']
  after := ['\t']
  source := "xs".toList
  back := [' ']

theorem spacedLoop_read : ∃ head,
    LoopHead.read? (.snippet " ( \x7b a, b \x7d, k ,j) \nof\txs " false ⟨4, 4⟩) = some head ∧
      head.source.source = "xs" ∧ head.value.map Expression.source = some "\x7b a, b \x7d" ∧
      head.key.map Expression.source = some "k" ∧ head.index.map Expression.source = some "j" := by
  have name {c : Char} (start : Script.isNameStart c = true) : IsName [c] :=
    ⟨c, [], rfl, start, by simp⟩
  have blank : spacedLoop.gaps.all (·.all isBlank) = true := by decide
  have legal : spacedLoop.Legal :=
    { blank := by simpa using blank
      bare := by decide
      spaced := by decide
      isWord := by decide
      isSource := ⟨by decide, trimmed_of_all (by decide) (by decide)⟩
      isValue := .inr ⟨'\x7b', by decide, " a, b ".toList, '\x7d', by decide, by decide⟩
      isAlias := by simpa [spacedLoop] using ⟨name (by decide), name (by decide)⟩
      few := by decide
      quiet := by decide }
  exact LoopHead.read?_text.1 spacedLoop _ legal (by decide)

end Stencil
