import Stencil.Proofs.Script.Words

/-! # Lexing a script that was written into

If marks stand only on words, and none right behind a number, then the tokens of the script that was
written into are the tokens of the script with the tokens of the marks before the marked words.
-/

namespace Stencil.Text

theorem append_inj_of_bytes (eq : a ++ b = a' ++ b') (size : bytes a = bytes a') : a = a' ∧ b = b' := by
  have empty : ∀ {x : List Char}, bytes x = 0 → x = [] := fun {x} none => by
    cases x with
    | nil => rfl
    | cons c x => exact absurd none (by have := c.utf8Size_pos; simp only [bytes]; omega)
  rcases List.append_eq_append_iff.mp eq with ⟨x, rfl, rfl⟩ | ⟨x, rfl, rfl⟩ <;>
    simp [empty (x := x) (by simpa using size)]

end Stencil.Text

namespace Stencil.Script

open List Text Nat Script

/-- What a mark on a word may write. -/
def Mark.Fits (id : Ident) (k : Mark) : Prop :=
  k = .context ∨ k = .property id.name

variable {after cs more : List Char} {newline signs : Bool} {id : Ident} {k : Mark} {pos : Nat}
  {before : Option Char} {previous : Option Token}

theorem Mark.Fits.named (fits : k.Fits id) (name : IsName id.name.toList) : k.Named := by
  rcases fits with rfl | rfl
  · trivial
  · exact name

/-- Between two offsets, marks stand only on words of the tokens. -/
def OnWords (m : Marks) (lo hi : Nat) (tokens : List Token) : Prop :=
  ∀ p k, lo ≤ p → p < hi → m p = some k → ∃ id, Word tokens id ∧ id.start = p ∧ k.Fits id

/-- The last character before a place is no backslash. -/
def Plain (before : Option Char) (front : List Char) : Prop :=
  front.getLast?.or before ≠ some '\\'

theorem plain_append : Plain before (a ++ b) ↔ Plain (a.getLast?.or before) b := by
  rw [Plain, Plain, getLast?_append, Option.or_assoc]

theorem seated_of
    (h : ∀ front c after k, cs = front ++ c :: after → m (pos + bytes front) = some k →
      isNameStart c = true ∧ Plain before front ∧ k.Named) : Seated m before pos cs := by
  induction cs generalizing before pos with
  | nil => trivial
  | cons c cs ih =>
    refine ⟨fun k mark => h [] c cs k rfl (by simpa [bytes] using mark), ih ?_⟩
    rintro front d after k rfl mark
    obtain ⟨start, plain, named⟩ := h (c :: front) d after k rfl
      (by simpa [bytes, Nat.add_assoc] using mark)
    exact ⟨start, by rwa [Plain, getLast?_cons_or] at plain, named⟩

theorem Lexes.piece_plain (h : Lexes signs previous pos cs tokens) (start : before ≠ some '\\')
    (member : t ∈ tokens) :
    ∃ front after, cs = front ++ (t.text.toList ++ after) ∧ t.start = pos + bytes front ∧
      Plain before front := by
  induction h generalizing before with
  | done => cases member
  | @next previous pos gap newline c more after kind rest trivia scan others ih =>
    obtain ⟨more', after', moreEq, moreLength, takes⟩ := takes_of_scanToken scan
    obtain ⟨rfl, rfl⟩ := append_inj moreEq moreLength.symm
    rcases mem_cons.mp member with rfl | later
    · refine ⟨gap, after, by simp, rfl, ?_⟩
      have other := ((skipTrivia_eq_ok.mp trivia).1.mono (by simp)).getLast?_ne
      cases last : gap.getLast? with
      | none => simpa [Plain, last] using start
      | some d => simpa [Plain, last] using other
    · obtain ⟨front, after, rfl, place, plain⟩ := ih takes.last later
      refine ⟨gap ++ c :: more ++ front, after, by simp, ?_, ?_⟩
      · simp only [Text.bytes_append]
        omega
      · rw [plain_append]
        simpa [getLast?_cons] using plain

theorem Word.piece_plain (h : Word tokens id)
    (lexes : Lexes signs previous pos cs tokens) (start : before ≠ some '\\') :
    ∃ front after, cs = front ++ (id.name.toList ++ after) ∧ id.start = pos + bytes front ∧
      Plain before front := by
  induction h generalizing signs previous pos cs before with
  | token member kind free => exact lexes.piece_plain start member
  | @inBody tokens t b inner id body lexed word ih =>
    obtain ⟨front, after, rfl, place, _⟩ := lexes.piece_plain start body.1
    obtain ⟨member, bodies, kind, inside⟩ := body
    have sound := (lexes.tidy.sound t member).kind
    rw [kind] at sound
    obtain ⟨bFront, bAfter, split, offset, brace, _⟩ := sound.piece b inside
    have afterBrace : some '{' ≠ some '\\' := by decide
    obtain ⟨wFront, wAfter, bText, wPlace, plain⟩ := ih (tokenize_eq_ok.mp lexed) afterBrace
    refine ⟨front ++ bFront ++ wFront, wAfter ++ bAfter ++ after, by simp [split, bText], ?_, ?_⟩
    · simp only [Text.bytes_append]
      omega
    · rw [plain_append, getLast?_append, brace]
      exact plain

theorem OnWords.seated (on : OnWords m pos (pos + bytes cs) tokens)
    (lexes : Lexes signs previous pos cs tokens) (start : before ≠ some '\\') :
    Seated m before pos cs := by
  apply seated_of
  rintro front c after k rfl mark
  have size := c.utf8Size_pos
  obtain ⟨id, word, place, fits⟩ := on (pos + bytes front) k (by omega)
    (by simp only [Text.bytes_append, bytes]; omega) mark
  obtain ⟨front', after', eq, place', plain⟩ := word.piece_plain lexes start
  have name := (word.isName lexes.tidy).1
  obtain ⟨rfl, rest⟩ := Text.append_inj_of_bytes eq (by omega)
  refine ⟨?_, plain, fits.named name⟩
  obtain ⟨d, ds, eq, dStart, _⟩ := name
  rw [eq] at rest
  cases rest
  exact dStart

/-- A place right behind a number. -/
inductive AfterNumber : List Token → Nat → Prop where
  | token {tokens t} (member : t ∈ tokens) (kind : t.kind = .number) : AfterNumber tokens t.stop
  | inBody {tokens t b inner p} (body : BodyOf tokens t b)
      (lexed : tokenize b.offset b.text = .ok inner) (h : AfterNumber inner p) : AfterNumber tokens p

/-- No mark stands right behind a number. -/
def Clear (m : Marks) (tokens : List Token) : Prop :=
  ∀ p, AfterNumber tokens p → m p = none

theorem Clear.inBody {inner t b} (clear : Clear m tokens) (body : BodyOf tokens t b)
    (lexed : tokenize b.offset b.text = .ok inner) : Clear m inner :=
  fun p h => clear p (.inBody body lexed h)

theorem AfterNumber.mono {more p} (h : AfterNumber tokens p) (subset : ∀ t ∈ tokens, t ∈ more) :
    AfterNumber more p := by
  cases h with
  | token member kind => exact .token (subset _ member) kind
  | inBody body lexed inner => exact .inBody ⟨subset _ body.1, body.2⟩ lexed inner

structure Token.Is (kind : TokenKind) (text : String) (newline : Bool) (t : Token) : Prop where
  kind : t.kind = kind
  text : t.text = text
  newline : t.newlineBefore = newline

def Token.ident (t : Token) : Ident :=
  ⟨t.text, t.start, t.stop⟩

/-- A name where it stands in a script that was written into. -/
def Ident.woven (w : Weaving) (id : Ident) : Ident :=
  ⟨id.name, w.place id.start, w.place id.stop⟩

/-- A token that was not marked, in the script that was written into. -/
structure Token.Woven (w : Weaving) (t t' : Token) : Prop where
  unmarked : w.marks t.start = none
  kind : t.kind.Woven w t'.kind
  newline : t'.newlineBefore = t.newlineBefore
  ident : (∀ bodies, t.kind ≠ .template bodies) → t'.ident = t.ident.woven w
  clear : Clear w.marks [t]

/-- The tokens of a script that was written into, with `tail` behind them, against the tokens of the
    script. -/
inductive Woven (w : Weaving) (tail : List Token) : List Token → List Token → Prop where
  | nil : Woven w tail [] tail
  | keep {t t' tokens tokens'} (same : t.Woven w t') (rest : Woven w tail tokens tokens') :
      Woven w tail (t :: tokens) (t' :: tokens')
  | context {t ctx dot name tokens tokens'} (mark : w.marks t.start = some .context)
      (kind : t.kind = .word) (free : isReservedWord t.text = false)
      (isCtx : ctx.Is .word "_ctx" t.newlineBefore) (place : ctx.start = w.place t.start)
      (isDot : dot.Is .punctuator "." false) (isName : name.Is .word t.text false)
      (rest : Woven w tail tokens tokens') :
      Woven w tail (t :: tokens) (ctx :: dot :: name :: tokens')
  | property {t key colon ctx dot name tokens tokens'}
      (mark : w.marks t.start = some (.property t.text)) (kind : t.kind = .word)
      (free : isReservedWord t.text = false) (isKey : key.Is .word t.text t.newlineBefore)
      (isColon : colon.Is .punctuator ":" false) (isCtx : ctx.Is .word "_ctx" false)
      (place : ctx.start = w.place t.start + bytes t.text.toList + 2)
      (isDot : dot.Is .punctuator "." false) (isName : name.Is .word t.text false)
      (rest : Woven w tail tokens tokens') :
      Woven w tail (t :: tokens) (key :: colon :: ctx :: dot :: name :: tokens')

/-- Nothing behind a name or a blank belongs to a punctuator. -/
theorem find?_punctuator (other : isNameStart d = true ∨ d = ' ') :
    (punctuators.find? fun p => Text.beginsWith p.toList (x ++ d :: cs)) =
      punctuators.find? fun p => Text.beginsWith p.toList x := by
  apply find?_congr
  intro p member
  have absent : d ∉ p.toList := by
    rcases other with start | rfl
    · intro inside
      simp [(punctuator_chars member d inside).1] at start
    · revert p
      decide
  rw [Bool.eq_iff_iff, Text.beginsWith_iff, Text.beginsWith_iff]
  constructor
  · intro front
    rcases prefix_or_prefix_of_prefix front (prefix_append x (d :: cs)) with le | ⟨z, eq⟩
    · exact le
    · rw [← eq] at front absent ⊢
      cases z with
      | nil => simp
      | cons e z =>
        obtain ⟨rfl, _⟩ := cons_prefix_cons.mp ((prefix_append_right_inj x).mp front)
        simp at absent
  · exact fun front => front.trans (prefix_append ..)

theorem Lexes.word {gap name} (isName : IsName name)
    (trivia : skipTrivia pos .blank (gap ++ (name ++ after)) = .ok ⟨gap.length, newline⟩)
    (stops : after.head?.any isNamePart = false)
    (others : Lexes signs (some ⟨.word, String.ofList name, pos + bytes gap, newline⟩)
      (pos + bytes gap + bytes name) after tokens) :
    Lexes signs previous pos (gap ++ (name ++ after))
      (⟨.word, String.ofList name, pos + bytes gap, newline⟩ :: tokens) := by
  obtain ⟨c, more, rfl, start, parts⟩ := isName
  refine .next trivia ?_ others
  rw [scanToken, if_pos start, takeWhile_append parts stops]
  rfl

theorem Lexes.name {name} (isName : IsName name) (stops : after.head?.any isNamePart = false)
    (others : Lexes signs (some ⟨.word, String.ofList name, pos, false⟩) (pos + bytes name) after
      tokens) : Lexes signs previous pos (name ++ after)
      (⟨.word, String.ofList name, pos, false⟩ :: tokens) :=
  @word after false signs pos previous tokens [] name isName ((isName.solid after).skipTrivia pos) stops
    others

/-- A dot before a name, or a colon or an equals sign before a blank. -/
theorem Lexes.punctuator {gap d}
    (trivia : skipTrivia pos .blank (gap ++ c :: d :: after) = .ok ⟨gap.length, newline⟩)
    (mark : c = '.' ∧ isNameStart d = true ∨ (c = ':' ∨ c = '=') ∧ d = ' ')
    (others : Lexes signs (some ⟨.punctuator, String.ofList [c], pos + bytes gap, newline⟩)
      (pos + bytes gap + 1) (d :: after) tokens) : Lexes signs previous pos (gap ++ c :: d :: after)
      (⟨.punctuator, String.ofList [c], pos + bytes gap, newline⟩ :: tokens) := by
  have sign : c = '.' ∨ c = ':' ∨ c = '=' := mark.imp And.left And.left
  have other : isNameStart d = true ∨ d = ' ' := mark.imp And.right And.right
  have noDigit : Text.isAsciiDigit d = false := by
    rcases other with start | rfl
    · exact not_digit_of_isNameStart start
    · decide
  have found : (punctuators.find? fun p => Text.beginsWith p.toList (c :: d :: after)) =
      some (String.ofList [c]) := by
    refine (find?_punctuator (x := [c]) other).trans ?_
    rcases sign with rfl | rfl | rfl <;> decide
  have size : c.utf8Size = 1 := by rcases sign with rfl | rfl | rfl <;> rfl
  have scan : scanToken signs previous (pos + bytes gap) c ([] ++ d :: after) = .ok (.punctuator, 0) := by
    have plain : isNameStart c = false ∧ Text.isAsciiDigit c = false ∧ c ≠ '"' ∧ c ≠ '\'' ∧
        c ≠ '\x60' ∧ c ≠ '/' := by
      rcases sign with rfl | rfl | rfl <;> decide
    simp [scanToken, found, plain, noDigit, pure, Except.pure]
  have all : Lexes signs previous pos (gap ++ c :: ([] ++ d :: after))
      (⟨.punctuator, String.ofList [c], pos + bytes gap, newline⟩ :: tokens) :=
    .next trivia scan (by simpa [bytes, size] using others)
  exact all

/-- What is written before a name for the context, lexed together with the name. -/
theorem Lexes.context {gap name} (isName : IsName name)
    (trivia : skipTrivia pos .blank (gap ++ (Mark.context.text ++ (name ++ after))) =
      .ok ⟨gap.length, newline⟩) (stops : after.head?.any isNamePart = false)
    (others : Lexes signs (some ⟨.word, String.ofList name, pos + bytes gap + 5, false⟩)
      (pos + bytes gap + 5 + bytes name) after tokens) :
    ∃ ctx dot id, Lexes signs previous pos (gap ++ (Mark.context.text ++ (name ++ after)))
        (ctx :: dot :: id :: tokens) ∧
      ctx.Is .word "_ctx" newline ∧ ctx.start = pos + bytes gap ∧ dot.Is .punctuator "." false ∧
      id.Is .word (String.ofList name) false := by
  have isContext : IsName ['_', 'c', 't', 'x'] :=
    ⟨'_', _, rfl, by decide, Text.forall_of_all (by decide)⟩
  have nameLexes : Lexes signs (some ⟨.punctuator, ".", pos + bytes gap + 4, false⟩)
      (pos + bytes gap + 5) (name ++ after) (_ :: tokens) := .name isName stops others
  have dotTrivia : skipTrivia (pos + bytes gap + 4) .blank ([] ++ '.' :: (name ++ after)) =
      .ok ⟨0, false⟩ := skipTrivia_solid _ (by decide) (by simp)
  obtain ⟨c, more, rfl, start, -⟩ := isName
  have dotLexes : Lexes signs (some ⟨.word, "_ctx", pos + bytes gap, newline⟩)
      (pos + bytes gap + 4) ('.' :: (c :: more ++ after)) (_ :: _ :: tokens) :=
    .punctuator dotTrivia (.inl ⟨rfl, start⟩) nameLexes
  have all : Lexes signs previous pos (gap ++ (['_', 'c', 't', 'x'] ++ '.' :: (c :: more ++ after)))
      (_ :: _ :: _ :: tokens) :=
    .word isContext trivia (show isNamePart '.' = false by decide) dotLexes
  exact ⟨_, _, _, all, ⟨rfl, rfl, rfl⟩, rfl, ⟨rfl, rfl, rfl⟩, ⟨rfl, rfl, rfl⟩⟩

/-- A name, a colon or an equals sign, and a name in the context, lexed together. -/
theorem Lexes.assigned {gap key lead name s} (sign : lead = [] ∧ s = ':' ∨ lead = [' '] ∧ s = '=')
    (isKey : IsName key) (isName : IsName name)
    (trivia : skipTrivia pos .blank (gap ++ (key ++ (lead ++ s :: ' ' :: (Mark.context.text ++
      (name ++ after))))) = .ok ⟨gap.length, newline⟩) (stops : after.head?.any isNamePart = false)
    (rest : Lexes signs (some ⟨.word, String.ofList name,
      pos + bytes gap + bytes key + bytes lead + 1 + bytes [' '] + 5, false⟩)
      (pos + bytes gap + bytes key + bytes lead + 1 + bytes [' '] + 5 + bytes name) after tokens) :
    ∃ t colon ctx dot id, Lexes signs previous pos (gap ++ (key ++ (lead ++
        s :: ' ' :: (Mark.context.text ++ (name ++ after))))) (t :: colon :: ctx :: dot :: id :: tokens) ∧
      t.Is .word (String.ofList key) newline ∧ colon.Is .punctuator (String.ofList [s]) false ∧
      ctx.Is .word "_ctx" false ∧ ctx.start = pos + bytes gap + bytes key + bytes lead + 2 ∧
      dot.Is .punctuator "." false ∧ id.Is .word (String.ofList name) false := by
  have blank : skipTrivia (pos + bytes gap + bytes key + bytes lead + 1) .blank
      ([' '] ++ (Mark.context.text ++ (name ++ after))) = .ok ⟨1, false⟩ := rfl
  obtain ⟨ctx, dot, id, ctxLexes, isCtx, place, isDot, isId⟩ := context isName blank stops rest
  have isSign : s = ':' ∨ s = '=' := sign.imp And.right And.right
  have stopsSign (value : List Char) : (lead ++ s :: ' ' :: value).head?.any isNamePart = false := by
    rcases sign with ⟨rfl, rfl⟩ | ⟨rfl, rfl⟩
    · exact show isNamePart ':' = false by decide
    · exact show isNamePart ' ' = false by decide
  have signTrivia (value : List Char) : skipTrivia (pos + bytes gap + bytes key) .blank
      (lead ++ s :: ' ' :: value) = .ok ⟨lead.length, false⟩ := by
    rcases sign with ⟨rfl, rfl⟩ | ⟨rfl, rfl⟩
    · exact skipTrivia_solid _ (by decide) (by simp)
    · rfl
  have signLexes : Lexes signs (some ⟨.word, String.ofList key, pos + bytes gap, newline⟩)
      (pos + bytes gap + bytes key) (lead ++ s :: ' ' :: (Mark.context.text ++ (name ++ after)))
      (_ :: ctx :: dot :: id :: tokens) :=
    .punctuator (signTrivia _) (.inr ⟨isSign, rfl⟩) ctxLexes
  exact ⟨_, _, ctx, dot, id, .word isKey trivia (stopsSign _) signLexes, ⟨rfl, rfl, rfl⟩,
    ⟨rfl, rfl, rfl⟩, isCtx, place, isDot, isId⟩

/-- A word is the first token, inside it, or among the other tokens. -/
theorem Word.first (h : Word (t :: rest) id) (tidy : Tidy (t :: rest)) :
    (t.kind = .word ∧ isReservedWord t.text = false ∧ id = ⟨t.text, t.start, t.stop⟩) ∨
      ((∃ bodies, t.kind = .template bodies) ∧ t.start < id.start ∧ id.start < t.stop) ∨
      (t.stop ≤ id.start ∧ Word rest id) := by
  have later : ∀ u ∈ rest, t.stop ≤ u.start := (pairwise_cons.mp tidy.inOrder).1
  cases h with
  | @token _ u member kind free =>
    rcases mem_cons.mp member with rfl | inRest
    · exact .inl ⟨kind, free, rfl⟩
    · exact .inr (.inr ⟨later u inRest, .token inRest kind free⟩)
  | @inBody _ u b inner _ body lexed word =>
    have range := word.inRange (tokenize_eq_ok.mp lexed)
    have nonempty := word.nonempty (tokenize_eq_ok.mp lexed).tidy
    have inside := (body.piece tidy).bounds
    have stop : u.stop = u.start + bytes u.text.toList := rfl
    rcases mem_cons.mp body.1 with rfl | inRest
    · obtain ⟨_, bodies, kind, bMember⟩ := body
      have sound := (tidy.sound u (by simp)).kind
      rw [kind] at sound
      obtain ⟨front, _, _, offset, last⟩ := sound.piece b bMember
      have : 0 < bytes front := by
        cases front with
        | nil => simp at last
        | cons c front =>
          have := c.utf8Size_pos
          simp only [bytes]
          omega
      exact .inr (.inl ⟨⟨bodies, kind⟩, by omega, by omega⟩)
    · exact .inr (.inr ⟨by have := later u inRest; omega, .inBody ⟨inRest, body.2⟩ lexed word⟩)

namespace OnWords

/-- Where there are no tokens, there are no marks. -/
theorem unmarked (on : OnWords m lo hi []) : Unmarked m lo hi := by
  intro p low high
  cases mark : m p with
  | none => rfl
  | some k =>
    obtain ⟨id, word, _⟩ := on p k low high mark
    cases word with
    | token member => cases member
    | inBody body => cases body.1

variable (on : OnWords m lo hi (t :: rest)) (tidy : Tidy (t :: rest))
include on tidy

theorem tail (le : lo ≤ t.start) :
    OnWords m t.stop hi rest := by
  intro p k low high mark
  have nonempty := (tidy.sound t (by simp)).nonempty
  obtain ⟨id, word, rfl, fits⟩ := on p k (by omega) high mark
  rcases word.first tidy with ⟨_, _, rfl⟩ | ⟨_, _, before⟩ | ⟨_, word⟩
  · simp only at low
    omega
  · omega
  · exact ⟨id, word, rfl, fits⟩

theorem gap (le : t.start ≤ hi) :
    Unmarked m lo t.start := by
  intro p low high
  have nonempty := (tidy.sound t (by simp)).nonempty
  cases mark : m p with
  | none => rfl
  | some k =>
    obtain ⟨id, word, rfl, _⟩ := on p k low (by omega) mark
    rcases word.first tidy with ⟨_, _, rfl⟩ | ⟨_, after, _⟩ | ⟨after, _⟩
    · simp only at high
      omega
    · omega
    · omega

theorem first (low : lo ≤ t.start) (high : t.start < hi) (mark : m t.start = some k) :
    t.kind = .word ∧ isReservedWord t.text = false ∧ (k = .context ∨ k = .property t.text) := by
  have nonempty := (tidy.sound t (by simp)).nonempty
  obtain ⟨id, word, start, fits⟩ := on t.start k low high mark
  rcases word.first tidy with ⟨kind, free, rfl⟩ | ⟨_, after, _⟩ | ⟨after, _⟩
  · exact ⟨kind, free, fits⟩
  · omega
  · omega

theorem inside (low : lo ≤ t.start) (high : t.stop ≤ hi)
    (plain : ∀ bodies, t.kind ≠ .template bodies) (behind : t.start < p) : Unmarked m p t.stop := by
  intro q qLow qHigh
  cases mark : m q with
  | none => rfl
  | some k =>
    obtain ⟨id, word, rfl, _⟩ := on q k (by omega) (by omega) mark
    rcases word.first tidy with ⟨_, _, rfl⟩ | ⟨⟨bodies, kind⟩, _⟩ | ⟨after, _⟩
    · simp only at qLow
      omega
    · exact absurd kind (plain bodies)
    · omega

end OnWords

theorem Token.Woven.regexAllowed {t t' : Token} (same : t.Woven w t') :
    regexAllowed (some t') = regexAllowed (some t) := by
  obtain ⟨_, kind, _, ident, _⟩ := same
  obtain ⟨k, text₁, _, _⟩ := t
  obtain ⟨k', text₂, _, _⟩ := t'
  cases kind with
  | same plain =>
    have := congrArg Ident.name (ident plain)
    simp only [Token.ident, Ident.woven] at this
    simp [Script.regexAllowed, this]
  | template each => rfl

/-- A name with what its mark writes before it, and the tokens behind it. -/
theorem Lexes.marked {w : Weaving} {start gap name} (mark : w.marks start = some k)
    (place : w.place start = pos + bytes gap)
    (fits : k = .context ∨ k = .property (String.ofList name))
    (free : isReservedWord (String.ofList name) = false) (isName : IsName name)
    (trivia : skipTrivia pos .blank (gap ++ (k.text ++ (name ++ after))) = .ok ⟨gap.length, newline⟩)
    (stops : after.head?.any isNamePart = false)
    (behind : ∀ start', ∃ tokens', Lexes signs (some ⟨.word, String.ofList name, start', false⟩)
        (pos + bytes gap + bytes k.text + bytes name) after tokens' ∧ Woven w [] tokens tokens') :
    ∃ tokens', Lexes signs previous pos (gap ++ (k.text ++ (name ++ after))) tokens' ∧
      Woven w [] (⟨.word, String.ofList name, start, newline⟩ :: tokens) tokens' := by
  rcases fits with rfl | rfl
  · obtain ⟨tokens', lexes', woven⟩ := behind (pos + bytes gap + 5)
    obtain ⟨ctx, dot, id, lexes, isCtx, at', isDot, isId⟩ := context isName trivia stops lexes'
    exact ⟨_, lexes, .context mark rfl free isCtx (at'.trans place.symm) isDot isId woven⟩
  · have whole : Mark.text (.property (String.ofList name)) ++ (name ++ after) =
        name ++ ([] ++ ':' :: ' ' :: (Mark.context.text ++ (name ++ after))) := by
      simp [Mark.text]
    have size : pos + bytes gap + bytes (Mark.text (.property (String.ofList name))) =
        pos + bytes gap + bytes name + bytes [] + 1 + bytes [' '] + 5 := by
      rw [Mark.text, String.toList_ofList, Text.bytes_append]
      rfl
    rw [size] at behind
    rw [whole] at trivia ⊢
    obtain ⟨tokens', lexes', woven⟩ := behind _
    obtain ⟨key, colon, ctx, dot, id, lexes, isKey, isColon, isCtx, at', isDot, isId⟩ :=
      assigned (.inl ⟨rfl, rfl⟩) isName isName trivia stops lexes'
    exact ⟨_, lexes,
      .property mark rfl free isKey isColon isCtx (by simp [at', place, bytes]) isDot isId woven⟩

/-- The tokens of a script that was written into. -/
theorem Lexes.weave {w : Weaving} (h : Lexes signs previous pos cs tokens)
    (seated : Seated w.marks before pos cs) (on : OnWords w.marks pos (pos + bytes cs) tokens)
    (clear : Clear w.marks tokens) :
    ∀ previous' pos', w.Places pos pos' cs → regexAllowed previous' = regexAllowed previous →
      ∃ tokens', Lexes signs previous' pos' (weave w.marks pos cs) tokens' ∧
        Woven w [] tokens tokens' := by
  induction h generalizing before with
  | @done previous pos gap newline trivia =>
    intro previous' pos' _ _
    have unmarked : Unmarked w.marks pos (pos + bytes gap) := on.unmarked
    refine ⟨[], ?_, .nil⟩
    rw [weave_unmarked unmarked]
    exact .done (skipTrivia_at trivia pos')
  | @next previous pos gap newline c more after kind rest trivia scan others ih =>
    intro previous' pos' places regex
    have tidy := (Lexes.next trivia scan others).tidy
    obtain ⟨more', after', moreEq, moreLength, takes⟩ := takes_of_scanToken scan
    obtain ⟨rfl, rfl⟩ := append_inj moreEq moreLength.symm
    have stop : Token.stop ⟨kind, String.ofList (c :: more), pos + bytes gap, newline⟩ =
        pos + bytes gap + bytes (c :: more) := by simp [Token.stop]
    have size : pos + bytes (gap ++ c :: (more ++ after)) =
        pos + bytes gap + bytes (c :: more) + bytes after := by
      simp only [Text.bytes_append, bytes]
      omega
    have cSize := c.utf8Size_pos
    rw [size] at on
    have gapUnmarked : Unmarked w.marks pos (pos + bytes gap) :=
      on.gap tidy (by simp only [bytes]; omega)
    have skipped := skipTrivia_weave trivia seated pos'
    have tail := on.tail tidy (Nat.le_add_right ..)
    rw [stop] at tail
    have assoc : pos + bytes gap + bytes (c :: more) = pos + bytes gap + c.utf8Size + bytes more := by
      simp [bytes, Nat.add_assoc]
    have seatedToken := (seated_append.mp seated).2
    obtain ⟨before', seatedAfter⟩ := seatedToken.behind
    rw [← assoc] at seatedAfter
    have restClear : Clear w.marks rest := fun p h => clear p (h.mono fun t => mem_cons_of_mem _)
    have inside : (∀ bodies, kind ≠ .template bodies) →
        Unmarked w.marks (pos + bytes gap + c.utf8Size) (pos + bytes gap + bytes (c :: more)) := by
      intro plain
      have behind : pos + bytes gap < pos + bytes gap + c.utf8Size := by omega
      have := on.inside tidy (Nat.le_add_right ..) (by rw [stop]; omega) plain behind
      rwa [stop] at this
    have placesToken : w.Places (pos + bytes gap) (pos' + bytes gap) (c :: (more ++ after)) := by
      have := places.behind
      rwa [weave_unmarked gapUnmarked] at this
    have placesAfter := Weaving.Places.behind (a := c :: more) (b := after) placesToken
    cases mark : w.marks (pos + bytes gap) with
    | none =>
      have apart : kind = .number → w.marks (pos + bytes gap + bytes (c :: more)) = none := by
        intro number
        have := clear _ (.token (mem_cons_self ..) number)
        rwa [stop] at this
      have placesMore : w.Places (pos + bytes gap + c.utf8Size) (pos' + bytes gap + c.utf8Size) more := by
        have := (Weaving.Places.behind (a := [c]) (b := more ++ after) placesToken).front
        simpa [weave_cons_none mark, bytes] using this
      obtain ⟨kind', scan', kinds⟩ := takes.woven w _ previous' (pos' + bytes gap)
        seatedToken (.inl mark) placesMore regex inside apart
      rw [weave_cons_none mark] at placesAfter
      have same : Token.Woven w ⟨kind, String.ofList (c :: more), pos + bytes gap, newline⟩
          ⟨kind', String.ofList (c :: weave w.marks (pos + bytes gap + c.utf8Size) more),
            pos' + bytes gap, newline⟩ := by
        refine ⟨mark, kinds, rfl, fun plain => ?_, fun p h => clear p (h.mono (by simp_all))⟩
        simp only [Token.ident, Ident.woven, placesToken.start, placesAfter.start, Token.stop,
          String.toList_ofList, (weave_plain [] (inside plain)).1]
      obtain ⟨tokens', lexes', woven⟩ := ih seatedAfter tail restClear _ _ placesAfter
        same.regexAllowed
      rw [weave_append, weave_unmarked gapUnmarked, weave_cons_none mark, weave_append, ← assoc]
      rw [weave_cons_none mark, weave_append, ← assoc] at skipped
      rw [weave_append, ← assoc] at scan'
      exact ⟨_, .next skipped scan' lexes', .keep same woven⟩
    | some k =>
      obtain ⟨word, free, fits⟩ := on.first tidy (Nat.le_add_right ..) (by simp only; omega) mark
      have plain : ∀ bodies, kind ≠ .template bodies := by simp_all
      have same := weave_plain after (inside plain)
      rw [← assoc] at same
      have start := takes.word.mp word
      obtain ⟨parts, stops⟩ := takes.name word
      have stops' := seatedAfter.stops_weave stops
      have cut : weave w.marks pos (gap ++ c :: (more ++ after)) = gap ++ (k.text ++
          c :: (more ++ weave w.marks (pos + bytes gap + bytes (c :: more)) after)) := by
        rw [weave_append, weave_unmarked gapUnmarked, weave_cons, mark, same.2]
        rfl
      rw [weave_cons, mark, same.2] at skipped
      rw [cut]
      subst word
      rw [weave_cons, mark, same.1, Text.bytes_append, ← Nat.add_assoc] at placesAfter
      exact marked mark placesToken.start fits free ⟨c, more, rfl, start, parts⟩ skipped stops'
        fun start' => ih seatedAfter tail restClear
          (some ⟨.word, String.ofList (c :: more), start', false⟩) _ placesAfter rfl

theorem Lexes.of_zero (lexes : Lexes signs previous pos ('0' :: cs) tokens) :
    ∃ t rest, tokens = t :: rest ∧ t.kind = .number ∧ t.start = pos := by
  have solid : skipTrivia pos .blank ('0' :: cs) = .ok ⟨0, false⟩ :=
    skipTrivia_solid pos (by decide) fun slash => absurd slash (by decide)
  generalize eq : '0' :: cs = script at lexes solid
  cases lexes with
  | done trivia =>
    rw [solid] at trivia
    cases script with
    | nil => cases eq
    | cons c script => cases trivia
  | @next _ _ gap newline c more after kind rest trivia scan others =>
    rw [solid] at trivia
    cases gap with
    | cons d gap => cases trivia
    | nil =>
      obtain ⟨rfl, rfl⟩ := List.cons.inj eq
      obtain ⟨rfl, _⟩ := Prod.mk.inj (Except.ok.inj scan)
      exact ⟨_, _, rfl, rfl, rfl⟩

/-- The second character of a script that begins with a zero is not marked. -/
theorem OnWords.none_after_zero (lexes : Lexes signs none pos ('0' :: c :: cs) tokens)
    (on : OnWords m pos (pos + bytes ('0' :: c :: cs)) tokens) (clear : Clear m tokens) :
    m (pos + 1) = none := by
  obtain ⟨t, rest, rfl, number, rfl⟩ := lexes.of_zero
  have nonempty := (lexes.tidy.sound t (by simp)).nonempty
  cases mark : m (t.start + 1) with
  | none => rfl
  | some k =>
    have zero : '0'.utf8Size = 1 := rfl
    have size := c.utf8Size_pos
    obtain ⟨id, word, start, _⟩ := on (t.start + 1) k (by omega)
      (by simp only [bytes]; omega) mark
    rcases word.first lexes.tidy with ⟨kind, _⟩ | ⟨⟨bodies, kind⟩, _⟩ | ⟨behind, _⟩
    · rw [number] at kind
      cases kind
    · rw [number] at kind
      cases kind
    · have stop : t.stop = t.start + 1 := by omega
      rw [← stop, clear _ (.token (mem_cons_self ..) number)] at mark
      cases mark

/-- Writing into a script does not change whether it begins with `0x`. -/
theorem beginsWith_weave (lexes : Lexes signs none pos cs tokens)
    (on : OnWords m pos (pos + bytes cs) tokens) (clear : Clear m tokens) :
    Text.beginsWith ['0', 'x'] (weave m pos cs) = Text.beginsWith ['0', 'x'] cs := by
  have seated : Seated m none pos cs := on.seated lexes (by simp)
  cases cs with
  | nil => rfl
  | cons c cs =>
    by_cases zero : c = '0'
    · subst zero
      have unmarked := seated.none_of_not_start (by decide)
      rw [weave_cons_none unmarked]
      cases cs with
      | nil => rfl
      | cons d cs =>
        have next : m (pos + '0'.utf8Size) = none := on.none_after_zero lexes clear
        rw [weave_cons_none next, Bool.eq_iff_iff, Text.beginsWith_iff, Text.beginsWith_iff]
        simp
    · have no : ∀ (d : Char) (ds : List Char), d ≠ '0' →
          Text.beginsWith ['0', 'x'] (d :: ds) = false := by
        intro d ds other
        simp [Text.beginsWith, Text.after?, Ne.symm other]
      cases mark : m pos with
      | none => rw [weave_cons_none mark, no c _ zero, no c _ zero]
      | some k =>
        obtain ⟨_, _, named⟩ := seated.1 k mark
        obtain ⟨d, ds, text, start⟩ := k.text_begins named
        have other : d ≠ '0' := by
          rintro rfl
          exact absurd start (by decide)
        rw [weave_cons, mark, Option.elim_some, text, cons_append, no c _ zero, no d _ other]

theorem tokenize_weave {w : Weaving} (lexed : tokenize offset script = .ok tokens)
    (on : OnWords w.marks offset (offset + bytes script) tokens) (clear : Clear w.marks tokens)
    (places : w.Places offset offset' script) :
    ∃ tokens', tokenize offset' (weave w.marks offset script) = .ok tokens' ∧
      Woven w [] tokens tokens' := by
  have lexes := tokenize_eq_ok.mp lexed
  have seated : Seated w.marks none offset script := on.seated lexes (by simp)
  obtain ⟨tokens', lexes', woven⟩ := lexes.weave seated on clear none offset' places rfl
  refine ⟨tokens', tokenize_eq_ok.mpr ?_, woven⟩
  rwa [beginsWith_weave lexes on clear]

/-! ## How deep readers must be -/

def Token.weight (t : Token) : Nat :=
  match t.kind with
  | .template bodies => bodies.foldr (fun b n => max (b.text.length + 2) n) 1
  | _ => 1

theorem Token.weight_le_iff {t : Token} : t.weight ≤ n ↔
    0 < n ∧ ∀ bodies, t.kind = .template bodies → ∀ b ∈ bodies, b.text.length + 2 ≤ n := by
  unfold weight
  split
  next bodies kind =>
    simp only [kind, TokenKind.template.injEq, forall_eq']
    clear kind
    induction bodies with
    | nil => simp [Nat.lt_iff_add_one_le]
    | cons b bodies ih =>
      rw [foldr_cons, Nat.max_le, ih, forall_mem_cons]
      exact and_left_comm
  next other => exact ⟨fun le => ⟨le, fun _ kind => (other _ kind).elim⟩, And.left⟩

theorem Token.weight_pos (t : Token) : 0 < t.weight :=
  (weight_le_iff.mp (le_refl t.weight)).1

def weight : List Token → Nat
  | [] => 0
  | t :: tokens => t.weight + weight tokens

theorem weight_lt_cons (t tokens) : weight tokens < weight (t :: tokens) :=
  Nat.lt_add_of_pos_left t.weight_pos

/-- Tokens weigh no more than the script that they are the tokens of. -/
theorem Lexes.weight_le (h : Lexes signs previous pos cs tokens) :
    weight tokens ≤ cs.length := by
  induction h with
  | done => exact zero_le _
  | @next previous pos gap newline c more after kind rest trivia scan others ih =>
    have sound := (Lexes.next trivia scan others).tidy.sound _ mem_cons_self
    have first : Token.weight ⟨kind, String.ofList (c :: more), pos + bytes gap, newline⟩ ≤
        more.length + 1 := by
      refine Token.weight_le_iff.mpr ⟨succ_pos _, fun bodies template b inside => ?_⟩
      -- a body is shorter than its literal by a backtick and a brace at least
      subst template
      obtain ⟨front, after, split, _, _, two⟩ := sound.kind.piece b inside
      have size := congrArg List.length split
      simp only [String.toList_ofList, length_cons, length_append] at size
      omega
    simp only [weight, length_append, length_cons]
    omega

end Stencil.Script
