import Mathlib.Data.List.Pairwise
import Stencil.Proofs.Script.Lexing
import Stencil.Script.Tree

/-! # Words of a script

The tokens of a script are pieces of it, one after another. A word of a script is one of its word
tokens or a word in a body of one of its template literals. Words are pieces of the script that do
not overlap, and none of them stands in a string, a number, a regular expression, a comment or the
literal text of a template literal.
-/

namespace Stencil.Script

open List Text Except Nat Token

/-- A piece of a text that begins at `pos`. -/
def Piece (pos : Nat) (cs : List Char) (start : Nat) (piece : List Char) : Prop :=
  ∃ front after, cs = front ++ (piece ++ after) ∧ start = pos + bytes front

namespace Piece

variable {pos start : Nat}

theorem bounds (h : Piece pos cs start piece) :
    pos ≤ start ∧ start + bytes piece ≤ pos + bytes cs := by
  obtain ⟨front, after, rfl, rfl⟩ := h
  simp only [bytes_append]
  omega

theorem trans {inner} (h : Piece pos cs start piece) (h' : Piece start piece innerStart inner) :
    Piece pos cs innerStart inner := by
  obtain ⟨front, after, rfl, rfl⟩ := h
  obtain ⟨innerFront, innerAfter, rfl, rfl⟩ := h'
  exact ⟨front ++ innerFront, innerAfter ++ after, by simp, by simp [Nat.add_assoc]⟩

theorem behind (front) (h : Piece (pos + bytes front) cs start piece) :
    Piece pos (front ++ cs) start piece := by
  obtain ⟨gap, after, rfl, rfl⟩ := h
  exact ⟨front ++ gap, after, by simp, by simp [Nat.add_assoc]⟩

end Piece

/-- What the lexer ensures of one token. -/
structure Token.Sound (t : Token) : Prop where
  kind : t.kind.Sound t.start t.text.toList
  name : t.kind = .word → IsName t.text.toList
  nonempty : t.start < t.stop

/-- What the lexer ensures of the tokens of a script. -/
structure Tidy (tokens : List Token) : Prop where
  sound : ∀ t ∈ tokens, t.Sound
  inOrder : tokens.Pairwise fun t u => t.stop ≤ u.start

section

variable (h : Lexes signs previous pos cs tokens)
include h

theorem Lexes.piece
    (member : t ∈ tokens) : Piece pos cs t.start t.text.toList := by
  induction h with
  | done => cases member
  | @next previous pos gap newline c more after kind rest trivia scan others ih =>
    rcases mem_cons.mp member with rfl | later
    · exact ⟨gap, after, by simp, rfl⟩
    · have split : gap ++ c :: (more ++ after) = (gap ++ c :: more) ++ after := by simp
      rw [split]
      exact Piece.behind _ (by simpa [Nat.add_assoc] using ih later)

theorem Lexes.tidy :
    Tidy tokens := by
  induction h with
  | done => exact ⟨by simp, .nil⟩
  | @next previous pos gap newline c more after kind rest trivia scan others ih =>
    have size := c.utf8Size_pos
    obtain ⟨more', after', eq, length, takes⟩ := takes_of_scanToken scan
    obtain ⟨rfl, rfl⟩ := append_inj eq length.symm
    have first : Token.Sound ⟨kind, String.ofList (c :: more), pos + bytes gap, newline⟩ := by
      refine ⟨?_, fun word => ?_, ?_⟩
      · simpa using takes.sound
      · exact ⟨c, more, by simp, takes.word.mp word, (takes.name word).1⟩
      · simp only [stop, String.toList_ofList, bytes]
        omega
    constructor
    · intro t member
      rcases mem_cons.mp member with rfl | later
      · exact first
      · exact ih.sound t later
    · refine pairwise_cons.mpr ⟨fun u later => ?_, ih.inOrder⟩
      have := (others.piece later).bounds.1
      simpa [stop] using this

end

theorem Tidy.nil : Tidy [] :=
  ⟨by simp, .nil⟩

theorem Tidy.suffix {front tokens} (h : Tidy (front ++ tokens)) : Tidy tokens :=
  ⟨fun t member => h.sound t (by simp [member]), (pairwise_append.mp h.inOrder).2.1⟩

theorem Tidy.front {front tokens} (h : Tidy (front ++ tokens)) : Tidy front :=
  ⟨fun t member => h.sound t (by simp [member]), (pairwise_append.mp h.inOrder).1⟩

theorem Tidy.tail (h : Tidy (t :: tokens)) : Tidy tokens :=
  @suffix [t] tokens h

theorem Tidy.head (h : Tidy (t :: tokens)) : Tidy [t] :=
  @front [t] tokens h

theorem apart_of_pairwise {α : Type} {r} {l : List α} (h : l.Pairwise r) {a b} (ha : a ∈ l)
    (hb : b ∈ l) : a = b ∨ r a b ∨ r b a := by
  have : Std.Symm fun a b => r a b ∨ r b a := ⟨fun _ _ => .symm⟩
  have either : l.Pairwise fun a b => r a b ∨ r b a := h.imp .inl
  exact or_iff_not_imp_left.mpr fun other => either.forall ha hb other

/-- A body of a template literal among the tokens. -/
def BodyOf (tokens : List Token) (t : Token) (b : Body) : Prop :=
  t ∈ tokens ∧ ∃ bodies, t.kind = .template bodies ∧ b ∈ bodies

theorem BodyOf.piece (h : BodyOf tokens t b) (tidy : Tidy tokens) :
    Piece t.start t.text.toList b.offset b.text := by
  obtain ⟨member, bodies, kind, inside⟩ := h
  have sound := (tidy.sound t member).kind
  rw [kind] at sound
  obtain ⟨front, after, split, offset, _⟩ := sound.piece b inside
  exact ⟨front, after, split, offset⟩

theorem BodyOf.not_word (h : BodyOf tokens t b) : t.kind ≠ .word := by
  obtain ⟨_, bodies, kind, _⟩ := h
  simp [kind]

theorem BodyOf.apart {tokens a b} (ha : BodyOf tokens t a) (hb : BodyOf tokens t b)
    (tidy : Tidy tokens) :
    a = b ∨ a.offset + bytes a.text ≤ b.offset ∨ b.offset + bytes b.text ≤ a.offset := by
  obtain ⟨member, bodies, kind, aInside⟩ := ha
  obtain ⟨_, bodies', kind', bInside⟩ := hb
  obtain rfl : bodies' = bodies := by
    rw [kind] at kind'
    injection kind' with eq
    exact eq.symm
  have sound := (tidy.sound t member).kind
  rw [kind] at sound
  exact apart_of_pairwise sound.inOrder aInside bInside

/-- A word that names something: a word token, or one in a body of a template literal. -/
inductive Word : List Token → Ident → Prop where
  | token {tokens t} (member : t ∈ tokens) (kind : t.kind = .word)
      (free : isReservedWord t.text = false) : Word tokens ⟨t.text, t.start, t.stop⟩
  | inBody {tokens t b inner id} (body : BodyOf tokens t b)
      (lexed : tokenize b.offset b.text = .ok inner) (word : Word inner id) : Word tokens id

namespace Word

variable {id : Ident}

section

variable (h : Word tokens id)
include h

theorem mono (subset : ∀ t ∈ tokens, t ∈ more) : Word more id := by
  cases h with
  | token member kind free => exact .token (subset _ member) kind free
  | inBody body lexed word => exact .inBody ⟨subset _ body.1, body.2⟩ lexed word

theorem isName (tidy : Tidy tokens) :
    IsName id.name.toList ∧ id.stop = id.start + bytes id.name.toList := by
  induction h with
  | token member kind free => exact ⟨(tidy.sound _ member).name kind, rfl⟩
  | inBody body lexed word ih => exact ih (tokenize_eq_ok.mp lexed).tidy

theorem notReserved : isReservedWord id.name = false := by
  induction h with
  | token member kind free => exact free
  | inBody body lexed word ih => exact ih

theorem nonempty (tidy : Tidy tokens) : id.start < id.stop := by
  obtain ⟨⟨c, more, eq, _⟩, stop⟩ := h.isName tidy
  have := c.utf8Size_pos
  simp only [stop, eq, bytes]
  omega

theorem inToken (tidy : Tidy tokens) :
    ∃ t ∈ tokens, Piece t.start t.text.toList id.start id.name.toList := by
  induction h with
  | @token tokens t member kind free => exact ⟨t, member, [], [], by simp, by simp [bytes]⟩
  | @inBody tokens t b inner id body lexed word ih =>
    have lexes := tokenize_eq_ok.mp lexed
    obtain ⟨u, inside, piece⟩ := ih lexes.tidy
    exact ⟨t, body.1, ((body.piece tidy).trans (lexes.piece inside)).trans piece⟩

variable (lexes : Lexes signs previous pos cs tokens)
include lexes

theorem inText :
    Piece pos cs id.start id.name.toList := by
  obtain ⟨t, member, piece⟩ := h.inToken lexes.tidy
  exact (lexes.piece member).trans piece

theorem inRange :
    pos ≤ id.start ∧ id.stop ≤ pos + bytes cs := by
  have := (h.inText lexes).bounds
  rwa [(h.isName lexes.tidy).2]

end

/-- A word is a token itself, or it stands in a body of a token. -/
inductive At (tokens : List Token) (id : Ident) (t : Token) : Prop where
  | token (kind : t.kind = .word) (same : id = ⟨t.text, t.start, t.stop⟩)
  | inBody {b inner} (body : BodyOf tokens t b) (lexed : tokenize b.offset b.text = .ok inner)
      (word : Word inner id) (low : b.offset ≤ id.start) (high : id.stop ≤ b.offset + bytes b.text)

theorem place (h : Word tokens id) (tidy : Tidy tokens) :
    ∃ t ∈ tokens, t.start ≤ id.start ∧ id.stop ≤ t.stop ∧ At tokens id t := by
  cases h with
  | @token _ t member kind free =>
    exact ⟨t, member, le_refl _, le_refl _, .token kind rfl⟩
  | @inBody _ t b inner _ body lexed word =>
    have range := word.inRange (tokenize_eq_ok.mp lexed)
    have inside := (body.piece tidy).bounds
    refine ⟨t, body.1, ?_, ?_, .inBody body lexed word range.1 range.2⟩
    · omega
    · simp only [stop]
      omega

theorem apart {other} (h : Word tokens id) (h' : Word tokens other) (tidy : Tidy tokens)
    (before : id.start < other.start) : id.stop ≤ other.start := by
  have otherNonempty := h'.nonempty tidy
  induction h with
  | @token tokens t member kind free =>
    obtain ⟨u, uMember, uLow, uHigh, uAt⟩ := h'.place tidy
    rcases apart_of_pairwise tidy.inOrder member uMember with rfl | order | order
    · cases uAt with
      | token _ same =>
        subst same
        exact absurd before (lt_irrefl _)
      | inBody body => exact absurd kind body.not_word
    · exact le_trans order uLow
    · simp only at before
      omega
  | @inBody tokens t b inner id body lexed word ih =>
    obtain ⟨u, uMember, uLow, uHigh, uAt⟩ := h'.place tidy
    have range := word.inRange (tokenize_eq_ok.mp lexed)
    have inside := (body.piece tidy).bounds
    have stop : t.stop = t.start + bytes t.text.toList := rfl
    rcases apart_of_pairwise tidy.inOrder body.1 uMember with rfl | order | order
    · cases uAt with
      | token word _ => exact absurd word body.not_word
      | @inBody b' inner' body' lexed' word' low high =>
        rcases body.apart body' tidy with rfl | order | order
        · rw [lexed] at lexed'
          obtain rfl := ok.inj lexed'
          exact ih word' (tokenize_eq_ok.mp lexed).tidy before
        · omega
        · omega
    · omega
    · omega

end Word

/-- A stretch of a script that holds no names: a string, number or regular expression, blanks and
    comments between tokens, or the literal text of a template literal. -/
inductive Nameless : (offset : Nat) → (script : List Char) → (lo hi : Nat) → Prop where
  | literal {offset script tokens t} (lexed : tokenize offset script = .ok tokens)
      (member : t ∈ tokens) (kind : t.kind = .string ∨ t.kind = .number ∨ t.kind = .regex) :
      Nameless offset script t.start t.stop
  | trivia {offset script tokens lo hi} (lexed : tokenize offset script = .ok tokens)
      (low : offset ≤ lo) (high : hi ≤ offset + bytes script)
      (between : ∀ t ∈ tokens, t.stop ≤ lo ∨ hi ≤ t.start) : Nameless offset script lo hi
  | templateText {offset script tokens t bodies lo hi} (lexed : tokenize offset script = .ok tokens)
      (member : t ∈ tokens) (kind : t.kind = .template bodies) (low : t.start ≤ lo)
      (high : hi ≤ t.stop) (between : ∀ b ∈ bodies, b.offset + bytes b.text ≤ lo ∨ hi ≤ b.offset) :
      Nameless offset script lo hi
  | inBody {offset script tokens t b lo hi} (lexed : tokenize offset script = .ok tokens)
      (body : BodyOf tokens t b) (inner : Nameless b.offset b.text lo hi) : Nameless offset script lo hi

variable (h : Nameless offset script lo hi)
include h

theorem Nameless.inRange : offset ≤ lo ∧ hi ≤ offset + bytes script := by
  induction h with
  | literal lexed member kind => exact ((tokenize_eq_ok.mp lexed).piece member).bounds
  | trivia lexed low high between => exact ⟨low, high⟩
  | @templateText offset script tokens t bodies lo hi lexed member kind low high between =>
    have := ((tokenize_eq_ok.mp lexed).piece member).bounds
    have stop : t.stop = t.start + bytes t.text.toList := rfl
    omega
  | @inBody offset script tokens t b lo hi lexed body inner ih =>
    have lexes := tokenize_eq_ok.mp lexed
    have := (lexes.piece body.1).bounds
    have := (body.piece lexes.tidy).bounds
    omega

/-- No word stands in a stretch without names. -/
theorem Word.not_nameless {tokens id} (word : Word tokens id)
    (lexed : tokenize offset script = .ok tokens) : id.stop ≤ lo ∨ hi ≤ id.start := by
  have tidy := (tokenize_eq_ok.mp lexed).tidy
  obtain ⟨u, uMember, uLow, uHigh, uAt⟩ := word.place tidy
  induction h generalizing tokens u with
  | @literal offset script tokens' t lexed' member kind =>
    obtain rfl := ok.inj (lexed.symm.trans lexed')
    rcases apart_of_pairwise tidy.inOrder uMember member with rfl | order | order
    · cases uAt with
      | token word => simp [word] at kind
      | inBody body =>
        obtain ⟨_, bodies, template, _⟩ := body
        simp [template] at kind
    · omega
    · omega
  | trivia lexed' low high between =>
    obtain rfl := ok.inj (lexed.symm.trans lexed')
    have := between u uMember
    omega
  | @templateText offset script tokens' t bodies lo hi lexed' member kind low high between =>
    obtain rfl := ok.inj (lexed.symm.trans lexed')
    rcases apart_of_pairwise tidy.inOrder uMember member with rfl | order | order
    · cases uAt with
      | token word =>
        rw [kind] at word
        cases word
      | @inBody b inner body lexed'' word low' high' =>
        obtain ⟨_, bodies', kind', inside⟩ := body
        rw [kind] at kind'
        obtain rfl : bodies = bodies' := by injection kind'
        have := between b inside
        omega
    · omega
    · omega
  | @inBody offset script tokens' t b lo hi lexed' body inner ih =>
    obtain rfl := ok.inj (lexed.symm.trans lexed')
    have range := inner.inRange
    have inside := (body.piece tidy).bounds
    have stop : t.stop = t.start + bytes t.text.toList := rfl
    rcases apart_of_pairwise tidy.inOrder uMember body.1 with rfl | order | order
    · cases uAt with
      | token word => exact absurd word body.not_word
      | @inBody b' inner' body' lexed'' word' low' high' =>
        rcases body'.apart body tidy with rfl | order | order
        · have innerTidy := (tokenize_eq_ok.mp lexed'').tidy
          obtain ⟨v, vMember, vLow, vHigh, vAt⟩ := word'.place innerTidy
          exact ih word' lexed'' innerTidy v vMember vLow vHigh vAt
        · omega
        · omega
    · omega
    · omega

end Stencil.Script
