import Stencil.Proofs.Script.Words

/-! # Tokens tile a script

The tokens of a script stand one behind the other, and what stands before, between and behind them
is blanks and complete comments. A token knows whether its gap breaks the line.
-/

namespace Stencil.Script

open List Text

/-- The tokens and the gaps around them make up the text from offset `pos` on. -/
inductive Tiles : (pos : Nat) → (text : List Char) → List Token → Prop where
  | done {pos gap} (blank : Gap True gap) : Tiles pos gap []
  | next {pos gap after tokens} {t : Token} (blank : Gap False gap)
      (start : t.start = pos + bytes gap) (newline : t.newlineBefore = true ↔ '\n' ∈ gap)
      (others : Tiles t.stop after tokens) : Tiles pos (gap ++ (t.text.toList ++ after)) (t :: tokens)

theorem Lexes.tiles (h : Lexes signs previous pos cs tokens) : Tiles pos cs tokens := by
  induction h with
  | done trivia => exact .done (skipTrivia_end_eq_ok.mp trivia).1
  | @next previous pos gap newline c more after kind rest trivia scan others ih =>
    obtain ⟨blank, _, rfl⟩ := skipTrivia_eq_ok.mp trivia
    have token := @Tiles.next pos gap after rest
      ⟨kind, String.ofList (c :: more), pos + bytes gap, gap.any (· == '\n')⟩
      (blank.mono (by simp)) rfl (by simp) (by simpa [Token.stop] using ih)
    simpa using token

/-- Tokens are not empty, do not overlap, stand in the order of the text and leave nothing but blanks
    and comments; the bodies of a template literal do the same inside it. -/
theorem tokenize_tiles {offset : Nat} {script : List Char} {tokens : List Token}
    (lexed : tokenize offset script = .ok tokens) :
    Tiles offset script tokens ∧ (tokens.Pairwise fun t u => t.stop ≤ u.start) ∧
      ∀ t ∈ tokens, t.start < t.stop ∧ Piece offset script t.start t.text.toList ∧
        ∀ bodies, t.kind = .template bodies →
          (bodies.Pairwise fun a b => a.offset + bytes a.text ≤ b.offset) ∧
          ∀ b ∈ bodies, Piece t.start t.text.toList b.offset b.text := by
  have lexes := tokenize_eq_ok.mp lexed
  refine ⟨lexes.tiles, lexes.tidy.inOrder, fun t member => ?_⟩
  have sound := lexes.tidy.sound t member
  refine ⟨sound.nonempty, lexes.piece member, fun bodies template => ⟨?_, fun b inside => ?_⟩⟩
  · have kind := sound.kind
    rw [template] at kind
    exact kind.inOrder
  · exact BodyOf.piece ⟨member, bodies, template, inside⟩ lexes.tidy

/-- A name, a comment with a line break, a literal with two bodies, and a comment up to the end. -/
theorem commented_tiles : Tiles 0 "a /*é\n*/+ \x60b$\x7bc\x7d$\x7b\x7b\x7d\x7d\x60// d".toList
    [⟨.word, "a", 0, false⟩, ⟨.punctuator, "+", 9, true⟩,
      ⟨.template [⟨15, ['c']⟩, ⟨19, ['\x7b', '\x7d']⟩], "\x60b$\x7bc\x7d$\x7b\x7b\x7d\x7d\x60", 11, false⟩] :=
  (tokenize_tiles (by decide +kernel)).1

end Stencil.Script
