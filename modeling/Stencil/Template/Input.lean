import Stencil.Span

/-! # The unread part of a template -/

namespace Stencil

structure Input where
  pos : Nat
  rest : List Char

namespace Input

def skip (n : Nat) (i : Input) : Input :=
  ⟨i.pos + Text.bytes (i.rest.take n), i.rest.drop n⟩

@[simp]
theorem length_skip (n : Nat) (i : Input) : (i.skip n).rest.length = i.rest.length - n := by
  simp [skip]

def count (p : Char → Bool) (i : Input) : Nat :=
  (i.rest.takeWhile p).length

def skipBlank (i : Input) : Input :=
  i.skip (i.count Text.isBlank)

theorem length_skipBlank (i : Input) : i.skipBlank.rest.length ≤ i.rest.length := by
  simp [skipBlank]

def spanFrom (start : Input) (i : Input) : Span :=
  ⟨start.pos, i.pos⟩

end Input

end Stencil
