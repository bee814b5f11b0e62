import Mathlib.Data.List.Sort
import Mathlib.Data.Nat.Nth
import Mathlib.Data.Prod.Lex
import Stencil.Proofs.Text.Cutting
import Stencil.Span

/-! # Lines and columns

The line of an offset is the number of line breaks before it, and its column is the distance from
the last of them. So the offsets of a text are in the order of their lines and columns.
-/

namespace Stencil

open List Text

/-- A line break stands at this offset. -/
def BreakAt (text : List Char) (offset : Nat) : Prop :=
  ∃ front back, text = front ++ '\n' :: back ∧ offset = bytes front

theorem breakAt_cons : BreakAt (c :: text) offset ↔
    c = '\n' ∧ offset = 0 ∨ ∃ k, BreakAt text k ∧ offset = c.utf8Size + k := by
  constructor
  · rintro ⟨_ | ⟨d, front⟩, back, split, rfl⟩
    · exact .inl ⟨(List.cons.inj split).1, rfl⟩
    · obtain ⟨rfl, rfl⟩ := List.cons.inj split
      exact .inr ⟨_, ⟨front, back, rfl, rfl⟩, rfl⟩
  · rintro (⟨rfl, rfl⟩ | ⟨_, ⟨front, back, rfl, rfl⟩, rfl⟩)
    · exact ⟨[], text, rfl, rfl⟩
    · exact ⟨c :: front, back, rfl, rfl⟩

theorem mem_newlineOffsets :
    n ∈ newlineOffsets pos text ↔ ∃ offset, BreakAt text offset ∧ n = pos + offset := by
  induction text generalizing pos with
  | nil => simp [newlineOffsets, BreakAt]
  | cons c text ih =>
    simp only [breakAt_cons, newlineOffsets]
    split
    next isBreak =>
      have size : '\n'.utf8Size = 1 := rfl
      grind
    next other =>
      grind

theorem mem_newlineOffsets_zero : n ∈ newlineOffsets 0 text ↔ BreakAt text n := by
  simp [mem_newlineOffsets]

instance : DecidablePred (BreakAt text) := fun _ =>
  decidable_of_iff _ mem_newlineOffsets_zero

theorem newlineOffsets_pairwise (pos text) : (newlineOffsets pos text).Pairwise (· < ·) := by
  induction text generalizing pos with
  | nil => exact .nil
  | cons c text ih =>
    unfold newlineOffsets
    split
    · refine .cons (fun n later => ?_) (ih _)
      obtain ⟨k, -, rfl⟩ := mem_newlineOffsets.mp later
      omega
    · exact ih _

theorem mem_takeWhile_lt {l : List Nat} (increasing : l.Pairwise (· < ·)) :
    n ∈ l.takeWhile (· < offset) ↔ n ∈ l ∧ n < offset := by
  induction increasing with
  | nil => simp
  | @cons m l later _ ih =>
    rw [takeWhile_cons]
    split <;> grind

/-- The line breaks before an offset, in order. -/
theorem takeWhile_newlineOffsets (text offset) :
    (newlineOffsets 0 text).takeWhile (· < offset) = (range offset).filter (BreakAt text) := by
  have increasing := newlineOffsets_pairwise 0 text
  refine (increasing.sublist (takeWhile_sublist _)).eq_of_mem_iff (pairwise_lt_range.filter _) ?_
  simp [mem_takeWhile_lt increasing, mem_newlineOffsets_zero, and_comm]

/-- Where a line begins. -/
noncomputable def lineStart (text : List Char) : Nat → Nat
  | 0 => 0
  | line + 1 => Nat.nth (BreakAt text) line + 1

theorem lineStart_count (text offset) :
    lineStart text (Nat.count (BreakAt text) offset) =
      ((range offset).filter (BreakAt text)).getLast?.elim 0 (· + 1) := by
  induction offset with
  | zero => simp [lineStart]
  | succ offset ih =>
    rw [range_succ, Nat.count_succ]
    by_cases isBreak : BreakAt text offset
    · simp [isBreak, lineStart]
    · simpa [isBreak] using ih

theorem lineStart_count_le (text offset) :
    lineStart text (Nat.count (BreakAt text) offset) ≤ offset := by
  cases lines : Nat.count (BreakAt text) offset with
  | zero => exact Nat.zero_le _
  | succ line => exact Nat.nth_lt_of_lt_count (by omega)

namespace LineIndex

theorem position_ofText {text : String} (le : offset ≤ bytes text.toList) :
    (ofText text).position offset = ⟨Nat.count (BreakAt text.toList) offset,
      offset - lineStart text.toList (Nat.count (BreakAt text.toList) offset)⟩ := by
  rw [lineStart_count, Nat.count]
  simp only [position, ofText, Nat.min_eq_left le, takeWhile_newlineOffsets, countP_eq_length_filter]
  cases ((range offset).filter (BreakAt text.toList)).getLast? <;> rfl

/-- A position is the number of line breaks before an offset and the distance from the last of them.
    Later offsets of the text have later positions, and every line is one of the text. -/
theorem position_strictMonoOn (text : String) :
    (∀ offset ≤ bytes text.toList,
      let p := (ofText text).position offset
      p.line = Nat.count (BreakAt text.toList) offset ∧
        lineStart text.toList p.line + p.col = offset) ∧
    StrictMonoOn (fun offset =>
      let p := (ofText text).position offset
      toLex (p.line, p.col)) (Set.Iic (bytes text.toList)) ∧
    (∀ offset ≥ bytes text.toList,
      (ofText text).position offset = (ofText text).position (bytes text.toList)) ∧
    ∀ offset, ((ofText text).position offset).line < (ofText text).lines := by
  refine ⟨fun offset le => ?_, fun a le b le' lt => ?_, fun offset ge => ?_, fun offset => ?_⟩
  · rw [position_ofText le]
    exact ⟨rfl, Nat.add_sub_cancel' (lineStart_count_le ..)⟩
  · simp only [position_ofText le, position_ofText le', Prod.Lex.toLex_lt_toLex]
    rcases Nat.lt_or_eq_of_le (Nat.count_monotone (BreakAt text.toList) lt.le) with earlier | same
    · exact .inl earlier
    · have start := lineStart_count_le text.toList a
      rw [← same]
      exact .inr ⟨rfl, by omega⟩
  · simp only [position, ofText, Nat.min_eq_right ge, Nat.min_self]
  · exact Nat.lt_succ_of_le (takeWhile_sublist _).length_le

end LineIndex

end Stencil
