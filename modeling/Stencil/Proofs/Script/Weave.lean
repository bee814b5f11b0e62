import Stencil.Proofs.Text.Cutting
import Stencil.Script.Lexer

/-! # Writing into a script

Marks say where something is written into a script: a context before a name, or a key and a context
before a shorthand property. What is written holds no quote, brace or backslash, and it stands
before the first character of a name; so the scanners read past it and stop where they stopped
before.
-/

namespace Stencil.Script

open List Text

theorem isNamePart_of_isNameStart (start : isNameStart c = true) : isNamePart c = true := by
  simp only [isNameStart, isNamePart, isAlphanumeric, Bool.or_eq_true] at start ⊢
  rcases start with (letter | underscore) | dollar
  · exact .inl (.inl (.inl letter))
  · exact .inl (.inr underscore)
  · exact .inr dollar

def IsName (cs : List Char) : Prop :=
  ∃ c more, cs = c :: more ∧ isNameStart c = true ∧ ∀ d ∈ more, isNamePart d = true

theorem IsName.parts (isName : IsName cs) : ∀ c ∈ cs, isNamePart c = true := by
  obtain ⟨c, more, rfl, start, parts⟩ := isName
  exact forall_mem_cons.mpr ⟨isNamePart_of_isNameStart start, parts⟩

/-- What is written before a name. -/
inductive Mark where
  | context
  /-- A shorthand property gets its name as a key as well. -/
  | property (name : String)
  deriving DecidableEq

/-- What stands at each byte offset of a script. -/
abbrev Marks := Nat → Option Mark

namespace Mark

def text : Mark → List Char
  | context => ['_', 'c', 't', 'x', '.']
  | property name => name.toList ++ [':', ' ', '_', 'c', 't', 'x', '.']

def Named : Mark → Prop
  | context => True
  | property name => IsName name.toList

theorem text_begins {k : Mark} (named : k.Named) : ∃ c cs, k.text = c :: cs ∧ isNameStart c = true := by
  cases k with
  | context => exact ⟨'_', _, rfl, by decide⟩
  | property name =>
    obtain ⟨c, cs, eq, start, _⟩ := named
    exact ⟨c, cs ++ [':', ' ', '_', 'c', 't', 'x', '.'], by simp [text, eq], start⟩

theorem text_chars {k : Mark} (named : k.Named) (member : d ∈ k.text) :
    isNamePart d = true ∨ d = '.' ∨ d = ':' ∨ d = ' ' := by
  have ctx : ∀ d ∈ ['_', 'c', 't', 'x', '.'], isNamePart d = true ∨ d = '.' :=
    forall_of_all (by decide)
  cases k with
  | context => exact (ctx d member).imp_right .inl
  | property name =>
    simp only [text, mem_append, mem_cons] at member
    rcases member with inside | rfl | rfl | rest
    · exact .inl (IsName.parts named d inside)
    · simp
    · simp
    · exact (ctx d (by simpa using rest)).imp_right .inl

end Mark

/-- A script with what its marks say written into it, from offset `pos` on. -/
def weave (m : Marks) : Nat → List Char → List Char
  | _, [] => []
  | pos, c :: cs => ((m pos).elim [] Mark.text) ++ c :: weave m (pos + c.utf8Size) cs

@[simp] theorem weave_nil (m pos) : weave m pos [] = [] := rfl

theorem weave_cons (m pos c cs) :
    weave m pos (c :: cs) = ((m pos).elim [] Mark.text) ++ c :: weave m (pos + c.utf8Size) cs := rfl

theorem weave_cons_none (unmarked : m pos = none) (c cs) :
    weave m pos (c :: cs) = c :: weave m (pos + c.utf8Size) cs := by
  simp [weave_cons, unmarked]

theorem weave_append (m pos a b) :
    weave m pos (a ++ b) = weave m pos a ++ weave m (pos + bytes a) b := by
  induction a generalizing pos with
  | nil => simp [bytes]
  | cons c a ih => simp [weave_cons, ih, bytes, Nat.add_assoc]

/-- No mark stands between two offsets. -/
def Unmarked (m : Marks) (lo hi : Nat) : Prop :=
  ∀ p, lo ≤ p → p < hi → m p = none

theorem Unmarked.mono (h : Unmarked m lo hi) (le : lo ≤ lo') (ge : hi' ≤ hi) : Unmarked m lo' hi' :=
  fun p low high => h p (Nat.le_trans le low) (Nat.lt_of_lt_of_le high ge)

theorem weave_unmarked (h : Unmarked m pos (pos + bytes cs)) : weave m pos cs = cs := by
  induction cs generalizing pos with
  | nil => rfl
  | cons c cs ih =>
    have size := c.utf8Size_pos
    have first : m pos = none := h pos (Nat.le_refl _) (by simp only [bytes]; omega)
    rw [weave_cons_none first, ih (h.mono (by omega) (by simp only [bytes]; omega))]

/-- Every mark stands before the first character of a name and not after a backslash; `before` is
    the character before the text. -/
def Seated (m : Marks) : Option Char → Nat → List Char → Prop
  | _, _, [] => True
  | before, pos, c :: cs =>
    (∀ k, m pos = some k → isNameStart c = true ∧ before ≠ some '\\' ∧ k.Named) ∧
      Seated m (some c) (pos + c.utf8Size) cs

theorem getLast?_cons_or (c cs) (before : Option Char) :
    (c :: cs).getLast?.or before = cs.getLast?.or (some c) := by
  cases last : cs.getLast? <;> simp [getLast?_cons, last]

theorem seated_append :
    Seated m before pos (a ++ b) ↔
      Seated m before pos a ∧ Seated m (a.getLast?.or before) (pos + bytes a) b := by
  induction a generalizing before pos with
  | nil => simp [Seated, bytes]
  | cons c a ih =>
    simp only [cons_append, Seated, ih, getLast?_cons_or, bytes, Nat.add_assoc, and_assoc]

section

variable (seated : Seated m before pos cs)
include seated

/-- Marks change the first character of a text at most from one that begins a name to another. -/
theorem Seated.head_weave :
    (weave m pos cs).head? = cs.head? ∨
      ∃ c d, cs.head? = some c ∧ isNameStart c = true ∧
        (weave m pos cs).head? = some d ∧ isNameStart d = true := by
  cases cs with
  | nil => exact .inl rfl
  | cons c cs =>
    cases mark : m pos with
    | none => exact .inl (by simp [weave_cons, mark])
    | some k =>
      obtain ⟨start, _, named⟩ := seated.1 k mark
      obtain ⟨d, ds, eq, dStart⟩ := k.text_begins named
      exact .inr ⟨c, d, rfl, start, by simp [weave_cons, mark, eq], dStart⟩

/-- A test that no first character of a name passes sees the same before and after. -/
theorem Seated.any_head_weave {p : Char → Bool} (other : ∀ c, isNameStart c = true → p c = false) :
    (weave m pos cs).head?.any p = cs.head?.any p := by
  rcases seated.head_weave with same | ⟨c, d, hc, cStart, hd, dStart⟩
  · rw [same]
  · rw [hc, hd]
    simp [other c cStart, other d dStart]

theorem Seated.prefix_weave (other : ∀ c ∈ p, isNameStart c = false) :
    p <+: weave m pos cs ↔ p <+: cs := by
  induction p generalizing before pos cs with
  | nil => simp
  | cons d p ih =>
    cases cs with
    | nil => simp
    | cons c cs =>
      have dOther := other d (by simp)
      cases mark : m pos with
      | none =>
        have tail := ih seated.2 fun e member => other e (by simp [member])
        rw [weave_cons_none mark, cons_prefix_cons, cons_prefix_cons, tail]
      | some k =>
        obtain ⟨start, _, named⟩ := seated.1 k mark
        obtain ⟨e, es, eq, eStart⟩ := k.text_begins named
        simp only [weave_cons, mark, Option.elim_some, eq, cons_append, cons_prefix_cons]
        constructor
        · rintro ⟨rfl, _⟩
          simp [dOther] at eStart
        · rintro ⟨rfl, _⟩
          simp [dOther] at start

end

/-- How a script is written into: what its marks write, and where its places go. -/
structure Weaving where
  marks : Marks
  place : Nat → Nat

/-- The places of a text at `pos` go where they stand in the text that was written into, which
    begins at `pos'`. -/
def Weaving.Places (w : Weaving) (pos pos' : Nat) (cs : List Char) : Prop :=
  ∀ a b, cs = a ++ b → w.place (pos + bytes a) = pos' + bytes (weave w.marks pos a)

namespace Weaving

variable {w : Weaving}

theorem Places.start (h : w.Places pos pos' cs) : w.place pos = pos' :=
  h [] cs rfl

theorem Places.front (h : w.Places pos pos' (a ++ b)) : w.Places pos pos' a := by
  rintro c d rfl
  exact h c (d ++ b) (by simp)

theorem Places.behind (h : w.Places pos pos' (a ++ b)) :
    w.Places (pos + bytes a) (pos' + bytes (weave w.marks pos a)) b := by
  rintro c d rfl
  have all := h (a ++ c) d (by simp)
  rwa [weave_append, bytes_append, bytes_append, ← Nat.add_assoc, ← Nat.add_assoc] at all

/-- Where the places of a script go when its marks are written into it. -/
def placing (m : Marks) (pos pos' : Nat) (cs : List Char) : Weaving :=
  ⟨m, fun p => pos' + bytes (weave m pos (slice 0 (p - pos) cs))⟩

theorem places_placing (m pos pos' cs) : (placing m pos pos' cs).Places pos pos' cs := by
  rintro a b rfl
  have front := slice_append [] a b
  simp only [bytes, Nat.zero_add, nil_append] at front
  simp only [placing, Nat.add_sub_cancel_left, front]

def shift (d : Nat) : Weaving :=
  ⟨fun _ => none, (· + d)⟩

theorem places_shift (d pos cs) : (shift d).Places pos (pos + d) cs := by
  rintro a b rfl
  have same : weave (shift d).marks pos a = a := weave_unmarked fun _ _ _ => rfl
  rw [same]
  exact Nat.add_right_comm ..

end Weaving

end Stencil.Script
