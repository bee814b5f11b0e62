import Stencil.Template.Directive
import Stencil.Proofs.Text.Cutting

/-! # Shorthands

A mark in front of an attribute's name stands for the name of a directive. What follows it is read
as it is after the long form, only that it stands further to the front.
-/

namespace Stencil

open List Text Input

inductive Shorthand where
  | bind
  | on
  | slot

namespace Shorthand

def mark : Shorthand → Char
  | bind => ':'
  | on => '@'
  | slot => '#'

def name : Shorthand → String
  | bind => "bind"
  | on => "on"
  | slot => "slot"

/-- What the mark stands for. -/
def long (f : Shorthand) : List Char :=
  'v' :: '-' :: (f.name.toList ++ [':'])

/-- By how many bytes the long form is longer. -/
def gap (f : Shorthand) : Nat :=
  bytes f.long - bytes [f.mark]

end Shorthand

/-! ## Moving on -/

def Span.shifted (k : Nat) (s : Span) : Span :=
  ⟨s.start + k, s.stop + k⟩

def Input.shifted (k : Nat) (i : Input) : Input :=
  ⟨i.pos + k, i.rest⟩

def Expression.shifted (k : Nat) : Expression → Expression
  | .simple s => .simple { s with span := s.span.shifted k }
  | e => e

def ValueRead.shifted (k : Nat) (r : ValueRead) : ValueRead :=
  ⟨r.value.map fun (value, span) => (value, span.shifted k), r.input.shifted k,
    r.diagnostics.map fun d => { d with span := d.span.shifted k }⟩

theorem Input.skip_shifted (i : Input) (n) : (i.shifted k).skip n = (i.skip n).shifted k := by
  simp only [skip, shifted, Nat.add_right_comm]

theorem Input.skipBlank_shifted (i : Input) : (i.shifted k).skipBlank = i.skipBlank.shifted k :=
  i.skip_shifted _

theorem readValue_shifted (i : Input) : readValue (i.shifted k) = (readValue i).shifted k := by
  have same (j : Input) : (j.shifted k).rest = j.rest := rfl
  have count (j : Input) (p : Char → Bool) : (j.shifted k).count p = j.count p := rfl
  unfold readValue
  simp only [skip_shifted, same]
  split
  · rfl
  · split
    · rw [apply_ite (ValueRead.shifted k)]
      rfl
    · rw [apply_ite (ValueRead.shifted k)]
      rfl

theorem readArgument_shifted (start raw) :
    readArgument (start + k) raw =
      ((readArgument start raw).1.shifted k, (readArgument start raw).2) := by
  unfold readArgument
  split <;> simp [Expression.shifted, Expression.snippet, Snippet.new, Span.shifted] <;> omega

namespace Shorthand

variable (f : Shorthand)

/-! ## Attributes -/

/-- The attribute with the long form in place of the mark. -/
def lengthen (a : RawAttribute) : RawAttribute :=
  ⟨f.long ++ a.name.tail, a.value.map fun (value, span) => (value, span.shifted f.gap),
    ⟨a.span.start, a.span.stop + f.gap⟩⟩

theorem attributeNameLength_long (text) :
    attributeNameLength false ((f.long ++ text).drop 1) + 1 =
      f.long.length + attributeNameLength false text := by
  cases f <;> simp [long, name, attributeNameLength, isBlank] <;> omega

theorem skip_long (pos n text) :
    skip (f.long.length + n) ⟨pos, f.long ++ text⟩ =
      (skip (n + 1) ⟨pos, f.mark :: text⟩).shifted f.gap := by
  have bytes : Text.bytes f.long = f.mark.utf8Size + f.gap := by cases f <;> decide
  simp only [skip, shifted, take_length_add_append, take_succ_cons,
    Text.bytes_append, Text.bytes, bytes, drop_length_add_append, drop_succ_cons]
  congr 1
  omega

theorem readAttribute_long (pos text) :
    (∃ s, (readAttribute ⟨pos, f.mark :: text⟩).attr.name = f.mark :: s) ∧
      (readAttribute ⟨pos, f.long ++ text⟩).attr =
        f.lengthen (readAttribute ⟨pos, f.mark :: text⟩).attr ∧
      (readAttribute ⟨pos, f.long ++ text⟩).input =
        (readAttribute ⟨pos, f.mark :: text⟩).input.shifted f.gap ∧
      (readAttribute ⟨pos, f.long ++ text⟩).diagnostics.map (·.cause) =
        (readAttribute ⟨pos, f.mark :: text⟩).diagnostics.map (·.cause) := by
  simp only [readAttribute, f.attributeNameLength_long, drop_succ_cons, drop_zero,
    f.skip_long, take_length_add_append, skipBlank_shifted, skip_shifted,
    readValue_shifted]
  generalize skip (attributeNameLength false text + 1) ⟨pos, f.mark :: text⟩ = i
  by_cases hasValue : i.skipBlank.rest.head? = some '='
  · simp only [show (i.skipBlank.shifted f.gap).rest = i.skipBlank.rest from rfl, if_pos hasValue]
    refine ⟨⟨_, rfl⟩, rfl, rfl, ?_⟩
    simp only [ValueRead.shifted, Option.isNone_map, map_append, map_map]
    split <;> rfl
  · simp only [show (i.skipBlank.shifted f.gap).rest = i.skipBlank.rest from rfl, if_neg hasValue]
    exact ⟨⟨_, rfl⟩, rfl, trivial, trivial⟩

/-! ## Directives -/

/-- The directive of the attribute with the long form. -/
def lengthenDirective (d : Directive) : Directive :=
  { d with
    rawName := String.ofList (f.long ++ d.rawName.toList.tail)
    arg := d.arg.map (·.shifted f.gap)
    exp := d.exp.map (·.shifted f.gap)
    span := ⟨d.span.start, d.span.stop + f.gap⟩ }

theorem script?_lengthen (a) : (f.lengthen a).script? = a.script?.map (·.shifted f.gap) := by
  unfold RawAttribute.script? lengthen
  cases a.value with
  | none => rfl
  | some value =>
    dsimp only [Option.map_some]
    split <;> rfl

/-- The name of a directive splits in the same way after the mark as after the long form. -/
theorem nameParts?_long (s) :
    (nameParts? (f.mark :: s) = none ∧ nameParts? (f.long ++ s) = none) ∨
      (nameParts? (f.mark :: s) = some ⟨none, none, f.mark :: s⟩ ∧
        nameParts? (f.long ++ s) = some ⟨some f.name.toList, none, ':' :: s⟩) ∨
      ∃ arg tail, nameParts? (f.mark :: s) = some ⟨none, some (1, arg), tail⟩ ∧
        nameParts? (f.long ++ s) = some ⟨some f.name.toList, some (1 + f.gap, arg), tail⟩ := by
  have splitMark : splitName (f.mark :: s) = (none, f.mark :: s) := by cases f <;> rfl
  have splitLong : splitName (f.long ++ s) = (some f.name.toList, ':' :: s) := by cases f <;> rfl
  have offset : bytes f.name.toList + 3 = 1 + f.gap := by cases f <;> decide
  have tail : isTail (f.mark :: s) = isTail (':' :: s) := by cases f <;> simp [isTail, mark]
  simp only [nameParts?, splitMark, splitLong, Option.isNone_none, Bool.or_true, BEq.rfl,
    Bool.true_or, if_true, offset]
  cases splitArgument? s with
  | none =>
    simp only [tail]
    cases isTail (':' :: s) <;> simp
  | some split =>
    obtain ⟨arg, rest⟩ := split
    cases isTail rest <;> simp

theorem readDirective_long {a : RawAttribute} (marked : a.name = f.mark :: s) :
    (readDirective (f.lengthen a)).directive = (readDirective a).directive.map f.lengthenDirective ∧
      (readDirective (f.lengthen a)).diagnostics.map (·.cause) =
        (readDirective a).diagnostics.map (·.cause) := by
  have noDot : ¬(f.mark :: s).head? = some '.' := by cases f <;> simp [Shorthand.mark]
  have noDot' : ¬(f.long ++ s).head? = some '.' := by simp [Shorthand.long]
  have unmodified : modifiers? (f.mark :: s) = none := by cases f <;> rfl
  have short : shorthandName (f.mark :: s).head? = f.name := by cases f <;> rfl
  have long : (f.lengthen a).name = f.long ++ s := by simp [lengthen, marked]
  unfold readDirective
  rw [long, marked]
  rcases f.nameParts?_long s with ⟨mark, long⟩ | ⟨mark, long⟩ | ⟨arg, tail, mark, long⟩
  · rw [mark, long]
    exact ⟨rfl, rfl⟩
  · rw [mark, long]
    dsimp only
    rw [unmodified]
    exact ⟨rfl, rfl⟩
  · rw [mark, long]
    dsimp only
    cases modifiers? tail with
    | none => exact ⟨rfl, rfl⟩
    | some modifiers =>
      have start : (f.lengthen a).span.start + (1 + f.gap) = a.span.start + 1 + f.gap := by
        simp only [lengthen]
        omega
      have raw : f.long ++ (String.ofList (f.mark :: s)).toList.tail = f.long ++ s := by simp
      simp only [short, String.ofList_toList, start, readArgument_shifted,
        script?_lengthen, if_neg noDot, if_neg noDot']
      split
      · simp only [Option.map_some, lengthenDirective, raw, lengthen, and_self]
      · refine ⟨?_, by split <;> rfl⟩
        simp only [Option.map_some, lengthenDirective, raw, lengthen]

/-- A shorthand is read as its long form. The attribute that begins with a mark and the one that
    begins with the long form go on with the same text; both are read as a directive, or neither,
    with the same errors, and the directives have the same name, argument, modifiers and expression.
    What stands behind the name is further back by as many bytes as the long form is longer. -/
theorem readProps_long (pos : Nat) (text : List Char) :
    ∃ (s : List Char) (directive? : Option Directive),
      let short := readAttribute ⟨pos, f.mark :: text⟩
      let full := readAttribute ⟨pos, f.long ++ text⟩
      short.attr.name = f.mark :: s ∧ full.attr.name = f.long ++ s ∧
        full.input = short.input.shifted f.gap ∧
        (readProps false [short.attr]).props = (directive?.map ElementProp.directive).toList ∧
        (readProps false [full.attr]).props =
          ((directive?.map f.lengthenDirective).map ElementProp.directive).toList ∧
        (full.diagnostics ++ (readProps false [full.attr]).diagnostics).map (·.cause) =
          (short.diagnostics ++ (readProps false [short.attr]).diagnostics).map (·.cause) := by
  obtain ⟨⟨s, marked⟩, attr, input, causes⟩ := f.readAttribute_long pos text
  generalize readAttribute ⟨pos, f.mark :: text⟩ = short at *
  have long : (f.lengthen short.attr).name = f.long ++ s := by
    rw [lengthen, marked, tail_cons]
  have isShort : isDirectiveName short.attr.name = true := by rw [marked]; cases f <;> rfl
  have isLong : isDirectiveName (f.lengthen short.attr).name = true := by
    cases f <;> rfl
  obtain ⟨directive, errors⟩ := f.readDirective_long marked
  refine ⟨s, (readDirective short.attr).directive, marked, ?_⟩
  rw [attr]
  refine ⟨long, input, ?_, ?_, ?_⟩
  · simp [readProps, isShort]
  · simp [readProps, isLong, directive]
  · simp [readProps, isShort, isLong, causes, errors]

end Shorthand

end Stencil
