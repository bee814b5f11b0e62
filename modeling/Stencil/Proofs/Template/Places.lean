import Stencil.Proofs.Script.Words
import Stencil.Proofs.Template.Written

/-! # Places in a template

Every span that the reader gives covers a piece of the template. The spans of a tree are nested, and
siblings stand in the order of the template, whatever is wrong with it: the reader never goes back,
and each span ends where it has got to.
-/

namespace Stencil

open List Text Input Nat Option ElementProp Snippet
open Script (Piece)

/-- An offset at an end of a text or between two of its characters. -/
def Text.IsBoundary (text : List Char) (offset : Nat) : Prop :=
  ∃ front rest, text = front ++ rest ∧ bytes front = offset

namespace Span

/-- The span covers a piece of a text. -/
structure On (text : List Char) (s : Span) : Prop where
  le : s.start ≤ s.stop
  inside : s.stop ≤ bytes text
  start : Text.IsBoundary text s.start
  stop : Text.IsBoundary text s.stop

/-- The span covers this piece of a text. -/
structure Covers (pos : Nat) (text piece : List Char) (s : Span) : Prop where
  start : Piece pos text s.start piece
  stop : s.stop = s.start + bytes piece

/-- A piece of a text inside of another one. -/
structure PartOf (text : List Char) (outer inner : Span) : Prop where
  on : inner.On text
  start : outer.start ≤ inner.start
  stop : inner.stop ≤ outer.stop

/-- Spans that stand one after the other between two offsets. -/
structure InOrder (start stop : Nat) (spans : List Span) : Prop where
  le : start ≤ stop
  inside : ∀ s ∈ spans, start ≤ s.start ∧ s.stop ≤ stop
  apart : spans.Pairwise fun a b => a.stop ≤ b.start

end Span

structure Attribute.Placed (text : List Char) (a : Attribute) : Prop where
  span : a.span.On text
  value : ∀ v ∈ a.value, a.span.PartOf text v.span

structure Directive.Placed (text : List Char) (d : Directive) : Prop where
  span : d.span.On text
  arg : ∀ e ∈ d.arg, d.span.PartOf text e.span
  exp : ∀ e ∈ d.exp, d.span.PartOf text e.span

inductive ElementProp.Placed (text : List Char) : ElementProp → Prop
  | attribute {a} : a.Placed text → Placed text (.attribute a)
  | directive {d} : d.Placed text → Placed text (.directive d)

structure Element.Placed (text : List Char) (el : Element) : Prop where
  span : el.span.On text
  props : ∀ p ∈ el.props, p.Placed text
  order : Span.InOrder el.span.start el.span.stop (el.props.map (·.span))

/-- The spans of a node form a tree over the text. -/
inductive TemplateNode.Placed (text : List Char) : TemplateNode → Prop
  | element {el children} :
      el.Placed text → (∀ child ∈ children, child.Placed text) →
      Span.InOrder el.span.start el.span.stop (children.map (·.span)) →
      Placed text (.element el children)
  | text {t} : t.span.On text → Placed text (.text t)
  | comment {c} : c.span.On text → Placed text (.comment c)
  | interpolation {content span} :
      span.On text → span.PartOf text content.span → Placed text (.interpolation content span)

variable {after arg cs tail text : List Char} {i : Input} {a : RawAttribute} {node : TemplateNode}

theorem TemplateNode.Placed.span (placed : node.Placed text) : node.span.On text := by
  cases placed with
  | element el => exact el.span
  | text on | comment on | interpolation on => exact on

/-! ## Spans in order -/

namespace Span.InOrder

variable {start mid stop : Nat}

theorem nil (le : start ≤ stop) : InOrder start stop [] :=
  ⟨le, by simp, .nil⟩

theorem mono (order : InOrder start stop spans) (earlier : start' ≤ start) (later : stop ≤ stop') :
    InOrder start' stop' spans where
  le := le_trans earlier (le_trans order.le later)
  inside s member := by
    have := order.inside s member
    omega
  apart := order.apart

theorem sublist {fewer : List Span} (order : InOrder start stop spans)
    (part : fewer.Sublist spans) : InOrder start stop fewer where
  le := order.le
  inside s member := order.inside s (part.subset member)
  apart := order.apart.sublist part

theorem snoc {s : Span} (order : InOrder start mid spans) (begins : mid ≤ s.start)
    (le : s.start ≤ s.stop) (ends : s.stop ≤ stop) : InOrder start stop (spans ++ [s]) where
  le := by
    have := order.le
    omega
  inside t member := by
    rcases mem_append.mp member with earlier | last
    · have := order.inside t earlier
      omega
    · obtain rfl := mem_singleton.mp last
      have := order.le
      omega
  apart := by
    refine pairwise_append.mpr ⟨order.apart, pairwise_singleton _ _, ?_⟩
    intro a member b last
    obtain rfl := mem_singleton.mp last
    have := order.inside a member
    omega

/-- What stands before the last span ends where that one begins. -/
theorem init (order : InOrder start stop (spans ++ [s])) :
    InOrder start s.start spans where
  le := (order.inside s (mem_append_right _ mem_cons_self)).1
  inside t member := by
    obtain ⟨-, -, apart⟩ := pairwise_append.mp order.apart
    exact ⟨(order.inside t (mem_append_left _ member)).1,
      apart t member s mem_cons_self⟩
  apart := (pairwise_append.mp order.apart).1

end Span.InOrder

theorem Span.Covers.on {s : Span} (covers : s.Covers 0 text piece) : s.On text := by
  obtain ⟨⟨front, after, rfl, start⟩, stop⟩ := covers
  rw [Nat.zero_add] at start
  refine ⟨by omega, ?_, ⟨front, piece ++ after, rfl, start.symm⟩, front ++ piece, after, ?_, ?_⟩
  · simp only [bytes_append]
    omega
  · rw [append_assoc]
  · rw [bytes_append, stop, start]

theorem Span.PartOf.grow {outer outer' inner : Span} (part : outer.PartOf text inner)
    (start : outer'.start ≤ outer.start) (stop : outer.stop ≤ outer'.stop) :
    outer'.PartOf text inner :=
  ⟨part.on, le_trans start part.start, le_trans part.stop stop⟩

/-! ## Inputs -/

namespace Input

/-- What is left of a text, with its place in it. -/
def Of (text : List Char) (i : Input) : Prop :=
  ∃ front, text = front ++ i.rest ∧ bytes front = i.pos

/-- Some characters further on. -/
def Reaches (i j : Input) : Prop :=
  ∃ n, j = i.skip n

theorem skip_skip (m n) (i : Input) : (i.skip m).skip n = i.skip (m + n) := by
  simp [skip, take_add, Nat.add_assoc]

theorem reaches_skip (n) (i : Input) : i.Reaches (i.skip n) :=
  ⟨n, rfl⟩

theorem reaches_skipBlank (i : Input) : i.Reaches i.skipBlank :=
  i.reaches_skip _

theorem Reaches.refl (i : Input) : i.Reaches i :=
  ⟨0, by simp [skip, bytes]⟩

theorem Reaches.trans (first : i.Reaches j) (second : j.Reaches k) : i.Reaches k := by
  obtain ⟨m, rfl⟩ := first
  obtain ⟨n, rfl⟩ := second
  exact ⟨m + n, skip_skip m n i⟩

theorem Reaches.skip (reaches : i.Reaches j) (n) : i.Reaches (j.skip n) :=
  reaches.trans (j.reaches_skip n)

theorem Reaches.le (reaches : i.Reaches j) : i.pos ≤ j.pos := by
  obtain ⟨n, rfl⟩ := reaches
  exact le_add_right _ _

theorem Of.reaches (here : i.Of text) (reaches : i.Reaches j) : j.Of text := by
  obtain ⟨front, split, bytes⟩ := here
  obtain ⟨n, rfl⟩ := reaches
  refine ⟨front ++ i.rest.take n, ?_, ?_⟩
  · simp [skip, split]
  · simp [skip, bytes]

section

variable (here : i.Of text)
include here

/-- A piece of what is left is a piece of the text. -/
theorem Of.covers (split : i.rest = before ++ (piece ++ after)) :
    Span.Covers 0 text piece ⟨i.pos + bytes before, i.pos + bytes before + bytes piece⟩ := by
  obtain ⟨front, whole, bytes⟩ := here
  refine ⟨⟨front ++ before, after, ?_, ?_⟩, rfl⟩
  · rw [whole, split, append_assoc]
  · simp [bytes]

theorem Of.covers_take (n) : (i.spanFrom (i.skip n)).Covers 0 text (i.rest.take n) := by
  have split : i.rest = [] ++ (i.rest.take n ++ i.rest.drop n) := by simp
  exact here.covers split

/-- The characters at the front that satisfy `p` stand up to where these end. -/
theorem Of.covers_takeWhile (p : Char → Bool) :
    (i.spanFrom (i.skip (i.count p))).Covers 0 text (i.rest.takeWhile p) := by
  have front : i.rest.take (i.count p) = i.rest.takeWhile p :=
    (prefix_iff_eq_take.mp ( takeWhile_prefix p)).symm
  exact front ▸ here.covers_take (i.count p)

theorem Of.spanFrom (reaches : i.Reaches j) : (i.spanFrom j).On text := by
  obtain ⟨n, rfl⟩ := reaches
  exact (here.covers_take n).on

end

end Input

/-! ## Attributes -/

theorem reaches_readValue (i : Input) : i.Reaches (readValue i).input := by
  unfold readValue
  split
  · exact .refl i
  · dsimp only
    split
    · split
      · exact (i.reaches_skip 1).skip _
      · exact ((i.reaches_skip 1).skip _).skip 1
    · split
      · exact .refl i
      · exact i.reaches_skip _

/-- The value stands between the input and what is left, and what is wrong with it too. -/
theorem placed_readValue (here : i.Of text) :
    (∀ v ∈ (readValue i).value, (i.spanFrom (readValue i).input).PartOf text v.2 ∧
      ∃ raw, v.2.Covers 0 text raw ∧ v.1 = decode raw) ∧
      ∀ d ∈ (readValue i).diagnostics, d.span.On text := by
  unfold readValue
  split
  · exact ⟨by simp, by simp⟩
  next c _ _ =>
    dsimp only
    split
    · have start := i.reaches_skip 1
      have covers := (here.reaches start).covers_takeWhile (· != c)
      split
      · constructor
        · rintro _ ⟨⟩
          exact ⟨⟨covers.on, start.le, le_refl _⟩, _, covers, rfl⟩
        · simpa [Diagnostic.error] using covers.on
      · constructor
        · rintro _ ⟨⟩
          exact ⟨⟨covers.on, start.le, (reaches_skip 1 _).le⟩, _, covers, rfl⟩
        · simp
    · split
      · exact ⟨by simp, by simp⟩
      · constructor
        · rintro _ ⟨⟩
          refine ⟨⟨?_, le_refl _, le_refl _⟩, _, here.covers_takeWhile _, rfl⟩
          exact (here.covers_takeWhile _).on
        · simp

structure RawAttribute.Placed (text : List Char) (a : RawAttribute) : Prop where
  span : a.span.On text
  name : ∃ i : Input, i.Of text ∧ i.pos = a.span.start ∧ a.name <+: i.rest ∧
    i.pos + bytes a.name ≤ a.span.stop
  value : ∀ v ∈ a.value, a.span.PartOf text v.2 ∧
    ∃ raw, v.2.Covers 0 text raw ∧ v.1 = decode raw

theorem reaches_readAttribute (i : Input) : i.Reaches (readAttribute i).input := by
  unfold readAttribute
  dsimp only
  split
  · exact ((((i.reaches_skip _).trans (reaches_skipBlank _)).skip 1).trans
      (reaches_skipBlank _)).trans (reaches_readValue _)
  · exact i.reaches_skip _

theorem span_readAttribute (i) :
    (readAttribute i).attr.span = i.spanFrom (readAttribute i).input := by
  unfold readAttribute
  dsimp only
  split <;> rfl

theorem placed_readAttribute (here : i.Of text) :
    (readAttribute i).attr.Placed text ∧
      ∀ d ∈ (readAttribute i).diagnostics, d.span.On text := by
  have on : (readAttribute i).attr.span.On text := by
    rw [span_readAttribute]
    exact here.spanFrom (reaches_readAttribute i)
  unfold readAttribute at on ⊢
  dsimp only at on ⊢
  generalize attributeNameLength false (i.rest.drop 1) + 1 = n at on ⊢
  split at on
  next isValue =>
    rw [if_pos isValue]
    have before : i.Reaches ((i.skip n).skipBlank.skip 1).skipBlank :=
      (((i.reaches_skip n).trans (reaches_skipBlank _)).skip 1).trans
        (reaches_skipBlank _)
    have afterName : (i.skip n).Reaches ((i.skip n).skipBlank.skip 1).skipBlank :=
      ((reaches_skipBlank _).skip 1).trans (reaches_skipBlank _)
    generalize ((i.skip n).skipBlank.skip 1).skipBlank = j at on before afterName ⊢
    obtain ⟨value, problems⟩ := placed_readValue (here.reaches before)
    refine ⟨⟨on, ⟨i, here, rfl, i.rest.take_prefix n, ?_⟩, ?_⟩, ?_⟩
    · exact (afterName.trans (reaches_readValue j)).le
    · exact fun v member => (value v member).imp_left (·.grow before.le (le_refl _))
    · refine forall_mem_append.mpr ⟨problems, ?_⟩
      split
      · simpa [Diagnostic.error] using on
      · simp
  next noValue =>
    rw [if_neg noValue]
    exact ⟨⟨on, ⟨i, here, rfl, i.rest.take_prefix n, le_refl _⟩, by simp⟩, by simp⟩

theorem reaches_readAttributes (earlier) (i : Input) :
    i.Reaches (readAttributes earlier i).input := by
  fun_induction readAttributes earlier i with
  | case1 earlier i ends => exact i.reaches_skipBlank
  | case2 earlier i _ slash ih => exact (i.reaches_skipBlank.skip 1).trans ih
  | case3 earlier i _ _ read _ _ _ ih | case4 earlier i _ _ read _ _ ih =>
    exact (i.reaches_skipBlank.trans (reaches_readAttribute _)).trans ih

/-- The attributes of a tag stand in order, with what is wrong with them. -/
theorem placed_readAttributes (here : i.Of text) (placed : ∀ a ∈ earlier, a.Placed text)
    (order : Span.InOrder start i.pos (earlier.map (·.span))) :
    (∀ a ∈ (readAttributes earlier i).attributes, a.Placed text) ∧
      Span.InOrder start (readAttributes earlier i).input.pos
        ((readAttributes earlier i).attributes.map (·.span)) ∧
      ∀ d ∈ (readAttributes earlier i).diagnostics, d.span.On text := by
  fun_induction readAttributes earlier i with
  | case1 earlier i ends => exact ⟨placed, order.mono (le_refl _) i.reaches_skipBlank.le, by simp⟩
  | case2 earlier i _ slash ih =>
    have reaches := i.reaches_skipBlank.skip 1
    exact ih (here.reaches reaches) placed (order.mono (le_refl _) reaches.le)
  | case3 earlier i _ _ read _ _ _ ih =>
    have blank := i.reaches_skipBlank
    obtain ⟨attr, problems⟩ := placed_readAttribute (here.reaches blank)
    have reaches := blank.trans (reaches_readAttribute i.skipBlank)
    obtain ⟨attributes, ordered, more⟩ := ih (here.reaches reaches) placed
      (order.mono (le_refl _) reaches.le)
    refine ⟨attributes, ordered, forall_mem_append.mpr ⟨problems, ?_⟩⟩
    exact forall_mem_cons.mpr ⟨attr.span, more⟩
  | case4 earlier i _ _ read _ _ ih =>
    have blank := i.reaches_skipBlank
    obtain ⟨attr, problems⟩ := placed_readAttribute (here.reaches blank)
    have reaches := reaches_readAttribute i.skipBlank
    have span : read.attr.span = i.skipBlank.spanFrom read.input := span_readAttribute _
    obtain ⟨attributes, ordered, more⟩ := ih (here.reaches (blank.trans reaches))
      (forall_mem_append.mpr ⟨placed, by simpa using attr⟩)
      (by
        rw [map_append, map_singleton, span]
        exact order.snoc blank.le reaches.le (le_refl _))
    exact ⟨attributes, ordered, forall_mem_append.mpr ⟨problems, more⟩⟩

/-! ## Directives -/

theorem flatMap_modifiers (found : modifiers? tail = some modifiers) :
    (modifiers.flatMap fun m => '.' :: m.toList) = tail := by
  unfold modifiers? at found
  split at found
  · obtain rfl := some.inj found
    rfl
  · obtain rfl := some.inj found
    rw [flatMap_map]
    simpa using flatMap_pieces '.' _
  · cases found

theorem bracketedArgument?_eq_some (found : bracketedArgument? cs = some (arg, tail)) :
    cs = arg ++ tail := by
  unfold bracketedArgument? at found
  split at found
  next cs =>
    split at found
    next c inner tail inside outside =>
      obtain ⟨rfl, rfl⟩ := Prod.mk.inj (some.inj found)
      have split : cs.takeWhile (· != ']') ++ cs.dropWhile (· != ']') = cs :=
        takeWhile_append_dropWhile
      rw [inside, outside] at split
      simp [← split]
    · cases found
  · cases found

theorem plainArgument?_eq_some (found : plainArgument? cs = some (arg, tail)) :
    cs = arg ++ tail := by
  unfold plainArgument? at found
  dsimp only [Text.run] at found
  split at found
  · cases found
  · obtain ⟨rfl, rfl⟩ := Prod.mk.inj (some.inj found)
    exact takeWhile_append_dropWhile.symm

theorem splitArgument?_eq_some (found : splitArgument? cs = some (arg, tail)) :
    cs = arg ++ tail := by
  unfold splitArgument? at found
  cases bracketed : (bracketedArgument? cs).filter (isTail ·.2) with
  | some parts =>
    rw [bracketed] at found
    obtain rfl := some.inj found
    exact bracketedArgument?_eq_some (filter_eq_some_iff.mp bracketed).1
  | none =>
    rw [bracketed] at found
    exact plainArgument?_eq_some (filter_eq_some_iff.mp found).1

theorem utf8Size_of_isShorthandMark (isMark : isShorthandMark c = true) : c.utf8Size = 1 := by
  simp only [isShorthandMark, Bool.or_eq_true, beq_iff_eq] at isMark
  rcases isMark with ((rfl | rfl) | rfl) | rfl <;> rfl

theorem splitName_eq (cs) :
    (∃ name rest, splitName cs = (some name, rest) ∧ cs = 'v' :: '-' :: (name ++ rest)) ∨
      splitName cs = (none, cs) ∧ ∀ rest, cs ≠ 'v' :: '-' :: rest := by
  unfold splitName
  split
  next cs =>
    refine .inl ⟨_, _, rfl, ?_⟩
    rw [takeWhile_append_dropWhile]
  next noPrefix => exact .inr ⟨rfl, fun rest same => noPrefix rest same⟩

theorem nameParts?_split (found : nameParts? cs = some parts)
    (hasArg : parts.arg = some (offset, arg)) :
    ∃ c, (splitName cs).2 = c :: (arg ++ parts.tail) ∧ (c = ':' ∨ (splitName cs).1 = none) ∧
      offset = (match (splitName cs).1 with
        | some name => bytes name + 3
        | none => 1) := by
  simp only [nameParts?, ite_none_right_eq_some, some.injEq] at found
  obtain ⟨-, rfl⟩ := found
  split at hasArg
  next arg tail argument =>
    obtain ⟨rfl, rfl⟩ := Prod.mk.inj (some.inj hasArg)
    split at argument
    next c more rest =>
      split at argument
      next opens =>
        refine ⟨c, ?_, by simpa using opens, rfl⟩
        rw [rest, splitArgument?_eq_some argument]
      · cases argument
    · cases argument
  · cases hasArg

theorem nameParts?_arg (isName : isDirectiveName cs = true) (found : nameParts? cs = some parts)
    (hasArg : parts.arg = some (offset, arg)) :
    ∃ front, cs = front ++ (arg ++ parts.tail) ∧ bytes front = offset := by
  obtain ⟨c, rest, opens, rfl⟩ := nameParts?_split found hasArg
  rcases splitName_eq cs with ⟨name, rest', split, rfl⟩ | ⟨split, noName⟩
  · simp only [split, reduceCtorEq, or_false] at rest opens ⊢
    refine ⟨'v' :: '-' :: (name ++ [c]), by simp [rest], ?_⟩
    have ascii : 'v'.utf8Size = 1 ∧ '-'.utf8Size = 1 ∧ ':'.utf8Size = 1 := by decide
    simp only [bytes, bytes_append, opens]
    change _ = bytes name + 3
    omega
  · simp only [split] at rest ⊢
    refine ⟨[c], rest, ?_⟩
    have isMark : isShorthandMark c = true := by
      rw [rest] at isName noName
      unfold isDirectiveName at isName
      split at isName
      next same => exact absurd same (noName _)
      next same => exact (List.cons.inj same).1 ▸ isName
      · cases isName
    simp [bytes, utf8Size_of_isShorthandMark isMark]

/-- A script stands at its span in a text, up to its character references. -/
structure Snippet.Stands (text : List Char) (s : Snippet) : Prop where
  new : s = .new s.content false s.span
  raw : ∃ raw, s.span.Covers 0 text raw ∧
    (s.content.toList = raw ∨ s.content.toList = decode raw)

def Expression.Stands (text : List Char) (e : Expression) : Prop :=
  ∃ s, e = .simple s ∧ s.Stands text

/-- The script of a directive, and its argument if that is a script. -/
def ElementProp.scripts : ElementProp → List Expression
  | .directive d => d.exp.toList ++ d.arg.toList.filter (!·.isStatic)
  | .attribute _ => []

/-- An argument stands where it was read, between its brackets if it is dynamic. -/
theorem placed_readArgument (here : i.Of text) (split : i.rest = before ++ (raw ++ after)) :
    Span.PartOf text ⟨i.pos + bytes before, i.pos + bytes before + bytes raw⟩
      (readArgument (i.pos + bytes before) raw).1.span ∧
    ((readArgument (i.pos + bytes before) raw).1.isStatic = false →
      (readArgument (i.pos + bytes before) raw).1.Stands text) := by
  have bracket : '['.utf8Size = 1 := by decide
  unfold readArgument
  split
  next inner =>
    have inside : ∃ rest, inner = (before? [']'] inner).getD inner ++ rest := by
      cases closed : before? [']'] inner with
      | none => exact ⟨[], by simp⟩
      | some content => exact ⟨[']'], before?_eq_some closed⟩
    obtain ⟨rest, inner_eq⟩ := inside
    generalize (before? [']'] inner).getD inner = content at inner_eq ⊢
    have split' : i.rest = (before ++ ['[']) ++ (content ++ (rest ++ after)) := by
      simp [split, inner_eq]
    have covers := here.covers split'
    simp only [bytes_append] at covers
    refine ⟨⟨covers.on, le_succ _, ?_⟩, fun _ => ?_⟩
    · simp only [Expression.span, Expression.snippet, new, inner_eq, bytes, bracket,
        bytes_append]
      omega
    · exact ⟨_, rfl, rfl, content, covers, .inl (by simp [new])⟩
  · exact ⟨⟨(here.covers split).on, le_refl _, le_refl _⟩, by rintro ⟨⟩⟩

section

variable (placed : a.Placed text)
include placed

theorem RawAttribute.Placed.script? :
    ∀ e ∈ a.script?, a.span.PartOf text e.span ∧ e.Stands text := by
  intro e member
  unfold RawAttribute.script? at member
  split at member
  next value span found =>
    split at member
    · cases member
    · obtain rfl := some.inj member
      obtain ⟨part, raw, covers, decoded⟩ := placed.value (value, span) found
      exact ⟨part, _, rfl, rfl, raw, covers, .inr (by simpa [new] using decoded)⟩
  · cases member

/-- An argument that is a piece of the name of an attribute stands inside of the attribute. -/
theorem RawAttribute.Placed.argument (split : a.name = front ++ (raw ++ after)) :
    a.span.PartOf text (readArgument (a.span.start + bytes front) raw).1.span ∧
    ((readArgument (a.span.start + bytes front) raw).1.isStatic = false →
      (readArgument (a.span.start + bytes front) raw).1.Stands text) := by
  obtain ⟨i, here, pos, ⟨rest, begins⟩, fits⟩ := placed.name
  have split' : i.rest = front ++ (raw ++ (after ++ rest)) := by simp [← begins, split]
  rw [← pos]
  refine (placed_readArgument here split').imp_left fun part => part.grow ?_ ?_
  · simp only [← pos]
    omega
  · simp only [split, bytes_append] at fits
    dsimp only
    omega

/-- A directive that is read from an attribute, with or without an argument. -/
theorem RawAttribute.Placed.directive {d : Directive} (exp : d.exp = a.script?)
    (span : d.span = a.span) (arg : ∀ e ∈ d.arg, a.span.PartOf text e.span ∧
      (e.isStatic = false → e.Stands text)) :
    (d.Placed text ∧ d.span = a.span) ∧
      ∀ e ∈ (directive d).scripts, e.Stands text := by
  refine ⟨⟨⟨span ▸ placed.span, span ▸ fun e member => (arg e member).1, ?_⟩, span⟩, ?_⟩
  · rw [exp, span]
    exact fun e member => (placed.script? e member).1
  · refine forall_mem_append.mpr ⟨fun e member => ?_, fun e member => ?_⟩
    · rw [exp, mem_toList] at member
      exact (placed.script? e member).2
    · obtain ⟨isArg, dynamic⟩ := mem_filter.mp member
      exact (arg e (mem_toList.mp isArg)).2 (by simpa using dynamic)

theorem placed_readDirective (isName : isDirectiveName a.name = true) :
    (∀ d ∈ (readDirective a).directive, (d.Placed text ∧ d.span = a.span) ∧
      ∀ e ∈ (directive d).scripts, e.Stands text) ∧
      ∀ d ∈ (readDirective a).diagnostics, d.span.On text := by
  have reported : ∀ cause, ∀ d ∈ [Diagnostic.error cause a.span], d.span.On text := by
    simpa [Diagnostic.error] using fun _ => placed.span
  unfold readDirective
  split
  · exact ⟨by simp, by simp⟩
  next parts found =>
    extract_lets name
    split
    · exact ⟨by simp, reported _⟩
    next modifiers isModifiers =>
      split
      · split
        · exact ⟨by simp, reported _⟩
        · refine ⟨?_, by simp⟩
          rintro _ ⟨⟩
          exact placed.directive rfl rfl (by simp)
      next offset raw hasArg =>
        obtain ⟨front, split, rfl⟩ := nameParts?_arg isName found hasArg
        split
        · refine ⟨?_, by simp⟩
          rintro _ ⟨⟩
          have whole : a.name = front ++ (dotted raw modifiers ++ []) := by
            simp [split, dotted, flatMap_modifiers isModifiers]
          refine placed.directive rfl rfl ?_
          rintro _ ⟨⟩
          exact placed.argument whole
        · constructor
          · rintro _ ⟨⟩
            refine placed.directive rfl rfl ?_
            rintro _ ⟨⟩
            exact placed.argument split
          · dsimp only
            split
            · exact reported _
            · simp

theorem RawAttribute.Placed.toAttribute : a.toAttribute.Placed text where
  span := placed.span
  value := by
    intro v member
    obtain ⟨⟨value, span⟩, found, rfl⟩ := map_eq_some_iff.mp member
    exact (placed.value (value, span) found).1

end

theorem placed_readProps (raw) {attributes} (placed : ∀ a ∈ attributes, a.Placed text) :
    (∀ p ∈ (readProps raw attributes).props, p.Placed text) ∧
      ((readProps raw attributes).props.map (·.span)).Sublist (attributes.map (·.span)) ∧
      ∀ d ∈ (readProps raw attributes).diagnostics, d.span.On text := by
  induction attributes with
  | nil => exact ⟨by rintro _ ⟨⟩, .slnil, by rintro _ ⟨⟩⟩
  | cons a rest ih =>
    obtain ⟨here, later⟩ := forall_mem_cons.mp placed
    obtain ⟨props, sublist, problems⟩ := ih later
    have static : ∀ p ∈ ElementProp.attribute a.toAttribute :: (readProps raw rest).props,
        p.Placed text :=
      forall_mem_cons.mpr ⟨.attribute here.toAttribute, props⟩
    unfold readProps
    dsimp only
    split
    · split
      · exact ⟨props, sublist.cons _, problems⟩
      · exact ⟨static, sublist.cons_cons _, problems⟩
    · split
      next isName =>
        obtain ⟨directive, found⟩ := placed_readDirective here isName
        refine ⟨?_, ?_, forall_mem_append.mpr ⟨found, problems⟩⟩
        · refine forall_mem_append.mpr ⟨?_, props⟩
          intro p member
          obtain ⟨d, found, rfl⟩ := map_eq_some_iff.mp (mem_toList.mp member)
          exact .directive (directive d found).1.1
        · cases read : (readDirective a).directive with
          | none => exact sublist.cons _
          | some d =>
            have same : (ElementProp.directive d).span = a.span := (directive d read).1.2
            simp only [map_some, toList_some, singleton_append, map_cons, same]
            exact sublist.cons_cons _
      · exact ⟨static, sublist.cons_cons _, problems⟩

/-! ## Space between nodes -/

theorem Thinned.placed (thinned : Thinned nodes kept) (placed : ∀ node ∈ nodes, node.Placed text) :
    ∀ node ∈ kept, node.Placed text := by
  refine thinned.forall_mem (fun same here => ?_) placed
  exact .text (same ▸ TemplateNode.Placed.span here)

/-! ## Reading -/

namespace Reading

/-- Where the children of the innermost of some open elements begin. -/
def base : List OpenElement → Nat
  | [] => 0
  | top :: _ => top.element.span.stop

end Reading

/-- Siblings, newest first, that stand in order between two offsets. -/
structure Siblings (text : List Char) (start stop : Nat) (nodes : List TemplateNode) : Prop where
  placed : ∀ node ∈ nodes, node.Placed text
  order : Span.InOrder start stop (nodes.reverse.map (·.span))

/-- Open elements, innermost first. Each one begins after the siblings before it. -/
inductive OpenElements (text : List Char) : List OpenElement → Prop
  | nil : OpenElements text []
  | cons {top stack} :
      top.element.Placed text →
      Siblings text (Reading.base stack) top.element.span.start top.before →
      OpenElements text stack → OpenElements text (top :: stack)

namespace Siblings

theorem mono (siblings : Siblings text start stop nodes) (later : stop ≤ stop') :
    Siblings text start stop' nodes :=
  ⟨siblings.placed, siblings.order.mono (le_refl _) later⟩

variable (siblings : Siblings text start mid nodes)
include siblings

theorem cons (placed : node.Placed text)
    (begins : mid ≤ node.span.start) (ends : node.span.stop ≤ stop) :
    Siblings text start stop (node :: nodes) where
  placed := forall_mem_cons.mpr ⟨placed, siblings.placed⟩
  order := by
    rw [reverse_cons, map_append]
    exact siblings.order.snoc begins placed.span.le ends

/-- A text joins a text before it, and the two cover all that is between. -/
theorem addText {span : Span} (content) (on : span.On text) (begins : mid ≤ span.start)
    (ends : span.stop ≤ stop) : Siblings text start stop (addText content span nodes) := by
  unfold Stencil.addText
  split
  next t rest =>
    obtain ⟨here, before⟩ := forall_mem_cons.mp siblings.placed
    have order := siblings.order
    rw [reverse_cons, map_append] at order
    have last : t.span.stop ≤ mid := (order.inside t.span (by simp [TemplateNode.span])).2
    have le : t.span.start ≤ t.span.stop := here.span.le
    have le' : span.start ≤ span.stop := on.le
    have joined : t.span.merge span = ⟨t.span.start, span.stop⟩ := by
      simp only [Span.merge, Span.mk.injEq]
      omega
    have whole : Span.On text ⟨t.span.start, span.stop⟩ :=
      ⟨by dsimp only; omega, on.inside, here.span.start, on.stop⟩
    have earlier : Siblings text start t.span.start rest := ⟨before, order.init⟩
    rw [joined]
    exact earlier.cons (.text whole) (le_refl _) ends
  · exact siblings.cons (.text on) begins ends

end Siblings

theorem reaches_skipEndTag (i : Input) : i.Reaches (skipEndTag i).1 := by
  unfold skipEndTag
  dsimp only
  split
  · exact i.reaches_skip _
  · exact (i.reaches_skip _).skip 1

theorem placed_skipEndTag (here : i.Of text) : ∀ d ∈ (skipEndTag i).2, d.span.On text := by
  unfold skipEndTag
  dsimp only
  split
  · simpa [Diagnostic.error] using here.spanFrom (i.reaches_skip _)
  · simp

namespace Reading

/-- All that has been read covers pieces of the text, in order, up to where the reader is. -/
structure Placed (text : List Char) (s : Reading) : Prop where
  input : s.input.Of text
  siblings : Siblings text (base s.stack) s.input.pos s.nodes
  stack : OpenElements text s.stack
  diagnostics : ∀ d ∈ s.diagnostics, d.span.On text

variable {s : Reading}

section

variable (placed : s.Placed text)
include placed

theorem Placed.spanOf (n) : (s.spanOf n).On text :=
  placed.input.spanFrom (s.input.reaches_skip n)

theorem Placed.report (cause) {span : Span} (on : span.On text) :
    (s.report cause span).Placed text where
  input := placed.input
  siblings := placed.siblings
  stack := placed.stack
  diagnostics := by
    refine forall_mem_append.mpr ⟨placed.diagnostics, ?_⟩
    simpa [Diagnostic.error] using on

theorem Placed.skip (n) : (s.skip n).Placed text where
  input := placed.input.reaches (s.input.reaches_skip n)
  siblings := placed.siblings.mono (s.input.reaches_skip n).le
  stack := placed.stack
  diagnostics := placed.diagnostics

theorem Placed.take (nodePlaced : node.Placed text) (same : node.span = s.spanOf n) :
    ((s.add node).skip n).Placed text where
  input := placed.input.reaches (s.input.reaches_skip n)
  siblings := by
    apply placed.siblings.cons nodePlaced
    · exact le_of_eq (congrArg Span.start same).symm
    · exact le_of_eq (congrArg Span.stop same)
  stack := placed.stack
  diagnostics := placed.diagnostics

theorem Placed.takeText (content n) :
    Placed text { s with
      nodes := addText content (s.spanOf n) s.nodes, input := s.input.skip n } where
  input := placed.input.reaches (s.input.reaches_skip n)
  siblings := placed.siblings.addText content (placed.spanOf n) (le_refl _) (le_refl _)
  stack := placed.stack
  diagnostics := placed.diagnostics

theorem Placed.close (o) : (s.close o).Placed text := by
  unfold Reading.close
  split
  · exact placed
  next top stack found =>
    obtain ⟨input, siblings, opened, diagnostics⟩ := placed
    rw [found] at siblings opened
    cases opened with
    | cons topPlaced before opened =>
      have thinned := Thinned.children o s.keepsSpace top.keepsSpace s.nodes.reverse
      dsimp only
      have ends : s.input.Reaches (if s.endsHere top then skipEndTag s.input
          else (s.input, [.error .missingEndTag top.element.span])).1 := by
        split
        · exact reaches_skipEndTag s.input
        · exact .refl s.input
      have problems : ∀ d ∈ (if s.endsHere top then skipEndTag s.input
          else (s.input, [.error .missingEndTag top.element.span])).2, d.span.On text := by
        split
        · exact placed_skipEndTag input
        · simpa [Diagnostic.error] using topPlaced.span
      generalize (if s.endsHere top then _ else _) = stop at ends problems ⊢
      have opens : top.element.span.start ≤ top.element.span.stop := topPlaced.span.le
      have begins : top.element.span.stop ≤ s.input.pos := siblings.order.le
      have reached := ends.le
      have here := (input.reaches ends).spanFrom (.refl _)
      have whole : Span.On text ⟨top.element.span.start, stop.1.pos⟩ :=
        ⟨by dsimp only; omega, here.inside, topPlaced.span.start, here.stop⟩
      have inTag := topPlaced.order.mono (le_refl _) (le_trans begins reached)
      have element : Element.Placed text
          { top.element with span := ⟨top.element.span.start, stop.1.pos⟩ } :=
        ⟨whole, topPlaced.props, inTag⟩
      have inside := (siblings.order.sublist thinned.spans).mono opens reached
      have children := thinned.placed
        fun node member => siblings.placed node (mem_reverse.mp member)
      have reported := forall_mem_append.mpr ⟨diagnostics, problems⟩
      refine ⟨input.reaches ends, ?_, opened, reported⟩
      exact before.cons (.element element children inside) (le_refl _) (le_refl _)

theorem Placed.comment : s.comment.Placed text := by
  unfold Reading.comment
  dsimp only
  split
  · exact placed.take (.comment (placed.spanOf _)) rfl
  · have reported := placed.report .eofInComment (placed.spanOf ((s.input.rest.drop 4).length + 4))
    exact reported.take (.comment (reported.spanOf _)) rfl

theorem Placed.strayEndTag : s.strayEndTag.Placed text := by
  have reaches := reaches_skipEndTag s.input
  unfold Reading.strayEndTag
  refine ⟨placed.input.reaches reaches, placed.siblings.mono reaches.le, placed.stack, ?_⟩
  refine forall_mem_append.mpr ⟨forall_mem_append.mpr ⟨placed.diagnostics, ?_⟩, ?_⟩
  · exact placed_skipEndTag placed.input
  · simpa [Diagnostic.error] using placed.input.spanFrom reaches

theorem Placed.startTag (o) : (s.startTag o).Placed text := by
  unfold Reading.startTag
  dsimp only
  generalize (List.takeWhile _ (s.input.rest.drop 2)).length = n
  have named := s.input.reaches_skip (n + 2)
  have noAttributes : ∀ a ∈ ([] : List RawAttribute), a.Placed text := by simp
  obtain ⟨attributes, order, problems⟩ :=
    placed_readAttributes (placed.input.reaches named) noAttributes (.nil named.le)
  have reaches := named.trans (reaches_readAttributes [] (s.input.skip (n + 2)))
  generalize readAttributes [] (s.input.skip (n + 2)) = read at attributes order problems reaches ⊢
  generalize (if beginsWith ['/', '>'] read.input.rest then 2 else _) = m
  generalize (s.inRaw || !s.inRaw && read.attributes.any (·.isPre)) = raw
  obtain ⟨props, sublist, wrong⟩ := placed_readProps raw attributes
  have span := placed.input.spanFrom (reaches.skip m)
  have element : ∀ {tag kind selfClosing}, Element.Placed text
      { tag, kind, props := (readProps raw read.attributes).props, selfClosing, lowered := none,
        span := s.input.spanFrom (read.input.skip m) } :=
    ⟨span, props, (order.sublist sublist).mono (le_refl _) (read.input.reaches_skip m).le⟩
  have diagnostics : ∀ closed : Bool, ∀ d ∈ s.diagnostics ++ read.diagnostics ++
      (if closed then [] else [.error .eofInTag (s.input.spanFrom (read.input.skip m))]) ++
      (readProps raw read.attributes).diagnostics, d.span.On text := by
    intro closed
    simp only [forall_mem_append]
    refine ⟨⟨⟨placed.diagnostics, problems⟩, ?_⟩, wrong⟩
    split
    · simp
    · simpa [Diagnostic.error] using span
  have input := placed.input.reaches (reaches.skip m)
  split
  · refine ⟨input, ?_, placed.stack, diagnostics _⟩
    exact placed.siblings.cons (.element element (by simp) (.nil span.le)) (le_refl _)
      (le_refl _)
  · refine ⟨input, ⟨by simp, .nil (le_refl _)⟩, ?_, diagnostics _⟩
    exact .cons element placed.siblings placed.stack

theorem Placed.interpolation (o mark) : (s.interpolation o mark).Placed text := by
  unfold Reading.interpolation
  dsimp only
  split
  next raw rest found =>
    have opens := s.input.reaches_skip mark.length
    obtain ⟨before, after, raw_eq, blanks, _⟩ := trim_eq raw
    have split : (s.input.skip mark.length).rest =
        before ++ (trim raw ++ (after ++ (o.delimiters.2.toList ++ rest))) := by
      rw [cut?_eq_some found]
      simp [← append_assoc, ← raw_eq]
    have content := ((placed.input.reaches opens).covers split).on
    have afterRaw : ((s.input.skip mark.length).skip raw.length).pos =
        (s.input.skip mark.length).pos + bytes raw := by
      rw [Input.skip, cut?_eq_some found, take_left]
    have reached : (s.input.skip mark.length).pos + bytes raw ≤
        (s.input.skip (mark.length + raw.length + o.delimiters.2.toList.length)).pos := by
      rw [← skip_skip, ← skip_skip, ← afterRaw]
      exact (reaches_skip _ _).le
    have size := congrArg bytes raw_eq
    simp only [bytes_append] at size
    have part : (s.spanOf (mark.length + raw.length + o.delimiters.2.toList.length)).PartOf text
        ⟨(s.input.skip mark.length).pos + bytes before,
          (s.input.skip mark.length).pos + bytes before + bytes (trim raw)⟩ := by
      refine ⟨content, le_trans opens.le (le_add_right _ _), ?_⟩
      dsimp only [Reading.spanOf, spanFrom]
      omega
    rw [blanks]
    exact placed.take (.interpolation (placed.spanOf _) part) rfl
  · have reported := placed.report .missingInterpolationEnd (placed.spanOf mark.length)
    exact reported.takeText mark mark.length

end

variable (o : Options) (placed : s.Placed text)
include placed

theorem Placed.content : (s.content o).Placed text := by
  unfold Reading.content
  split
  · exact placed.interpolation o _
  · exact placed.takeText _ _

theorem Placed.step : (s.step o).Placed text := by
  unfold Reading.step
  split
  · exact placed.close o
  · exact (placed.report _ (placed.spanOf 3)).skip 3
  · split
    · split
      · exact placed.close o
      · exact placed.strayEndTag
    · exact placed.takeText _ _
  · exact placed.comment
  · exact placed.take (.comment (placed.spanOf _)) rfl
  · split
    · exact placed.startTag o
    · exact placed.content o
  · exact placed.content o

theorem Placed.run : (s.run o).Placed text := by
  fun_induction Reading.run o s with
  | case1 s _ => exact placed
  | case2 s _ ih => exact ih (placed.step o)

end Reading

/-- The spans that the reader gives form a tree over the template: every span covers a piece of it,
    the props and children of an element stand in order inside of it, and the values, arguments and
    expressions of props inside of these. What is reported points at pieces of the template too. -/
theorem readTemplate_placed (o : Options) (source : String) :
    (readTemplate o source).1.span.On source.toList ∧
      (∀ node ∈ (readTemplate o source).1.children, node.Placed source.toList) ∧
      Span.InOrder 0 (bytes source.toList) ((readTemplate o source).1.children.map (·.span)) ∧
      ∀ d ∈ (readTemplate o source).2, d.span.On source.toList := by
  have start : Input.Of source.toList ⟨0, source.toList⟩ := ⟨[], rfl, rfl⟩
  have done : (Reading.run o ⟨⟨0, source.toList⟩, [], [], []⟩).Placed source.toList :=
    Reading.Placed.run o ⟨start, ⟨by simp, .nil (Nat.le_refl _)⟩, .nil, by simp⟩
  have arranged := Thinned.arrange o false
    (Reading.run o ⟨⟨0, source.toList⟩, [], [], []⟩).nodes.reverse
  have placed := arranged.placed
    fun node member => done.siblings.placed node (mem_reverse.mp member)
  have whole : Span.On source.toList ⟨0, 0 + bytes source.toList⟩ :=
    (start.covers (by simp : source.toList = [] ++ (source.toList ++ []))).on
  rw [Nat.zero_add] at whole
  have here := done.input.spanFrom (.refl _)
  have order := (done.siblings.order.sublist arranged.spans).mono (Nat.zero_le _) here.inside
  exact ⟨whole, placed, order, done.diagnostics⟩

end Stencil
