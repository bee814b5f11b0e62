import Stencil.Project.Path

/-! # Patterns for paths

`?` stands for one byte and `*` for any number of bytes, slashes included. `**` as a whole part of a
path stands for any number of parts. `[a-z]` and `[!a-z]` stand for one byte of a set, and
`\x7ba,b\x7d` for one of several patterns. A backslash takes the character after it literally.

Patterns are matched with the UTF-8 bytes of a path.
-/

namespace Stencil.Project

inductive GlobToken where
  | literal (c : Char)
  | any
  | star
  /-- Any number of whole parts, before everything else. -/
  | leadingParts
  /-- A slash and anything after it. -/
  | trailingParts
  /-- Any number of whole parts with slashes around. -/
  | innerParts
  /-- One byte out of some ranges, or one that is in none of them. -/
  | oneOf (negated : Bool) (ranges : List (Char × Char))
  /-- One of several patterns. Empty ones do not count. -/
  | alternates (branches : List (List GlobToken))

/-! ## Reading -/

structure SetReading where
  negated : Bool
  /-- Newest first. -/
  ranges : List (Char × Char)
  /-- Nothing was read yet, so that a bracket or a dash stands for itself. -/
  isFirst : Bool
  /-- The last range waits for its end. -/
  inRange : Bool

namespace SetReading

def start (negated : Bool) : SetReading :=
  ⟨negated, [], true, false⟩

/-- A character of the set, other than the bracket that ends it. None if a range runs backwards. -/
def take (s : SetReading) (c : Char) : Option SetReading :=
  match s.inRange, s.ranges with
  | true, (low, _) :: ranges =>
    if c < low then none
    else some { s with ranges := (low, c) :: ranges, isFirst := false, inRange := false }
  | _, ranges =>
    if c = '-' && !s.isFirst then some { s with inRange := true }
    else some { s with ranges := (c, c) :: ranges, isFirst := false }

def finish (s : SetReading) : GlobToken :=
  .oneOf s.negated (if s.inRange then ('-', '-') :: s.ranges else s.ranges).reverse

end SetReading

structure GlobReading where
  previous : Option Char := none
  /-- The tokens of the innermost branch, newest first. -/
  tokens : List GlobToken := []
  /-- For every open brace, from the innermost: its finished branches, newest first, and the tokens
      around it. -/
  groups : List (List (List GlobToken) × List GlobToken) := []

namespace GlobReading

def push (g : GlobReading) (t : GlobToken) : GlobReading :=
  { g with tokens := t :: g.tokens }

def openGroup (g : GlobReading) : GlobReading :=
  { g with tokens := [], groups := ([], g.tokens) :: g.groups }

/-- A comma divides the branches of a group and is a character anywhere else. -/
def comma (g : GlobReading) : GlobReading :=
  match g.groups with
  | [] => g.push (.literal ',')
  | (branches, around) :: groups =>
    { g with tokens := [], groups := (g.tokens.reverse :: branches, around) :: groups }

def closeGroup? (g : GlobReading) : Option GlobReading :=
  match g.groups with
  | [] => none
  | (branches, around) :: groups =>
    some { g with
      tokens := .alternates (g.tokens.reverse :: branches).reverse :: around
      groups }

/-- Two stars in front of `next`, and whether `next` belongs to them. They stand for whole parts if
    slashes, or the ends of the pattern or of its branch, are around them. -/
def twoStars (g : GlobReading) (next : Option Char) : GlobReading × Bool :=
  let plain := ((g.push .star).push .star, false)
  let endsHere := next == none || (!g.groups.isEmpty && (next == some ',' || next == some '\x7d'))
  match g.tokens with
  | [] =>
    if next == none || next == some '/' then (g.push .leadingParts, next == some '/') else plain
  | last :: tokens =>
    let startsHere := g.previous == some '/' ||
      (!g.groups.isEmpty && (g.previous == some ',' || g.previous == some '\x7b'))
    if startsHere && (endsHere || next == some '/') then
      let token : GlobToken := match last with
        | .leadingParts => .leadingParts
        | .trailingParts => .trailingParts
        | _ => if endsHere then .trailingParts else .innerParts
      ({ g with tokens := token :: tokens }, !endsHere)
    else plain

end GlobReading

def readSet (s : SetReading) : List Char → Option (GlobToken × List Char)
  | [] => none
  | c :: cs =>
    if c = ']' && !s.isFirst then some (s.finish, cs)
    else (s.take c).bind fun s => readSet s cs

theorem length_readSet (h : readSet s cs = some (t, rest)) : rest.length < cs.length := by
  induction cs generalizing s with
  | nil => simp [readSet] at h
  | cons c cs ih =>
    rw [readSet] at h
    split at h
    · simp only [Option.some.injEq, Prod.mk.injEq] at h
      simp [h.2]
    · obtain ⟨s', _, h⟩ := Option.bind_eq_some_iff.1 h
      exact Nat.lt_succ_of_lt (ih h)

def readSetBody : List Char → Option (GlobToken × List Char)
  | '!' :: cs => readSet (.start true) cs
  | '^' :: cs => readSet (.start true) cs
  | cs => readSet (.start false) cs

theorem length_readSetBody (h : readSetBody cs = some (t, rest)) : rest.length < cs.length := by
  rw [readSetBody.eq_def] at h
  split at h
  · exact Nat.lt_succ_of_lt (length_readSet h)
  · exact Nat.lt_succ_of_lt (length_readSet h)
  · exact length_readSet h

def readGlob (g : GlobReading) (cs : List Char) : Option (List GlobToken) :=
  match cs with
  | [] => if g.groups.isEmpty then some g.tokens.reverse else none
  | '*' :: '*' :: rest =>
    match g.twoStars rest.head?, rest with
    | (g, true), next :: rest => readGlob { g with previous := some next } rest
    | (g, _), rest => readGlob { g with previous := some '*' } rest
  | '[' :: rest =>
    match h : readSetBody rest with
    | none => none
    | some (token, after) =>
      have := length_readSetBody h
      readGlob { g.push token with previous := some ']' } after
  | '\\' :: c :: rest => readGlob { g.push (.literal c) with previous := some c } rest
  | '\\' :: [] => none
  | '\x7d' :: rest =>
    match g.closeGroup? with
    | none => none
    | some g => readGlob { g with previous := some '\x7d' } rest
  | c :: rest =>
    let g := match c with
      | '?' => g.push .any
      | '*' => g.push .star
      | '\x7b' => g.openGroup
      | ',' => g.comma
      | c => g.push (.literal c)
    readGlob { g with previous := some c } rest
termination_by cs.length
decreasing_by all_goals (simp only [List.length_cons] at *; omega)

/-! ## Bytes -/

def charBytes (c : Char) : List UInt8 :=
  (String.singleton c).toUTF8.toList

def textBytes (cs : List Char) : List UInt8 :=
  cs.flatMap charBytes

def slash : UInt8 := 47

def afterBytes? : List UInt8 → List UInt8 → Option (List UInt8)
  | [], s => some s
  | _ :: _, [] => none
  | b :: bs, c :: cs => if b = c then afterBytes? bs cs else none

/-- The bytes and all that is left of them from later on. -/
def tails : List UInt8 → List (List UInt8)
  | [] => [[]]
  | b :: bs => (b :: bs) :: tails bs

def afterSlashes : List UInt8 → List (List UInt8)
  | [] => []
  | b :: bs => if b = slash then bs :: afterSlashes bs else afterSlashes bs

/-- A range of characters as ranges of bytes: it joins the last byte of the one end to the first
    byte of the other, and their other bytes stand for themselves. -/
def byteRanges : Char × Char → List (UInt8 × UInt8)
  | (low, high) =>
    let lows := charBytes low
    if low = high then lows.map fun b => (b, b)
    else
      let highs := charBytes high
      (lows.dropLast ++ highs.drop 1).map (fun b => (b, b)) ++
        (lows.getLast?.toList.zip highs.head?.toList)

def inRanges (ranges : List (Char × Char)) (b : UInt8) : Bool :=
  (ranges.flatMap byteRanges).any fun (first, last) => first ≤ b && b ≤ last

mutual

/-- Whether a token stands for nothing at all, because it has no branch to choose. -/
def GlobToken.isVoid : GlobToken → Bool
  | .alternates branches => allBranchesVoid branches
  | _ => false

def allVoid : List GlobToken → Bool
  | [] => true
  | t :: ts => t.isVoid && allVoid ts

def allBranchesVoid : List (List GlobToken) → Bool
  | [] => true
  | b :: bs => allVoid b && allBranchesVoid bs

end

/-! ## Nesting

A choice, a repetition, a set and a sequence of several items are a level each, and so are the
braces around a choice.
-/

def GlobToken.items : GlobToken → Nat
  | .literal c => c.utf8Size
  | .trailingParts => 2
  | .alternates branches => if allBranchesVoid branches then 0 else 1
  | _ => 1

def itemCount : List GlobToken → Nat
  | [] => 0
  | t :: ts => t.items + itemCount ts

def levelIfSeveral (count : Nat) : Nat :=
  if 1 < count then 1 else 0

mutual

def GlobToken.levels : GlobToken → Nat
  | .literal _ | .any => 0
  | .star | .trailingParts => 1
  | .leadingParts | .innerParts => 4
  | .oneOf _ ranges => 1 + levelIfSeveral (ranges.flatMap byteRanges).length
  | .alternates branches =>
    if allBranchesVoid branches then 0
    else 1 + levelIfSeveral (branches.countP (!allVoid ·)) + branchLevels branches

def deepest : List GlobToken → Nat
  | [] => 0
  | t :: ts => max t.levels (deepest ts)

def branchLevels : List (List GlobToken) → Nat
  | [] => 0
  | b :: bs => max (levelIfSeveral (itemCount b) + deepest b) (branchLevels bs)

end

/-! ## Matching

The places in a path that a pattern can have reached are held as what is left from there, the
longest first and each once. Whatever can be left after a place can also be left after an earlier
one, so that a star needs only the first.
-/

def joinPlaces : List (List UInt8) → List (List UInt8) → List (List UInt8)
  | [], places => places
  | places, [] => places
  | s :: ss, t :: ts =>
    if s.length = t.length then s :: joinPlaces ss ts
    else if t.length < s.length then s :: joinPlaces ss (t :: ts)
    else t :: joinPlaces (s :: ss) ts
termination_by ss ts => ss.length + ts.length

def anyLater : List (List UInt8) → List (List UInt8)
  | [] => []
  | s :: _ => tails s

def atLaterParts : List (List UInt8) → List (List UInt8)
  | [] => []
  | s :: ss => joinPlaces (s :: ss) (afterSlashes s)

def pastSlash (places : List (List UInt8)) : List (List UInt8) :=
  places.filterMap (afterBytes? [slash])

def afterByte? (p : UInt8 → Bool) : List UInt8 → Option (List UInt8)
  | [] => none
  | b :: bs => if p b then some bs else none

mutual

def GlobToken.advance : GlobToken → List (List UInt8) → List (List UInt8)
  | .literal c, places => places.filterMap (afterBytes? (charBytes c))
  | .any, places => places.filterMap (afterByte? fun _ => true)
  | .star, places => anyLater places
  | .leadingParts, places => atLaterParts places
  | .trailingParts, places => anyLater (pastSlash places)
  | .innerParts, places => atLaterParts (pastSlash places)
  | .oneOf negated ranges, places =>
    places.filterMap (afterByte? fun b => inRanges ranges b != negated)
  | .alternates branches, places =>
    if allBranchesVoid branches then places else advanceBranches branches places

def advanceAll : List GlobToken → List (List UInt8) → List (List UInt8)
  | [], places => places
  | t :: ts, places => advanceAll ts (t.advance places)

def advanceBranches : List (List GlobToken) → List (List UInt8) → List (List UInt8)
  | [], _ => []
  | b :: bs, places =>
    joinPlaces (if allVoid b then [] else advanceAll b places) (advanceBranches bs places)

end

structure Glob where
  tokens : List GlobToken

namespace Glob

/-- Read a pattern. None if it is malformed. -/
def read? (pattern : String) : Option Glob :=
  (readGlob {} pattern.toList).map (⟨·⟩)

def isLiteral : GlobToken → Bool
  | .literal _ => true
  | _ => false

def isChar (c : Char) : GlobToken → Bool
  | .literal d => c == d
  | _ => false

/-- Whether a pattern is nested too deeply to be used. The pattern as a whole is a level. -/
def isTooDeep (g : Glob) : Bool :=
  250 < 1 + deepest g.tokens

/-- Whether a pattern that ends in a dot is one for file names. Literal paths and endings of
    several characters are compared with the whole path. -/
def wantsName (g : Glob) : Bool :=
  let (leads, body) : Bool × List GlobToken := match g.tokens with
    | .leadingParts :: ts => (true, ts)
    | ts => (false, ts)
  let (stars, ending) : Bool × List GlobToken := match body with
    | .star :: ts => (true, ts)
    | ts => (false, ts)
  if ending.all isLiteral then
    if stars then ending.length == 1 else leads && !ending.any (isChar '/')
  else true

/-- Whether the last part of a path is two dots, which is no file name. -/
def leadsUp (p : Path) : Bool :=
  p.parts.getLast? == some ['.', '.']

def isMatch (g : Glob) (p : Path) : Bool :=
  match g.tokens with
  | [.leadingParts] => true
  | tokens =>
    if leadsUp p && (tokens.getLast?.any (isChar '.')) && g.wantsName then false
    else (advanceAll tokens [textBytes p.text]).any List.isEmpty

end Glob

end Stencil.Project
