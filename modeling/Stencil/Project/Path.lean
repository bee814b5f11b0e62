import Stencil.Text.Basic

/-! # Paths

A path is kept as it was written: `a/./b` and `a/b` lead to the same file but are shown differently.
Empty parts and parts that are one dot lead nowhere; two dots lead to the folder above.
-/

namespace Stencil.Project

/-- One part of a path, without slashes. -/
abbrev Name := List Char

structure Path where
  text : List Char
  deriving Repr, DecidableEq

namespace Path

def ofString (s : String) : Path :=
  ⟨s.toList⟩

def toString (p : Path) : String :=
  String.ofList p.text

def here : Path := ⟨[]⟩

def isAbsolute (p : Path) : Bool :=
  p.text.head? == some '/'

def join (base p : Path) : Path :=
  if p.isAbsolute || base.text.isEmpty then p
  else if base.text.getLast? == some '/' then ⟨base.text ++ p.text⟩
  else ⟨base.text ++ '/' :: p.text⟩

def parts (p : Path) : List Name :=
  Text.pieces '/' p.text

/-- Whether files can have the path: names have at most 255 bytes and the whole has fewer than 4096,
    and the character U+0000 is in neither. -/
def isUsable (p : Path) : Bool :=
  p.parts.all (Text.bytes · ≤ 255) && Text.bytes p.text < 4096 && !p.text.contains '\x00'

/-- A reversed path without the slashes and dots at its end that lead nowhere. A path that is one
    slash or one dot stays. -/
def settle : List Char → List Char
  | ['/'] => ['/']
  | '/' :: back => settle back
  | '.' :: '/' :: back => settle ('/' :: back)
  | back => back

def fileName? (p : Path) : Option Name :=
  let name := ((settle p.text.reverse).takeWhile (· != '/')).reverse
  if name = [] || name = ['.'] || name = ['.', '.'] then none else some name

def parent? (p : Path) : Option Path :=
  match settle p.text.reverse with
  | [] => none
  | ['/'] => none
  | back => some ⟨(settle (back.dropWhile (· != '/'))).reverse⟩

/-- The path and all paths above it, from the innermost; at most `fuel` of them. -/
def climb : Nat → Path → List Path
  | 0, p => [p]
  | fuel + 1, p =>
    match p.parent? with
    | none => [p]
    | some up => p :: climb fuel up

def ancestors (p : Path) : List Path :=
  climb p.text.length p

/-- What precedes and what follows the last dot of a file name. A dot at its very start does not
    count. -/
def splitName (name : Name) : Name × Option Name :=
  let back := name.reverse
  match back.dropWhile (· != '.') with
  | [] => (name, none)
  | [_] => (name, none)
  | _ :: stem => (stem.reverse, some (back.takeWhile (· != '.')).reverse)

def ending? (p : Path) : Option Name :=
  p.fileName?.bind fun name => (splitName name).2

def withEnding (p : Path) (ending : Name) : Path :=
  match p.fileName? with
  | none => p
  | some name =>
    let folder := ((settle p.text.reverse).dropWhile (· != '/')).reverse
    ⟨folder ++ (splitName name).1 ++ '.' :: ending⟩

end Path

end Stencil.Project
