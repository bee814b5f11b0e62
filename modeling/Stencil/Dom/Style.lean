import Stencil.Text.Basic
import Stencil.Text.Quoted

/-! # Inline style

A `style` attribute is a list of declarations `name: value`, kept in the order of their first
mention. The last value of a name wins.
-/

namespace Stencil.Dom

abbrev Declarations := List (String × String)

/-- Set a declaration. A name that is there already keeps its place. -/
def Declarations.set (name value : String) : Declarations → Declarations
  | [] => [(name, value)]
  | (n, v) :: rest => if n = name then (n, value) :: rest else (n, v) :: set name value rest

/-- Drop comments, after passing over the first `skip` characters. Where one is not closed, none
    after it is. -/
def dropCommentsFrom (skip : Nat) : List Char → List Char
  | [] => []
  | c :: cs =>
    match skip with
    | skip + 1 => dropCommentsFrom skip cs
    | 0 =>
      if c = '/' && cs.head? = some '*' then
        match Text.cut? ['*', '/'] (cs.drop 1) with
        | some (body, _) => dropCommentsFrom (body.length + 3) cs
        | none => c :: cs
      else c :: dropCommentsFrom 0 cs

/-- A style without its comments. One that is not closed is no comment. -/
def dropComments (cs : List Char) : List Char :=
  dropCommentsFrom 0 cs

/-- The pieces between semicolons that stand inside no parentheses. -/
def splitDeclarations (depth : Nat) : List Char → List (List Char)
  | [] => [[]]
  | c :: cs =>
    if c = ';' && depth = 0 then [] :: splitDeclarations depth cs
    else
      let depth := if c = '(' then depth + 1 else if c = ')' then depth - 1 else depth
      match splitDeclarations depth cs with
      | [] => [[c]]
      | first :: rest => (c :: first) :: rest

/-- Take a piece into the declarations. A piece without a colon says nothing. -/
def Declarations.read (ds : Declarations) (piece : List Char) : Declarations :=
  match Text.cut? [':'] piece with
  | some (name, value) =>
    ds.set (String.ofList (Text.trim name)) (String.ofList (Text.trim value))
  | none => ds

def readStyle (css : String) : Declarations :=
  (splitDeclarations 0 (dropComments css.toList)).foldl Declarations.read []

def styleObject (css : String) : String :=
  let entries := (readStyle css).map fun (name, value) => Text.quote name ++ ":" ++ Text.quote value
  "\x7b" ++ ",".intercalate entries ++ "\x7d"

end Stencil.Dom
