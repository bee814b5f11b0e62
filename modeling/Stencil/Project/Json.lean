import Stencil.Text.Basic
import Stencil.Text.Quoted

/-! # JSON

The format of config files, and of reports for other programs. Reading is strict: one value, with
blanks around it and nothing else.
-/

namespace Stencil.Project

inductive Json where
  | null
  | bool (value : Bool)
  | number (text : List Char)
  | string (text : String)
  | array (items : List Json)
  /-- The members in the order in which they are written; a key may be there twice. -/
  | object (members : List (String × Json))

namespace Json

def ofNat (n : Nat) : Json :=
  .number (toString n).toList

def ofStrings (texts : List String) : Json :=
  .array (texts.map .string)

def ofString? : Option String → Json
  | none => .null
  | some text => .string text

/-! ## Writing -/

/-- Write texts one after another with commas between. -/
def commaList : List (List Char) → List Char
  | [] => []
  | [item] => item
  | item :: items => item ++ ',' :: commaList items

mutual

def write : Json → List Char
  | .null => "null".toList
  | .bool true => "true".toList
  | .bool false => "false".toList
  | .number text => text
  | .string text => Text.quoteChars text.toList
  | .array items => '[' :: commaList (writeItems items) ++ [']']
  | .object members => '\x7b' :: commaList (writeMembers members) ++ ['\x7d']

def writeItems : List Json → List (List Char)
  | [] => []
  | item :: items => item.write :: writeItems items

def writeMembers : List (String × Json) → List (List Char)
  | [] => []
  | (key, value) :: members =>
    (Text.quoteChars key.toList ++ ':' :: value.write) :: writeMembers members

end

/-! ## Reading -/

def skip (cs : List Char) : List Char :=
  cs.dropWhile fun c => c = ' ' || c = '\n' || c = '\t' || c = '\r'

/-- Some digits, at least one, and the text after them. -/
def readDigits (cs : List Char) : Option (List Char × List Char) :=
  match Text.run Char.isDigit cs with
  | ([], _) => none
  | found => some found

/-- The digits of a number before its point: more than one digit begin with no zero. -/
def readWhole (cs : List Char) : Option (List Char × List Char) :=
  match cs with
  | '0' :: rest => some (['0'], rest)
  | cs => readDigits cs

def readFraction (cs : List Char) : Option (List Char × List Char) :=
  match cs with
  | '.' :: rest => (readDigits rest).map fun (digits, rest) => ('.' :: digits, rest)
  | cs => some ([], cs)

def readExponent (cs : List Char) : Option (List Char × List Char) :=
  match cs with
  | c :: rest =>
    if c = 'e' || c = 'E' then
      match rest with
      | sign :: rest' =>
        if sign = '+' || sign = '-' then
          (readDigits rest').map fun (digits, rest) => (c :: sign :: digits, rest)
        else (readDigits rest).map fun (digits, rest) => (c :: digits, rest)
      | [] => none
    else some ([], cs)
  | [] => some ([], [])

def readMagnitude (cs : List Char) : Option (List Char × List Char) := do
  let (whole, cs) ← readWhole cs
  let (fraction, cs) ← readFraction cs
  let (exponent, cs) ← readExponent cs
  return (whole ++ fraction ++ exponent, cs)

def readNumber : List Char → Option (Json × List Char)
  | '-' :: cs => (readMagnitude cs).map fun (text, rest) => (.number ('-' :: text), rest)
  | cs => (readMagnitude cs).map fun (text, rest) => (.number text, rest)

def readWord (word : String) (value : Json) (cs : List Char) : Option (Json × List Char) :=
  (Text.after? word.toList cs).map (value, ·)

mutual

def readValue : Nat → List Char → Option (Json × List Char)
  | 0, _ => none
  | fuel + 1, cs =>
    match skip cs with
    | '"' :: rest =>
      (Text.readQuoted rest).map fun (text, rest) => (.string (String.ofList text), rest)
    | '[' :: rest =>
      match skip rest with
      | ']' :: rest => some (.array [], rest)
      | rest => readItems fuel [] rest
    | '\x7b' :: rest =>
      match skip rest with
      | '\x7d' :: rest => some (.object [], rest)
      | rest => readMembers fuel [] rest
    | 'n' :: rest => readWord "null" .null ('n' :: rest)
    | 't' :: rest => readWord "true" (.bool true) ('t' :: rest)
    | 'f' :: rest => readWord "false" (.bool false) ('f' :: rest)
    | rest => readNumber rest

/-- Read the rest of an array, after the items `done`, newest first. -/
def readItems : Nat → List Json → List Char → Option (Json × List Char)
  | 0, _, _ => none
  | fuel + 1, done, cs =>
    match readValue fuel cs with
    | none => none
    | some (item, rest) =>
      match skip rest with
      | ',' :: rest => readItems fuel (item :: done) rest
      | ']' :: rest => some (.array (item :: done).reverse, rest)
      | _ => none

/-- Read the rest of an object, after the members `done`, newest first. -/
def readMembers : Nat → List (String × Json) → List Char → Option (Json × List Char)
  | 0, _, _ => none
  | fuel + 1, done, cs =>
    match readValue fuel cs with
    | some (.string key, rest) =>
      match skip rest with
      | ':' :: rest =>
        match readValue fuel rest with
        | none => none
        | some (value, rest) =>
          match skip rest with
          | ',' :: rest => readMembers fuel ((key, value) :: done) rest
          | '\x7d' :: rest => some (.object ((key, value) :: done).reverse, rest)
          | _ => none
      | _ => none
    | _ => none

end

/-- The value that a text holds. Every step of the reader but one takes a character, and two steps
    lead to a character at most, so that the fuel suffices. -/
def read? (text : String) : Option Json :=
  let cs := text.toList
  match readValue (2 * cs.length + 1) cs with
  | some (value, rest) => if (skip rest).isEmpty then some value else none
  | none => none

/-! ## Views -/

def text? : Json → Option String
  | .string text => some text
  | _ => none

def bool? : Json → Option Bool
  | .bool value => some value
  | _ => none

def texts? : Json → Option (List String)
  | .array items => items.mapM text?
  | _ => none

def textPair? : Json → Option (String × String)
  | .array [.string first, .string second] => some (first, second)
  | _ => none

/-- A choice by name: the name alone, or as the only key of an object, with nothing as its value. -/
def choice? : Json → Option String
  | .string name => some name
  | .object [(name, .null)] => some name
  | _ => none

end Json

end Stencil.Project
