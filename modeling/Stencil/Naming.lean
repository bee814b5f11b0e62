import Stencil.Text.Case

/-! # Names of properties and variables

Properties are written in kebab case in a template and in camel case in a render function; handlers
are properties whose key begins with `on`; components and directives are held in variables.
-/

namespace Stencil

/-- Replace each hyphen before a word character by the upper case of that character. -/
def camelizeChars : List Char → List Char
  | [] => []
  | [c] => [c]
  | c :: next :: rest =>
    if c == '-' && (Text.isAlphanumeric next || next == '_') then
      Text.upper next ++ camelizeChars rest
    else c :: camelizeChars (next :: rest)

/-- Kebab case to camel case. A hyphen not followed by a word character is kept. -/
def camelize (s : String) : String :=
  String.ofList (camelizeChars s.toList)

def capitalize (s : String) : String :=
  match s.toList with
  | [] => ""
  | c :: cs => String.ofList (Text.upper c ++ cs)

/-- The key of the handler for an event: `click` gives `onClick`. -/
def handlerKey (event : String) : String :=
  if event.isEmpty then "" else "on" ++ capitalize event

/-- Whether a key names a handler: `on` and then anything but an ASCII lower-case letter. -/
def isHandlerKey (key : String) : Bool :=
  match key.toList with
  | 'o' :: 'n' :: c :: _ => !Text.isAsciiLower c
  | _ => false

def firstUnit16 (c : Char) : Nat :=
  if c.toNat < 0x10000 then c.toNat else 0xD800 + (c.toNat - 0x10000) / 0x400

def assetChar (c : Char) : List Char :=
  if Text.isAsciiAlphanumeric c || c == '_' then [c]
  else if c == '-' then ['_']
  else Nat.toDigits 10 (firstUnit16 c)

/-- The variable that holds a component or directive: `_component_my_button` for the component
    `my-button`. -/
def assetVariable (name kind : String) : String :=
  "_" ++ kind ++ "_" ++ String.ofList (name.toList.flatMap assetChar)

/-- The directives that lowering knows, so that they are never looked up at run time. -/
def isBuiltinDirective (name : String) : Bool :=
  ["bind", "cloak", "else-if", "else", "for", "html", "if", "model", "on", "once", "pre", "show",
    "slot", "text", "memo"].contains name

/-- Whether a text can be a bare key or test: an ASCII letter, `_` or `$`, then those and digits. -/
def isPlainKey (name : String) : Bool :=
  match name.toList with
  | [] => false
  | c :: cs =>
    (Text.isAsciiLetter c || c == '_' || c == '$') &&
      cs.all fun d => Text.isAsciiAlphanumeric d || d == '_' || d == '$'

end Stencil
