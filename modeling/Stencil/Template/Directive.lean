import Stencil.Template.Attribute
import Stencil.Template.Node
import Stencil.Text.Word

/-! # Directives among the attributes

An attribute is a directive if its name is `v-name:arg.modifiers` or has one of the marks `:`, `.`,
`@` and `#` in place of `v-name:`.
-/

namespace Stencil

/-- The marks that stand for a directive: `:` and `.` for `bind`, `@` for `on`, `#` for `slot`. -/
def isShorthandMark (c : Char) : Bool :=
  c == ':' || c == '.' || c == '@' || c == '#'

def isDirectiveName : List Char → Bool
  | 'v' :: '-' :: c :: _ => Text.isAsciiAlphanumeric c || c == '-'
  | c :: _ => isShorthandMark c
  | [] => false

/-- The characters of a directive's own name: `-`, and the letters and digits that are ASCII up to
    case, which long s and the Kelvin sign are. -/
def isDirectiveNameChar (c : Char) : Bool :=
  Text.isAsciiAlphanumeric c || c == '-' || c == 'ſ' || c == 'K'

structure NameParts where
  /-- The name after `v-`, which a shorthand lacks. -/
  name : Option (List Char)
  /-- The argument, with its brackets if it is dynamic, and the bytes before it. -/
  arg : Option (Nat × List Char)
  tail : List Char

/-- Modifiers stand on one line. -/
def isTail (cs : List Char) : Bool :=
  !cs.contains '\n'

/-- An argument in brackets, up to the first closing one, and what follows it. -/
def bracketedArgument? : List Char → Option (List Char × List Char)
  | '[' :: cs =>
    match cs.takeWhile (· != ']'), cs.dropWhile (· != ']') with
    | c :: inner, ']' :: tail => some ('[' :: c :: inner ++ [']'], tail)
    | _, _ => none
  | _ => none

/-- An argument up to the first dot, and what follows it. -/
def plainArgument? (cs : List Char) : Option (List Char × List Char) :=
  let (arg, tail) := Text.run (· != '.') cs
  if arg.isEmpty then none else some (arg, tail)

/-- The argument at the front of a text: in brackets if what follows can be modifiers, and
    otherwise up to a dot. -/
def splitArgument? (cs : List Char) : Option (List Char × List Char) :=
  ((bracketedArgument? cs).filter (isTail ·.2)).orElse fun _ =>
    (plainArgument? cs).filter (isTail ·.2)

/-- The part of a directive's attribute name before its argument, and what follows. -/
def splitName : List Char → Option (List Char) × List Char
  | 'v' :: '-' :: cs =>
    let (name, rest) := Text.run isDirectiveNameChar cs
    (some name, rest)
  | cs => (none, cs)

def nameParts? (cs : List Char) : Option NameParts :=
  let (name, rest) := splitName cs
  let offset := match name with
    | some n => Text.bytes n + 3
    | none => 1
  let argument := match rest with
    | c :: more => if c == ':' || name.isNone then splitArgument? more else none
    | [] => none
  let parts : NameParts := match argument with
    | some (arg, tail) => ⟨name, some (offset, arg), tail⟩
    | none => ⟨name, none, rest⟩
  if isTail parts.tail then some parts else none

def shorthandName (mark : Option Char) : String :=
  match mark with
  | some ':' | some '.' => "bind"
  | some '@' => "on"
  | _ => "slot"

/-- The modifiers in what follows the argument; it has to begin with a dot. -/
def modifiers? : List Char → Option (List String)
  | [] => some []
  | '.' :: cs => some ((Text.pieces '.' cs).map String.ofList)
  | _ => none

structure DirectiveRead where
  directive : Option Directive
  diagnostics : List Diagnostic

/-- The expression of a directive's value, if it is more than blanks. -/
def RawAttribute.script? (a : RawAttribute) : Option Expression :=
  match a.value with
  | some (value, span) =>
    if Text.isBlankText value then none
    else some (.snippet (String.ofList value) false span)
  | none => none

def readArgument (start : Nat) (raw : List Char) : Expression × Bool :=
  match raw with
  | '[' :: inner =>
    let content := (Text.before? [']'] inner).getD inner
    (.snippet (String.ofList content) false ⟨start + 1, start + 1 + Text.bytes content⟩,
      (Text.before? [']'] inner).isNone)
  | _ => (.snippet (String.ofList raw) true ⟨start, start + Text.bytes raw⟩, false)

/-- The name of a slot with what looks like its modifiers: names of slots may hold dots. -/
def dotted (raw : List Char) (modifiers : List String) : List Char :=
  raw ++ modifiers.flatMap fun m => '.' :: m.toList

def readDirective (a : RawAttribute) : DirectiveRead :=
  let nameless : DirectiveRead := ⟨none, [.error .missingDirectiveName a.span]⟩
  match nameParts? a.name with
  | none => ⟨none, []⟩
  | some parts =>
    let name := match parts.name with
      | some n => String.ofList n
      | none => shorthandName a.name.head?
    match modifiers? parts.tail with
    | none => nameless
    | some modifiers =>
      let dot := if a.name.head? = some '.' then ["prop"] else []
      let directive (arg : Option Expression) (modifiers : List String) : Directive :=
        { name, rawName := String.ofList a.name, arg, modifiers := modifiers ++ dot,
          exp := a.script?, span := a.span, loop := none }
      match parts.arg with
      | none => if parts.name.isNone then nameless else ⟨some (directive none modifiers), []⟩
      | some (offset, raw) =>
        if name == "slot" && raw.head? != some '[' then
          let (arg, _) := readArgument (a.span.start + offset) (dotted raw modifiers)
          ⟨some (directive (some arg) []), []⟩
        else
          let (arg, unclosed) := readArgument (a.span.start + offset) raw
          ⟨some (directive (some arg) modifiers),
            if unclosed then [.error .missingDynamicArgumentEnd a.span] else []⟩

structure PropsRead where
  props : List ElementProp
  diagnostics : List Diagnostic

def RawAttribute.toAttribute (a : RawAttribute) : Attribute :=
  ⟨String.ofList a.name, a.value.map fun (value, span) => ⟨String.ofList value, span⟩, a.span⟩

def RawAttribute.isPre (a : RawAttribute) : Bool :=
  a.name == ['v', '-', 'p', 'r', 'e']

/-- Read the attributes of a tag. In a raw element all are static, and `v-pre` is left out. -/
def readProps (raw : Bool) : List RawAttribute → PropsRead
  | [] => ⟨[], []⟩
  | a :: rest =>
    let more := readProps raw rest
    if raw then
      if a.isPre then more else { more with props := .attribute a.toAttribute :: more.props }
    else if isDirectiveName a.name then
      let read := readDirective a
      ⟨(read.directive.map ElementProp.directive).toList ++ more.props,
        read.diagnostics ++ more.diagnostics⟩
    else { more with props := .attribute a.toAttribute :: more.props }

end Stencil
