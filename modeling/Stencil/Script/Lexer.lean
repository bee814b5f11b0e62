import Stencil.Script.Token

/-! # Cutting a script into tokens

Every scanner says how many further characters belong to a token whose first character is given, so
a token is never empty and what is left is always shorter.
-/

namespace Stencil.Script

inductive TriviaMode where
  | blank
  | lineComment
  | blockComment (start : Nat)

structure Trivia where
  length : Nat
  newline : Bool

def Trivia.more (c : Char) (t : Trivia) : Trivia :=
  ⟨t.length + 1, t.newline || c == '\n'⟩

/-- Blanks and comments at the front of a script that starts at offset `pos`. -/
def skipTrivia (pos : Nat) : TriviaMode → List Char → Except SyntaxError Trivia
  | .blank, '/' :: '/' :: cs => do
    return ((← skipTrivia (pos + 2) .lineComment cs).more '/').more '/'
  | .blank, '/' :: '*' :: cs => do
    return ((← skipTrivia (pos + 2) (.blockComment pos) cs).more '*').more '/'
  | .blank, c :: cs =>
    if Text.isBlank c then return (← skipTrivia (pos + c.utf8Size) .blank cs).more c
    else return ⟨0, false⟩
  | .blank, [] => return ⟨0, false⟩
  | .lineComment, c :: cs => do
    let mode := if c == '\n' then .blank else .lineComment
    return (← skipTrivia (pos + c.utf8Size) mode cs).more c
  | .lineComment, [] => return ⟨0, false⟩
  | .blockComment _, '*' :: '/' :: cs => do
    return ((← skipTrivia (pos + 2) .blank cs).more '/').more '*'
  | .blockComment start, c :: cs => do
    return (← skipTrivia (pos + c.utf8Size) (.blockComment start) cs).more c
  | .blockComment start, [] => throw ⟨.unterminated .comment, start⟩

/-- Characters of a number. A sign belongs to it right after `e` or `E` if `signs` allows it. -/
def numberLength (signs afterE : Bool) : List Char → Nat
  | [] => 0
  | c :: cs =>
    if Text.isAsciiAlphanumeric c || c == '.' || c == '_' ||
        (signs && afterE && (c == '+' || c == '-')) then
      numberLength signs (c == 'e' || c == 'E') cs + 1
    else 0

def stringLength? (quote : Char) : List Char → Option Nat
  | [] => none
  | '\\' :: _ :: cs => (stringLength? quote cs).map (· + 2)
  | c :: cs => if c = quote then some 1 else (stringLength? quote cs).map (· + 1)

/-- Characters up to and including the closing slash of a regular expression. -/
def regexLength? (inClass : Bool) : List Char → Option Nat
  | [] => none
  | '\\' :: _ :: cs => (regexLength? inClass cs).map (· + 2)
  | c :: cs =>
    if c = '\n' then none
    else if c = '/' && !inClass then some 1
    else
      let inClass := if c = '[' then true else if c = ']' then false else inClass
      (regexLength? inClass cs).map (· + 1)

/-- What is open inside a template literal, with the offset where it began. -/
inductive TemplateFrame where
  | literal (start : Nat)
  | body (start depth : Nat)
  | string (quote : Char) (start : Nat)

def TemplateFrame.unterminated : TemplateFrame → SyntaxError
  | .literal start => ⟨.unterminated .templateLiteral, start⟩
  | .body start _ => ⟨.unterminated .templateExpression, start⟩
  | .string _ start => ⟨.unterminated .stringLiteral, start⟩

structure TemplateScan where
  length : Nat
  /-- Byte ranges of the bodies of the outermost literal. -/
  bodies : List (Nat × Nat)

def TemplateScan.more (n : Nat) (s : TemplateScan) : TemplateScan :=
  { s with length := s.length + n }

/-- Read a template literal from offset `pos` on, where `top` is open inside `outer`. -/
def scanTemplate (pos : Nat) (top : TemplateFrame) (outer : List TemplateFrame) :
    List Char → Except SyntaxError TemplateScan
  | [] => throw top.unterminated
  | c :: cs => do
    let next := pos + c.utf8Size
    match top with
    | .literal _ =>
      match c, cs with
      | '\\', d :: cs => return (← scanTemplate (next + d.utf8Size) top outer cs).more 2
      | '\x60', cs =>
        match outer with
        | [] => return ⟨1, []⟩
        | top :: outer => return (← scanTemplate next top outer cs).more 1
      | '$', '{' :: cs =>
        return (← scanTemplate (next + 1) (.body (next + 1) 0) (top :: outer) cs).more 2
      | _, cs => return (← scanTemplate next top outer cs).more 1
    | .body start depth =>
      match c with
      | '{' => return (← scanTemplate next (.body start (depth + 1)) outer cs).more 1
      | '}' =>
        match depth, outer with
        | depth + 1, outer => return (← scanTemplate next (.body start depth) outer cs).more 1
        | 0, [top] =>
          let scan ← scanTemplate next top [] cs
          return ⟨scan.length + 1, (start, pos) :: scan.bodies⟩
        | 0, top :: outer => return (← scanTemplate next top outer cs).more 1
        | 0, [] => throw top.unterminated
      | '\x60' => return (← scanTemplate next (.literal pos) (top :: outer) cs).more 1
      | _ =>
        if c = '"' || c = '\'' then
          return (← scanTemplate next (.string c pos) (top :: outer) cs).more 1
        else return (← scanTemplate next top outer cs).more 1
    | .string quote _ =>
      match c, cs with
      | '\\', d :: cs => return (← scanTemplate (next + d.utf8Size) top outer cs).more 2
      | c, cs =>
        match c == quote, outer with
        | true, top :: outer => return (← scanTemplate next top outer cs).more 1
        | _, _ => return (← scanTemplate next top outer cs).more 1

/-- Whether a slash begins a regular expression: not after a value. -/
def regexAllowed : Option Token → Bool
  | none => true
  | some t =>
    match t.kind with
    | .word => wordsBeforeOperand.contains t.text
    | .punctuator => !([")", "]", "\x7d", "++", "--"].contains t.text)
    | _ => false

/-- The kind of a token that begins with `c`, and how many characters of `cs` belong to it. -/
def scanToken (signs : Bool) (previous : Option Token) (pos : Nat) (c : Char) (cs : List Char) :
    Except SyntaxError (TokenKind × Nat) :=
  if isNameStart c then return (.word, (cs.takeWhile isNamePart).length)
  else if Text.isAsciiDigit c || (c == '.' && (cs.head?.map Text.isAsciiDigit).getD false) then
    return (.number, numberLength signs false cs)
  else if c == '"' || c == '\'' then
    match stringLength? c cs with
    | some n => return (.string, n)
    | none => throw ⟨.unterminated .stringLiteral, pos⟩
  else if c == '\x60' then do
    let scan ← scanTemplate (pos + 1) (.literal pos) [] cs
    let body := fun (start, stop) => Body.mk start (Text.slice (start - pos) (stop - pos) (c :: cs))
    return (.template (scan.bodies.map body), scan.length)
  else if c == '/' && regexAllowed previous then
    match regexLength? false cs with
    | some n => return (.regex, n + ((cs.drop n).takeWhile isNamePart).length)
    | none => throw ⟨.unterminated .regularExpression, pos⟩
  else
    match punctuators.find? fun p => Text.beginsWith p.toList (c :: cs) with
    | none => throw ⟨.unexpectedCharacter c, pos⟩
    | some p =>
      -- `?.` before a digit is a conditional
      if p == "?." && ((cs.drop 1).head?.map Text.isAsciiDigit).getD false then
        return (.punctuator, 0)
      else return (.punctuator, p.length - 1)

/-- The tokens of a script from offset `pos` on, after the token `previous`. -/
def tokensFrom (signs : Bool) (previous : Option Token) (pos : Nat) (cs : List Char) :
    Except SyntaxError (List Token) := do
  let trivia ← skipTrivia pos .blank cs
  match _h : cs.drop trivia.length with
  | [] => return []
  | c :: rest =>
    let start := pos + Text.bytes (cs.take trivia.length)
    let (kind, n) ← scanToken signs previous start c rest
    let text := c :: rest.take n
    let token := Token.mk kind (String.ofList text) start trivia.newline
    return token :: (← tokensFrom signs (some token) (start + Text.bytes text) (rest.drop n))
termination_by cs.length
decreasing_by
  have := congrArg List.length _h
  simp only [List.length_drop, List.length_cons] at this ⊢
  omega

/-- The tokens of a script whose first character has the byte offset `offset`. If the script begins
    with `0x`, none of its numbers has a signed exponent. -/
def tokenize (offset : Nat) (script : List Char) : Except SyntaxError (List Token) :=
  tokensFrom (!Text.beginsWith ['0', 'x'] script) none offset script

end Stencil.Script
