import Stencil.Text.Word
import Stencil.Text.Basic

/-! # Tokens of a script

A script is cut into words, literals and punctuators. The bodies of a template literal are kept as
text: they are scripts of their own and are read when the literal is reached.
-/

namespace Stencil.Script

inductive Unfinished where
  | comment
  | stringLiteral
  | templateLiteral
  | templateExpression
  | regularExpression
  deriving Repr, DecidableEq

def Unfinished.describe : Unfinished → String
  | comment => "comment"
  | stringLiteral => "string literal"
  | templateLiteral => "template literal"
  | templateExpression => "template expression"
  | regularExpression => "regular expression"

inductive Fault where
  | unexpectedCharacter (c : Char)
  | unterminated (what : Unfinished)
  /-- `found` is the text of the token that stands there, if there is one. -/
  | expected (what : String) (found : Option String)
  | unexpectedKeyword (word : String)
  /-- The script nests deeper than its length; this does not happen. -/
  | tooDeep
  deriving Repr, DecidableEq

def Fault.message : Fault → String
  | .unexpectedCharacter c => "Unexpected character '" ++ c.toString ++ "'"
  | .unterminated what => "Unterminated " ++ what.describe
  | .expected what (some text) => "Expected " ++ what ++ ", found '" ++ text ++ "'"
  | .expected what none => "Expected " ++ what ++ ", found end of input"
  | .unexpectedKeyword word => "Unexpected keyword '" ++ word ++ "'"
  | .tooDeep => "Expression is nested too deeply"

structure SyntaxError where
  fault : Fault
  offset : Nat
  deriving Repr, DecidableEq

def SyntaxError.message (e : SyntaxError) : String :=
  e.fault.message

structure Body where
  offset : Nat
  text : List Char
  deriving Repr, DecidableEq

inductive TokenKind where
  | word
  | number
  | string
  | regex
  | template (bodies : List Body)
  | punctuator
  deriving Repr, DecidableEq

structure Token where
  kind : TokenKind
  text : String
  start : Nat
  /-- A line break stands between this token and the one before. -/
  newlineBefore : Bool
  deriving Repr, DecidableEq

namespace Token

def stop (t : Token) : Nat :=
  t.start + Text.bytes t.text.toList

def isPunctuator (p : String) (t : Token) : Bool :=
  t.kind == .punctuator && t.text == p

def isWord (w : String) (t : Token) : Bool :=
  t.kind == .word && t.text == w

end Token

def isNameStart (c : Char) : Bool :=
  Text.isAlphabetic c || c == '_' || c == '$'

def isNamePart (c : Char) : Bool :=
  Text.isAlphanumeric c || c == '_' || c == '$'

def isReservedWord (word : String) : Bool :=
  ["break", "case", "catch", "class", "const", "continue", "debugger", "default", "delete", "do",
    "else", "export", "extends", "finally", "for", "function", "if", "import", "in", "instanceof",
    "new", "return", "super", "switch", "this", "throw", "try", "typeof", "var", "void", "while",
    "with", "true", "false", "null"].contains word

def isSimpleName (name : String) : Bool :=
  match name.toList with
  | [] => false
  | c :: cs => isNameStart c && cs.all isNamePart && !isReservedWord name

/-- Words after which a slash begins a regular expression. -/
def wordsBeforeOperand : List String :=
  ["return", "typeof", "instanceof", "in", "of", "new", "delete", "void", "throw", "case", "do",
    "else", "yield", "await"]

def punctuators : List String :=
  [">>>=", "...", "===", "!==", "**=", "<<=", ">>=", ">>>", "&&=", "||=", "??=", "=>", "==", "!=",
    "<=", ">=", "&&", "||", "??", "?.", "++", "--", "+=", "-=", "*=", "/=", "%=", "&=", "|=",
    "^=", "**", "<<", ">>", "\x7b", "\x7d", "(", ")", "[", "]", ";", ",", "<", ">", "+", "-", "*",
    "/", "%", "&", "|", "^", "!", "~", "?", ":", "=", ".", "@", "#"]

end Stencil.Script
