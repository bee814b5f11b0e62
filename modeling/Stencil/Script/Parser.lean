import Stencil.Script.Lexer
import Stencil.Script.Tree

/-! # Reading a script

One function per phrase of the grammar. A phrase reads the phrases nested in it through a record of
readers, `Phrases`, and only after it has read a token itself; so readers of depth `n` suffice for
scripts of fewer than `n` characters, and `phrases` builds them by recursion on the depth.
-/

namespace Stencil.Script

/-- The tokens not read yet, and the offset where the script ends. -/
structure Stream where
  tokens : List Token
  stop : Nat

abbrev Reader := StateT Stream (Except SyntaxError)

namespace Reader

def ahead (n : Nat) : Reader (Option Token) :=
  return (← get).tokens[n]?

def peek : Reader (Option Token) :=
  return (← get).tokens.head?

def skip : Reader Unit :=
  modify fun s => { s with tokens := s.tokens.tail }

def atEnd : Reader Bool :=
  return (← get).tokens.isEmpty

def isAt (p : String) : Reader Bool :=
  return (← peek).any (·.isPunctuator p)

def isAtWord (w : String) : Reader Bool :=
  return (← peek).any (·.isWord w)

def eat (p : String) : Reader Bool := do
  if ← isAt p then
    skip
    return true
  else return false

def eatEither (p q : String) : Reader Bool := do
  if ← eat p then return true
  else eat q

def eatWord (w : String) : Reader Bool := do
  if ← isAtWord w then
    skip
    return true
  else return false

def unexpected {α : Type} (what : String) : Reader α := do
  let s ← get
  match s.tokens with
  | [] => throw ⟨.expected what none, s.stop⟩
  | t :: _ => throw ⟨.expected what (some t.text), t.start⟩

def expect (p : String) : Reader Unit := do
  unless ← eat p do
    unexpected ("'" ++ p ++ "'")

def finish : Reader Unit := do
  unless ← atEnd do
    unexpected "end of expression"

def ident : Reader Ident := do
  match ← peek with
  | some t =>
    if t.kind == .word && !isReservedWord t.text then
      skip
      return ⟨t.text, t.start, t.stop⟩
    else unexpected "identifier"
  | none => unexpected "identifier"

end Reader

open Reader

/-- Readers of the phrases that nest in others. -/
structure Phrases where
  expression : Reader Expr
  sequence : Reader (List Expr)
  assignment : Reader Expr
  /-- Operators of at least a precedence. -/
  binary : Nat → Reader Expr
  operators : Nat → Expr → Reader Expr
  unary : Reader Expr
  /-- More accesses and calls after an expression. -/
  chain : Expr → Reader Expr
  /-- More accesses after the callee of `new`. -/
  accesses : Expr → Reader Expr
  /-- Arguments up to the closing parenthesis. -/
  arguments : Reader (List Expr)
  /-- Items up to the closing bracket. -/
  items : Reader (List Expr)
  /-- Properties up to the closing brace. -/
  properties : Reader (List ObjectProp)
  /-- Parameters up to the closing parenthesis. -/
  params : Reader (List Pattern)
  /-- Parameters up to the end of the script. -/
  paramList : Reader (List Pattern)
  target : Reader Pattern
  pattern : Reader Pattern
  patternProps : Reader (List PatternProp)
  patternItems : Reader (List Pattern)
  declarators : Reader (List Declarator)
  statement : Reader Stmt
  /-- Statements up to the closing brace. -/
  block : Reader (List Stmt)
  /-- Statements up to the end of the script. -/
  program : Reader (List Stmt)
  placeholder : Body → Except SyntaxError Expr

def Phrases.shallowest : Phrases :=
  { expression := tooDeep, sequence := tooDeep, assignment := tooDeep, binary := fun _ => tooDeep,
    operators := fun _ _ => tooDeep, unary := tooDeep, chain := fun _ => tooDeep,
    accesses := fun _ => tooDeep, arguments := tooDeep, items := tooDeep, properties := tooDeep,
    params := tooDeep, paramList := tooDeep, target := tooDeep, pattern := tooDeep,
    patternProps := tooDeep, patternItems := tooDeep, declarators := tooDeep,
    statement := tooDeep, block := tooDeep, program := tooDeep,
    placeholder := fun b => throw ⟨.tooDeep, b.offset⟩ }
where
  tooDeep {α : Type} : Reader α := throw ⟨.tooDeep, 0⟩

namespace Phrases

variable (p : Phrases)

/-- Read `more` after a comma, unless the list ends with `close` here. -/
def separated (close : String) {α : Type} (more : Reader α) : Reader α := do
  unless ← isAt close do
    expect ","
  more

def readKey : Reader PropKey := do
  match ← peek with
  | some t =>
    if t.kind == .word || t.kind == .string || t.kind == .number then
      skip
      return .named
    else if t.isPunctuator "[" then
      skip
      let key ← p.assignment
      expect "]"
      return .computed key
    else unexpected "property key"
  | none => unexpected "property key"

def shorthandName? (token : Option Token) : PropKey → Option Token
  | .named => token.filter (·.kind == .word)
  | .computed _ => none

def readTarget : Reader Pattern := do
  if ← eat "\x7b" then return .object (← p.patternProps)
  else if ← eat "[" then return .array (← p.patternItems)
  else return .ident (← ident)

def readPattern : Reader Pattern := do
  let target ← p.readTarget
  if ← eat "=" then return .default target (← p.assignment)
  else return target

def readParam : Reader Pattern := do
  if ← eat "..." then return .rest (← p.target)
  else p.readPattern

def readParams : Reader (List Pattern) := do
  if ← eat ")" then return []
  else
    let first ← p.readParam
    return first :: (← separated ")" p.params)

def readParamList : Reader (List Pattern) := do
  if ← atEnd then return []
  else
    let first ← p.readParam
    if ← eat "," then return first :: (← p.paramList)
    else return [first]

def readPatternProp : Reader PatternProp := do
  if ← eat "..." then return .rest (← p.target)
  else
    let token ← peek
    let key ← p.readKey
    if ← eat ":" then return .keyValue key (← p.pattern)
    else
      match shorthandName? token key with
      | some t =>
        let value ← if ← eat "=" then some <$> p.assignment else pure none
        return .shorthand ⟨t.text, t.start, t.stop⟩ value
      | none => unexpected "':'"

def readPatternProps : Reader (List PatternProp) := do
  if ← eat "\x7d" then return []
  else
    let first ← p.readPatternProp
    return first :: (← separated "\x7d" p.patternProps)

def readPatternItems : Reader (List Pattern) := do
  if ← eat "]" then return []
  else if ← eat "," then return .hole :: (← p.patternItems)
  else
    let first ← if ← eat "..." then .rest <$> p.target else p.readPattern
    return first :: (← separated "]" p.patternItems)

def readPropertyName : Reader Unit := do
  -- a hash marks a private name
  let _ ← eat "#"
  match ← peek with
  | some t => if t.kind == .word then skip else unexpected "property name"
  | none => unexpected "property name"

/-- The expressions in the placeholders of the template literal that comes next. -/
def readTemplate : Reader (List Expr) := do
  match ← peek with
  | some t =>
    skip
    match t.kind with
    | .template bodies => bodies.mapM fun b => p.placeholder b
    | _ => unexpected "template literal"
  | none => unexpected "template literal"

def readFunction : Reader Func := do
  let _ ← eat "*"
  let name ← if (← peek).any (·.kind == .word) then (some ·.name) <$> ident else pure none
  expect "("
  let params ← p.params
  expect "\x7b"
  return ⟨name, params, .block (← p.block)⟩

def readProperty : Reader ObjectProp := do
  if ← eat "..." then return .spread (← p.assignment)
  else
    -- accessors and asynchronous methods
    let next ← ahead 1
    if (← peek).any (fun t => t.kind == .word && ["get", "set", "async"].contains t.text) &&
        !next.any (fun t => t.kind == .punctuator && [",", ":", "(", "\x7d"].contains t.text) then
      skip
    let _ ← eat "*"
    let token ← peek
    let key ← p.readKey
    if ← eat ":" then return .keyValue key (← p.assignment)
    else if ← eat "(" then
      let params ← p.params
      expect "\x7b"
      return .method key ⟨none, params, .block (← p.block)⟩
    else
      match shorthandName? token key with
      | some t =>
        if isReservedWord t.text then throw ⟨.unexpectedKeyword t.text, t.start⟩
        else return .shorthand ⟨t.text, t.start, t.stop⟩
      | none => unexpected "':'"

def readProperties : Reader (List ObjectProp) := do
  if ← eat "\x7d" then return []
  else
    let first ← p.readProperty
    return first :: (← separated "\x7d" p.properties)

def readPrimary : Reader Expr := do
  match ← peek with
  | none => unexpected "expression"
  | some t =>
    match t.kind with
    | .number | .string | .regex =>
      skip
      return .literal
    | .template _ => return .template none (← p.readTemplate)
    | .punctuator =>
      if t.text == "(" then
        skip
        let inner ← p.expression
        expect ")"
        return .paren inner
      else if t.text == "[" then
        skip
        return .array (← p.items)
      else if t.text == "\x7b" then
        skip
        return .object (← p.properties)
      else unexpected "expression"
    | .word =>
      if ["true", "false", "null"].contains t.text then
        skip
        return .literal
      else if t.text == "this" then
        skip
        return .this
      else if t.text == "function" then
        skip
        return .function (← p.readFunction)
      else if t.text == "async" && (← ahead 1).any (·.isWord "function") then
        skip
        skip
        return .function (← p.readFunction)
      else return .ident (← ident)

def readAccesses (e : Expr) : Reader Expr := do
  if ← eat "." then
    readPropertyName
    p.accesses (.member e)
  else if ← eat "[" then
    let property ← p.expression
    expect "]"
    p.accesses (.index e property)
  else return e

def readChain (e : Expr) : Reader Expr := do
  if ← eatEither "." "?." then
    if ← eat "(" then p.chain (.call e (← p.arguments))
    else if ← eat "[" then
      let property ← p.expression
      expect "]"
      p.chain (.index e property)
    else
      readPropertyName
      p.chain (.member e)
  else if ← eat "[" then
    let property ← p.expression
    expect "]"
    p.chain (.index e property)
  else if ← eat "(" then p.chain (.call e (← p.arguments))
  else
    match ← peek with
    | none => return e
    | some t =>
      match t.kind with
      | .template _ => p.chain (.template (some e) (← p.readTemplate))
      | _ =>
        -- an assertion that a value is there, before an access
        if t.isPunctuator "!" && !t.newlineBefore &&
            (← ahead 1).any (fun t => t.isPunctuator "." || t.isPunctuator "[") then
          skip
          p.chain e
        else return e

def readPostfix : Reader Expr := do
  if ← eatWord "new" then
    if ← eat "." then
      let _ ← ident
      p.readChain .literal
    else
      let callee ← p.readAccesses (← p.readPrimary)
      let args ← if ← eat "(" then p.arguments else pure []
      p.readChain (.new callee args)
  else p.readChain (← p.readPrimary)

def isPrefixOperator (t : Token) : Bool :=
  match t.kind with
  | .punctuator => ["!", "~", "+", "-", "++", "--"].contains t.text
  | .word => ["typeof", "void", "delete", "await"].contains t.text
  | _ => false

def readUnary : Reader Expr := do
  if (← peek).any isPrefixOperator then
    skip
    return .unary (← p.unary)
  else
    let operand ← p.readPostfix
    if (← peek).any fun t => (t.isPunctuator "++" || t.isPunctuator "--") && !t.newlineBefore then
      skip
      return .unary operand
    else return operand

/-- How tightly a binary operator binds. -/
def precedence? (operator : String) : Option Nat :=
  if operator == "??" then some 1
  else if operator == "||" then some 2
  else if operator == "&&" then some 3
  else if operator == "|" then some 4
  else if operator == "^" then some 5
  else if operator == "&" then some 6
  else if ["==", "!=", "===", "!=="].contains operator then some 7
  else if ["<", ">", "<=", ">=", "in", "instanceof"].contains operator then some 8
  else if ["<<", ">>", ">>>"].contains operator then some 9
  else if ["+", "-"].contains operator then some 10
  else if ["*", "/", "%"].contains operator then some 11
  else if operator == "**" then some 12
  else none

def operator? (t : Token) : Option Nat :=
  match t.kind with
  | .punctuator => precedence? t.text
  | .word => if ["in", "instanceof"].contains t.text then precedence? t.text else none
  | _ => none

/-- Operators of at least the precedence `least` after their first operand. -/
def readOperators (least : Nat) (left : Expr) : Reader Expr := do
  match ← peek with
  | none => return left
  | some t =>
    match operator? t with
    | none => return left
    | some precedence =>
      if precedence < least then return left
      else
        skip
        -- powers group to the right
        let right ← p.binary (if t.text == "**" then precedence else precedence + 1)
        p.operators least (.binary left right)

def readBinary (least : Nat) : Reader Expr := do
  p.readOperators least (← p.readUnary)

def readConditional : Reader Expr := do
  let test ← p.readBinary 0
  if ← eat "?" then
    let consequent ← p.assignment
    expect ":"
    return .conditional test consequent (← p.assignment)
  else return test

/-- The tokens after the bracket that closes the one at the front, whatever its kind. -/
def afterClosing? : Nat → List Token → Option (List Token)
  | _, [] => none
  | depth, t :: ts =>
    if t.kind == .punctuator && ["(", "[", "\x7b"].contains t.text then afterClosing? (depth + 1) ts
    else if t.kind == .punctuator && [")", "]", "\x7d"].contains t.text then
      match depth with
      | 0 => none
      | 1 => some ts
      | depth + 1 => afterClosing? depth ts
    else afterClosing? depth ts

inductive ArrowHead where
  | name
  | params

def arrowHead? : List Token → Option ArrowHead
  | t :: ts =>
    if t.kind == .word && ts.head?.any (·.isPunctuator "=>") then some .name
    else if t.isPunctuator "(" then
      match afterClosing? 0 (t :: ts) with
      | some (next :: _) => if next.isPunctuator "=>" then some .params else none
      | _ => none
    else none
  | [] => none

def isAsyncHead : List Token → Bool
  | t :: next :: _ =>
    t.isWord "async" && !next.newlineBefore && (next.kind == .word || next.isPunctuator "(")
  | _ => false

def readArrow? : Reader (Option Func) := do
  let start ← get
  let tokens := if isAsyncHead start.tokens then start.tokens.tail else start.tokens
  match arrowHead? tokens with
  | none => return none
  | some head =>
    set { start with tokens }
    let params ← match head with
      | .name => (fun id => [Pattern.ident id]) <$> ident
      | .params =>
        skip
        p.readParams
    if ← eat "=>" then
      let body ← if ← eat "\x7b" then .block <$> p.block else .expr <$> p.assignment
      return some ⟨none, params, body⟩
    else
      set start
      return none

def isAssignmentOperator (t : Token) : Bool :=
  t.kind == .punctuator &&
    ["=", "+=", "-=", "*=", "/=", "%=", "**=", "<<=", ">>=", ">>>=", "&=", "|=", "^=", "&&=",
      "||=", "??="].contains t.text

def readAssignment : Reader Expr := do
  match ← p.readArrow? with
  | some f => return .function f
  | none =>
    let target ← p.readConditional
    if (← peek).any isAssignmentOperator then
      skip
      return .assign target (← p.assignment)
    else return target

def readItem : Reader Expr := do
  if ← eat "..." then return .spread (← p.assignment)
  else p.readAssignment

def readItems : Reader (List Expr) := do
  if ← eat "]" then return []
  else if ← eat "," then p.items
  else
    let first ← p.readItem
    return first :: (← separated "]" p.items)

def readArguments : Reader (List Expr) := do
  if ← eat ")" then return []
  else
    let first ← p.readItem
    return first :: (← separated ")" p.arguments)

def readSequence : Reader (List Expr) := do
  if ← eat "," then
    let first ← p.readAssignment
    return first :: (← p.sequence)
  else return []

def readExpression : Reader Expr := do
  let first ← p.readAssignment
  match ← p.readSequence with
  | [] => return first
  | more => return .sequence (first :: more)

def readDeclarators : Reader (List Declarator) := do
  let target ← p.readTarget
  let value ← if ← eat "=" then some <$> p.assignment else pure none
  if ← eat "," then return ⟨target, value⟩ :: (← p.declarators)
  else return [⟨target, value⟩]

def isDeclarationWord (t : Token) : Bool :=
  t.kind == .word && ["const", "let", "var"].contains t.text

def endsReturn : Option Token → Bool
  | none => true
  | some t => t.isPunctuator ";" || t.isPunctuator "\x7d" || t.newlineBefore

def readStatement : Reader Stmt := do
  if ← eat ";" then return .empty
  else if ← eat "\x7b" then return .block (← p.block)
  else if ← eatWord "return" then
    let value ← if endsReturn (← peek) then pure none else some <$> p.expression
    let _ ← eat ";"
    return .ret value
  else if (← peek).any isDeclarationWord then
    skip
    let declarators ← p.declarators
    let _ ← eat ";"
    return .declare declarators
  else if ← eatWord "if" then
    expect "("
    let test ← p.expression
    expect ")"
    let consequent ← p.statement
    let alternate ← if ← eatWord "else" then some <$> p.statement else pure none
    return .branch test consequent alternate
  else
    let e ← p.readExpression
    let _ ← eat ";"
    return .expr e

def readBlock : Reader (List Stmt) := do
  if ← eat "\x7d" then return []
  else if ← atEnd then unexpected "'\x7d'"
  else
    let first ← p.readStatement
    return first :: (← p.block)

def readProgram : Reader (List Stmt) := do
  if ← atEnd then return []
  else
    let first ← p.readStatement
    return first :: (← p.program)

def readAll {α : Type} (reader : Reader α) (offset : Nat) (script : List Char) :
    Except SyntaxError α := do
  let tokens ← tokenize offset script
  let (result, _) ← (do let a ← reader; finish; return a : Reader α).run
    ⟨tokens, offset + Text.bytes script⟩
  return result

def deeper : Phrases :=
  { expression := p.readExpression, sequence := p.readSequence, assignment := p.readAssignment,
    binary := p.readBinary, operators := p.readOperators, unary := p.readUnary,
    chain := p.readChain, accesses := p.readAccesses, arguments := p.readArguments,
    items := p.readItems, properties := p.readProperties, params := p.readParams,
    paramList := p.readParamList, target := p.readTarget, pattern := p.readPattern,
    patternProps := p.readPatternProps, patternItems := p.readPatternItems,
    declarators := p.readDeclarators, statement := p.readStatement, block := p.readBlock,
    program := p.readProgram,
    placeholder := fun b => readAll p.expression b.offset b.text }

end Phrases

def phrases : Nat → Phrases
  | 0 => .shallowest
  | n + 1 => (phrases n).deeper

def phrasesFor (script : String) : Phrases :=
  phrases (script.toList.length + 2)

def parseExpression (script : String) : Except SyntaxError Expr :=
  Phrases.readAll (phrasesFor script).expression 0 script.toList

def parseStatements (script : String) : Except SyntaxError (List Stmt) :=
  Phrases.readAll (phrasesFor script).program 0 script.toList

def parseParams (script : String) : Except SyntaxError (List Pattern) :=
  Phrases.readAll (phrasesFor script).paramList 0 script.toList

end Stencil.Script
