import Stencil.Script.Token

/-! # Scripts as trees

The tree keeps what the analysis of names needs: names with their places, binding patterns, and how
functions and blocks nest.
-/

namespace Stencil.Script

structure Ident where
  name : String
  start : Nat
  stop : Nat
  deriving Repr, DecidableEq

mutual
inductive Expr where
  | ident (id : Ident)
  /-- A number, string, regular expression, `true`, `false` or `null`. -/
  | literal
  | this
  | template (tag : Option Expr) (parts : List Expr)
  | array (items : List Expr)
  | object (properties : List ObjectProp)
  | function (f : Func)
  | unary (operand : Expr)
  | binary (left right : Expr)
  | assign (target value : Expr)
  | conditional (test consequent alternate : Expr)
  | sequence (items : List Expr)
  | member (object : Expr)
  | index (object property : Expr)
  | call (callee : Expr) (args : List Expr)
  | new (callee : Expr) (args : List Expr)
  | spread (e : Expr)
  | paren (e : Expr)
inductive ObjectProp where
  | keyValue (key : PropKey) (value : Expr)
  | shorthand (id : Ident)
  | method (key : PropKey) (f : Func)
  | spread (e : Expr)
inductive PropKey where
  | named
  | computed (e : Expr)
inductive Pattern where
  | ident (id : Ident)
  | object (properties : List PatternProp)
  | array (items : List Pattern)
  | hole
  | default (target : Pattern) (value : Expr)
  | rest (target : Pattern)
inductive PatternProp where
  | keyValue (key : PropKey) (value : Pattern)
  | shorthand (id : Ident) (value : Option Expr)
  | rest (target : Pattern)
/-- A function; the name of a named function expression is visible inside it. -/
structure Func where
  name : Option String
  params : List Pattern
  body : FuncBody
inductive FuncBody where
  | expr (e : Expr)
  | block (stmts : List Stmt)
inductive Stmt where
  | expr (e : Expr)
  | ret (value : Option Expr)
  | declare (declarators : List Declarator)
  | branch (test : Expr) (consequent : Stmt) (alternate : Option Stmt)
  | block (stmts : List Stmt)
  | empty
/-- One name or pattern of a declaration, with its first value. -/
structure Declarator where
  target : Pattern
  value : Option Expr
end

end Stencil.Script
