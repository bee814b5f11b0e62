/-! # Options of a compile -/

namespace Stencil

inductive Whitespace where
  | condense
  | preserve
  deriving Repr, DecidableEq

inductive CodeMode where
  /-- A script that returns the render function and takes its helpers from a global. -/
  | function
  /-- A module that imports its helpers and exports the render function. -/
  | module
  deriving Repr, DecidableEq

inductive DirectiveRule where
  | bind
  | on
  | model
  | domOn
  | domModel
  | html
  | text
  | show
  | cloak
  | ignore
  /-- Keep the directive for run time. -/
  | resolve
  | warn (message : String)
  deriving Repr, DecidableEq

/-- A change to a node before its children are lowered. -/
inductive NodeRule where
  /-- Static styles become bindings of constant objects. -/
  | style
  /-- Content that a directive overrides is dropped. -/
  | stripChildren
  /-- `<script>` and `<style>` are dropped. -/
  | sideEffects
  | dropComments
  | dropNext (attr : String)
  deriving Repr, DecidableEq

structure Options where
  /-- The marks before and after an interpolation. An empty opening mark opens nothing. -/
  delimiters : String × String := ("\x7b\x7b", "\x7d\x7d")
  whitespace : Whitespace := .condense
  comments : Bool := true
  /-- The platform's tags; all others are components. -/
  isNative : Option (String → Bool) := none
  isVoid : String → Bool := fun _ => false
  isPre : String → Bool := fun _ => false
  /-- Write the render context before its names, instead of running inside it. -/
  qualify : Bool := true
  hoists : Bool := true
  mode : CodeMode := .function
  runtimeGlobal : String := "Vue"
  runtimeModule : String := "vue"
  nodeRules : List NodeRule := []
  /-- Rules by directive name; they win over the ones for `bind`, `on` and `model`. -/
  directiveRules : List (String × DirectiveRule) := []

namespace Options

def rule? (o : Options) (name : String) : Option DirectiveRule :=
  o.directiveRules.lookup name

def setRule (o : Options) (name : String) (rule : DirectiveRule) : Options :=
  { o with directiveRules := (name, rule) :: o.directiveRules.filter (·.1 != name) }

def addRule (o : Options) (name : String) (rule : DirectiveRule) : Options :=
  if (o.rule? name).isSome then o else o.setRule name rule

end Options

end Stencil
