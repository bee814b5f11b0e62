import Stencil.Lower.Visit
import Stencil.Render.Block
import Stencil.Render.Hoist
import Stencil.Render.Print
import Stencil.Template.Reader

/-! # Compiling a template -/

namespace Stencil

structure Compiled where
  printed : Printed
  components : List String
  directives : List String
  blocks : List Block
  diagnostics : List Diagnostic

namespace Compiled

def errors (c : Compiled) : List Diagnostic :=
  c.diagnostics.filter (·.isError)

def warnings (c : Compiled) : List Diagnostic :=
  c.diagnostics.filter (!·.isError)

def hasErrors (c : Compiled) : Bool :=
  !c.errors.isEmpty

end Compiled

/-- The options with names qualified if the code is a module, which cannot run inside its
    context. -/
def Options.forCompile (o : Options) : Options :=
  if o.mode == .module then { o with qualify := true } else o

/-- Compile a template. Whatever is wrong with it, there is a script. -/
def compile (o : Options) (source : String) : Compiled :=
  let o := o.forCompile
  let (read, readProblems) := readTemplate o source
  let (lowered, lowerProblems) := read.lower o
  let hoisted := if o.hoists then lowered.hoist else lowered
  let (root, blocks) := hoisted.flattenBlocks
  { printed := root.print o
    components := root.components
    directives := root.directives
    blocks
    diagnostics := readProblems ++ lowerProblems }

end Stencil
