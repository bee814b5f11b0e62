/-! # A place in a list of siblings

A cursor stands on one of several siblings. It can replace or take away the sibling it stands on
and remove others, and it knows where the siblings that follow begin.
-/

namespace Stencil

structure Cursor (α : Type) where
  before : List α
  after : List α
  /-- The sibling under the cursor was taken away; the cursor now stands on the one after it. -/
  removed : Bool := false

namespace Cursor

variable {α : Type}

def at? (siblings : List α) (index : Nat) : Option (Cursor α) :=
  if index < siblings.length then some ⟨(siblings.take index).reverse, siblings.drop index, false⟩
  else none

def index (c : Cursor α) : Nat :=
  c.before.length

def siblings (c : Cursor α) : List α :=
  c.before.reverse ++ c.after

def sibling? (c : Cursor α) (i : Nat) : Option α :=
  c.siblings[i]?

def node? (c : Cursor α) : Option α :=
  c.after.head?

def take? (c : Cursor α) : Option (α × Cursor α) :=
  match c.after with
  | a :: after => some (a, { c with after, removed := true })
  | [] => none

/-- Put another node in the place of the sibling under the cursor, and return the old one. -/
def replace? (c : Cursor α) (node : α) : Option (α × Cursor α) :=
  match c.after with
  | a :: after => some (a, { c with after := node :: after })
  | [] => none

def removeSibling? (c : Cursor α) (i : Nat) : Option (α × Cursor α) :=
  if i < c.index then
    let back := c.index - 1 - i
    (c.before[back]?).map fun a => (a, { c with before := c.before.eraseIdx back })
  else if i = c.index then none
  else
    let ahead := i - c.index
    (c.after[ahead]?).map fun a => (a, { c with after := c.after.eraseIdx ahead })

def next (c : Cursor α) : Nat :=
  if c.removed then c.index else c.index + 1

end Cursor

end Stencil
