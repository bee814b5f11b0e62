import Stencil.Text.Basic

/-! # Character references

The few named references that templates use, and numeric ones. A reference that is not understood
stays as it is written.
-/

namespace Stencil.Text

def digit? (base : Nat) (c : Char) : Option Nat :=
  let value :=
    if '0' ≤ c ∧ c ≤ '9' then c.toNat - 48
    else if 'a' ≤ c ∧ c ≤ 'f' then c.toNat - 87
    else if 'A' ≤ c ∧ c ≤ 'F' then c.toNat - 55
    else base
  if value < base then some value else none

/-- The number that digits write, after those read so far. -/
def digits? (base : Nat) (value : Nat) : List Char → Option Nat
  | [] => some value
  | c :: cs => (digit? base c).bind fun d => digits? base (value * base + d) cs

/-- A number of at least one digit, perhaps after a plus sign. -/
def number? (base : Nat) : List Char → Option Nat
  | [] => none
  | ['+'] => none
  | '+' :: cs => digits? base 0 cs
  | cs => digits? base 0 cs

def scalar? (n : Nat) : Option Char :=
  if n.isValidChar then some (Char.ofNat n) else none

/-- The character that a reference stands for, given the text between `&` and `;`. -/
def reference? (name : List Char) : Option Char :=
  match name with
  | ['a', 'm', 'p'] => some '&'
  | ['l', 't'] => some '<'
  | ['g', 't'] => some '>'
  | ['q', 'u', 'o', 't'] => some '"'
  | ['a', 'p', 'o', 's'] => some '\''
  | ['n', 'b', 's', 'p'] => some '\xa0'
  | '#' :: 'x' :: hex | '#' :: 'X' :: hex => (number? 16 hex).bind scalar?
  | '#' :: decimal => (number? 10 decimal).bind scalar?
  | _ => none

/-- The reference that begins after an `&`, and how many characters it has, its `;` included. There
    is no other `&` in a reference. -/
def leadingReference? (cs : List Char) : Option (Char × Nat) :=
  let name := cs.takeWhile fun c => c != ';' && c != '&'
  if (cs.drop name.length).head? = some ';' then (reference? name).map (·, name.length + 1)
  else none

/-- Replace references, after passing over the first `skip` characters. -/
def decodeFrom (skip : Nat) : List Char → List Char
  | [] => []
  | c :: cs =>
    match skip with
    | skip + 1 => decodeFrom skip cs
    | 0 =>
      if c = '&' then
        match leadingReference? cs with
        | some (d, n) => d :: decodeFrom n cs
        | none => c :: decodeFrom 0 cs
      else c :: decodeFrom 0 cs

def decode (cs : List Char) : List Char :=
  decodeFrom 0 cs

end Stencil.Text
