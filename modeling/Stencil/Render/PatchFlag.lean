/-! # Patch flags

Hints to the renderer on what may change in a node: a set of bits in a 32-bit word, or one of two
negative marks.
-/

namespace Stencil

structure PatchFlag where
  bits : Int32
  deriving DecidableEq

namespace PatchFlag

def empty : PatchFlag := ⟨0⟩
def text : PatchFlag := ⟨1⟩
def classes : PatchFlag := ⟨2⟩
def style : PatchFlag := ⟨4⟩
def props : PatchFlag := ⟨8⟩
def fullProps : PatchFlag := ⟨16⟩
def stableFragment : PatchFlag := ⟨64⟩
def keyedFragment : PatchFlag := ⟨128⟩
def unkeyedFragment : PatchFlag := ⟨256⟩
def needPatch : PatchFlag := ⟨512⟩
def dynamicSlots : PatchFlag := ⟨1024⟩
def hoisted : PatchFlag := ⟨-1⟩
def bail : PatchFlag := ⟨-2⟩

def named : List (PatchFlag × String) :=
  [(text, "TEXT"), (classes, "CLASS"), (style, "STYLE"), (props, "PROPS"),
    (fullProps, "FULL_PROPS"), (stableFragment, "STABLE_FRAGMENT"),
    (keyedFragment, "KEYED_FRAGMENT"), (unkeyedFragment, "UNKEYED_FRAGMENT"),
    (needPatch, "NEED_PATCH"), (dynamicSlots, "DYNAMIC_SLOTS")]

def isEmpty (f : PatchFlag) : Bool :=
  f.bits == 0

/-- Whether the renderer has to look at the node when it updates. -/
def isDynamic (f : PatchFlag) : Bool :=
  0 < f.bits

/-- Whether all bits of `g` are set in `f`. The negative marks contain nothing. -/
def contains (f g : PatchFlag) : Bool :=
  0 < f.bits && (f.bits &&& g.bits) == g.bits

def insert (f g : PatchFlag) : PatchFlag :=
  ⟨f.bits ||| g.bits⟩

def describe (f : PatchFlag) : String :=
  if f = hoisted then "HOISTED"
  else if f = bail then "BAIL"
  else ", ".intercalate ((named.filter fun (g, _) => (f.bits &&& g.bits) != 0).map (·.2))

def code (f : PatchFlag) : String :=
  s!"{f.bits.toInt} /* " ++ f.describe ++ " */"

end PatchFlag

/-- Whether a slots object keeps its shape from one render to the next. -/
inductive SlotStability where
  | stable
  | dynamic
  deriving Repr, DecidableEq

def SlotStability.code : SlotStability → String
  | .stable => "1 /* STABLE */"
  | .dynamic => "2 /* DYNAMIC */"

end Stencil
