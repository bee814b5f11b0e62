/-! # Runtime helpers

The functions and symbols of the runtime that a render function may use. They are known by name
only: a render function imports each one it uses under its name with a leading underscore.
-/

namespace Stencil

structure Helper where
  name : String
  deriving Repr, DecidableEq

namespace Helper

def localName (h : Helper) : String :=
  "_" ++ h.name

def fragment : Helper := ⟨"Fragment"⟩
def openBlock : Helper := ⟨"openBlock"⟩
def createBlock : Helper := ⟨"createBlock"⟩
def createElementBlock : Helper := ⟨"createElementBlock"⟩
def createVNode : Helper := ⟨"createVNode"⟩
def createElementVNode : Helper := ⟨"createElementVNode"⟩
def createComment : Helper := ⟨"createCommentVNode"⟩
def createText : Helper := ⟨"createTextVNode"⟩
def resolveComponent : Helper := ⟨"resolveComponent"⟩
def resolveDynamicComponent : Helper := ⟨"resolveDynamicComponent"⟩
def resolveDirective : Helper := ⟨"resolveDirective"⟩
def withDirectives : Helper := ⟨"withDirectives"⟩
def renderList : Helper := ⟨"renderList"⟩
def renderSlot : Helper := ⟨"renderSlot"⟩
def createSlots : Helper := ⟨"createSlots"⟩
def toDisplayString : Helper := ⟨"toDisplayString"⟩
def mergeProps : Helper := ⟨"mergeProps"⟩
def normalizeClass : Helper := ⟨"normalizeClass"⟩
def normalizeStyle : Helper := ⟨"normalizeStyle"⟩
def normalizeProps : Helper := ⟨"normalizeProps"⟩
def guardReactiveProps : Helper := ⟨"guardReactiveProps"⟩
def toHandlers : Helper := ⟨"toHandlers"⟩
def toHandlerKey : Helper := ⟨"toHandlerKey"⟩
def camelize : Helper := ⟨"camelize"⟩
def withCtx : Helper := ⟨"withCtx"⟩

def forVNode (isBlock isComponent : Bool) : Helper :=
  match isBlock, isComponent with
  | true, true => createBlock
  | true, false => createElementBlock
  | false, true => createVNode
  | false, false => createElementVNode

end Helper

end Stencil
