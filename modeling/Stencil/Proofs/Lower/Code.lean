import Stencil.Lower.Condition
import Stencil.Proofs.Lower.Properties

/-! # Adding to lowered code

What a chain of conditionals becomes with a new end, and properties with a new one, said as
relations to do inductions on.
-/

namespace Stencil

open List

/-- How a chain of conditionals is given another end. -/
inductive Attached (alternate : RenderNode) : RenderNode → RenderNode → Prop
  | last {test consequent old newline} :
      Attached alternate (.conditional test consequent old newline)
        (.conditional test consequent alternate newline)
  | chain {test consequent rest rest' newline} :
      Attached alternate rest rest' →
      Attached alternate (.conditional test consequent rest newline)
        (.conditional test consequent rest' newline)
  | other {node} : Attached alternate node node

theorem attached (node alternate) : Attached alternate node (node.attachAlternate alternate) := by
  fun_induction RenderNode.attachAlternate node alternate with
  | case1 test consequent test' consequent' alternate' newline' newline alternate ih =>
    exact .chain ih
  | case2 test consequent old newline alternate _ => exact .last
  | case3 node alternate _ _ => exact .other

/-- An open conditional stands before comments and blanks only. -/
theorem eq_of_openConditional? (found : openConditional? done = some c) :
    ∃ ignored, (∀ node ∈ ignored, node.isIgnorable = true) ∧
      done = ignored ++ .conditional c.branches c.lowered c.span :: c.before ∧
      c.branches.getLast?.any (·.condition.isSome) = true := by
  fun_induction openConditional? done with
  | case1 => cases found
  | case2 branches lowered span before isOpen =>
    obtain rfl := Option.some.inj found
    exact ⟨[], by simp, rfl, isOpen⟩
  | case3 => cases found
  | case4 node before _ ignorable ih =>
    obtain ⟨ignored, blank, rfl, isOpen⟩ := ih found
    exact ⟨node :: ignored, forall_mem_cons.mpr ⟨ignorable, blank⟩, rfl, isOpen⟩
  | case5 => cases found

/-- How a property is added to properties of any shape. -/
inductive Injected (p : Property) : RenderNode → RenderNode → Prop
  | object {ps} : Injected p (.object ps) (.object (addFirst p ps))
  | argument {callee first first' rest} :
      Injected p first first' →
      Injected p (.call callee (first :: rest)) (.call callee (first' :: rest))
  /-- The guard around reactive properties is given up. -/
  | guarded {callee guard first first' tail rest} :
      Injected p first first' →
      Injected p (.call callee (.call guard (first :: tail) :: rest)) (.call callee (first' :: rest))
  | unguarded {callee guard rest} :
      Injected p (.call callee (.call guard [] :: rest)) (.call callee (.object [p] :: rest))
  | merged {args} :
      Injected p (.call .mergeProps args) (.call .mergeProps (.object [p] :: args))
  | joined {node} : Injected p node (.call .mergeProps [.object [p], node])

theorem injected (p node) : Injected p node (injectInto p node) := by
  fun_induction injectInto p node with
  | case1 ps => exact .object
  | case2 rest first tail ih => exact .guarded ih
  | case3 rest => exact .unguarded
  | case4 guard inner rest _ ih => exact .argument ih
  | case5 first rest _ ih => exact .argument ih
  | case6 => exact .joined
  | case7 ps rest _ => exact .argument .object
  | case8 args _ _ => exact .merged
  | case9 callee args _ _ => exact .joined
  | case10 other _ _ => exact .joined

namespace Assembles

variable {p : Property}

variable (assembles : Assembles R P) (new : R p.key ∧ P p.value)
include assembles new

/-- What holds of the properties of an element and of a further one holds of all of them. -/
theorem injectInto (holds : P node) : P (injectInto p node) := by
  have own : P (.object [p]) := assembles.object.mpr (by simpa using new)
  have added := injected p node
  generalize Stencil.injectInto p node = result at added ⊢
  induction added with
  | object =>
    have old := assembles.object.mp holds
    refine assembles.object.mpr ?_
    unfold addFirst
    split
    · split
      · exact old
      · exact forall_mem_cons.mpr ⟨new, old⟩
    · exact forall_mem_cons.mpr ⟨new, old⟩
  | argument _ ih => exact assembles.first holds (ih (assembles.args holds _ mem_cons_self))
  | guarded _ ih =>
    have guard := assembles.args holds _ mem_cons_self
    exact assembles.first holds (ih (assembles.args guard _ mem_cons_self))
  | unguarded => exact assembles.first holds own
  | merged => exact assembles.merge (forall_mem_cons.mpr ⟨own, assembles.args holds⟩)
  | joined => exact assembles.merge (by simpa using ⟨own, holds⟩)

theorem injectProps (holds : ∀ node ∈ props, P node) : P (injectProps p props) := by
  cases props with
  | none => exact assembles.object.mpr (by simpa using new)
  | some node => exact assembles.injectInto new (holds node rfl)

end Assembles

/-- A node with its key, if there is one. -/
def RenderNode.withKey (node : RenderNode) (key : Option Property) : RenderNode :=
  match key with
  | some p => node.inject p
  | none => node

end Stencil
