import Stencil.Proofs.Lower.Traversal

/-! # Scopes are left as they were entered

Whatever a visit binds, it forgets, and every loop and slot that it enters it leaves again. This
holds of all nodes, whether or not they are well-formed, and of all rules that the options name.
-/

namespace Stencil

namespace Lower

/-- A step that leaves the names in scope and the depths as they were. -/
abbrev Restores (o : Options) {α : Type} (act : Lower α) : Prop :=
  Within o (fun _ _ _ => True) act fun _ => True

theorem visitRules_trivial (o) :
    VisitRules o (fun _ => True) (fun _ _ _ _ => True) fun _ _ => True where
  enterLoop _ _ := trivial
  enterSlot _ _ := trivial
  enterSlotLoop _ _ := trivial
  nil := trivial
  leaf _ _ := trivial
  merge _ _ := .trivial _
  element _ _ _ _ := trivial
  loop _ _ _ := trivial
  start _ _ := .trivial _
  extend _ _ _ := .trivial _

theorem restores_mergeText (direct nodes) : Restores o (mergeText direct nodes) :=
  .skip fun _ _ => yields_mergeText direct nodes

theorem restores_visitElement (fuel el children done) (below : Restores o kids) :
    Restores o (visitElement fuel el children kids done) :=
  (visitRules_trivial o).visitElement (k := []) (fun _ => below) fuel el children trivial trivial

mutual
theorem restores_visitNode (done) : (node : TemplateNode) → Restores o (visitNode done node)
  | .element el children => by
      exact restores_visitElement _ el children done (restores_visitNodes 0 [] children)
  | .interpolation content span => by
      exact .bind (.skip fun _ _ => yields_process content .expression (by simp))
        fun _ _ => .pure trivial
  | .comment c => by
      refine .bind (.skip fun _ _ => yields_dropsComments) fun _ _ => ?_
      split
      · exact .pure trivial
      · exact .pure trivial
  | .conditional branches lowered span => by
      exact (restores_visitBranches branches).bind fun _ _ => .pure trivial
  | .loop head children lowered span => by
      refine (restores_visitNodes 0 [] children).bind fun nodes _ => ?_
      exact (restores_mergeText false nodes).bind fun _ _ => .pure trivial
  | .text t => by
      exact .pure trivial
  | .textCall t => by
      exact .pure trivial
  | .compound c => by
      exact .pure trivial

theorem restores_visitNodes (skip done) :
    (nodes : List TemplateNode) → Restores o (visitNodes skip done nodes)
  | [] => by
      exact .pure trivial
  | node :: nodes => by
      cases skip with
      | succ skip =>
        exact restores_visitNodes skip done nodes
      | zero =>
        exact (restores_visitNode done node).bind fun visited _ =>
          restores_visitNodes visited.skip visited.done nodes

theorem restores_visitBranches : (branches : List Branch) → Restores o (visitBranches branches)
  | [] => by
      exact .pure trivial
  | ⟨condition, children, isTemplate, span⟩ :: branches => by
      refine (restores_visitNodes 0 [] children).bind fun nodes _ => ?_
      refine (restores_mergeText false nodes).bind fun merged _ => ?_
      exact (restores_visitBranches branches).bind fun _ _ => .pure trivial
end

theorem restores_lowerRoot (nodes) : Restores o (lowerRoot nodes) := by
  refine (restores_visitNodes 0 [] nodes).bind fun visited _ => ?_
  refine (restores_mergeText true visited).bind fun merged _ => ?_
  exact .bind (.skip fun _ _ => yields_rootCode merged) fun _ _ => .pure trivial

/-- Scopes are balanced. A visit to any node, at any place and in any context, leaves the names in
    scope and the depths of loops and slots as they were. So does a visit to an element of which
    some structural directives are dealt with, and after a whole template there are none left. -/
theorem visits_balanced :
    (∀ done node o c, Context.Balanced c (exec (visitNode done node) o c).2) ∧
      (∀ fuel el children done o c, Context.Balanced c
        (exec (visitElement fuel el children (visitNodes 0 [] children) done) o c).2) ∧
      ∀ nodes o, (exec (lowerRoot nodes) o {}).2.scope = [] ∧
        (exec (lowerRoot nodes) o {}).2.loopDepth = 0 ∧
        (exec (lowerRoot nodes) o {}).2.slotDepth = 0 := by
  refine ⟨fun done node o c => (restores_visitNode done node c trivial).1, ?_, ?_⟩
  · intro fuel el children done o c
    have kids : Restores o (visitNodes 0 [] children) := restores_visitNodes 0 [] children
    exact (restores_visitElement fuel el children done kids c trivial).1
  · intro nodes o
    have balanced : Context.Balanced {} (exec (lowerRoot nodes) o {}).2 :=
      (restores_lowerRoot nodes {} trivial).1
    exact ⟨balanced.scope, balanced.loopDepth, balanced.slotDepth⟩

end Lower

end Stencil
