import Stencil.Proofs.Render.Hoisting

/-! # Hoisting a second time

What was hoisted once is not hoisted further. A node from which constants were moved out can be
hoisted if and only if it could before, so that the second walk finds nothing to move; and the
levels that are remembered along a walk are never out of date.
-/

namespace Stencil

open List RenderNode

namespace MovesOut

variable {hoists added before after : List RenderNode}

theorem ids_sublist (moves : MovesOut hoists added before after) :
    (after.flatMap ids).Sublist (before.flatMap ids) := by
  induction moves with
  | refl => exact .refl _
  | append _ _ first second =>
    rw [flatMap_append, flatMap_append]
    exact first.append second
  | @node _ _ node node' sameShape _ _ ih =>
    have own : node'.ownIds = node.ownIds := by
      rw [← node'.ownIds_mapParts gap, ← node.ownIds_mapParts gap]
      exact congrArg ownIds sameShape
    simp only [flatMap_singleton]
    rw [ids_eq, ids_eq, own]
    exact (List.Sublist.refl _).append ih
  | push => exact nil_sublist _
  | @children _ _ _ items v found _ _ ih =>
    refine List.Sublist.trans ?_ ih
    simp only [flatMap_singleton, ids_eq, parts, VNode.parts,
      ownIds, found, Option.map_some, Option.getD_some, Children.parts, append_nil,
      flatMap_append]
    exact (List.Sublist.refl _).append ((sublist_append_left _ _).append (.refl _))

end MovesOut

namespace Hoist

/-- The test by the computation that remembers levels, with nothing remembered from before. -/
def testFresh (node : RenderNode) : Hoist Bool :=
  return (node.constancy.run []).1.canHoist

theorem alike_testFresh {node : RenderNode} (agrees : node.Agrees f) :
    Alike f (canHoist node) (testFresh node) := by
  intro st st' same sound
  obtain ⟨value, kept⟩ := node.computes_constancy agrees st.levels sound
  obtain ⟨fresh, -⟩ := node.computes_constancy agrees [] (by rintro _ _ ⟨⟩)
  exact ⟨congrArg Constancy.canHoist (value.trans fresh.symm), same, kept⟩

end Hoist

namespace Root

/-- Hoisting takes out all that can be taken out. A second time, it adds no constant, and leaves the
    code and the constants as they are. -/
theorem hoist_hoist (root : Root) (distinct : ∀ code ∈ root.code, code.ids.Nodup) :
    root.hoist.hoist = root.hoist := by
  cases found : root.code with
  | none => simp [hoist, hoistBy, found]
  | some code =>
    obtain ⟨added, after, hoisted, moves⟩ := hoist_moves found (distinct code found)
    have still : ∀ code ∈ root.hoist.code, code.ids.Nodup := by
      rw [hoisted]
      rintro _ ⟨⟩
      have ids := moves.ids_sublist
      simp only [flatMap_singleton] at ids
      exact (distinct code found).sublist ids
    obtain ⟨-, -, -, settled⟩ := Hoist.moves_hoistTree code { hoists := root.hoists }
    rw [hoist_eq_anew still, hoist_eq_anew distinct, hoistBy_code found, hoistBy_code rfl, settled]
    rfl

theorem samplePage_hoist_hoist :
    (∀ code ∈ samplePage.code, code.ids.Nodup) ∧ samplePage.hoist.hoists.length = 3 ∧
      samplePage.hoist.hoist = samplePage.hoist := by
  have distinct : ∀ code ∈ samplePage.code, code.ids.Nodup := by
    decide
  exact ⟨distinct, by decide, hoist_hoist samplePage distinct⟩

/-- Levels that are remembered are never out of date. Hoisting moves what it would move if the level
    of every node that is asked for were worked out anew, in the code as it is at that moment. -/
theorem hoist_forgetful (root : Root) (distinct : ∀ code ∈ root.code, code.ids.Nodup) :
    root.hoist = root.hoistBy Hoist.testAnew ∧ root.hoist = root.hoistBy Hoist.testFresh :=
  ⟨hoist_eq_anew distinct, hoistBy_congr (fun _ _ => Hoist.alike_testFresh) distinct⟩

theorem samplePage_hoist_forgetful :
    (∀ code ∈ samplePage.code, code.ids.Nodup) ∧
      samplePage.hoist = samplePage.hoistBy Hoist.testFresh := by
  have distinct : ∀ code ∈ samplePage.code, code.ids.Nodup := by
    decide
  exact ⟨distinct, (hoist_forgetful samplePage distinct).2⟩

end Root

end Stencil
