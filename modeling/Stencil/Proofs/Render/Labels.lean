import Stencil.Proofs.Render.Blocks
import Stencil.Proofs.Render.Hoisting

/-! # Node creations after lowering

Hoisting moves node creations out of the render function and flattening lists the dynamic ones.
Neither makes a node creation of its own, and what tells where a node creation comes from stays as
it was: its tag, the directives that it runs, and the place of its element.
-/

namespace Stencil

open List RenderNode Option

variable {node : RenderNode}

namespace RenderNode

theorem labels_subset :
    node.labels ⊆ A ↔ node.ownLabels ⊆ A ∧ ∀ part ∈ node.parts, part.labels ⊆ A := by
  rw [labels_eq, append_subset]
  refine and_congr_right fun _ => ⟨fun all part member label here => ?_, fun each label here => ?_⟩
  · exact all (mem_flatMap.mpr ⟨part, member, here⟩)
  · obtain ⟨part, member, inside⟩ := mem_flatMap.mp here
    exact each part member inside

theorem labels_constant (node) : (Hoist.constant node).labels = node.labels := by
  rw [labels_eq, labels_eq]
  cases node <;> rfl

/-! ## Flattening -/

/-- A flattened node creation keeps everything but its children and its list. -/
theorem flatten_vnode (v) : ∃ w : VNode, (vnode v).flatten.value = .vnode w ∧
    w.label = v.label ∧ w.props = v.props := by
  rw [flatten_value]
  simp only [mapReached, withList]
  split <;> exact ⟨_, rfl, rfl, rfl⟩

theorem ownLabels_flatten (node : RenderNode) : node.flatten.value.ownLabels = node.ownLabels := by
  cases node with
  | vnode v =>
    obtain ⟨w, flat, label, -⟩ := flatten_vnode v
    simp only [flat, ownLabels, label]
  | _ => rw [flatten_value]; rfl

/-- The parts of a flattened node are parts as they were, or flattened. -/
theorem mem_parts_flatten (member : part ∈ node.flatten.value.parts) :
    part ∈ node.parts ∨ ∃ before ∈ node.parts, before.flatten.value = part := by
  have below (reached : part ∈ node.flatten.value.reached) :
      ∃ before ∈ node.parts, before.flatten.value = part := by
    rw [reached_flatten] at reached
    obtain ⟨before, inside, same⟩ := mem_map.mp reached
    exact ⟨before, mem_parts_of_reached inside, same⟩
  cases node with
  | vnode v =>
    obtain ⟨w, flat, label, props⟩ := flatten_vnode v
    simp only [VNode.label, Label.mk.injEq] at label
    simp only [flat, parts, VNode.parts, mem_append, label, props] at member ⊢
    rcases member with (front | children) | directives
    · exact .inl (.inl (.inl front))
    · exact .inr (by simpa only [parts, VNode.parts, mem_append] using below (flat ▸ children))
    · exact .inl (.inr directives)
  | textCall t => exact .inl member
  | _ =>
    rw [flatten_value] at member below
    exact .inr (below member)

theorem labels_flatten (node : RenderNode) (within : node.labels ⊆ A) :
    node.flatten.value.labels ⊆ A := by
  induction node using rec_strong with
  | step node ih =>
    obtain ⟨own, parts⟩ := labels_subset.mp within
    refine labels_subset.mpr ⟨ownLabels_flatten node ▸ own, fun part member => ?_⟩
    rcases mem_parts_flatten member with same | ⟨before, inside, rfl⟩
    · exact parts part same
    · exact ih before inside (parts before inside)

theorem labels_asRoot (node : RenderNode) : node.asRoot.labels = node.labels := by
  rw [labels_eq, labels_eq node]
  cases node <;> rfl

end RenderNode

/-! ## Hoisting -/

theorem MovesOut.labels {A hoists added before after} (moves : MovesOut hoists added before after)
    (within : ∀ node ∈ before, node.labels ⊆ A) : ∀ node ∈ added ++ after, node.labels ⊆ A := by
  induction moves with
  | refl => exact within
  | append _ _ first second =>
    simp only [forall_mem_append] at within first second ⊢
    have early := first within.1
    have late := second within.2
    exact ⟨⟨early.1, late.1⟩, early.2, late.2⟩
  | node _ own _ ih =>
    obtain ⟨here, parts⟩ := labels_subset.mp (within _ mem_cons_self)
    obtain ⟨constants, below⟩ := forall_mem_append.mp (ih parts)
    refine forall_mem_append.mpr ⟨constants, forall_mem_singleton.mpr ?_⟩
    exact labels_subset.mpr ⟨own ▸ here, below⟩
  | @push _ node _ =>
    have here := within node mem_cons_self
    rw [← node.labels_constant] at here
    simpa using ⟨here, nil_subset A⟩
  | @children hoists added _ items v found _ _ ih =>
    obtain ⟨constants, stays⟩ := forall_mem_append.mp (ih within)
    obtain ⟨own, parts⟩ := labels_subset.mp (stays _ mem_cons_self)
    simp only [forall_mem_append, forall_mem_singleton]
    refine ⟨⟨constants, ?_⟩, ?_⟩
    · exact labels_subset.mpr ⟨nil_subset _, fun item member => parts item (VNode.items_subset found member)⟩
    · exact labels_subset.mpr ⟨own, fun part member =>
        parts part (VNode.parts_hoisted_subset _ member)⟩

namespace Root

/-- The labels of all node creations in a template's code and constants. -/
def labels (root : Root) : List Label :=
  (root.code.toList ++ root.hoists).flatMap RenderNode.labels

theorem labels_hoist {root : Root} (distinct : ∀ code ∈ root.code, code.ids.Nodup) :
    root.hoist.labels ⊆ root.labels := by
  cases found : root.code with
  | none => simp [Root.hoist, Root.hoistBy, found]
  | some code =>
    obtain ⟨added, after, hoisted, moves⟩ := hoist_moves found (distinct code found)
    have within (node : RenderNode) (member : node ∈ [code] ++ root.hoists) :
        node.labels ⊆ root.labels := by
      intro label here
      exact mem_flatMap.mpr ⟨node, by rwa [found], here⟩
    obtain ⟨constants, stays⟩ := forall_mem_append.mp
      (moves.labels fun node member => within node (mem_append_left _ member))
    rw [hoisted]
    intro label member
    obtain ⟨node, kept, here⟩ := mem_flatMap.mp member
    simp only [mem_append] at kept
    obtain isCode | isHoist | isAdded := kept
    · exact stays node isCode here
    · exact within node (mem_append_right _ isHoist) here
    · exact constants node isAdded here

theorem labels_flattenBlocks (root : Root) : root.flattenBlocks.1.labels ⊆ root.labels := by
  unfold flattenBlocks
  split
  next code found =>
    intro label member
    simp only [labels, found, mem_flatMap, mem_append] at member ⊢
    obtain ⟨node, isCode | isHoist, here⟩ := member
    · obtain rfl := some.inj (mem_toList.mp isCode)
      refine ⟨code, .inl (by simp), ?_⟩
      exact code.labels_asRoot ▸ RenderNode.labels_flatten _ (List.Subset.refl _) here
    · exact ⟨node, .inr isHoist, here⟩
  · exact List.Subset.refl _

end Root

end Stencil
