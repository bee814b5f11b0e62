import Mathlib.Data.List.Flatten
import Stencil.Proofs.Render.Expansion

/-! # Moving nodes out of a tree

A node creation that is moved out of the render function is made as a constant. `settle` makes
those of a tree constant that are moved, and `Kept` says that nodes and the constants moved out of
them stand for the nodes that there were.
-/

namespace Stencil

open List RenderNode Constancy Hoist

def RenderNode.settleNode (moved : List NodeId) : RenderNode → RenderNode
  | .vnode v => if v.id ∈ moved then Hoist.constant (.vnode v) else .vnode v
  | node => node

/-- A tree in which the node creations with the given numbers are made as constants. -/
def RenderNode.settle (moved : List NodeId) (node : RenderNode) : RenderNode :=
  node.rewrite (settleNode moved)

def movedIds (hoists : List RenderNode) : List NodeId :=
  hoists.flatMap fun
    | .vnode v => [v.id]
    | _ => []

@[simp] theorem movedIds_append (hoists more) :
    movedIds (hoists ++ more) = movedIds hoists ++ movedIds more :=
  flatMap_append

namespace RenderNode

theorem settle_eq (node : RenderNode) :
    node.settle moved = (node.mapParts (settle moved)).settleNode moved :=
  node.rewrite_eq (settleNode moved)

theorem settleNode_congr {node : RenderNode} (same : ∀ id ∈ node.ownIds, id ∈ moved ↔ id ∈ moved') :
    node.settleNode moved = node.settleNode moved' := by
  cases node with
  | vnode v => simp only [settleNode, same v.id (mem_singleton.mpr rfl)]
  | _ => rfl

theorem settleNode_of_unmoved {node : RenderNode} (unmoved : ∀ id ∈ node.ownIds, id ∉ moved) :
    node.settleNode moved = node := by
  cases node with
  | vnode v => exact if_neg (unmoved v.id (mem_singleton.mpr rfl))
  | _ => rfl

section

variable (node : RenderNode)

/-- Only the numbers that a tree has matter to it. -/
theorem settle_congr (same : ∀ id ∈ node.ids, id ∈ moved ↔ id ∈ moved') :
    node.settle moved = node.settle moved' :=
  rewrite_congr ownIds_mapParts settleNode_congr node same

theorem settle_of_unmoved (unmoved : ∀ id ∈ node.ids, id ∉ moved) :
    node.settle moved = node :=
  (rewrite_congr ownIds_mapParts settleNode_of_unmoved node unmoved).trans node.rewrite_id

@[simp] theorem settle_nil : node.settle [] = node :=
  settle_of_unmoved node fun _ _ => not_mem_nil

theorem parts_constant : (Hoist.constant node).parts = node.parts := by
  cases node <;> rfl

theorem ownRefs_constant : (Hoist.constant node).ownRefs = node.ownRefs := by
  cases node <;> rfl

theorem refs_constant : (Hoist.constant node).refs = node.refs := by
  rw [refs_eq, refs_eq, parts_constant, ownRefs_constant]

end

theorem settleNode_cases (moved) (node : RenderNode) :
    node.settleNode moved = node ∨ node.settleNode moved = Hoist.constant node := by
  cases node with
  | vnode v => exact (ite_eq_or_eq _ _ _).symm
  | _ => exact .inl rfl

@[simp] theorem refs_settle (node : RenderNode) : (node.settle moved).refs = node.refs := by
  induction node using rec_strong with
  | step node ih =>
    have same : (node.settle moved).refs = (node.mapParts (settle moved)).refs := by
      rw [settle_eq]
      rcases settleNode_cases moved (node.mapParts (settle moved)) with stays | moves
      · rw [stays]
      · rw [moves, refs_constant]
    rw [same, refs_eq, refs_eq, parts_mapParts, ownRefs_mapParts, flatMap_map]
    exact congrArg (node.ownRefs ++ ·) (flatMap_congr ih)

end RenderNode

/-! ## Nodes before and after -/

/-- Constants and nodes from which more can be moved: no reference is dangling or forward, and no
    number is used twice. -/
structure Ready (hoists before : List RenderNode) : Prop where
  backward : Backward hoists
  below : ∀ node ∈ before, node.RefsBelow hoists.length
  distinct : (before.flatMap ids).Nodup

namespace VNode

variable {v : VNode}

theorem items_subset (children : v.children = some (.nodes items)) : items ⊆ v.parts := by
  intro item member
  simp [parts, children, Children.parts, member]

/-- What is left below a node without its children was below it before. -/
theorem parts_hoisted_subset (index) :
    ({ v with children := some (.hoisted index) } : VNode).parts ⊆ v.parts := by
  intro part
  simp only [parts, mem_append, Option.map_some, Option.getD_some, Children.parts, not_mem_nil,
    or_false]
  rintro ((front | front) | back)
  · exact .inl (.inl (.inl front))
  · exact .inl (.inl (.inr front))
  · exact .inr back

end VNode

theorem VNode.flag_of_canHoist {v : VNode} (constant : v.level.canHoist = true) :
    v.flag = .empty := by
  rw [level_eq] at constant
  split at constant
  next passive =>
    simp only [isPassive, Bool.and_eq_true, PatchFlag.isEmpty, beq_iff_eq] at passive
    exact congrArg PatchFlag.mk passive.1.2
  · cases constant

/-- What may become a constant in a tree: a node that is constant enough, or an array of references
    to constants. -/
inductive RenderNode.Lifts : RenderNode → RenderNode → Prop
  | node {node} : node.level.canHoist = true → Lifts node (Hoist.constant node)
  | children {node items} :
      items.all isHoisted = true → Lifts node (.array items)
  | part {node part entry} :
      part ∈ node.parts → Lifts part entry → Lifts node entry

/-- The nodes `after`, with the constants `added`, stand for the nodes `before`. The node creations
    that were moved had no flag. -/
structure Kept (hoists added before after : List RenderNode) : Prop where
  origin : ∀ entry ∈ added, ∃ node ∈ before, node.Lifts entry
  backward : Backward (hoists ++ added)
  below : ∀ node ∈ after, node.RefsBelow (hoists ++ added).length
  inside : movedIds added ⊆ before.flatMap ids
  unflagged : ∀ node ∈ before, ∀ v, .vnode v ∈ node.subnodes → v.id ∈ movedIds added →
    v.flag = .empty
  same : after.map (expand (hoists ++ added)) =
    before.map fun node => (node.settle (movedIds added)).expand hoists

theorem Ready.sublist {hoists before some : List RenderNode} (ready : Ready hoists before)
    (sub : some.Sublist before) : Ready hoists some where
  backward := ready.backward
  below node member := ready.below node (sub.subset member)
  distinct := ready.distinct.sublist (sub.flatMap _)

theorem Ready.parts (ready : Ready hoists [node]) :
    Ready hoists node.parts where
  backward := ready.backward
  below part member := (ready.below node (mem_singleton.mpr rfl)).part member
  distinct := by
    have distinct := ready.distinct
    rw [flatMap_singleton, ids_eq] at distinct
    exact distinct.of_append_right

namespace Kept

variable {hoists added added' before before' after after' : List RenderNode}

theorem length_eq (kept : Kept hoists added before after) : after.length = before.length := by
  simpa using congrArg List.length kept.same

theorem refl (ready : Ready hoists before) : Kept hoists [] before before where
  origin := by simp
  backward := by simpa using ready.backward
  below := by simpa using ready.below
  inside := nil_subset _
  unflagged _ _ _ _ moved := absurd moved not_mem_nil
  same := by
    have : movedIds [] = [] := rfl
    simp [this]

theorem ready_right (kept : Kept hoists added before after)
    (ready : Ready hoists (before ++ before')) : Ready (hoists ++ added) before' where
  backward := kept.backward
  below node member := (ready.below node (mem_append_right _ member)).append added
  distinct := (ready.sublist (sublist_append_right ..)).distinct

theorem append (ready : Ready hoists (before ++ before')) (first : Kept hoists added before after)
    (second : Kept (hoists ++ added) added' before' after') :
    Kept hoists (added ++ added') (before ++ before') (after ++ after') := by
  have distinct := ready.distinct
  rw [flatMap_append, nodup_append'] at distinct
  obtain ⟨-, -, disjoint⟩ := distinct
  -- a number in one of the two lists of nodes is moved only by that list's own constants
  have ofFirst : ∀ node ∈ before, ∀ id ∈ node.ids,
      id ∈ movedIds added ↔ id ∈ movedIds (added ++ added') := by
    intro node member id own
    rw [movedIds_append, mem_append, or_iff_left]
    intro other
    exact disjoint (mem_flatMap.mpr ⟨node, member, own⟩) (second.inside other)
  have ofSecond : ∀ node ∈ before', ∀ id ∈ node.ids,
      id ∈ movedIds added' ↔ id ∈ movedIds (added ++ added') := by
    intro node member id own
    rw [movedIds_append, mem_append, or_iff_right]
    intro other
    exact disjoint (first.inside other) (mem_flatMap.mpr ⟨node, member, own⟩)
  constructor
  · intro entry member
    rcases mem_append.mp member with early | late
    · obtain ⟨node, inside, lifts⟩ := first.origin entry early
      exact ⟨node, mem_append_left _ inside, lifts⟩
    · obtain ⟨node, inside, lifts⟩ := second.origin entry late
      exact ⟨node, mem_append_right _ inside, lifts⟩
  · rw [← append_assoc]
    exact second.backward
  · intro node member
    rw [← append_assoc]
    rcases mem_append.mp member with early | late
    · exact (first.below node early).append added'
    · exact second.below node late
  · rw [movedIds_append, flatMap_append]
    exact append_subset.mpr ⟨subset_append_of_subset_left _ first.inside,
      subset_append_of_subset_right _ second.inside⟩
  · intro node member v inside moved
    rcases mem_append.mp member with early | late
    · exact first.unflagged node early v inside
        ((ofFirst node early v.id (mem_ids_of_subnode inside)).mpr moved)
    · exact second.unflagged node late v inside
        ((ofSecond node late v.id (mem_ids_of_subnode inside)).mpr moved)
  · have early : after.map (expand (hoists ++ added ++ added')) =
        before.map fun node => (node.settle (movedIds (added ++ added'))).expand hoists := by
      calc after.map (expand (hoists ++ added ++ added'))
          = after.map (expand (hoists ++ added)) :=
            map_congr_left fun node member =>
              expand_append (first.below node member) added'
        _ = before.map fun node => (node.settle (movedIds added)).expand hoists := first.same
        _ = _ := map_congr_left fun node member => by
            rw [node.settle_congr (ofFirst node member)]
    have late : after'.map (expand (hoists ++ added ++ added')) =
        before'.map fun node => (node.settle (movedIds (added ++ added'))).expand hoists := by
      rw [second.same]
      refine map_congr_left fun node member => ?_
      rw [node.settle_congr (ofSecond node member)]
      refine expand_append (fun i inside => ?_) added
      rw [refs_settle] at inside
      exact ready.below node (mem_append_right _ member) i inside
    rw [← append_assoc, map_append, map_append, early, late]

theorem node {node node' : RenderNode} (ready : Ready hoists [node])
    (sameShape : node'.shape = node.shape) (parts : Kept hoists added node.parts node'.parts) :
    Kept hoists added [node] [node'] := by
  have distinct := ready.distinct
  rw [flatMap_singleton, ids_eq, nodup_append'] at distinct
  obtain ⟨-, -, disjoint⟩ := distinct
  have unmoved : ∀ id ∈ node.ownIds, id ∉ movedIds added :=
    fun id own moved => disjoint own (parts.inside moved)
  have ownRefs : node'.ownRefs = node.ownRefs :=
    calc node'.ownRefs = node'.shape.ownRefs := (node'.ownRefs_mapParts gap).symm
      _ = node.shape.ownRefs := congrArg ownRefs sameShape
      _ = node.ownRefs := node.ownRefs_mapParts gap
  have ownBelow : ∀ i ∈ node.ownRefs, i < hoists.length := fun i own =>
    ready.below node (mem_singleton.mpr rfl) i
      (node.refs_eq ▸ mem_append_left _ own)
  constructor
  · intro entry member
    obtain ⟨part, inside, lifts⟩ := parts.origin entry member
    exact ⟨node, mem_singleton.mpr rfl, .part inside lifts⟩
  · exact parts.backward
  · intro inner member i inside
    obtain rfl := mem_singleton.mp member
    rw [refs_eq, mem_append, mem_flatMap, ownRefs] at inside
    rcases inside with own | ⟨part, member, below⟩
    · rw [length_append]
      exact Nat.lt_add_right _ (ownBelow i own)
    · exact parts.below part member i below
  · rw [flatMap_singleton, ids_eq]
    exact subset_append_of_subset_right _ parts.inside
  · intro inner member v inside moved
    obtain rfl := mem_singleton.mp member
    rcases mem_subnodes.mp inside with rfl | ⟨part, member, below⟩
    · exact absurd moved (unmoved v.id (mem_singleton.mpr rfl))
    · exact parts.unflagged part member v below moved
  · have settled : node.settle (movedIds added) =
        node.mapParts (settle (movedIds added)) := by
      rw [settle_eq]
      refine settleNode_of_unmoved ?_
      rwa [ownIds_mapParts]
    obtain ⟨rest, expanded⟩ := expansions_prefix hoists added
    simp only [map_cons, settled]
    rw [expand_eq, expand_eq, mapParts_mapParts,
      mapParts_eq_of_shape sameShape parts.same]
    refine congrArg (fun inner => [inner]) (unfoldRef_congr fun i own => ?_)
    rw [ownRefs_mapParts] at own
    rw [expanded, getElem?_append_left]
    rw [length_expansions]
    exact ownBelow i own

theorem push {node} (ready : Ready hoists [node]) (constant : node.level.canHoist = true) :
    Kept hoists [Hoist.constant node] [node] [.hoisted hoists.length] := by
  have distinct := ready.distinct
  rw [flatMap_singleton, ids_eq, nodup_append'] at distinct
  obtain ⟨-, -, disjoint⟩ := distinct
  have below : (Hoist.constant node).RefsBelow hoists.length := by
    intro i inside
    rw [refs_constant] at inside
    exact ready.below node (mem_singleton.mpr rfl) i inside
  have moved : movedIds [Hoist.constant node] ⊆ node.ownIds := by
    cases node <;> simp [movedIds, Hoist.constant, ownIds]
  have backward := ready.backward.concat below
  have settled : node.settle (movedIds [Hoist.constant node]) = Hoist.constant node := by
    have parts : node.mapParts (settle (movedIds [Hoist.constant node])) = node := by
      refine (mapParts_congr fun part member => ?_).trans node.mapParts_id
      exact part.settle_of_unmoved fun id inside out =>
        disjoint (moved out) (mem_flatMap.mpr ⟨part, member, inside⟩)
    rw [settle_eq, parts]
    cases node <;> simp [settleNode, movedIds, Hoist.constant]
  constructor
  · intro entry member
    obtain rfl := mem_singleton.mp member
    exact ⟨node, mem_singleton.mpr rfl, .node constant⟩
  · exact backward
  · intro inner member i inside
    obtain rfl := mem_singleton.mp member
    obtain rfl := mem_singleton.mp (show i ∈ [hoists.length] from inside)
    simp
  · rw [flatMap_singleton, ids_eq]
    exact subset_append_of_subset_left _ moved
  · intro inner member v inside out
    obtain rfl := mem_singleton.mp member
    rcases mem_subnodes.mp inside with rfl | ⟨part, member, below⟩
    · exact VNode.flag_of_canHoist (by simpa only [level] using constant)
    · exact absurd (mem_flatMap.mpr ⟨part, member, mem_ids_of_subnode below⟩)
        (disjoint (moved out))
  · simp only [map_cons, map_nil, settled]
    rw [expand_hoisted backward getElem?_concat_length, expand_append below]

/-- A node creation whose array of children becomes a constant as well is kept. -/
theorem pushChildren (kept : Kept hoists added before [.vnode v])
    (children : v.children = some (.nodes items)) (hoisted : items.all isHoisted = true) :
    Kept hoists (added ++ [.array items]) before
      [.vnode { v with children := some (.hoisted (hoists ++ added).length) }] := by
  have below := kept.below (.vnode v) (mem_singleton.mpr rfl)
  have arrayBelow : (array items).RefsBelow (hoists ++ added).length := by
    intro i inside
    rw [refs_eq] at inside
    obtain ⟨item, member, own⟩ := mem_flatMap.mp inside
    exact below.part (VNode.items_subset children member) i own
  have moved : movedIds (added ++ [.array items]) = movedIds added := by
    simp [movedIds]
  constructor
  · intro entry member
    rcases mem_append.mp member with old | new
    · exact kept.origin entry old
    · obtain rfl := mem_singleton.mp new
      obtain ⟨node, rfl⟩ := length_eq_one_iff.mp kept.length_eq.symm
      exact ⟨node, mem_singleton.mpr rfl, .children hoisted⟩
  · rw [← append_assoc]
    exact kept.backward.concat arrayBelow
  · intro node member i inside
    obtain rfl := mem_singleton.mp member
    rw [← append_assoc, length_append]
    rw [refs_eq, mem_append, mem_flatMap] at inside
    rcases inside with own | ⟨part, member, own⟩
    · obtain rfl := mem_singleton.mp (show i ∈ [(hoists ++ added).length] from own)
      exact Nat.lt_succ_self _
    · exact Nat.lt_succ_of_lt (below.part (VNode.parts_hoisted_subset _ member) i own)
  · rw [moved]
    exact kept.inside
  · rw [moved]
    exact kept.unflagged
  · rw [moved, ← kept.same, ← append_assoc]
    generalize hoists ++ added = known at below arrayBelow
    simp only [map_cons, expand_eq, mapParts]
    rw [VNode.mapParts_congr fun part member =>
      expand_append (below.part (VNode.parts_hoisted_subset _ member)) [.array items]]
    simp only [unfoldRef, VNode.mapParts, children, Option.map_some, Children.mapParts,
      Children.unfold, expansions_concat]
    rw [← length_expansions known, getElem?_concat_length,
      expand_eq known (.array items)]
    rfl

end Kept

/-! ## Levels -/

namespace RenderNode

/-- What can be hoisted if and only if the node can. -/
def stub (node : RenderNode) : RenderNode :=
  if node.level.canHoist then .hoisted 0 else .helper .fragment

theorem canHoist_stub (node : RenderNode) : node.stub.level.canHoist = node.level.canHoist := by
  unfold stub
  split
  next constant => exact constant.symm
  next dynamic => exact (Bool.eq_false_iff.mpr dynamic).symm

theorem canHoist_levels (nodes) : (levels nodes).canHoist = nodes.all (·.level.canHoist) := by
  induction nodes with
  | nil => rfl
  | cons node nodes ih => rw [levels, canHoist_min, ih, all_cons]

/-- Whether a node can be hoisted depends on whether its parts can, and on nothing else of them. -/
theorem canHoist_mapParts (node : RenderNode) :
    (node.mapParts stub).level.canHoist = node.level.canHoist := by
  have list (nodes : List RenderNode) :
      (levels (nodes.map stub)).canHoist = (levels nodes).canHoist := by
    simp [canHoist_levels, Function.comp_def, canHoist_stub]
  cases node with
  | vnode v =>
    have passive : (v.mapParts stub).isPassive = v.isPassive := by
      simp only [VNode.isPassive, VNode.mapParts]
      cases v.tag <;> cases v.directives <;> rfl
    have ofProps : (propsLevel (v.props.map stub)).canHoist = (propsLevel v.props).canHoist := by
      cases v.props with
      | none => rfl
      | some p => exact canHoist_stub p
    have ofChildren : (childrenLevel (v.children.map (·.mapParts stub))).canHoist =
        (childrenLevel v.children).canHoist := by
      rcases v.children with _ | (items | node | node | node | index)
      case some.nodes => exact list items
      case some.single => exact canHoist_stub node
      all_goals rfl
    simp only [mapParts, level, VNode.level_eq, passive]
    split
    · rw [canHoist_min, canHoist_min]
      exact congrArg₂ _ ofProps ofChildren
    · rfl
  | call callee args =>
    cases args with
    | nil => rfl
    | cons arg rest =>
      simp only [mapParts, map_cons, level]
      split
      · exact canHoist_stub arg
      · rfl
  | array elements => exact list elements
  | object properties =>
    simp only [mapParts, level]
    induction properties with
    | nil => rfl
    | cons p properties ih =>
      obtain ⟨key, value⟩ := p
      simp only [map_cons, Property.levels]
      split
      · rfl
      · rw [canHoist_min, canHoist_min, canHoist_stub, ih]
  | textCall t =>
    obtain ⟨_, content, _, _⟩ := t
    cases content with
    | none => rfl
    | some node => exact canHoist_stub node
  | _ => rfl

end RenderNode

/-! ## Moving out -/

/-- The nodes `after` and the constants `added` are made of the nodes `before` by moving constant
    nodes, and arrays of references to constants, out of them. -/
inductive MovesOut : List RenderNode → List RenderNode → List RenderNode → List RenderNode → Prop
  | refl {hoists before} : MovesOut hoists [] before before
  | append {hoists added added' before before' after after'} :
      MovesOut hoists added before after → MovesOut (hoists ++ added) added' before' after' →
      MovesOut hoists (added ++ added') (before ++ before') (after ++ after')
  | node {hoists added node node'} :
      node'.shape = node.shape → node'.ownLabels = node.ownLabels →
      MovesOut hoists added node.parts node'.parts → MovesOut hoists added [node] [node']
  | push {hoists node} : node.level.canHoist = true →
      MovesOut hoists [constant node] [node] [.hoisted hoists.length]
  | children {hoists added before items v} :
      v.children = some (.nodes items) → items.all isHoisted = true →
      MovesOut hoists added before [.vnode v] →
      MovesOut hoists (added ++ [.array items]) before
        [.vnode { v with children := some (.hoisted (hoists ++ added).length) }]

namespace MovesOut

variable {hoists added added' before after : List RenderNode}

section

variable (moves : MovesOut hoists added before after)
include moves

theorem length_eq : after.length = before.length := by
  induction moves with
  | refl | node | push => rfl
  | append _ _ first second => rw [length_append, length_append, first, second]
  | children _ _ _ ih => exact ih

theorem gaps :
    after.map gap = before.map gap :=
  map_gap moves.length_eq

theorem kept (ready : Ready hoists before) :
    Kept hoists added before after := by
  induction moves with
  | refl => exact .refl ready
  | append _ _ first second =>
    have early := first (ready.sublist (sublist_append_left ..))
    exact .append ready early (second (early.ready_right ready))
  | node sameShape _ _ ih => exact .node ready sameShape (ih ready.parts)
  | push constant => exact .push ready constant
  | children found hoisted _ ih => exact (ih ready).pushChildren found hoisted

theorem append_left (front) : MovesOut hoists added (front ++ before) (front ++ after) := by
  have none : MovesOut hoists [] front front := .refl
  exact none.append (by rwa [append_nil])

end

theorem vnode {v : VNode} {props : Option RenderNode} {children : Option Children}
    (movesProps : MovesOut hoists added v.props.toList props.toList)
    (movesChildren : MovesOut (hoists ++ added) added' ((v.children.map Children.parts).getD [])
      ((children.map Children.parts).getD []))
    (sameShape : children.map (Children.mapParts gap) =
      v.children.map (Children.mapParts gap)) :
    MovesOut hoists (added ++ added') [.vnode v] [.vnode { v with props, children }] := by
  have sameProps : props.map gap = v.props.map gap := by
    have := movesProps.length_eq
    cases props <;> cases found : v.props <;> simp_all [gap]
  refine .node ?_ rfl ?_
  · simp only [shape, mapParts, VNode.mapParts, sameProps, sameShape]
  · have front := (movesProps.append_left v.tag.parts).append movesChildren
    have last : MovesOut (hoists ++ (added ++ added')) [] (v.directives.getD []) _ := .refl
    have moves := front.append last
    rwa [append_nil] at moves

/-- Moving constants out makes no node hoistable that was not, and none that was is less so. -/
theorem canHoist (moves : MovesOut hoists added before after) :
    after.map (·.level.canHoist) = before.map (·.level.canHoist) := by
  induction moves with
  | refl => rfl
  | append _ _ first second => rw [map_append, map_append, first, second]
  | @node _ _ node node' sameShape _ _ ih =>
    have stubs : node'.parts.map stub = node.parts.map stub := by
      have := congrArg (List.map fun b => if b then hoisted 0 else .helper .fragment) ih
      rwa [map_map, map_map] at this
    simp only [map_cons]
    rw [← node'.canHoist_mapParts, mapParts_eq_of_shape sameShape stubs,
      node.canHoist_mapParts]
  | push constant => exact congrArg (fun b => [b]) constant.symm
  | @children _ _ _ items v found hoisted _ ih =>
    have all : (levels items).canHoist = true := by
      rw [canHoist_levels]
      refine all_eq_true.mpr fun item member => ?_
      have isHoisted := all_eq_true.mp hoisted item member
      cases item with
      | hoisted => rfl
      | _ => cases isHoisted
    rw [← ih]
    simp only [map_cons, map_nil, level, VNode.level_eq, found, childrenLevel,
      Children.level]
    change [(if v.isPassive then _ else _ : Constancy).canHoist] = _
    split
    · rw [canHoist_min, canHoist_min, all]
      rfl
    · rfl

theorem canHoist_node {node node'} (moves : MovesOut hoists added [node] [node']) :
    node'.level.canHoist = node.level.canHoist :=
  head_eq_of_cons_eq moves.canHoist

end MovesOut

end Stencil
