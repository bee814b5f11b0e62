import Mathlib.Data.List.Flatten
import Stencil.Proofs.Render.Expansion
import Stencil.Render.Block

/-! # What blocks list

A node is listed by the nearest block around it, unless the content of a slot or an outlet lies
between the two. The nodes of a tree are visited in document order, each with the nodes around it.
-/

namespace Stencil

open List Flattened Children

variable {id : NodeId} {node : RenderNode}

/-! ## Visits -/

namespace RenderNode

def reached : RenderNode → List RenderNode
  | .vnode v => (v.children.map Children.parts).getD []
  | .textCall _ => []
  | node => node.parts

theorem reached_sublist (node : RenderNode) : node.reached.Sublist node.parts := by
  cases node with
  | vnode v =>
    refine List.Sublist.trans ?_ (sublist_append_left _ _)
    exact sublist_append_right _ _
  | textCall t => exact nil_sublist _
  | _ => exact List.Sublist.refl _

theorem mem_parts_of_reached (member : part ∈ node.reached) : part ∈ node.parts :=
  node.reached_sublist.subset member

def block? : RenderNode → Option VNode
  | .vnode v => if v.isBlock then some v else none
  | _ => none

/-- Whether the node keeps what is below it from the blocks around: slots are listed by the
    component that renders them, and an outlet renders a block of its own. -/
def hides : RenderNode → Bool
  | .function _ _ _ isSlot => isSlot
  | .call callee _ => callee = .renderSlot
  | _ => false

/-- The number of a node that has to be listed. -/
def dynamicId? : RenderNode → Option NodeId
  | .vnode v => if v.isBlock || v.flag.isDynamic then some v.id else none
  | .textCall t => if t.flag.isDynamic then some t.id else none
  | _ => none

end RenderNode

/-- A node of a tree and the nodes around it, the nearest first. -/
structure Visit where
  node : RenderNode
  around : List RenderNode

/-- The nearest block around a place, unless something hides the place from it. -/
def nearestBlock? : List RenderNode → Option VNode
  | [] => none
  | node :: around =>
    match node.block? with
    | some v => some v
    | none => if node.hides then none else nearestBlock? around

namespace Visit

def owner? (x : Visit) : Option VNode :=
  nearestBlock? x.around

/-- The entry of a node in the list of the block with a number. -/
def entry? (block : NodeId) (x : Visit) : Option NodeId :=
  if x.owner?.map (·.id) = some block then x.node.dynamicId? else none

end Visit

namespace RenderNode

def visits (around : List RenderNode) (node : RenderNode) : List Visit :=
  ⟨node, around⟩ :: node.reached.attach.flatMap fun part => part.1.visits (node :: around)
termination_by sizeOf node
decreasing_by exact sizeOf_parts (mem_parts_of_reached part.2)

theorem visits_eq (around) (node : RenderNode) :
    node.visits around = ⟨node, around⟩ :: node.reached.flatMap (visits (node :: around)) := by
  have attached : node.reached.flatMap (visits (node :: around)) =
      (node.reached.attach.map Subtype.val).flatMap (visits (node :: around)) := by
    rw [attach_map_subtype_val]
  rw [visits, attached, flatMap_map]

/-- The blocks of a tree, each before those inside it. -/
def blocks (node : RenderNode) : List VNode :=
  (node.visits []).filterMap (·.node.block?)

/-- What the block with a number has to list. -/
def entries (block : NodeId) (node : RenderNode) : List NodeId :=
  (node.visits []).filterMap (Visit.entry? block)

def withoutList : RenderNode → RenderNode
  | .vnode v => .vnode { v with dynamicChildren := [] }
  | node => node

/-- The tree with the lists of its blocks left out. -/
def unlisted : RenderNode → RenderNode :=
  rewrite withoutList

end RenderNode

def VNode.summary (v : VNode) : Block :=
  ⟨v.id, v.tag.display, v.dynamicChildren⟩

/-! ## Flattening, node by node -/

namespace RenderNode

/-- The node with other nodes in the place of those that are reached. -/
def mapReached (g : RenderNode → RenderNode) : RenderNode → RenderNode
  | .vnode v => .vnode { v with children := v.children.map (Children.mapParts g) }
  | .textCall t => .textCall t
  | node => node.mapParts g

def withList (ids : List NodeId) : RenderNode → RenderNode
  | .vnode v => .vnode (if v.isBlock then { v with dynamicChildren := ids } else v)
  | node => node

/-- What a node leaves to the blocks around, given what is left of the nodes below it. -/
def offers (node : RenderNode) (below : List NodeId) : List NodeId :=
  match node.block? with
  | some v => [v.id]
  | none => if node.hides then [] else node.dynamicId?.toList ++ below

end RenderNode

theorem flattenAll_eq (nodes) :
    flattenAll nodes = ⟨nodes.map (·.flatten.value), nodes.flatMap (·.flatten.tracked),
      nodes.flatMap (·.flatten.blocks)⟩ := by
  induction nodes with
  | nil => rfl
  | cons node nodes ih => simp only [flattenAll, ih, both, map_cons, flatMap_cons]

theorem flattenProperties_eq (properties) :
    flattenProperties properties =
      ⟨properties.map fun p => { p with value := p.value.flatten.value },
        properties.flatMap (·.value.flatten.tracked),
        properties.flatMap (·.value.flatten.blocks)⟩ := by
  induction properties with
  | nil => rfl
  | cons p properties ih =>
    obtain ⟨key, value⟩ := p
    simp only [flattenProperties, ih, Flattened.both, Flattened.map, map_cons, flatMap_cons]

theorem flattenChildren_eq (children) :
    flattenChildren children = ⟨children.mapParts (·.flatten.value),
      children.parts.flatMap (·.flatten.tracked), children.parts.flatMap (·.flatten.blocks)⟩ := by
  cases children <;>
    simp [flattenChildren, flattenAll_eq, Flattened.map, Flattened.leaf, mapParts,
      parts]

theorem flattenVNode_eq (v) :
    flattenVNode v = v.flatten ⟨v.children.map (mapParts (·.flatten.value)),
      ((v.children.map parts).getD []).flatMap (·.flatten.tracked),
      ((v.children.map parts).getD []).flatMap (·.flatten.blocks)⟩ := by
  obtain ⟨_, _, _, children, _, _, _, _, _, _, _, _⟩ := v
  cases children <;>
    simp [flattenVNode, VNode.flatten, flattenChildren_eq, Flattened.map, Flattened.leaf]

namespace RenderNode

section

variable (node : RenderNode)

theorem flatten_eq : node.flatten =
    let value := (node.mapReached (·.flatten.value)).withList
      (node.reached.flatMap (·.flatten.tracked))
    ⟨value, node.offers (node.reached.flatMap (·.flatten.tracked)),
      value.block?.toList.map VNode.summary ++ node.reached.flatMap (·.flatten.blocks)⟩ := by
  cases node with
  | vnode v =>
    simp only [flatten, flattenVNode_eq, Flattened.map, VNode.flatten, mapReached, withList,
      offers, block?, reached, hides, dynamicId?]
    cases v.isBlock <;> cases v.flag.isDynamic <;> rfl
  | function params returns newline isSlot =>
    cases returns with
    | none => cases isSlot <;> rfl
    | some inner => cases isSlot <;> simp [flatten, Flattened.map, Flattened.hide, mapReached,
        mapParts, withList, offers, block?, hides, dynamicId?, reached, parts]
  | call callee args =>
    by_cases outlet : callee = .renderSlot <;>
      simp [flatten, flattenAll_eq, Flattened.map, Flattened.hide, outlet, mapReached, mapParts,
        withList, offers, block?, hides, dynamicId?, reached, parts]
  | object properties =>
    simp [flatten, flattenProperties_eq, Flattened.map, mapReached, mapParts, withList, offers,
      block?, hides, dynamicId?, reached, parts, flatMap_map]
  | array elements =>
    simp [flatten, flattenAll_eq, Flattened.map, mapReached, mapParts, withList, offers, block?,
      hides, dynamicId?, reached, parts]
  | conditional test consequent alternate newline =>
    simp [flatten, Flattened.both, Flattened.map, mapReached, mapParts, withList, offers, block?,
      hides, dynamicId?, reached, parts]
  | textCall t =>
    simp [flatten, mapReached, withList, offers, block?, dynamicId?, reached]
    split <;> rfl
  | _ => rfl

theorem flatten_value :
    node.flatten.value = (node.mapReached (·.flatten.value)).withList
      (node.reached.flatMap (·.flatten.tracked)) :=
  congrArg value node.flatten_eq

theorem flatten_tracked :
    node.flatten.tracked = node.offers (node.reached.flatMap (·.flatten.tracked)) :=
  congrArg tracked node.flatten_eq

theorem flatten_blocks :
    node.flatten.blocks = node.flatten.value.block?.toList.map VNode.summary ++
      node.reached.flatMap (·.flatten.blocks) := by
  rw [flatten_value]
  exact congrArg Flattened.blocks node.flatten_eq

end

/-! ## The flattened tree

Flattening fills in lists, and changes nothing else. Everything about the flattened tree is proved
from the nodes below a node to the node itself.
-/

section

variable (node : RenderNode)

theorem reached_flatten :
    node.flatten.value.reached = node.reached.map (·.flatten.value) := by
  rw [flatten_value]
  cases node with
  | vnode v =>
    obtain ⟨_, _, _, children, _, _, _, isBlock, _, _, _, _⟩ := v
    rcases children with _ | (_ | _ | _ | _ | _) <;> cases isBlock <;> rfl
  | function params returns => cases returns <;> rfl
  | object properties => simp [mapReached, mapParts, withList, reached, parts]
  | _ => rfl

theorem hides_flatten : node.flatten.value.hides = node.hides := by
  rw [flatten_value]
  cases node <;> rfl

theorem dynamicId?_flatten :
    node.flatten.value.dynamicId? = node.dynamicId? := by
  rw [flatten_value]
  cases node with
  | vnode v => simp only [mapReached, withList, dynamicId?]; split <;> simp [*]
  | _ => rfl

theorem ownIds_flatten : node.flatten.value.ownIds = node.ownIds := by
  rw [flatten_value]
  cases node with
  | vnode v => simp only [mapReached, withList]; split <;> rfl
  | _ => rfl

end

theorem block?_flatten (found : node.flatten.value.block? = some b) :
    node.ownIds = [b.id] ∧ node.flatten.tracked = [b.id] ∧
      b.dynamicChildren = node.reached.flatMap (·.flatten.tracked) := by
  rw [flatten_tracked]
  rw [flatten_value] at found
  cases node with
  | vnode v =>
    simp only [mapReached, withList, block?] at found
    split at found
    next isBlock =>
      obtain rfl := Option.some.inj found
      simp [offers, block?, ownIds, isBlock]
    · simp at found
  | _ => cases found

theorem tracked_of_block?_eq_none (plain : node.flatten.value.block? = none) :
    node.flatten.tracked = if node.hides then [] else
      node.dynamicId?.toList ++ node.reached.flatMap (·.flatten.tracked) := by
  have noBlock : node.block? = none := by
    rw [flatten_value] at plain
    cases node with
    | vnode v =>
      simp only [mapReached, withList, block?] at plain ⊢
      split at plain
      next isBlock => simp [isBlock] at plain
      next notBlock => exact if_neg notBlock
    | _ => rfl
  rw [flatten_tracked]
  simp only [offers, noBlock]

theorem unlisted_eq (node : RenderNode) : node.unlisted = (node.mapParts unlisted).withoutList :=
  rewrite_eq _ node

theorem unlisted_flatten (node : RenderNode) : node.flatten.value.unlisted = node.unlisted := by
  induction node using rec_strong with
  | step node ih =>
    have plain : node.mapReached (·.flatten.value) = node.mapParts (·.flatten.value) →
        ((node.mapReached (·.flatten.value)).mapParts unlisted).withoutList =
          (node.mapParts unlisted).withoutList := by
      intro same
      rw [same, mapParts_mapParts]
      exact congrArg withoutList (mapParts_congr ih)
    rw [unlisted_eq, unlisted_eq, flatten_value]
    cases node with
    | vnode v =>
      have children : (v.children.map (Children.mapParts (·.flatten.value))).map
          (Children.mapParts unlisted) = v.children.map (Children.mapParts unlisted) := by
        cases found : v.children with
        | none => rfl
        | some c =>
          have inside : ∀ part ∈ c.parts, part.flatten.value.unlisted = part.unlisted := by
            intro part member
            exact ih part (mem_parts_of_reached (by simpa [reached, found] using member))
          cases c with
          | nodes | single | slots | list =>
            simpa [Children.mapParts, Children.parts] using inside
          | hoisted => rfl
      simp only [mapReached, withList, mapParts, withoutList, VNode.mapParts]
      split <;> simp [children]
    | textCall t => rfl
    | _ => exact plain rfl

/-- What is gathered from the visits of a flattened tree, part by part. -/
theorem filterMap_visits {α : Type} (f : Visit → Option α) (node : RenderNode) (around) :
    (node.flatten.value.visits around).filterMap f = (f ⟨node.flatten.value, around⟩).toList ++
      node.reached.flatMap fun part =>
        (part.flatten.value.visits (node.flatten.value :: around)).filterMap f := by
  rw [visits_eq, reached_flatten, flatMap_map, filterMap_cons, filterMap_flatMap]
  cases f ⟨node.flatten.value, around⟩ <;> rfl

section

variable (node : RenderNode) (around : List RenderNode)

theorem flatten_summaries :
    node.flatten.blocks = ((node.flatten.value.visits around).filterMap (·.node.block?)).map
      VNode.summary := by
  induction node using rec_strong generalizing around with
  | step node ih =>
    rw [flatten_blocks, filterMap_visits, map_append, map_flatMap]
    congr 1
    exact flatMap_congr fun part member => ih part (mem_parts_of_reached member) _

/-- What is visited has numbers of the tree, in the order that they have there. -/
theorem ids_visits_sublist :
    ((node.flatten.value.visits around).flatMap (·.node.ownIds)).Sublist node.ids := by
  induction node using rec_strong generalizing around with
  | step node ih =>
    rw [visits_eq, reached_flatten, flatMap_map, flatMap_cons, flatMap_assoc,
      ownIds_flatten, ids_eq]
    refine List.Sublist.append_left ?_ _
    have visited := List.Sublist.flatMap_right node.reached fun part member =>
      ih part (mem_parts_of_reached member) (node.flatten.value :: around)
    exact visited.trans (node.reached_sublist.flatMap ids)

end

variable {x : Visit}

theorem mem_ids_of_visit (visited : x ∈ node.flatten.value.visits around)
    (own : id ∈ x.node.ownIds) : id ∈ node.ids :=
  (node.ids_visits_sublist around).subset (mem_flatMap.mpr ⟨x, visited, own⟩)

theorem ownIds_of_dynamicId? (dynamic : node.dynamicId? = some id) : node.ownIds = [id] := by
  unfold dynamicId? at dynamic
  split at dynamic <;> simp_all [ownIds]

theorem dynamicId?_of_block? (found : node.block? = some b) : node.dynamicId? = some b.id := by
  cases node with
  | vnode v =>
    simp only [block?, Option.ite_none_right_eq_some, Option.some.injEq] at found
    obtain ⟨isBlock, rfl⟩ := found
    simp [dynamicId?, isBlock]
  | _ => cases found

theorem dynamicId?_of_hides (hidden : node.hides = true) : node.dynamicId? = none := by
  unfold hides at hidden
  split at hidden <;> simp_all [dynamicId?]

/-! ## Lists -/

theorem nearestBlock?_of_block? (found : node.block? = some b) (around) :
    nearestBlock? (node :: around) = some b := by
  simp [nearestBlock?, found]

/-- A block from elsewhere lists what a tree leaves to it, if it is the nearest one. -/
theorem entries_of_other (other : block ∉ node.ids) (around) :
    (node.flatten.value.visits around).filterMap (Visit.entry? block) =
      if (nearestBlock? around).map (·.id) = some block then node.flatten.tracked else [] := by
  induction node using rec_strong generalizing around with
  | step node ih =>
    have below : (node.reached.flatMap fun part =>
        (part.flatten.value.visits (node.flatten.value :: around)).filterMap
          (Visit.entry? block)) =
        if (nearestBlock? (node.flatten.value :: around)).map (·.id) = some block then
          node.reached.flatMap (·.flatten.tracked) else [] := by
      have each := fun part member => ih part (mem_parts_of_reached member)
        (fun inside => other (collect_part (mem_parts_of_reached member) inside))
        (node.flatten.value :: around)
      rw [flatMap_congr each]
      split <;> simp
    rw [filterMap_visits, below]
    simp only [Visit.entry?, Visit.owner?, dynamicId?_flatten]
    cases found : node.flatten.value.block? with
    | some b =>
      obtain ⟨own, tracked, -⟩ := block?_flatten found
      have different : b.id ≠ block := by
        rintro rfl
        rw [ids_eq, own] at other
        exact other (mem_append_left _ mem_cons_self)
      have dynamic : node.dynamicId? = some b.id := by
        rw [← dynamicId?_flatten, dynamicId?_of_block? found]
      simp only [nearestBlock?_of_block? found, tracked, dynamic, Option.map_some,
        Option.some.injEq, different, if_false, append_nil]
      split <;> rfl
    | none =>
      rw [tracked_of_block?_eq_none found]
      simp only [nearestBlock?, found, hides_flatten]
      cases hidden : node.hides with
      | true =>
        rw [dynamicId?_of_hides hidden]
        split <;> rfl
      | false => simp only [Bool.false_eq_true, if_false]; split <;> simp

/-- Only one part of a tree has a number. -/
theorem flatMap_eq_of_mem_ids {α : Type} {f : RenderNode → List α} {parts : List RenderNode}
    (distinct : (parts.flatMap ids).Nodup) (member : part ∈ parts) (inside : id ∈ part.ids)
    (others : ∀ other ∈ parts, id ∉ other.ids → f other = []) : parts.flatMap f = f part := by
  induction parts with
  | nil => cases member
  | cons first rest ih =>
    rw [flatMap_cons, nodup_append] at distinct
    obtain ⟨-, after, apart⟩ := distinct
    rw [flatMap_cons]
    rcases mem_cons.mp member with rfl | later
    · have nothing : rest.flatMap f = [] := by
        refine flatMap_eq_nil_iff.mpr fun other there => ?_
        refine others other (mem_cons_of_mem _ there) fun again => ?_
        exact apart id inside id (mem_flatMap.mpr ⟨other, there, again⟩) rfl
      rw [nothing, append_nil]
    · have notFirst : id ∉ first.ids := fun again =>
        apart id again id (mem_flatMap.mpr ⟨part, later, inside⟩) rfl
      rw [others first mem_cons_self notFirst]
      exact ih after later fun other there => others other (mem_cons_of_mem _ there)

theorem entries_of_block (distinct : node.ids.Nodup)
    (visited : x ∈ node.flatten.value.visits around) (found : x.node.block? = some b)
    (other : (nearestBlock? around).map (·.id) ≠ some b.id) :
    (node.flatten.value.visits around).filterMap (Visit.entry? b.id) = b.dynamicChildren := by
  induction node using rec_strong generalizing around with
  | step node ih =>
    rw [ids_eq, nodup_append] at distinct
    obtain ⟨-, below, apart⟩ := distinct
    have notHere : Visit.entry? b.id ⟨node.flatten.value, around⟩ = none := if_neg other
    rw [filterMap_visits, notHere]
    rw [visits_eq, reached_flatten, flatMap_map, mem_cons] at visited
    rcases visited with rfl | visited
    · obtain ⟨own, -, list⟩ := block?_flatten found
      rw [list]
      refine flatMap_congr fun part member => ?_
      have outside : b.id ∉ part.ids := fun inside => apart b.id (by simp [own]) b.id
        (mem_flatMap.mpr ⟨part, mem_parts_of_reached member, inside⟩) rfl
      rw [entries_of_other outside, nearestBlock?_of_block? found]
      exact if_pos rfl
    · obtain ⟨part, member, inside⟩ := mem_flatMap.mp visited
      have inPart : b.id ∈ part.ids := by
        refine mem_ids_of_visit inside ?_
        simp [ownIds_of_dynamicId? (dynamicId?_of_block? found)]
      have inParts : b.id ∈ node.parts.flatMap ids :=
        mem_flatMap.mpr ⟨part, mem_parts_of_reached member, inPart⟩
      -- the node is not the block, nor is the block around the node
      have outside : (nearestBlock? (node.flatten.value :: around)).map (·.id) ≠ some b.id := by
        simp only [nearestBlock?]
        split
        next v isBlock =>
          have different := apart v.id (by simp [(block?_flatten isBlock).1]) b.id inParts
          simpa using different
        · split
          · simp
          · exact other
      have distinctParts := (node.reached_sublist.flatMap ids).nodup below
      rw [flatMap_eq_of_mem_ids distinctParts member inPart]
      · have unique := (nodup_flatMap.mp below).1 part (mem_parts_of_reached member)
        exact ih part (mem_parts_of_reached member) unique inside outside
      · intro other _ notInside
        rw [entries_of_other notInside, if_neg outside]

theorem Visit.of_entry? (entry : x.entry? block = some id) :
    x.owner?.map (·.id) = some block ∧ x.node.dynamicId? = some id := by
  simpa only [Visit.entry?, Option.ite_none_right_eq_some] using entry

theorem entries_nodup (distinct : node.ids.Nodup) (around block) :
    ((node.flatten.value.visits around).filterMap (Visit.entry? block)).Nodup := by
  refine List.Sublist.nodup ?_ ((node.ids_visits_sublist around).nodup distinct)
  rw [filterMap_eq_flatMap_toList]
  refine List.Sublist.flatMap_right _ fun x _ => ?_
  cases entry : x.entry? block with
  | none => exact nil_sublist _
  | some id =>
    rw [ownIds_of_dynamicId? (Visit.of_entry? entry).2]
    exact List.Sublist.refl _

/-- A block that is the nearest one to a node is visited as well. -/
theorem nearestBlock?_visited (visited : x ∈ node.visits around) (owner : x.owner? = some b) :
    nearestBlock? around = some b ∨ ∃ y ∈ node.visits around, y.node.block? = some b := by
  induction node using rec_strong generalizing around with
  | step node ih =>
    rw [visits_eq, mem_cons] at visited
    rcases visited with rfl | visited
    · exact .inl owner
    · obtain ⟨part, member, inside⟩ := mem_flatMap.mp visited
      rcases ih part (mem_parts_of_reached member) inside with nearest | ⟨y, there, isBlock⟩
      · simp only [nearestBlock?] at nearest
        split at nearest
        next v isBlock =>
          obtain rfl := Option.some.inj nearest
          exact .inr ⟨⟨node, around⟩, visits_eq .. ▸ mem_cons_self, isBlock⟩
        · split at nearest
          · cases nearest
          · exact .inl nearest
      · refine .inr ⟨y, ?_, isBlock⟩
        rw [visits_eq]
        exact mem_cons_of_mem _ (mem_flatMap.mpr ⟨part, member, there⟩)

/-- A number that has to be listed belongs to one visit. -/
theorem visit_unique (distinct : node.ids.Nodup) (first : x ∈ node.flatten.value.visits around)
    (second : y ∈ node.flatten.value.visits around) (dynamic : x.node.dynamicId? = some id)
    (dynamic' : y.node.dynamicId? = some id) : x = y := by
  by_contra different
  have once := (node.ids_visits_sublist around).nodup distinct
  rw [nodup_flatMap] at once
  have : Std.Symm (Function.onFun List.Disjoint fun z : Visit => z.node.ownIds) :=
    ⟨fun _ _ h _ a b => h b a⟩
  have disjoint : List.Disjoint x.node.ownIds y.node.ownIds :=
    once.2.forall first second different
  rw [ownIds_of_dynamicId? dynamic, ownIds_of_dynamicId? dynamic'] at disjoint
  exact disjoint mem_cons_self mem_cons_self

end RenderNode

/-! ## Templates -/

theorem RenderNode.ids_asRoot (node : RenderNode) : node.asRoot.ids = node.ids := by
  cases node with
  | vnode v => simp only [asRoot, ids_eq, ownIds, parts, VNode.parts]
  | _ => rfl

/-- Blocks are filled in completely and exactly. Flattening gives the blocks of the tree in document
    order and changes nothing but their lists. A block lists the dynamic nodes that it is the
    nearest block of, in document order: such a node is in the list of this block once, and in no
    other list. -/
theorem Root.flattenBlocks_exact (root : Root) {node : RenderNode} (found : root.code = some node)
    (distinct : node.ids.Nodup) :
    ∃ code, root.flattenBlocks = ({ root with code := some code }, code.blocks.map VNode.summary) ∧
      code.unlisted = node.asRoot.unlisted ∧
      (∀ b ∈ code.blocks, b.dynamicChildren = code.entries b.id) ∧
      ∀ x ∈ code.visits [], ∀ id, x.node.dynamicId? = some id →
        (∀ b, x.owner? = some b → b ∈ code.blocks ∧ b.dynamicChildren.count id = 1) ∧
        ∀ b ∈ code.blocks, id ∈ b.dynamicChildren → x.owner? = some b := by
  rw [← node.ids_asRoot] at distinct
  have lists : ∀ b ∈ node.asRoot.flatten.value.blocks,
      b.dynamicChildren = node.asRoot.flatten.value.entries b.id := by
    intro b member
    obtain ⟨x, visited, isBlock⟩ := mem_filterMap.mp member
    exact (RenderNode.entries_of_block distinct visited isBlock (by rintro ⟨⟩)).symm
  have ofOwner : ∀ x ∈ node.asRoot.flatten.value.visits [], ∀ b, x.owner? = some b →
      b ∈ node.asRoot.flatten.value.blocks := by
    intro x visited b owner
    rcases RenderNode.nearestBlock?_visited visited owner with outer | ⟨y, there, isBlock⟩
    · cases outer
    · exact mem_filterMap.mpr ⟨y, there, isBlock⟩
  refine ⟨node.asRoot.flatten.value, ?_, node.asRoot.unlisted_flatten, lists, ?_⟩
  · simp only [flattenBlocks, found]
    rw [node.asRoot.flatten_summaries []]
    rfl
  · intro x visited id dynamic
    constructor
    · intro b owner
      have member := ofOwner x visited b owner
      refine ⟨member, ?_⟩
      rw [lists b member]
      refine count_eq_one_of_mem (RenderNode.entries_nodup distinct [] b.id) ?_
      refine mem_filterMap.mpr ⟨x, visited, ?_⟩
      simp [Visit.entry?, owner, dynamic]
    · intro b member listed
      rw [lists b member] at listed
      obtain ⟨y, there, entry⟩ := mem_filterMap.mp listed
      obtain ⟨owned, dynamic'⟩ := RenderNode.Visit.of_entry? entry
      obtain rfl := RenderNode.visit_unique distinct visited there dynamic dynamic'
      obtain ⟨c, owner, sameId⟩ := Option.map_eq_some_iff.mp owned
      -- blocks with one number are one block
      obtain ⟨z, atB, isB⟩ := mem_filterMap.mp member
      obtain ⟨w, atC, isC⟩ := mem_filterMap.mp (ofOwner x visited c owner)
      have dynamicC := RenderNode.dynamicId?_of_block? isC
      rw [sameId] at dynamicC
      obtain rfl := RenderNode.visit_unique distinct atB atC (RenderNode.dynamicId?_of_block? isB)
        dynamicC
      rw [owner, ← isC, isB]

/-- A page with a conditional element, a component with content in a slot, and a list. -/
def sampleBlocks : Root where
  children := []
  components := []
  directives := []
  hoists := []
  code := some (.vnode { VNode.new 0 (.literal "div") with
    children := some (.nodes [
      .conditional (.script "_ctx.ok")
        (.vnode { VNode.new 1 (.literal "p") with
          isBlock := true
          children := some (.nodes [.textCall ⟨2, none, .text, .empty⟩]) })
        (.call .createComment []) true,
      .vnode { VNode.new 3 (.component "Foo") with
        isBlock := true
        isComponent := true
        children := some (.slots (.object [.named "default" (.function []
          (some (.array [.vnode { VNode.new 4 (.literal "b") with flag := .text }])) false
            true)])) },
      .vnode { VNode.new 5 (.literal "ul") with flag := .text }]) })
  span := .empty

theorem sampleBlocks_flattenBlocks_exact :
    (∀ node ∈ sampleBlocks.code, node.ids.Nodup) ∧
      sampleBlocks.flattenBlocks.2.map (fun b => (b.id, b.dynamicChildren)) =
        [(0, [1, 3, 5]), (1, [2]), (3, [])] ∧
      ∃ code, sampleBlocks.flattenBlocks.1.code = some code ∧
        ∀ b ∈ code.blocks, b.dynamicChildren = code.entries b.id := by
  have distinct : ∀ node ∈ sampleBlocks.code, node.ids.Nodup := by
    decide
  obtain ⟨code, flat, -, lists, -⟩ :=
    Root.flattenBlocks_exact sampleBlocks rfl (distinct _ rfl)
  exact ⟨distinct, by decide, code, by rw [flat], lists⟩

end Stencil
