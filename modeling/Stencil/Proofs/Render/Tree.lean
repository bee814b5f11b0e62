import Stencil.Render.Node

/-! # Walking the render tree

Every node has its immediate parts. What holds of a node as soon as it holds of its parts holds of
all nodes, and functions that gather from a tree or rebuild it are given by what they do at one
node.
-/

namespace Stencil

open List RenderNode Property

/-! ## Parts -/

def Tag.parts : Tag → List RenderNode
  | .dynamic node => [node]
  | _ => []

def Children.parts : Children → List RenderNode
  | .nodes items => items
  | .single node | .slots node | .list node => [node]
  | .hoisted _ => []

def VNode.parts (v : VNode) : List RenderNode :=
  v.tag.parts ++ v.props.toList ++ (v.children.map Children.parts).getD [] ++ v.directives.getD []

/-- The nodes right below a node. -/
def RenderNode.parts : RenderNode → List RenderNode
  | .vnode v => v.parts
  | .call _ args => args
  | .object properties => properties.map (·.value)
  | .array elements => elements
  | .function _ returns _ _ => returns.toList
  | .conditional test consequent alternate _ => [test, consequent, alternate]
  | .textCall t => t.content.toList
  | .expr _ | .text _ | .interpolation _ _ | .comment _ | .hoisted _ | .helper _ => []

variable {children : Children} {node : RenderNode} {tag : Tag} {v : VNode}

theorem Tag.sizeOf_parts (member : node ∈ tag.parts) : sizeOf node < sizeOf tag := by
  cases tag <;> simp_all [parts]

theorem Children.sizeOf_parts (member : node ∈ children.parts) : sizeOf node < sizeOf children := by
  cases children with
  | nodes items =>
    have := sizeOf_lt_of_mem (show node ∈ items from member)
    simp only [Children.nodes.sizeOf_spec]
    omega
  | _ => simp_all [parts]

theorem VNode.sizeOf_parts (member : node ∈ v.parts) : sizeOf node < sizeOf v := by
  obtain ⟨_, _, _, children, _, _, directives, _, _, _, _, _⟩ := v
  simp only [parts, mem_append] at member
  simp only [VNode.mk.sizeOf_spec]
  rcases member with ((inTag | inProps) | inChildren) | inDirectives
  · have := Tag.sizeOf_parts inTag
    omega
  · obtain rfl := Option.mem_toList.mp inProps
    simp only [Option.some.sizeOf_spec]
    omega
  · cases children with
    | none => simp at inChildren
    | some c =>
      have := Children.sizeOf_parts (show node ∈ c.parts from inChildren)
      simp only [Option.some.sizeOf_spec]
      omega
  · cases directives with
    | none => simp at inDirectives
    | some list =>
      have := sizeOf_lt_of_mem (show node ∈ list from inDirectives)
      simp only [Option.some.sizeOf_spec]
      omega

theorem RenderNode.sizeOf_parts (member : part ∈ node.parts) : sizeOf part < sizeOf node := by
  cases node with
  | vnode v => exact Nat.lt_add_left 1 (VNode.sizeOf_parts member)
  | call callee args =>
    have := sizeOf_lt_of_mem (show part ∈ args from member)
    simp only [RenderNode.call.sizeOf_spec]
    omega
  | array elements =>
    have := sizeOf_lt_of_mem (show part ∈ elements from member)
    simp only [RenderNode.array.sizeOf_spec]
    omega
  | object properties =>
    obtain ⟨p, inside, rfl⟩ := mem_map.mp member
    have := sizeOf_lt_of_mem inside
    cases p
    simp only [mk.sizeOf_spec, RenderNode.object.sizeOf_spec] at this ⊢
    omega
  | function params returns newline isSlot =>
    obtain rfl := Option.mem_toList.mp member
    simp only [RenderNode.function.sizeOf_spec, Option.some.sizeOf_spec]
    omega
  | conditional test consequent alternate newline =>
    simp only [parts, mem_cons, not_mem_nil, or_false] at member
    simp only [RenderNode.conditional.sizeOf_spec]
    rcases member with rfl | rfl | rfl <;> omega
  | textCall t =>
    obtain ⟨id, content, flag, span⟩ := t
    obtain rfl := Option.mem_toList.mp member
    simp only [RenderNode.textCall.sizeOf_spec, TextCall.mk.sizeOf_spec, Option.some.sizeOf_spec]
    omega
  | _ => simp [parts] at member

/-- What holds of every node whose parts it holds of, holds of all nodes. -/
theorem RenderNode.rec_strong {P : RenderNode → Prop}
    (step : ∀ node, (∀ part ∈ node.parts, P part) → P node) (node) : P node :=
  step node fun part _ => rec_strong step part
termination_by sizeOf node
decreasing_by exact sizeOf_parts ‹_›

/-! ## Gathering

`collect f` puts together what `f` gives at every node of a tree, from the outside in.
-/

section Collect

variable {α : Type}

mutual
def RenderNode.collect (f : RenderNode → List α) : RenderNode → List α
  | .vnode v => f (.vnode v) ++ v.collect f
  | .call callee args => f (.call callee args) ++ RenderNode.collectAll f args
  | .object properties => f (.object properties) ++ Property.collectAll f properties
  | .array elements => f (.array elements) ++ RenderNode.collectAll f elements
  | .function params returns newline isSlot =>
    f (.function params returns newline isSlot) ++
      match returns with
      | some node => node.collect f
      | none => []
  | .conditional test consequent alternate newline =>
    f (.conditional test consequent alternate newline) ++
      (test.collect f ++ (consequent.collect f ++ alternate.collect f))
  | .textCall t => f (.textCall t) ++ t.collect f
  | .expr e => f (.expr e)
  | .text t => f (.text t)
  | .interpolation content span => f (.interpolation content span)
  | .comment c => f (.comment c)
  | .hoisted index => f (.hoisted index)
  | .helper h => f (.helper h)

def VNode.collect (f : RenderNode → List α) : VNode → List α
  | ⟨_, tag, props, children, _, _, directives, _, _, _, _, _⟩ =>
    tag.collect f ++
      (match props with
        | some node => node.collect f
        | none => []) ++
      (match children with
        | some c => c.collect f
        | none => []) ++
      match directives with
      | some nodes => RenderNode.collectAll f nodes
      | none => []

def Tag.collect (f : RenderNode → List α) : Tag → List α
  | .dynamic node => node.collect f
  | .literal _ | .component _ | .helper _ => []

def Children.collect (f : RenderNode → List α) : Children → List α
  | .nodes items => RenderNode.collectAll f items
  | .single node | .slots node | .list node => node.collect f
  | .hoisted _ => []

def TextCall.collect (f : RenderNode → List α) : TextCall → List α
  | ⟨_, content, _, _⟩ =>
    match content with
    | some node => node.collect f
    | none => []

def RenderNode.collectAll (f : RenderNode → List α) : List RenderNode → List α
  | [] => []
  | node :: nodes => node.collect f ++ RenderNode.collectAll f nodes

def Property.collectAll (f : RenderNode → List α) : List Property → List α
  | [] => []
  | ⟨_, value⟩ :: properties => value.collect f ++ Property.collectAll f properties
end

variable (f : RenderNode → List α)

@[simp] theorem RenderNode.collectAll_eq (nodes) :
    collectAll f nodes = nodes.flatMap (·.collect f) := by
  induction nodes with
  | nil => rfl
  | cons node nodes ih => simp only [RenderNode.collectAll, ih, flatMap_cons]

@[simp] theorem Property.collectAll_eq (properties) :
    Property.collectAll f properties = properties.flatMap (·.value.collect f) := by
  induction properties with
  | nil => rfl
  | cons p properties ih =>
    obtain ⟨key, value⟩ := p
    simp only [Property.collectAll, ih, flatMap_cons]

theorem Tag.collect_eq (tag : Tag) : tag.collect f = tag.parts.flatMap (·.collect f) := by
  cases tag <;> simp [collect, parts]

theorem Children.collect_eq (children : Children) :
    children.collect f = children.parts.flatMap (·.collect f) := by
  cases children <;> simp [collect, parts]

theorem VNode.collect_eq (v : VNode) : v.collect f = v.parts.flatMap (·.collect f) := by
  obtain ⟨_, _, props, children, _, _, directives, _, _, _, _, _⟩ := v
  cases props <;> cases children <;> cases directives <;>
    simp [VNode.collect, VNode.parts, Tag.collect_eq, Children.collect_eq]

/-- What is gathered from a tree is what its root gives and what is gathered from the parts. -/
theorem RenderNode.collect_eq (node : RenderNode) :
    node.collect f = f node ++ node.parts.flatMap (·.collect f) := by
  cases node with
  | vnode v => simp only [RenderNode.collect, RenderNode.parts, VNode.collect_eq]
  | function params returns => cases returns <;> simp [RenderNode.collect, RenderNode.parts]
  | textCall t =>
    obtain ⟨id, content, flag, span⟩ := t
    cases content <;> simp [collect, TextCall.collect, parts]
  | object properties =>
    simp only [collect, parts, Property.collectAll_eq, flatMap_map]
  | _ =>
    simp [RenderNode.collect, RenderNode.parts]

end Collect

def RenderNode.subnodes (node : RenderNode) : List RenderNode :=
  node.collect fun inner => [inner]

theorem RenderNode.mem_subnodes {inner} :
    inner ∈ node.subnodes ↔ inner = node ∨ ∃ part ∈ node.parts, inner ∈ part.subnodes := by
  rw [subnodes, collect_eq]
  simp only [cons_append, nil_append, mem_cons, mem_flatMap]
  rfl

theorem RenderNode.self_mem_subnodes (node : RenderNode) : node ∈ node.subnodes :=
  mem_subnodes.mpr (.inl rfl)

/-- What is gathered from a tree is gathered at its nodes. -/
theorem RenderNode.mem_collect {α : Type} {f} {a : α} (node : RenderNode) :
    a ∈ node.collect f ↔ ∃ inner ∈ node.subnodes, a ∈ f inner := by
  induction node using rec_strong with
  | step node ih =>
    rw [collect_eq, mem_append, mem_flatMap]
    constructor
    · rintro (here | ⟨part, member, below⟩)
      · exact ⟨node, node.self_mem_subnodes, here⟩
      · obtain ⟨inner, inside, found⟩ := (ih part member).mp below
        exact ⟨inner, mem_subnodes.mpr (.inr ⟨part, member, inside⟩), found⟩
    · rintro ⟨inner, inside, found⟩
      rcases mem_subnodes.mp inside with rfl | ⟨part, member, below⟩
      · exact .inl found
      · exact .inr ⟨part, member, (ih part member).mpr ⟨inner, below, found⟩⟩

theorem RenderNode.collect_part {f : RenderNode → List α} (member : part ∈ node.parts) :
    part.collect f ⊆ node.collect f := by
  intro a inside
  rw [collect_eq]
  exact mem_append_right _ (mem_flatMap.mpr ⟨part, member, inside⟩)

/-! ## Rebuilding

`rewrite f` applies `f` at every node of a tree, from the inside out.
-/

mutual
def RenderNode.rewrite (f : RenderNode → RenderNode) : RenderNode → RenderNode
  | .vnode v => f (.vnode (v.rewrite f))
  | .call callee args => f (.call callee (RenderNode.rewriteAll f args))
  | .object properties => f (.object (Property.rewriteAll f properties))
  | .array elements => f (.array (RenderNode.rewriteAll f elements))
  | .function params returns newline isSlot =>
    f (.function params
      (match returns with
        | some node => some (node.rewrite f)
        | none => none) newline isSlot)
  | .conditional test consequent alternate newline =>
    f (.conditional (test.rewrite f) (consequent.rewrite f) (alternate.rewrite f) newline)
  | .textCall t => f (.textCall (t.rewrite f))
  | .expr e => f (.expr e)
  | .text t => f (.text t)
  | .interpolation content span => f (.interpolation content span)
  | .comment c => f (.comment c)
  | .hoisted index => f (.hoisted index)
  | .helper h => f (.helper h)

def VNode.rewrite (f : RenderNode → RenderNode) : VNode → VNode
  | ⟨id, tag, props, children, flag, dynamicProps, directives, isBlock, disableTracking,
      isComponent, dynamicChildren, span⟩ =>
    ⟨id, tag.rewrite f,
      (match props with
        | some node => some (node.rewrite f)
        | none => none),
      (match children with
        | some c => some (c.rewrite f)
        | none => none),
      flag, dynamicProps,
      (match directives with
        | some nodes => some (RenderNode.rewriteAll f nodes)
        | none => none),
      isBlock, disableTracking, isComponent, dynamicChildren, span⟩

def Tag.rewrite (f : RenderNode → RenderNode) : Tag → Tag
  | .dynamic node => .dynamic (node.rewrite f)
  | .literal name => .literal name
  | .component name => .component name
  | .helper h => .helper h

def Children.rewrite (f : RenderNode → RenderNode) : Children → Children
  | .nodes items => .nodes (RenderNode.rewriteAll f items)
  | .single node => .single (node.rewrite f)
  | .slots node => .slots (node.rewrite f)
  | .list node => .list (node.rewrite f)
  | .hoisted index => .hoisted index

def TextCall.rewrite (f : RenderNode → RenderNode) : TextCall → TextCall
  | ⟨id, content, flag, span⟩ =>
    ⟨id,
      (match content with
        | some node => some (node.rewrite f)
        | none => none),
      flag, span⟩

def RenderNode.rewriteAll (f : RenderNode → RenderNode) : List RenderNode → List RenderNode
  | [] => []
  | node :: nodes => node.rewrite f :: RenderNode.rewriteAll f nodes

def Property.rewriteAll (f : RenderNode → RenderNode) : List Property → List Property
  | [] => []
  | ⟨key, value⟩ :: properties => ⟨key, value.rewrite f⟩ :: Property.rewriteAll f properties
end

def Tag.mapParts (g : RenderNode → RenderNode) : Tag → Tag
  | .dynamic node => .dynamic (g node)
  | tag => tag

def Children.mapParts (g : RenderNode → RenderNode) : Children → Children
  | .nodes items => .nodes (items.map g)
  | .single node => .single (g node)
  | .slots node => .slots (g node)
  | .list node => .list (g node)
  | .hoisted index => .hoisted index

def VNode.mapParts (g : RenderNode → RenderNode) (v : VNode) : VNode :=
  { v with
    tag := v.tag.mapParts g
    props := v.props.map g
    children := v.children.map (·.mapParts g)
    directives := v.directives.map (·.map g) }

/-- A node with other nodes in the place of its parts. -/
def RenderNode.mapParts (g : RenderNode → RenderNode) : RenderNode → RenderNode
  | .vnode v => .vnode (v.mapParts g)
  | .call callee args => .call callee (args.map g)
  | .object properties => .object (properties.map fun p => { p with value := g p.value })
  | .array elements => .array (elements.map g)
  | .function params returns newline isSlot => .function params (returns.map g) newline isSlot
  | .conditional test consequent alternate newline =>
    .conditional (g test) (g consequent) (g alternate) newline
  | .textCall t => .textCall { t with content := t.content.map g }
  | node => node

@[simp] theorem Tag.parts_mapParts (g : RenderNode → RenderNode) (tag : Tag) :
    (tag.mapParts g).parts = tag.parts.map g := by
  cases tag <;> rfl

@[simp] theorem Children.parts_mapParts (g : RenderNode → RenderNode) (children : Children) :
    (children.mapParts g).parts = children.parts.map g := by
  cases children <;> rfl

section Rewrite

variable (f : RenderNode → RenderNode)

@[simp] theorem RenderNode.rewriteAll_eq (nodes) :
    rewriteAll f nodes = nodes.map (·.rewrite f) := by
  induction nodes with
  | nil => rfl
  | cons node nodes ih => simp only [RenderNode.rewriteAll, ih, map_cons]

@[simp] theorem Property.rewriteAll_eq (properties) :
    Property.rewriteAll f properties =
      properties.map fun p => { p with value := p.value.rewrite f } := by
  induction properties with
  | nil => rfl
  | cons p properties ih =>
    obtain ⟨key, value⟩ := p
    simp only [Property.rewriteAll, ih, map_cons]

theorem Children.rewrite_eq (children : Children) :
    children.rewrite f = children.mapParts (·.rewrite f) := by
  cases children <;> simp [rewrite, mapParts]

theorem VNode.rewrite_eq (v : VNode) : v.rewrite f = v.mapParts (·.rewrite f) := by
  obtain ⟨_, tag, props, children, _, _, directives, _, _, _, _, _⟩ := v
  cases tag <;> cases props <;> cases children <;> cases directives <;>
    simp [rewrite, mapParts, Tag.rewrite, Tag.mapParts, Children.rewrite_eq]

theorem RenderNode.rewrite_eq (node : RenderNode) :
    node.rewrite f = f (node.mapParts (·.rewrite f)) := by
  cases node with
  | vnode v => simp only [RenderNode.rewrite, RenderNode.mapParts, VNode.rewrite_eq]
  | function params returns => cases returns <;> rfl
  | textCall t =>
    obtain ⟨id, content, flag, span⟩ := t
    cases content <;> rfl
  | _ => simp [RenderNode.rewrite, RenderNode.mapParts]

end Rewrite

namespace RenderNode

variable (node : RenderNode)

theorem mapParts_id : node.mapParts (fun part => part) = node := by
  cases node with
  | vnode v =>
    obtain ⟨_, tag, _, children, _, _, _, _, _, _, _, _⟩ := v
    cases tag <;> rcases children with _ | (_ | _ | _ | _ | _) <;>
      simp [mapParts, VNode.mapParts, Tag.mapParts, Children.mapParts]
  | object properties =>
    refine congrArg RenderNode.object ((map_congr_left fun p _ => ?_).trans (map_id _))
    cases p
    rfl
  | textCall t =>
    cases t
    simp [mapParts]
  | _ => simp [mapParts]

theorem mapParts_mapParts (g h : RenderNode → RenderNode) :
    (node.mapParts g).mapParts h = node.mapParts fun part => h (g part) := by
  cases node with
  | vnode v =>
    obtain ⟨_, tag, _, children, _, _, _, _, _, _, _, _⟩ := v
    cases tag <;> rcases children with _ | (_ | _ | _ | _ | _) <;>
      simp [mapParts, VNode.mapParts, Tag.mapParts, Children.mapParts, Function.comp_def]
  | _ => simp [mapParts, Function.comp_def]

@[simp] theorem parts_mapParts (g : RenderNode → RenderNode) :
    (node.mapParts g).parts = node.parts.map g := by
  cases node with
  | vnode v =>
    obtain ⟨_, _, _, children, _, _, directives, _, _, _, _, _⟩ := v
    cases children <;> cases directives <;>
      simp [mapParts, parts, VNode.mapParts, VNode.parts, Option.toList_map]
  | function params returns => cases returns <;> rfl
  | textCall t => cases found : t.content <;> simp [mapParts, parts, found]
  | _ => simp [mapParts, parts]

end RenderNode

/-! ## Shapes

Two nodes have one shape if they differ in their parts only. Nodes of one shape that are rebuilt
from equal parts are equal.
-/

/-- What stands for a part in a shape. -/
def RenderNode.gap : RenderNode → RenderNode :=
  fun _ => .helper .fragment

def RenderNode.shape (node : RenderNode) : RenderNode :=
  node.mapParts gap

theorem RenderNode.map_gap {nodes nodes' : List RenderNode} (same : nodes.length = nodes'.length) :
    nodes.map gap = nodes'.map gap := by
  have constant : ∀ list : List RenderNode,
      list.map gap = List.replicate list.length (.helper .fragment) :=
    fun _ => map_const' ..
  rw [constant, constant, same]

section Shape

variable {g h : RenderNode → RenderNode}

theorem Tag.mapParts_eq_of_shape {tag' : Tag} (same : tag.mapParts gap = tag'.mapParts gap)
    (equal : tag.parts.map g = tag'.parts.map h) : tag.mapParts g = tag'.mapParts h := by
  cases tag <;> cases tag' <;> simp_all [mapParts, parts]

theorem Children.mapParts_eq_of_shape {children' : Children}
    (same : children.mapParts gap = children'.mapParts gap)
    (equal : children.parts.map g = children'.parts.map h) :
    children.mapParts g = children'.mapParts h := by
  cases children <;> cases children' <;> simp_all [mapParts, parts]

theorem VNode.mapParts_eq_of_shape {v' : VNode} (same : v.mapParts gap = v'.mapParts gap)
    (equal : v.parts.map g = v'.parts.map h) : v.mapParts g = v'.mapParts h := by
  obtain ⟨_, _, props, children, _, _, directives, _, _, _, _, _⟩ := v
  obtain ⟨id', tag', props', children', flag', dynamicProps', directives', isBlock',
    disableTracking', isComponent', dynamicChildren', span'⟩ := v'
  simp only [mapParts, VNode.mk.injEq] at same
  obtain ⟨rfl, sameTag, sameProps, sameChildren, rfl, rfl, sameDirectives, rfl, rfl, rfl, rfl, rfl⟩ :=
    same
  have lengthTag := by simpa using congrArg (·.parts.length) sameTag
  have lengthProps := by simpa [Option.toList_map] using congrArg (·.toList.length) sameProps
  have lengthChildren : ((children.map Children.parts).getD []).length =
      ((children'.map Children.parts).getD []).length := by
    cases children <;> cases children' <;> simp only [Option.map_some, Option.map_none, reduceCtorEq,
      Option.some.injEq, Option.getD_some] at sameChildren ⊢
    simpa using congrArg (·.parts.length) sameChildren
  simp only [parts, map_append] at equal
  obtain ⟨equal, equalDirectives⟩ := append_inj equal
    (by simp only [length_append, length_map, lengthTag, lengthProps,
      lengthChildren])
  obtain ⟨equal, equalChildren⟩ := append_inj equal
    (by simp only [length_append, length_map, lengthTag, lengthProps])
  obtain ⟨equalTag, equalProps⟩ := append_inj equal
    (by simp only [length_map, lengthTag])
  simp only [mapParts, VNode.mk.injEq, true_and]
  refine ⟨Tag.mapParts_eq_of_shape sameTag equalTag, ?_, ?_, ?_⟩
  · cases props <;> cases props' <;> simp_all
  · cases children <;> cases children' <;> simp only [Option.map_some, Option.map_none, reduceCtorEq,
      Option.some.injEq, Option.getD_some] at sameChildren equalChildren ⊢
    exact Children.mapParts_eq_of_shape sameChildren equalChildren
  · cases directives <;> cases directives' <;> simp_all

theorem Property.mapParts_eq_of_shape {properties properties' : List Property}
    (same : properties.map (fun p => { p with value := gap p.value }) =
      properties'.map fun p => { p with value := gap p.value })
    (equal : properties.map (fun p => g p.value) = properties'.map fun p => h p.value) :
    (properties.map fun p => { p with value := g p.value }) =
      properties'.map fun p => { p with value := h p.value } := by
  induction properties generalizing properties' with
  | nil => cases properties' <;> simp_all
  | cons p properties ih =>
    cases properties' with
    | nil => simp at equal
    | cons p' properties' =>
      simp only [map_cons, List.cons.injEq, mk.injEq] at same equal ⊢
      exact ⟨⟨same.1.1, equal.1⟩, ih same.2 equal.2⟩

theorem RenderNode.mapParts_eq_of_shape {node' : RenderNode} (same : node.shape = node'.shape)
    (equal : node.parts.map g = node'.parts.map h) : node.mapParts g = node'.mapParts h := by
  cases node <;> cases node' <;>
    simp only [shape, mapParts, reduceCtorEq, RenderNode.vnode.injEq,
      RenderNode.call.injEq, RenderNode.function.injEq, RenderNode.conditional.injEq,
      RenderNode.textCall.injEq, RenderNode.object.injEq, RenderNode.array.injEq] at same ⊢
  case vnode.vnode => exact VNode.mapParts_eq_of_shape same equal
  case call.call => exact ⟨same.1, equal⟩
  case array.array => exact equal
  case object.object =>
    simp only [parts, map_map] at equal
    exact mapParts_eq_of_shape same equal
  case function.function params returns _ _ params' returns' _ _ =>
    cases returns <;> cases returns' <;> simp_all [parts]
  case conditional.conditional =>
    simp only [parts, map_cons, List.cons.injEq] at equal
    exact ⟨equal.1, equal.2.1, equal.2.2.1, same.2.2.2⟩
  case textCall.textCall t t' =>
    obtain ⟨id, content, flag, span⟩ := t
    obtain ⟨id', content', flag', span'⟩ := t'
    cases content <;> cases content' <;> simp_all [parts]
  all_goals exact same

theorem VNode.mapParts_congr (same : ∀ part ∈ v.parts, g part = h part) :
    v.mapParts g = v.mapParts h :=
  mapParts_eq_of_shape rfl (map_congr_left same)

theorem RenderNode.mapParts_congr (same : ∀ part ∈ node.parts, g part = h part) :
    node.mapParts g = node.mapParts h :=
  mapParts_eq_of_shape rfl (map_congr_left same)

end Shape

namespace RenderNode

theorem rewrite_id (node : RenderNode) : node.rewrite (fun inner => inner) = node := by
  induction node using rec_strong with
  | step node ih =>
    rw [rewrite_eq, mapParts_congr ih]
    exact node.mapParts_id

/-- Two functions rebuild a tree alike if they agree where what the nodes have holds. -/
theorem rewrite_congr {own : RenderNode → List α} {P : α → Prop} {f f' : RenderNode → RenderNode}
    (stays : ∀ g node, own (mapParts g node) = own node)
    (same : ∀ {node}, (∀ a ∈ own node, P a) → f node = f' node) (node : RenderNode)
    (holds : ∀ a ∈ node.collect own, P a) : node.rewrite f = node.rewrite f' := by
  induction node using rec_strong with
  | step node ih =>
    rw [collect_eq, forall_mem_append, forall_mem_flatMap] at holds
    rw [rewrite_eq, rewrite_eq, mapParts_congr fun part member => ih part member (holds.2 part member)]
    refine same ?_
    rw [stays]
    exact holds.1

end RenderNode

end Stencil
