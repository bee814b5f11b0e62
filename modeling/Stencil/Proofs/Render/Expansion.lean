import Mathlib.Data.List.Induction
import Mathlib.Data.List.Nodup
import Mathlib.Data.List.Pairwise
import Stencil.Proofs.Render.Level

/-! # Expanding references

A reference to a hoisted constant stands for the constant. Constants may refer to earlier ones, so
a list of constants is expanded from the front, and a tree with the expanded constants in the
place of its references.
-/

namespace Stencil

open List RenderNode Option

variable {node : RenderNode}

/-- What tells where a node creation comes from. -/
structure Label where
  tag : Tag
  directives : Option (List RenderNode)
  span : Span

def VNode.label (v : VNode) : Label :=
  ⟨v.tag, v.directives, v.span⟩

namespace RenderNode

/-! ## Numbers, references and labels -/

/-- The number of a node, if it has one. -/
def ownIds : RenderNode → List NodeId
  | .vnode v => [v.id]
  | .textCall t => [t.id]
  | _ => []

def ownRefs : RenderNode → List Nat
  | .hoisted index => [index]
  | .vnode v =>
    match v.children with
    | some (.hoisted index) => [index]
    | _ => []
  | _ => []

theorem ownRefs_vnode {v : VNode} (plain : ∀ c ∈ v.children, ∀ index, c ≠ .hoisted index) :
    (vnode v).ownRefs = [] := by
  simp only [ownRefs]
  split
  next index found => exact absurd rfl (plain _ found index)
  · rfl

def ownLabels : RenderNode → List Label
  | .vnode v => [v.label]
  | _ => []

def ids (node : RenderNode) : List NodeId :=
  node.collect ownIds

def refs (node : RenderNode) : List Nat :=
  node.collect ownRefs

def labels (node : RenderNode) : List Label :=
  node.collect ownLabels

theorem ids_eq (node : RenderNode) : node.ids = node.ownIds ++ node.parts.flatMap ids :=
  node.collect_eq ownIds

theorem refs_eq (node : RenderNode) : node.refs = node.ownRefs ++ node.parts.flatMap refs :=
  node.collect_eq ownRefs

theorem labels_eq (node : RenderNode) : node.labels = node.ownLabels ++ node.parts.flatMap labels :=
  node.collect_eq ownLabels

theorem mem_ids_of_subnode (inside : .vnode v ∈ node.subnodes) : v.id ∈ node.ids :=
  (mem_collect node).mpr ⟨.vnode v, inside, mem_singleton.mpr rfl⟩

/-- Without repeated numbers, a number belongs to one node creation. -/
theorem vnode_unique (distinct : node.ids.Nodup) :
    ∀ {v w : VNode}, .vnode v ∈ node.subnodes → .vnode w ∈ node.subnodes → v.id = w.id → v = w := by
  induction node using rec_strong with
  | step node ih =>
    intro v w first second same
    rw [ids_eq, nodup_append] at distinct
    obtain ⟨-, below, apart⟩ := distinct
    rw [nodup_flatMap] at below
    -- the number of the root is not used below it
    have notRoot : ∀ {x : VNode}, .vnode x = node → ∀ {y : VNode}, ∀ part ∈ node.parts,
        .vnode y ∈ part.subnodes → x.id ≠ y.id := by
      rintro x rfl y part member inside
      exact apart x.id (mem_singleton.mpr rfl) y.id
        (mem_flatMap.mpr ⟨part, member, mem_ids_of_subnode inside⟩)
    rcases mem_subnodes.mp first with rootV | ⟨p, memberP, insideP⟩ <;>
      rcases mem_subnodes.mp second with rootW | ⟨q, memberQ, insideQ⟩
    · exact vnode.inj (rootV.trans rootW.symm)
    · exact absurd same (notRoot rootV q memberQ insideQ)
    · exact absurd same.symm (notRoot rootW p memberP insideP)
    · by_cases samePart : p = q
      · subst samePart
        exact ih p memberP (below.1 p memberP) insideP insideQ same
      · have : Std.Symm (Function.onFun List.Disjoint ids) := ⟨fun _ _ h _ a b => h b a⟩
        have disjoint := below.2.forall memberP memberQ samePart
        exact absurd (same ▸ mem_ids_of_subnode insideQ) (disjoint (mem_ids_of_subnode insideP))

/-- Without repeated numbers, levels are a function of the numbers. -/
theorem exists_agrees (distinct : node.ids.Nodup) : ∃ f : NodeId → Constancy, node.Agrees f := by
  classical
  refine ⟨fun id => if found : ∃ v, .vnode v ∈ node.subnodes ∧ v.id = id then
    found.choose.level else .dynamic, fun v inside => ?_⟩
  have found : ∃ w, .vnode w ∈ node.subnodes ∧ w.id = v.id := ⟨v, inside, rfl⟩
  simp only [dif_pos found]
  rw [vnode_unique distinct found.choose_spec.1 inside found.choose_spec.2]

end RenderNode

/-! ## Expansion -/

/-- Children with a constant in the place of a reference to it. -/
def Children.unfold (defs : List RenderNode) : Children → Children
  | .hoisted index =>
    match defs[index]? with
    | some (.array elements) => .nodes elements
    | some node => .single node
    | none => .hoisted index
  | children => children

/-- A node with constants in the place of its own references. -/
def RenderNode.unfoldRef (defs : List RenderNode) : RenderNode → RenderNode
  | .hoisted index => (defs[index]?).getD (.hoisted index)
  | .vnode v => .vnode { v with children := v.children.map (·.unfold defs) }
  | node => node

/-- A tree with constants in the place of all references. -/
def RenderNode.expandWith (defs : List RenderNode) (node : RenderNode) : RenderNode :=
  node.rewrite (unfoldRef defs)

/-- Constants, each with the ones before it in the place of its references. -/
def expansions (hoists : List RenderNode) : List RenderNode :=
  hoists.foldl (fun defs node => defs ++ [node.expandWith defs]) []

/-- A tree with the expansion of every constant in the place of the references to it. -/
def RenderNode.expand (hoists : List RenderNode) (node : RenderNode) : RenderNode :=
  node.expandWith (expansions hoists)

/-- Every constant refers to earlier ones only. -/
def Backward (hoists : List RenderNode) : Prop :=
  ∀ (j : Nat) (node : RenderNode), hoists[j]? = some node → ∀ i ∈ node.refs, i < j

/-- All references of a tree are to one of the first `n` constants. -/
def RenderNode.RefsBelow (n : Nat) (node : RenderNode) : Prop :=
  ∀ i ∈ node.refs, i < n

instance (n : Nat) (node : RenderNode) : Decidable (node.RefsBelow n) :=
  inferInstanceAs (Decidable (∀ i ∈ node.refs, i < n))

namespace RenderNode

theorem expandWith_eq (defs) (node : RenderNode) :
    node.expandWith defs = (node.mapParts (expandWith defs)).unfoldRef defs :=
  node.rewrite_eq (unfoldRef defs)

theorem expand_eq (hoists) (node : RenderNode) :
    node.expand hoists = (node.mapParts (expand hoists)).unfoldRef (expansions hoists) :=
  node.expandWith_eq (expansions hoists)

section

variable (g : RenderNode → RenderNode) (node : RenderNode)

theorem ownIds_mapParts :
    (node.mapParts g).ownIds = node.ownIds := by
  cases node <;> rfl

theorem ownRefs_mapParts :
    (node.mapParts g).ownRefs = node.ownRefs := by
  cases node with
  | vnode v =>
    rcases found : v.children with _ | (_ | _ | _ | _ | _) <;>
      simp [mapParts, VNode.mapParts, ownRefs, found, Children.mapParts]
  | _ => rfl

end

theorem unfoldRef_congr (same : ∀ i ∈ node.ownRefs, defs[i]? = defs'[i]?) :
    node.unfoldRef defs = node.unfoldRef defs' := by
  cases node with
  | hoisted index => simp only [unfoldRef, same index (mem_singleton.mpr rfl)]
  | vnode v =>
    rcases found : v.children with _ | (_ | _ | _ | _ | index)
    case some.hoisted =>
      have : defs[index]? = defs'[index]? := same index (by simp [ownRefs, found])
      simp only [unfoldRef, found, map_some, Children.unfold, this]
    all_goals simp only [unfoldRef, found, map_none, map_some, Children.unfold]
  | _ => rfl

/-- The expansion of a tree depends only on the constants that it refers to. -/
theorem expandWith_congr (node : RenderNode) (same : ∀ i ∈ node.refs, defs[i]? = defs'[i]?) :
    node.expandWith defs = node.expandWith defs' :=
  rewrite_congr ownRefs_mapParts unfoldRef_congr node same

end RenderNode

theorem expansions_concat (hoists node) :
    expansions (hoists ++ [node]) = expansions hoists ++ [node.expand hoists] := by
  rw [expansions, foldl_append]
  rfl

@[simp] theorem length_expansions (hoists) : (expansions hoists).length = hoists.length := by
  induction hoists using List.reverseRecOn with
  | nil => rfl
  | append_singleton hoists node ih =>
    rw [expansions_concat, length_append, length_append, ih]
    rfl

theorem expansions_prefix (hoists more) :
    ∃ rest, expansions (hoists ++ more) = expansions hoists ++ rest := by
  induction more using List.reverseRecOn with
  | nil => exact ⟨[], by simp⟩
  | append_singleton more node ih =>
    obtain ⟨rest, found⟩ := ih
    rw [← append_assoc, expansions_concat, found, append_assoc]
    exact ⟨_, rfl⟩

namespace RenderNode

theorem RefsBelow.mono (below : node.RefsBelow n) (le : n ≤ m) : node.RefsBelow m :=
  fun i inside => Nat.lt_of_lt_of_le (below i inside) le

theorem RefsBelow.append (below : node.RefsBelow hoists.length) (more : List RenderNode) :
    node.RefsBelow (hoists ++ more).length :=
  below.mono (by simp)

theorem RefsBelow.part {n part} (below : node.RefsBelow n) (member : part ∈ node.parts) :
    part.RefsBelow n :=
  fun i inside => below i (collect_part member inside)

theorem expand_append (below : node.RefsBelow hoists.length) (more) :
    node.expand (hoists ++ more) = node.expand hoists := by
  obtain ⟨rest, found⟩ := expansions_prefix hoists more
  refine expandWith_congr node fun i inside => ?_
  rw [found, getElem?_append_left]
  rw [length_expansions]
  exact below i inside

end RenderNode

theorem Backward.of_append (back : Backward (hoists ++ more)) : Backward hoists := by
  intro j node found
  refine back j node ?_
  rw [List.getElem?_append_left (List.getElem?_eq_some_iff.mp found).1, found]

theorem Backward.concat (back : Backward hoists) (below : node.RefsBelow hoists.length) :
    Backward (hoists ++ [node]) := by
  intro j other found
  rw [getElem?_append] at found
  split at found
  · exact back j other found
  next beyond =>
    rw [getElem?_singleton] at found
    split at found
    next last =>
      obtain rfl := some.inj found
      have : j = hoists.length := by omega
      exact this ▸ below
    · cases found

theorem expand_hoisted (back : Backward hoists) (found : hoists[i]? = some node) :
    (hoisted i).expand hoists = node.expand hoists := by
  induction hoists using List.reverseRecOn with
  | nil => simp at found
  | append_singleton hoists last ih =>
    have inside := (List.getElem?_eq_some_iff.mp found).1
    rw [length_append, length_singleton] at inside
    by_cases before : i < hoists.length
    · rw [getElem?_append_left before] at found
      have refBelow : (hoisted i).RefsBelow hoists.length := by
        intro j member
        obtain rfl := mem_singleton.mp (show j ∈ [i] from member)
        exact before
      have nodeBelow : node.RefsBelow hoists.length := fun j member =>
        Nat.lt_trans (back.of_append i node found j member) before
      rw [expand_append refBelow, expand_append nodeBelow]
      exact ih back.of_append found
    · have same : i = hoists.length := by omega
      subst same
      have isLast : last = node := by simpa using found
      subst isLast
      have lastBelow : last.RefsBelow hoists.length := back hoists.length last (by simp)
      rw [expand_append lastBelow, expand, expansions_concat,
        expandWith_eq]
      simp [mapParts, unfoldRef]

end Stencil
