import Stencil.Proofs.Render.Tree
import Stencil.Render.Hoist

/-! # Levels without a memory

How constant a subtree is, worked out anew at every node. In a tree that gives no number to two
node creations, remembering levels by number changes nothing.
-/

namespace Stencil

open List RenderNode Constancy Option

namespace Constancy

theorem min_assoc (a b c : Constancy) : (a.min b).min c = a.min (b.min c) := by
  cases a <;> cases b <;> cases c <;> rfl

section

variable (a : Constancy)

@[simp] theorem dynamic_min : min .dynamic a = .dynamic := by
  cases a <;> rfl

@[simp] theorem min_dynamic : min a .dynamic = .dynamic := by
  cases a <;> rfl

@[simp] theorem stringifiable_min : min .stringifiable a = a := by
  cases a <;> rfl

@[simp] theorem min_stringifiable : min a .stringifiable = a := by
  cases a <;> rfl

end

theorem canHoist_min (a b : Constancy) : (a.min b).canHoist = (a.canHoist && b.canHoist) := by
  cases a <;> cases b <;> rfl

end Constancy

mutual
/-- How constant a subtree is: as constant as the weakest of its parts. -/
def RenderNode.level : RenderNode → Constancy
  | .vnode v => v.level
  | .textCall t => t.level
  | .text _ | .comment _ => .stringifiable
  | .interpolation _ _ => .dynamic
  | .expr e => e.renderLevel
  | .hoisted _ => .hoistable
  | .object properties => Property.levels properties
  | .array elements => RenderNode.levels elements
  | .call callee args =>
    match args with
    | arg :: _ => if callee.isNormalizer then arg.level else .dynamic
    | [] => .dynamic
  | .function _ _ _ _ | .conditional _ _ _ _ | .helper _ => .dynamic

def VNode.level : VNode → Constancy
  | ⟨id, tag, props, children, flag, dynamicProps, directives, isBlock, disableTracking,
      isComponent, dynamicChildren, span⟩ =>
    if VNode.isPassive ⟨id, tag, props, children, flag, dynamicProps, directives, isBlock,
        disableTracking, isComponent, dynamicChildren, span⟩ then
      min
        (match props with
          | some p => p.level
          | none => .stringifiable)
        (match children with
          | some c => c.level
          | none => .stringifiable)
    else .dynamic

def Children.level : Children → Constancy
  | .nodes items => RenderNode.levels items
  | .single node => node.level
  | .hoisted _ => .hoistable
  | .slots _ | .list _ => .dynamic

def TextCall.level : TextCall → Constancy
  | ⟨_, content, _, _⟩ =>
    match content with
    | some node => node.level
    | none => .stringifiable

def RenderNode.levels : List RenderNode → Constancy
  | [] => .stringifiable
  | node :: nodes => node.level.min (RenderNode.levels nodes)

/-- A key that is only known at run time makes an object dynamic. -/
def Property.levels : List Property → Constancy
  | [] => .stringifiable
  | ⟨key, value⟩ :: properties =>
    if key.static?.isNone then .dynamic else value.level.min (Property.levels properties)
end

def propsLevel : Option RenderNode → Constancy
  | some p => p.level
  | none => .stringifiable

def childrenLevel : Option Children → Constancy
  | some c => c.level
  | none => .stringifiable

theorem VNode.level_eq (v : VNode) :
    v.level =
      if v.isPassive then (propsLevel v.props).min (childrenLevel v.children) else .dynamic := by
  obtain ⟨_, _, props, children, _, _, _, _, _, _, _, _⟩ := v
  cases props <;> cases children <;> simp only [VNode.level, propsLevel, childrenLevel]

/-! ## Remembered levels -/

def propsConstancy : Option RenderNode → StateM Levels Constancy
  | some p => p.constancy
  | none => return .stringifiable

def childrenConstancy (level : Constancy) : Option Children → StateM Levels Constancy
  | some c => c.constancy level
  | none => return level

theorem VNode.constancy_eq (v : VNode) :
    v.constancy = rememberLevel v.id
      (if v.isPassive then propsConstancy v.props >>= fun level => childrenConstancy level v.children
        else return .dynamic) := by
  obtain ⟨id, _, props, children, _, _, _, _, _, _, _, _⟩ := v
  rw [constancy]
  cases isPassive _ <;> cases props <;> cases children <;> rfl

/-- Every remembered level is the one that `f` gives to its number. -/
def Levels.Sound (f : NodeId → Constancy) (memo : Levels) : Prop :=
  ∀ id level, memo.lookup id = some level → level = f id

/-- Every node creation in a tree has the level that `f` gives to its number. -/
def RenderNode.Agrees (f : NodeId → Constancy) (node : RenderNode) : Prop :=
  ∀ v, .vnode v ∈ node.subnodes → v.level = f v.id

theorem RenderNode.Agrees.part {node part : RenderNode} (agrees : node.Agrees f)
    (member : part ∈ node.parts) : part.Agrees f :=
  fun v inside => agrees v (mem_subnodes.mpr (.inr ⟨part, member, inside⟩))

/-- A computation gives `level` from all sound memories, and leaves them sound. -/
def Computes (f : NodeId → Constancy) (act : StateM Levels Constancy) (level : Constancy) : Prop :=
  ∀ memo : Levels, memo.Sound f → (act.run memo).1 = level ∧ (act.run memo).2.Sound f

namespace Computes

theorem pure (level) : Computes f (Pure.pure level) level :=
  fun _ sound => ⟨rfl, sound⟩

theorem bind {act} {next : Constancy → StateM Levels Constancy} {level result}
    (first : Computes f act level) (second : Computes f (next level) result) :
    Computes f (act >>= next) result := by
  intro memo sound
  obtain ⟨value, kept⟩ := first memo sound
  have run : (act >>= next).run memo = (next (act.run memo).1).run (act.run memo).2 := rfl
  rw [run, value]
  exact second _ kept

theorem remember {id compute} (computed : Computes f compute (f id)) :
    Computes f (rememberLevel id compute) (f id) := by
  intro memo sound
  cases known : memo.lookup id with
  | some level =>
    have run : (rememberLevel id compute).run memo = (level, memo) := by
      simp [rememberLevel, known]
      rfl
    rw [run]
    exact ⟨sound id level known, sound⟩
  | none =>
    obtain ⟨value, kept⟩ := computed memo sound
    have run : (rememberLevel id compute).run memo =
        ((compute.run memo).1, (id, (compute.run memo).1) :: (compute.run memo).2) := by
      simp [rememberLevel, known]
      rfl
    rw [run]
    refine ⟨value, fun other level found => ?_⟩
    rw [lookup_cons] at found
    split at found
    next same => rw [← some.inj found, value, beq_iff_eq.mp same]
    · exact kept other level found

section

variable {nodes : List RenderNode} (each : ∀ node ∈ nodes, Computes f node.constancy node.level)
  (level : Constancy)
include each

theorem constancies :
    Computes f (constancies level nodes) (level.min (levels nodes)) := by
  induction nodes generalizing level with
  | nil =>
    rw [RenderNode.levels, min_stringifiable]
    exact .pure level
  | cons node nodes ih =>
    rw [RenderNode.levels, ← min_assoc]
    exact (each node mem_cons_self).bind
      (ih (fun n member => each n (mem_cons_of_mem node member)) _)

theorem constancyUntil :
    Computes f (constancyUntil level nodes) (level.min (levels nodes)) := by
  induction nodes generalizing level with
  | nil =>
    rw [RenderNode.levels, min_stringifiable]
    exact .pure level
  | cons node nodes ih =>
    rw [RenderNode.levels, ← min_assoc]
    refine (each node mem_cons_self).bind ?_
    by_cases stop : level.min node.level = .dynamic
    · rw [stop]
      exact .pure .dynamic
    · rw [if_neg stop]
      exact ih (fun n member => each n (mem_cons_of_mem node member)) _

end

theorem propertyConstancies (each : ∀ p ∈ properties, Computes f p.value.constancy p.value.level)
    (level) :
    Computes f (Property.constancies level properties)
      (level.min (Property.levels properties)) := by
  induction properties generalizing level with
  | nil =>
    rw [Property.levels, min_stringifiable]
    exact .pure level
  | cons p properties ih =>
    obtain ⟨key, value⟩ := p
    rw [Property.constancies, Property.levels]
    split
    · rw [min_dynamic]
      exact .pure .dynamic
    · rw [← min_assoc]
      exact (each ⟨key, value⟩ mem_cons_self).bind
        (ih (fun n member => each n (mem_cons_of_mem _ member)) _)

theorem children {children}
    (each : ∀ c ∈ children, ∀ node ∈ c.parts, Computes f node.constancy node.level) (level) :
    Computes f (childrenConstancy level children) (level.min (childrenLevel children)) := by
  cases children with
  | none =>
    rw [childrenLevel, min_stringifiable]
    exact .pure level
  | some c =>
    replace each := each c rfl
    rw [childrenConstancy, childrenLevel]
    cases c with
    | nodes items => exact constancyUntil each level
    | single node =>
      exact (each node (mem_singleton.mpr rfl)).bind (.pure _)
    | hoisted =>
      exact .pure _
    | slots | list =>
      rw [Children.level, min_dynamic]
      exact .pure .dynamic

theorem props {props} (each : ∀ node ∈ props, Computes f node.constancy node.level) :
    Computes f (propsConstancy props) (propsLevel props) := by
  cases props with
  | none => exact .pure _
  | some p => exact each p rfl

theorem vnode {v : VNode} (agrees : v.level = f v.id)
    (each : ∀ node ∈ v.parts, Computes f node.constancy node.level) :
    Computes f v.constancy v.level := by
  rw [agrees, VNode.constancy_eq]
  apply remember
  rw [← agrees, VNode.level_eq]
  simp only [VNode.parts, mem_append] at each
  split
  · refine (props fun node member => ?_).bind (children (fun c member node below => ?_) _)
    · exact each node (.inl (.inl (.inr (mem_toList.mpr member))))
    · refine each node (.inl (.inr ?_))
      rw [mem_def.mp member]
      exact below
  · exact .pure .dynamic

end Computes

/-- In a tree whose levels are a function of the numbers, remembering changes no level. -/
theorem RenderNode.computes_constancy (node : RenderNode) (agrees : node.Agrees f) :
    Computes f node.constancy node.level := by
  induction node using rec_strong with
  | step node ih =>
    replace ih := fun part member => ih part member (agrees.part member)
    cases node with
    | vnode v => exact .vnode (agrees v (self_mem_subnodes _)) ih
    | call callee args =>
      cases args with
      | nil => exact .pure .dynamic
      | cons arg rest =>
        simp only [RenderNode.constancy, RenderNode.level]
        split
        · exact ih arg mem_cons_self
        · exact .pure .dynamic
    | object properties =>
      rw [level, ← stringifiable_min (Property.levels _)]
      exact .propertyConstancies (fun p member => ih p.value (mem_map_of_mem member)) _
    | array elements =>
      rw [level, ← stringifiable_min (levels _)]
      exact .constancies ih _
    | textCall t =>
      obtain ⟨id, content, flag, span⟩ := t
      cases content with
      | none => exact .pure _
      | some inner => exact ih inner (mem_toList.mpr rfl)
    | _ =>
      exact .pure _

end Stencil
