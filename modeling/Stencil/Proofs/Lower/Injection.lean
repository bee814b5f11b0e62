import Stencil.Proofs.Lower.Code

/-! # Reading properties

Properties are read as a map from names, in which what stands later wins. Adding a property puts it
before all others, so it is the one that holds only where nothing else gives its name.
-/

namespace Stencil

open RenderNode Option

structure PropsReading (V : Type) where
  value : RenderNode → V
  /-- The name of a computed key. -/
  name : Expression → String
  /-- The properties that an expression gives. -/
  spread : RenderNode → String → Option V

/-- Whether a node is one that properties can be added to. -/
def RenderNode.takesProps : RenderNode → Bool
  | .vnode _ => true
  | .call callee _ => callee == .renderSlot
  | _ => false

variable {V : Type} (ρ : PropsReading V)

namespace PropsReading

/-- The entry of a property alone. -/
def entry (p : Property) (name : String) : Option V :=
  if p.name?.getD (ρ.name p.key) = name then some (ρ.value p.value) else none

def object : List Property → String → Option V
  | [], _ => none
  | p :: ps, name => (object ps name).or (ρ.entry p name)

mutual
/-- The properties that a node gives. Normalising and guarding change none of them. -/
def props : RenderNode → String → Option V
  | .object ps, name => ρ.object ps name
  | .call callee args, name =>
    if callee = .mergeProps then merged args name
    else if callee = .normalizeProps ∨ callee = .guardReactiveProps then first args name
    else ρ.spread (.call callee args) name
  | node, name => if node.isEmptyObject then none else ρ.spread node name

def merged : List RenderNode → String → Option V
  | [], _ => none
  | node :: rest, name => (merged rest name).or (props node name)

def first : List RenderNode → String → Option V
  | [], _ => none
  | node :: _, name => props node name
end

/-- The properties of an element, a component or an outlet. -/
def given : RenderNode → String → Option V
  | .vnode v, name => v.props.bind fun node => ρ.props node name
  | .call _ (_ :: _ :: node :: _), name => ρ.props node name
  | _, _ => none

@[simp] theorem props_object (ps) : ρ.props (.object ps) = ρ.object ps := by
  simp [props]

section

variable (args : List RenderNode)

@[simp] theorem props_mergeProps :
    ρ.props (.call .mergeProps args) = ρ.merged args := by
  simp [props]

@[simp] theorem props_normalizeProps :
    ρ.props (.call .normalizeProps args) = ρ.first args := by
  simp [props, (by decide : Helper.normalizeProps ≠ .mergeProps)]

@[simp] theorem props_guardReactiveProps :
    ρ.props (.call .guardReactiveProps args) = ρ.first args := by
  simp [props, (by decide : Helper.guardReactiveProps ≠ .mergeProps)]

end

variable {ρ} {p : Property} {name : String}

theorem object_isSome {ps : List Property} (member : ps.any (·.name? == some name) = true) :
    (ρ.object ps name).isSome = true := by
  induction ps with
  | nil => cases member
  | cons p ps ih =>
    rw [object, isSome_or, Bool.or_eq_true]
    rw [List.any_cons, Bool.or_eq_true] at member
    refine member.symm.imp ih fun here => ?_
    simp [entry, eq_of_beq here]

variable (named : p.name? = some name)
include named

theorem object_addFirst (ps k) : ρ.object (addFirst p ps) k = (ρ.object ps k).or (ρ.entry p k) := by
  rw [addFirst, named]
  dsimp only
  split
  next taken =>
    by_cases same : name = k
    · have given : (ρ.object ps name).isSome = true := object_isSome taken
      rw [← same, or_of_isSome given]
    · simp [entry, named, same]
  · rfl

theorem props_injectInto (node k) :
    ρ.props (injectInto p node) k = (ρ.props node k).or (ρ.entry p k) := by
  fun_induction injectInto p node with
  | case1 ps => simp [object_addFirst named]
  | case2 rest node tail ih => simp [first, ih]
  | case3 rest => simp [first, object]
  | case4 guard inner rest _ ih => simp [first, ih]
  | case5 node rest _ ih => simp [first, ih]
  | case7 ps rest _ => simp [merged, object_addFirst named, Option.or_assoc]
  | case6 | case8 | case9 | case10 => simp [merged, object]

omit named in
theorem props_of_isEmptyObject {node : RenderNode} (empty : node.isEmptyObject = true) (k) :
    ρ.props node k = none := by
  unfold isEmptyObject at empty
  split at empty
  · simp [props, isEmptyObject, empty]
  · cases empty

/-- A node that takes properties takes a further one before those that it has. -/
theorem given_inject {node : RenderNode} (takes : node.takesProps = true) (k) :
    ρ.given (node.inject p) k = (ρ.given node k).or (ρ.entry p k) := by
  have added (props : Option RenderNode) : ρ.props (injectProps p props) k =
      (props.bind fun node => ρ.props node k).or (ρ.entry p k) := by
    cases props with
    | none => simp [injectProps, object]
    | some node => exact props_injectInto named node k
  unfold takesProps at takes
  split at takes
  next v => exact added v.props
  next callee args =>
    rw [inject, if_pos (eq_of_beq takes)]
    split
    next slots name props rest =>
      rw [given, given, added]
      split
      next empty => rw [props_of_isEmptyObject empty, bind_none]
      · rfl
    · simp [given, object]
    · simp [given, object]
    · simp [given, object]
  · cases takes

end PropsReading

/-- Key injection respects existing properties. Whatever expressions stand for, after a key was added
    to an element, a component, a fragment or an outlet its key is the one that its properties gave,
    or the added one if they gave none, and all other properties are as they were. -/
theorem RenderNode.inject_key {node : RenderNode} (takes : node.takesProps = true) {p : Property}
    (isKey : p.name? = some "key") :
    ρ.given (node.inject p) "key" = (ρ.given node "key").or (some (ρ.value p.value)) ∧
      ∀ name, name ≠ "key" → ρ.given (node.inject p) name = ρ.given node name := by
  refine ⟨?_, fun name other => ?_⟩
  · simp [PropsReading.given_inject isKey takes, PropsReading.entry, isKey]
  · simp [PropsReading.given_inject isKey takes, PropsReading.entry, isKey, other.symm]

/-- An outlet that passes on whatever an expression gives. -/
def spreadOutlet : RenderNode :=
  .call .renderSlot [.script "$slots", .string "default",
    .call .normalizeProps [.call .guardReactiveProps [.script "attrs"]]]

/-- A reading in which every expression gives an id. -/
def idReading : PropsReading String where
  value
    | .expr e => e.code
    | _ => ""
  name := Expression.code
  spread _ name := if name = "id" then some "7" else none

theorem spreadOutlet_inject_key :
    spreadOutlet.takesProps = true ∧ (keyProperty 3).name? = some "key" ∧
      idReading.given (spreadOutlet.inject (keyProperty 3)) "key" = some "3" ∧
      idReading.given (spreadOutlet.inject (keyProperty 3)) "id" = some "7" := by
  have takes : spreadOutlet.takesProps = true := rfl
  have isKey : (keyProperty 3).name? = some "key" := rfl
  obtain ⟨key, others⟩ := RenderNode.inject_key idReading takes isKey
  refine ⟨takes, isKey, key.trans ?_, (others "id" (by decide)).trans ?_⟩
  · decide +kernel
  · decide +kernel

end Stencil
