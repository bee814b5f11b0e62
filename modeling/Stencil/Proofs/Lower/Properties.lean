import Stencil.Lower.Props

/-! # Putting properties together

The properties of an element are merged into objects, joined by calls and normalised. What holds of
all keys and values holds of the result, if it is kept by objects, arrays and these calls.
-/

namespace Stencil

open List Option

section Merging

variable {G T : Property → Prop} (first : ∀ p, G p → T p)
  (further : ∀ p q, T p → G q → p.name? = q.name? → T (p.addValue q.value))

include first further

theorem forall_mem_insertProperty (done : ∀ q ∈ ps, T q) (new : G p) :
    ∀ q ∈ insertProperty ps p, T q := by
  have last : ∀ q ∈ ps ++ [p], T q :=
    forall_mem_append.mpr ⟨done, by simpa using first p new⟩
  unfold insertProperty
  split
  · exact last
  next name named =>
    split
    next present =>
      split
      · clear last present
        induction ps with
        | nil => simp [modifyNamed]
        | cons q ps ih =>
          obtain ⟨head, tail⟩ := forall_mem_cons.mp done
          unfold modifyNamed
          split
          next same =>
            exact forall_mem_cons.mpr ⟨further q p head new (same.trans named.symm), tail⟩
          · exact forall_mem_cons.mpr ⟨head, ih tail⟩
      · exact done
    · exact last

/-- What holds of each property, and is kept when it takes a further value, holds of the merged
    ones. -/
theorem forall_mem_mergeProperties (all : ∀ p ∈ ps, G p) : ∀ p ∈ mergeProperties ps, T p := by
  suffices ∀ done : List Property, (∀ p ∈ done, T p) → ∀ p ∈ ps.foldl insertProperty done, T p from
    this [] (by simp)
  induction ps with
  | nil => exact fun _ => id
  | cons p ps ih =>
    intro done doneHolds
    obtain ⟨head, tail⟩ := forall_mem_cons.mp all
    exact ih tail _ (forall_mem_insertProperty first further doneHolds head)

end Merging

/-- Properties of keys and of nodes that are kept when properties are put together. -/
structure Assembles (R : Expression → Prop) (P : RenderNode → Prop) : Prop where
  object {ps : List Property} : P (.object ps) ↔ ∀ p ∈ ps, R p.key ∧ P p.value
  array {nodes : List RenderNode} : P (.array nodes) ↔ ∀ node ∈ nodes, P node
  call {callee : Helper} {node : RenderNode} : P node → P (.call callee [node])
  merge {nodes : List RenderNode} : (∀ node ∈ nodes, P node) → P (.call .mergeProps nodes)
  args {callee : Helper} {args : List RenderNode} : P (.call callee args) → ∀ arg ∈ args, P arg
  first {callee : Helper} {node node' : RenderNode} {rest : List RenderNode} :
    P (.call callee (node :: rest)) → P node' → P (.call callee (node' :: rest))

namespace Assembles

variable (assembles : Assembles R P)
include assembles

theorem addValue {p : Property} (holds : R p.key ∧ P p.value) (valueHolds : P value) :
    R (p.addValue value).key ∧ P (p.addValue value).value := by
  unfold Property.addValue
  split
  next values found =>
    rw [found, assembles.array] at holds
    refine ⟨holds.1, assembles.array.mpr (forall_mem_append.mpr ⟨holds.2, ?_⟩)⟩
    simpa using valueHolds
  · refine ⟨holds.1, assembles.array.mpr ?_⟩
    simpa using ⟨holds.2, valueHolds⟩

theorem mergeProperties (holds : ∀ p ∈ ps, R p.key ∧ P p.value) :
    ∀ p ∈ mergeProperties ps, R p.key ∧ P p.value :=
  forall_mem_mergeProperties (fun _ => id) (fun _ _ old new _ => assembles.addValue old new.2) holds

theorem normalizeProperty (bindsStyle) {p : Property} (holds : R p.key ∧ P p.value) :
    R (normalizeProperty bindsStyle p).key ∧ P (normalizeProperty bindsStyle p).value := by
  unfold Stencil.normalizeProperty
  split
  · split
    · exact holds
    · exact ⟨holds.1, assembles.call holds.2⟩
  · split
    · exact ⟨holds.1, assembles.call holds.2⟩
    · exact holds
  · exact holds

theorem normalizeProps (bindsStyle) (holds : P props) : P (normalizeProps bindsStyle props) := by
  unfold Stencil.normalizeProps
  split
  · split
    · exact assembles.call holds
    · refine assembles.object.mpr fun q member => ?_
      obtain ⟨p, inside, rfl⟩ := mem_map.mp member
      exact assembles.normalizeProperty bindsStyle (assembles.object.mp holds p inside)
  · exact holds
  · exact assembles.call (assembles.call holds)

end Assembles

/-- Everything in the properties read so far has the properties asked of keys and nodes. -/
structure PropsBuild.Holds (R : Expression → Prop) (P : RenderNode → Prop) (b : PropsBuild) :
    Prop where
  pending : ∀ p ∈ b.pending, R p.key ∧ P p.value
  merged : ∀ node ∈ b.merged, P node

namespace PropsBuild.Holds

variable {b : PropsBuild}

theorem empty : PropsBuild.Holds R P {} :=
  ⟨by simp, by simp⟩

variable (holds : b.Holds R P)
include holds

theorem flush (assembles : Assembles R P) : b.flush.Holds R P := by
  unfold PropsBuild.flush
  split
  · exact holds
  · refine ⟨by simp, forall_mem_append.mpr ⟨holds.merged, ?_⟩⟩
    simpa using assembles.object.mpr (assembles.mergeProperties holds.pending)

theorem addPart (assembles : Assembles R P) (nodeHolds : P node) : (b.addPart node).Holds R P :=
  ⟨(holds.flush assembles).pending,
    forall_mem_append.mpr ⟨(holds.flush assembles).merged, by simpa using nodeHolds⟩⟩

theorem addPending (new : ∀ p ∈ ps, R p.key ∧ P p.value) :
    PropsBuild.Holds R P { b with pending := b.pending ++ ps } :=
  ⟨forall_mem_append.mpr ⟨holds.pending, new⟩, holds.merged⟩

theorem survey (survey) : PropsBuild.Holds R P { b with survey } :=
  ⟨holds.pending, holds.merged⟩

theorem directives (directives) : PropsBuild.Holds R P { b with directives } :=
  ⟨holds.pending, holds.merged⟩

theorem expression? (assembles : Assembles R P) :
    ∀ node ∈ b.expression?, P node := by
  intro node member
  unfold PropsBuild.expression? at member
  split at member
  · split at member
    · cases member
    · obtain rfl := some.inj member
      exact assembles.object.mpr (assembles.mergeProperties holds.pending)
  · have flushed := (holds.flush assembles).merged
    split at member
    next one found =>
      obtain rfl := some.inj member
      exact flushed one (found ▸ mem_singleton.mpr rfl)
    · obtain rfl := some.inj member
      exact assembles.merge flushed

end PropsBuild.Holds

/-- What a directive is run with, given the node that stands for the directive itself. -/
def Directive.arguments (dir : Directive) (first : RenderNode) : RenderNode :=
  .array (first ::
    (match dir.exp with
      | some e => [.expr e]
      | none => if dir.arg.isSome || !dir.modifiers.isEmpty then [.script "void 0"] else []) ++
    (match dir.arg with
      | some a => [.expr a]
      | none => if dir.modifiers.isEmpty then [] else [.script "void 0"]) ++
    if dir.modifiers.isEmpty then []
      else [.object (dir.modifiers.map (Lower.modifierFlag dir.span))])

end Stencil
