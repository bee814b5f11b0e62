import Mathlib.Data.List.Chain
import Stencil.Proofs.Lower.PatchFlags

/-! # What runs of text show

Texts and interpolations are joined, and runs become calls. What siblings show stays the same, in the
same order, and no two texts stay next to each other.
-/

namespace Stencil

open List

/-- What siblings show, one after another. -/
inductive RunItem
  | text (t : TextNode)
  | interpolation (content : Expression) (span : Span)
  /-- A node that is no text, as it stands. -/
  | other (node : TemplateNode)

def RunItem.isInterpolation : RunItem → Bool
  | .interpolation _ _ => true
  | .text _ | .other _ => false

def Part.item? : Part → Option RunItem
  | .text t => some (.text t)
  | .interpolation content span => some (.interpolation content span)
  | .raw _ | .expr _ | .helper _ => none

def Compound.items (c : Compound) : List RunItem :=
  c.parts.filterMap Part.item?

/-- The content of a text call. Without content it is a space. -/
def TextCall.items (t : TextCall) : List RunItem :=
  match t.content with
  | none => [.text ⟨" ", t.span⟩]
  | some (.text t) => [.text t]
  | some (.interpolation content span) => [.interpolation content span]
  | some (.expr (.compound c)) => c.items
  | some _ => []

namespace TemplateNode

def items : TemplateNode → List RunItem
  | .text t => [.text t]
  | .interpolation content span => [.interpolation content span]
  | .compound c => c.items
  | .textCall t => t.items
  | node => [.other node]

def isTextCall : TemplateNode → Bool
  | .textCall _ => true
  | _ => false

def isTextLike (node : TemplateNode) : Bool :=
  node.isText || node.isCompound || node.isTextCall

/-- Two neighbours of which one is no text. -/
def Apart (a b : TemplateNode) : Prop :=
  (a.isTextLike && b.isTextLike) = false

variable {node : TemplateNode}

variable (run : (node.isText || node.isCompound) = true)
include run

theorem items_run : node.run.items = node.items := by
  cases node with
  | text | interpolation | compound => rfl
  | _ => cases run

theorem any_items :
    node.items.any RunItem.isInterpolation = node.interpolates := by
  rw [← items_run run, Compound.items, any_filterMap]
  congr 1
  funext p
  cases p with
  | _ => rfl

end TemplateNode

theorem Compound.items_join (a b : Compound) : (a.join b).items = a.items ++ b.items := by
  simp [items, join, filterMap_cons, Part.item?]

namespace Lower

/-! ## Joined runs -/

theorem items_joinRuns (nodes) :
    (joinRuns nodes).flatMap TemplateNode.items = nodes.flatMap TemplateNode.items := by
  refine flatMap_joinRuns (fun last node joins isText => ?_) nodes
  have here : node.run.items = node.items := TemplateNode.items_run (by simp [isText])
  rw [TemplateNode.items, Compound.items_join, TemplateNode.items_run joins, here]

/-- A text that does not join the run before it follows no text. -/
theorem apart_addToRuns (calls : ∀ n ∈ done, n.isTextCall = false)
    (single : node.isCompound = false ∧ node.isTextCall = false)
    (apart : done.IsChain TemplateNode.Apart) : (addToRuns done node).IsChain TemplateNode.Apart := by
  unfold addToRuns
  split
  next isText =>
    split
    next last rest =>
      have lastLike : last.isTextLike = (last.isText || last.isCompound) := by
        simp [TemplateNode.isTextLike, calls last]
      split
      next joins =>
        -- The joined run stands where the text before it stood.
        refine apart.imp_head fun before => ?_
        rwa [TemplateNode.Apart, lastLike, joins] at before
      next stays =>
        refine .cons_cons ?_ apart
        simp [TemplateNode.Apart, lastLike, stays]
    · exact .singleton _
  next other =>
    have notLike : node.isTextLike = false := by simp [TemplateNode.isTextLike, other, single]
    exact isChain_cons.mpr ⟨fun _ _ => by simp [TemplateNode.Apart, notLike], apart⟩

theorem apart_joinRuns
    (single : ∀ node ∈ nodes, node.isCompound = false ∧ node.isTextCall = false) :
    (joinRuns nodes).IsChain TemplateNode.Apart := by
  have folded : ∀ done : List TemplateNode, (∀ n ∈ done, n.isTextCall = false) →
      done.IsChain TemplateNode.Apart → (nodes.foldl addToRuns done).IsChain TemplateNode.Apart := by
    induction nodes with
    | nil => exact fun _ _ => id
    | cons node nodes ih =>
      intro done calls apart
      obtain ⟨here, later⟩ := forall_mem_cons.mp single
      refine ih later _ ?_ (apart_addToRuns calls here apart)
      obtain same | ⟨last, rest, rfl, -, -, same⟩ := addToRuns_cases done node
      · exact same ▸ forall_mem_cons.mpr ⟨here.2, calls⟩
      · exact same ▸ forall_mem_cons.mpr ⟨rfl, (forall_mem_cons.mp calls).2⟩
  rw [joinRuns, isChain_reverse]
  refine (folded [] (by simp) .nil).imp fun a b apart => ?_
  rwa [TemplateNode.Apart, Bool.and_comm]

/-! ## Text calls -/

/-- What a node becomes when runs become text calls. -/
structure Calls (node call : TemplateNode) : Prop where
  items : call.items = node.items
  isTextLike : call.isTextLike = node.isTextLike
  flag : node.isTextCall = false → ∀ t, call = .textCall t →
    (node.isText || node.isCompound) = true ∧ t.flag = if node.isDynamicText then .text else .empty

theorem calls_toTextCall (node) : Gives (toTextCall node) (Calls node) := by
  have made {content : Option RenderNode} {level : Constancy} {span : Span}
      (run : (node.isText || node.isCompound) = true) (dynamic : (level == .dynamic) = node.isDynamicText)
      (items : ∀ id flag, (TextCall.mk id content flag span).items = node.items) :
      Gives (textCall content level span) (Calls node) := by
    refine (Gives.trivial _).bind fun id _ => .pure ⟨items _ _, ?_, ?_⟩
    · simp [TemplateNode.isTextLike, TemplateNode.isTextCall, run]
    · rintro - _ ⟨⟩
      exact ⟨run, by rw [dynamic]⟩
  cases node with
  | text t =>
    refine made rfl rfl fun _ _ => ?_
    split
    next space =>
      simp [TextCall.items, TemplateNode.items, ← eq_of_beq space]
    · rfl
  | interpolation => exact made rfl rfl fun _ _ => rfl
  | compound => exact made rfl rfl fun _ _ => rfl
  | textCall => exact .pure ⟨rfl, rfl, by simp [TemplateNode.isTextCall]⟩
  | _ => exact .pure ⟨rfl, rfl, by simp⟩

theorem calls_mergeText (direct nodes) :
    Gives (mergeText direct nodes) fun merged =>
      merged = joinRuns nodes ∨ List.Forall₂ Calls (joinRuns nodes) merged := by
  unfold mergeText
  dsimp only
  split
  · exact .pure (.inl rfl)
  · exact (gives_toTextCalls calls_toTextCall _).mono fun _ => .inr

/-- What a call has in common with its run, all calls have in common with their runs. -/
theorem map_eq_of_calls {α : Type} {f : TemplateNode → α}
    (same : ∀ {node call}, Calls node call → f call = f node)
    (all : List.Forall₂ Calls nodes calls) : calls.map f = nodes.map f := by
  induction all with
  | nil => rfl
  | cons here _ ih => rw [map_cons, map_cons, same here, ih]

theorem apart_iff (nodes : List TemplateNode) : nodes.IsChain TemplateNode.Apart ↔
    (nodes.map TemplateNode.isTextLike).IsChain fun a b => (a && b) = false := by
  rw [isChain_map]
  rfl

/-- Merging text preserves content and order. Whatever their container takes, siblings that have no
    joined runs yet show the same texts, interpolations and other nodes in the same order. After it
    no two texts stand next to each other, and the flag of a text call tells of its
    interpolations. -/
theorem mergeText_items (direct : Bool)
    (single : ∀ node ∈ nodes, node.isCompound = false ∧ node.isTextCall = false) (o : Options)
    (c : Context) : let merged := (exec (mergeText direct nodes) o c).1
    merged.flatMap TemplateNode.items = nodes.flatMap TemplateNode.items ∧
      merged.IsChain (fun a b => (a.isTextLike && b.isTextLike) = false) ∧
      ∀ t, .textCall t ∈ merged →
        t.flag = if t.items.any RunItem.isInterpolation then .text else .empty := by
  have noCalls : ∀ node ∈ joinRuns nodes, node.isTextCall = false :=
    forall_mem_joinRuns (fun node member => (single node member).2) fun _ _ _ _ _ _ => rfl
  intro merged
  rcases calls_mergeText direct nodes o c with same | all
  · rw [show merged = joinRuns nodes from same]
    refine ⟨items_joinRuns nodes, apart_joinRuns single, fun t member => ?_⟩
    cases noCalls _ member
  · refine ⟨?_, ?_, fun t member => ?_⟩
    · rw [← items_joinRuns nodes, flatMap_def, flatMap_def, map_eq_of_calls Calls.items all]
    · refine (apart_iff merged).mpr ?_
      rw [map_eq_of_calls Calls.isTextLike all]
      exact (apart_iff _).mp (apart_joinRuns single)
    obtain ⟨node, inside, calls⟩ := exists_of_mem_forall₂ all member
    obtain ⟨run, flag⟩ := calls.flag (noCalls node inside) t rfl
    have shows := isDynamicText_joinRuns (fun node member => (single node member).1) node inside
    have items : t.items = node.items := calls.items
    rw [flag, shows, items, TemplateNode.any_items run]

/-- A run of three, a comment and a space. -/
def mixedSiblings : List TemplateNode :=
  [.text ⟨"a ", .empty⟩, .interpolation (.snippet "b" false .empty) .empty, .text ⟨"!", .empty⟩,
    .comment ⟨"c", .empty⟩, .text ⟨" ", .empty⟩]

theorem mixedSiblings_mergeText_items :
    (∀ node ∈ mixedSiblings, node.isCompound = false ∧ node.isTextCall = false) ∧
      (exec (mergeText false mixedSiblings) {} {}).1.length = 3 ∧
      (exec (mergeText false mixedSiblings) {} {}).1.flatMap TemplateNode.items =
        mixedSiblings.flatMap TemplateNode.items := by
  have single : ∀ node ∈ mixedSiblings, node.isCompound = false ∧ node.isTextCall = false := by
    simp [mixedSiblings, TemplateNode.isCompound, TemplateNode.isTextCall]
  exact ⟨single, rfl, (mergeText_items false single {} {}).1⟩

end Lower

end Stencil
