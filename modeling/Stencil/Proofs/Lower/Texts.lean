import Mathlib.Data.List.Perm.Basic
import Stencil.Proofs.Lower.Scripted

/-! # Texts in lowered nodes

The texts of a template stand in its code: by themselves, in runs with interpolations, or in the
creation of text nodes. Keys, runs, fragments and slots move texts about, and drop none as long as
nothing is reported.
-/

namespace Stencil

open List TemplateNode RenderNode

mutual
def TemplateNode.codeTexts : TemplateNode → List TextNode
  | .element el children =>
    match el.lowered with
    | some node => node.texts
    | none => codeTextsAll children
  | .conditional _ lowered _ | .loop _ _ lowered _ => (lowered.map texts).getD []
  | .textCall t => (RenderNode.textCall t).texts
  | .text t => t.shown
  | .interpolation content _ => content.texts
  | .compound c => c.texts
  | .comment _ => []

def TemplateNode.codeTextsAll : List TemplateNode → List TextNode
  | [] => []
  | node :: nodes => node.codeTexts ++ codeTextsAll nodes
end

@[simp] theorem TemplateNode.codeTextsAll_eq (nodes) :
    codeTextsAll nodes = nodes.flatMap codeTexts := by
  induction nodes with
  | nil => rfl
  | cons node nodes ih => rw [codeTextsAll, ih, flatMap_cons]

variable {node : TemplateNode}

/-! ## Keys -/

/-- Code that takes a key without a change to its texts. -/
def RenderNode.Keyable (node : RenderNode) : Prop :=
  ∀ p : Property, p.key.Scripted → p.value.Scripted → (node.inject p).texts = node.texts

namespace RenderNode.Keyable

theorem vnode {v : VNode} (scripted : ∀ props ∈ v.props, props.Scripted) :
    (vnode v).Keyable := by
  intro p key value
  have before : v.props.toList.flatMap texts = [] :=
    texts_scriptedAll fun node member => scripted node (Option.mem_toList.mp member)
  have after := (assembles_scripted.injectProps ⟨key, value⟩ scripted).texts
  simp only [inject, texts_vnode, VNode.parts, flatMap_append, before,
    Option.toList_some, flatMap_singleton, after]

theorem outlet {rest : List RenderNode} (scripted : ∀ props ∈ rest.head?, props.Scripted) :
    (call .renderSlot (slots :: name :: rest)).Keyable := by
  intro p key value
  cases rest with
  | nil => simp [inject, key.texts, value.texts]
  | cons props rest =>
    have before := (scripted props rfl).texts
    have after :
        (injectProps p (if props.isEmptyObject then none else some props)).texts = [] := by
      refine assembles_scripted.injectProps ⟨key, value⟩ ?_
      intro node member
      split at member
      · cases member
      · exact scripted node member
    simp only [inject, if_true, texts_call, flatMap_cons, before, after]

theorem setBlock (keyable : (RenderNode.vnode v).Keyable) (isBlock) :
    (RenderNode.vnode { v with isBlock }).Keyable := by
  intro p key value
  have same := keyable p key value
  simp only [RenderNode.texts_vnode] at same ⊢
  exact same

end RenderNode.Keyable

theorem texts_setBlock (v isBlock) : (vnode { v with isBlock }).texts = (vnode v).texts := by
  simp [VNode.parts]

/-! ## Chains of conditionals -/

/-- A chain of conditionals whose last alternate only fills a place. -/
inductive RenderNode.Unended : RenderNode → Prop
  | last {test consequent stop newline} : stop.Scripted →
      (∀ t c a n, stop ≠ .conditional t c a n) → Unended (.conditional test consequent stop newline)
  | chain {test consequent rest newline} : Unended rest →
      Unended (.conditional test consequent rest newline)

namespace RenderNode.Unended

variable {node alternate : RenderNode}

theorem texts_attachAlternate (unended : node.Unended) (alternate) :
    (node.attachAlternate alternate).texts = node.texts ++ alternate.texts := by
  induction unended with
  | last filler ends =>
    rw [attachAlternate]
    · simp [filler.texts]
    · exact ends
  | @chain test consequent rest newline inner ih =>
    have same : (conditional test consequent rest newline).attachAlternate alternate =
        .conditional test consequent (rest.attachAlternate alternate) newline := by
      cases inner <;> rfl
    simp [same, ih]

theorem attachAlternate (unended : node.Unended) (further : alternate.Unended) :
    (node.attachAlternate alternate).Unended := by
  induction unended with
  | last _ ends =>
    rw [RenderNode.attachAlternate]
    · exact .chain further
    · exact ends
  | chain inner ih => cases inner <;> exact .chain ih

end RenderNode.Unended

/-- What is known of a lowered element in a clean run. -/
structure Element.Settled (el : Element) : Prop where
  scripted : ScriptedDirectives el.props
  keyable : ∀ code ∈ el.lowered, code.Keyable
  template : el.kind = .template → el.lowered = none
  unconditional : el.isSlotTemplate = false → el.has "if" = false ∧ el.has "else-if" = false
  looped : el.isSlotTemplate = true → ∀ d, el.find? "for" = some d → d.loop.isSome = true

/-- What is known of a lowered node in a clean run: it takes a key, or a further branch if it is a
    conditional that has not ended. -/
def TemplateNode.Settled : TemplateNode → Prop
  | .element el _ => el.Settled
  | .conditional branches lowered _ =>
    branches.getLast?.any (·.condition.isSome) = true → ∃ code, lowered = some code ∧ code.Unended
  | .loop _ _ lowered _ => ∀ code ∈ lowered, code.Keyable
  | _ => True

namespace Lower

/-! ## Code -/

theorem texts_fragment (id nodes) : (vnode (fragment id nodes)).texts = nodes.flatMap texts := by
  simp [fragment, VNode.parts, VNode.new, Tag.parts, Children.parts]

mutual
theorem gives_code : (node : TemplateNode) →
    Gives (code node) fun result => result.texts = node.codeTexts
  | .element el children => by
      rw [code, codeTexts]
      cases el.lowered with
      | some node => exact .pure rfl
      | none =>
        rw [codeTextsAll_eq]
        refine (Gives.trivial _).bind fun id _ => (gives_codes children).bind fun nodes same => ?_
        exact .pure ((texts_fragment id nodes).trans same)
  | .text t | .interpolation content _ | .comment c | .textCall t => by
      rw [codeTexts]
      exact .pure (by simp)
  | .compound c => by
      rw [codeTexts]
      exact .pure (by simp [Expression.texts])
  | .conditional branches lowered _ => by
      rw [codeTexts]
      cases lowered <;> exact .pure (by simp)
  | .loop head children lowered _ => by
      rw [codeTexts]
      cases lowered <;> exact .pure (by simp)

theorem gives_codes : (nodes : List TemplateNode) → Gives (codes nodes) fun results =>
    results.flatMap texts = nodes.flatMap codeTexts
  | [] => .pure rfl
  | node :: nodes => by
      rw [flatMap_cons]
      refine (gives_code node).bind fun first here => (gives_codes nodes).bind fun rest others => ?_
      exact .pure (by rw [flatMap_cons, here, others])
end

/-! ## Runs of text -/

theorem texts_run (run : (node.isText || node.isCompound) = true) :
    node.run.texts = node.codeTexts := by
  cases node with
  | text | interpolation | compound =>
    simp [TemplateNode.run, Compound.texts, Part.texts, codeTexts]
  | _ => cases run

theorem texts_join (a b : Compound) : (a.join b).texts = a.texts ++ b.texts := by
  obtain ⟨parts, level, source, span⟩ := a
  obtain ⟨parts', level', source', span'⟩ := b
  simp [Compound.join, Compound.texts, Part.texts]

theorem texts_joinRuns (nodes) : (joinRuns nodes).flatMap codeTexts = nodes.flatMap codeTexts := by
  refine flatMap_joinRuns (fun last node joins isText => ?_) nodes
  have here : node.run.texts = node.codeTexts := texts_run (by simp [isText])
  rw [codeTexts, texts_join, texts_run joins, here]

theorem gives_toTextCall_texts (node) :
    Gives (toTextCall node) fun result => result.codeTexts = node.codeTexts := by
  have call (content : Option RenderNode) (level : Constancy) (span : Span) :
      Gives (textCall content level span) fun result =>
        result.codeTexts = content.toList.flatMap RenderNode.texts :=
    (Gives.trivial _).bind fun id _ => .pure (by simp [codeTexts])
  cases node with
  | text t =>
    refine (call _ _ _).mono fun result same => same.trans ?_
    split
    next space =>
      have isSpace : t.isSpace = true := by
        simp only [TextNode.isSpace, eq_of_beq space]
        decide
      simp [codeTexts, TextNode.shown, isSpace]
    · simp [codeTexts]
  | interpolation content span =>
    exact (call _ _ _).mono fun result same => same.trans (by simp [codeTexts])
  | compound c =>
    refine (call _ _ _).mono fun result same => same.trans ?_
    simp [codeTexts, Expression.texts]
  | _ => exact .pure rfl

theorem gives_mergeText_texts (direct nodes) :
    Gives (mergeText direct nodes) fun result =>
      result.flatMap codeTexts = nodes.flatMap codeTexts := by
  unfold mergeText
  rw [← texts_joinRuns]
  dsimp only
  split
  · exact .pure rfl
  · refine (gives_toTextCalls gives_toTextCall_texts _).mono fun calls same => ?_
    generalize joinRuns nodes = joined at same ⊢
    induction same with
    | nil => rfl
    | cons here _ ih => rw [flatMap_cons, flatMap_cons, here, ih]

/-! ## Steps that report nothing -/

section
variable {α β : Type}

/-- A step that adds to what is reported. If nothing is reported up to its end, and no rule drops
    siblings, its result has the property `P`. -/
def Clean (act : Lower α) (P : α → Prop) : Prop :=
  ∀ (o : Options) (c : Context), (∀ attr, .dropNext attr ∉ o.nodeRules) →
    c.diagnostics <+: (exec act o c).2.diagnostics ∧
      ((exec act o c).2.diagnostics = [] → P (exec act o c).1)

namespace Clean

variable {act : Lower α} {P R : α → Prop} {Q : β → Prop}

theorem pure (holds : P a) : Clean (Pure.pure a) P :=
  fun _ _ _ => ⟨prefix_refl _, fun _ => holds⟩

/-- Two steps, one after the other. What always holds after the first one may be relied on by the
    second one as it runs, what holds in a clean run only by its result. -/
theorem bind_of {next} (first : Clean act P) (always : Gives act R)
    (second : ∀ a, R a → Clean (next a) fun b => P a → Q b) :
    Clean (act >>= next) Q := by
  intro o c keeps
  obtain ⟨grows, holds⟩ := first o c keeps
  obtain ⟨grows', holds'⟩ := second _ (always o c) o (exec act o c).2 keeps
  refine ⟨grows.trans grows', fun clean => holds' clean (holds ?_)⟩
  exact prefix_nil.mp (clean ▸ grows')

theorem bind {next} (first : Clean act P) (second : ∀ a, Clean (next a) fun b => P a → Q b) :
    Clean (act >>= next) Q :=
  first.bind_of (.trivial act) fun a _ => second a

theorem mono (clean : Clean act P) (weaker : ∀ a, P a → R a) :
    Clean act R :=
  fun o c keeps => ⟨(clean o c keeps).1, fun none => weaker _ ((clean o c keeps).2 none)⟩

theorem and (clean : Clean act P) (gives : Gives act R) :
    Clean act fun a => P a ∧ R a :=
  fun o c keeps => ⟨(clean o c keeps).1, fun none => ⟨(clean o c keeps).2 none, gives o c⟩⟩

/-- A step that is known to add to what is reported, whatever it gives. -/
theorem of_binds (scope' : List ScopeVar → List ScopeVar) {R : Setting → List ScopeVar → α → Prop}
    (binds : ∀ S scope, Binds S scope act (scope' scope) (R S scope)) (gives : Gives act P) :
    Clean act P :=
  fun o c _ => ⟨(binds ⟨o, True, [], []⟩ c.scope c rfl).1.diagnostics, fun _ => gives o c⟩

theorem of_yields {R : Setting → List ScopeVar → α → Prop}
    (yields : ∀ S scope, Yields S scope act (R S scope)) (gives : Gives act P) : Clean act P :=
  of_binds id yields gives

theorem report (d) : Clean (report d) fun _ => False := by
  refine fun o c _ => ⟨prefix_append _ _, fun none => ?_⟩
  simp [Context.report] at none

theorem error (cause span) : Clean (error cause span) fun _ => False :=
  report _

theorem read : Clean read fun o => ∀ attr, .dropNext attr ∉ o.nodeRules :=
  fun _ _ keeps => ⟨prefix_refl _, fun _ => keeps⟩

theorem get : Clean get fun _ => True :=
  fun _ _ _ => ⟨prefix_refl _, fun _ => trivial⟩

theorem fresh : Clean fresh fun _ => True :=
  fun _ _ _ => ⟨prefix_refl _, fun _ => trivial⟩

variable (clean : Clean act P)
include clean

theorem inScope : Clean (inScope act) P :=
  clean

theorem inLoop : Clean (inLoop act) P :=
  fun o c => clean o { c with loopDepth := c.loopDepth + 1 }

theorem inSlot : Clean (inSlot act) P :=
  fun o c => clean o { c with slotDepth := c.slotDepth + 1 }

end Clean

end

theorem Gives.of_yields {α : Type} {act} {P : α → Prop} (yields : ∀ S scope, Yields S scope act P) :
    Gives act P := by
  intro o c
  obtain ⟨-, -, holds⟩ := yields ⟨o, False, [], []⟩ c.scope c rfl
  exact holds False.elim

theorem clean_code (node) : Clean (code node) fun result => result.texts = node.codeTexts :=
  .of_yields (fun _ _ => yields_code node) (gives_code node)

theorem clean_codes (nodes) : Clean (codes nodes) fun results =>
    results.flatMap texts = nodes.flatMap codeTexts :=
  .of_yields (fun _ _ => yields_codes nodes) (gives_codes nodes)

end Lower

end Stencil
