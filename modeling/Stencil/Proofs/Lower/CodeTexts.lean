import Stencil.Proofs.Lower.SlotLayout

/-! # Texts in elements, branches and loops

The code of an element, of a branch or of a loop has the texts of the lowered nodes that it is made
from, if nothing is reported.
-/

namespace Stencil.Lower

open List TemplateNode RenderNode

variable {el : Element}

/-! ## Elements -/

section

variable (scripted : ScriptedDirectives el.props) (children : List TemplateNode)
include scripted

theorem clean_lowerChildren :
    Clean (lowerChildren el children) fun r => (∀ node ∈ children, node.Settled) →
      (((r.1.map Children.parts).getD []).flatMap texts).Perm
        (children.flatMap codeTexts) := by
  unfold lowerChildren
  split
  · exact .pure fun _ => .refl _
  next first rest =>
    split
    · refine (clean_buildSlots el _).bind fun built => .pure fun placed settled => ?_
      obtain ⟨b, rfl, places⟩ := placed settled
      simpa [Children.parts] using texts_places places scripted settled
    · split
      next single =>
        refine (clean_code first).bind fun node => .pure fun same _ => ?_
        rw [List.isEmpty_iff.mp single, flatMap_singleton, ← same]
        split <;> simp [Children.parts]
      · refine (clean_codes _).bind fun nodes => .pure fun same _ => ?_
        rw [← same]
        simp [Children.parts]

/-- The texts of an element are those of its children: its tag, properties and directives have
    none. -/
theorem clean_lowerElement :
    Clean (lowerElement el children) fun code => (∀ node ∈ children, node.Settled) →
      code.texts.Perm (children.flatMap codeTexts) ∧ code.Keyable := by
  have around (S : Setting) (scope : List ScopeVar) := Setting.Around.ofScope S scope
  have tagged : Clean (resolveTag el) fun _ => True :=
    .of_yields (fun S scope => yields_resolveTag el (around S scope)) (.trivial _)
  have props : Clean (lowerProps el) fun _ => True :=
    .of_yields (fun S scope => (scripting_emitted (around S scope)).lowerProps el) (.trivial _)
  have directives (ds : List RuntimeDirective) : Clean (runtimeArgumentList ds) fun _ => True :=
    .of_yields (fun S scope => yields_runtimeArgumentList ds (around S scope)) (.trivial _)
  refine tagged.bind_of (gives_resolveTag scripted) fun tag tagParts => ?_
  refine Clean.fresh.bind fun id => ?_
  refine props.bind_of (gives_lowerProps scripted) fun props holds => ?_
  refine (directives _).bind_of (gives_runtimeArgumentList holds.2) fun arguments scripts => ?_
  refine (clean_lowerChildren scripted children).bind fun content => .pure ?_
  intro kept _ _ _ _ settled
  have noDirectives : ((if arguments.isEmpty then none else some arguments).getD []).flatMap
      texts = [] := by
    split
    · rfl
    · exact texts_scriptedAll scripts
  have noProps : props.props.toList.flatMap texts = [] :=
    texts_scriptedAll fun node member => holds.1 node (Option.mem_toList.mp member)
  refine ⟨?_, .vnode holds.1⟩
  simp only [texts_vnode, VNode.parts, VNode.new, flatMap_append,
    texts_scriptedAll tagParts, noProps, noDirectives, nil_append, append_nil]
  exact kept settled

theorem clean_lowerOutlet :
    Clean (lowerOutlet el children) fun code =>
      code.texts.Perm (children.flatMap codeTexts) ∧ code.Keyable := by
  have outlet := (scripting_scripted {}).scripting.outlet (q := {}) scripted.ready
    (texts_string _) (by rintro _ ⟨⟩)
  have props (props : List ElementProp) : Clean (outletProps el props) fun _ => True :=
    .of_yields (fun S scope => (scripting_emitted (.ofScope S scope)).outletProps el props)
    (.trivial _)
  have fallback : Clean (outletFallback children) fun r =>
      r.toList.flatMap texts = children.flatMap codeTexts := by
    unfold outletFallback
    split
    next none => exact .pure (by rw [List.isEmpty_iff.mp none]; rfl)
    · refine (clean_codes children).bind fun nodes => .pure fun same => ?_
      simpa using same
  refine Clean.read.bind fun o => ?_
  refine (props _).bind_of
    (.of_steady fun o => (scripting_scripted o).steady_outletProps outlet.2 el)
    fun props holds => ?_
  refine fallback.bind fun fallback => .pure fun same _ _ => ?_
  rw [← same]
  have noName := outlet.1.texts
  cases props with
  | none =>
    cases fallback with
    | none => exact ⟨by simp [noName], .outlet (by simp)⟩
    | some f => exact ⟨by simp [noName], .outlet (by simp [RenderNode.Scripted])⟩
  | some node =>
    have noProps := (holds node rfl).texts
    have head : ∀ props ∈ some node, props.Scripted := by simpa using holds node rfl
    cases fallback with
    | none => exact ⟨by simp [noName, noProps], .outlet head⟩
    | some f => exact ⟨by simp [noName, noProps], .outlet head⟩

end

/-! ## Conditionals and loops -/

theorem gives_code_keyable (only : node.isElement = true ∨ ∃ head children lowered span,
      node = .loop head children lowered span) :
    Gives (code node) fun result => node.Settled → result.Keyable := by
  rcases only with isElement | ⟨head, children, lowered, span, rfl⟩
  · cases node with
    | element el children =>
      rw [code]
      split
      next lowered found => exact .pure fun settled => Element.Settled.keyable settled _ found
      · refine (Gives.trivial _).bind fun id _ => (Gives.trivial _).bind fun nodes _ => ?_
        exact .pure fun _ => .vnode (by simp [fragment, VNode.new])
    | _ => cases isElement
  · refine .pure fun settled => ?_
    cases lowered with
    | some node => exact settled node rfl
    | none => exact fun p _ _ => rfl

theorem clean_branchContent (b key) :
    Clean (branchContent b key) fun code => (∀ node ∈ b.children, node.Settled) →
      code.texts = b.children.flatMap codeTexts := by
  have keyed (node : RenderNode) (keyable : node.Keyable) :
      (node.inject (keyProperty key)).texts = node.texts := keyable _ .simple (texts_constant _ _)
  unfold branchContent
  split
  next el children same =>
    have coded := (clean_code (.element el children)).and (gives_code_keyable (.inl rfl))
    refine coded.bind fun node => ?_
    rw [same]
    split
    next v =>
      refine .pure ?_
      rintro ⟨texts, keyable⟩ settled
      have keyable := keyable (settled _ mem_cons_self)
      rw [keyed _ (keyable.setBlock true), texts_setBlock, texts, flatMap_singleton]
    · refine .pure ?_
      rintro ⟨texts, keyable⟩ settled
      rw [keyed _ (keyable (settled _ mem_cons_self)), texts, flatMap_singleton]
  next head children lowered span same =>
    have coded := (clean_code (.loop head children lowered span)).and
      (gives_code_keyable (.inr ⟨_, _, _, _, rfl⟩))
    refine coded.bind fun node => .pure ?_
    rintro ⟨texts, keyable⟩ settled
    rw [same] at settled
    rw [same, keyed _ (keyable (settled _ mem_cons_self)), texts, flatMap_singleton]
  · refine Clean.fresh.bind fun id => (clean_codes b.children).bind fun nodes => .pure ?_
    intro same _ _
    rw [← same]
    simp [fragment, VNode.parts, VNode.new, Tag.parts, Children.parts, keyProperty, Property.named,
      Expression.snippet, Expression.texts]

theorem clean_branchCode (b key) :
    Clean (branchCode b key) fun code => (∀ e ∈ b.condition, e.Scripted) →
      (∀ node ∈ b.children, node.Settled) → code.texts = b.children.flatMap codeTexts ∧
        (b.condition.isSome = true → code.Unended) := by
  refine (clean_branchContent b key).bind fun content => ?_
  split
  next e found =>
    refine .pure fun same condition settled => ⟨?_, fun _ => .last (.call ?_) (by rintro _ _ _ _ ⟨⟩)⟩
    · simp [(condition e found).texts, same settled]
    · simp [RenderNode.Scripted]
  next none => exact .pure fun same _ settled => ⟨same settled, by simp [none]⟩

theorem clean_startConditional (b done) :
    Clean (startConditional b done) fun node => (∀ e ∈ b.condition, e.Scripted) →
      (∀ node ∈ b.children, node.Settled) → node.codeTexts = b.children.flatMap codeTexts ∧ node.Settled ∧
        node.isIgnorable = false := by
  refine (clean_branchCode b _).bind fun code => .pure fun holds condition settled => ?_
  obtain ⟨same, unended⟩ := holds condition settled
  refine ⟨by simp [codeTexts, same], ?_, rfl⟩
  exact fun isOpen => ⟨code, rfl, unended (by simpa using isOpen)⟩

theorem clean_extendConditional (b c) :
    Clean (extendConditional c b) fun node => (∀ e ∈ b.condition, e.Scripted) →
      (∃ code, c.lowered = some code ∧ code.Unended) → (∀ node ∈ b.children, node.Settled) →
      node.codeTexts = c.lowered.toList.flatMap texts ++
        b.children.flatMap codeTexts ∧ node.Settled ∧ node.isIgnorable = false := by
  refine (clean_branchCode b _).bind fun code => .pure fun holds condition chain settled => ?_
  obtain ⟨same, further⟩ := holds condition settled
  obtain ⟨lowered, found, unended⟩ := chain
  refine ⟨?_, fun isOpen => ⟨lowered.attachAlternate code, by simp [found], ?_⟩, rfl⟩
  · simp [codeTexts, found, unended.texts_attachAlternate, same]
  · exact unended.attachAlternate (further (by simpa using isOpen))

theorem clean_itemCode (children) (scripted : ∀ p ∈ key, p.key.Scripted ∧ p.value.Scripted)
    (isStable) :
    Clean (itemCode children key isStable) fun code => (∀ node ∈ children, node.Settled) →
      code.texts = children.flatMap codeTexts := by
  unfold itemCode
  split
  next el inner =>
    have coded := (clean_code (.element el inner)).and (gives_code_keyable (.inl rfl))
    refine coded.bind fun node => ?_
    have kept (holds : node.texts = (TemplateNode.element el inner).codeTexts ∧
        ((TemplateNode.element el inner).Settled → node.Keyable))
        (settled : ∀ node ∈ [TemplateNode.element el inner], node.Settled) :
        (node.withKey key).texts =
          [TemplateNode.element el inner].flatMap codeTexts := by
      have keyable := holds.2 (settled _ mem_cons_self)
      rw [flatMap_singleton, ← holds.1]
      cases key with
      | none => rfl
      | some p => exact keyable p (scripted p rfl).1 (scripted p rfl).2
    dsimp only
    split
    next v same =>
      split
      · exact .pure kept
      · refine .pure fun holds settled => ?_
        rw [texts_setBlock, ← same]
        exact kept holds settled
    · exact .pure kept
  · refine Clean.fresh.bind fun id => (clean_codes children).bind fun nodes => .pure ?_
    intro same _ _
    rw [← same]
    cases key with
    | none => simp [fragment, VNode.parts, VNode.new, Tag.parts, Children.parts]
    | some p =>
      simp [fragment, VNode.parts, VNode.new, Tag.parts, Children.parts,
        (scripted p rfl).1.texts, (scripted p rfl).2.texts]

theorem clean_loopCode {source : Expression} (scripted : source.Scripted)
    (params item flag isStable span) :
    Clean (loopCode source params item flag isStable span) fun code =>
      code.texts = item.texts ∧ code.Keyable := by
  refine Clean.fresh.bind fun id => .pure fun _ => ⟨?_, .vnode (by simp [VNode.new])⟩
  simp [VNode.parts, VNode.new, Tag.parts, Children.parts, scripted.texts]

end Stencil.Lower
