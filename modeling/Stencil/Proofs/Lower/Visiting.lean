import Stencil.Proofs.Lower.Resolving

/-! # Scripts in a lowered template

Every node of a template is lowered in the scope that its ancestors open. Its code is written below
the functions that bind the names of this scope, apart from those of slot templates that get lost.
-/

namespace Stencil.Lower

open List Element TemplateNode SlotSite SlotTemplate ElementProp Option Script

variable {scope : List ScopeVar}

/-- A step that gives children of an element, whatever the scope it is run in. -/
def PlacesKids (S : Setting) (inComponent : Bool) (kids : Lower (List TemplateNode)) : Prop :=
  ∀ scope, Yields S scope kids fun nodes => ∀ bound, S.Around bound scope →
    ∀ node ∈ nodes, Placed S inComponent bound node

theorem keepsRuns_placed (S : Setting) (inComponent bound) :
    KeepsRuns S.policy bound (Placed S inComponent bound) where
  ready {node} isRun placed := placed.ready fun _ isTemplate => by
    cases node with
    | element => cases isRun
    | _ => cases isTemplate
  compound ready := ⟨by rintro _ _ ⟨⟩, fun _ => ready⟩
  textCall ready := ⟨by rintro _ _ ⟨⟩, fun _ => ready⟩

theorem yields_takesText (el) : Yields S scope (takesText el) fun _ => True :=
  Binds.read.bind fun _ => .pure fun _ => trivial

/-- The content of an element after the rules for nodes, lowered in a scope. -/
structure Contains (S : Setting) (scope : List ScopeVar) (inComponent : Bool) (el : Element)
    (content : Content) : Prop where
  styles : el.Styles content.element
  placed : ∀ nodes ∈ content.children, ∀ bound, S.Around bound scope →
    ∀ node ∈ nodes, Placed S inComponent bound node

variable {inComponent : Bool} {d : Directive} {children : List TemplateNode}

theorem yields_lowerContent (hasChildren el) (places : PlacesKids S inComponent kids) :
    Yields S scope (lowerContent hasChildren kids el) (Contains S scope inComponent el) := by
  refine Binds.read.bind fun o => (yields_applyNodeRules _ _ _).bind fun ruled => ?_
  split
  · exact .pure fun styles _ => ⟨styles, by simp⟩
  · have lowered : PlacesKids S inComponent (if ruled.stripped then pure [] else kids) := by
      intro scope
      split
      · exact .pure (by simp)
      · exact places scope
    rw [bind_ite]
    refine (lowered scope).bind fun children => (yields_takesText _).bind fun direct =>
      (yields_mergeText direct children).bind fun nodes => .pure ?_
    refine fun kept _ placed styles _ => ⟨styles, fun _ same bound around => ?_⟩
    cases same
    exact kept (keepsRuns_placed S inComponent bound) (placed bound around)

/-- Whether an element may have a slot of its own. -/
def opensSlot (el : Element) : Bool :=
  el.kind == .component || el.kind == .template

theorem yields_inSlotScope {α : Type} (el) {act} {Q : α → Prop}
    (inner : Yields S (scopeVars .slot (if opensSlot el then el.slotNames else []) ++ scope) act Q) :
    Yields S scope (inSlotScope el act) fun a => Q a ∧
      (opensSlot el = true → ∀ d ∈ el.find? "slot", S.clean → ∀ e ∈ d.exp, e.IsPattern) := by
  unfold inSlotScope
  cases opens : opensSlot el with
  | false =>
    have closed : (if el.kind == .component || el.kind == .template then el.find? "slot"
        else none) = none := if_neg (by simpa [opensSlot] using opens)
    rw [closed]
    rw [opens] at inner
    exact inner.mono fun a holds => ⟨holds, by simp⟩
  | true =>
    have found : (if el.kind == .component || el.kind == .template then el.find? "slot"
        else none) = el.find? "slot" := if_pos opens
    rw [found]
    rw [opens, if_pos rfl] at inner
    split
    next d same =>
      have names : el.slotNames = d.slotNames := by simp [slotNames, same]
      rw [names] at inner
      refine @Binds.inScope _ _ S scope _ (scopeVars .slot d.slotNames) ?_
      cases exp : d.exp with
      | some e =>
        have own : d.slotNames = e.names := by simp [Directive.slotNames, exp]
        rw [own] at inner ⊢
        have inside : ∀ _ : Unit, Yields S (scopeVars .slot e.names ++ scope) (inSlot act)
            fun a => (S.clean → e.IsPattern) → Q a ∧ (true = true →
              ∀ d ∈ el.find? "slot", S.clean → ∀ e ∈ d.exp, e.IsPattern) := by
          refine fun _ => inner.inSlot.mono fun a holds readable => ⟨holds, ?_⟩
          intro _ d' found' clean e' member
          cases same.symm.trans found'
          cases exp.symm.trans member
          exact readable clean
        exact (binds_bindExpression .slot e).bind inside
      | none =>
        have own : d.slotNames = [] := by simp [Directive.slotNames, exp]
        rw [own] at inner ⊢
        refine inner.inSlot.mono fun a holds => ⟨holds, ?_⟩
        intro _ d' found' clean e' member
        cases same.symm.trans found'
        cases exp.symm.trans member
    next none =>
      have names : el.slotNames = [] := by simp [slotNames, none]
      rw [names] at inner
      exact inner.mono fun a holds => ⟨holds, by simp [none]⟩

/-- The content of a slot template inside the names of its loop. -/
structure ContainsLooped (S : Setting) (scope : List ScopeVar) (inComponent : Bool) (el : Element)
    (written head : LoopHead) (el' : Element) (content : Content) : Prop where
  source : ∀ {bound : List String}, (∀ u, uses .expression written.source.source = .ok u →
    S.policy.script bound (scopeHas scope) u) → head.source.Emitted S.policy bound
  params : ∀ {own bound : List String}, (∀ part ∈ written.aliases, part.Written) →
    (∀ part ∈ written.aliases, ∀ u, uses .params part.source = .ok u →
      S.policy.params own bound (scopeHas (scopeVars .loop written.names ++ scope)) u) →
    Params S.policy false own bound written.names head.params
  kind : el'.kind = el.kind
  lowered : el'.lowered = el.lowered
  props : PropsChange (Directive.KeepsLoop (ReadIn S (scopeVars .loop written.names ++ scope)) head)
    el.props el'.props
  contains : Contains S (scopeVars .loop written.names ++ scope) inComponent el' content

theorem yields_inSlotLoop (hasChildren el) (places : PlacesKids S inComponent kids) :
    Yields S scope (inSlotLoop el (lowerContent hasChildren kids)) fun content =>
      (el.isSlotTemplate = false ∨ lastLoop? none el.props = none →
        Contains S scope inComponent el content) ∧
      (el.isSlotTemplate = true → lastLoop? none el.props = none → el.has "for" = true →
        ¬ S.clean) ∧ (el.isSlotTemplate = true → ∀ written ∈ lastLoop? none el.props,
        ∃ head el', ContainsLooped S scope inComponent el written head el' content) := by
  unfold inSlotLoop
  split
  next isSlot =>
    refine (yields_slotLoop? none none el.props).bind fun head? => ?_
    split
    next head =>
      refine @Binds.inScope _ _ S scope _ (scopeVars .loop head.names) ?_
      refine (binds_enterLoop head).bind fun head' =>
        (yields_keepSlotLoop head' el.props).bind fun props =>
        (yields_lowerContent hasChildren _ places).mono ?_
      rintro content contains kept ⟨source, params⟩ rel
      obtain ⟨same, -⟩ := rel .none
      cases loop : lastLoop? none el.props with
      | none => rw [loop] at same; cases same
      | some written =>
        rw [loop] at same
        cases same with
        | some reads =>
          have names : head.names = written.names := by
            simp [LoopHead.names, reads.aliases]
          rw [names] at kept contains params
          rw [reads.aliases] at params
          refine ⟨by simp [isSlot], by simp, fun _ _ found => ?_⟩
          obtain rfl := some.inj found
          exact ⟨head', { el with props }, fun rule => source ▸ reads.source rule, params, rfl,
            rfl, kept, contains⟩
    · refine (yields_lowerContent hasChildren el places).mono ?_
      intro content contains rel
      obtain ⟨same, unread⟩ := rel .none
      cases loop : lastLoop? none el.props with
      | some written => rw [loop] at same; cases same
      | none =>
        refine ⟨fun _ => contains, fun _ _ hasFor => ?_, by simp⟩
        obtain ⟨d, found⟩ := isSome_iff_exists.mp hasFor
        exact unread loop (.inr ⟨d, of_find? found⟩)
  next notSlot =>
    refine (yields_lowerContent hasChildren el places).mono fun content contains => ?_
    exact ⟨fun _ => contains, fun isSlot => absurd isSlot notSlot,
      fun isSlot => absurd isSlot notSlot⟩

/-! ## Slot templates -/

variable {el : Element}

theorem kind_of_isSlotTemplate (isSlot : el.isSlotTemplate = true) : el.kind = .template := by
  simp only [isSlotTemplate, Bool.and_eq_true, beq_iff_eq] at isSlot
  exact isSlot.1

theorem of?_eq_none (notSlot : el.isSlotTemplate = false) (children) :
    of? (.element el children) = none := by
  simp only [of?]
  split
  next isTemplate =>
    simpa [isSlotTemplate, isTemplate, has] using notSlot
  · rfl

theorem of?_of_not_element (other : node.isElement = false) : of? node = none := by
  cases node with
  | element => cases other
  | _ => rfl

theorem placed_of_ready (outside : of? node = none)
    (ready : node.Ready S.policy bound) : Placed S inComponent bound node where
  slot _ _ found := absurd (outside.symm.trans found) (by simp)
  ready _ := ready

/-- What is known of a slot template with the directive `d` once it is lowered to `el'`. -/
structure LoweredSlot (S : Setting) (scope : List ScopeVar) (site : SlotSite) (d : Directive)
    (el' : Element) (d' : Directive) (children : List TemplateNode) : Prop where
  kind : el'.kind = .template
  lowered : el'.lowered = none
  found : el'.find? "slot" = some d'
  exp : d'.exp = d.exp
  has : ∀ name ∈ ["if", "else-if", "else", "for"], el'.has name = site.element.has name
  name : site.inComponent = true → ∀ {bound : List String}, S.Around bound scope →
    d'.slotName.Emitted S.policy (site.keptLoopNames ++ bound)
  condition : ∀ name ∈ ["if", "else-if"], ∀ c ∈ el'.find? name, ∀ {bound : List String},
    S.Around bound scope → ∀ e ∈ c.exp, e.Emitted S.policy bound
  loop : site.inComponent = true → ∀ c ∈ el'.find? "for", ∀ head ∈ c.loop,
    ∀ {bound : List String}, S.Around bound scope → head.source.Emitted S.policy bound ∧
      Params S.policy false site.loopNames bound site.loopNames head.params
  content : ∀ child ∈ children, ∀ {bound : List String}, S.Around bound (site.scope scope) →
    child.Ready S.policy bound

/-- Rules for nodes change nothing that matters to a slot template. -/
theorem LoweredSlot.styles (low : LoweredSlot S scope site d el' d' children)
    (styles : el'.Styles el'') : LoweredSlot S scope site d el'' d' children := by
  have other : ∀ name ∈ ["if", "else-if", "else", "for"], name ≠ "bind" := by decide
  refine { low with
    kind := styles.kind.trans low.kind
    lowered := styles.lowered.trans low.lowered
    found := (styles.find? (by decide)).trans low.found
    has := fun name member => ?_
    condition := fun name member c found => low.condition name member c ?_
    loop := fun inside c found => low.loop inside c ?_ }
  · rw [← low.has name member, Element.has, Element.has, styles.find? (other name member)]
  · rwa [styles.find? (other name (mem_append_left ["else", "for"] member))] at found
  · rwa [styles.find? (by decide)] at found

theorem placed_of_loweredSlot (low : LoweredSlot S scope site d el' d' children)
    (found : site.element.find? "slot" = some d) (opens : d.Opens S) (allowed : site.Allowed S)
    (around : S.Around bound scope) : Placed S site.inComponent bound (.element el' children) := by
  have conditional : el'.isConditional = site.element.isConditional := by
    simp [isConditional, low.has]
  have names : d'.slotNames = site.element.slotNames := by
    simp [slotNames, Directive.slotNames, found, low.exp]
  constructor
  · rintro inside ⟨el'', d'', children''⟩ isTemplate
    obtain ⟨same, -, found'⟩ := slotTemplate_eq isTemplate
    obtain ⟨sameElement, sameChildren⟩ : el' = el'' ∧ children = children'' :=
      TemplateNode.element.inj same
    have sameDirective : d' = d'' := some.inj ((sameElement ▸ low.found).symm.trans found')
    subst sameElement sameChildren sameDirective
    have fills : SlotTemplate.Fills S.policy (site.keptLoopNames ++ bound) ⟨el', d', children⟩ :=
      ⟨low.name inside around, fun child member => low.content child member
        (names ▸ allowed.content inside around)⟩
    refine ⟨⟨?_, ?_⟩, fun name member c found => low.condition name member c found around, ?_, ?_⟩
    · rw [low.exp]
      exact opens.pattern
    · rw [low.exp]
      exact opens.readable
    · intro single
      have noNames : site.keptLoopNames = [] := by
        rcases single with isConditional | noLoop
        · simp [keptLoopNames, ← conditional, isConditional]
        · have noFor : site.element.find? "for" = none := by
            simpa [has] using (low.has "for" (by simp)).symm.trans noLoop
          have none : site.loop? = none := lastLoop?_of_no_loop none noFor
          simp [keptLoopNames, loopNames, none]
      simpa [noNames] using fills
    · intro unconditional c isFor head loop
      rw [conditional] at unconditional
      have kept : site.keptLoopNames = site.loopNames := by
        simp [keptLoopNames, unconditional]
      obtain ⟨source, params⟩ := low.loop inside c isFor head loop around
      refine ⟨site.loopNames, source, params, ?_, kept ▸ fills⟩
      intro clean e member u read name free isLoop
      rw [low.exp] at member
      exact allowed.pattern inside unconditional found clean member read free isLoop
  · intro unclean
    refine .fragment low.lowered fun child member => low.content child member ?_
    refine allowed.outside around fun inside => unclean inside ?_
    simp [of?, low.kind, low.found]

theorem written_of_find? (written : el.Written) (found : el.find? name = some d) : d.Written := by
  cases written.props _ (of_find? found).1 with
  | directive isWritten => exact isWritten

theorem scope_of_no_loop (site : SlotSite) (none : site.loop? = none) (scope) :
    site.scope scope = scopeVars .slot site.element.slotNames ++ scope := by
  simp [SlotSite.scope, SlotSite.loopNames, none, scopeVars]

section LoweredSlot

variable {el el₁ : Element} (written : el.Written) (isSlot : el.isSlotTemplate = true)
  (found : el.find? "slot" = some d) (kind : el₁.kind = el.kind)
  (lowered : el₁.lowered = el.lowered)
  (reads : PropsChange (Reads S scope (el.has "for")) el.props el₁.props)
include written reads

/-- The conditions of a slot template are read before its names are in scope. -/
theorem emitted_condition (member : name ∈ ["if", "else-if"]) (here : el₁.find? name = some c)
    (around : S.Around bound scope) : ∀ e ∈ c.exp, e.Emitted S.policy bound := by
  obtain ⟨c₀, before, read⟩ := exists_of_mem_rel (find?_changes reads name) here
  have named := (of_find? before).2
  refine Reads.emitted read (written_of_find? written before) around ?_
  simp only [mem_cons, not_mem_nil, or_false] at member
  rcases member with rfl | rfl <;> simp [Directive.waits, named]

include isSlot found kind lowered

theorem loweredSlot_of_contains (noLoop : lastLoop? none el.props = none)
    (unread : el.has "for" = true → ¬ S.clean)
    (contains : Contains S (scopeVars .slot el.slotNames ++ scope) false el₁ content)
    (same : content.children = some children) :
    ∃ d', LoweredSlot S scope ⟨el, inComponent⟩ d content.element d' children := by
  obtain ⟨d₁, slot, read⟩ := exists_mem_of_rel (find?_changes reads "slot") found
  have isWritten := written_of_find? written found
  have named := (of_find? found).2
  have noNames : keptLoopNames ⟨el, inComponent⟩ = [] := by
    simp [keptLoopNames, loopNames, loop?, noLoop]
  refine ⟨d₁, LoweredSlot.styles ⟨kind.trans (kind_of_isSlotTemplate isSlot),
    lowered.trans written.lowered, slot, ?_, fun name _ => has_changes reads name, ?_,
    fun name member c here _ around => emitted_condition written reads member here around, ?_, ?_⟩
    contains.styles⟩
  · exact read.keptExp (by simp [Directive.waits, named])
  · intro _ bound around
    rw [noNames]
    cases arg : d₁.arg with
    | none => simpa [Directive.slotName, arg] using Expression.Emitted.named _ _
    | some a =>
      rw [Directive.slotName, arg]
      refine (resolved_of_reads ((of_find? slot).2.trans named.symm) read isWritten around ?_).arg a
        arg
      rintro (isFor | hasFor)
      · simp [named] at isFor
      · exact unread hasFor
  · intro _ c here head loop
    obtain ⟨c₀, before, read⟩ := exists_of_mem_rel (find?_changes reads "for") here
    rw [read.loop, (written_of_find? written before).loop] at loop
    cases loop
  · intro child member bound around
    rw [scope_of_no_loop ⟨el, inComponent⟩ noLoop] at around
    exact (contains.placed children same bound around child member).ready (by simp)

theorem loweredSlot_of_containsLooped {loop head el₂} (isLoop : lastLoop? none el.props = some loop)
    (contains : ContainsLooped S (scopeVars .slot el.slotNames ++ scope) false el₁ loop head el₂
      content) (allowed : SlotSite.Allowed S ⟨el, inComponent⟩)
    (same : content.children = some children) :
    ∃ d', LoweredSlot S scope ⟨el, inComponent⟩ d content.element d' children := by
  obtain ⟨d₁, slot₁, read⟩ := exists_mem_of_rel (find?_changes reads "slot") found
  obtain ⟨d₂, slot₂, keeps⟩ := exists_mem_of_rel (find?_changes contains.props "slot") slot₁
  have isWritten := written_of_find? written found
  have named := (of_find? found).2
  have site : SlotSite.loop? ⟨el, inComponent⟩ = some loop := isLoop
  have names : SlotSite.loopNames ⟨el, inComponent⟩ = loop.names := by
    simp [SlotSite.loopNames, site]
  have inside : SlotSite.scope ⟨el, inComponent⟩ scope =
      scopeVars .loop loop.names ++ (scopeVars .slot el.slotNames ++ scope) := by
    simp [SlotSite.scope, names]
  have hasFor : el.has "for" = true := by
    by_contra noFor
    have notFound : el.find? "for" = none := by simpa [has] using noFor
    cases (lastLoop?_of_no_loop none notFound).symm.trans isLoop
  refine ⟨d₂, LoweredSlot.styles
    ⟨contains.kind.trans (kind.trans (kind_of_isSlotTemplate isSlot)),
      contains.lowered.trans (lowered.trans written.lowered), slot₂, ?_,
      fun name _ => (has_changes contains.props name).trans (has_changes reads name), ?_, ?_, ?_, ?_⟩
    contains.contains.styles⟩
  · rw [keeps.exp]
    exact read.keptExp (by simp [Directive.waits, named])
  · intro isInside bound around
    have readArg := keeps.arg (of_find? slot₁).2
    have keptArg : d₁.arg = d.arg := read.keptArg (by simp [Directive.argWaits, named, hasFor])
    rw [← inside] at readArg
    cases arg : d₂.arg with
    | none => simpa [Directive.slotName, arg] using Expression.Emitted.named _ _
    | some a =>
      rw [Directive.slotName, arg]
      refine emitted_of_readsArg readArg (keptArg ▸ isWritten.arg) ?_ a arg
      intro a' member dynamic u read
      rw [keptArg] at member
      exact allowed.name isInside around (by simp [site]) found member dynamic read
  · intro name member c here bound around
    obtain ⟨c₁, before, keeps⟩ := exists_of_mem_rel (find?_changes contains.props name) here
    rw [keeps.exp]
    exact emitted_condition written reads member before around
  · intro isInside c here head' isHead bound around
    obtain ⟨c₁, before, keeps⟩ := exists_of_mem_rel (find?_changes contains.props "for") here
    rw [keeps.loop, if_pos (of_find? before).2] at isHead
    obtain rfl := some.inj isHead
    refine ⟨contains.source fun u read => allowed.source isInside around site read, ?_⟩
    rw [names]
    have aliases : ∀ part ∈ loop.aliases, part.Written := by
      refine written_lastLoop? ?_ isLoop
      simp
    refine contains.params aliases fun part member u read => ?_
    rw [← names]
    exact allowed.aliases isInside around site member read
  · intro child member bound around
    rw [inside] at around
    exact (contains.contains.placed children same bound around child member).ready (by simp)

end LoweredSlot

/-! ## Elements -/

theorem yields_lowerKind (el children) (around : S.Around bound scope) :
    Yields S scope (lowerKind el children) fun el' => el'.kind = el.kind ∧ el'.props = el.props ∧
      (el.kind = .template → el' = el) ∧
      (el.lowered = none → ResolvedProps S.policy bound el.props →
        ((el.kind == .component) = true → ∀ d ∈ el.find? "slot", d.Opens S) → (∀ child ∈ children,
          Placed S (el.kind == .component) (contentNames el ++ bound) child) →
        TemplateNode.Ready S.policy bound (.element el' children)) := by
  have outside : (el.kind == .component) = false → (∀ child ∈ children,
      Placed S (el.kind == .component) (contentNames el ++ bound) child) →
      ∀ child ∈ children, child.Ready S.policy bound := by
    intro other placed child member
    have ready := (placed child member).ready fun isComponent => by simp [other] at isComponent
    simpa [contentNames, other] using ready
  unfold lowerKind
  split
  case h_1 isPlain | h_2 isPlain =>
    refine (yields_lowerElement el children around).bind fun node => .pure fun inside => ?_
    refine ⟨rfl, rfl, by simp [isPlain], ?_⟩
    exact fun _ resolved opens placed => .lowered rfl (inside resolved opens placed)
  next isOutlet =>
    refine (yields_lowerOutlet el children around).bind fun node => .pure fun inside => ?_
    refine ⟨rfl, rfl, by simp [isOutlet], ?_⟩
    intro _ resolved _ placed
    exact .lowered rfl (inside resolved (outside (by rw [isOutlet]; rfl) placed))
  next isTemplate =>
    refine .pure ⟨rfl, rfl, fun _ => rfl, fun unlowered _ _ placed => ?_⟩
    exact .fragment unlowered (outside (by rw [isTemplate]; rfl) placed)

section Reads

variable {el el₁ : Element} (reads : PropsChange (Reads S scope hasFor) el.props el₁.props)
include reads

theorem slotNames_reads : el₁.slotNames = el.slotNames := by
  have related := find?_changes reads "slot"
  unfold slotNames
  cases found : el.find? "slot" with
  | none =>
    rw [found] at related
    generalize el₁.find? "slot" = after at related
    cases related
    rfl
  | some d =>
    obtain ⟨d₁, found₁, read⟩ := exists_mem_of_rel related found
    have same := read.keptExp (by simp [Directive.waits, (of_find? found).2])
    simp [Directive.slotNames, mem_def.mp found₁, same]

theorem isSlotTemplate_reads (kind : el₁.kind = el.kind) :
    el₁.isSlotTemplate = el.isSlotTemplate := by
  simp [isSlotTemplate, kind, has_changes reads "slot"]

theorem opens_reads (written : el.Written) (found : el₁.find? "slot" = some d₁)
    (readable : S.clean → ∀ e ∈ d₁.exp, e.IsPattern) :
    d₁.Opens S ∧ ∀ d, el.find? "slot" = some d → d.Opens S := by
  obtain ⟨d, before, read⟩ := exists_of_mem_rel (find?_changes reads "slot") found
  have same := read.keptExp (by simp [Directive.waits, (of_find? before).2])
  have pattern := (written_of_find? written before).exp
  refine ⟨⟨same ▸ pattern, readable⟩, fun d' found' => ?_⟩
  cases before.symm.trans found'
  exact ⟨pattern, same ▸ readable⟩

theorem resolved_reads (written : ∀ p ∈ el.props, p.Written) (around : S.Around bound scope)
    (noLoop : el.has "for" = true ∨ hasFor = true → ¬ S.clean) :
    ResolvedProps S.policy bound el₁.props := by
  intro d₁ member
  obtain ⟨d, before, named, read⟩ := exists_of_mem_changes reads member
  cases written _ before with
  | directive isWritten =>
    refine resolved_of_reads named read isWritten around fun loop => noLoop (loop.imp_left ?_)
    intro isFor
    exact isFor ▸ has_of_mem before

end Reads

theorem placed_slotTemplate (el₁ : Element) (written : el.Written)
    (isSlot : el.isSlotTemplate = true) (kind : el₁.kind = el.kind)
    (lowered : el₁.lowered = el.lowered)
    (reads : PropsChange (Reads S scope (el.has "for")) el.props el₁.props)
    (readable : ∀ d ∈ el₁.find? "slot", S.clean → ∀ e ∈ d.exp, e.IsPattern)
    (plain : lastLoop? none el₁.props = none →
      Contains S (scopeVars .slot el₁.slotNames ++ scope) false el₁ content)
    (unread : lastLoop? none el₁.props = none → el₁.has "for" = true → ¬ S.clean)
    (looped : ∀ loop ∈ lastLoop? none el₁.props, ∃ head el', ContainsLooped S
      (scopeVars .slot el₁.slotNames ++ scope) false el₁ loop head el' content)
    (same : content.children = some children) (allowed : SlotSite.Allowed S ⟨el, inComponent⟩)
    (around : S.Around bound scope) : content.element.kind = .template ∧
      Placed S inComponent bound (.element content.element children) := by
  rw [slotNames_reads reads, lastLoop?_reads none reads] at plain looped
  rw [has_changes reads, lastLoop?_reads none reads] at unread
  have hasSlot : el.has "slot" = true := by
    simp only [isSlotTemplate, Bool.and_eq_true] at isSlot
    exact isSlot.2
  obtain ⟨d, found⟩ := isSome_iff_exists.mp hasSlot
  obtain ⟨d₁, found₁, -⟩ := exists_mem_of_rel (find?_changes reads "slot") found
  have opens := (opens_reads reads written found₁ (readable d₁ found₁)).2 d found
  obtain ⟨d', low⟩ :
      ∃ d', LoweredSlot S scope ⟨el, inComponent⟩ d content.element d' children := by
    cases loop : lastLoop? none el.props with
    | none =>
      exact loweredSlot_of_contains written isSlot found kind lowered reads loop (unread loop)
        (plain loop) same
    | some head =>
      obtain ⟨head', el₂, contains⟩ := looped head loop
      exact loweredSlot_of_containsLooped written isSlot found kind lowered reads loop contains
        allowed same
  exact ⟨low.kind, placed_of_loweredSlot low found opens allowed around⟩

/-- The names that an element has for its content are in scope there. -/
theorem contentNames_of_styles (styles : el.Styles el') (notSlot : el.isSlotTemplate = false) :
    contentNames el' = if opensSlot el then el.slotNames else [] := by
  have names : el'.slotNames = el.slotNames := by
    simp [slotNames, styles.find? (by decide : "slot" ≠ "bind")]
  unfold contentNames opensSlot
  rw [styles.kind, names]
  cases kind : el.kind with
  | plain | slot => rfl
  | component => rfl
  | template =>
    have noSlot : el.find? "slot" = none := by
      simpa [isSlotTemplate, kind, has] using notSlot
    simp [slotNames, noSlot]

/-- If the siblings before are placed, then so are those that there are now. -/
abbrev PlacesMore (S : Setting) (inComponent : Bool) (bound : List String)
    (done now : List TemplateNode) : Prop :=
  (∀ node ∈ done, Placed S inComponent bound node) → ∀ node ∈ now, Placed S inComponent bound node

theorem yields_visitPlain (el : Element) (hasChildren done inComponent) (written : el.Written)
    (places : PlacesKids S (el.kind == .component) kids)
    (allowed : el.isSlotTemplate = true → SlotSite.Allowed S ⟨el, inComponent⟩)
    (around : S.Around bound scope) :
    Yields S scope (visitPlain el hasChildren kids done) fun v =>
      (el.isSlotTemplate = false → el.has "for" = true → ¬ S.clean) →
      PlacesMore S inComponent bound done v.done := by
  refine (yields_processProps _ el.props).bind fun props => ?_
  refine (yields_inSlotScope _ (yields_inSlotLoop hasChildren _ places)).bind fun content => ?_
  split
  · exact .pure fun _ _ _ before => before
  next children same =>
    refine (yields_lowerKind content.element children around).bind fun el' => .pure ?_
    rintro ⟨kind', props', kept, ready⟩ ⟨⟨plain, unread, looped⟩, readable⟩ reads noLoop before
    have isSlot₁ : isSlotTemplate { el with props } = el.isSlotTemplate :=
      isSlotTemplate_reads reads rfl
    refine forall_mem_cons.mpr ⟨?_, before⟩
    cases isSlot : el.isSlotTemplate with
    | true =>
      have isTemplate := kind_of_isSlotTemplate isSlot
      have opens : opensSlot { el with props } = true := by simp [opensSlot, isTemplate]
      have notComponent : (el.kind == .component) = false := by rw [isTemplate]; rfl
      rw [isSlot] at isSlot₁
      rw [opens, notComponent] at plain looped
      obtain ⟨kind, placed⟩ := placed_slotTemplate { el with props } written isSlot rfl rfl reads
        (readable opens) (fun none => plain (.inr none)) (unread isSlot₁) (looped isSlot₁) same
        (allowed isSlot) around
      exact kept kind ▸ placed
    | false =>
      rw [isSlot] at isSlot₁
      have contains := plain (.inl isSlot₁)
      rw [← contentNames_of_styles contains.styles isSlot₁] at contains
      have finds : content.element.find? "slot" = Element.find? { el with props } "slot" :=
        contains.styles.find? (by decide)
      have notSlot : el'.isSlotTemplate = false := by
        have found : el'.find? "slot" = content.element.find? "slot" := by
          simp [Element.find?, props']
        rw [← isSlot₁, isSlotTemplate, isSlotTemplate, kind',
          contains.styles.kind, has, has, found, finds]
      refine placed_of_ready (of?_eq_none notSlot children) (ready ?_ ?_ ?_ ?_)
      · rw [contains.styles.lowered]
        exact written.lowered
      · refine contains.styles.resolved (resolved_reads reads written.props around ?_)
        rintro (hasFor | hasFor) <;> exact noLoop isSlot hasFor
      · intro isComponent d found
        rw [finds] at found
        rw [contains.styles.kind] at isComponent
        exact (opens_reads reads written found
          (readable (by simp [opensSlot, isComponent]) d found)).1
      · rw [contains.styles.kind]
        exact contains.placed children same _ (around.append (by simp))

/-! ## Loops and conditionals -/

theorem written_erase (written : el.Written) (name) : (el.erase name).Written :=
  ⟨fun p member => written.props p (mem_of_mem_eraseP member), written.lowered⟩

theorem find?_erase (differ : name ≠ other) : (el.erase name).find? other = el.find? other := by
  unfold Element.erase Element.find?
  induction el.props with
  | nil => rfl
  | cons p props ih =>
    cases here : (p.named? name).isSome with
    | true =>
      have skipped : p.named? other = none := by
        rcases p with a | d
        · rfl
        · have same : d.name = name := by simpa [named?] using here
          simp [named?, same, differ]
      simp [here, skipped]
    | false => simp [here, ih, findSome?_cons]

theorem isSlotTemplate_erase (differ : name ≠ "slot") :
    (el.erase name).isSlotTemplate = el.isSlotTemplate := by
  unfold isSlotTemplate has
  rw [find?_erase differ]
  rfl

/-- A step that gives the nodes of an item or a branch, whatever the scope it is run in. -/
def PlacesInner (S : Setting) (inner : Lower (List TemplateNode)) : Prop :=
  ∀ ⦃scope bound⦄, S.Around bound scope →
    Yields S scope inner fun nodes => ∀ node ∈ nodes, node.Ready S.policy bound

theorem placesInner_kids (places : PlacesKids S false kids) :
    PlacesInner S kids := fun scope bound around =>
  (places scope).mono fun _ placed node member => (placed bound around node member).ready (by simp)

/-- The source of a loop is written outside its function, and its aliases are the parameters. -/
theorem loop_entered {head head' : LoopHead} (around : S.Around bound scope)
    (loop : ∃ written, d.loopHead? = some written ∧ written.Reads S scope head)
    (same : head'.source = head.source) (params : (∀ part ∈ head.aliases, part.Written) →
      (∀ part ∈ head.aliases, ∀ u, uses .params part.source = .ok u →
        S.policy.params head.names bound (scopeHas (scopeVars .loop head.names ++ scope)) u) →
      Params S.policy false head.names bound head.names head'.params) :
    head'.source.Emitted S.policy bound ∧
      Params S.policy false head.names bound head.names head'.params := by
  obtain ⟨written, found, reads⟩ := loop
  obtain ⟨e, _, readable⟩ := bind_eq_some_iff.mp found
  have inside : S.Around (head.names ++ bound) (scopeVars .loop head.names ++ scope) :=
    around.append (by simp)
  rw [same]
  refine ⟨reads.source fun u _ => around.script u, params ?_ fun _ _ u _ => inside.ownParams u⟩
  rw [reads.aliases]
  exact (written_loopHead readable).2

theorem yields_visitLoop {inner} (el : Element) (children done inComponent) (written : el.Written)
    (notSlot : el.isSlotTemplate = false) (places : PlacesKids S (el.kind == .component) kids)
    (placesInner : ∀ d, el.find? "for" = some d → PlacesInner S (inner (el.erase "for")))
    (around : S.Around bound scope) : Yields S scope (visitLoop el children kids inner done)
      (PlacesMore S inComponent bound done ·.done) := by
  unfold visitLoop
  split
  next noFor =>
    refine (yields_visitPlain el _ done inComponent written places ?_ around).mono ?_
    · simp [notSlot]
    · refine fun v placed before => placed (fun _ hasFor => ?_) before
      simp [has, noFor] at hasFor
  next d found =>
    have erased : (el.erase "for").isSlotTemplate = false :=
      (isSlotTemplate_erase (by decide)).trans notSlot
    have isWritten := written_erase written "for"
    refine (yields_loopHead? d).bind fun head? => ?_
    split
    · refine (yields_visitPlain (el.erase "for") _ done inComponent isWritten places ?_
        around).mono ?_
      · simp [erased]
      · rintro v placed ⟨failed, _⟩ before
        exact placed (fun _ _ => (failed rfl).2) before
    next head =>
      refine @Binds.inScope _ _ S scope _ (scopeVars .loop head.names) ?_
      have inside : S.Around (head.names ++ bound) (scopeVars .loop head.names ++ scope) :=
        around.append (by simp)
      refine (binds_enterLoop head).bind fun head' => Binds.inLoop ?_
      refine (yields_itemKey? (el.erase "for") isWritten children inside).bind fun key => ?_
      have lowered : PlacesInner S (if (el.erase "for").kind == .template then kids
          else inner (el.erase "for")) := by
        split
        next isTemplate =>
          have notComponent : (el.kind == .component) = false := by
            have kind : el.kind = .template := by simpa [Element.erase] using isTemplate
            rw [kind]
            rfl
          exact placesInner_kids (notComponent ▸ places)
        · exact placesInner d found
      rw [bind_ite]
      refine (lowered inside).bind fun items => (yields_mergeText false items).bind fun merged =>
        (yields_itemCode merged key _).bind fun item =>
        (yields_loopCode _ _ item _ _ _).bind fun code => .pure ?_
      rintro coded itemCoded kept ready keyed ⟨same, params⟩ ⟨-, loop⟩ before
      obtain ⟨source, params⟩ := loop_entered around (loop head rfl) same params
      have item := itemCoded _ (kept (keepsRuns_ready _ _) ready) keyed
      refine forall_mem_cons.mpr ⟨placed_of_ready rfl (.loop fun node member => ?_), before⟩
      cases member
      exact coded bound head.names source params item

theorem yields_visitBranch {inner} (el : Element) (condition)
    (places : PlacesKids S (el.kind == .component) kids) (placesInner : PlacesInner S (inner el))
    (around : S.Around bound scope) :
    Yields S scope (visitBranch el condition kids inner) fun b => b.condition = condition ∧
      ∀ child ∈ b.children, child.Ready S.policy bound := by
  have lowered : PlacesInner S (if el.kind == .template && !el.has "for" then kids
      else inner el) := by
    split
    next isTemplate =>
      have notComponent : (el.kind == .component) = false := by
        simp only [Bool.and_eq_true, beq_iff_eq] at isTemplate
        rw [isTemplate.1]
        rfl
      exact placesInner_kids (notComponent ▸ places)
    · exact placesInner
  unfold visitBranch
  rw [bind_ite]
  exact (lowered around).bind fun children => (yields_mergeText false children).bind fun merged =>
    .pure fun kept ready => ⟨rfl, kept (keepsRuns_ready _ _) ready⟩

theorem yields_visitIf {inner} (d : Directive) (el : Element) (done inComponent) (written : d.Written)
    (places : PlacesKids S (el.kind == .component) kids)
    (placesInner : PlacesInner S (inner (el.erase "if"))) (around : S.Around bound scope) :
    Yields S scope (visitIf d el kids inner done)
      (PlacesMore S inComponent bound done ·.done) := by
  refine (yields_branchCondition d written around).bind fun condition =>
    (yields_visitBranch (el.erase "if") (some condition) places placesInner around).bind
      fun branch => (yields_startConditional branch done).bind fun node => .pure ?_
  rintro ⟨other, started⟩ ⟨same, ready⟩ emitted before
  refine forall_mem_cons.mpr ⟨placed_of_ready (of?_of_not_element other) ?_, before⟩
  refine started bound ready fun e member => ?_
  rw [same] at member
  cases member
  exact emitted

theorem mem_of_openConditional? (found : openConditional? done = some c) :
    .conditional c.branches c.lowered c.span ∈ done ∧ ∀ node ∈ c.before, node ∈ done := by
  obtain ⟨ignored, -, rfl, -⟩ := eq_of_openConditional? found
  exact ⟨by simp, fun node inside => by simp [inside]⟩

theorem yields_visitElse {inner} (d : Directive) (el : Element) (inComponent)
    (joins : openConditional? done = some c) (written : d.Written)
    (places : PlacesKids S (el.kind == .component) kids)
    (placesInner : PlacesInner S (inner (el.erase d.name))) (around : S.Around bound scope) :
    Yields S scope (visitElse c d el kids inner)
      (PlacesMore S inComponent bound done ·.done) := by
  have condition : Yields S scope (if d.name == "else-if" then some <$> branchCondition d
      else pure none) fun condition => ∀ e ∈ condition, e.Emitted S.policy bound := by
    split
    · refine (yields_branchCondition d written around).map fun condition emitted e member => ?_
      cases member
      exact emitted
    · exact .pure (by simp)
  unfold visitElse
  rw [bind_ite]
  refine condition.bind fun condition =>
    (yields_visitBranch (el.erase d.name) condition places placesInner around).bind
      fun branch => (yields_extendConditional c branch).bind fun node => .pure ?_
  rintro ⟨other, extended⟩ ⟨same, ready⟩ emitted before
  obtain ⟨member, others⟩ := mem_of_openConditional? joins
  have old : ∀ node ∈ c.lowered, node.Scoped S.policy bound := by
    cases (before _ member).ready fun _ isTemplate => (by cases isTemplate) with
    | conditional inside => exact inside
  refine forall_mem_cons.mpr ⟨placed_of_ready (of?_of_not_element other) ?_, ?_⟩
  · exact extended bound ready (same ▸ emitted) old
  · exact fun node member => before node (others node member)

/-! ## Elements with structural directives -/

theorem structuralCount_erase (structural : isStructural name = true)
    (found : el.find? name = some d) :
    (el.erase name).structuralCount + 1 = el.structuralCount := by
  unfold Element.find? at found
  unfold Element.erase structuralCount
  dsimp only
  generalize el.props = props at found
  induction props with
  | nil => cases found
  | cons p props ih =>
    cases here : p.named? name with
    | some d' =>
      rcases p with a | d''
      · cases here
      · have named : d''.name = name := by
          simp only [named?] at here
          split at here
          next same => simpa using same
          · cases here
        simp [here, named, structural]
    | none =>
      have rest := ih (by simpa [here] using found)
      simp only [eraseP_cons, here, isSome_none, cond_false, countP_cons]
      omega

theorem no_loop_of_structuralCount (none : el.structuralCount ≤ 0) : el.has "for" = false := by
  cases found : el.find? "for" with
  | none => simp [has, found]
  | some d =>
    have fewer := structuralCount_erase (by decide) found
    omega

theorem written_elseIfToIf (written : el.Written) : el.elseIfToIf.Written := by
  refine ⟨fun p member => ?_, written.lowered⟩
  obtain ⟨p', before, rfl⟩ := mem_map.mp member
  cases written.props p' before with
  | «attribute» => exact .attribute
  | directive isWritten =>
    refine .directive ?_
    split
    · exact ⟨isWritten.arg, isWritten.exp, isWritten.loop⟩
    · exact isWritten

theorem find?_elseIfToIf (notIf : name ≠ "if") (notElseIf : name ≠ "else-if") :
    el.elseIfToIf.find? name = el.find? name := by
  unfold elseIfToIf Element.find?
  induction el.props with
  | nil => rfl
  | cons p props ih =>
    rw [map_cons, findSome?_cons, findSome?_cons, ih]
    rcases p with a | d
    · rfl
    · by_cases isElseIf : d.name = "else-if"
      · simp [named?, isElseIf, notIf.symm, notElseIf.symm]
      · simp [isElseIf]

theorem structuralCount_elseIfToIf (el : Element) :
    el.elseIfToIf.structuralCount = el.structuralCount := by
  unfold elseIfToIf structuralCount
  rw [countP_map]
  refine countP_congr fun p _ => ?_
  rcases p with a | d
  · rfl
  · dsimp only [Function.comp_apply]
    split
    next isElseIf =>
      have named : d.name = "else-if" := by simpa using isElseIf
      simp [named, isStructural]
    · rfl

/-- A `v-else-if` that starts a conditional is found as its `v-if`. -/
theorem exists_if_of_elseIf (found : el.find? "else-if" = some d) :
    ∃ d', el.elseIfToIf.find? "if" = some d' := by
  obtain ⟨member, named⟩ := of_find? found
  have renamed : directive { d with name := "if" } ∈ el.elseIfToIf.props :=
    mem_map.mpr ⟨_, member, by simp [named]⟩
  exact isSome_iff_exists.mp (has_of_mem renamed)

theorem yields_visitElement (fuel) (el : Element) (children done inComponent) (written : el.Written)
    (enough : el.structuralCount ≤ fuel) (places : PlacesKids S (el.kind == .component) kids)
    (allowed : el.isSlotTemplate = true → SlotSite.Allowed S ⟨el, inComponent⟩)
    (around : S.Around bound scope) : Yields S scope (visitElement fuel el children kids done)
      (PlacesMore S inComponent bound done ·.done) := by
  induction fuel generalizing el done inComponent scope bound with
  | zero =>
    refine (yields_visitPlain el _ done inComponent written places allowed around).mono ?_
    intro v placed
    refine placed fun _ hasFor => ?_
    rw [no_loop_of_structuralCount enough] at hasFor
    cases hasFor
  | succ fuel ih =>
    have inner : ∀ el' : Element, el'.Written → el'.structuralCount ≤ fuel →
        el'.kind = el.kind → el'.isSlotTemplate = false → PlacesInner S
          (visitElement fuel el' children kids [] >>= fun v => pure v.done.reverse) := by
      intro el' written' enough' kind notSlot scope bound around
      refine (ih el' [] false written' enough' (kind ▸ places) ?_ around).bind fun v => .pure ?_
      · exact fun isSlot => absurd (notSlot.symm.trans isSlot) (by simp)
      · intro placed node member
        exact (placed (by simp) node (mem_reverse.mp member)).ready (by simp)
    rw [visitElement]
    split
    · refine (yields_visitPlain el _ done inComponent written places allowed around).mono ?_
      next isSlot =>
        intro v placed
        exact placed fun notSlot => absurd (notSlot.symm.trans isSlot) (by simp)
    next notSlot =>
      have notSlot : el.isSlotTemplate = false := by simpa using notSlot
      have erased : ∀ {name : String} {d : Directive}, isStructural name = true →
          el.find? name = some d → PlacesInner S (visitElement fuel (el.erase name) children
            kids [] >>= fun v => pure v.done.reverse) := by
        intro name d structural found
        have fewer := structuralCount_erase structural found
        refine inner (el.erase name) (written_erase written name) (by omega) rfl ?_
        rw [isSlotTemplate_erase, notSlot]
        rintro rfl
        cases structural
      split
      next d found =>
        exact yields_visitIf d el done inComponent (written_of_find? written found) places
          (erased (by decide) found) around
      next d _ found =>
        split
        next c joins =>
          refine yields_visitElse d el inComponent joins (written_of_find? written found)
            places ?_ around
          rw [(of_find? found).2]
          exact erased (by decide) found
        · obtain ⟨d', found'⟩ := exists_if_of_elseIf found
          have isWritten := written_of_find? written found
          have fewer := structuralCount_erase (by decide) found'
          rw [structuralCount_elseIfToIf] at fewer
          refine (Binds.error _ _).bind fun _ => (yields_visitIf { d with name := "if" }
            el.elseIfToIf done inComponent ⟨isWritten.arg, isWritten.exp, isWritten.loop⟩
            places ?_ around).mono fun v placed _ => placed
          refine inner _ (written_erase (written_elseIfToIf written) "if") (by omega) rfl ?_
          refine (isSlotTemplate_erase (by decide)).trans ?_
          rw [← notSlot, isSlotTemplate, has,
            find?_elseIfToIf (by decide) (by decide)]
          rfl
      next d _ _ found =>
        split
        next c joins =>
          refine yields_visitElse d el inComponent joins (written_of_find? written found)
            places ?_ around
          rw [(of_find? found).2]
          exact erased (by decide) found
        · have notSlot' : (el.erase "else").isSlotTemplate = false :=
            (isSlotTemplate_erase (by decide)).trans notSlot
          have fewer := structuralCount_erase (by decide) found
          refine (Binds.error _ _).bind fun _ => (yields_visitLoop (el.erase "else") children
            done inComponent (written_erase written "else") notSlot' places ?_
            around).mono fun v placed _ => placed
          intro d' found'
          have fewer' := structuralCount_erase (by decide) found'
          refine inner _ (written_erase (written_erase written "else") "for") (by omega) rfl ?_
          exact (isSlotTemplate_erase (by decide)).trans notSlot'
      · exact yields_visitLoop el children done inComponent written notSlot places
          (fun d found => erased (by decide) found) around

/-! ## Templates -/

theorem yields_visitNodes_of (each : ∀ node ∈ nodes, ∀ done, Yields S scope (visitNode done node)
      (PlacesMore S inComponent bound done ·.done)) (skip done) :
    Yields S scope (visitNodes skip done nodes)
      (PlacesMore S inComponent bound done) := by
  induction nodes generalizing skip done with
  | nil => exact .pure fun before n member => before n (mem_reverse.mp member)
  | cons node nodes ih =>
    have rest := fun skip done =>
      ih (fun node member => each node (mem_cons_of_mem _ member)) skip done
    cases skip with
    | succ skip => exact rest skip done
    | zero =>
      refine (each node mem_cons_self done).bind fun v => (rest _ _).mono ?_
      exact fun result others here before => others (here before)

theorem yields_visitNode (written : node.Written)
    (allowed : ∀ site ∈ node.slotSites inComponent, site.Allowed S) (around : S.Around bound scope)
    (done) : Yields S scope (visitNode done node)
      (PlacesMore S inComponent bound done ·.done) := by
  induction written generalizing inComponent scope bound done with
  | @element el children elWritten _ ih =>
    rw [slotSites, slotSitesAll_eq] at allowed
    obtain ⟨own, below⟩ := forall_mem_append.mp allowed
    have places : PlacesKids S (el.kind == .component) (visitNodes 0 [] children) := by
      refine fun scope => Binds.around fun bound around => ?_
      refine (yields_visitNodes_of (fun child member done => ?_) 0 []).mono
        fun nodes placed => placed (by simp)
      exact ih child member (forall_mem_flatMap.mp below child member) around done
    refine yields_visitElement _ el children done inComponent elWritten (Nat.le_refl _) places ?_
      around
    exact fun isSlot => own _ (by simp [isSlot])
  | text =>
    exact .pure fun before => forall_mem_cons.mpr ⟨placed_of_ready rfl .text, before⟩
  | comment =>
    refine Binds.read.bind fun o => ?_
    split
    · exact .pure fun _ before => before
    · exact .pure fun _ before => forall_mem_cons.mpr ⟨placed_of_ready rfl .comment, before⟩
  | @interpolation content span isWritten =>
    refine (yields_process content .expression (by decide)).bind fun e => ?_
    refine .pure fun emitted before => ?_
    refine forall_mem_cons.mpr ⟨placed_of_ready rfl (.interpolation ?_), before⟩
    exact emitted isWritten fun u _ => around.script u

theorem yields_rootCode (nodes) :
    Yields S scope (rootCode nodes) fun r => ∀ bound,
      (∀ node ∈ nodes, node.Ready S.policy bound) → ∀ code ∈ r, code.Scoped S.policy bound := by
  unfold rootCode
  split
  · exact .pure fun _ _ => by simp
  next node =>
    refine (yields_code node).map fun code inside bound ready _ member => ?_
    cases member
    exact inside bound (ready node mem_cons_self)
  · refine Binds.fresh.bind fun id => (yields_codes nodes).bind fun codes => .pure ?_
    intro inside _ bound ready _ member
    cases member
    exact scoped_fragment id _ (inside bound ready) true (by rintro _ ⟨⟩)

theorem yields_lowerRoot (written : ∀ node ∈ nodes, node.Written)
    (allowed : ∀ site ∈ slotSitesAll false nodes, site.Allowed S) :
    Yields S [] (lowerRoot nodes) fun r => ∀ code ∈ r.2, code.Scoped S.policy [] := by
  have around : S.Around [] [] := .ofScope S []
  rw [slotSitesAll_eq, forall_mem_flatMap] at allowed
  have visited := yields_visitNodes_of (fun node member =>
    yields_visitNode (written node member) (allowed node member) around) 0 []
  refine visited.bind fun nodes => (yields_mergeText true nodes).bind fun merged =>
    (yields_rootCode merged).bind fun code => .pure ?_
  intro coded kept placed
  refine coded [] (kept (keepsRuns_ready S.policy []) fun node member => ?_)
  exact (placed (by simp) node member).ready (by simp)

end Stencil.Lower

namespace Stencil

/-- The scripts of a template stand in its code below the functions that bind their names. -/
theorem Root.lower_scoped {S} {root : Root} (written : ∀ node ∈ root.children, node.Written)
    (allowed : ∀ site ∈ TemplateNode.slotSitesAll false root.children, site.Allowed S)
    (clean : S.clean → (root.lower S.options).2 = []) {code}
    (found : (root.lower S.options).1.code = some code) : code.Scoped S.policy [] := by
  obtain ⟨-, -, inside⟩ := Lower.yields_lowerRoot written allowed {} rfl
  exact inside clean code found

end Stencil
