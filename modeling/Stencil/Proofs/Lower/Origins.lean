import Stencil.Proofs.Lower.Accounts
import Stencil.Proofs.Lower.Visiting

/-! # Where lowered code comes from

Lowering takes an element through several steps: its structural directives are dealt with, its
scripts are read, and rules change its props. `Element.StemsFrom` says what these steps keep of the
element of the template. `Sources.held_lower` puts the steps together: every creation in the code of
a template has a number of its own and is made for an element, every script is one of the template,
and every component and directive that the code refers to is in use.
-/

namespace Stencil

open List TemplateNode Children Element

/-! ## Elements -/

/-- An element on its way through lowering, and the element of the template that it was. -/
structure Element.StemsFrom (origin el : Element) : Prop where
  tag : el.tag = origin.tag
  kind : el.kind = origin.kind
  span : el.span = origin.span
  directives : ∀ d, .directive d ∈ el.props → origin.Lends d.name
  attributes : ∀ a, .attribute a ∈ el.props → .attribute a ∈ origin.props

namespace Element.StemsFrom

theorem refl (el : Element) : el.StemsFrom el :=
  ⟨rfl, rfl, rfl, fun _ => .own, fun _ member => member⟩

variable {origin el : Element} (stems : origin.StemsFrom el)
include stems

theorem erase (name) : origin.StemsFrom (el.erase name) :=
  ⟨stems.tag, stems.kind, stems.span,
    fun d member => stems.directives d (mem_of_mem_eraseP member),
    fun a member => stems.attributes a (mem_of_mem_eraseP member)⟩

theorem elseIfToIf : origin.StemsFrom el.elseIfToIf := by
  refine ⟨stems.tag, stems.kind, stems.span, fun d member => ?_, fun a member => ?_⟩
  · obtain ⟨p, before, same⟩ := mem_map.mp member
    rcases p with a | d'
    · cases same
    · cases same
      have lent := stems.directives d' before
      split
      next isElseIf =>
        rw [beq_iff_eq] at isElseIf
        rw [isElseIf] at lent
        generalize named : "else-if" = name at lent
        cases lent with
        | own inside => exact .elseIf inside named.symm
        | elseIf | style => exact absurd named (by decide)
      · exact lent
  · obtain ⟨p, before, same⟩ := mem_map.mp member
    rcases p with a' | d
    · cases same
      exact stems.attributes _ before
    · cases same

theorem changes {R : Directive → Directive → Prop} {props}
    (changes : PropsChange R el.props props) : origin.StemsFrom { el with props } := by
  refine ⟨stems.tag, stems.kind, stems.span, fun d' member => ?_, fun a member => ?_⟩
  · obtain ⟨d, before, named, -⟩ := exists_of_mem_changes changes member
    exact named ▸ stems.directives d before
  · obtain ⟨p, before, changed⟩ := exists_of_mem_forall₂ changes member
    cases changed
    exact stems.attributes a before

theorem bindStyle : origin.StemsFrom { el with props := el.props.map Stencil.bindStyle } := by
  refine ⟨stems.tag, stems.kind, stems.span, fun d member => ?_, fun a member => ?_⟩
  all_goals
    obtain ⟨p, before, same⟩ := mem_map.mp member
    unfold Stencil.bindStyle at same
    split at same
  next a =>
    split at same
    next named _ =>
      cases same
      exact .style (stems.attributes a before) named
    · cases same
  · cases same
    exact stems.directives d before
  · split at same
    · cases same
    · cases same
      exact stems.attributes a before
  · cases same

theorem hasSideEffects : el.hasSideEffects = origin.hasSideEffects := by
  unfold Element.hasSideEffects
  rw [stems.tag, stems.kind]

theorem tagged {components tag} (tagged : el.Tagged components tag) :
    origin.Tagged components tag := by
  cases tagged with
  | plain isPlain => exact stems.tag ▸ .plain (stems.kind ▸ isPlain)
  | component isComponent known =>
    exact stems.tag ▸ .component (stems.kind ▸ isComponent) (stems.tag ▸ known)
  | dynamic isComponent => exact .dynamic (stems.kind ▸ isComponent)

end Element.StemsFrom

namespace Sources

/-- An element whose structural directives are still to be dealt with. -/
structure Pending (S : Sources) (el : Element) : Prop where
  stems : ∃ origin ∈ S.elements, origin.StemsFrom el
  fresh : ∀ d, .directive d ∈ el.props → d.Fresh S.Written S.Script
  lowered : el.lowered = none

structure Ready (S : Sources) (hasFor : Bool) (el : Element) : Prop where
  stems : ∃ origin ∈ S.elements, origin.StemsFrom el
  settled : ∀ d, .directive d ∈ el.props → d.Settled S.Written S.Script hasFor
  lowered : el.lowered = none

variable {S : Sources}

theorem Pending.erase (pending : S.Pending el) (name) : S.Pending (el.erase name) := by
  obtain ⟨origin, member, stems⟩ := pending.stems
  exact ⟨⟨origin, member, stems.erase name⟩,
    fun d inside => pending.fresh d (mem_of_mem_eraseP inside), pending.lowered⟩

theorem Pending.elseIfToIf (pending : S.Pending el) : S.Pending el.elseIfToIf := by
  obtain ⟨origin, member, stems⟩ := pending.stems
  refine ⟨⟨origin, member, stems.elseIfToIf⟩, fun d inside => ?_, pending.lowered⟩
  obtain ⟨p, before, same⟩ := mem_map.mp inside
  rcases p with a | d'
  · cases same
  · cases same
    have fresh := pending.fresh d' before
    split
    · exact ⟨fresh.arg, fresh.exp, fresh.loop⟩
    · exact fresh

variable (ready : S.Ready hasFor el)
include ready

/-- Without a loop on the element nothing waits for the loop's names. -/
theorem Ready.settle : S.Ready false el := by
  refine ⟨ready.stems, fun d member => ?_, ready.lowered⟩
  have settled := ready.settled d member
  refine ⟨settled.arg, settled.exp, settled.loop, fun late => settled.argWaits ?_, settled.waits⟩
  simp only [Directive.argWaits, Bool.or_eq_true] at late ⊢
  exact .inl (late.resolve_right (by simp))

theorem Ready.readyProps : ReadyProps S.Written S.Script el.props :=
  fun d member => (ready.settled d member).ready

theorem Ready.bindStyle (sound : S.Sound) :
    S.Ready hasFor { el with props := el.props.map Stencil.bindStyle } := by
  obtain ⟨origin, member, stems⟩ := ready.stems
  exact ⟨⟨origin, member, stems.bindStyle⟩, sound.scripting.bindStyle ready.settled, ready.lowered⟩

end Sources

namespace Lower

open Sources

variable {S : Sources} (sound : S.Sound)
include sound

/-! ## Node creations -/

/-- The leave to refer to a component by the tag, if it does. -/
def leave (name : String) : Tag → Multiset Atom
  | .component _ => {.component name}
  | .literal _ | .helper _ | .dynamic _ => 0

theorem lowers_resolveTag (ready : S.Ready false el)
    (creates : el.kind = .plain ∨ el.kind = .component) :
    Lowers S (resolveTag el) (fun tag => el.Tagged [el.tag] tag ∧
      ∀ part ∈ tag.parts, S.Free part.atoms) 0 (leave el.tag) := by
  unfold resolveTag
  split
  next other =>
    have isPlain : el.kind = .plain := creates.resolve_right (by simpa using other)
    exact .pure_eq ⟨.plain isPlain, by rintro _ ⟨⟩⟩ rfl
  next isComponent =>
    have isComponent : el.kind = .component := by simpa using isComponent
    split
    next node found =>
      have holds := sound.scripting.scripting.dynamicTag? ready.readyProps node found
      exact .pure_eq ⟨.dynamic isComponent, by simpa [Tag.parts] using holds⟩ rfl
    · refine (Lowers.useComponent el.tag).followed fun _ _ => ?_
      exact .pure_eq ⟨.component isComponent (by simp), by rintro _ ⟨⟩⟩ rfl

/-- The name by which a directive is looked up, if it is. -/
def resolved? (d : RuntimeDirective) : Option String :=
  match d.source with
  | .helper _ => none
  | .resolve => some d.directive.name

theorem lowers_runtimeArguments {origin : Element} {d : RuntimeDirective}
    (settled : d.directive.Settled S.Written S.Script hasFor)
    (lends : origin.Lends d.directive.name) :
    Lowers S (runtimeArguments d) (fun node => S.Free node.atoms ∧
      origin.Runs (resolved? d).toList node) 0 fun _ => ↑((resolved? d).toList.map Atom.directive) := by
  obtain ⟨dir, source⟩ := d
  have arguments (first : RenderNode) (free : S.Free first.atoms) :
      S.Free (dir.arguments first).atoms :=
    sound.scripting.scripting.arguments settled.lowered free
  cases source with
  | helper h => exact .pure_eq ⟨arguments (.helper h) (by simp), .helper⟩ rfl
  | resolve =>
    refine (Lowers.useDirective dir.name).followed fun _ _ => ?_
    exact .pure_eq ⟨arguments _ (sound.script _), .resolved lends (by simp [resolved?])⟩ rfl

theorem lowers_runtimeArgumentList {origin : Element}
    (settled : ∀ d ∈ ds, d.directive.Settled S.Written S.Script hasFor)
    (lends : ∀ d ∈ ds, origin.Lends d.directive.name) :
    Lowers S (runtimeArgumentList ds) (fun nodes => ∀ node ∈ nodes, S.Free node.atoms ∧
      origin.Runs (ds.filterMap resolved?) node) 0
      fun _ => ↑((ds.filterMap resolved?).map Atom.directive) := by
  induction ds with
  | nil => exact .pure_eq (by simp) rfl
  | cons d ds ih =>
    obtain ⟨settledHere, settledLater⟩ := forall_mem_cons.mp settled
    obtain ⟨lendsHere, lendsLater⟩ := forall_mem_cons.mp lends
    have names : (d :: ds).filterMap resolved? =
        (resolved? d).toList ++ ds.filterMap resolved? := by
      cases found : resolved? d <;> simp [found]
    rw [names]
    refine (lowers_runtimeArguments sound settledHere lendsHere).gain fun first here => ?_
    refine (ih settledLater lendsLater).gain fun rest others => .pure_eq ?_ (by simp)
    refine forall_mem_cons.mpr ⟨⟨here.1, here.2.mono (subset_append_left _ _)⟩, ?_⟩
    exact fun node inside => ⟨(others node inside).1,
      (others node inside).2.mono (subset_append_right _ _)⟩

theorem makes_lowerChildren (ready : S.Ready false el) (siblings : S.Siblings children) :
    Makes S (lowerChildren el children) (sum children)
      fun r => RenderNode.sum ((r.1.map parts).getD []) := by
  unfold lowerChildren
  split
  · exact .pure_eq trivial rfl
  next first rest =>
    split
    · refine (makes_buildSlots sound ready.settled siblings).followed fun built _ => ?_
      exact .pure_eq trivial (by simp [parts])
    · split
      next single =>
        refine Lowers.given ((makes_code sound first).followed fun node _ => .pure_eq trivial ?_)
          (.of_le (by simp))
        split <;> simp [parts]
      · exact (makes_codes sound _).followed fun nodes _ => .pure_eq trivial (by simp [parts])

theorem makes_lowerElement (ready : S.Ready false el)
    (creates : el.kind = .plain ∨ el.kind = .component)
    (kept : .sideEffects ∈ S.options.nodeRules → el.hasSideEffects = false)
    (siblings : S.Siblings children) :
    Makes S (lowerElement el children) (sum children) RenderNode.atoms := by
  obtain ⟨origin, member, stems⟩ := ready.stems
  refine (lowers_resolveTag sound ready creates).gain fun tag named => ?_
  refine Lowers.fresh.gain fun id _ => ?_
  refine .steady (sound.scripting.steady_lowerProps ready.readyProps) fun props holds => ?_
  obtain ⟨freeProps, own⟩ := holds
  refine (lowers_runtimeArgumentList sound (fun d inside => ready.settled _ (own d inside).1)
    fun d inside => stems.directives _ (own d inside).1).gain fun directives runs => ?_
  rw [add_assoc, add_assoc]
  refine (makes_lowerChildren sound ready siblings).bind fun content _ => ?_
  obtain ⟨content, flag⟩ := content
  refine .pure trivial fun c rest held => ?_
  have run : ∀ nodes ∈ (if directives.isEmpty then none else some directives),
      nodes = directives := by
    intro nodes found
    split at found
    · cases found
    · exact (Option.some.inj found).symm
  -- All names that the creation refers to are in use.
  have looked : props.directives.filterMap resolved? ⊆ c.directives := by
    refine fun name inside => held.allows (.directive name) ?_
    simp only [Multiset.mem_add, Multiset.mem_coe, mem_map]
    exact .inl (.inr (.inr (.inr ⟨name, inside, rfl⟩)))
  have tagged : el.Tagged c.components tag := by
    cases named.1 with
    | plain isPlain => exact .plain isPlain
    | component isComponent _ =>
      exact .component isComponent (held.allows (.component el.tag) (by simp [leave]))
    | dynamic isComponent => exact .dynamic isComponent
  have labeled (l : Label) (isTag : l.tag = tag) (span : l.span = el.span)
      (isRun : ∀ nodes ∈ l.directives, nodes = directives) :
      S.Labeled c.components c.directives l := by
    refine .inr ⟨origin, member, ⟨isTag ▸ stems.tagged tagged, ?_, span.trans stems.span⟩, ?_⟩
    · intro nodes found node inside
      exact (runs node (isRun nodes found ▸ inside)).2.mono looked
    · exact fun rule => stems.hasSideEffects ▸ kept rule
  have free : S.Free (RenderNode.sum (tag.parts ++ props.props.toList ++
      ((if directives.isEmpty then none else some directives).getD []))) := by
    simp only [RenderNode.sum, map_append, sum_append, free_add, free_sum]
    refine ⟨⟨named.2, by simpa using freeProps⟩, ?_⟩
    split
    · simp
    · exact fun node inside => (runs node inside).1
  have unnamed : S.Held c (RenderNode.sum ((content.map parts).getD []) + {.number id} +
      rest) := by
    refine held.mono (add_le_add_left (add_le_add_right ?_ _) _)
    exact (Multiset.le_add_right _ _).trans (Multiset.le_add_left _ _)
  refine ((unnamed.add_free free).add_one (x := .label _) rfl
    (labeled ⟨tag, _, el.span⟩ rfl rfl run)).mono (le_of_eq ?_)
  simp only [RenderNode.atoms_vnode, VNode.parts, VNode.new, VNode.label, RenderNode.sum,
    map_append, sum_append]
  ac_rfl

theorem makes_lowerOutlet (ready : S.Ready false el) (children) :
    Makes S (lowerOutlet el children) (sum children) RenderNode.atoms := by
  have outlet := sound.scripting.scripting.outlet (q := {}) ready.readyProps
    (sound.scripting.string _) (by rintro _ ⟨⟩)
  have fallback : Makes S (outletFallback children) (sum children)
      fun f => RenderNode.sum f.toList := by
    unfold outletFallback
    split
    · exact .pure trivial (.of_le (Multiset.zero_le _))
    · exact (makes_codes sound children).followed fun nodes _ => .pure_eq trivial (by simp)
  refine .steady Steady.read fun o _ => ?_
  refine .steady (sound.scripting.steady_outletProps outlet.2 el) fun props freeProps => ?_
  refine fallback.followed fun f _ => .pure trivial ?_
  have slots := sound.script (if o.qualify then "_ctx.$slots" else "$slots")
  have front (rest : List RenderNode) : S.Turns (RenderNode.sum rest)
      (RenderNode.call .renderSlot (.script (if o.qualify then "_ctx.$slots" else "$slots") ::
        (el.props.foldl OutletProps.add {}).name :: rest)).atoms := by
    rw [RenderNode.atoms_call]
    exact (Turns.more outlet.1).add_free slots
  refine .trans ?_ (front _)
  cases props with
  | none =>
    cases f with
    | none => exact .refl _
    | some f => exact .more (sound.script _)
  | some p =>
    have free := freeProps p rfl
    cases f with
    | none => exact .more free
    | some f => exact .more free

theorem lowers_lowerKind (ready : S.Ready false el)
    (kept : .sideEffects ∈ S.options.nodeRules → el.hasSideEffects = false)
    (siblings : S.Siblings children) :
    Lowers S (lowerKind el children) (fun el' => S.Sibling (.element el' children))
      (sum children) fun el' => (element el' children).atoms := by
  have made {act : Lower RenderNode} (other : el.kind ≠ .template)
      (makes : Makes S act (sum children) RenderNode.atoms) :
      Lowers S (do return { el with lowered := some (← act) })
        (fun el' => S.Sibling (.element el' children)) (sum children)
        fun el' => (element el' children).atoms :=
    makes.followed fun node _ => .pure_eq ⟨ready.settled, fun isTemplate => absurd isTemplate other⟩
      (by simp [atoms])
  unfold lowerKind
  split
  next isPlain =>
    exact made (by simp [isPlain]) (makes_lowerElement sound ready (.inl isPlain) kept siblings)
  next isComponent =>
    exact made (by simp [isComponent])
      (makes_lowerElement sound ready (.inr isComponent) kept siblings)
  next isSlot => exact made (by simp [isSlot]) (makes_lowerOutlet sound ready children)
  · exact .pure_eq ⟨ready.settled, fun _ => ready.lowered⟩ (by simp [atoms, ready.lowered])

/-! ## Rules and content -/

/-- The element of some content that no rule has dropped. -/
structure Settles (S : Sources) (content : Content) : Prop where
  ready : S.Ready false content.element
  kept : content.children.isSome = true → .sideEffects ∈ S.options.nodeRules →
    content.element.hasSideEffects = false
  siblings : ∀ children ∈ content.children, S.Siblings children

/-- Lowered siblings that are all new. -/
abbrev Brings (S : Sources) (act : Lower (List TemplateNode)) : Prop :=
  Lowers S act S.Siblings 0 sum

theorem lowers_lowerContent (ready : S.Ready false el) (hasChildren) (brings : Brings S kids) :
    Lowers S (lowerContent hasChildren kids el) (Settles S) 0 fun content =>
      sum (content.children.getD []) := by
  refine .steady Steady.read fun o same => ?_
  subst same
  refine .steady (Steady.logic.applyNodeRules (I := S.Ready false)
    (fun _ ready => ready.bindStyle sound) hasChildren { element := el } _) ?_
  intro ruled holds
  obtain ⟨ready', same, harmless⟩ := holds ready
  split
  · exact .pure_eq ⟨ready', by simp, by simp⟩ rfl
  next stays =>
    have takes : Steady S.options (takesText ruled.element) fun _ => True :=
      Steady.read.bind fun _ _ => .pure trivial
    have lowered : Brings S (if ruled.stripped then pure [] else kids) := by
      split
      · exact .pure_eq (by rintro _ ⟨⟩) rfl
      · exact brings
    rw [bind_ite]
    refine lowered.followed fun children siblings => .steady takes fun direct _ =>
      (lowers_mergeText direct siblings).followed fun merged holds => ?_
    refine .pure_eq ⟨ready', fun _ rule => ?_, ?_⟩ rfl
    · exact same ▸ harmless (by simpa using stays) rule
    · rintro _ ⟨⟩
      exact holds

theorem lowers_inSlotLoop (ready : S.Ready hasFor el)
    (loops : ∀ d, .directive d ∈ el.props → d.name = "for" → hasFor = true) (hasChildren)
    (brings : Brings S kids) :
    Lowers S (inSlotLoop el (lowerContent hasChildren kids)) (Settles S) 0 fun content =>
      sum (content.children.getD []) := by
  unfold inSlotLoop
  split
  · refine .steady (sound.scripting.steady_slotLoop? ready.settled (by simp)) fun head? found => ?_
    obtain ⟨sources, origin⟩ := found
    split
    next head =>
      obtain rfl : hasFor = true := by
        rcases origin rfl with none | ⟨d, member, isFor⟩
        · cases none
        · exact loops d member isFor
      refine .inScope (.steady (PlainScripting.steady_enterLoop head) fun head' same => ?_)
      have source : S.Script head'.source := same ▸ sources head rfl
      refine .steady (sound.scripting.steady_keepSlotLoop ready.settled source) fun props kept => ?_
      obtain ⟨origin, member, stems⟩ := ready.stems
      have ready' : S.Ready false { el with props } := by
        refine ⟨⟨origin, member, stems.changes kept⟩, ?_, ready.lowered⟩
        intro d inside
        obtain ⟨_, -, -, changed⟩ := exists_of_mem_changes kept inside
        exact changed.1
      exact lowers_lowerContent sound ready' hasChildren brings
    · exact lowers_lowerContent sound ready.settle hasChildren brings
  · exact lowers_lowerContent sound ready.settle hasChildren brings

/-! ## Siblings -/

/-- A step that adds to lowered siblings. -/
abbrev Adds (S : Sources) (done : List TemplateNode) (act : Lower Visited) : Prop :=
  S.Siblings done → Lowers S act (fun v => S.Siblings v.done) (sum done)
    fun v => sum v.done

theorem adds_visitPlain (pending : S.Pending el) (hasChildren) (brings : Brings S kids) (done) :
    Adds S done (visitPlain el hasChildren kids done) := by
  intro before
  refine .steady (sound.scripting.steady_processProps pending.fresh) fun props read => ?_
  obtain ⟨origin, member, stems⟩ := pending.stems
  have ready : S.Ready (el.has "for") { el with props } := by
    refine ⟨⟨origin, member, stems.changes read⟩, ?_, pending.lowered⟩
    intro d inside
    obtain ⟨_, -, -, changed⟩ := exists_of_mem_changes read inside
    exact changed
  have loops : ∀ d, .directive d ∈ props → d.name = "for" → el.has "for" = true := by
    intro d inside isFor
    obtain ⟨d', before, named, -⟩ := exists_of_mem_changes read inside
    have found := has_of_mem before
    rwa [← named, isFor] at found
  refine (Lowers.inSlotScope _ (lowers_inSlotLoop sound ready loops hasChildren brings)).gain ?_
  intro content settles
  split
  next found => exact .pure before (.of_le (Multiset.le_add_right _ _))
  next children found =>
    have kept := settles.kept (by simp [found])
    rw [add_comm, found]
    refine (lowers_lowerKind sound settles.ready kept (settles.siblings _ found)).bind ?_
    exact fun el' here => .pure_eq (forall_mem_cons.mpr ⟨here, before⟩) rfl

omit sound in
theorem atoms_setBlock (v isBlock) :
    (RenderNode.vnode { v with isBlock }).atoms = (RenderNode.vnode v).atoms := by
  simp [VNode.parts, VNode.label]

theorem makes_itemCode (children) (free : ∀ p ∈ key, S.Script p.key ∧ S.Free p.value.atoms)
    (isStable) : Makes S (itemCode children key isStable) (sum children) RenderNode.atoms := by
  unfold itemCode
  split
  next el inner =>
    refine Lowers.given ((makes_code sound (.element el inner)).followed fun node _ => ?_)
      (.of_le (by simp))
    have keyed : S.Turns node.atoms (node.withKey key).atoms := by
      cases key with
      | none => exact .refl _
      | some p => exact turns_inject (free_property.mpr (free p rfl)) sound node
    dsimp only
    split
    next v same =>
      split
      · exact .pure trivial keyed
      · refine .pure trivial ?_
        rw [atoms_setBlock, ← same]
        exact keyed
    · exact .pure trivial keyed
  · refine Lowers.fresh.gain fun id _ => (makes_codes sound children).bind fun nodes _ => ?_
    refine .pure trivial (turns_fragment_nodes id _ nodes _ fun node found => ?_)
    obtain ⟨p, isKey, rfl⟩ := Option.map_eq_some_iff.mp found
    simpa using free p isKey

omit sound in
theorem makes_loopCode (script : S.Script source) (params item flag isStable span) :
    Makes S (loopCode source params item flag isStable span) item.atoms RenderNode.atoms := by
  refine Lowers.fresh.gain fun id _ => .pure trivial ?_
  refine .trans (.add_right (.more (free_expression.mpr script)) _) ?_
  refine .trans (.of_le (le_of_eq ?_)) (turns_fragment rfl rfl)
  simp [VNode.parts, VNode.new, Tag.parts, parts]

theorem adds_visitLoop {inner} (pending : S.Pending el) (children) (brings : Brings S kids)
    (bringsInner : ∀ el, S.Pending el → Brings S (inner el)) (done) :
    Adds S done (visitLoop el children kids inner done) := by
  intro before
  unfold visitLoop
  split
  · exact adds_visitPlain sound pending _ brings done before
  next d found =>
    have fresh := pending.fresh d (of_find? found).1
    have pending' := pending.erase "for"
    refine .steady (sound.scripting.steady_loopHead? fresh.exp) fun head? sources => ?_
    split
    · exact adds_visitPlain sound pending' _ brings done before
    next head =>
      refine .inScope (.steady (PlainScripting.steady_enterLoop head) fun head' same => .inLoop ?_)
      have source : S.Script head'.source := same ▸ sources head rfl
      refine .steady (sound.scripting.steady_itemKey? pending'.fresh children) fun key keyed => ?_
      have lowered : Brings S (if (el.erase "for").kind == .template then kids
          else inner (el.erase "for")) := by
        split
        · exact brings
        · exact bringsInner _ pending'
      rw [bind_ite]
      refine lowered.gain fun items siblings => ?_
      rw [add_comm]
      refine (lowers_mergeText false siblings).bind fun merged _ => ?_
      refine (makes_itemCode sound merged keyed _).bind fun item _ => ?_
      refine (makes_loopCode source _ item _ _ _).bind fun code _ => ?_
      refine .pure_eq (forall_mem_cons.mpr ⟨trivial, before⟩) ?_
      simp [atoms]

/-! ## Conditionals -/

theorem makes_branchContent (b key) :
    Makes S (branchContent b key) (sum b.children) RenderNode.atoms := by
  have free : S.Free (keyProperty key).atoms :=
    free_property.mpr ⟨sound.scripting.snippet _ _ _, sound.scripting.constant _ _⟩
  unfold branchContent
  split
  next el children only =>
    rw [only]
    refine Lowers.given ((makes_code sound (.element el children)).followed fun node _ => ?_)
      (.of_le (by simp))
    split
    next v => exact .pure trivial (atoms_setBlock v true ▸ turns_inject free sound _)
    · exact .pure trivial (turns_inject free sound _)
  next head children lowered span only =>
    rw [only]
    refine Lowers.given ((makes_code sound (.loop head children lowered span)).followed ?_)
      (.of_le (by simp))
    exact fun node _ => .pure trivial (turns_inject free sound _)
  · refine Lowers.fresh.gain fun id _ => (makes_codes sound b.children).bind fun nodes _ => ?_
    refine .pure trivial (turns_fragment_nodes id _ nodes _ ?_)
    simpa using free

theorem makes_branchCode {b : Branch} (condition : ∀ e ∈ b.condition, S.Script e) (key) :
    Makes S (branchCode b key) (sum b.children) RenderNode.atoms := by
  refine (makes_branchContent sound b key).followed fun content _ => ?_
  split
  next e found =>
    have placeholder : S.Free RenderNode.placeholder.atoms := by
      simpa [RenderNode.placeholder] using ⟨sound.scripting.string _, sound.script _⟩
    have guarded := (Turns.more (a := content.atoms) placeholder).add_free
      (free_expression.mpr (condition e found))
    refine .pure trivial (guarded.trans (.of_le (le_of_eq ?_)))
    rw [RenderNode.atoms_conditional, RenderNode.atoms_expr, add_comm content.atoms]
  · exact .pure trivial (.refl _)

omit sound in
theorem lowers_visitBranch {inner} (pending : S.Pending el) (condition) (brings : Brings S kids)
    (bringsInner : ∀ el, S.Pending el → Brings S (inner el)) :
    Lowers S (visitBranch el condition kids inner) (fun b => b.condition = condition) 0
      fun b => sum b.children := by
  have lowered : Brings S (if el.kind == .template && !el.has "for" then kids else inner el) := by
    split
    · exact brings
    · exact bringsInner el pending
  unfold visitBranch
  rw [bind_ite]
  exact lowered.followed fun children siblings =>
    (lowers_mergeText false siblings).followed fun merged _ => .pure_eq rfl rfl

theorem adds_visitIf {inner} {d : Directive} (fresh : d.Fresh S.Written S.Script) (pending : S.Pending el)
    (brings : Brings S kids) (bringsInner : ∀ el, S.Pending el → Brings S (inner el)) (done) :
    Adds S done (visitIf d el kids inner done) := by
  intro before
  refine .steady (sound.scripting.steady_branchCondition fresh) fun condition script => ?_
  refine (lowers_visitBranch (pending.erase "if") (some condition) brings bringsInner).gain ?_
  intro b same
  have guarded : ∀ e ∈ b.condition, S.Script e := by
    rw [same]
    rintro _ ⟨⟩
    exact script
  have starts : Lowers S (startConditional b done) S.Sibling (sum b.children)
      atoms :=
    (makes_branchCode sound guarded _).followed fun code _ => .pure_eq trivial (by
      simp [atoms])
  rw [add_comm]
  exact starts.bind fun node here => .pure_eq (forall_mem_cons.mpr ⟨here, before⟩) rfl

omit sound in
theorem sum_openConditional? (found : openConditional? done = some c) :
    RenderNode.sum c.lowered.toList + sum c.before ≤ sum done := by
  obtain ⟨ignored, -, rfl, -⟩ := eq_of_openConditional? found
  simp [atoms]

theorem adds_visitElse {inner} (open_ : openConditional? done = some c) {d : Directive}
    (fresh : d.Fresh S.Written S.Script) (pending : S.Pending el) (brings : Brings S kids)
    (bringsInner : ∀ el, S.Pending el → Brings S (inner el)) :
    Adds S done (visitElse c d el kids inner) := by
  intro before
  have others : S.Siblings c.before := fun other inside =>
    before other ((mem_of_openConditional? open_).2 other inside)
  have read : Steady S.options (if d.name == "else-if" then some <$> branchCondition d
      else pure none) fun condition => ∀ e ∈ condition, S.Script e := by
    split
    · refine (sound.scripting.steady_branchCondition fresh).map fun e script => ?_
      rintro _ ⟨⟩
      exact script
    · exact .pure (by simp)
  unfold visitElse
  rw [bind_ite]
  refine .steady read fun condition script => .given ?_ (.of_le (sum_openConditional? open_))
  refine (lowers_visitBranch (pending.erase d.name) condition brings bringsInner).gain ?_
  intro b same
  have extended : Lowers S (extendConditional c b) S.Sibling
      (sum b.children + RenderNode.sum c.lowered.toList) atoms := by
    refine (makes_branchCode sound (same ▸ script) _).bind fun code _ => .pure trivial (.of_le ?_)
    cases c.lowered with
    | none => simp [atoms]
    | some node => simpa [atoms, add_comm] using atoms_attachAlternate node code
  rw [add_comm, ← add_assoc]
  exact extended.bind fun node here => .pure_eq (forall_mem_cons.mpr ⟨here, others⟩) rfl

/-! ## Templates -/

theorem adds_visitElement (fuel) (pending : S.Pending el) (children) (brings : Brings S kids)
    (done) : Adds S done (visitElement fuel el children kids done) := by
  intro before
  induction fuel generalizing el done with
  | zero => exact adds_visitPlain sound pending _ brings done before
  | succ fuel ih =>
    have bringsInner (el : Element) (pending : S.Pending el) : Brings S (do
        return (← visitElement fuel el children kids []).done.reverse) := by
      refine Lowers.followed (ih pending [] (by rintro _ ⟨⟩)) fun v siblings => .pure_eq ?_ ?_
      · exact fun node inside => siblings node (mem_reverse.mp inside)
      · exact ((reverse_perm _).map _).sum_eq
    have fresh {name : String} {d : Directive} (found : el.find? name = some d) :
        d.Fresh S.Written S.Script := pending.fresh d (of_find? found).1
    rw [visitElement]
    split
    · exact adds_visitPlain sound pending _ brings done before
    · split
      next d isIf =>
        exact adds_visitIf sound (fresh isIf) pending brings bringsInner done before
      next d _ isElseIf =>
        have fresh := fresh isElseIf
        split
        next c open_ =>
          exact adds_visitElse sound open_ fresh pending brings bringsInner before
        · refine .steady (.error _ _) fun _ _ => ?_
          exact adds_visitIf sound ⟨fresh.arg, fresh.exp, fresh.loop⟩ pending.elseIfToIf
            brings bringsInner done before
      next d _ _ isElse =>
        split
        next c open_ =>
          exact adds_visitElse sound open_ (fresh isElse) pending brings bringsInner before
        · refine .steady (.error _ _) fun _ _ => ?_
          exact adds_visitLoop sound (pending.erase "else") children brings bringsInner done
            before
      · exact adds_visitLoop sound pending children brings bringsInner done before

omit sound in
theorem lowers_visitNodes_of {nodes}
    (each : ∀ node ∈ nodes, ∀ done, Adds S done (visitNode done node)) (skip)
    (before : S.Siblings done) :
    Lowers S (visitNodes skip done nodes) S.Siblings (sum done)
      sum := by
  induction nodes generalizing skip done with
  | nil =>
    refine .pure_eq (fun node inside => before node (mem_reverse.mp inside)) ?_
    exact ((reverse_perm _).map _).sum_eq
  | cons node nodes ih =>
    have rest := fun skip {done} (before : S.Siblings done) =>
      ih (fun node member => each node (mem_cons_of_mem _ member)) skip before
    cases skip with
    | succ skip => exact rest skip before
    | zero =>
      exact Lowers.followed (each node mem_cons_self done before) fun v siblings =>
        rest _ siblings

end Lower

namespace Sources

/-- A node of a template whose elements and scripts are among what there is. -/
inductive Given (S : Sources) : TemplateNode → Prop
  | element {el children} :
      S.Pending el → (∀ child ∈ children, Given S child) → Given S (.element el children)
  | text {t} : Given S (.text t)
  | interpolation {content span} :
      S.Written content → Given S (.interpolation content span)
  | comment {c} : Given S (.comment c)

end Sources

namespace Lower

open Sources

variable {S : Sources} (sound : S.Sound)
include sound

theorem adds_visitNode {node} (given : S.Given node) (done) :
    Adds S done (visitNode done node) := by
  intro before
  induction given generalizing done with
  | @element el children pending _ ih =>
    have brings : Brings S (visitNodes 0 [] children) :=
      lowers_visitNodes_of (fun child member done before => ih child member done before) 0 (by rintro _ ⟨⟩)
    exact adds_visitElement sound _ pending children brings done before
  | text =>
    refine .pure_eq (forall_mem_cons.mpr ⟨trivial, before⟩) ?_
    simp [atoms]
  | comment =>
    have drops : Steady S.options dropsComments fun _ => True :=
      Steady.read.bind fun _ _ => .pure trivial
    refine .steady drops fun dropped _ => ?_
    split
    · exact .pure before (.refl _)
    · refine .pure_eq (forall_mem_cons.mpr ⟨trivial, before⟩) ?_
      simp [atoms]
  | interpolation isWritten =>
    refine .steady (sound.scripting.steady_process isWritten _) fun e script => ?_
    refine .pure (forall_mem_cons.mpr ⟨trivial, before⟩) ?_
    simpa [atoms] using Turns.more (free_expression.mpr script)

theorem makes_rootCode (nodes) :
    Makes S (rootCode nodes) (sum nodes) fun r => RenderNode.sum r.toList := by
  unfold rootCode
  split
  · exact .pure_eq trivial rfl
  next node =>
    have only : Makes S (some <$> code node) node.atoms fun r => RenderNode.sum r.toList :=
      (makes_code sound node).followed fun code _ => .pure_eq trivial (by simp)
    exact only.given (.of_le (by simp))
  · refine Lowers.fresh.gain fun id _ => (makes_codes sound nodes).bind fun codes _ => ?_
    have noProps : ∀ p ∈ (none : Option RenderNode), S.Free p.atoms := by simp
    have made := turns_fragment_nodes id (fragment id codes).span codes true noProps
    exact .pure trivial (made.trans (.of_le (le_of_eq (add_zero _))))

theorem makes_lowerRoot {nodes} (given : ∀ node ∈ nodes, S.Given node) :
    Makes S (lowerRoot nodes) 0 fun r => RenderNode.sum r.2.toList := by
  have visited : Brings S (visitNodes 0 [] nodes) :=
    lowers_visitNodes_of (fun node member => adds_visitNode sound (given node member)) 0 (by rintro _ ⟨⟩)
  refine visited.followed fun nodes siblings => ?_
  refine (lowers_mergeText true siblings).followed fun merged _ => ?_
  exact (makes_rootCode sound merged).followed fun code _ => .pure_eq trivial rfl

end Lower

/-- The code of a template is made from its elements and scripts, every creation in it has a number
    of its own, and what it refers to is in use. -/
theorem Sources.held_lower {S : Sources} (sound : S.Sound) {root : Root}
    (given : ∀ node ∈ root.children, S.Given node) :
    ∃ c : Context, c.components = (root.lower S.options).1.components ∧
      c.directives = (root.lower S.options).1.directives ∧
      S.Held c (RenderNode.sum (root.lower S.options).1.code.toList) := by
  have start : S.Held {} 0 := ⟨Multiset.nodup_zero, by simp, nodup_nil, nodup_nil⟩
  have held := (Lower.makes_lowerRoot sound given {}).2 0 (by rwa [add_zero])
  rw [add_zero] at held
  exact ⟨_, rfl, rfl, held⟩

end Stencil
