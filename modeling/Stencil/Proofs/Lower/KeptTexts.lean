import Stencil.Proofs.Lower.CodeTexts
import Stencil.Proofs.Lower.Visiting

/-! # Texts are kept

If lowering reports nothing, every text of the template stands in its code exactly once, apart from
blank texts between the branches of a conditional, which get lost with the space there.
-/

namespace Stencil

open List Element TemplateNode

mutual
/-- The texts of a template as it was read. -/
def TemplateNode.texts : TemplateNode → List TextNode
  | .element _ children => textsAll children
  | .text t => t.shown
  | .interpolation _ _ | .comment _ | .conditional _ _ _ | .loop _ _ _ _ | .textCall _
  | .compound _ => []

def TemplateNode.textsAll : List TemplateNode → List TextNode
  | [] => []
  | node :: nodes => node.texts ++ textsAll nodes
end

@[simp] theorem TemplateNode.textsAll_eq (nodes) : textsAll nodes = nodes.flatMap texts := by
  induction nodes with
  | nil => rfl
  | cons node nodes ih => rw [textsAll, ih, flatMap_cons]

/-- Whether an element is a further branch of the conditional before it. -/
def Element.joins (el : Element) : Bool :=
  !el.isSlotTemplate && !el.has "if" && (el.has "else-if" || el.has "else")

def TemplateNode.joins : TemplateNode → Bool
  | .element el _ => el.joins
  | _ => false

/-- The texts after a node that may stand before a further branch, given those before the node. -/
def TemplateNode.between (before : List TextNode) (node : TemplateNode) : List TextNode :=
  if node.isIgnorable then node.texts ++ before else []

mutual
/-- The texts below a node that stand between the branches of conditionals. -/
def TemplateNode.lost : TemplateNode → List TextNode
  | .element _ children => lostAmong [] children
  | .text _ | .interpolation _ _ | .comment _ | .conditional _ _ _ | .loop _ _ _ _ | .textCall _
  | .compound _ => []

/-- The texts among siblings, and below them, that stand between the branches of conditionals.
    `before` are those since the last sibling that is neither blank nor a comment. -/
def TemplateNode.lostAmong (before : List TextNode) : List TemplateNode → List TextNode
  | [] => []
  | node :: nodes =>
    (if node.joins then before else []) ++ node.lost ++
      lostAmong (node.between before) nodes
end

mutual
theorem TemplateNode.isBlank_lost : (node : TemplateNode) → ∀ t ∈ node.lost,
    isBlankString t.content = true
  | .element el children => by
      exact isBlank_lostAmong children [] (by simp)
  | .text _ | .interpolation _ _ | .comment _ | .conditional _ _ _ | .loop _ _ _ _ | .textCall _
  | .compound _ => by
      rw [lost]
      simp

theorem TemplateNode.isBlank_lostAmong : (nodes : List TemplateNode) → ∀ before : List TextNode,
    (∀ t ∈ before, isBlankString t.content = true) →
    ∀ t ∈ lostAmong before nodes, isBlankString t.content = true
  | [], before, _ => by
      rw [lostAmong]
      simp
  | node :: nodes, before, blank => by
      rw [lostAmong, forall_mem_append, forall_mem_append]
      refine ⟨⟨?_, isBlank_lost node⟩, ?_⟩
      · split
        · exact blank
        · simp
      · apply isBlank_lostAmong nodes
        unfold between
        split
        next ignorable =>
          refine forall_mem_append.mpr ⟨fun t member => ?_, blank⟩
          cases node with
          | text own =>
            rw [texts, TextNode.shown] at member
            split at member
            · cases member
            · obtain rfl := mem_singleton.mp member
              exact ignorable
          | comment => rw [texts] at member; cases member
          | _ => cases ignorable
        · simp
end

/-- An element before and after its directives are read and rules are applied to it. -/
structure Element.Renews (el el' : Element) : Prop where
  kind : el'.kind = el.kind
  lowered : el'.lowered = el.lowered
  has : ∀ name, name ≠ "bind" → el'.has name = el.has name
  scripted : ScriptedDirectives el'.props

namespace Element.Renews

variable {el el' el'' : Element}

theorem trans (first : el.Renews el') (second : el'.Renews el'') : el.Renews el'' where
  kind := second.kind.trans first.kind
  lowered := second.lowered.trans first.lowered
  has name other := (second.has name other).trans (first.has name other)
  scripted := second.scripted

theorem of_changes {R : Directive → Directive → Prop} {props}
    (scripted : ∀ {d d'}, R d d' → d'.Scripted) (changes : PropsChange R el.props props) :
    el.Renews { el with props } where
  kind := rfl
  lowered := rfl
  has name _ := has_changes changes name
  scripted d member := by
    obtain ⟨before, -, -, changed⟩ := exists_of_mem_changes changes member
    exact scripted changed

theorem of_styles (styles : el.Styles el') (scripted : ScriptedDirectives el'.props) :
    el.Renews el' where
  kind := styles.kind
  lowered := styles.lowered
  has name other := by rw [Element.has, Element.has, styles.find? other]
  scripted := scripted

theorem isSlotTemplate (renews : el.Renews el') : el'.isSlotTemplate = el.isSlotTemplate := by
  rw [Element.isSlotTemplate, Element.isSlotTemplate, renews.kind, renews.has "slot" (by decide)]

end Element.Renews

variable {node : TemplateNode}

namespace Lower

/-! ## Siblings -/

def trailing (done : List TemplateNode) : List TextNode :=
  (done.takeWhile (·.isIgnorable)).flatMap codeTexts

theorem trailing_cons (node done) :
    trailing (node :: done) = if node.isIgnorable then node.codeTexts ++ trailing done else [] := by
  unfold trailing
  rw [takeWhile_cons]
  split <;> simp

/-- A conditional that takes a further branch stands before blanks and comments. -/
theorem texts_openConditional? (found : openConditional? done = some c) :
    done.flatMap codeTexts = trailing done ++
        (c.lowered.toList.flatMap RenderNode.texts ++ c.before.flatMap codeTexts) ∧
      c.branches.getLast?.any (·.condition.isSome) = true := by
  obtain ⟨ignored, blank, rfl, isOpen⟩ := eq_of_openConditional? found
  refine ⟨?_, isOpen⟩
  rw [trailing, takeWhile_append_of_pos blank]
  cases c.lowered <;> simp [isIgnorable, codeTexts]

/-- A step that gives siblings with all of `texts` but `lost`. -/
def Delivers (act : Lower (List TemplateNode)) (lost texts : List TextNode) : Prop :=
  Clean act fun nodes => (nodes.flatMap codeTexts ++ lost).Perm texts ∧
    ∀ node ∈ nodes, node.Settled

/-- Siblings after a node with the texts `texts` was lowered, of which `lost` got lost; `after` are
    the ones that a further branch would lose. -/
structure Keeps (done : List TemplateNode) (lost texts after : List TextNode) (v : Visited) :
    Prop where
  skip : v.skip = 0
  texts : (v.done.flatMap codeTexts ++ lost).Perm
    (done.flatMap codeTexts ++ texts)
  trailing : trailing v.done = after
  settled : ∀ node ∈ v.done, node.Settled

section
variable {lost texts : List TextNode}

theorem Keeps.cons (settled : ∀ node ∈ done, node.Settled)
    (kept : (node.codeTexts ++ lost).Perm texts) (own : node.Settled)
    (visible : node.isIgnorable = false) : Keeps done lost texts [] ⟨node :: done, 0⟩ where
  skip := rfl
  texts := by
    refine perm_iff_count.mpr fun t => ?_
    have := kept.count_eq t
    simp only [flatMap_cons, count_append] at this ⊢
    omega
  trailing := by rw [trailing_cons, if_neg (by simp [visible])]
  settled := forall_mem_cons.mpr ⟨own, settled⟩

end

theorem settled_of_isLeaf (isLeaf : node.isLeaf = true) : node.Settled := by
  cases node with
  | element | conditional | loop => cases isLeaf
  | _ => trivial

theorem clean_mergeText (direct nodes) :
    Clean (mergeText direct nodes) fun result =>
      result.flatMap codeTexts = nodes.flatMap codeTexts ∧
        ((∀ node ∈ nodes, node.Settled) → ∀ node ∈ result, node.Settled) :=
  (Clean.of_yields (fun _ _ => yields_mergeText direct nodes)
    (gives_mergeText_texts direct nodes)).and
    (gives_forall_mergeText settled_of_isLeaf direct nodes)

/-! ## Elements -/

theorem clean_applyNodeRules (hasChildren r rules) :
    Clean (applyNodeRules hasChildren r rules) fun r' => (∀ attr, .dropNext attr ∉ rules) →
      r'.removed = r.removed ∧ r'.stripped = r.stripped ∧ r'.skip = r.skip := by
  induction rules generalizing r with
  | nil => exact .pure fun _ => ⟨rfl, rfl, rfl⟩
  | cons rule rules ih =>
    have one : Clean (applyNodeRule hasChildren r rule) fun r' =>
        (∀ attr, rule ≠ .dropNext attr) →
        r'.removed = r.removed ∧ r'.stripped = r.stripped ∧ r'.skip = r.skip := by
      cases rule with
      | style | dropComments => exact .pure fun _ => ⟨rfl, rfl, rfl⟩
      | stripChildren | sideEffects =>
        rw [applyNodeRule]
        split
        · exact (Clean.error _ _).bind fun _ => .pure (by simp)
        · exact .pure fun _ => ⟨rfl, rfl, rfl⟩
      | dropNext attr => exact .pure fun other => absurd rfl (other attr)
    refine one.bind fun r' => ?_
    split
    · exact .pure fun here keeps => here fun attr same => keeps attr (by simp [same])
    · refine (ih r').mono fun r'' rest here keeps => ?_
      obtain ⟨removed, stripped, skip⟩ := here fun attr same => keeps attr (by simp [same])
      obtain ⟨removed', stripped', skip'⟩ :=
        rest fun attr member => keeps attr (mem_cons_of_mem _ member)
      exact ⟨removed'.trans removed, stripped'.trans stripped, skip'.trans skip⟩

/-- The content of an element: all texts of its children but the ones that get lost. -/
structure Holds (lost texts : List TextNode) (content : Content) : Prop where
  skip : content.skip = 0
  children : ∃ nodes, content.children = some nodes ∧
    (nodes.flatMap codeTexts ++ lost).Perm texts ∧ ∀ node ∈ nodes, node.Settled

section
variable {lost texts : List TextNode}

theorem clean_lowerContent (hasChildren) (delivers : Delivers kids lost texts) (el) :
    Clean (lowerContent hasChildren kids el) (Holds lost texts) := by
  refine Clean.read.bind fun o => (clean_applyNodeRules _ _ _).bind fun ruled => ?_
  split
  next removed =>
    refine .pure fun same keeps => ?_
    rw [(same keeps).1] at removed
    cases removed
  · have lowered : Clean (if ruled.stripped then pure [] else kids) fun nodes =>
        ruled.stripped = false → (nodes.flatMap codeTexts ++ lost).Perm texts ∧
          ∀ node ∈ nodes, node.Settled := by
      split
      next stripped => exact .pure fun kept => absurd stripped (by simp [kept])
      · exact Clean.mono delivers fun _ all _ => all
    rw [bind_ite]
    refine lowered.bind fun nodes => Clean.read.bind fun o =>
      (clean_mergeText _ nodes).bind fun result => .pure ?_
    rintro ⟨same, kept⟩ _ all rules keeps
    obtain ⟨-, stripped, skip⟩ := rules keeps
    obtain ⟨perm, settled⟩ := all stripped
    exact ⟨skip, result, rfl, same ▸ perm, kept settled⟩

variable {el : Element}

section

variable (hasChildren : Bool) (kids : Lower (List TemplateNode))
  (scripted : ScriptedDirectives el.props)
include scripted

theorem gives_lowerContent_element :
    Gives (lowerContent hasChildren kids el) fun content =>
      el.Styles content.element ∧ ScriptedDirectives content.element.props := by
  refine (Gives.trivial _).bind fun o _ => ?_
  have ruled : Gives (applyNodeRules hasChildren { element := el } o.nodeRules) fun r =>
      el.Styles r.element ∧ ScriptedDirectives r.element.props :=
    .of_steady fun _ => (Steady.logic.applyNodeRules
      (I := fun el' => el.Styles el' ∧ ScriptedDirectives el'.props)
      (fun _ holds => ⟨holds.1.bindStyle, fun d member =>
        ((scripting_scripted {}).bindStyle (holds.2.settled false) d member).scripted⟩)
      hasChildren _ _).mono fun _ kept => (kept ⟨.refl el, scripted⟩).1
  refine ruled.bind fun r holds => ?_
  split
  · exact .pure holds
  · rw [bind_ite]
    exact (Gives.trivial _).bind fun _ _ => (Gives.trivial _).bind fun _ _ =>
      (Gives.trivial _).bind fun _ _ => .pure holds

theorem gives_inSlotLoop_element :
    Gives (inSlotLoop el (lowerContent hasChildren kids)) fun content =>
      el.Renews content.element := by
  have content {el : Element} (scripted : ScriptedDirectives el.props) :
      Gives (lowerContent hasChildren kids el) fun content => el.Renews content.element :=
    (gives_lowerContent_element hasChildren kids scripted).mono fun content holds =>
      .of_styles holds.1 holds.2
  unfold inSlotLoop
  split
  · refine (gives_slotLoop? scripted).bind fun head? sources => ?_
    split
    next head =>
      refine Gives.inScope ((gives_enterLoop head).bind fun head' same => ?_)
      have source : head'.source.Scripted := same ▸ sources head rfl
      refine (gives_keepSlotLoop scripted source).bind fun props changes => ?_
      have kept : el.Renews { el with props } :=
        .of_changes (fun changed => changed.1.scripted) changes
      exact (content kept.scripted).mono fun content renews => kept.trans renews
    · exact content scripted
  · exact content scripted

end

theorem clean_loopHead? (d) : Clean (loopHead? d) fun head? => head?.isSome = true := by
  unfold loopHead?
  split
  · exact (Clean.error _ _).bind fun _ => .pure (by simp)
  · split
    · exact (Clean.error _ _).bind fun _ => .pure (by simp)
    next head _ =>
      have read : Clean (process head.source .expression) fun _ => True :=
        .of_yields (fun _ _ => yields_process head.source .expression (by simp)) (.trivial _)
      exact read.bind fun source => .pure fun _ => rfl

theorem clean_enterLoop (head) : Clean (enterLoop head) fun _ => True :=
  .of_binds (scopeVars .loop head.names ++ ·) (fun _ _ => binds_enterLoop head) (.trivial _)

theorem clean_slotLoop? (found props) :
    Clean (slotLoop? found props) fun head? => head? = none →
      found = none ∧ ∀ d, .directive d ∈ props → d.name ≠ "for" := by
  induction props generalizing found with
  | nil => exact .pure fun none => ⟨none, by simp⟩
  | cons p props ih =>
    rcases p with a | d
    · refine (ih found).mono fun head? rest none => ?_
      obtain ⟨start, others⟩ := rest none
      exact ⟨start, by simpa using others⟩
    · rw [slotLoop?]
      split
      · refine (clean_loopHead? d).bind fun head? => ?_
        split
        next head =>
          refine (ih (some head)).mono fun head? rest _ none => ?_
          cases (rest none).1
        · exact .pure (by simp)
      next notFor =>
        refine (ih found).mono fun head? rest none => ?_
        obtain ⟨start, others⟩ := rest none
        exact ⟨start, by simpa using ⟨by simpa using notFor, others⟩⟩

theorem clean_inSlotLoop (hasChildren) (delivers : Delivers kids lost texts)
    (scripted : ScriptedDirectives el.props) :
    Clean (inSlotLoop el (lowerContent hasChildren kids)) fun content => Holds lost texts content ∧
      (el.isSlotTemplate = true → ∀ d, content.element.find? "for" = some d →
        d.loop.isSome = true) := by
  have content (el : Element) (scripted : ScriptedDirectives el.props) :=
    (clean_lowerContent hasChildren delivers el).and
      (gives_lowerContent_element hasChildren kids scripted)
  unfold inSlotLoop
  split
  next isSlot =>
    refine (clean_slotLoop? none el.props).bind_of (gives_slotLoop? scripted) ?_
    intro head? sources
    split
    next head =>
      refine Clean.inScope ((clean_enterLoop head).bind_of (gives_enterLoop head) ?_)
      intro head' same
      have source : head'.source.Scripted := same ▸ sources head rfl
      have kept : Clean (keepSlotLoop head' el.props) fun _ => True :=
        .of_yields (fun _ _ => yields_keepSlotLoop head' el.props) (.trivial _)
      refine kept.bind_of (gives_keepSlotLoop scripted source) fun props changes => ?_
      have renews : el.Renews { el with props } :=
        .of_changes (fun changed => changed.1.scripted) changes
      refine (content _ renews.scripted).mono ?_
      rintro content ⟨holds, styles, -⟩ _ _ _
      refine ⟨holds, fun _ d found => ?_⟩
      rw [styles.find? (by decide)] at found
      obtain ⟨before, found', changed⟩ := exists_of_mem_rel (find?_changes changes "for") found
      exact changed.2 (of_find? found').2
    · refine (content el scripted).mono ?_
      rintro content ⟨holds, styles, -⟩ noLoop
      refine ⟨holds, fun _ d found => ?_⟩
      rw [styles.find? (by decide)] at found
      obtain ⟨member, isFor⟩ := of_find? found
      exact absurd isFor ((noLoop rfl).2 d member)
  next notSlot =>
    refine (content el scripted).mono ?_
    rintro content ⟨holds, -⟩
    exact ⟨holds, fun isSlot => absurd isSlot notSlot⟩

theorem Clean.inSlotScope {α : Type} {P} (el) {act : Lower α} (clean : Clean act P) :
    Clean (inSlotScope el act) P := by
  unfold Lower.inSlotScope
  split
  · split
    next e _ =>
      have named : Clean (bindingNames e) fun _ => True := by
        unfold bindingNames
        split
        · exact .pure trivial
        · exact (report _).bind fun _ => .pure (by simp)
      have bound (names : List String) : Clean (bindNames .slot names) fun _ => True :=
        .of_binds (scopeVars .slot names ++ ·) (fun _ _ => binds_bindNames .slot names)
          (.trivial _)
      refine named.bind fun names => (bound names).bind fun _ => clean.inSlot.mono ?_
      exact fun a holds _ _ => holds
    · exact clean.inSlot
  · exact clean

theorem clean_lowerKind (scripted : ScriptedDirectives el.props) (fresh : el.lowered = none)
    (children) :
    Clean (lowerKind el children) fun el' => (∀ node ∈ children, node.Settled) →
      ∃ lowered, el' = { el with lowered } ∧ (∀ code ∈ lowered, code.Keyable) ∧
        (el.kind = .template → lowered = none) ∧ (TemplateNode.element el' children).codeTexts.Perm
          (children.flatMap codeTexts) := by
  have coded {code : RenderNode} (kind : el.kind ≠ .template)
      (holds : code.texts.Perm (children.flatMap codeTexts) ∧ code.Keyable) :
      ∃ lowered, { el with lowered := some code } = { el with lowered } ∧
        (∀ code ∈ lowered, code.Keyable) ∧ (el.kind = .template → lowered = none) ∧
        (TemplateNode.element { el with lowered := some code } children).codeTexts.Perm
          (children.flatMap codeTexts) :=
    ⟨some code, rfl, by simpa using holds.2, fun same => absurd same kind,
      by simpa [codeTexts] using holds.1⟩
  unfold lowerKind
  split
  case h_1 kind | h_2 kind =>
    exact (clean_lowerElement scripted children).bind fun code => .pure fun holds settled =>
      coded (by simp [kind]) (holds settled)
  next kind =>
    exact (clean_lowerOutlet scripted children).bind fun code => .pure fun holds _ =>
      coded (by simp [kind]) holds
  · refine .pure fun settled => ⟨none, by rw [← fresh], by simp, fun _ => rfl, ?_⟩
    rw [codeTexts, fresh]
    simp

/-- An element that is no slot template and has no condition left. -/
def Plain (el : Element) : Prop :=
  el.isSlotTemplate = false → el.has "if" = false ∧ el.has "else-if" = false

theorem clean_visitPlain (written : el.Written) (plain : Plain el) (hasChildren)
    (delivers : Delivers kids lost texts) (done) :
    Clean (visitPlain el hasChildren kids done) fun v => (∀ node ∈ done, node.Settled) →
      Keeps done lost texts [] v := by
  have read (hasFor : Bool) : Clean (processProps hasFor el.props) fun _ => True :=
    .of_yields (fun _ _ => yields_processProps hasFor el.props) (.trivial _)
  refine (read _).bind_of (gives_processProps written.scripted _) fun props changes => ?_
  have renews : el.Renews { el with props } :=
    .of_changes (fun changed => changed.scripted) changes
  have content := clean_inSlotLoop hasChildren delivers renews.scripted
  have element := gives_inSlotLoop_element hasChildren kids renews.scripted
  refine (content.inSlotScope _).bind_of (gives_inSlotScope _ element) fun content after => ?_
  have all := renews.trans after
  split
  next none =>
    refine .pure ?_
    rintro ⟨holds, -⟩ _ _
    obtain ⟨nodes, found, -⟩ := holds.children
    cases none.symm.trans found
  next children found =>
    have fresh : content.element.lowered = none := all.lowered.trans written.lowered
    refine (clean_lowerKind all.scripted fresh children).bind fun el' => .pure ?_
    rintro lowered ⟨holds, looped⟩ _ settled
    obtain ⟨nodes, found', perm, inside⟩ := holds.children
    cases found.symm.trans found'
    obtain ⟨code, rfl, keyable, template, kept⟩ := lowered inside
    rw [holds.skip]
    refine .cons settled ((kept.append_right lost).trans perm) ?_ rfl
    refine ⟨all.scripted, keyable, template, fun notSlot => ?_, fun isSlot => ?_⟩
    · obtain ⟨noIf, noElseIf⟩ := plain (all.isSlotTemplate.symm.trans notSlot)
      exact ⟨(all.has "if" (by decide)).trans noIf,
        (all.has "else-if" (by decide)).trans noElseIf⟩
    · exact looped (after.isSlotTemplate.symm.trans isSlot)

/-! ## Loops and conditionals -/

theorem has_erase (differ : name ≠ other) : (el.erase name).has other = el.has other := by
  rw [has, has, find?_erase differ]

theorem plain_erase (plain : Plain el) (notIf : name ≠ "if")
    (notElseIf : name ≠ "else-if") (notSlot : name ≠ "slot") : Plain (el.erase name) := by
  unfold Plain
  rw [isSlotTemplate_erase notSlot, has_erase notIf, has_erase notElseIf]
  exact plain

theorem clean_visitLoop {inner} (written : el.Written) (plain : Plain el) (children)
    (delivers : Delivers kids lost texts)
    (within : ∀ d, el.find? "for" = some d → Delivers (inner (el.erase "for")) lost texts) (done) :
    Clean (visitLoop el children kids inner done) fun v => (∀ node ∈ done, node.Settled) →
      Keeps done lost texts [] v := by
  unfold visitLoop
  split
  · exact clean_visitPlain written plain _ delivers done
  next d found =>
    have erased := written_erase written "for"
    have keyed : Clean (itemKey? (el.erase "for") children) fun _ => True :=
      .of_yields (fun S scope => yields_itemKey? _ erased children (.ofScope S scope))
        (.trivial _)
    have scripted := (written_of_find? written found).scripted
    have sources : Gives (loopHead? d) fun head? => ∀ head ∈ head?, head.source.Scripted :=
      .of_steady fun o => (scripting_scripted o).steady_loopHead? scripted.exp
    refine (clean_loopHead? d).bind_of sources fun head? sources => ?_
    split
    · refine (clean_visitPlain erased (plain_erase plain (by decide) (by decide) (by decide)) _
        delivers done).mono fun v _ isSome => ?_
      cases isSome
    next head =>
      refine Clean.inScope ((clean_enterLoop head).bind_of (gives_enterLoop head) ?_)
      intro head' same
      have source : head'.source.Scripted := same ▸ sources head rfl
      refine Clean.inLoop (keyed.bind_of (.of_steady fun o =>
        (scripting_scripted o).steady_itemKey? (fun d member =>
          (erased.scripted d member).fresh) children) ?_)
      intro key scripted
      have lowered : Delivers (if (el.erase "for").kind == .template then kids
          else inner (el.erase "for")) lost texts := by
        split
        · exact delivers
        · exact within d found
      rw [bind_ite]
      refine Clean.bind lowered fun items => (clean_mergeText false items).bind fun merged => ?_
      refine (clean_itemCode merged scripted _).bind fun item => ?_
      refine (clean_loopCode source _ item _ _ _).bind fun code => .pure ?_
      rintro ⟨loop, keyable⟩ item ⟨same, kept⟩ ⟨perm, inside⟩ _ _ _ settled
      refine .cons settled ?_ ?_ rfl
      · simpa [codeTexts, loop, item (kept inside), same] using perm
      · intro lowered found
        cases found
        exact keyable

theorem clean_visitBranch {inner} (el condition) (delivers : Delivers kids lost texts)
    (within : Delivers (inner el) lost texts) :
    Clean (visitBranch el condition kids inner) fun b => b.condition = condition ∧
      (b.children.flatMap codeTexts ++ lost).Perm texts ∧
        ∀ node ∈ b.children, node.Settled := by
  have lowered : Delivers (if el.kind == .template && !el.has "for" then kids else inner el) lost
      texts := by
    split
    · exact delivers
    · exact within
  unfold visitBranch
  rw [bind_ite]
  refine Clean.bind lowered fun children => (clean_mergeText false children).bind fun merged =>
    .pure ?_
  rintro ⟨same, kept⟩ ⟨perm, settled⟩
  exact ⟨rfl, same ▸ perm, kept settled⟩

section

variable {d : Directive} (written : d.Written)
include written

theorem clean_branchCondition :
    Clean (branchCondition d) fun _ => True :=
  .of_yields (fun S scope => yields_branchCondition d written (.ofScope S scope)) (.trivial _)

theorem clean_visitIf {inner} (el : Element) (delivers : Delivers kids lost texts)
    (within : Delivers (inner (el.erase "if")) lost texts) (done) :
    Clean (visitIf d el kids inner done) fun v => (∀ node ∈ done, node.Settled) →
      Keeps done lost texts [] v := by
  refine (clean_branchCondition written).bind_of (gives_branchCondition written.scripted) ?_
  intro condition holds
  refine (clean_visitBranch (el.erase "if") (some condition) delivers within).bind fun branch => ?_
  refine (clean_startConditional branch done).bind fun node => .pure ?_
  rintro started ⟨same, perm, inside⟩ _ settled
  obtain ⟨texts, own, visible⟩ := started (by simpa [same] using holds) inside
  exact .cons settled (texts ▸ perm) own visible

/-- A further branch takes the place of its conditional, and of the blanks between. -/
theorem clean_visitElse {inner} (el : Element) (joins : openConditional? done = some c)
    (delivers : Delivers kids lost texts) (within : Delivers (inner (el.erase d.name)) lost texts) :
    Clean (visitElse c d el kids inner) fun v => (∀ node ∈ done, node.Settled) →
      Keeps done (trailing done ++ lost) texts [] v := by
  obtain ⟨before, isOpen⟩ := texts_openConditional? joins
  obtain ⟨member, others⟩ := mem_of_openConditional? joins
  have condition : Clean (if d.name == "else-if" then some <$> branchCondition d
      else pure none) fun _ => True := by
    split
    · exact fun o c keeps => ⟨(clean_branchCondition written o c keeps).1, fun _ => trivial⟩
    · exact .pure trivial
  have scripted : Gives (if d.name == "else-if" then some <$> branchCondition d
      else pure none) fun condition => ∀ e ∈ condition, e.Scripted := by
    split
    · rintro o c _ ⟨⟩
      exact gives_branchCondition written.scripted o c
    · exact .pure (by simp)
  unfold visitElse
  rw [bind_ite]
  refine condition.bind_of scripted fun condition holds => ?_
  refine (clean_visitBranch (el.erase d.name) condition delivers within).bind fun branch => ?_
  refine (clean_extendConditional branch c).bind fun node => .pure ?_
  rintro extended ⟨same, perm, inside⟩ _ settled
  obtain ⟨own, further, visible⟩ := extended (by rwa [same]) (settled _ member isOpen) inside
  refine ⟨rfl, ?_, by rw [trailing_cons, if_neg (by simp [visible])], ?_⟩
  · refine perm_iff_count.mpr fun t => ?_
    have := perm.count_eq t
    simp only [flatMap_cons, before, own, count_append] at this ⊢
    omega
  · exact forall_mem_cons.mpr ⟨further, fun n inside => settled n (others n inside)⟩

end

/-! ## Elements with structural directives -/

theorem has_eq_false_of_structuralCount (none : el.structuralCount ≤ 0)
    (structural : isStructural name = true) : el.has name = false := by
  cases found : el.find? name with
  | none => simp [has, found]
  | some d =>
    have fewer := structuralCount_erase structural found
    omega

theorem clean_visitElement (fuel) (written : el.Written) (enough : el.structuralCount ≤ fuel)
    (children) (delivers : Delivers kids lost texts) (done) :
    Clean (visitElement fuel el children kids done) fun v => (∀ node ∈ done, node.Settled) →
      Keeps done ((if el.joins then trailing done else []) ++ lost) texts [] v := by
  induction fuel generalizing el done with
  | zero =>
    have noIf : el.has "if" = false := has_eq_false_of_structuralCount enough rfl
    have noElseIf : el.has "else-if" = false := has_eq_false_of_structuralCount enough rfl
    have noElse : el.has "else" = false := has_eq_false_of_structuralCount enough rfl
    have alone : el.joins = false := by simp [Element.joins, noElseIf, noElse]
    rw [alone]
    exact clean_visitPlain written (fun _ => ⟨noIf, noElseIf⟩) _ delivers done
  | succ fuel ih =>
    have inner {el' : Element} (written' : el'.Written) (enough' : el'.structuralCount ≤ fuel) :
        Delivers (visitElement fuel el' children kids [] >>= fun v => pure v.done.reverse) lost
          texts := by
      refine (ih written' enough' []).bind fun v => .pure fun keeps => ?_
      obtain ⟨-, perm, -, settled⟩ := keeps (by simp)
      refine ⟨?_, fun node member => settled node (mem_reverse.mp member)⟩
      refine (((reverse_perm v.done).flatMap_right _).append_right lost).trans ?_
      simpa [trailing] using perm
    have erased {name : String} {d : Directive} (structural : isStructural name = true)
        (found : el.find? name = some d) : Delivers
          (visitElement fuel (el.erase name) children kids [] >>= fun v => pure v.done.reverse)
          lost texts := by
      have fewer := structuralCount_erase structural found
      exact inner (written_erase written name) (by omega)
    rw [visitElement]
    split
    next isSlot =>
      have alone : el.joins = false := by simp [Element.joins, isSlot]
      rw [alone]
      refine clean_visitPlain written (fun notSlot => ?_) _ delivers done
      cases notSlot.symm.trans isSlot
    next notSlot =>
      split
      next d found =>
        have alone : el.joins = false := by simp [Element.joins, has, found]
        rw [alone]
        exact clean_visitIf (written_of_find? written found) el delivers
          (erased (by decide) found) done
      next d noIf found =>
        have isWritten := written_of_find? written found
        have joins : el.joins = true := by
          simp [Element.joins, has, found, noIf, notSlot]
        split
        next c isOpen =>
          rw [joins]
          refine clean_visitElse isWritten el isOpen delivers ?_
          rw [(of_find? found).2]
          exact erased (by decide) found
        · obtain ⟨d', found'⟩ := exists_if_of_elseIf found
          have fewer := structuralCount_erase (by decide) found'
          rw [structuralCount_elseIfToIf] at fewer
          have renamed : ({ d with name := "if" } : Directive).Written :=
            ⟨isWritten.arg, isWritten.exp, isWritten.loop⟩
          refine (Clean.error _ _).bind fun _ => (clean_visitIf renamed el.elseIfToIf
            delivers ?_ done).mono fun v _ reported => reported.elim
          exact inner (written_erase (written_elseIfToIf written) "if") (by omega)
      next d noIf noElseIf found =>
        have joins : el.joins = true := by
          simp [Element.joins, has, found, noIf, notSlot]
        split
        next c isOpen =>
          rw [joins]
          refine clean_visitElse (written_of_find? written found) el isOpen delivers ?_
          rw [(of_find? found).2]
          exact erased (by decide) found
        · have plain : Plain (el.erase "else") := by
            apply plain_erase _ (by decide) (by decide) (by decide)
            exact fun _ => ⟨by simp [has, noIf], by simp [has, noElseIf]⟩
          have fewer := structuralCount_erase (by decide) found
          refine (Clean.error _ _).bind fun _ => (clean_visitLoop
            (written_erase written "else") plain children delivers ?_ done).mono
              fun v _ reported => reported.elim
          intro d' found'
          have fewer' := structuralCount_erase (by decide) found'
          exact inner (written_erase (written_erase written "else") "for") (by omega)
      next noIf noElseIf noElse =>
        have alone : el.joins = false := by
          simp [Element.joins, has, noElseIf, noElse]
        rw [alone]
        refine clean_visitLoop written (fun _ => ?_) children delivers
          (fun d found => erased (by decide) found) done
        exact ⟨by simp [has, noIf], by simp [has, noElseIf]⟩

end

/-! ## Templates -/

theorem clean_visitNodes (written : ∀ node ∈ nodes, node.Written)
    (each : ∀ node ∈ nodes, ∀ done, Clean (visitNode done node) fun v =>
      (∀ n ∈ done, n.Settled) →
        Keeps done ((if node.joins then trailing done else []) ++ node.lost) node.texts
          (node.between (trailing done)) v) (skip done) :
    Clean (visitNodes skip done nodes) fun result => skip = 0 → (∀ n ∈ done, n.Settled) →
      (result.flatMap codeTexts ++ lostAmong (trailing done) nodes).Perm
        (done.flatMap codeTexts ++ nodes.flatMap TemplateNode.texts) ∧
      ∀ n ∈ result, n.Settled := by
  induction nodes generalizing skip done with
  | nil =>
    refine .pure fun _ settled => ⟨?_, fun n member => settled n (mem_reverse.mp member)⟩
    rw [lostAmong, append_nil, flatMap_nil, append_nil]
    exact (reverse_perm done).flatMap_right _
  | cons node nodes ih =>
    obtain ⟨-, others⟩ := forall_mem_cons.mp written
    obtain ⟨first, rest⟩ := forall_mem_cons.mp each
    cases skip with
    | succ skip => exact (ih others rest skip done).mono fun _ _ none => absurd none (by simp)
    | zero =>
      refine (first done).bind fun v => (ih others rest _ _).mono ?_
      intro result below here _ settled
      obtain ⟨skip, perm, after, inside⟩ := here settled
      obtain ⟨perm', settled'⟩ := below skip inside
      refine ⟨?_, settled'⟩
      rw [after] at perm'
      refine perm_iff_count.mpr fun t => ?_
      have := perm.count_eq t
      have := perm'.count_eq t
      rw [lostAmong]
      simp only [flatMap_cons, count_append] at *
      omega

theorem clean_visitNode (written : node.Written) (done) :
    Clean (visitNode done node) fun v => (∀ n ∈ done, n.Settled) →
      Keeps done ((if node.joins then trailing done else []) ++ node.lost) node.texts
        (node.between (trailing done)) v := by
  induction written generalizing done with
  | @element el children elWritten childrenWritten ih =>
    rw [TemplateNode.texts, textsAll_eq]
    have below := clean_visitNodes childrenWritten (fun child member => ih child member) 0 []
    have delivers : Delivers (visitNodes 0 [] children) (lostAmong [] children)
        (children.flatMap TemplateNode.texts) := below.mono fun nodes kept => kept rfl (by simp)
    exact clean_visitElement _ elWritten (Nat.le_refl _) children delivers done
  | @text t =>
    refine .pure fun settled => ⟨rfl, ?_, ?_, forall_mem_cons.mpr ⟨trivial, settled⟩⟩
    · simpa [TemplateNode.joins, lost, TemplateNode.texts, codeTexts]
        using perm_append_comm
    · rw [trailing_cons, TemplateNode.between, TemplateNode.texts, codeTexts]
  | @comment c =>
    have none : (TemplateNode.comment c).lost = [] := by rw [lost]
    refine Clean.read.bind fun o => ?_
    split
    · refine .pure fun _ settled => ⟨rfl, ?_, ?_, settled⟩
      · simp [TemplateNode.joins, none, TemplateNode.texts]
      · simp [TemplateNode.between, isIgnorable, TemplateNode.texts]
    · refine .pure fun _ settled => ⟨rfl, ?_, ?_, forall_mem_cons.mpr ⟨trivial, settled⟩⟩
      · simp [TemplateNode.joins, none, TemplateNode.texts, codeTexts]
      · rw [trailing_cons, TemplateNode.between, TemplateNode.texts, codeTexts]
  | @interpolation content span isWritten =>
    have read : Clean (process content .expression) fun _ => True :=
      .of_yields (fun _ _ => yields_process content .expression (by simp)) (.trivial _)
    refine read.bind_of (.of_steady fun o =>
      (scripting_scripted o).steady_process isWritten.scripted _) fun e scripted => .pure ?_
    refine fun _ settled => ⟨rfl, ?_, ?_, forall_mem_cons.mpr ⟨trivial, settled⟩⟩
    · simp [TemplateNode.joins, lost, TemplateNode.texts, codeTexts, scripted.texts]
    · rfl

theorem clean_rootCode (nodes) :
    Clean (rootCode nodes) fun code => code.toList.flatMap RenderNode.texts =
      nodes.flatMap codeTexts := by
  unfold rootCode
  split
  · exact .pure rfl
  next node =>
    intro o c keeps
    obtain ⟨grows, same⟩ := clean_code node o c keeps
    exact ⟨grows, fun none => by simpa using same none⟩
  · refine Clean.fresh.bind fun id => (clean_codes nodes).bind fun codes => .pure ?_
    intro same _
    rw [← same]
    simp [fragment, VNode.parts, VNode.new, Tag.parts, Children.parts]

theorem clean_lowerRoot (written : ∀ node ∈ nodes, node.Written) :
    Clean (lowerRoot nodes) fun r =>
      (r.2.toList.flatMap RenderNode.texts ++ lostAmong [] nodes).Perm
        (nodes.flatMap TemplateNode.texts) := by
  have each := fun node member => clean_visitNode (written node member)
  have visited := clean_visitNodes written each 0 []
  refine visited.bind fun result => (clean_mergeText true result).bind fun merged =>
    (clean_rootCode merged).bind fun code => .pure ?_
  rintro coded ⟨same, -⟩ kept
  rw [coded, same]
  exact (kept rfl (by simp)).1

/-! ## Slots -/

/-- Lower the children of a component, and build its slots from them. -/
def componentSlots (el : Element) (direct : Bool) (nodes : List TemplateNode) :
    Lower (List TemplateNode × SlotsResult) := do
  let children ← mergeText direct (← visitNodes 0 [] nodes)
  return (children, ← buildSlots el children)

/-- If nothing is reported and no rule drops siblings, the lowered children of a component are all
    placed: each template has one slot function, with the code of its children, in the place that its
    directives ask for, and the chains of conditional slots are those of their templates. -/
theorem componentSlots_places {o : Options} (keeps : ∀ attr, .dropNext attr ∉ o.nodeRules)
    {nodes : List TemplateNode} (written : ∀ node ∈ nodes, node.Written) (el : Element)
    (direct : Bool) (c : Context)
    (clean : (exec (componentSlots el direct nodes) o c).2.diagnostics = []) :
    ∃ b : SlotsBuild, b.finish = (exec (componentSlots el direct nodes) o c).1.2 ∧
      b.Places el (exec (componentSlots el direct nodes) o c).1.1 := by
  have each := fun node member => clean_visitNode (written node member)
  have placed : Clean (componentSlots el direct nodes) fun r =>
      ∃ b : SlotsBuild, b.finish = r.2 ∧ b.Places el r.1 := by
    refine (clean_visitNodes written each 0 []).bind fun lowered => ?_
    refine (clean_mergeText direct lowered).bind fun children => ?_
    refine (clean_buildSlots el children).bind fun r => .pure ?_
    rintro places ⟨-, settled⟩ kept
    exact places (settled (kept rfl (by simp)).2)
  exact (placed o c keeps).2 clean

/-- A chain of two conditional slots, one for each item, one that is always there, and a text. -/
def mixedSlots : List TemplateNode :=
  (readTemplate {} ("<template #a v-if=\"x\">p</template><template #b v-else>q</template>" ++
    "<template v-for=\"i in l\" #[i]>r</template><template #d>s</template>t")).1.children

def mixedComponent : Element :=
  { tag := "C", kind := .component, props := [], selfClosing := false, lowered := none,
    span := ⟨0, 0⟩ }

theorem mixedSlots_placed :
    (exec (componentSlots mixedComponent false mixedSlots) {} {}).2.diagnostics = [] ∧
    ∃ b : SlotsBuild,
      b.finish = (exec (componentSlots mixedComponent false mixedSlots) {} {}).1.2 ∧
      b.Places mixedComponent (exec (componentSlots mixedComponent false mixedSlots) {} {}).1.1 := by
  have clean : (exec (componentSlots mixedComponent false mixedSlots) {} {}).2.diagnostics = [] := by
    decide +kernel
  exact ⟨clean, componentSlots_places (by simp) (written_readTemplate _ _) _ _ _ clean⟩

end Lower

/-- If nothing is reported and no rule drops siblings, every text of a template that shows anything
    stands in its code exactly once, unless it is one of the blank texts between the branches of a
    conditional. -/
theorem Root.texts_lower (o : Options) (source : String)
    (keeps : ∀ attr, .dropNext attr ∉ o.nodeRules)
    (clean : ((readTemplate o source).1.lower o).2 = []) :
    (((readTemplate o source).1.lower o).1.code.toList.flatMap RenderNode.texts ++
        lostAmong [] (readTemplate o source).1.children).Perm
      ((readTemplate o source).1.children.flatMap TemplateNode.texts) ∧
    ∀ t ∈ lostAmong [] (readTemplate o source).1.children,
      isBlankString t.content = true := by
  obtain ⟨-, kept⟩ := Lower.clean_lowerRoot (written_readTemplate o source) o {} keeps
  exact ⟨kept clean, isBlank_lostAmong _ [] (by simp)⟩

/-- Branches, runs of text, a loop and slots. -/
def mixedTexts : String :=
  "<C>a<template #h>b<i v-if=\"x\">c</i> <i v-else-if=\"y\">d\x7b\x7b z \x7d\x7d</i>" ++
    "<i v-else>e</i></template><template v-for=\"k in ks\" #[k]>f</template>" ++
    "<s v-for=\"k in ks\">g</s></C>"

theorem mixedTexts_kept :
    ((readTemplate {} mixedTexts).1.lower {}).2 = [] ∧
    (((readTemplate {} mixedTexts).1.lower {}).1.code.toList.flatMap RenderNode.texts ++
        lostAmong [] (readTemplate {} mixedTexts).1.children).Perm
      ((readTemplate {} mixedTexts).1.children.flatMap TemplateNode.texts) ∧
    ∀ t ∈ lostAmong [] (readTemplate {} mixedTexts).1.children,
      isBlankString t.content = true := by
  have clean : ((readTemplate {} mixedTexts).1.lower {}).2 = [] := by decide +kernel
  exact ⟨clean, Root.texts_lower {} mixedTexts (by simp) clean⟩

/-- A no-break space between two branches. -/
def spacedBranches : String :=
  "<p v-if=\"a\">x</p>&nbsp;<p v-else>y</p>"

/-- A no-break space shows, but between branches it gets lost without a report. -/
theorem spacedBranches_text_lost :
    (readTemplate {} spacedBranches).2 = [] ∧ ((readTemplate {} spacedBranches).1.lower {}).2 = [] ∧
      ∃ t ∈ (readTemplate {} spacedBranches).1.children.flatMap TemplateNode.texts,
        t ∉ ((readTemplate {} spacedBranches).1.lower {}).1.code.toList.flatMap
          RenderNode.texts := by
  refine ⟨by decide +kernel, by decide +kernel, ⟨"\u00a0", ⟨17, 23⟩⟩, ?_, ?_⟩
  · decide +kernel
  · decide +kernel

end Stencil
