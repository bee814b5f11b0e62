import Stencil.Proofs.Lower.Texts

/-! # Slots in a clean run

If nothing is reported, every template of a slot has one place among the slots of its component: it
is always there, or there for each item of a loop, or a branch of a chain of conditional slots. The
children outside every template come together in one slot.
-/

namespace Stencil

open List Element TemplateNode SlotTemplate RenderNode Option Property

/-- What the code of a node is in some state. -/
def TemplateNode.Codes (node : TemplateNode) (result : RenderNode) : Prop :=
  ∃ o c, (Lower.exec (Lower.code node) o c).1 = result

def RenderNode.Passes (function : RenderNode) (nodes : List TemplateNode) : Prop :=
  ∃ params results, function = .function params (some (.array results)) false true ∧
    List.Forall₂ TemplateNode.Codes nodes results

/-- The directive with the condition of a slot. -/
def SlotTemplate.condition? (t : SlotTemplate) : Option Directive :=
  (t.element.find? "if").or (t.element.find? "else-if")

/-- The template of a slot with its function. Conditional slots are numbered. -/
structure PlacedSlot extends SlotTemplate where
  function : RenderNode
  key : Nat

/-- The code of a chain of conditional slots. -/
def chainCode : List PlacedSlot → RenderNode
  | [] => .script "undefined"
  | s :: rest =>
    let slot := dynamicSlot s.directive.slotName s.function (some s.key)
    match s.condition? with
    | some d => .conditional d.slotCondition slot (chainCode rest) true
    | none => slot

/-- A place among the slots of a component. -/
inductive SlotEntry
  | always (slot : PlacedSlot)
  | each (head : LoopHead) (slot : PlacedSlot)
  | chain (first : PlacedSlot) (others : List PlacedSlot)

namespace SlotEntry

def slots : SlotEntry → List PlacedSlot
  | always s => [s]
  | each _ s => [s]
  | chain s others => s :: others

def property? : SlotEntry → Option Property
  | always s => some ⟨s.directive.slotName, s.function⟩
  | _ => none

def dynamic? : SlotEntry → Option RenderNode
  | always _ => none
  | each head s =>
    let slot := dynamicSlot s.directive.slotName s.function none
    some (.call .renderList [.expr head.source, .function head.params (some slot) true false])
  | chain s others => some (chainCode (s :: others))

/-- The place is the one that the directives of its templates ask for. A chain begins with `v-if`,
    and only its last branch may go without a condition. -/
def Fits : SlotEntry → Prop
  | always s => (∀ name ∈ ["if", "else-if", "else", "for"], s.element.has name = false)
  | each head s => (∀ name ∈ ["if", "else-if", "else"], s.element.has name = false) ∧
    ∃ d, s.element.find? "for" = some d ∧ d.loop = some head
  | chain first others => first.element.has "if" = true ∧
    (∀ s ∈ others, s.element.has "if" = false ∧
      (s.element.has "else-if" || s.element.has "else") = true) ∧
    ∀ s ∈ (first :: others).dropLast, s.condition?.isSome = true

end SlotEntry

/-- Every template of a slot among siblings has one place, and the places are in their order. -/
structure Arranges (nodes : List TemplateNode) (entries : List SlotEntry) : Prop where
  templates : (entries.flatMap SlotEntry.slots).map (·.toSlotTemplate) =
    nodes.filterMap of?
  passes : ∀ s ∈ entries.flatMap SlotEntry.slots, s.function.Passes s.children
  fits : ∀ entry ∈ entries, entry.Fits

/-- The siblings outside every template, without comments. -/
def implicitContent (nodes : List TemplateNode) : List TemplateNode :=
  nodes.filter fun node => (of? node).isNone && !node.isComment

/-- How the children of a component are placed in its slots: in the slot that it names itself, in
    the default slot, or in the slots of their templates and, if there is anything to see outside
    these, in the default slot. -/
inductive SlotsBuild.Places (b : SlotsBuild) (el : Element) (nodes : List TemplateNode) : Prop
  | own {d f} : el.find? "slot" = some d →
      nodes.filterMap of? = [] → f.Passes nodes →
      b.properties = [⟨d.slotName, f⟩] → b.dynamic = [] → Places b el nodes
  | only {f} : el.find? "slot" = none → nodes.filterMap of? = [] →
      f.Passes nodes → b.properties = [.named "default" f] → b.dynamic = [] → Places b el nodes
  | templates {entries rest} : el.find? "slot" = none →
      Arranges nodes entries → b.properties = entries.filterMap SlotEntry.property? ++ rest →
      b.dynamic = entries.filterMap SlotEntry.dynamic? →
      (rest = [] ∧ ∀ node ∈ implicitContent nodes, node.isVisible = false) ∨
        (∃ f, rest = [.named "default" f] ∧ f.Passes (implicitContent nodes)) → Places b el nodes

/-- The places of the templates seen so far are those in the build. -/
structure SlotsBuild.Lays (b : SlotsBuild) (nodes : List TemplateNode) (entries : List SlotEntry) :
    Prop extends Arranges nodes entries where
  properties : b.properties = entries.filterMap SlotEntry.property?
  dynamic : b.dynamic = entries.filterMap SlotEntry.dynamic?
  implicit : b.implicit = implicitContent nodes
  hasTemplates : b.hasTemplates = false → entries = []

/-- The last place is a chain that takes a further branch. -/
def EndsOpen (entries : List SlotEntry) : Prop :=
  ∃ init first others, entries = init ++ [.chain first others] ∧
    ∀ s ∈ first :: others, s.condition?.isSome = true

/-- Between the builds, the template of a slot is given its place after the siblings `before`. -/
def SlotsBuild.Adds (b : SlotsBuild) (before : List TemplateNode) (t : SlotTemplate)
    (b' : SlotsBuild) : Prop :=
  ∀ nodes node entries, of? node = some t → b.Lays nodes entries →
    (followsConditionalSlot before = true → EndsOpen entries) →
    ∃ entries', b'.Lays (nodes ++ [node]) entries' ∧
      (t.condition?.isSome = true → EndsOpen entries')

theorem chainCode_concat (some : chain ≠ []) (isOpen : ∀ s ∈ chain, s.condition?.isSome = true)
    (s) : (chainCode chain).attachAlternate (chainCode [s]) = chainCode (chain ++ [s]) := by
  induction chain with
  | nil => exact absurd rfl some
  | cons first rest ih =>
    obtain ⟨here, others⟩ := forall_mem_cons.mp isOpen
    obtain ⟨d, found⟩ := isSome_iff_exists.mp here
    cases rest with
    | nil =>
      simp only [chainCode, found, cons_append, nil_append]
      rw [attachAlternate]
      rintro _ _ _ _ ⟨⟩
    | cons second more =>
      obtain ⟨d', found'⟩ := isSome_iff_exists.mp (others second mem_cons_self)
      have rest := ih (by simp) others
      simp only [chainCode, found, found', cons_append] at rest ⊢
      rw [attachAlternate, rest]

namespace SlotsBuild.Lays

variable {b b' : SlotsBuild} {entries : List SlotEntry} (lays : b.Lays nodes entries)
include lays

theorem skip (other : of? node = none) :
    (if node.isComment then b else { b with implicit := b.implicit ++ [node] }).Lays
      (nodes ++ [node]) entries := by
  have same : (nodes ++ [node]).filterMap of? = nodes.filterMap of? := by
    simp [other]
  cases isComment : node.isComment <;>
    exact ⟨⟨same ▸ lays.templates, lays.passes, lays.fits⟩, lays.properties, lays.dynamic,
      by simp [lays.implicit, implicitContent, other, isComment], lays.hasTemplates⟩

theorem concat (entry : SlotEntry) (slots : entry.slots = [s])
    (found : of? node = some s.toSlotTemplate)
    (passes : s.function.Passes s.children) (fits : entry.Fits)
    (properties : b'.properties = b.properties ++ entry.property?.toList)
    (dynamic : b'.dynamic = b.dynamic ++ entry.dynamic?.toList)
    (implicit : b'.implicit = b.implicit) (has : b'.hasTemplates = true) :
    b'.Lays (nodes ++ [node]) (entries ++ [entry]) where
  templates := by simp [slots, found, ← lays.templates]
  passes := by
    simp only [flatMap_append, flatMap_singleton, slots, forall_mem_append]
    exact ⟨lays.passes, by simpa using passes⟩
  fits := forall_mem_append.mpr ⟨lays.fits, by simpa using fits⟩
  properties := by
    rw [properties, lays.properties]
    cases found : entry.property? <;> simp [found]
  dynamic := by
    rw [dynamic, lays.dynamic]
    cases found : entry.dynamic? <;> simp [found]
  implicit := by simp [implicit, lays.implicit, implicitContent, found]
  hasTemplates none := by simp [has] at none

theorem extend (isOpen : EndsOpen entries) (found : of? node = some s.toSlotTemplate)
    (passes : s.function.Passes s.children) (noIf : s.element.has "if" = false)
    (joins : (s.element.has "else-if" || s.element.has "else") = true)
    (extended : b.extendConditional? (chainCode [s]) = some b') (has : b.hasTemplates = true) :
    ∃ entries', b'.Lays (nodes ++ [node]) entries' ∧
      (s.condition?.isSome = true → EndsOpen entries') := by
  obtain ⟨init, first, others, rfl, isOpen⟩ := isOpen
  have last : b.dynamic = init.filterMap SlotEntry.dynamic? ++ [chainCode (first :: others)] := by
    simp [lays.dynamic, SlotEntry.dynamic?]
  have further : (chainCode (first :: others)).attachAlternate (chainCode [s]) =
      chainCode (first :: (others ++ [s])) := chainCode_concat (by simp) isOpen s
  have fits := forall_mem_append.mp lays.fits
  obtain ⟨starts, follow, -⟩ : (SlotEntry.chain first others).Fits := by simpa using fits.2
  unfold extendConditional? at extended
  rw [last, getLast?_concat] at extended
  split at extended
  next test consequent rest newline same =>
    rw [some.inj same] at further
    obtain rfl := some.inj extended
    refine ⟨init ++ [.chain first (others ++ [s])], ⟨⟨?_, ?_, ?_⟩, ?_, ?_, ?_, ?_⟩, ?_⟩
    · rw [filterMap_append, ← lays.templates]
      simp [SlotEntry.slots, found]
    · have := lays.passes
      simp only [flatMap_append, flatMap_singleton, SlotEntry.slots,
        forall_mem_append, forall_mem_cons] at this ⊢
      exact ⟨this.1, this.2.1, this.2.2, passes, by simp⟩
    · refine forall_mem_append.mpr ⟨fits.1, ?_⟩
      simp only [mem_singleton, forall_eq, SlotEntry.Fits, ← cons_append, dropLast_concat]
      refine ⟨starts, forall_mem_append.mpr ⟨follow, ?_⟩, isOpen⟩
      exact fun _ member => mem_singleton.mp member ▸ ⟨noIf, joins⟩
    · rw [lays.properties, filterMap_append, filterMap_append]
      rfl
    · simp [further, SlotEntry.dynamic?]
    · simp [lays.implicit, implicitContent, found]
    · simp [has]
    · intro conditional
      refine ⟨init, first, others ++ [s], rfl, ?_⟩
      exact forall_mem_append.mpr ⟨isOpen, by simpa using conditional⟩
  · cases extended

end SlotsBuild.Lays

namespace Lower

variable {node : TemplateNode} {entries : List SlotEntry}

theorem clean_slotFunction (props nodes) :
    Clean (slotFunction props nodes) fun f => f.Passes nodes := by
  apply Clean.of_yields (fun _ _ => yields_slotFunction props nodes)
  have coded (nodes : List TemplateNode) :
      Gives (codes nodes) (List.Forall₂ TemplateNode.Codes nodes) := by
    induction nodes with
    | nil => exact .pure .nil
    | cons node nodes ih =>
      have first : Gives (code node) node.Codes := fun o c => ⟨o, c, rfl⟩
      exact first.bind fun _ here => ih.bind fun _ others => .pure (.cons here others)
  have content (params : List String) : Gives
      (codes nodes >>= fun results => pure (.function params (some (.array results)) false true))
      fun f : RenderNode => f.Passes nodes :=
    (coded nodes).bind fun results all => .pure ⟨params, results, rfl, all⟩
  cases props with
  | none => exact content []
  | some e => exact (Gives.trivial _).bind fun e' _ => content _

theorem clean_addElseSlot (b : SlotsBuild) (before) (s : PlacedSlot) (key : s.key = b.branches)
    (noIf : s.element.find? "if" = none)
    (branch : (s.element.find? "else-if").or (s.element.find? "else") = some d) :
    Clean (addElseSlot b before d s.directive.slotName s.function) fun b' =>
      b.hasTemplates = true → s.function.Passes s.children →
      b.Adds before s.toSlotTemplate b' := by
  have alternate : (if (d.name == "else-if") = true then .conditional d.slotCondition
      (dynamicSlot s.directive.slotName s.function (some b.branches)) (.script "undefined") true
      else dynamicSlot s.directive.slotName s.function (some b.branches)) = chainCode [s] := by
    have condition : s.condition? = if (d.name == "else-if") = true then some d else none := by
      rw [condition?, noIf]
      rcases or_eq_some_iff.mp branch with found | ⟨none, found⟩
      · simp [found, (of_find? found).2]
      · simp [none, (of_find? found).2]
    simp only [chainCode, condition, key]
    split <;> rfl
  unfold addElseSlot
  dsimp only
  rw [alternate]
  split
  next extended added =>
    refine .pure fun has passes nodes node entries found lays ends => ?_
    split at added
    next follows =>
      refine lays.extend (ends follows) found passes (by simp [Element.has, noIf]) ?_ added has
      simpa [Element.has] using isSome_iff_exists.mpr ⟨d, branch⟩
    · cases added
  · exact (Clean.error _ _).bind fun _ => .pure (by simp)

theorem clean_addPlainSlot (b t name function) :
    Clean (addPlainSlot b t name function) fun b' =>
      b'.properties = b.properties ++ [⟨name, function⟩] ∧ b'.dynamic = b.dynamic ∧
        b'.implicit = b.implicit ∧ b'.hasTemplates = b.hasTemplates := by
  unfold addPlainSlot
  split
  · split
    · exact (Clean.error _ _).bind fun _ => .pure (by simp)
    · exact .pure ⟨rfl, rfl, rfl, rfl⟩
  · exact .pure ⟨rfl, rfl, rfl, rfl⟩

theorem clean_addSlotTemplate (b before t) :
    Clean (addSlotTemplate b before t) fun b' => t.element.Settled → b.Adds before t b' := by
  refine (clean_slotFunction t.directive.exp t.children).bind fun function => ?_
  have unconditional (noIf : t.element.find? "if" = none)
      (noElse : (t.element.find? "else-if").or (t.element.find? "else") = none) :
      (∀ name ∈ ["if", "else-if", "else"], t.element.has name = false) ∧
        t.condition? = none := by
    simp only [or_eq_none_iff] at noElse
    simp [has, condition?, noIf, noElse]
  split
  next d isIf =>
    refine .pure fun passes _ nodes node entries found lays _ => ?_
    have condition : t.condition? = some d := by rw [condition?, isIf, some_or]
    refine ⟨_, lays.concat (.chain ⟨t, function, b.branches⟩ []) rfl found passes
      ⟨by simp [has, isIf], by simp, by simp⟩ (append_nil _).symm ?_ rfl rfl,
      fun _ => ⟨entries, _, [], rfl, by simp [condition]⟩⟩
    simp [SlotEntry.dynamic?, chainCode, condition, SlotsBuild.addConditional]
  next d noIf branch =>
    refine (clean_addElseSlot { b with hasTemplates := true } before ⟨t, function, b.branches⟩ rfl
      noIf branch).mono ?_
    intro b' further passes _ nodes node entries found lays ends
    exact further rfl passes nodes node entries found { lays with hasTemplates := by simp } ends
  next d noIf noElse isFor =>
    obtain ⟨others, condition⟩ := unconditional noIf noElse
    split
    next head loop =>
      exact .pure fun passes _ nodes node entries found lays _ => ⟨_, lays.concat
        (.each head ⟨t, function, b.branches⟩) rfl found passes ⟨others, d, isFor, loop⟩
        (append_nil _).symm rfl rfl rfl, by simp [condition]⟩
    next noLoop =>
      refine .pure fun _ settled _ _ _ found _ _ => ?_
      obtain ⟨-, isTemplate, isSlot⟩ := slotTemplate_eq found
      have isSome := settled.looped (by simp [isSlotTemplate, has, isTemplate, isSlot]) d isFor
      rw [noLoop] at isSome
      cases isSome
  next noIf noElse noFor =>
    obtain ⟨others, condition⟩ := unconditional noIf noElse
    refine (clean_addPlainSlot { b with hasTemplates := true } t _ function).mono ?_
    rintro b' ⟨properties, dynamic, implicit, has⟩ passes _ nodes node entries found lays _
    refine ⟨_, lays.concat (.always ⟨t, function, b.branches⟩) rfl found passes ?_ properties
      (dynamic.trans (append_nil _).symm) implicit has, by simp [condition]⟩
    simpa [SlotEntry.Fits, Element.has, noFor] using others

/-- A sibling that is no slot template starts no chain of conditional slots. -/
theorem followsConditionalSlot_cons (settled : node.Settled) (other : of? node = none)
    (follows : followsConditionalSlot (node :: before) = true) :
    followsConditionalSlot before = true := by
  cases visible : node.isVisible with
  | false => simpa [followsConditionalSlot, visible] using follows
  | true =>
    simp only [followsConditionalSlot, find?_cons, visible] at follows
    cases node with
    | element el children =>
      have notSlot : el.isSlotTemplate = false := by
        unfold of? at other
        unfold isSlotTemplate has
        split at other <;> simp_all
      obtain ⟨noIf, noElseIf⟩ := Element.Settled.unconditional settled notSlot
      simp [TemplateNode.element?, noIf, noElseIf] at follows
    | _ => cases follows

theorem clean_addSlots (b before done) :
    Clean (addSlots false b before nodes) fun b' => (∀ node ∈ nodes, node.Settled) →
      ∀ entries, b.Lays done entries → (followsConditionalSlot before = true → EndsOpen entries) →
      ∃ entries', b'.Lays (done ++ nodes) entries' := by
  induction nodes generalizing b before done with
  | nil => exact .pure fun _ entries lays _ => ⟨entries, by simpa using lays⟩
  | cons node nodes ih =>
    rw [addSlots]
    split
    next other =>
      refine (ih _ (node :: before) (done ++ [node])).mono fun b' rest settled entries lays ends => ?_
      obtain ⟨here, others⟩ := forall_mem_cons.mp settled
      rw [append_cons]
      exact rest others entries (lays.skip other) fun follows =>
        ends (followsConditionalSlot_cons here other follows)
    next t found =>
      refine (clean_addSlotTemplate b before t).bind fun b₁ => (ih b₁ _ (done ++ [node])).mono ?_
      intro b' rest first settled entries lays ends
      obtain ⟨here, others⟩ := forall_mem_cons.mp settled
      obtain ⟨rfl, isTemplate, isSlot⟩ := slotTemplate_eq found
      obtain ⟨entries', lays', further⟩ := first here done _ entries found lays ends
      rw [append_cons]
      refine rest others entries' lays' fun follows => further ?_
      simpa [followsConditionalSlot, isVisible, TemplateNode.element?, isTemplate,
        condition?, has, isSome_or] using follows

theorem clean_addSlots_own (b before) :
    Clean (addSlots true b before nodes) fun b' => b'.properties = b.properties ∧
      b'.dynamic = b.dynamic ∧ nodes.filterMap of? = [] := by
  induction nodes generalizing b before with
  | nil => exact .pure ⟨rfl, rfl, rfl⟩
  | cons node nodes ih =>
    rw [addSlots]
    split
    next other =>
      refine (ih _ (node :: before)).mono fun b' same => ?_
      rw [filterMap_cons_none other]
      split at same <;> exact same
    · exact (Clean.error _ _).bind fun _ => .pure (by simp)

theorem clean_buildSlots (el nodes) :
    Clean (buildSlots el nodes) fun r => (∀ node ∈ nodes, node.Settled) →
      ∃ b : SlotsBuild, b.finish = r ∧ b.Places el nodes := by
  refine Clean.get.bind fun c => ?_
  split
  next d found =>
    refine (clean_slotFunction d.exp nodes).bind fun f => (clean_addSlots_own _ []).bind
      fun b => .pure ?_
    rintro ⟨properties, dynamic, none⟩ passes _ _
    exact ⟨b, rfl, .own found none passes properties dynamic⟩
  next notOwn =>
    refine (clean_addSlots _ [] []).bind fun b => ?_
    have default : Clean (addDefaultSlot b nodes) fun b' => ∀ entries, b.Lays nodes entries →
        b'.Places el nodes := by
      unfold addDefaultSlot
      split
      next without =>
        refine (clean_slotFunction none nodes).bind fun f => .pure ?_
        intro passes entries lays
        obtain rfl := lays.hasTemplates (by simpa using without)
        exact .only notOwn lays.templates.symm passes
          (by rw [SlotsBuild.addProperty, lays.properties]; rfl) lays.dynamic
      · split
        next none =>
          refine .pure fun entries lays => .templates notOwn lays.toArranges
            (lays.properties.trans (append_nil _).symm) lays.dynamic (.inl ⟨rfl, ?_⟩)
          simpa [lays.implicit] using none
        · split
          · exact (Clean.error _ _).bind fun _ => .pure (by simp)
          · refine (clean_slotFunction none b.implicit).bind fun f => .pure ?_
            intro passes entries lays
            exact .templates notOwn lays.toArranges (by rw [SlotsBuild.addProperty, lays.properties])
              lays.dynamic (.inr ⟨f, rfl, lays.implicit ▸ passes⟩)
    refine default.bind fun b' => .pure fun places arranged _ settled => ⟨b', rfl, ?_⟩
    obtain ⟨entries, lays⟩ := arranged settled [] ⟨⟨rfl, by simp, by simp⟩, rfl, rfl, rfl, fun _ => rfl⟩
      (by rintro ⟨⟩)
    exact places entries lays

/-! ## The texts in slots -/

theorem texts_dynamicSlot {name : Expression} (scripted : name.Scripted) (function key) :
    (dynamicSlot name function key).texts = function.texts := by
  cases key <;> simp [dynamicSlot, named, Expression.snippet, Expression.texts,
    scripted.texts]

theorem texts_slotCondition {d : Directive} (scripted : d.Scripted) :
    d.slotCondition.texts = [] := by
  unfold Directive.slotCondition
  split
  next e found => rw [texts_expr, (scripted.exp e found).texts]
  · exact texts_script _

theorem scripted_slotName {d : Directive} (scripted : d.Scripted) : d.slotName.Scripted := by
  unfold Directive.slotName
  cases found : d.arg with
  | none => exact .simple
  | some a => exact scripted.arg a found

theorem texts_passes {f : RenderNode} (passes : f.Passes nodes) :
    f.texts = nodes.flatMap codeTexts := by
  obtain ⟨params, results, rfl, all⟩ := passes
  induction all with
  | nil => rfl
  | @cons node result nodes results here _ ih =>
    obtain ⟨o, c, rfl⟩ := here
    simpa [gives_code node o c] using ih

theorem texts_chainCode
    (scripted : ∀ s ∈ chain, ScriptedDirectives s.element.props ∧ s.directive.Scripted)
    (isOpen : ∀ s ∈ chain.dropLast, s.condition?.isSome = true) :
    (chainCode chain).texts = chain.flatMap (·.function.texts) := by
  induction chain with
  | nil => exact texts_script _
  | cons s rest ih =>
    obtain ⟨⟨directives, named⟩, others⟩ := forall_mem_cons.mp scripted
    have slot := texts_dynamicSlot (scripted_slotName named) s.function (some s.key)
    rw [chainCode]
    split
    next d found =>
      have member : .directive d ∈ s.element.props := by
        rcases or_eq_some_iff.mp found with first | ⟨-, second⟩
        · exact (of_find? first).1
        · exact (of_find? second).1
      have rest := ih others fun s member => isOpen s (by cases rest <;> simp_all)
      simp [texts_slotCondition (directives d member), slot, rest]
    next none =>
      cases rest with
      | nil => simp [slot]
      | cons => simp [none] at isOpen

/-- What the places hold, apart from what they say themselves. -/
theorem texts_entries (fits : ∀ entry ∈ entries, entry.Fits)
    (scripted : ∀ s ∈ entries.flatMap SlotEntry.slots,
      ScriptedDirectives s.element.props ∧ s.directive.Scripted) :
    ((object (entries.filterMap SlotEntry.property?)).texts ++
        (entries.filterMap SlotEntry.dynamic?).flatMap texts).Perm
      ((entries.flatMap SlotEntry.slots).flatMap (·.function.texts)) := by
  induction entries with
  | nil => simp
  | cons entry entries ih =>
    rw [flatMap_cons, forall_mem_append] at scripted
    obtain ⟨here, others⟩ := forall_mem_cons.mp fits
    have rest := ih others scripted.2
    rw [perm_iff_count] at rest ⊢
    intro t
    have rest := rest t
    cases entry with
    | always s =>
      have named := scripted_slotName (scripted.1 s (by simp [SlotEntry.slots])).2
      simp [filterMap_cons, SlotEntry.property?, SlotEntry.dynamic?, SlotEntry.slots, named.texts]
        at rest ⊢
      omega
    | each head s =>
      obtain ⟨directives, named⟩ := scripted.1 s (by simp [SlotEntry.slots])
      obtain ⟨-, d, found, loop⟩ := here
      have source := ((directives d (of_find? found).1).loop head loop).texts
      have slot := texts_dynamicSlot (scripted_slotName named) s.function none
      simp [filterMap_cons, SlotEntry.property?, SlotEntry.dynamic?, SlotEntry.slots, source, slot]
        at rest ⊢
      omega
    | chain first others =>
      have chain : (chainCode (first :: others)).texts = _ := texts_chainCode scripted.1 here.2.2
      simp [filterMap_cons, SlotEntry.property?, SlotEntry.dynamic?, SlotEntry.slots, chain]
        at rest ⊢
      omega

theorem texts_of_invisible (invisible : node.isVisible = false) : node.codeTexts = [] := by
  cases node with
  | text t =>
    have isSpace : t.isSpace = true := by simpa [isVisible] using invisible
    simp [codeTexts, TextNode.shown, isSpace]
  | comment => rw [codeTexts]
  | textCall t =>
    rw [codeTexts]
    simp only [isVisible] at invisible
    split at invisible
    next none => simp [none]
    next inner some =>
      have isSpace : inner.isSpace = true := by simpa using invisible
      simp [some, TextNode.shown, isSpace]
    · cases invisible
  | _ => cases invisible

/-- The texts of siblings are those in the templates of slots and those outside. -/
theorem texts_templates (settled : ∀ node ∈ nodes, node.Settled) :
    (((nodes.filterMap of?).flatMap
        fun t => t.children.flatMap codeTexts) ++
      (implicitContent nodes).flatMap codeTexts).Perm
      (nodes.flatMap codeTexts) := by
  induction nodes with
  | nil => exact .refl _
  | cons node nodes ih =>
    obtain ⟨here, others⟩ := forall_mem_cons.mp settled
    have rest := ih others
    rw [perm_iff_count] at rest ⊢
    intro t
    have rest := rest t
    cases found : of? node with
    | none =>
      cases node <;> simp [implicitContent, found, isComment, codeTexts]
        at rest ⊢ <;> omega
    | some template =>
      obtain ⟨rfl, isTemplate, -⟩ := slotTemplate_eq found
      have lowered : template.element.lowered = none := Element.Settled.template here isTemplate
      simp [implicitContent, found, codeTexts, lowered] at rest ⊢
      omega

theorem texts_finish (b : SlotsBuild) : b.finish.slots.texts =
    (object b.properties).texts ++ b.dynamic.flatMap texts := by
  unfold SlotsBuild.finish
  dsimp only
  split
  next none =>
    simp [named, Expression.snippet, Expression.texts, List.isEmpty_iff.mp none]
  · simp [named, Expression.snippet, Expression.texts]

theorem texts_places {b : SlotsBuild} (places : b.Places el nodes)
    (scripted : ScriptedDirectives el.props) (settled : ∀ node ∈ nodes, node.Settled) :
    b.finish.slots.texts.Perm (nodes.flatMap codeTexts) := by
  rw [texts_finish]
  cases places with
  | own found _ passes properties dynamic =>
    have named := scripted_slotName (scripted _ (of_find? found).1)
    simp [properties, dynamic, named.texts, texts_passes passes]
  | only _ _ passes properties dynamic =>
    simp [properties, dynamic, named, Expression.snippet, Expression.texts,
      texts_passes passes]
  | @templates entries rest _ arranges properties dynamic default =>
    have known : ∀ s ∈ entries.flatMap SlotEntry.slots,
        ScriptedDirectives s.element.props ∧ s.directive.Scripted := by
      intro s member
      have member := mem_map_of_mem (f := PlacedSlot.toSlotTemplate) member
      rw [arranges.templates, mem_filterMap] at member
      obtain ⟨node, member, found⟩ := member
      obtain ⟨rfl, -, isSlot⟩ := slotTemplate_eq found
      have scripted := Element.Settled.scripted (settled _ member)
      exact ⟨scripted, scripted _ (of_find? isSlot).1⟩
    have outside : (object rest).texts =
        (implicitContent nodes).flatMap codeTexts := by
      rcases default with ⟨rfl, invisible⟩ | ⟨f, rfl, passes⟩
      · exact (flatMap_eq_nil_iff.mpr fun node member =>
          texts_of_invisible (invisible node member)).symm
      · simp [named, Expression.snippet, Expression.texts, texts_passes passes]
    have inside : (entries.flatMap SlotEntry.slots).flatMap (·.function.texts) =
        (nodes.filterMap of?).flatMap
          fun t => t.children.flatMap codeTexts := by
      rw [← arranges.templates, flatMap_map]
      exact flatMap_congr fun s member => texts_passes (arranges.passes s member)
    have placed := texts_entries arranges.fits known
    have all := texts_templates settled
    rw [inside] at placed
    rw [← outside] at all
    rw [perm_iff_count] at placed all ⊢
    intro t
    have placed := placed t
    have all := all t
    simp only [properties, dynamic, texts_object, flatMap_append,
      count_append] at placed all ⊢
    omega

end Lower

end Stencil
