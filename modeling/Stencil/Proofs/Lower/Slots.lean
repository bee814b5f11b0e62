import Mathlib.Data.List.TakeWhile
import Stencil.Proofs.Lower.Content

/-! # Scripts in slots

The content of a component is written into functions that bind the names of its slots. The template
of a looped slot is written into the function of its loop as well.
-/

namespace Stencil

open List RenderNode Text Element Expression Script SlotTemplate ElementProp

/-! ## Code that is not blank -/

theorem isBlankString_of_trimmed (nothing : (trimmed s).isEmpty = true) :
    isBlankString s = true := by
  have trimmedAway : trim s.toList = [] := by simpa [trimmed] using nothing
  have blankRest : ∀ c ∈ s.toList.dropWhile isBlank, isBlank c = true := by
    simpa [trim, trimEnd, trimStart] using trimmedAway
  simp only [isBlankString, isBlankText, all_eq_true]
  intro c member
  rw [← takeWhile_append_dropWhile (p := isBlank) (l := s.toList)] at member
  rcases mem_append.mp member with front | back
  · exact mem_takeWhile_imp front
  · exact blankRest c back

theorem isBlankString_append (s t) :
    isBlankString (s ++ t) = (isBlankString s && isBlankString t) := by
  simp [isBlankString, isBlankText]

theorem isBlankString_inContext (name) : isBlankString (inContext name) = false := by
  have front : isBlankString "_ctx." = false := by decide
  simp [inContext, isBlankString_append, front]

theorem isBlankString_codes {parts part} (member : part ∈ parts)
    (visible : isBlankString part.code = false) : isBlankString (Part.codes parts) = false := by
  induction parts with
  | nil => cases member
  | cons first rest ih =>
    rw [Part.codes, isBlankString_append]
    rcases mem_cons.mp member with rfl | later
    · simp [visible]
    · simp [ih later]

theorem mem_splice_sitePart (base pos cs) (r : Script.Ref) (rest) :
    sitePart base r ∈ splice base pos cs (r :: rest) := by
  simp [splice]

theorem Script.process_visible {source span} {known : String → Bool} {qualify mode e}
    (visible : isBlankString source = false)
    (processed : process (Snippet.new source false span) known qualify mode = .ok e) :
    isBlankString e.code = false := by
  cases read : uses mode source with
  | error fault =>
    cases (process_error span known qualify visible read).symm.trans processed
  | ok u =>
    simp only [process, Snippet.new, visible, read, bind, Except.bind] at processed
    split at processed
    next isStatic => cases isStatic
    · split at processed
      · obtain rfl := Except.ok.inj processed
        simpa [code, Snippet.code, Snippet.withLevel] using visible
      · obtain rfl := Except.ok.inj processed
        simpa [code, Snippet.code, Snippet.withLevel] using visible
      next some =>
        split at processed
        · obtain rfl := Except.ok.inj processed
          simpa [code, Snippet.code] using isBlankString_inContext _
        · obtain rfl := Except.ok.inj processed
          obtain ⟨r, rest, same⟩ := exists_cons_of_ne_nil some
          rw [same]
          refine isBlankString_codes (mem_splice_sitePart _ _ _ r rest) ?_
          exact isBlankString_inContext r.ident.name

def Directive.slotNames (d : Directive) : List String :=
  d.exp.toList.flatMap names

theorem Element.of_find? {el : Element} (found : el.find? name = some d) :
    .directive d ∈ el.props ∧ d.name = name := by
  obtain ⟨p, member, named⟩ := exists_of_findSome?_eq_some found
  cases p with
  | «attribute» => cases named
  | directive d' =>
    simp only [named?] at named
    split at named
    next same =>
      obtain rfl := Option.some.inj named
      exact ⟨member, by simpa using same⟩
    · cases named

theorem Element.has_of_mem {el : Element} (member : .directive d ∈ el.props) :
    el.has d.name = true := by
  by_contra absent
  have notFound : el.find? d.name = none := by simpa [has] using absent
  have skipped := findSome?_eq_none_iff.mp notFound _ member
  simp [named?] at skipped

/-- The parameters of a slot as they are written, which in a clean run could be read. -/
structure Directive.Opens (S : Setting) (d : Directive) : Prop where
  pattern : ∀ e ∈ d.exp, e.Written
  readable : S.clean → ∀ e ∈ d.exp, e.IsPattern

/-- The names that a component has for all of its content. -/
def Element.slotNames (el : Element) : List String :=
  (el.find? "slot").toList.flatMap Directive.slotNames

def Element.isConditional (el : Element) : Bool :=
  el.has "if" || el.has "else-if" || el.has "else"

namespace SlotTemplate

/-- The name and content of a slot that is written below functions that bind the names `bound`. -/
structure Fills (P : Policy) (bound : List String) (t : SlotTemplate) : Prop where
  name : t.directive.slotName.Emitted P bound
  children : ∀ child ∈ t.children, child.Ready P (t.directive.slotNames ++ bound)

/-- The loop of a slot whose function binds the names `names`. The parameters of the slot are read
    before the loop has its names, so they should not use them. -/
structure Repeats (S : Setting) (bound names : List String) (t : SlotTemplate) (head : LoopHead) :
    Prop where
  source : head.source.Emitted S.policy bound
  params : Params S.policy false names bound names head.params
  late : S.clean → ∀ e ∈ t.directive.exp, ∀ u, uses .params e.source = .ok u →
    ∀ name ∈ u.free, name ∈ names → isAllowedGlobal name = true ∨ name ∈ S.late
  fills : t.Fills S.policy (names ++ bound)

/-- A slot in a component below functions that bind the names `bound`. -/
structure Ready (S : Setting) (bound : List String) (t : SlotTemplate) : Prop where
  opens : t.directive.Opens S
  condition : ∀ name ∈ ["if", "else-if"], ∀ d ∈ t.element.find? name, ∀ e ∈ d.exp,
    e.Emitted S.policy bound
  single : t.element.isConditional = true ∨ t.element.has "for" = false → t.Fills S.policy bound
  looped : t.element.isConditional = false → ∀ d ∈ t.element.find? "for", ∀ head ∈ d.loop,
    ∃ names, t.Repeats S bound names head

end SlotTemplate

/-- A lowered child below functions that bind the names `bound`. As a child of a component it may be
    the template of a slot. -/
structure Placed (S : Setting) (inComponent : Bool) (bound : List String) (node : TemplateNode) :
    Prop where
  slot : inComponent = true → ∀ t, of? node = some t → t.Ready S bound
  ready : (inComponent = true → (of? node).isSome = true → ¬ S.clean) →
    node.Ready S.policy bound

/-- What is found so far is written below functions that bind the names `bound`. -/
structure SlotsBuild.Holds (P : Policy) (bound : List String) (b : SlotsBuild) : Prop where
  properties : ScopedProps P bound b.properties
  dynamic : ∀ node ∈ b.dynamic, node.Scoped P bound
  implicit : ∀ node ∈ b.implicit, node.Ready P bound

namespace Lower

theorem slotTemplate_eq (found : of? node = some t) :
    node = .element t.element t.children ∧ t.element.kind = .template ∧
      t.element.find? "slot" = some t.directive := by
  unfold of? at found
  split at found
  next el children =>
    split at found
    next isTemplate =>
      obtain ⟨d, isSlot, rfl⟩ := Option.map_eq_some_iff.mp found
      exact ⟨rfl, eq_of_beq isTemplate, isSlot⟩
    · cases found
  · cases found

theorem gives_addSlotTemplate (b siblings t) :
    Gives (addSlotTemplate b siblings t) fun r => r.hasTemplates = true := by
  refine (Gives.trivial _).bind fun function _ => ?_
  split
  · exact .pure rfl
  · unfold addElseSlot
    dsimp only
    split
    next found =>
      refine .pure ?_
      split at found
      · unfold SlotsBuild.extendConditional? at found
        split at found
        · cases found
          rfl
        · cases found
      · cases found
    · exact (Gives.trivial _).bind fun _ _ => .pure rfl
  · split <;> exact .pure rfl
  · unfold addPlainSlot
    split
    · split
      · exact (Gives.trivial _).bind fun _ _ => .pure rfl
      · exact .pure rfl
    · exact .pure rfl

/-- As long as no template is found, all children but comments are outside every template. -/
theorem gives_addSlots {α : Type} {f : TemplateNode → List α} (comments : ∀ c, f (.comment c) = [])
    (b siblings nodes) :
    Gives (addSlots false b siblings nodes) fun r => r.hasTemplates = false →
      b.hasTemplates = false ∧ r.implicit.flatMap f = (b.implicit ++ nodes).flatMap f := by
  induction nodes generalizing b siblings with
  | nil => exact .pure fun none => ⟨none, by simp⟩
  | cons node nodes ih =>
    rw [addSlots]
    split
    · refine (ih _ (node :: siblings)).mono fun r rest none => ?_
      obtain ⟨start, same⟩ := rest none
      refine ⟨by split at start <;> exact start, same.trans ?_⟩
      cases node <;> simp [TemplateNode.isComment, comments]
    · refine (gives_addSlotTemplate b siblings _).bind fun b' found => ?_
      refine (ih b' (node :: siblings)).mono fun r rest none => ?_
      rw [(rest none).1] at found
      cases found

theorem gives_processParams (e) :
    Gives (processParams e) fun e' => e.Written → isBlankString e.source = false →
      isBlankString e'.code = false := by
  intro o c written visible
  obtain ⟨source, span, rfl⟩ := written
  simp only [processParams, snippet, exec_bind]
  split
  next processed => exact process_visible visible processed
  · exact visible

theorem yields_slotFunction (props children) :
    Yields S scope (slotFunction props children) fun node => ∀ {bound : List String},
      (∀ e ∈ props, e.Written) → (S.clean → ∀ e ∈ props, e.IsPattern) →
      (∀ e ∈ props, ∀ u, uses .params e.source = .ok u →
        S.policy.params (props.toList.flatMap names) bound (scopeHas scope) u) →
      (∀ child ∈ children, child.Ready S.policy (props.toList.flatMap names ++ bound)) →
      node.Scoped S.policy bound := by
  have rest : ∀ params, Yields S scope
      (codes children >>= fun nodes =>
        pure (RenderNode.function params (some (.array nodes)) false true)) fun node =>
      ∀ {bound names : List String}, Params S.policy true names bound names params →
        (∀ child ∈ children, child.Ready S.policy (names ++ bound)) →
        node.Scoped S.policy bound := by
    intro params
    refine (yields_codes children).bind fun nodes => .pure ?_
    intro inside bound names binds ready
    refine .function binds fun node member => ?_
    cases member
    exact scoped_array.mpr (inside _ ready)
  cases props with
  | none => exact (rest []).mono fun node inside bound _ _ _ ready => inside .nil ready
  | some e =>
    refine ((yields_processParams e).and (gives_processParams e)).bind fun e' => ?_
    refine (rest _).mono ?_
    rintro node inside ⟨visible, binds⟩ bound written readable rule ready
    specialize written e rfl
    refine inside ?_ ready
    split
    next nothing =>
      -- only a blank pattern is left out, and it binds nothing
      have blank : isBlankString e.source = true := by
        by_contra some
        have code := visible written (by simpa using some)
        rw [isBlankString_of_trimmed nothing] at code
        cases code
      have noNames : e.names = [] := by
        simp [names, bindingNames_blank blank]
      simpa [noNames] using Params.nil
    · have nothing : Params S.policy true e.names bound [] [] := .nil
      simpa [paramText] using
        binds written (fun clean => readable clean e rfl) (by simpa using rule e rfl) nothing

section Build

theorem scoped_slotCondition {d : Directive} (emitted : ∀ e ∈ d.exp, e.Emitted P bound) :
    d.slotCondition.Scoped P bound := by
  unfold Directive.slotCondition
  split
  next e found => exact scoped_expr.mpr (emitted e found)
  · exact scoped_script (.word (by simp))

theorem scoped_dynamicSlot {name : Expression} {function : RenderNode} (key)
    (emitted : name.Emitted P bound) (inside : function.Scoped P bound) :
    (dynamicSlot name function key).Scoped P bound := by
  refine scoped_object.mpr (forall_mem_cons.mpr ⟨?_, ?_⟩)
  · exact ⟨.static rfl, scoped_expr.mpr emitted⟩
  · refine forall_mem_cons.mpr ⟨⟨.static rfl, inside⟩, fun p member => ?_⟩
    split at member
    · cases mem_singleton.mp member
      exact ⟨.static rfl, scoped_string _⟩
    · cases member

theorem scoped_undefined : (RenderNode.script "undefined").Scoped P bound :=
  scoped_script (.word (by simp))

end Build

end Lower

namespace SlotsBuild.Holds

variable {b : SlotsBuild}

variable (holds : b.Holds P bound)
include holds

theorem addProperty {p : Property}
    (new : p.key.Emitted P bound ∧ p.value.Scoped P bound) : (b.addProperty p).Holds P bound :=
  ⟨forall_mem_append.mpr ⟨holds.properties, by simpa using new⟩, holds.dynamic, holds.implicit⟩

theorem addConditional {test slot : RenderNode}
    (condition : test.Scoped P bound) (new : slot.Scoped P bound) :
    (b.addConditional test slot).Holds P bound := by
  refine ⟨holds.properties, forall_mem_append.mpr ⟨holds.dynamic, ?_⟩, holds.implicit⟩
  simpa using ⟨condition, new, Lower.scoped_undefined⟩

theorem extendConditional? {alternate : RenderNode} (new : alternate.Scoped P bound)
    (found : b.extendConditional? alternate = some r) : r.Holds P bound := by
  unfold SlotsBuild.extendConditional? at found
  split at found
  next test consequent rest newline last =>
    obtain rfl := Option.some.inj found
    refine ⟨holds.properties, forall_mem_append.mpr ⟨fun node member => ?_, ?_⟩,
      holds.implicit⟩
    · exact holds.dynamic node (dropLast_subset _ member)
    · have chain := holds.dynamic _ (mem_of_getLast? last)
      simpa using Lower.scoped_attachAlternate chain new
  · cases found

end SlotsBuild.Holds

namespace Lower

variable {S : Setting}

theorem yields_addElseSlot (bound b before dir name function) :
    Yields S scope (addElseSlot b before dir name function) fun r => b.Holds S.policy bound →
      name.Emitted S.policy bound → function.Scoped S.policy bound →
      (dir.name = "else-if" → ∀ e ∈ dir.exp, e.Emitted S.policy bound) →
      r.Holds S.policy bound := by
  unfold addElseSlot
  dsimp only
  split
  next extended found =>
    refine .pure fun holds emitted inside condition => ?_
    have slot := scoped_dynamicSlot (some b.branches) emitted inside
    split at found
    · refine holds.extendConditional? ?_ found
      split
      next isElseIf =>
        refine scoped_conditional.mpr ⟨?_, slot, scoped_undefined⟩
        exact scoped_slotCondition (condition (by simpa using isElseIf))
      · exact slot
    · cases found
  · exact (Binds.error _ _).bind fun _ => .pure fun _ holds _ _ _ => holds

theorem yields_addPlainSlot (bound b t name function) :
    Yields S scope (addPlainSlot b t name function) fun r => b.Holds S.policy bound →
      name.Emitted S.policy bound → function.Scoped S.policy bound →
      r.Holds S.policy bound := by
  have added : b.Holds S.policy bound → name.Emitted S.policy bound →
      function.Scoped S.policy bound → (b.addProperty ⟨name, function⟩).Holds S.policy bound :=
    fun holds emitted inside => holds.addProperty ⟨emitted, inside⟩
  unfold addPlainSlot
  split
  · split
    · exact (Binds.error _ _).bind fun _ => .pure fun _ holds _ _ => holds
    · refine .pure fun holds emitted inside => ?_
      obtain ⟨properties, dynamic, implicit⟩ := added holds emitted inside
      exact ⟨properties, dynamic, implicit⟩
  · refine .pure fun holds emitted inside => ?_
    obtain ⟨properties, dynamic, implicit⟩ := added holds emitted inside
    exact ⟨properties, dynamic, implicit⟩

/-- The parameters of a looped slot are read in the scope around the component. -/
theorem params_of_repeats {t : SlotTemplate} {names head} (repeats : t.Repeats S bound names head)
    (around : S.Around bound scope) {e} (member : e ∈ t.directive.exp) {u}
    (read : uses .params e.source = .ok u) :
    S.policy.params t.directive.slotNames (names ++ bound) (scopeHas scope) u := by
  intro clean name free
  constructor
  · intro inside
    rcases mem_append.mp inside with new | old
    · exact .inr (repeats.late clean e member u read name free new)
    · exact .inl (around.known name old)
  · intro known
    rcases around.closed clean name known with inside | escaped
    · exact .inl (mem_append_right _ (mem_append_right _ inside))
    · exact .inr escaped

theorem yields_templateFunction (t : SlotTemplate) (around : S.Around bound scope) :
    Yields S scope (slotFunction t.directive.exp t.children) fun function => t.Ready S bound →
      (t.Fills S.policy bound → function.Scoped S.policy bound) ∧
        ∀ names head, t.Repeats S bound names head →
          function.Scoped S.policy (names ++ bound) := by
  refine (yields_slotFunction t.directive.exp t.children).mono fun function inside ready => ?_
  constructor
  · intro fills
    exact inside ready.opens.pattern ready.opens.readable (fun _ _ u _ => around.params _ u)
      fills.children
  · intro names head repeats
    exact inside ready.opens.pattern ready.opens.readable
      (fun _ member _ read => params_of_repeats repeats around member read) repeats.fills.children

theorem yields_addSlotTemplate (b before t) (around : S.Around bound scope) :
    Yields S scope (addSlotTemplate b before t) fun r => b.Holds S.policy bound →
      t.Ready S bound → r.Holds S.policy bound := by
  have marked : b.Holds S.policy bound →
      SlotsBuild.Holds S.policy bound { b with hasTemplates := true } := fun holds =>
    ⟨holds.properties, holds.dynamic, holds.implicit⟩
  refine (yields_templateFunction t around).bind fun function => ?_
  split
  next d found =>
    refine .pure fun inside holds ready => ?_
    have fills := ready.single (.inl (by simp [isConditional, has, found]))
    have slot := scoped_dynamicSlot (some b.branches) fills.name ((inside ready).1 fills)
    refine (marked holds).addConditional ?_ slot
    exact scoped_slotCondition (ready.condition "if" (by simp) d found)
  next d _ found =>
    refine (yields_addElseSlot bound _ before d _ function).mono ?_
    intro r added inside holds ready
    have either := Option.or_eq_some_iff.mp found
    have conditional : t.element.isConditional = true := by
      rcases either with elseIf | ⟨-, «else»⟩
      · simp [isConditional, has, elseIf]
      · simp [isConditional, has, «else»]
    have fills := ready.single (.inl conditional)
    refine added (marked holds) fills.name ((inside ready).1 fills) fun isElseIf => ?_
    rcases either with elseIf | ⟨-, «else»⟩
    · exact ready.condition "else-if" (by simp) d elseIf
    · exact absurd ((of_find? «else»).2.symm.trans isElseIf) (by decide)
  next d noIf noElse found =>
    split
    next head loop =>
      refine .pure fun inside holds ready => ?_
      have unconditional : t.element.isConditional = false := by
        simpa [isConditional, has, noIf] using noElse
      obtain ⟨names, repeats⟩ := ready.looped unconditional d found head loop
      have slot := scoped_dynamicSlot none repeats.fills.name
        ((inside ready).2 names head repeats)
      refine ⟨holds.properties, forall_mem_append.mpr ⟨holds.dynamic, ?_⟩, holds.implicit⟩
      simpa using scoped_renderList repeats.source repeats.params slot
    · exact .pure fun _ holds _ => ⟨holds.properties, holds.dynamic, holds.implicit⟩
  next noIf noElse noFor =>
    refine (yields_addPlainSlot bound _ t _ function).mono ?_
    intro r added inside holds ready
    have fills := ready.single (.inr (by simp [has, noFor]))
    exact added (marked holds) fills.name ((inside ready).1 fills)

section

variable (b : SlotsBuild) (before nodes : List TemplateNode)

theorem yields_addSlots (around : S.Around bound scope) :
    Yields S scope (addSlots false b before nodes) fun r => b.Holds S.policy bound →
      (∀ node ∈ nodes, Placed S true bound node) → r.Holds S.policy bound ∧
        (r.hasTemplates = false → b.hasTemplates = false ∧
          ∀ node ∈ nodes, node.Ready S.policy bound) := by
  induction nodes generalizing b before with
  | nil => exact .pure fun holds _ => ⟨holds, fun none => ⟨none, by simp⟩⟩
  | cons node nodes ih =>
    rw [addSlots]
    split
    next outside =>
      refine (ih _ (node :: before)).mono fun r rest holds placed => ?_
      obtain ⟨head, tail⟩ := forall_mem_cons.mp placed
      have ready := head.ready fun _ isTemplate => by simp [outside] at isTemplate
      have kept : SlotsBuild.Holds S.policy bound
          (if node.isComment then b else { b with implicit := b.implicit ++ [node] }) := by
        split
        · exact holds
        · exact ⟨holds.properties, holds.dynamic,
            forall_mem_append.mpr ⟨holds.implicit, by simpa using ready⟩⟩
      obtain ⟨last, all⟩ := rest kept tail
      refine ⟨last, fun none => ?_⟩
      obtain ⟨start, others⟩ := all none
      exact ⟨by split at start <;> exact start, forall_mem_cons.mpr ⟨ready, others⟩⟩
    next t found =>
      refine ((yields_addSlotTemplate b before t around).and
        (gives_addSlotTemplate b before t)).bind fun b' => ?_
      refine (ih b' (node :: before)).mono ?_
      rintro r rest ⟨marked, added⟩ holds placed
      obtain ⟨head, tail⟩ := forall_mem_cons.mp placed
      obtain ⟨last, all⟩ := rest (added holds (head.slot rfl t found)) tail
      refine ⟨last, fun none => ?_⟩
      rw [(all none).1] at marked
      cases marked

theorem yields_ownSlot :
    Yields S scope (addSlots true b before nodes) fun r => r.properties = b.properties ∧
      r.dynamic = b.dynamic ∧
      ∀ node ∈ nodes, (of? node).isSome = true → ¬ S.clean := by
  induction nodes generalizing b before with
  | nil => exact .pure ⟨rfl, rfl, by simp⟩
  | cons node nodes ih =>
    rw [addSlots]
    split
    next outside =>
      refine (ih _ (node :: before)).mono ?_
      rintro r ⟨properties, dynamic, alone⟩
      refine ⟨by split at properties <;> exact properties,
        by split at dynamic <;> exact dynamic, forall_mem_cons.mpr ⟨?_, alone⟩⟩
      intro isTemplate
      simp [outside] at isTemplate
    · exact (Binds.error _ _).bind fun _ => .pure fun unclean => ⟨rfl, rfl, fun _ _ _ => unclean⟩

end

theorem yields_addDefaultSlot (bound b children) :
    Yields S scope (addDefaultSlot b children) fun r => b.Holds S.policy bound →
      (b.hasTemplates = false → ∀ node ∈ children, node.Ready S.policy bound) →
      r.Holds S.policy bound := by
  have content : ∀ nodes : List TemplateNode, Yields S scope
      (slotFunction none nodes >>= fun function =>
        pure (b.addProperty (.named "default" function))) fun r => b.Holds S.policy bound →
      (∀ node ∈ nodes, node.Ready S.policy bound) → r.Holds S.policy bound := fun nodes =>
    (yields_slotFunction none nodes).bind fun function => .pure fun inside holds ready =>
      holds.addProperty ⟨.static rfl, inside (by simp) (fun _ => (by simp)) (by simp) ready⟩
  unfold addDefaultSlot
  split
  next none =>
    exact (content children).mono fun r added holds ready =>
      added holds (ready (by simpa using none))
  · split
    · exact .pure fun holds _ => holds
    · split
      · exact (Binds.error _ _).bind fun _ => .pure fun _ holds _ => holds
      · exact (content b.implicit).mono fun r added holds _ => added holds holds.implicit

theorem scoped_finish {b : SlotsBuild} (properties : ScopedProps P bound b.properties)
    (dynamic : ∀ node ∈ b.dynamic, node.Scoped P bound) : b.finish.slots.Scoped P bound := by
  have object : (RenderNode.object (b.properties ++ [.named "_" (.constant
      (if b.isDynamic then SlotStability.dynamic else .stable).code .hoistable)])).Scoped P bound := by
    refine scoped_object.mpr (forall_mem_append.mpr ⟨properties, ?_⟩)
    simpa [Property.named] using ⟨Expression.Emitted.named _ _,
      scoped_constant (.stability _)⟩
  unfold SlotsBuild.finish
  dsimp only
  split
  · exact object
  · refine scoped_call.mpr ⟨fun h => absurd h (by decide), ?_⟩
    simp only [forall_mem_cons]
    exact ⟨object, scoped_array.mpr dynamic, by simp⟩

theorem yields_buildSlots (el children) (around : S.Around bound scope) :
    Yields S scope (buildSlots el children) fun r => ResolvedProps S.policy bound el.props →
      (∀ d ∈ el.find? "slot", d.Opens S) →
      (∀ child ∈ children, Placed S true (el.slotNames ++ bound) child) →
      r.slots.Scoped S.policy bound := by
  refine Binds.get.bind fun c => ?_
  split
  next d found =>
    refine (yields_slotFunction d.exp children).bind fun function => ?_
    refine (yields_ownSlot _ [] children).bind fun b => .pure ?_
    rintro ⟨properties, dynamic, alone⟩ inside _ resolved opens placed
    have names : el.slotNames = d.slotNames := by simp [slotNames, found]
    rw [names] at placed
    have ready : ∀ child ∈ children, child.Ready S.policy (d.slotNames ++ bound) :=
      fun child member => (placed child member).ready fun _ => alone child member
    have function := inside (opens d found).pattern (opens d found).readable
      (fun _ _ u _ => around.params _ u) ready
    have name : d.slotName.Emitted S.policy bound := by
      unfold Directive.slotName
      cases arg : d.arg with
      | none => exact .static rfl
      | some a => exact (resolved d (of_find? found).1).arg a arg
    refine scoped_finish ?_ ?_
    · rw [properties]
      simpa [SlotsBuild.addProperty, ScopedProps] using ⟨name, function⟩
    · simp [dynamic, SlotsBuild.addProperty]
  next noSlot =>
    refine (yields_addSlots _ [] children around).bind fun b => ?_
    refine (yields_addDefaultSlot bound b children).bind fun b' => .pure ?_
    intro added all _ _ _ placed
    have names : el.slotNames = [] := by simp [slotNames, noSlot]
    rw [names] at placed
    obtain ⟨holds, ready⟩ := all ⟨by simp [ScopedProps], by simp, by simp⟩ placed
    have filled := added holds fun none => (ready none).2
    exact scoped_finish filled.properties filled.dynamic

/-! ## Elements -/

/-- The names that an element has for its children alone. -/
def contentNames (el : Element) : List String :=
  if el.kind == .component then el.slotNames else []

section

variable (el : Element) (children : List TemplateNode) (around : S.Around bound scope)
include around

theorem yields_lowerChildren :
    Yields S scope (lowerChildren el children) fun r => ResolvedProps S.policy bound el.props →
      ((el.kind == .component) = true → ∀ d ∈ el.find? "slot", d.Opens S) → (∀ child ∈ children,
        Placed S (el.kind == .component) (contentNames el ++ bound) child) →
      ∀ content ∈ r.1, (∀ index, content ≠ .hoisted index) ∧
        ∀ part ∈ content.parts, part.Scoped S.policy bound := by
  unfold lowerChildren
  split
  · exact .pure fun _ _ _ => by simp
  next first rest =>
    split
    next isComponent =>
      refine (yields_buildSlots el (first :: rest) around).bind fun built => .pure ?_
      intro inside resolved opens placed content member
      cases member
      rw [isComponent, contentNames, if_pos isComponent] at placed
      exact ⟨by simp, by simpa [Children.parts] using inside resolved (opens isComponent) placed⟩
    next notComponent =>
      have outside : (∀ child ∈ first :: rest,
          Placed S (el.kind == .component) (contentNames el ++ bound) child) →
          ∀ child ∈ first :: rest, child.Ready S.policy bound := by
        intro placed child member
        rw [contentNames, if_neg notComponent] at placed
        exact (placed child member).ready fun isComponent => absurd isComponent notComponent
      split
      · refine (yields_code first).bind fun node => .pure ?_
        intro inside _ _ placed content member
        cases member
        have ready := inside bound (outside placed first mem_cons_self)
        split <;> exact ⟨by simp, by simpa [Children.parts] using ready⟩
      · refine (yields_codes (first :: rest)).bind fun nodes => .pure ?_
        intro inside _ _ placed content member
        cases member
        exact ⟨by simp, by simpa [Children.parts] using inside bound (outside placed)⟩

theorem yields_lowerElement :
    Yields S scope (lowerElement el children) fun node => ResolvedProps S.policy bound el.props →
      ((el.kind == .component) = true → ∀ d ∈ el.find? "slot", d.Opens S) → (∀ child ∈ children,
        Placed S (el.kind == .component) (contentNames el ++ bound) child) →
      node.Scoped S.policy bound := by
  refine (yields_resolveTag el around).bind fun tag => Binds.fresh.bind fun id =>
    ((scripting_emitted around).lowerProps el).bind fun props =>
    (yields_runtimeArgumentList props.directives around).bind fun directives =>
    (yields_lowerChildren el children around).bind fun content => .pure ?_
  intro childrenInside directivesInside propsInside _ tagInside resolved opens placed
  obtain ⟨propsInside, emitted⟩ := propsInside resolved
  replace childrenInside := childrenInside resolved opens placed
  refine scoped_vnode.mpr ⟨.inr (ownRefs_vnode fun c member =>
    (childrenInside c member).1), ?_⟩
  simp only [VNode.parts, forall_mem_append]
  refine ⟨⟨⟨tagInside resolved, ?_⟩, ?_⟩, ?_⟩
  · simpa using propsInside
  · cases found : content.1 with
    | none => simp
    | some nodes => exact (childrenInside nodes found).2
  · split
    · simp
    · exact directivesInside fun d member => (emitted d member).2

end

theorem yields_outletFallback (bound children) :
    Yields S scope (outletFallback children) fun r =>
      (∀ child ∈ children, child.Ready S.policy bound) →
      ∀ node ∈ r, node.Scoped S.policy bound := by
  unfold outletFallback
  split
  · exact .pure fun _ => by simp
  · refine (yields_codes children).bind fun nodes => .pure fun inside ready node member => ?_
    cases member
    refine .function .nil fun node member => ?_
    cases member
    exact scoped_array.mpr (inside bound ready)

theorem yields_lowerOutlet (el children) (around : S.Around bound scope) :
    Yields S scope (lowerOutlet el children) fun node => ResolvedProps S.policy bound el.props →
      (∀ child ∈ children, child.Ready S.policy bound) → node.Scoped S.policy bound := by
  have scripting := scripting_emitted around
  refine Binds.read.bind fun o => (scripting.outletProps el _).bind fun props =>
    (yields_outletFallback bound children).bind fun fallback => .pure ?_
  intro fallbackInside propsInside _ resolved ready
  have outlet := scripting.outlet resolved (q := {}) (scoped_string _) (by rintro _ ⟨⟩)
  refine scoped_call.mpr ⟨fun h => absurd h (by decide), ?_⟩
  have propsInside := propsInside outlet.2
  simp only [forall_mem_cons]
  refine ⟨scoped_script ?_, outlet.1, ?_⟩
  · split <;> exact .word (by simp)
  · have blank : (RenderNode.script "\x7b\x7d").Scoped S.policy bound :=
      scoped_script (.word (by simp))
    cases props <;> cases fallback <;> simp_all

end Lower

end Stencil
