import Stencil.Proofs.Lower.Slots
import Stencil.Proofs.Lower.Sources

/-! # Steps that keep accounts in order

`Lower.Lowers` says of a step of lowering that it makes code out of what it is given: what it adds
are new numbers, scripts, and references to components and directives that it takes into use. The
steps of this module make the code of lowered siblings: runs of text and slots.
-/

namespace Stencil

open List RenderNode

namespace Sources

/-- What a lowered sibling has to be for slots to be found in it. -/
def Sibling (S : Sources) : TemplateNode → Prop
  | .element el _ => (∀ d, .directive d ∈ el.props → d.Settled S.Written S.Script false) ∧
      (el.kind = .template → el.lowered = none)
  | _ => True

abbrev Siblings (S : Sources) (nodes : List TemplateNode) : Prop :=
  ∀ node ∈ nodes, S.Sibling node

end Sources

theorem Context.mem_use (name names) : name ∈ use name names := by
  unfold use
  split
  next known => simpa using known
  · simp

theorem Context.subset_use (name names) : names ⊆ use name names := by
  unfold use
  split
  · exact List.Subset.refl names
  · exact subset_append_left names [name]

theorem Context.nodup_use (name) {names : List String} (nodup : names.Nodup) :
    (use name names).Nodup := by
  unfold use
  split
  · exact nodup
  next unknown =>
    refine nodup_append.mpr ⟨nodup, nodup_singleton name, ?_⟩
    rintro _ member _ (_ | ⟨_, ⟨⟩⟩) rfl
    exact unknown (by simpa using member)

/-! ## Accounts in a growing context -/

theorem Element.Runs.mono {el : Element} (runs : el.Runs directives node)
    (more : directives ⊆ directives') : el.Runs directives' node := by
  cases runs with
  | helper => exact .helper
  | resolved lends known => exact .resolved lends (more known)

theorem Element.Labels.mono {components components' directives directives'} {el : Element} {l}
    (labels : el.Labels components directives l) (used : components ⊆ components')
    (run : directives ⊆ directives') : el.Labels components' directives' l := by
  refine ⟨?_, fun nodes found node inside => ?_, labels.span⟩
  · have tagged := labels.tag
    generalize l.tag = tag at tagged
    cases tagged with
    | plain isPlain => exact .plain isPlain
    | component isComponent known => exact .component isComponent (used known)
    | dynamic isComponent => exact .dynamic isComponent
  · exact (labels.directives nodes found node inside).mono run

section

variable {S : Sources} {atoms : Multiset Atom} (held : S.Held c atoms)
include held

theorem Sources.Held.grow (nextId : c.nextId ≤ c'.nextId)
    (components : c.components ⊆ c'.components) (directives : c.directives ⊆ c'.directives)
    (nodupComponents : c'.components.Nodup) (nodupDirectives : c'.directives.Nodup) :
    S.Held c' atoms := by
  refine ⟨held.distinct, fun x member => ?_, nodupComponents, nodupDirectives⟩
  have allowed := held.allows x member
  cases x with
  | number id => exact Nat.lt_of_lt_of_le allowed nextId
  | label l =>
    rcases allowed with isFragment | ⟨el, known, labels, kept⟩
    · exact .inl isFragment
    · exact .inr ⟨el, known, labels.mono components directives, kept⟩
  | snippet s => exact allowed
  | component name => exact components allowed
  | directive name => exact directives allowed

theorem Sources.Held.same (same : Lower.SameUses c c') : S.Held c' atoms := by
  obtain ⟨components, directives, nextId⟩ := same
  refine held.grow nextId.ge ?_ ?_ ?_ ?_
  · rw [components]
    exact List.Subset.refl _
  · rw [directives]
    exact List.Subset.refl _
  · exact components ▸ held.components
  · exact directives ▸ held.directives

end

/-! ## Steps that keep accounts in order -/

@[simp] abbrev TemplateNode.sum (nodes : List TemplateNode) : Multiset Atom :=
  (nodes.map atoms).sum

@[simp] abbrev RenderNode.sum (nodes : List RenderNode) : Multiset Atom :=
  (nodes.map atoms).sum

namespace Lower

open Sources

variable {S : Sources} {α β : Type}

/-- A step whose result has the property `A`, and that makes the atoms `after` out of `before`. -/
def Lowers (S : Sources) (act : Lower α) (A : α → Prop) (before : Multiset Atom)
    (after : α → Multiset Atom) : Prop :=
  ∀ c : Context, A (exec act S.options c).1 ∧ ∀ rest, S.Held c (before + rest) →
    S.Held (exec act S.options c).2 (after (exec act S.options c).1 + rest)

/-- A step of which only the atoms count. -/
abbrev Makes (S : Sources) (act : Lower α) (before : Multiset Atom) (after : α → Multiset Atom) :
    Prop :=
  Lowers S act (fun _ => True) before after

namespace Lowers

variable {A : α → Prop} {after : α → Multiset Atom} {act : Lower α} {next : α → Lower β}

theorem pure (always : A a) (turns : S.Turns before (after a)) :
    Lowers S (Pure.pure a) A before after :=
  fun c => ⟨always, turns c⟩

theorem pure_eq (always : A a) (same : after a = before) : Lowers S (Pure.pure a) A before after :=
  pure always (.of_le same.le)

theorem given (lowers : Lowers S act A before after) (turns : S.Turns before' before) :
    Lowers S act A before' after :=
  fun c => ⟨(lowers c).1, fun rest held => (lowers c).2 rest (turns c rest held)⟩

/-- Two steps, one after the other. The second one also takes the atoms `extra`, which the first
    one does not know of. -/
theorem bind (first : Lowers S act A before after)
    (second : ∀ a, A a → Lowers S (next a) B (after a + extra) final) :
    Lowers S (act >>= next) B (before + extra) final := by
  intro c
  obtain ⟨always, holds⟩ := first c
  obtain ⟨always', holds'⟩ := second _ always (exec act S.options c).2
  refine ⟨always', fun rest held => holds' rest ?_⟩
  rw [add_assoc] at held ⊢
  exact holds _ held

theorem followed (first : Lowers S act A before after)
    (second : ∀ a, A a → Lowers S (next a) B (after a) final) :
    Lowers S (act >>= next) B before final := by
  have alone : Lowers S (act >>= next) B (before + 0) final :=
    first.bind fun a always => (add_zero (after a)).symm ▸ second a always
  rwa [add_zero] at alone

theorem gain (first : Lowers S act A 0 after)
    (second : ∀ a, A a → Lowers S (next a) B (before + after a) final) :
    Lowers S (act >>= next) B before final := by
  have gained := first.bind fun a always => add_comm before (after a) ▸ second a always
  rwa [zero_add] at gained

theorem steady (first : Steady S.options act A)
    (second : ∀ a, A a → Lowers S (next a) B before final) :
    Lowers S (act >>= next) B before final := by
  have nothing : Lowers S act A 0 fun _ => 0 :=
    fun c => ⟨(first c).2, fun rest held => held.same (first c).1⟩
  exact nothing.gain fun a always => (add_zero before).symm ▸ second a always

theorem fresh : Makes S fresh 0 fun id => {.number id} := by
  refine fun c => ⟨trivial, fun rest held => ?_⟩
  rw [zero_add] at held
  have grown : S.Held { c with nextId := c.nextId + 1 } rest :=
    held.grow (Nat.le_succ _) (List.Subset.refl _) (List.Subset.refl _) held.components
      held.directives
  refine grown.add ?_ fun x member => ?_
  · rw [Multiset.singleton_add, Multiset.filterMap_cons_some Atom.number? _ _ rfl,
      Multiset.nodup_cons]
    refine ⟨fun member => ?_, held.distinct⟩
    obtain ⟨x, inside, isId⟩ := (Multiset.mem_filterMap _ _).mp member
    cases x with
    | number id =>
      cases isId
      exact Nat.lt_irrefl _ (held.allows _ inside)
    | _ => cases isId
  · rw [Multiset.mem_singleton.mp member]
    exact Nat.lt_succ_self _

/-- A step that takes one component or directive into use. -/
theorem use {f : Context → Context} {x : Atom} (unnumbered : x.number? = none)
    (grown : ∀ c atoms, S.Held c atoms → S.Held (f c) atoms) (allowed : ∀ c, S.Allows (f c) x) :
    Makes S (modify f) 0 fun _ => {x} := by
  refine fun c => ⟨trivial, fun rest held => ?_⟩
  rw [zero_add] at held
  exact (grown c rest held).add_one unnumbered (allowed c)

theorem useComponent (name) :
    Makes S (modify (Context.useComponent name)) 0 fun _ => {.component name} :=
  use rfl (fun c _ held => held.grow (Nat.le_refl _) (Context.subset_use name c.components)
    (List.Subset.refl _) (Context.nodup_use name held.components) held.directives)
    fun c => Context.mem_use name c.components

theorem useDirective (name) :
    Makes S (modify (Context.useDirective name)) 0 fun _ => {.directive name} :=
  use rfl (fun c _ held => held.grow (Nat.le_refl _) (List.Subset.refl _)
    (Context.subset_use name c.directives) held.components (Context.nodup_use name held.directives))
    fun c => Context.mem_use name c.directives

section

variable (lowers : Lowers S act A before after)
include lowers

theorem inScope : Lowers S (inScope act) A before after :=
  fun c => ⟨(lowers c).1, fun rest held => ((lowers c).2 rest held).same ⟨rfl, rfl, rfl⟩⟩

theorem inLoop : Lowers S (inLoop act) A before after := by
  intro c
  obtain ⟨always, holds⟩ := lowers { c with loopDepth := c.loopDepth + 1 }
  exact ⟨always, fun rest held => (holds rest (held.same ⟨rfl, rfl, rfl⟩)).same ⟨rfl, rfl, rfl⟩⟩

theorem inSlot : Lowers S (inSlot act) A before after := by
  intro c
  obtain ⟨always, holds⟩ := lowers { c with slotDepth := c.slotDepth + 1 }
  exact ⟨always, fun rest held => (holds rest (held.same ⟨rfl, rfl, rfl⟩)).same ⟨rfl, rfl, rfl⟩⟩

end

theorem inSlotScope (el) (lowers : Lowers S act A before after) :
    Lowers S (inSlotScope el act) A before after := by
  unfold Lower.inSlotScope
  split
  · refine .inScope ?_
    split
    · exact .steady (PlainScripting.steady_bindingNames _) fun names _ =>
        .steady (PlainScripting.steady_bindNames _ names) fun _ _ => lowers.inSlot
    · exact lowers.inSlot
  · exact lowers

end Lowers

/-! ## Code of lowered nodes -/

mutual
theorem makes_code (sound : S.Sound) : (node : TemplateNode) → Makes S (code node) node.atoms atoms
  | .element el children => by
      rw [code, TemplateNode.atoms]
      cases el.lowered with
      | some node => exact .pure trivial (.refl _)
      | none =>
        rw [TemplateNode.atomsAll_eq]
        refine Lowers.fresh.gain fun id _ => (makes_codes sound children).bind fun nodes _ => ?_
        exact .pure trivial (turns_fragment_nodes id _ nodes _ (by rintro _ ⟨⟩))
  | .text _ | .interpolation _ _ | .comment _ | .textCall _ | .compound _ => by
      rw [TemplateNode.atoms]
      exact .pure_eq trivial (by simp)
  | .conditional branches lowered span => by
      rw [TemplateNode.atoms]
      cases lowered with
      | some node => exact .pure_eq trivial (by simp)
      | none =>
        have placeholder : S.Free placeholder.atoms := by
          simpa [placeholder] using ⟨sound.scripting.string _, sound.script _⟩
        exact .pure trivial (.free placeholder)
  | .loop head children lowered span => by
      rw [TemplateNode.atoms]
      cases lowered with
      | some node => exact .pure_eq trivial (by simp)
      | none => exact .pure trivial (.free (sound.script _))

theorem makes_codes (sound : S.Sound) : (nodes : List TemplateNode) →
    Makes S (codes nodes) (TemplateNode.sum nodes) sum
  | [] => .pure_eq trivial rfl
  | node :: nodes => by
      refine (makes_code sound node).bind fun first _ => ?_
      rw [add_comm]
      exact (makes_codes sound nodes).bind fun rest _ => .pure_eq trivial (add_comm _ _)
end

/-! ## Runs of text -/

theorem atoms_join (a b : Compound) : (Expression.compound (a.join b)).atoms =
    (Expression.compound a).atoms + (Expression.compound b).atoms := by
  simp [Expression.atoms_compound, Compound.join, Part.snippets]

theorem atoms_run {node : TemplateNode} (joins : (node.isText || node.isCompound) = true) :
    (Expression.compound node.run).atoms = node.atoms := by
  cases node with
  | text | interpolation =>
    rw [TemplateNode.run, Expression.atoms_compound, TemplateNode.atoms]
    simp [Part.snippets, Expression.atoms]
  | compound c => rw [TemplateNode.run, TemplateNode.atoms]
  | _ => cases joins

theorem sum_addToRuns (done node) :
    TemplateNode.sum (addToRuns done node) = node.atoms + TemplateNode.sum done := by
  obtain same | ⟨last, rest, rfl, isText, joins, same⟩ := addToRuns_cases done node
  · exact same ▸ rfl
  · have joined : (TemplateNode.compound (last.run.join node.run)).atoms =
        node.atoms + last.atoms := by
      rw [TemplateNode.atoms, atoms_join, atoms_run joins, atoms_run (by simp [isText]), add_comm]
    simp [same, joined, add_assoc]

theorem sum_joinRuns (nodes) : TemplateNode.sum (joinRuns nodes) = TemplateNode.sum nodes := by
  have folded (done : List TemplateNode) : TemplateNode.sum (nodes.foldl addToRuns done) =
      TemplateNode.sum nodes + TemplateNode.sum done := by
    induction nodes generalizing done with
    | nil => exact (zero_add _).symm
    | cons node nodes ih =>
      rw [foldl_cons, ih, sum_addToRuns, ← add_assoc, add_comm (TemplateNode.sum nodes)]
      rfl
  exact (((reverse_perm _).map _).sum_eq).trans ((folded []).trans (add_zero _))

theorem siblings_joinRuns (siblings : S.Siblings nodes) : S.Siblings (joinRuns nodes) :=
  forall_mem_joinRuns siblings fun _ _ _ _ _ _ => trivial

theorem lowers_toTextCall (here : S.Sibling node) :
    Lowers S (toTextCall node) S.Sibling node.atoms TemplateNode.atoms := by
  have called (content : Option RenderNode) (level : Constancy) (span : Span) :
      Lowers S (textCall content level span) S.Sibling (sum content.toList)
        TemplateNode.atoms :=
    Lowers.fresh.gain fun id _ => .pure_eq trivial (by simp [TemplateNode.atoms, add_comm])
  cases node with
  | text t =>
    refine (called _ _ _).given (.of_le (le_of_eq ?_))
    rw [TemplateNode.atoms]
    split <;> simp
  | interpolation content span =>
    exact (called _ _ _).given (.of_le (by simp [TemplateNode.atoms]))
  | compound c => exact (called _ _ _).given (.of_le (by simp [TemplateNode.atoms]))
  | _ => exact .pure here (.refl _)

theorem lowers_mergeText (direct) (siblings : S.Siblings nodes) :
    Lowers S (mergeText direct nodes) S.Siblings (TemplateNode.sum nodes) TemplateNode.sum := by
  have called {nodes : List TemplateNode} (siblings : S.Siblings nodes) :
      Lowers S (toTextCalls nodes) S.Siblings (TemplateNode.sum nodes) TemplateNode.sum := by
    induction nodes with
    | nil => exact .pure (by rintro _ ⟨⟩) (.refl _)
    | cons node nodes ih =>
      obtain ⟨here, later⟩ := forall_mem_cons.mp siblings
      refine (lowers_toTextCall here).bind fun first holds => ?_
      rw [add_comm]
      refine (ih later).bind fun rest others => .pure_eq ?_ (add_comm _ _)
      exact forall_mem_cons.mpr ⟨holds, others⟩
  unfold mergeText
  rw [← sum_joinRuns]
  dsimp only
  split
  · exact .pure (siblings_joinRuns siblings) (.refl _)
  · exact called (siblings_joinRuns siblings)

/-! ## Slots -/

variable (sound : S.Sound)
include sound

theorem makes_slotFunction (props children) :
    Makes S (slotFunction props children) (TemplateNode.sum children) atoms := by
  have made (params : List String) : Makes S (do
      let nodes ← codes children
      return .function params (some (.array nodes)) false true)
      (TemplateNode.sum children) atoms :=
    (makes_codes sound children).followed fun nodes _ => .pure_eq trivial (by simp)
  cases props with
  | none => exact made []
  | some e => exact .steady (PlainScripting.steady_processParams e) fun _ _ => made _

theorem turns_dynamicSlot (function : RenderNode) (key) (holds : S.Script name) :
    S.Turns function.atoms (dynamicSlot name function key).atoms := by
  have named (name : String) (value : RenderNode) (free : S.Free value.atoms) :
      S.Free (Property.named name value).atoms :=
    free_property.mpr ⟨sound.scripting.snippet _ _ _, free⟩
  have keys : S.Free ((key.toList.map fun k => Property.named "key"
      (.string (toString k))).map Property.atoms).sum := by
    rw [map_map, free_sum]
    exact fun k _ => named "key" _ (sound.scripting.string (toString k))
  have front := named "name" (.expr name) (by simpa using holds)
  have word : S.Script (Property.named "fn" function).key := sound.scripting.snippet _ _ _
  have made := (Turns.more (a := function.atoms) (free_expression.mpr word)).add_free front
  refine (made.add_free keys).trans (.of_le (le_of_eq ?_))
  cases key with
  | none => simp [dynamicSlot, Property.atoms, Property.named]
  | some k =>
    simp [dynamicSlot, Property.atoms]
    ac_rfl

section

variable {d : Directive} (settled : d.Settled S.Written S.Script hasFor)
include settled

theorem free_slotCondition : S.Free d.slotCondition.atoms := by
  unfold Directive.slotCondition
  split
  next e found => exact sound.scripting.expr (settled.exp e found)
  · exact sound.script _

theorem script_slotName : S.Script d.slotName := by
  unfold Directive.slotName
  cases found : d.arg with
  | none => exact sound.scripting.snippet _ _ _
  | some a => exact settled.arg a found

end

def madeSlots (b : SlotsBuild) : Multiset Atom :=
  (b.properties.map Property.atoms).sum + sum b.dynamic

/-- The atoms of the slots found so far and of the children outside every template. -/
def foundSlots (b : SlotsBuild) : Multiset Atom :=
  madeSlots b + TemplateNode.sum b.implicit

omit sound in
theorem turns_addDynamic {node : RenderNode} (b) (turns : S.Turns before node.atoms) :
    S.Turns (before + foundSlots b) (foundSlots { b with dynamic := b.dynamic ++ [node] }) := by
  refine (turns.add_right _).trans (.of_le (le_of_eq ?_))
  simp [foundSlots, madeSlots]
  ac_rfl

omit sound in
theorem turns_property {p : Property} (key : S.Script p.key) : S.Turns p.value.atoms p.atoms :=
  .more (free_expression.mpr key)

omit sound in
theorem madeSlots_addProperty (b : SlotsBuild) (p) :
    madeSlots (b.addProperty p) = p.atoms + madeSlots b := by
  simp [madeSlots, SlotsBuild.addProperty]
  ac_rfl

omit sound in
theorem foundSlots_extendConditional? {b extended : SlotsBuild}
    (found : b.extendConditional? alternate = some extended) :
    foundSlots extended ≤ alternate.atoms + foundSlots b := by
  unfold SlotsBuild.extendConditional? at found
  split at found
  next test consequent rest newline last =>
    cases found
    have split : b.dynamic = b.dynamic.dropLast ++ [.conditional test consequent rest newline] :=
      (dropLast_append_getLast? _ last).symm
    have attached := atoms_attachAlternate (.conditional test consequent rest newline) alternate
    have sum : sum b.dynamic = sum b.dynamic.dropLast +
        (conditional test consequent rest newline).atoms := by
      conv_lhs => rw [split]
      simp
    simp only [foundSlots, madeSlots, sum]
    simp only [RenderNode.sum, map_append, sum_append, map_cons, map_nil,
      sum_cons, sum_nil, add_zero]
    refine (add_le_add_left (add_le_add_right (add_le_add_right attached _) _) _).trans_eq ?_
    ac_rfl
  · cases found

theorem makes_addElseSlot (b before) {dir : Directive}
    (settled : dir.Settled S.Written S.Script false) (holds : S.Script name) (function) :
    Makes S (addElseSlot b before dir name function) (function.atoms + foundSlots b)
      foundSlots := by
  unfold addElseSlot
  dsimp only
  split
  next extended found =>
    refine .pure trivial ?_
    have slot := turns_dynamicSlot sound function (some b.branches) holds
    split at found
    · refine .trans (.add_right ?_ _) (.of_le (foundSlots_extendConditional? found))
      split
      · have guarded := (slot.add_free (free_slotCondition sound settled)).add_free
          (sound.script "undefined")
        refine guarded.trans (.of_le (le_of_eq ?_))
        rw [atoms_conditional]
        ac_rfl
      · exact slot
    · cases found
  · exact .steady (.error _ _) fun _ _ => .pure trivial (.of_le (Multiset.le_add_left _ _))

omit sound in
theorem makes_addPlainSlot (b t) (holds : S.Script name) (function) :
    Makes S (addPlainSlot b t name function) (function.atoms + foundSlots b) foundSlots := by
  have added : S.Turns (function.atoms + foundSlots b)
      (foundSlots (b.addProperty ⟨name, function⟩)) := by
    rw [foundSlots, foundSlots, madeSlots_addProperty, add_assoc]
    exact .add_right (turns_property (p := ⟨name, function⟩) holds) _
  unfold addPlainSlot
  split
  · split
    · exact .steady (.error _ _) fun _ _ => .pure trivial (.of_le (Multiset.le_add_left _ _))
    · exact .pure trivial added
  · exact .pure trivial added

section

variable (b : SlotsBuild) (before : List TemplateNode)

theorem makes_addSlotTemplate {t : SlotTemplate}
    (settled : ∀ d, .directive d ∈ t.element.props → d.Settled S.Written S.Script false)
    (isSlot : t.element.find? "slot" = some t.directive) :
    Makes S (addSlotTemplate b before t) (TemplateNode.sum t.children + foundSlots b)
      foundSlots := by
  have own {name : String} {d : Directive} (found : t.element.find? name = some d) :=
    settled d (Element.of_find? found).1
  have name := script_slotName sound (own isSlot)
  have slot (function : RenderNode) (key : Option Nat) := turns_dynamicSlot sound function key name
  refine (makes_slotFunction sound _ _).bind fun function _ => ?_
  split
  next d isIf =>
    refine .pure trivial (turns_addDynamic { b with hasTemplates := true } ?_)
    have guarded := ((slot function (some b.branches)).add_free
      (free_slotCondition sound (own isIf))).add_free (sound.script "undefined")
    refine guarded.trans (.of_le (le_of_eq ?_))
    rw [atoms_conditional]
    ac_rfl
  next d _ isElse =>
    have settled : d.Settled S.Written S.Script false := by
      rcases Option.or_eq_some_iff.mp isElse with first | ⟨-, second⟩
      · exact own first
      · exact own second
    exact makes_addElseSlot sound { b with hasTemplates := true } before settled name function
  next d _ _ isFor =>
    split
    next head loop =>
      refine .pure trivial (turns_addDynamic { b with hasTemplates := true } ?_)
      have source := (own isFor).loop head loop
      simpa using (slot function none).add_free (free_expression.mpr source)
    · exact .pure trivial (.of_le (Multiset.le_add_left _ _))
  · exact makes_addPlainSlot { b with hasTemplates := true } t name function

theorem makes_addSlots (siblings : S.Siblings nodes) :
    Makes S (addSlots false b before nodes) (TemplateNode.sum nodes + foundSlots b)
      foundSlots := by
  induction nodes generalizing b before with
  | nil => exact .pure_eq trivial (zero_add _).symm
  | cons node nodes ih =>
    obtain ⟨here, later⟩ := forall_mem_cons.mp siblings
    rw [addSlots, TemplateNode.sum, map_cons, sum_cons, add_assoc, add_left_comm]
    split
    · refine (ih _ _ later).given (.of_le (le_of_eq ?_))
      cases node <;> simp [TemplateNode.isComment, foundSlots] <;> ac_rfl
    next t found =>
      obtain ⟨rfl, isTemplate, isSlot⟩ := slotTemplate_eq found
      have unlowered : (TemplateNode.element t.element t.children).atoms =
          TemplateNode.sum t.children := by
        simp [TemplateNode.atoms, here.2 isTemplate]
      rw [unlowered, add_comm]
      refine (makes_addSlotTemplate sound b before here.1 isSlot).bind fun b' _ => ?_
      rw [add_comm]
      exact ih b' _ later

end

omit sound in
theorem steady_addSlots (b before nodes) :
    Steady S.options (addSlots true b before nodes) fun r => madeSlots r = madeSlots b := by
  induction nodes generalizing b before with
  | nil => exact .pure rfl
  | cons node nodes ih =>
    rw [addSlots]
    split
    · have step := ih (if node.isComment then b else { b with implicit := b.implicit ++ [node] })
        (node :: before)
      cases node <;> exact step
    · exact .bind (.error _ _) fun _ _ => .pure rfl

theorem makes_addDefaultSlot (b : SlotsBuild) (children)
    (all : b.hasTemplates = false → TemplateNode.sum children = TemplateNode.sum b.implicit) :
    Makes S (addDefaultSlot b children) (foundSlots b) madeSlots := by
  have kept : S.Turns (foundSlots b) (madeSlots b) := .of_le (Multiset.le_add_right _ _)
  have content (nodes : List TemplateNode)
      (same : TemplateNode.sum nodes = TemplateNode.sum b.implicit) : Makes S (do
        return b.addProperty (.named "default" (← slotFunction none nodes)))
        (foundSlots b) madeSlots := by
    rw [foundSlots, ← same, add_comm]
    refine (makes_slotFunction sound none nodes).bind fun function _ => .pure trivial ?_
    rw [madeSlots_addProperty]
    exact .add_right (turns_property (p := .named _ function) (sound.scripting.snippet _ _ _)) _
  unfold addDefaultSlot
  split
  next none => exact content children (all (by simpa using none))
  · split
    · exact .pure trivial kept
    · split
      · exact .steady (.error _ _) fun _ _ => .pure trivial kept
      · exact content b.implicit rfl

theorem turns_finish (b) : S.Turns (madeSlots b) b.finish.slots.atoms := by
  have stability (code : String) : S.Free (Property.named "_" (.constant code .hoistable)).atoms :=
    free_property.mpr ⟨sound.scripting.snippet _ _ _, sound.scripting.constant _ _⟩
  refine (Turns.more (stability (if b.isDynamic then SlotStability.dynamic
    else .stable).code)).trans (.of_le (le_of_eq ?_))
  unfold SlotsBuild.finish
  dsimp only
  split
  next none =>
    simp [madeSlots, List.isEmpty_iff.mp none]
    ac_rfl
  · simp [madeSlots]
    ac_rfl

theorem makes_buildSlots {el : Element}
    (settled : ∀ d, .directive d ∈ el.props → d.Settled S.Written S.Script false)
    (siblings : S.Siblings children) :
    Makes S (buildSlots el children) (TemplateNode.sum children) fun r => r.slots.atoms := by
  refine .steady Steady.get fun c _ => ?_
  split
  next d found =>
    refine (makes_slotFunction sound d.exp children).followed fun function _ => ?_
    refine .steady (steady_addSlots _ [] children) fun b same => .pure trivial ?_
    refine .trans ?_ (same ▸ turns_finish sound b)
    have name := script_slotName sound (settled d (Element.of_find? found).1)
    rw [madeSlots_addProperty]
    simpa [madeSlots] using turns_property (p := ⟨d.slotName, function⟩) name
  · have found (isDynamic : Bool) : Lowers S (addSlots false { isDynamic } [] children)
        (fun b => b.hasTemplates = false → TemplateNode.sum children = TemplateNode.sum b.implicit)
        (TemplateNode.sum children) foundSlots := by
      have made := makes_addSlots sound { isDynamic } [] siblings
      rw [show foundSlots { isDynamic } = 0 from rfl, add_zero] at made
      refine fun c => ⟨fun none => ?_, (made c).2⟩
      have same := (gives_addSlots (f := fun node => node.atoms.toList)
        (fun c => by simp [TemplateNode.atoms]) { isDynamic } [] children _ c none).2
      simpa [coe_flatMap] using (congrArg ((↑) : List Atom → Multiset Atom) same).symm
    refine (found _).followed fun b all => ?_
    refine (makes_addDefaultSlot sound b children all).followed fun b' _ => ?_
    exact .pure trivial (turns_finish sound b')

end Lower

end Stencil
