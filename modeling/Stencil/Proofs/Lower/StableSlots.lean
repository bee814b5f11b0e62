import Stencil.Proofs.Lower.Traversal

/-! # Stable slots

The slots of a component are marked as stable if they are the same in every render. Lowering decides
this by the depths of loops and slots at the component. These are zero only where no loop and no slot
is around it, and then no names are in scope.
-/

namespace Stencil

open List RenderNode Option Snippet SlotTemplate

/-! ## Slots that are always there -/

def RenderNode.code? : RenderNode → Option String
  | .expr e => some e.code
  | _ => none

/-- The mark of a slots object, which may be joined by slots that are built at run time. -/
def RenderNode.slotsMark? : RenderNode → Option String
  | .object ps => ps.getLast?.bind (·.value.code?)
  | .call _ (.object ps :: _) => ps.getLast?.bind (·.value.code?)
  | _ => none

def RenderNode.slots? : RenderNode → Option RenderNode
  | .vnode v =>
    match v.children with
    | some (.slots slots) => some slots
    | _ => none
  | _ => none

/-- Whether an element is rendered once, whatever conditions are true. -/
def Element.isAlways (el : Element) : Bool :=
  !el.has "if" && !el.has "else-if" && !el.has "else" && !el.has "for"

/-- A slot of a component that is there in every render, under the same name: the one that the
    component itself names, that of a template that is neither conditional nor looped, or the default
    one. -/
inductive StaticSlot (el : Element) (children : List TemplateNode) : Property → Prop
  | own {d function} : el.find? "slot" = some d →
      d.slotName.isStatic = true → function.isFunction = true →
      StaticSlot el children ⟨d.slotName, function⟩
  | template {node t function} : node ∈ children →
      of? node = some t → t.element.isAlways = true →
      t.directive.slotName.isStatic = true → function.isFunction = true →
      StaticSlot el children ⟨t.directive.slotName, function⟩
  | default {function} : function.isFunction = true →
      StaticSlot el children (.named "default" function)

/-- Slots that do not change after some steps did not before, and the new ones have the property
    `T`. -/
def SlotsBuild.Grows (T : Property → Prop) (b r : SlotsBuild) : Prop :=
  r.isDynamic = false → b.isDynamic = false ∧ (b.dynamic = [] → r.dynamic = []) ∧
    ∀ p ∈ r.properties, p ∈ b.properties ∨ T p

namespace SlotsBuild

variable {b b' r : SlotsBuild}

theorem Grows.refl (b : SlotsBuild) : b.Grows T b :=
  fun steady => ⟨steady, id, fun _ => .inl⟩

theorem Grows.trans (first : b.Grows T b') (second : b'.Grows T r) : b.Grows T r := by
  intro steady
  obtain ⟨steady', dynamic', properties'⟩ := second steady
  obtain ⟨steady'', dynamic, properties⟩ := first steady'
  refine ⟨steady'', dynamic' ∘ dynamic, fun p member => ?_⟩
  exact (properties' p member).elim (properties p) .inr

theorem grows_addProperty (b : SlotsBuild) (holds : T p) : b.Grows T (b.addProperty p) := by
  refine fun steady => ⟨steady, id, fun q member => ?_⟩
  rcases mem_append.mp member with old | new
  · exact .inl old
  · exact .inr (mem_singleton.mp new ▸ holds)

theorem slotsMark?_finish (b : SlotsBuild) : b.finish.slots.slotsMark? =
    some (if b.isDynamic then SlotStability.dynamic else .stable).code := by
  unfold finish
  dsimp only
  split <;> simp [slotsMark?, code?, Property.named, constant,
    Expression.code, code, new, withLevel]

theorem slots_finish (stable : b.finish.slots.slotsMark? = some SlotStability.stable.code)
    {isDynamic} (grows : SlotsBuild.Grows T { isDynamic } b) :
    isDynamic = false ∧ ∃ properties, b.finish.slots = .object
        (properties ++ [.named "_" (.constant SlotStability.stable.code .hoistable)]) ∧
      ∀ p ∈ properties, T p := by
  have steady : b.isDynamic = false := by
    rw [slotsMark?_finish] at stable
    cases changes : b.isDynamic with
    | false => rfl
    | true =>
      rw [changes] at stable
      exact absurd stable (by decide)
  obtain ⟨start, dynamic, properties⟩ := grows steady
  refine ⟨start, b.properties, ?_, fun p member => (properties p member).resolve_left (by simp)⟩
  simp [finish, steady, dynamic rfl]

end SlotsBuild

namespace Lower

variable {children : List TemplateNode}

theorem gives_slotFunction (props children) :
    Gives (slotFunction props children) fun node => node.isFunction = true := by
  cases props <;> exact fun _ _ => rfl

theorem grows_addElseSlot (b before d name function) :
    Gives (addElseSlot b before d name function) (b.Grows T) := by
  unfold addElseSlot
  dsimp only
  split
  next extended found =>
    refine .pure fun steady => ?_
    split at found
    · unfold SlotsBuild.extendConditional? at found
      split at found
      next last =>
        cases found
        exact ⟨steady, fun none => by simp [none] at last, fun _ => .inl⟩
      · cases found
    · cases found
  · exact (Gives.trivial _).bind fun _ _ => .pure (.refl b)

theorem grows_addPlainSlot {T : Property → Prop} (b t) {name : Expression} {function}
    (holds : name.isStatic = true → T ⟨name, function⟩) :
    Gives (addPlainSlot b t name function) (b.Grows T) := by
  unfold addPlainSlot
  split
  next text isText =>
    split
    · exact (Gives.trivial _).bind fun _ _ => .pure (.refl b)
    · have static : name.isStatic = true := by
        unfold Expression.static? at isText
        split at isText
        · exact (ite_none_right_eq_some.mp isText).1
        · cases isText
      exact .pure (SlotsBuild.grows_addProperty b (holds static))
  · exact .pure fun steady => by cases steady

theorem grows_addSlotTemplate (b before) (member : node ∈ children) (found : of? node = some t) :
    Gives (addSlotTemplate b before t) (b.Grows (StaticSlot el children)) := by
  refine (gives_slotFunction _ _).bind fun function isFunction => ?_
  split
  · exact .pure fun steady => by cases steady
  · exact grows_addElseSlot { b with hasTemplates := true } before _ _ function
  · split <;> exact .pure fun steady => by cases steady
  next noIf noElse noFor =>
    refine grows_addPlainSlot { b with hasTemplates := true } t fun isStatic => ?_
    obtain ⟨noElseIf, noElse⟩ := or_eq_none_iff.mp noElse
    have always : t.element.isAlways = true := by
      simp [Element.isAlways, Element.has, noIf, noElseIf, noElse, noFor]
    exact .template member found always isStatic isFunction

/-- The induction is on the children that are left. -/
theorem grows_addSlots (onComponent b before) (among : ∀ node ∈ nodes, node ∈ children) :
    Gives (addSlots onComponent b before nodes) (b.Grows (StaticSlot el children)) := by
  induction nodes generalizing b before with
  | nil => exact .pure (.refl b)
  | cons node nodes ih =>
    obtain ⟨here, later⟩ := forall_mem_cons.mp among
    rw [addSlots]
    split
    · refine (ih _ (node :: before) later).mono fun r rest => ?_
      split at rest <;> exact rest
    next t found =>
      split
      · exact (Gives.trivial _).bind fun _ _ => .pure (.refl b)
      · exact (grows_addSlotTemplate b before here found).bind fun b' first =>
          (ih b' (node :: before) later).mono fun r rest => first.trans rest

theorem grows_addDefaultSlot (b nodes) :
    Gives (addDefaultSlot b nodes) (b.Grows (StaticSlot el children)) := by
  have added : ∀ nodes, Gives (slotFunction none nodes >>= fun function =>
      pure (b.addProperty (.named "default" function))) (b.Grows (StaticSlot el children)) :=
    fun nodes => (gives_slotFunction none nodes).bind fun function isFunction =>
      .pure (b.grows_addProperty (.default isFunction))
  unfold addDefaultSlot
  split
  · exact added nodes
  · split
    · exact .pure (.refl b)
    · split
      · exact (Gives.trivial _).bind fun _ _ => .pure (.refl b)
      · exact added b.implicit

/-- Slots that are marked as stable are built outside all loops and slots, and each of them is there
    in every render. -/
theorem buildSlots_stable (stable : (exec (buildSlots el children) o c).1.slots.slotsMark? =
      some SlotStability.stable.code) : c.loopDepth = 0 ∧ c.slotDepth = 0 ∧
      ∃ properties, (exec (buildSlots el children) o c).1.slots = .object
          (properties ++ [.named "_" (.constant SlotStability.stable.code .hoistable)]) ∧
        ∀ p ∈ properties, StaticSlot el children p := by
  obtain ⟨b, same, grows⟩ : ∃ b, (exec (buildSlots el children) o c).1 = b.finish ∧
      SlotsBuild.Grows (StaticSlot el children)
        { isDynamic := 0 < c.loopDepth || 0 < c.slotDepth } b := by
    simp only [buildSlots]
    split
    next d found =>
      refine ⟨_, rfl, .trans ?_ (grows_addSlots true _ [] (fun _ => id) o _)⟩
      intro steady
      obtain ⟨start, isStatic⟩ := Bool.or_eq_false_iff.mp steady
      refine ⟨start, id, fun p member => .inr ?_⟩
      rw [mem_singleton.mp member]
      exact .own found (by simpa using isStatic) (gives_slotFunction _ _ o c)
    · exact ⟨_, rfl, (grows_addSlots false _ [] (fun _ => id) o c).trans
        (grows_addDefaultSlot _ children o _)⟩
  rw [same] at stable ⊢
  obtain ⟨outside, properties⟩ := SlotsBuild.slots_finish stable grows
  simp only [Bool.or_eq_false_iff, decide_eq_false_iff_not, Nat.not_lt, Nat.le_zero] at outside
  exact ⟨outside.1, outside.2, properties⟩

/-! ## Components -/

theorem within_lowerElement {fits : List ScopeVar → Nat → Nat → Prop} (el children) :
    Within o fits (lowerElement el children) fun node => ∀ slots ∈ node.slots?,
      ∃ c : Context, fits c.scope c.loopDepth c.slotDepth ∧
        slots = (exec (buildSlots el children) o c).1.slots := by
  refine .bind (.skip fun S scope => yields_resolveTag el (.ofScope S scope)) fun tag _ => ?_
  refine .bind (.skip fun _ _ => Binds.fresh) fun id _ => ?_
  refine .bind (.skip fun S scope => (scripting_emitted (.ofScope S scope)).lowerProps el)
    fun props _ => ?_
  refine .bind (.skip fun S scope => yields_runtimeArgumentList props.directives (.ofScope S scope))
    fun directives _ => ?_
  have content : Within o fits (lowerChildren el children) fun r => ∀ slots,
      r.1 = some (.slots slots) → ∃ c : Context, fits c.scope c.loopDepth c.slotDepth ∧
        slots = (exec (buildSlots el children) o c).1.slots := by
    intro c here
    refine ⟨(Within.skip (fun S scope =>
      yields_lowerChildren el children (.ofScope S scope)) c here).1, fun slots isSlots => ?_⟩
    unfold lowerChildren at isSlots
    split at isSlots
    · cases isSlots
    · split at isSlots
      · cases isSlots
        exact ⟨c, here, rfl⟩
      · split at isSlots
        · rw [exec_bind, exec_pure] at isSlots
          split at isSlots <;> cases isSlots
        · cases isSlots
  refine content.bind fun r built => .pure fun slots found => built slots ?_
  simp only [slots?] at found
  split at found
  next same => rwa [mem_some.mp found] at same
  · cases found

theorem exists_buildSlots {c : Context} (unlowered : el.lowered = none)
    (fits : Fits k c.scope c.loopDepth c.slotDepth)
    (built : (exec (lowerKind el children) o c).1.lowered.bind slots? = some slots) :
    ∃ c' : Context, Fits k c'.scope c'.loopDepth c'.slotDepth ∧
      slots = (exec (buildSlots (exec (lowerKind el children) o c).1 children) o c').1.slots := by
  have same : buildSlots (exec (lowerKind el children) o c).1 children = buildSlots el children := by
    unfold lowerKind
    split <;> rfl
  have inside := (within_lowerElement (o := o) el children c fits).2 slots
  rw [same]
  unfold lowerKind at built
  split at built
  · exact inside built
  · exact inside built
  · cases built
  · rw [exec_pure, unlowered] at built
    cases built

end Lower

/-- The mark of stable slots is sound. A component in a lowered template whose slots are marked as
    stable stands in no loop and in no slot, and no names are in scope where its slots are built. All
    of them have static names, and are neither conditional nor looped. -/
theorem Root.lower_stableSlots (o : Options) (source : String) {around : List Construct}
    {el : Element} {children : List TemplateNode} {slots : RenderNode}
    (inside : (TemplateNode.element el children).Inside around
      ((readTemplate o source).1.lower o).1.children)
    (built : el.lowered.bind RenderNode.slots? = some slots)
    (stable : slots.slotsMark? = some SlotStability.stable.code) : around = [] ∧
      (∃ c : Context, c.scope = [] ∧ c.loopDepth = 0 ∧ c.slotDepth = 0 ∧
        slots = (Lower.exec (Lower.buildSlots el children) o c).1.slots) ∧
      ∃ properties, slots = .object
          (properties ++ [.named "_" (.constant SlotStability.stable.code .hoistable)]) ∧
        ∀ p ∈ properties, StaticSlot el children p := by
  have lowered := inside.lowered (lowered_readTemplate o source)
  rw [append_nil] at lowered
  cases lowered with
  | element unlowered fits _ =>
    obtain ⟨c, fits, rfl⟩ := Lower.exists_buildSlots unlowered fits built
    obtain ⟨noLoop, noSlot, properties⟩ := Lower.buildSlots_stable stable
    obtain ⟨outside, empty⟩ := fits noLoop noSlot
    exact ⟨outside, ⟨c, empty, noLoop, noSlot, rfl⟩, properties⟩
  | leaf isLeaf => cases isLeaf

def stableCard : String :=
  "<Card><template #head=\"h\">\x7b\x7b h \x7d\x7d</template>x</Card>"

theorem stableCard_lower_stableSlots :
    ∃ el children slots, (TemplateNode.element el children).Inside []
        ((readTemplate {} stableCard).1.lower {}).1.children ∧
      el.lowered.bind RenderNode.slots? = some slots ∧
      slots.slotsMark? = some SlotStability.stable.code ∧
      ∃ properties, slots = .object
          (properties ++ [.named "_" (.constant SlotStability.stable.code .hoistable)]) ∧
        ∀ p ∈ properties, StaticSlot el children p := by
  have marks : ((readTemplate {} stableCard).1.lower {}).1.children.map (fun node =>
      (node.element?.bind fun el => el.lowered.bind RenderNode.slots?).bind (·.slotsMark?)) =
      [some SlotStability.stable.code] := by
    decide +kernel
  obtain ⟨node, alone, isStable⟩ := map_eq_singleton_iff.mp marks
  obtain ⟨slots, found, stable⟩ := Option.bind_eq_some_iff.mp isStable
  cases node with
  | element el children =>
    have inside : (TemplateNode.element el children).Inside []
        ((readTemplate {} stableCard).1.lower {}).1.children := .here (alone ▸ mem_cons_self)
    exact ⟨el, children, slots, inside, found, stable,
      (Root.lower_stableSlots {} stableCard inside found stable).2.2⟩
  | text | interpolation | comment | conditional | loop | textCall | compound => cases found

end Stencil
