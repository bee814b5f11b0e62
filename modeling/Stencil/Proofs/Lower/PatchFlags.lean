import Stencil.Proofs.Lower.Scripting

/-! # Flags for what may change

The flag of an element is computed from the properties as its directives give them, before they are
merged and normalised. It still tells of every property whose value may change.
-/

namespace Stencil

open List RenderNode Expression Dom

/-! ## Values -/

/-- Whether a value is a script that never changes. -/
def RenderNode.isConstant : RenderNode → Bool
  | .expr e => e.level.isConstant
  | _ => false

/-- The values that were merged into one. -/
def RenderNode.merged : RenderNode → List RenderNode
  | .array values => values
  | value => [value]

def RenderNode.given : RenderNode → List RenderNode
  | .call h [value] =>
    if h = .normalizeClass ∨ h = .normalizeStyle then value.merged else [.call h [value]]
  | value => value.merged

/-- The property has a static name, which `Q` holds for if one of the values changes. -/
def Property.Tracked (Q : String → Prop) (values : List RenderNode) (p : Property) : Prop :=
  ∃ name, p.name? = some name ∧ ((∃ v ∈ values, v.isConstant = false) → Q name)

namespace Property.Tracked

variable {p : Property}

theorem mono {Q' : String → Prop} (tracked : p.Tracked Q values)
    (weaker : ∀ name, Q name → Q' name) : p.Tracked Q' values :=
  tracked.imp fun name => And.imp_right fun changes dynamic => weaker name (changes dynamic)

theorem merged (tracked : p.Tracked Q [p.value]) : p.Tracked Q p.value.merged := by
  obtain ⟨name, named, changes⟩ := tracked
  refine ⟨name, named, ?_⟩
  rintro ⟨v, member, dynamic⟩
  apply changes
  unfold RenderNode.merged at member
  split at member
  next values isArray => exact ⟨_, mem_singleton_self _, by rw [isArray]; rfl⟩
  next => exact ⟨v, member, dynamic⟩

theorem given (tracked : p.Tracked Q p.value.merged) : p.Tracked Q p.value.given := by
  obtain ⟨name, named, changes⟩ := tracked
  refine ⟨name, named, ?_⟩
  rintro ⟨v, member, dynamic⟩
  apply changes
  unfold RenderNode.given at member
  split at member
  next h value isCall => exact ⟨_, by rw [isCall]; exact mem_singleton_self _, rfl⟩
  next => exact ⟨v, member, dynamic⟩

theorem addValue {q : Property} (tracked : p.Tracked Q p.value.merged)
    (new : q.Tracked Q [q.value]) (same : p.name? = q.name?) :
    (p.addValue q.value).Tracked Q (p.addValue q.value).value.merged := by
  obtain ⟨name, named, before⟩ := tracked
  obtain ⟨name', named', changes⟩ := new
  obtain rfl : name' = name := by simpa [same, named'] using named
  unfold Property.addValue
  split
  next values isArray =>
    rw [isArray] at before
    refine ⟨name', named, ?_⟩
    rintro ⟨v, member, dynamic⟩
    rcases mem_append.mp member with old | new
    · exact before ⟨v, old, dynamic⟩
    · exact changes ⟨v, new, dynamic⟩
  next notArray =>
    refine ⟨name', named, ?_⟩
    rintro ⟨v, member, dynamic⟩
    rcases mem_cons.mp member with rfl | new
    · refine before ⟨p.value, ?_, dynamic⟩
      unfold RenderNode.merged
      split <;> simp_all
    · exact changes ⟨v, new, dynamic⟩

theorem mergeProperties (all : ∀ q ∈ ps, q.Tracked Q [q.value]) :
    ∀ q ∈ mergeProperties ps, q.Tracked Q q.value.merged :=
  forall_mem_mergeProperties (fun _ => merged) (fun _ _ => addValue) all

theorem normalizeProperty (bindsStyle) (tracked : p.Tracked Q p.value.merged) :
    (normalizeProperty bindsStyle p).Tracked Q (normalizeProperty bindsStyle p).value.given := by
  unfold Stencil.normalizeProperty
  split
  · split
    · exact tracked.given
    · exact tracked
  · split
    · exact tracked
    · exact tracked.given
  · exact tracked.given

end Property.Tracked

/-! ## Surveys -/

namespace PropsSurvey

variable (isComponent : Bool)

/-- Whether a survey tells of changes to the property of a name, or need not. -/
def Tells (s : PropsSurvey) (name : String) : Prop :=
  (name = "ref" → s.hasRef = true) ∧ (name ∈ ["key", "ref", "ref_for"] ∨ name ∈ s.names ∨
    isComponent = false ∧
      (name = "class" ∧ s.bindsClass = true ∨ name = "style" ∧ s.bindsStyle = true))

/-- A later survey tells all that an earlier one does. -/
structure Le (s s' : PropsSurvey) : Prop where
  hasRef : s.hasRef = true → s'.hasRef = true
  hasDynamicKeys : s'.hasDynamicKeys = false → s.hasDynamicKeys = false
  tells : ∀ name, s.Tells isComponent name → s'.Tells isComponent name

variable {isComponent} in
theorem Le.rfl {s : PropsSurvey} : s.Le isComponent s :=
  ⟨id, id, fun _ => id⟩

variable {isComponent} in
theorem Le.trans {s s' s'' : PropsSurvey} (first : s.Le isComponent s')
    (second : s'.Le isComponent s'') : s.Le isComponent s'' :=
  ⟨second.hasRef ∘ first.hasRef, first.hasDynamicKeys ∘ second.hasDynamicKeys,
    fun name => second.tells name ∘ first.tells name⟩

theorem le_addName (other : name ≠ "ref") (s : PropsSurvey) :
    s.Le isComponent (s.addName name) ∧ (s.addName name).Tells isComponent name := by
  unfold addName
  split
  next present => exact ⟨.rfl, fun isRef => absurd isRef other, .inr (.inl (by simpa using present))⟩
  · exact ⟨⟨id, id, by grind [Tells]⟩, fun isRef => absurd isRef other, .inr (.inl (by simp))⟩

theorem le_addDynamic (name) (s : PropsSurvey) :
    s.Le isComponent (s.addDynamic isComponent name) ∧
      (s.addDynamic isComponent name).Tells isComponent name := by
  unfold addDynamic
  split
  · exact ⟨⟨fun _ => rfl, id, by grind [Tells]⟩, by simp [Tells]⟩
  · have le : s.Le isComponent { s with bindsClass := true } := ⟨id, id, by grind [Tells]⟩
    have named := le_addName isComponent (show "class" ≠ "ref" by simp) { s with bindsClass := true }
    cases isComponent with
    | true => exact ⟨le.trans named.1, named.2⟩
    | false => exact ⟨le, by simp [Tells]⟩
  · have le : s.Le isComponent { s with bindsStyle := true } := ⟨id, id, by grind [Tells]⟩
    have named := le_addName isComponent (show "style" ≠ "ref" by simp) { s with bindsStyle := true }
    cases isComponent with
    | true => exact ⟨le.trans named.1, named.2⟩
    | false => exact ⟨le, by simp [Tells]⟩
  · exact ⟨.rfl, by simp [Tells]⟩
  next other _ _ _ => exact le_addName isComponent other s

theorem le_add (p) (s : PropsSurvey) :
    s.Le isComponent (s.add isComponent p) ∧ ((s.add isComponent p).hasDynamicKeys = false →
      p.Tracked ((s.add isComponent p).Tells isComponent) [p.value]) := by
  unfold add
  split
  · exact ⟨⟨id, by simp, fun _ => id⟩, by simp⟩
  next name named =>
    obtain ⟨le, tells⟩ := le_addDynamic isComponent name s
    split
    next e isExpr =>
      split
      next constant =>
        exact ⟨.rfl, fun _ => ⟨name, named, by simp [isExpr, isConstant, constant]⟩⟩
      · exact ⟨le, fun _ => ⟨name, named, fun _ => tells⟩⟩
    · exact ⟨le, fun _ => ⟨name, named, fun _ => tells⟩⟩

theorem le_foldl_add (ps : List Property) (s : PropsSurvey) :
    s.Le isComponent (ps.foldl (add isComponent) s) ∧
      ((ps.foldl (add isComponent) s).hasDynamicKeys = false →
        ∀ p ∈ ps, p.Tracked ((ps.foldl (add isComponent) s).Tells isComponent) [p.value]) := by
  induction ps generalizing s with
  | nil => exact ⟨.rfl, by simp⟩
  | cons p ps ih =>
    obtain ⟨le, tracked⟩ := le_add isComponent p s
    obtain ⟨rest, all⟩ := ih (s.add isComponent p)
    refine ⟨le.trans rest, fun static => forall_mem_cons.mpr ⟨?_, all static⟩⟩
    exact (tracked (rest.hasDynamicKeys static)).mono rest.tells

end PropsSurvey

/-! ## Reading properties -/

/-- No part is merged at run time, and the survey tells of every property. -/
structure PropsBuild.Surveyed (isComponent : Bool) (b : PropsBuild) : Prop where
  merged : b.merged = []
  pending : ∀ p ∈ b.pending, p.Tracked (b.survey.Tells isComponent) [p.value]

structure PropsBuild.Extends (isComponent : Bool) (b b' : PropsBuild) : Prop where
  survey : b.survey.Le isComponent b'.survey
  surveyed : b'.survey.hasDynamicKeys = false → b.Surveyed isComponent → b'.Surveyed isComponent

namespace PropsBuild.Extends

variable {b b' b'' : PropsBuild}

theorem rfl : b.Extends isComponent b :=
  ⟨.rfl, fun _ => id⟩

theorem trans (first : b.Extends isComponent b') (second : b'.Extends isComponent b'') :
    b.Extends isComponent b'' :=
  ⟨first.survey.trans second.survey, fun static before =>
    second.surveyed static (first.surveyed (second.survey.hasDynamicKeys static) before)⟩

/-- Once a key is known only at run time, nothing else is asked. -/
theorem dynamic (survey : b.survey.Le isComponent b'.survey)
    (keys : b'.survey.hasDynamicKeys = true) : b.Extends isComponent b' :=
  ⟨survey, by simp [keys]⟩

theorem pending (survey : b.survey.Le isComponent b'.survey) (merged : b'.merged = b.merged)
    (pending : b'.pending = b.pending ++ ps) (new : b'.survey.hasDynamicKeys = false →
      ∀ p ∈ ps, p.Tracked (b'.survey.Tells isComponent) [p.value]) : b.Extends isComponent b' where
  survey
  surveyed static before := by
    refine ⟨merged.trans before.merged, ?_⟩
    rw [pending]
    exact forall_mem_append.mpr
      ⟨fun p member => (before.pending p member).mono survey.tells, new static⟩

theorem addPending {p : Property} (tracked : p.Tracked (b.survey.Tells isComponent) [p.value]) :
    b.Extends isComponent (b.addPending p) :=
  .pending .rfl (Eq.refl _) (Eq.refl _) fun _ => forall_mem_singleton.mpr tracked

end PropsBuild.Extends

@[simp] theorem PropsBuild.survey_addPart (node) (b : PropsBuild) :
    (b.addPart node).survey = b.survey := by
  unfold addPart flush
  split <;> rfl

theorem PropsBuild.object_of_merged {Q : String → Prop} (b : PropsBuild) (merged : b.merged = [])
    (pending : ∀ p ∈ b.pending, p.Tracked Q [p.value]) (built : b.expression? = some node) :
    ∃ ps, normalizeProps b.survey.bindsStyle node = .object ps ∧
      ∀ p ∈ ps, p.Tracked Q p.value.given := by
  obtain rfl : node = .object (mergeProperties b.pending) := by
    simp only [expression?, merged, isEmpty_nil, if_true] at built
    split at built
    · cases built
    · exact (Option.some.inj built).symm
  have all := Property.Tracked.mergeProperties pending
  have named : (mergeProperties b.pending).any (·.name?.isNone) = false := by
    rw [any_eq_false]
    intro p member
    obtain ⟨name, named, -⟩ := all p member
    simp [named]
  refine ⟨_, by rw [normalizeProps, named]; rfl, ?_⟩
  rw [forall_mem_map]
  exact fun p member => (all p member).normalizeProperty _

namespace Lower

variable {b : PropsBuild} {d : Directive} {o : Options}

theorem extends_addAttribute (el) (b : PropsBuild) (a) :
    b.Extends isComponent (exec (addAttribute el b a) o c).1 ∧
      (a.name = "ref" → (exec (addAttribute el b a) o c).1.survey.hasRef = true) := by
  have ref : b.Extends isComponent { b with survey := { b.survey with hasRef := true } } :=
    .pending ⟨fun _ => rfl, id, by grind [PropsSurvey.Tells]⟩ rfl (append_nil _).symm (by simp)
  have inLoop (b' : PropsBuild) :
      b'.Extends isComponent (b'.addPending (.named "ref_for" (.script "true"))) :=
    .addPending ⟨"ref_for", rfl, fun _ => by simp [PropsSurvey.Tells]⟩
  have text (b' : PropsBuild) :
      b'.Extends isComponent (b'.addPending (.named a.name (.string a.text))) :=
    .addPending ⟨a.name, rfl, by simp [isConstant, Property.named, string,
      Expression.snippet, Snippet.new, Expression.level, Constancy.isConstant]⟩
  by_cases isRef : a.name = "ref"
  · refine ⟨?_, fun _ => ?_⟩
    all_goals
      simp only [addAttribute, isRef]
      by_cases deep : 0 < c.loopDepth
    · simpa [deep, isRef] using (ref.trans (inLoop _)).trans (text _)
    · simpa [deep, isRef] using ref.trans (text _)
    · simp [deep, PropsBuild.addPending]
    · simp [deep, PropsBuild.addPending]
  · simp only [addAttribute]
    by_cases isTag : (a.name == "is" && el.tag == "component") = true
    · simpa [isRef, isTag] using .rfl
    · simpa [isRef, isTag] using text b

theorem extends_addSpread (b : PropsBuild) (d) :
    b.Extends isComponent (exec (addSpread isComponent b d) o c).1 := by
  have le : b.survey.Le isComponent { b.survey with hasDynamicKeys := true } :=
    ⟨id, by simp, fun _ => id⟩
  unfold addSpread
  split
  · split
    · exact .dynamic (by simpa using le) (by simp)
    · exact .dynamic (by simpa using le) (by simp)
  · exact .dynamic le rfl

theorem extends_addResult {result : DirectiveResult}
    (keys : d.name = "on" → d.arg.any (!·.isStatic) = true →
      ∃ p, result.props = [p] ∧ p.name? = none) :
    b.Extends isComponent (addResult isComponent b d result) := by
  obtain ⟨le, tracked⟩ := PropsSurvey.le_foldl_add isComponent result.props b.survey
  unfold addResult
  dsimp only
  by_cases event : (d.name == "on" && d.arg.any (!·.isStatic)) = true
  · obtain ⟨p, single, unnamed⟩ := by
      rw [Bool.and_eq_true, beq_iff_eq] at event
      exact keys event.1 event.2
    have dynamic : (result.props.foldl (PropsSurvey.add isComponent) b.survey).hasDynamicKeys := by
      by_contra static
      obtain ⟨name, named, -⟩ := tracked (by simpa using static) p (by simp [single])
      simp [unnamed] at named
    rw [if_pos event]
    split <;> exact .dynamic (by simpa using le) (by simpa using dynamic)
  · rw [if_neg event]
    split <;> exact .pending le rfl rfl tracked

/-! ## Rules -/

theorem unnamed_onKey {arg : Expression} (dynamic : arg.isStatic = false) (kind) :
    (onKey kind arg).static? = none := by
  cases arg <;> simp_all [onKey, isStatic, around, static?]

theorem unnamed_modifyHandler {p : Property} (unnamed : p.name? = none) (modifiers) :
    (modifyHandler modifiers p).name? = none := by
  have rename : ∀ (key : Expression) (event : String), key.static? = none →
      (renameClick key event).static? = none := by
    intro key event dynamic
    rw [renameClick, dynamic]
    rfl
  have options : ∀ (key : Expression) (options : List String), key.static? = none →
      (addOptions key options).static? = none := by
    intro key options dynamic
    unfold addOptions
    split
    · exact dynamic
    · rw [dynamic]
      rfl
  apply options
  unfold modifiedKey
  grind [Property.name?]

/-- The one property that a handler becomes, with its modifiers or without them. -/
theorem props_of_handles (handles : rule.handles) (el) (found : d.arg = some arg) :
    ∃ p value, (exec (applyRule rule d el) o c).1.props = [p] ∧ (p = ⟨onKey el.kind arg, value⟩ ∨
        p = modifyHandler d.modifiers ⟨onKey el.kind arg, value⟩) := by
  obtain ⟨value, plain⟩ :
      ∃ value, (exec (onDirective d el) o c).1.props = [⟨onKey el.kind arg, value⟩] := by
    simp only [onDirective, found]
    split <;> exact ⟨_, rfl⟩
  rcases handles with rfl | rfl
  · exact ⟨_, value, plain, .inl rfl⟩
  · change ∃ p value, (exec (Dom.handler d el) o c).1.props = [p] ∧ _
    simp only [Dom.handler, exec_bind, plain]
    split
    · exact ⟨_, value, plain, .inl rfl⟩
    · exact ⟨_, value, rfl, .inr rfl⟩

theorem unnamed_applyRule (handles : rule.handles) (el) (dynamic : d.arg.any (!·.isStatic) = true) :
    ∃ p, (exec (applyRule rule d el) o c).1.props = [p] ∧ p.name? = none := by
  obtain ⟨arg, found, dynamic⟩ : ∃ arg, d.arg = some arg ∧ arg.isStatic = false := by
    cases isArg : d.arg <;> simp_all
  obtain ⟨p, value, single, rfl | rfl⟩ := props_of_handles (o := o) (c := c) handles el found
  · exact ⟨_, single, unnamed_onKey dynamic el.kind⟩
  · exact ⟨_, single, unnamed_modifyHandler (p := ⟨_, value⟩) (unnamed_onKey dynamic el.kind) _⟩

variable (handlers : ∀ rule, o.rule? "on" = some rule → rule.handles)
include handlers

theorem handles_of_rule? (found : (exec (rule? d.name) o c).1 = some rule) (isOn : d.name = "on") :
    rule.handles := by
  rw [isOn] at found
  simp only [rule?, exec_bind] at found
  split at found
  next isRule => exact handlers rule (isRule.trans found)
  · exact .inl (Option.some.inj found).symm

theorem extends_addDirective (el : Element) (b : PropsBuild) (d) :
    b.Extends (el.kind == .component) (exec (addDirective el b d) o c).1 := by
  unfold addDirective
  dsimp only
  split
  · split <;> exact .rfl
  · split
    · exact .rfl
    · split
      · exact .rfl
      · split
        · exact extends_addSpread b d
        · simp only [exec_bind]
          split
          next rule found =>
            exact extends_addResult fun isOn =>
              unnamed_applyRule (handles_of_rule? handlers found isOn) el
          · split
            · exact .rfl
            · exact .pending .rfl rfl (append_nil _).symm (by simp)

theorem extends_addProps (el : Element) (props) (b : PropsBuild) (c) :
    b.Extends (el.kind == .component) (exec (addProps el b props) o c).1 ∧
      (∀ a, .attribute a ∈ props → a.name = "ref" →
        (exec (addProps el b props) o c).1.survey.hasRef = true) := by
  induction props generalizing b c with
  | nil => exact ⟨.rfl, by simp⟩
  | cons p props ih =>
    obtain ⟨rest, refs⟩ := ih (exec (addProp el b p) o c).1 (exec (addProp el b p) o c).2
    rcases p with a | d
    · obtain ⟨first, ref⟩ := extends_addAttribute (o := o) (c := c) el b a
      refine ⟨first.trans rest, fun a' member isRef => ?_⟩
      rcases mem_cons.mp member with same | later
      · cases same
        exact rest.survey.hasRef (ref isRef)
      · exact refs a' later isRef
    · refine ⟨(extends_addDirective handlers el b d).trans rest, fun a' member => refs a' ?_⟩
      simpa using member

end Lower

/-! ## Flags -/

/-- The flag or the names tell of changes to the property of a name. -/
def PropsResult.Covers (r : PropsResult) (name : String) : Prop :=
  r.flag.contains .props = true ∧ name ∈ r.dynamicProps ∨
    name = "class" ∧ r.flag.contains .classes = true ∨
    name = "style" ∧ r.flag.contains .style = true

namespace PropsSurvey

variable (s : PropsSurvey) (isComponent runs : Bool)

theorem contains_flag :
    (s.flag isComponent runs).contains .fullProps = s.hasDynamicKeys ∧ (s.hasDynamicKeys = false →
      (s.flag isComponent runs).contains .props = !s.names.isEmpty ∧
      (s.flag isComponent runs).contains .classes = (s.bindsClass && !isComponent) ∧
      (s.flag isComponent runs).contains .style = (s.bindsStyle && !isComponent)) ∧
    ((s.hasRef || runs) = true → (s.flag isComponent runs).isEmpty = false) ∧
    ∀ shows : Bool, ((s.flag isComponent runs).insert (if shows then .text else .empty)).contains
      .text = shows := by
  unfold flag
  generalize s.hasDynamicKeys = keys, s.names.isEmpty = names, s.bindsClass = binds,
    s.bindsStyle = styles, s.hasRef = ref
  revert keys names binds styles ref isComponent runs
  decide +kernel

end PropsSurvey

/-! ## Texts -/

def Part.interpolates : Part → Bool
  | .interpolation _ _ => true
  | _ => false

def TemplateNode.interpolates (node : TemplateNode) : Bool :=
  node.run.parts.any Part.interpolates

namespace Lower

theorem isDynamicText_joinRuns (single : ∀ node ∈ nodes, node.isCompound = false) :
    ∀ node ∈ joinRuns nodes, node.isDynamicText = node.interpolates := by
  have level : ∀ node : TemplateNode, node.isDynamicText = (node.run.level == .dynamic) :=
    fun node => by cases node <;> rfl
  simp only [level]
  refine forall_mem_joinRuns (fun node member => ?_) fun last node before here _ _ => ?_
  · have alone := single node member
    cases node <;> first | rfl | cases alone
  · have least (a b : Constancy) : (a.min b == .dynamic) = (a == .dynamic || b == .dynamic) := by
      cases a <;> cases b <;> rfl
    change (last.run.level.min node.run.level == .dynamic) =
      (last.run.parts ++ .raw " + " :: node.run.parts).any Part.interpolates
    rw [least, before, here, any_append]
    rfl

theorem isDynamicText_toTextCalls (nodes) :
    Gives (toTextCalls nodes) fun calls => ∀ node ∈ calls, node.isDynamicText = node.interpolates := by
  induction nodes with
  | nil => exact .pure (by simp)
  | cons node nodes ih =>
    have first : Gives (toTextCall node) fun call => call.isDynamicText = call.interpolates := by
      cases node <;> first | exact (Gives.trivial _).bind fun _ _ => .pure rfl | exact .pure rfl
    exact first.bind fun _ here => ih.bind fun _ later =>
      .pure (forall_mem_cons.mpr ⟨here, later⟩)

theorem isDynamicText_mergeText (direct) (single : ∀ node ∈ nodes, node.isCompound = false) :
    Gives (mergeText direct nodes) fun merged =>
      ∀ node ∈ merged, node.isDynamicText = node.interpolates := by
  unfold mergeText
  dsimp only
  split
  · exact .pure (isDynamicText_joinRuns single)
  · exact isDynamicText_toTextCalls _

theorem contains_text_lowerProps (el shows o c) :
    ((exec (lowerProps el) o c).1.flag.insert (if shows then .text else .empty)).contains .text =
      shows := by
  unfold lowerProps
  split
  · change (PatchFlag.empty.insert (if shows then .text else .empty)).contains .text = shows
    revert shows
    decide
  · exact (PropsSurvey.contains_flag _ _ _).2.2.2 shows

theorem tracked_buildProps (handlers : ∀ rule, o.rule? "on" = some rule → rule.handles)
    (el : Element) (props : List ElementProp) (c : Context) :
    let survey := (exec (addProps el {} props) o c).1.survey
    survey.hasDynamicKeys = false → ∀ node ∈ (exec (buildProps el props) o c).1.props,
      ∃ ps, node = .object ps ∧
        ∀ p ∈ ps, p.Tracked (survey.Tells (el.kind == .component)) p.value.given := by
  intro survey static node isProps
  obtain ⟨merged, pending⟩ :=
    (extends_addProps handlers el props {} c).1.surveyed static ⟨rfl, by simp⟩
  obtain ⟨built, isBuilt, rfl⟩ := Option.map_eq_some_iff.mp isProps
  exact PropsBuild.object_of_merged _ merged pending isBuilt

/-- Properties without a flag have no reference but constant ones. -/
theorem constant_refs (handlers : ∀ rule, o.rule? "on" = some rule → rule.handles)
    (flag : (exec (lowerProps el) o c).1.flag = .empty) :
    (∀ a, .attribute a ∈ el.props → a.name ≠ "ref") ∧
      ∀ node ∈ (exec (lowerProps el) o c).1.props, ∃ ps, node = .object ps ∧ ∀ p ∈ ps,
        p.name? = some "ref" → ∀ v ∈ p.value.given, v.isConstant = true := by
  unfold lowerProps at flag ⊢
  split at flag
  next none => simp_all
  next some =>
    rw [if_neg some]
    obtain ⟨-, refs⟩ := extends_addProps handlers el el.props {} c
    have tracked := tracked_buildProps handlers el el.props c
    simp only [buildProps, exec_bind, exec_pure] at flag tracked ⊢
    generalize (exec (addProps el {} el.props) o c).1 = b at flag tracked refs
    obtain ⟨full, -, isEmpty, -⟩ :=
      b.survey.contains_flag (el.kind == .component) (!b.directives.isEmpty)
    rw [flag] at full isEmpty
    have noRef : b.survey.hasRef = false := by
      by_contra isRef
      cases isEmpty (by simp [isRef])
    refine ⟨fun a member isRef => by simp [refs a member isRef] at noRef, fun node isProps => ?_⟩
    obtain ⟨ps, same, all⟩ := tracked full.symm node isProps
    refine ⟨ps, same, fun p member isRef v given => ?_⟩
    obtain ⟨name, named, tells⟩ := all p member
    obtain rfl : "ref" = name := by simpa [isRef] using named
    by_contra dynamic
    simp [(tells ⟨v, given, by simpa using dynamic⟩).1 rfl] at noRef

/-- The flag covers all that may change. Without the flag for all properties, there are none or
    they are one object with static keys, and the flag tells of every value that is not constant;
    an element with a reference or with a directive of its own has a flag; and the only child of a
    plain element, if it is text, sets the flag for text just if it shows a value. -/
theorem patchFlag_covers {o : Options}
    (handlers : ∀ rule, o.rule? "on" = some rule → rule.handles) (el : Element) :
    (∀ (props : List ElementProp) (c : Context), let r := (exec (buildProps el props) o c).1
      (r.flag.contains .fullProps = false → ∀ node ∈ r.props, ∃ ps, node = .object ps ∧
        ∀ p ∈ ps, ∃ name, p.name? = some name ∧ ((∃ v ∈ p.value.given, v.isConstant = false) →
          name ∈ ["key", "ref", "ref_for"] ∨ r.Covers name)) ∧
      ((∃ a, .attribute a ∈ props ∧ a.name = "ref") ∨ r.directives ≠ [] → r.flag.isEmpty = false)) ∧
    (el.kind = .plain → ∀ (direct : Bool) (nodes : List TemplateNode) (c c' : Context),
      (∀ node ∈ nodes, node.isCompound = false) →
      ∀ child, (exec (mergeText direct nodes) o c).1 = [child] →
        ∃ v, (exec (lowerElement el [child]) o c').1 = .vnode v ∧
          v.flag.contains .text = child.interpolates ∧
          (child.isDirectText = true → ∃ node, v.children = some (.single node))) := by
  refine ⟨fun props c => ?_, fun plain direct nodes c c' single child merged => ?_⟩
  · have tracked := tracked_buildProps handlers el props c
    obtain ⟨-, refs⟩ := extends_addProps handlers el props {} c
    simp only [buildProps, exec_bind, exec_pure] at tracked ⊢
    generalize (exec (addProps el {} props) o c).1 = b at tracked refs
    obtain ⟨full, covered, isEmpty, -⟩ :=
      b.survey.contains_flag (el.kind == .component) (!b.directives.isEmpty)
    rw [full]
    refine ⟨fun notFull node isProps => ?_, fun marked => isEmpty ?_⟩
    · obtain ⟨ps, same, all⟩ := tracked notFull node isProps
      refine ⟨ps, same, fun p member => (all p member).mono fun name => ?_⟩
      obtain ⟨props', classes, style⟩ := covered notFull
      rintro ⟨-, other | listed | ⟨plain, isClass | isStyle⟩⟩
      · exact .inl other
      · refine .inr (.inl ⟨?_, listed⟩)
        rw [props', isEmpty_eq_false_iff_exists_mem.mpr ⟨name, listed⟩]
        rfl
      · exact .inr (.inr (.inl ⟨isClass.1, by rw [classes, isClass.2, plain]; rfl⟩))
      · exact .inr (.inr (.inr ⟨isStyle.1, by rw [style, isStyle.2, plain]; rfl⟩))
    · rcases marked with ⟨a, member, isRef⟩ | runs
      · simp [refs a member isRef]
      · simp [runs]
  · rw [← isDynamicText_mergeText direct single o c child (by simp [merged])]
    simp only [lowerElement, lowerChildren, plain]
    exact ⟨_, rfl, contains_text_lowerProps .., fun isDirect => ⟨_, congrArg some (if_pos isDirect)⟩⟩

/-- An element with a class and a bound class. -/
def twoClasses : Element where
  tag := "p"
  kind := .plain
  props :=
    [.attribute ⟨"class", some ⟨"a", .empty⟩, .empty⟩,
      .directive ⟨"bind", ":class", some (.snippet "class" true .empty), [],
        some (.snippet "b" false .empty), .empty, none⟩]
  selfClosing := false
  lowered := none
  span := .empty

theorem twoClasses_covered : let r := (exec (buildProps twoClasses twoClasses.props) {} {}).1
    r.flag = .classes ∧ r.props.isSome = true ∧
      ∀ node ∈ r.props, ∃ ps, node = .object ps ∧ ∀ p ∈ ps,
        ∃ name, p.name? = some name ∧ ((∃ v ∈ p.value.given, v.isConstant = false) →
          name ∈ ["key", "ref", "ref_for"] ∨ r.Covers name) :=
  ⟨by decide +kernel, by decide +kernel, ((patchFlag_covers (by simp [Options.rule?])
    twoClasses).1 twoClasses.props {}).1 (by decide +kernel)⟩

end Lower

end Stencil
