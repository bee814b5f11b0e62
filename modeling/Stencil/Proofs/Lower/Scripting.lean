import Mathlib.Data.List.Forall2
import Stencil.Proofs.Lower.Run
import Stencil.Proofs.Lower.Scoped

/-! # What properties are made of

Attributes and directives are lowered to scripts, helpers, and objects, arrays and calls of these.
So a property of code that scripts and helpers have, and that is kept by what lowering writes around
them, holds of everything that an element's props become.

`Scripting` says what such a property has to satisfy. A script of the template is read once: before
that it has the property `W` of scripts as written, or `H` if it is read as a handler, and after it
the property `R` of scripts in lowered code.
-/

namespace Stencil

open List Directive DirectiveRule Dom Option

/-! ## Directives before and after a step -/

/-- Props before and after a step that keeps the names of directives and changes them as `R`
    says. -/
inductive ElementProp.Changes (R : Directive → Directive → Prop) : ElementProp → ElementProp → Prop
  | attribute {a} : Changes R (.attribute a) (.attribute a)
  | directive {d d'} : d'.name = d.name → R d d' → Changes R (.directive d) (.directive d')

abbrev PropsChange (R : Directive → Directive → Prop) :
    List ElementProp → List ElementProp → Prop :=
  Forall₂ (ElementProp.Changes R)

section Related

variable {α β : Type} {R : α → β → Prop} {a? : Option α} {b? : Option β}
  (related : Option.Rel R a? b?)
include related

theorem exists_of_mem_rel (member : b ∈ b?) : ∃ a ∈ a?, R a b := by
  cases related with
  | none => cases member
  | some holds => cases member; exact ⟨_, rfl, holds⟩

theorem exists_mem_of_rel (member : a ∈ a?) : ∃ b ∈ b?, R a b := by
  cases related with
  | none => cases member
  | some holds => cases member; exact ⟨_, rfl, holds⟩

theorem isSome_of_rel : b?.isSome = a?.isSome := by
  cases related <;> rfl

end Related

variable {el el' : Element} {props props' : List ElementProp} {d : Directive}

section

variable (changes : PropsChange R el.props el'.props) (name : String)
include changes

/-- A step that keeps the names of directives finds them again. -/
theorem find?_changes : Option.Rel R (el.find? name) (el'.find? name) := by
  unfold Element.find?
  generalize el.props = props, el'.props = props' at changes
  induction changes with
  | nil => exact .none
  | cons first _ ih =>
    cases first with
    | «attribute» => exact ih
    | @directive d d' named changed =>
      by_cases same : d.name = name
      · have here : Option.Rel R (some d) (some d') := .some changed
        simpa [ElementProp.named?, named, same] using here
      · simpa [ElementProp.named?, named, same] using ih

theorem has_changes : el'.has name = el.has name :=
  isSome_of_rel (find?_changes changes name)

end

section

variable (changes : PropsChange R props props')
include changes

theorem exists_of_mem_changes (member : .directive d' ∈ props') :
    ∃ d, .directive d ∈ props ∧ d'.name = d.name ∧ R d d' := by
  obtain ⟨p, before, changed⟩ := exists_of_mem_forall₂ changes member
  cases changed with
  | directive named changed => exact ⟨_, before, named, changed⟩

theorem changes_imp {Q : Directive → Directive → Prop}
    (weaker : ∀ d, .directive d ∈ props → ∀ d', d'.name = d.name → R d d' → Q d d') :
    PropsChange Q props props' := by
  induction changes with
  | nil => exact .nil
  | cons first _ ih =>
    refine .cons ?_ (ih fun d member => weaker d (mem_cons_of_mem _ member))
    cases first with
    | «attribute» => exact .attribute
    | directive named changed => exact .directive named (weaker _ mem_cons_self _ named changed)

end

namespace Directive

/-- Whether the script of a directive is not read with the others: that of a loop, the parameters
    of a slot, and a handler. -/
def waits (d : Directive) : Bool :=
  d.name == "for" || d.name == "slot" || d.name == "on" && d.arg.isSome

/-- Whether the argument of a directive is not read with the others: that of a loop, and the name of
    a looped slot. -/
def argWaits (hasFor : Bool) (d : Directive) : Bool :=
  d.name == "for" || d.name == "slot" && hasFor

end Directive

/-! ## Reading the scripts of directives -/

/-- An argument before and after it is read, where `T` says what reading does to a script. -/
inductive Expression.ReadsArg (T : Expression → Expression → Prop) : Expression → Expression → Prop
  | static {a} : a.isStatic = true → ReadsArg T a a
  | dynamic {a a'} : a.isStatic = false → T a a' → ReadsArg T a a'

namespace Directive

variable (T : Expression → Expression → Prop)

/-- A directive before and after its scripts are read, but for those that wait. -/
structure ReadsScripts (hasFor : Bool) (d d' : Directive) : Prop where
  loop : d'.loop = d.loop
  isSome : d'.arg.isSome = d.arg.isSome
  keptArg : d.argWaits hasFor = true → d'.arg = d.arg
  arg : d.argWaits hasFor = false → Option.Rel (Expression.ReadsArg T) d.arg d'.arg
  keptExp : d.waits = true → d'.exp = d.exp
  exp : d.waits = false → Option.Rel T d.exp d'.exp

/-- A directive before and after the loop of a slot template is kept on it. -/
structure KeepsLoop (head : LoopHead) (d d' : Directive) : Prop where
  exp : d'.exp = d.exp
  loop : d'.loop = if d.name = "for" then some head else d.loop
  isSome : d'.arg.isSome = d.arg.isSome
  keptArg : d.name ≠ "slot" → d'.arg = d.arg
  arg : d.name = "slot" → Option.Rel (Expression.ReadsArg T) d.arg d'.arg

end Directive

namespace Lower.Logic

variable {o : Options} {J : {α : Type} → Lower α → (α → Prop) → Prop} (L : Logic o @J)
  {T : Expression → Expression → Prop} (process : ∀ e, J (process e .expression) (T e))
include L process

theorem processArg (d) : J (processArg d) fun d' =>
    ∃ arg, Option.Rel (Expression.ReadsArg T) d.arg arg ∧ d' = { d with arg } := by
  unfold Lower.processArg
  split
  next a found =>
    split
    next isStatic => exact L.pure ⟨d.arg, by rw [found]; exact .some (.static isStatic), rfl⟩
    next dynamic =>
      refine L.bind (process a) fun a' => L.pure fun read => ⟨some a', ?_, rfl⟩
      rw [found]
      exact .some (.dynamic (by simpa using dynamic) read)
  next noArg => exact L.pure ⟨d.arg, by rw [noArg]; exact .none, rfl⟩

theorem processDirective (hasFor d) : J (processDirective hasFor d)
    fun d' => d'.name = d.name ∧ d.ReadsScripts T hasFor d' := by
  have untouched (argWaits : d.argWaits hasFor = true) (waits : d.waits = true) :
      d.name = d.name ∧ d.ReadsScripts T hasFor d :=
    ⟨rfl, rfl, rfl, fun _ => rfl, by simp [argWaits], fun _ => rfl, by simp [waits]⟩
  have withArg {exp : Option Expression} (argReads : d.argWaits hasFor = false)
      (kept : d.waits = true → exp = d.exp) (read : d.waits = false → Option.Rel T d.exp exp) :
      J (Lower.processArg { d with exp }) fun d' => d'.name = d.name ∧
        d.ReadsScripts T hasFor d' := by
    refine L.mono (L.processArg process _) ?_
    rintro _ ⟨arg, related, rfl⟩
    exact ⟨rfl, rfl, isSome_of_rel related, by simp [argReads], fun _ => related, kept, read⟩
  unfold Lower.processDirective
  split
  next isFor =>
    exact L.pure (untouched (by simp [argWaits, isFor])
      (by simp [waits, isFor]))
  next notFor =>
    split
    next isSlot =>
      have waits : d.waits = true := by simp [waits, isSlot]
      split
      next looped => exact L.pure (untouched (by simp [argWaits, isSlot, looped]) waits)
      next single => exact withArg (by simp_all [argWaits]) (fun _ => rfl) (by simp [waits])
    next notSlot =>
      have argReads : d.argWaits hasFor = false := by simp_all [argWaits]
      split
      next isOn => exact withArg argReads (fun _ => rfl) (by simp_all [waits])
      next notOn =>
        have reads : d.waits = false := by simp_all [waits]
        split
        next e found =>
          refine L.bind (process e) fun e' => ?_
          by_cases read : T e e'
          · refine L.mono (withArg argReads (by simp [reads]) fun _ => ?_) fun _ holds _ => holds
            rw [found]
            exact .some read
          · exact L.mono (L.processArg process _) fun _ _ holds => absurd holds read
        next noExp => exact withArg argReads (fun _ => rfl) fun _ => by rw [noExp]; exact .none

theorem processProps (hasFor props) :
    J (processProps hasFor props) (PropsChange (ReadsScripts T hasFor) props) := by
  induction props with
  | nil => exact L.pure .nil
  | cons p props ih =>
    rcases p with a | d
    · exact L.bind ih fun _ => L.pure fun rest => .cons .attribute rest
    · exact L.bind (L.processDirective process hasFor d) fun _ => L.bind ih fun _ =>
        L.pure fun rest first => .cons (.directive first.1 first.2) rest

theorem keepSlotLoop (head props) :
    J (keepSlotLoop head props) (PropsChange (KeepsLoop T head) props) := by
  induction props with
  | nil => exact L.pure .nil
  | cons p props ih =>
    rcases p with a | d
    · exact L.bind ih fun _ => L.pure fun rest => .cons .attribute rest
    · have rest (d' : Directive) :
          J (Lower.keepSlotLoop head props >>= fun props' => Pure.pure (.directive d' :: props'))
            fun result => d'.name = d.name → d.KeepsLoop T head d' →
              PropsChange (KeepsLoop T head) (.directive d :: props) result :=
        L.bind ih fun _ => L.pure fun rest named first => .cons (.directive named first) rest
      simp only [Lower.keepSlotLoop]
      split
      next isFor =>
        have named : d.name = "for" := by simpa using isFor
        exact L.mono (rest _) fun _ kept =>
          kept rfl ⟨rfl, by simp [named], rfl, fun _ => rfl, by simp [named]⟩
      next notFor =>
        have other : d.name ≠ "for" := by simpa using notFor
        split
        next isSlot =>
          refine L.bind (L.processArg process d) fun d' => L.mono (rest d') fun _ kept => ?_
          rintro ⟨arg, related, rfl⟩
          exact kept rfl ⟨rfl, by simp [other], isSome_of_rel related, by simp_all,
            fun _ => related⟩
        next notSlot =>
          exact L.mono (rest d) fun _ kept =>
            kept rfl ⟨rfl, by simp [other], rfl, fun _ => rfl, by simp_all⟩

end Lower.Logic

/-! ## Properties of scripts and code -/

/-- Whether a rule reads the script of a directive as a handler. -/
def DirectiveRule.handles (rule : DirectiveRule) : Prop :=
  rule = .on ∨ rule = .domOn

/-- Whether the rule for handlers reads their scripts. -/
def Options.readsHandlers (o : Options) : Bool :=
  match o.rule? "on" with
  | none | some .on | some .domOn => true
  | some _ => false

/-- Properties of scripts as written, of scripts to read as handlers, of scripts in lowered code and
    of lowered nodes that go together, and a way to tell what steps give. -/
structure Scripting (o : Options) (J : {α : Type} → Lower α → (α → Prop) → Prop)
    (W H R : Expression → Prop) (P : RenderNode → Prop) : Prop extends Lower.Logic o @J where
  static {s : Snippet} : s.isStatic = true → R (.simple s)
  made {level : Constancy} {code : String} {span : Span} : Script.Made level code →
    R (.simple ((Snippet.new code false span).withLevel level))
  around {parts : List Part} {origin : Expression} :
    (∀ part ∈ parts, part.Glue ∨ ∃ e, part = .expr e) → (∀ e, .expr e ∈ parts → R e) →
    R (.around parts origin)
  process (e : Expression) {mode : Script.Mode} : mode ≠ .params →
    J (Lower.process e mode) fun e' => W e → R e'
  handler (e : Expression) : J (Lower.handler e) fun e' => H e → R e'
  written {e : Expression} : W e → H e
  /-- What was read for another directive may be read again as a handler. -/
  reread {name : String} {rule : DirectiveRule} {e : Expression} :
    o.rule? name = some rule → rule.handles → name ≠ "on" → R e → H e
  bare {e : Expression} : o.readsHandlers = false → W e → R e
  assembles : Assembles R P
  expr {e : Expression} : R e → P (.expr e)
  call {callee : Helper} {args : List RenderNode} : (callee.isNormalizer = true → args.length ≤ 1) →
    (∀ arg ∈ args, P arg) → P (.call callee args)

/-- A directive whose scripts are ready to be lowered. Handlers are analysed later. -/
structure Directive.Ready (W R : Expression → Prop) (d : Directive) : Prop where
  arg : ∀ a ∈ d.arg, R a
  exp : (d.name = "on" → d.arg = none) → d.name ≠ "slot" → ∀ e ∈ d.exp, R e
  handler : d.name = "on" → ∀ a ∈ d.arg, ∀ e ∈ d.exp, W e

/-- All directives among attributes and directives are ready to be lowered. -/
abbrev ReadyProps (W R : Expression → Prop) (props : List ElementProp) : Prop :=
  ∀ d, .directive d ∈ props → d.Ready W R

abbrev Properties (R : Expression → Prop) (P : RenderNode → Prop) (ps : List Property) : Prop :=
  ∀ p ∈ ps, R p.key ∧ P p.value

theorem mem_of_script? (found : d.script? = some e) : e ∈ d.exp :=
  (filter_eq_some_iff.mp found).1

theorem Dom.options_add (key) (ms : EventModifiers) (m) :
    (ms.add key m).options = ms.options ++ [m].filter isListenerOption ∧
      ∀ g ∈ (ms.add key m).guards, g ∈ ms.guards ∨ g = m := by
  unfold EventModifiers.add
  split
  next option => exact ⟨by simp [option], fun _ => .inl⟩
  next other =>
    repeat' split
    all_goals simp_all

/-- The options of a listener keep their order, and its guards are among the modifiers. -/
theorem Dom.options_sortModifiers (key modifiers) :
    (sortModifiers key modifiers).options = modifiers.filter isListenerOption ∧
      ∀ g ∈ (sortModifiers key modifiers).guards, g ∈ modifiers := by
  have all : ∀ ms : EventModifiers,
      (modifiers.foldl (EventModifiers.add key.static?) ms).options =
        ms.options ++ modifiers.filter isListenerOption ∧
      ∀ g ∈ (modifiers.foldl (EventModifiers.add key.static?) ms).guards,
        g ∈ ms.guards ∨ g ∈ modifiers := by
    induction modifiers with
    | nil => simp
    | cons m modifiers ih =>
      intro ms
      obtain ⟨options, guards⟩ := options_add key.static? ms m
      obtain ⟨options', guards'⟩ := ih (ms.add key.static? m)
      refine ⟨?_, fun g member => ?_⟩
      · rw [foldl_cons, options', options, append_assoc, ← filter_append]
        rfl
      · rcases guards' g member with here | later
        · exact (guards g here).imp_right fun same => by simp [same]
        · exact .inr (mem_cons_of_mem m later)
  obtain ⟨options, guards⟩ := all {}
  exact ⟨options, fun g member => (guards g member).resolve_left (by simp)⟩

namespace Scripting

variable {o : Options} {J : {α : Type} → Lower α → (α → Prop) → Prop} {W H R : Expression → Prop}
  {P : RenderNode → Prop} (S : Scripting o @J W H R P)
include S

theorem snippet (content span) : R (.snippet content true span) :=
  S.static rfl

theorem string (content) : P (.string content) :=
  S.expr (S.static rfl)

theorem script (made : Script.Made .dynamic code) : P (.script code) :=
  S.expr (S.made made)

theorem glued (holds : R e) (pieces : ∀ part ∈ parts, part.Glue ∨ part = .expr e) :
    R (.around parts origin) := by
  refine S.around (fun part member => (pieces part member).imp_right fun same => ⟨e, same⟩) ?_
  intro inner member
  rcases pieces _ member with glue | same
  · cases glue
  · cases same
    exact holds

/-! ## Keys -/

theorem called (h) (holds : R e) : R (.around [.helper h, .raw "(", .expr e, .raw ")"] e) := by
  exact S.glued holds (by simp [Part.Glue.helper, Part.Glue.word])

theorem markKey (known : mark ∈ [".", "^"]) (holds : R e) : R (Lower.markKey mark e) := by
  have marked : R (.around [.raw ("\"" ++ mark ++ "\" + ("), .expr e, .raw ")"] e) :=
    S.glued holds (by simp [Part.Glue.mark known, Part.Glue.word])
  unfold Lower.markKey
  split
  · split
    · exact S.static rfl
    · exact marked
  · exact marked

theorem camelKey (holds : R e) : R (Lower.camelKey e) := by
  unfold Lower.camelKey
  split
  · split
    · exact S.static rfl
    · exact S.called _ holds
  · exact S.called _ holds

theorem bindKey (d) (holds : R e) : R (Lower.bindKey d e) := by
  have start : R (if e.isStatic then e
      else Expression.around [.raw "(", .expr e, .raw ") || \"\""] e) := by
    split
    · exact holds
    · exact S.glued holds (by simp [Part.Glue.word])
  unfold Lower.bindKey
  dsimp only
  generalize (if e.isStatic = true then e
    else Expression.around [.raw "(", .expr e, .raw ") || \"\""] e) = key at start
  have camel : R (if d.hasModifier "camel" then Lower.camelKey key else key) := by
    split
    · exact S.camelKey start
    · exact start
  split
  · exact S.markKey (by simp) camel
  · split
    · exact S.markKey (by simp) camel
    · exact camel

theorem onKey (kind) (holds : R e) : R (Lower.onKey kind e) := by
  unfold Lower.onKey
  split
  · split
    · exact S.static rfl
    · exact S.called _ holds
  · exact S.called _ holds

theorem modelKeys (arg : ∀ a ∈ d.arg, R a) :
    R (Lower.modelKeys d).value ∧ R (Lower.modelKeys d).event ∧
      R (Lower.modelKeys d).modifiers := by
  have dynamic (a : Expression) (holds : R a) : R a ∧
      R (.around [.raw "\"onUpdate:\" + ", .expr a] a) ∧
      R (.around [.expr a, .raw " + \"Modifiers\""] a) := by
    refine ⟨holds, S.glued holds ?_, S.glued holds ?_⟩ <;> simp [Part.Glue.word]
  unfold Lower.modelKeys
  split
  next s found =>
    split
    · exact ⟨S.static rfl, S.static rfl, S.static rfl⟩
    · exact dynamic _ (arg _ found)
  next c found => exact dynamic _ (arg _ found)
  · exact ⟨S.static rfl, S.static rfl, S.static rfl⟩

theorem renameClick (event) (holds : R e) : R (renameClick e event) := by
  unfold Dom.renameClick
  split
  · split
    · exact S.static rfl
    · exact holds
  · exact S.glued holds (by simp [Part.Glue.word, Part.Glue.rename event])

theorem addOptions (known : ∀ name ∈ options, isListenerOption name = true) (holds : R e) :
    R (addOptions e options) := by
  unfold Dom.addOptions
  split
  · exact holds
  · split
    · exact S.static rfl
    · exact S.glued holds (by simp [Part.Glue.options known])

theorem modifyHandler (modifiers) {p : Property} (key : R p.key) (value : P p.value) :
    R (modifyHandler modifiers p).key ∧ P (modifyHandler modifiers p).value := by
  have listens : ∀ helper ∈ [withModifiers, withKeys], ∀ (node : RenderNode) names, P node →
      P (.call helper [node, modifierList names]) := by
    intro helper known node names holds
    have other : ∀ helper ∈ [withModifiers, withKeys], ¬ helper.isNormalizer = true := by
      decide
    exact S.call (fun normalizes => absurd normalizes (other helper known))
      (by simpa using ⟨holds, S.script (.modifiers names)⟩)
  constructor
  · refine S.addOptions (fun name member => ?_) ?_
    · rw [(options_sortModifiers _ _).1] at member
      exact (mem_filter.mp member).2
    unfold modifiedKey
    split <;> split
    · exact S.renameClick _ (S.renameClick _ key)
    · exact S.renameClick _ key
    · exact S.renameClick _ key
    · exact key
  · unfold Dom.modifyHandler Dom.modifiedHandler
    dsimp only
    have guarded : P (if (sortModifiers p.key modifiers).guards.isEmpty then p.value
        else .call withModifiers [p.value, modifierList
          (sortModifiers p.key modifiers).guards]) := by
      split
      · exact value
      · exact listens _ (by simp) _ _ value
    split
    · exact listens _ (by simp) _ _ guarded
    · exact guarded

/-! ## Directives -/

open Lower

theorem named (name) {value} (holds : P value) : Properties R P [.named name value] := by
  simpa [Properties] using ⟨S.snippet _ _, holds⟩

/-- What becomes of a directive whose scripts have been read. -/
abbrev Plain (R : Expression → Prop) (P : RenderNode → Prop) (d : Directive) (r : DirectiveResult) :
    Prop :=
  (∀ a ∈ d.arg, R a) → (∀ e ∈ d.exp, R e) → Properties R P r.props

abbrev Handled (H R : Expression → Prop) (P : RenderNode → Prop) (d : Directive)
    (r : DirectiveResult) : Prop :=
  r.runtime = none ∧ ((∀ a ∈ d.arg, R a) → (∀ a ∈ d.arg, ∀ e ∈ d.exp, H e) → Properties R P r.props)

section

variable (d : Directive)

theorem requireScript (cause) :
    J (requireScript d cause) fun node => (∀ e ∈ d.exp, R e) → P node := by
  unfold Lower.requireScript
  split
  next e found => exact S.pure fun exps => S.expr (exps e (mem_of_script? found))
  · exact S.bind (S.error _ _) fun _ => S.pure fun _ _ => S.string ""

theorem bindDirective : J (bindDirective d) (Plain R P d) := by
  unfold Lower.bindDirective
  split
  · exact S.pure fun _ _ => by rintro _ ⟨⟩
  next a found =>
    refine S.bind (S.requireScript d _) fun value => S.pure fun holds args exps => ?_
    simpa [Properties] using ⟨S.bindKey d (args a found), holds exps⟩

theorem onDirective (el) : J (onDirective d el) (Handled H R P d) := by
  unfold Lower.onDirective
  split
  · exact S.pure ⟨rfl, fun _ _ => by rintro _ ⟨⟩⟩
  next a found =>
    split
    next e script =>
      rw [bind_map_left]
      refine S.bind (S.handler e) fun e' => S.pure fun holds => ⟨rfl, fun args handles => ?_⟩
      have value := holds (handles a found e (mem_of_script? script))
      simpa [Properties] using ⟨S.onKey el.kind (args a found), S.expr value⟩
    · refine S.pure ⟨rfl, fun args _ => ?_⟩
      simpa [Properties] using ⟨S.onKey el.kind (args a found), S.script (.word (by simp))⟩

theorem modelTarget? : J (modelTarget? d) fun target => ∀ e ∈ target, e ∈ d.exp := by
  unfold Lower.modelTarget?
  split
  · exact S.bind (S.error _ _) fun _ => S.pure fun _ => by simp
  next e found =>
    refine S.bind S.get fun c => S.bind S.read fun o => ?_
    split
    · exact S.bind (S.error _ _) fun _ => S.pure fun _ _ _ => by simp
    · split
      · refine S.pure fun _ _ e' same => ?_
        cases same
        exact mem_of_script? found
      · exact S.bind (S.error _ _) fun _ => S.pure fun _ _ _ => by simp

theorem modelDirective (el) : J (modelDirective d el) (Plain R P d) := by
  refine S.bind (S.modelTarget? d) fun target => ?_
  split
  · exact S.pure fun _ _ _ => by rintro _ ⟨⟩
  next e =>
    refine S.pure fun member args exps => ?_
    have holds := exps e (member e rfl)
    obtain ⟨value, event, modifiers⟩ := S.modelKeys args
    have update : R (.around [.raw "$event => ((", .expr e, .raw ") = $event)"] e) :=
      S.glued holds (by simp [Part.Glue.word])
    split
    · simpa [Properties] using ⟨⟨value, S.expr holds⟩, event, S.expr update⟩
    · simpa [Properties] using ⟨⟨value, S.expr holds⟩, ⟨event, S.expr update⟩, modifiers,
        S.expr (S.made (.modelModifiers d.modifiers))⟩

theorem html : J (html d) (Plain R P d) :=
  S.bind (S.requireScript d _) fun _ => S.pure fun holds _ exps => S.named _ (holds exps)

theorem text : J (text d) (Plain R P d) := by
  unfold Dom.text
  split
  next e found =>
    have script (exps : ∀ e ∈ d.exp, R e) : P (.expr e) := S.expr (exps e (mem_of_script? found))
    split
    · exact S.pure fun _ exps => S.named _ (script exps)
    · exact S.pure fun _ exps =>
        S.named _ (S.call (fun _ => Nat.le_refl _) (by simpa using script exps))
  · exact S.bind (S.requireScript d _) fun _ => S.pure fun holds _ exps => S.named _ (holds exps)

theorem visibility : J (visibility d) (Plain R P d) := by
  unfold Dom.visibility
  split
  · exact S.bind (S.error _ _) fun _ => S.pure fun _ _ _ => by rintro _ ⟨⟩
  · exact S.pure fun _ _ => by rintro _ ⟨⟩

theorem domHandler (el) : J (Dom.handler d el) (Handled H R P d) := by
  refine S.bind (S.onDirective d el) fun result => ?_
  split
  · exact S.pure id
  · split
    next p rest found =>
      refine S.pure fun holds => ⟨holds.1, fun args handles => ?_⟩
      have all := holds.2 args handles
      rw [found] at all
      obtain ⟨first, others⟩ := forall_mem_cons.mp all
      exact forall_mem_cons.mpr ⟨S.modifyHandler _ first.1 first.2, others⟩
    · exact S.pure id

end

theorem checkValueBinding (el) : J (checkValueBinding el) fun _ => True := by
  unfold Dom.checkValueBinding
  split
  · exact S.error _ _
  · exact S.pure trivial

theorem modelRuntime (d el) : J (Dom.modelRuntime d el) fun _ => True := by
  have checked : J (do
      Dom.checkValueBinding el
      return some modelText) fun _ => True :=
    S.bind (S.checkValueBinding el) fun _ => S.pure fun _ => trivial
  have input : J (inputModel d el) fun _ => True := by
    unfold inputModel
    split
    · exact S.pure trivial
    · split
      · exact S.pure trivial
      · exact S.pure trivial
      · exact S.bind (S.error _ _) fun _ => S.pure fun _ => trivial
      · exact checked
    · split
      · exact S.pure trivial
      · exact checked
  unfold Dom.modelRuntime
  split
  · exact input
  · exact S.pure trivial
  · exact checked
  · exact S.bind (S.error _ _) fun _ => S.pure fun _ => trivial

theorem domModel (d el) : J (model d el) (Plain R P d) := by
  refine S.bind (S.modelDirective d el) fun result => ?_
  split
  · exact S.pure id
  · have kept (all : Properties R P result.props) :
        Properties R P (result.props.filter (·.name? != some "modelValue")) :=
      fun p member => all p (mem_filter.mp member).1
    split
    · exact S.bind (S.error _ _) fun _ => S.bind (S.modelRuntime d el) fun _ =>
        S.pure fun _ _ holds args exps => kept (holds args exps)
    · exact S.bind (S.modelRuntime d el) fun _ =>
        S.pure fun _ holds args exps => kept (holds args exps)

/-- What a rule makes of a directive, given what is known of the scripts of the directive. -/
abbrev Applied (H R : Expression → Prop) (P : RenderNode → Prop) (rule : DirectiveRule)
    (d : Directive) (r : DirectiveResult) : Prop :=
  (∀ a ∈ d.arg, R a) → (¬ rule.handles → ∀ e ∈ d.exp, R e) →
    (rule.handles → ∀ a ∈ d.arg, ∀ e ∈ d.exp, H e) →
    Properties R P r.props ∧ (r.runtime.isSome = true → ∀ e ∈ d.exp, R e)

theorem applyRule (rule d el) : J (applyRule rule d el) (Applied H R P rule d) := by
  have plain {act : Lower DirectiveResult} (other : ¬ rule.handles)
      (judged : J act (Plain R P d)) : J act (Applied H R P rule d) :=
    S.mono judged fun _ holds args exps _ => ⟨holds args (exps other), fun _ => exps other⟩
  have reads {act : Lower DirectiveResult} (handles : rule.handles)
      (judged : J act (Handled H R P d)) : J act (Applied H R P rule d) :=
    S.mono judged fun _ holds args _ handled =>
      ⟨holds.2 args (handled handles), by simp [holds.1]⟩
  cases rule with
  | on => exact reads (.inl rfl) (S.onDirective d el)
  | domOn => exact reads (.inr rfl) (S.domHandler d el)
  | bind => exact plain (by simp [handles]) (S.bindDirective d)
  | model => exact plain (by simp [handles]) (S.modelDirective d el)
  | domModel => exact plain (by simp [handles]) (S.domModel d el)
  | html => exact plain (by simp [handles]) (S.html d)
  | text => exact plain (by simp [handles]) (S.text d)
  | «show» => exact plain (by simp [handles]) (S.visibility d)
  | cloak | ignore | resolve =>
    exact plain (by simp [handles]) (S.pure fun _ _ => (by rintro _ ⟨⟩))
  | warn message =>
    exact plain (by simp [handles])
      (S.bind (S.report _) fun _ => S.pure fun _ _ _ => (by rintro _ ⟨⟩))

theorem rule? (d : Directive) : J (rule? d.name) fun found => ∀ rule ∈ found, d.Ready W R →
    d.name ≠ "slot" → (¬ rule.handles → ∀ e ∈ d.exp, R e) ∧
      (rule.handles → ∀ a ∈ d.arg, ∀ e ∈ d.exp, H e) := by
  -- a handler has not been read, unless it has no argument
  have taken {rule : DirectiveRule} (unread : d.name = "on" → ¬ rule.handles →
      o.readsHandlers = false) (again : rule.handles → d.name ≠ "on" → ∀ e, R e → H e)
      (ready : d.Ready W R) (notSlot : d.name ≠ "slot") : (¬ rule.handles → ∀ e ∈ d.exp, R e) ∧
      (rule.handles → ∀ a ∈ d.arg, ∀ e ∈ d.exp, H e) := by
    by_cases isOn : d.name = "on"
    · refine ⟨fun other e member => ?_, fun _ a hasArg e member =>
        S.written (ready.handler isOn a hasArg e member)⟩
      cases hasArg : d.arg with
      | none => exact ready.exp (fun _ => hasArg) notSlot e member
      | some a => exact S.bare (unread isOn other) (ready.handler isOn a hasArg e member)
    · have read := ready.exp (fun on => absurd on isOn) notSlot
      exact ⟨fun _ => read, fun handles _ _ e member => again handles isOn e (read e member)⟩
  refine S.bind S.read fun o' => ?_
  split
  next rule given =>
    refine S.pure fun options _ same => ?_
    subst options
    cases same
    refine taken (fun isOn other => ?_) fun handles notOn _ => S.reread given handles notOn
    rw [isOn] at given
    unfold Options.readsHandlers
    cases rule <;> simp_all [handles]
  · split
    next isBind =>
      refine S.pure fun _ _ same => taken (fun isOn => absurd (isBind.symm.trans isOn) (by simp)) ?_
      cases same
      simp [handles]
    next isOn =>
      refine S.pure fun _ _ same => taken ?_ fun _ notOn => absurd isOn notOn
      cases same
      simp [handles]
    next isModel =>
      refine S.pure fun _ _ same => taken (fun isOn => absurd (isModel.symm.trans isOn) (by simp)) ?_
      cases same
      simp [handles]
    · exact S.pure fun _ => by simp

/-! ## The properties of an element -/

/-- The expressions of a directive have the property `R`. -/
def Lowered (R : Expression → Prop) (d : Directive) : Prop :=
  ∀ e, e ∈ d.exp ∨ e ∈ d.arg → R e

/-- What is asked of the properties read so far, and of the directives kept for run time. -/
structure Build (R : Expression → Prop) (P : RenderNode → Prop) (D : Directive → Prop)
    (b : PropsBuild) : Prop where
  props : b.Holds R P
  directives : ∀ r ∈ b.directives, D r.directive

namespace Build

omit S in
theorem survey (build : Build R P D b) (survey) : Build R P D { b with survey } :=
  ⟨build.props.survey survey, build.directives⟩

omit S in
theorem addPart (assembles : Assembles R P) (build : Build R P D b) (holds : P node) :
    Build R P D (b.addPart node) := by
  refine ⟨build.props.addPart assembles holds, ?_⟩
  unfold PropsBuild.addPart PropsBuild.flush
  split
  · exact build.directives
  · exact build.directives

omit S in
theorem addPending (build : Build R P D b) (holds : Properties R P ps) :
    Build R P D { b with pending := b.pending ++ ps } :=
  ⟨build.props.addPending holds, build.directives⟩

omit S in
theorem keep (build : Build R P D b) (holds : D d) (source) :
    Build R P D { b with directives := b.directives ++ [⟨d, source⟩] } := by
  refine ⟨build.props.directives _, forall_mem_append.mpr ⟨build.directives, ?_⟩⟩
  simpa using holds

omit S in
theorem addResult (assembles : Assembles R P) (build : Build R P D b) (isComponent)
    {result : DirectiveResult} (new : Properties R P result.props)
    (kept : result.runtime.isSome = true → D d) :
    Build R P D (Lower.addResult isComponent b d result) := by
  have surveyed := build.survey (result.props.foldl (PropsSurvey.add isComponent) b.survey)
  have object : P (.object result.props) := assembles.object.mpr new
  unfold Lower.addResult
  dsimp only
  split
  next source found =>
    have holds := kept (by simp [found])
    split
    · exact (surveyed.addPart assembles object).keep holds _
    · exact (surveyed.addPending new).keep holds _
  · split
    · exact surveyed.addPart assembles object
    · exact surveyed.addPending new

end Build

theorem addAttribute (el b a) :
    J (addAttribute el b a) fun b' => Build R P D b → Build R P D b' := by
  have named {b : PropsBuild} (build : Build R P D b) (name : String) {value : RenderNode}
      (holds : P value) : Build R P D (b.addPending (.named name value)) :=
    build.addPending (S.named name holds)
  refine S.bind S.get fun c => ?_
  have marked (build : Build R P D b) : Build R P D (if a.name == "ref" then
      { b with survey := { b.survey with hasRef := true } } else b) := by
    split
    · exact build.survey _
    · exact build
  dsimp only
  generalize (if (a.name == "ref") = true then
    { b with survey := { b.survey with hasRef := true } } else b) = start at marked
  have counted (build : Build R P D b) :
      Build R P D (if (a.name == "ref" && decide (0 < c.loopDepth)) = true then
        start.addPending (.named "ref_for" (.script "true")) else start) := by
    split
    · exact named (marked build) _ (S.script (.word (by simp)))
    · exact marked build
  split
  · exact S.pure fun _ build => counted build
  · exact S.pure fun _ build => named (counted build) _ (S.string _)

theorem addSpread (isComponent b d) :
    J (addSpread isComponent b d) fun b' => Build R P D b → (∀ e ∈ d.exp, R e) →
      Build R P D b' := by
  unfold Lower.addSpread
  split
  next e found =>
    have value (exps : ∀ e ∈ d.exp, R e) : P (.expr e) := S.expr (exps e (mem_of_script? found))
    split
    · exact S.pure fun build exps => (build.survey _).addPart S.assembles (value exps)
    · refine S.pure fun build exps => (build.survey _).addPart S.assembles
        (S.call (fun h => absurd h (by decide)) ?_)
      split
      · simpa using value exps
      · simpa using ⟨value exps, S.script (.word (by simp))⟩
  · exact S.bind (S.error _ _) fun _ => S.pure fun _ build _ => build.survey _

section

variable (el : Element)

theorem addDirective (b d) :
    J (addDirective el b d) fun b' => d.Ready W R → (Lowered R d → D d) → Build R P D b →
      Build R P D b' := by
  unfold Lower.addDirective
  dsimp only
  split
  · split
    · exact S.bind (S.error _ _) fun _ => S.pure fun _ _ _ => id
    · exact S.pure fun _ _ => id
  next notSlot =>
    have notSlot : d.name ≠ "slot" := by simpa using notSlot
    split
    · exact S.pure fun _ _ => id
    · split
      · exact S.pure fun _ _ => id
      · split
        next spreads =>
          have bare : d.arg = none := by simpa using (Bool.and_eq_true_iff.mp spreads).2
          exact S.mono (S.addSpread _ b d) fun b' holds ready _ build =>
            holds build (ready.exp (fun _ => bare) notSlot)
        · refine S.bind (S.rule? d) fun found => ?_
          split
          next rule =>
            refine S.bind (S.applyRule rule d el) fun result => ?_
            refine S.pure fun applied ruled ready kept build => ?_
            obtain ⟨exps, handles⟩ := ruled rule rfl ready notSlot
            obtain ⟨props, runs⟩ := applied ready.arg exps handles
            refine build.addResult S.assembles _ props fun isSome => kept ?_
            exact fun e inside => inside.elim (runs isSome e) (ready.arg e)
          · split
            · exact S.pure fun _ _ _ => id
            next builtin =>
              refine S.pure fun _ ready kept build => build.keep (kept ?_) _
              have other : d.name ≠ "on" := by
                rintro same
                rw [same] at builtin
                exact builtin (by decide)
              exact fun e inside =>
                inside.elim (ready.exp (fun on => absurd on other) notSlot e) (ready.arg e)

theorem addProps (props b) :
    J (addProps el b props) fun b' => ReadyProps W R props →
      (∀ d, .directive d ∈ props → Lowered R d → D d) → Build R P D b → Build R P D b' := by
  induction props generalizing b with
  | nil => exact S.pure fun _ _ => id
  | cons p props ih =>
    have later (ready : ReadyProps W R (p :: props)) : ReadyProps W R props :=
      fun d member => ready d (mem_cons_of_mem _ member)
    have laterKept (kept : ∀ d, .directive d ∈ p :: props → Lowered R d → D d) (d : Directive)
        (member : .directive d ∈ props) : Lowered R d → D d :=
      kept d (mem_cons_of_mem _ member)
    rcases p with a | d
    · exact S.bind (S.addAttribute el b a) fun b' => S.mono (ih b')
        fun b'' rest first ready kept build => rest (later ready) (laterKept kept) (first build)
    · exact S.bind (S.addDirective el b d) fun b' => S.mono (ih b')
        fun b'' rest first ready kept build => rest (later ready) (laterKept kept)
          (first (ready d mem_cons_self) (kept d mem_cons_self) build)

/-- The properties of an element have the property asked of nodes, and its directives for run time
    are among its directives. -/
theorem buildProps (props) :
    J (buildProps el props) fun r => ReadyProps W R props → (∀ node ∈ r.props, P node) ∧
      ∀ d ∈ r.directives, .directive d.directive ∈ props ∧ Lowered R d.directive := by
  refine S.bind (S.addProps (D := fun d => .directive d ∈ props ∧ Lowered R d) el props {})
    fun b => S.pure fun holds ready => ?_
  have build := holds ready (fun _ => And.intro) ⟨.empty, by simp⟩
  refine ⟨fun node member => ?_, build.directives⟩
  obtain ⟨inner, found, rfl⟩ := map_eq_some_iff.mp member
  exact S.assembles.normalizeProps _ (build.props.expression? S.assembles inner found)

theorem lowerProps :
    J (lowerProps el) fun r => ReadyProps W R el.props → (∀ node ∈ r.props, P node) ∧
      ∀ d ∈ r.directives, .directive d.directive ∈ el.props ∧ Lowered R d.directive := by
  unfold Lower.lowerProps
  split
  · exact S.pure fun _ => ⟨by simp, by simp⟩
  · exact S.buildProps el el.props

end

theorem arguments (lowered : Lowered R d) (holds : P first) : P (d.arguments first) := by
  have absent : P (.script "void 0") := S.script (.word (by simp))
  have flags : P (.object (d.modifiers.map (modifierFlag d.span))) := by
    apply S.assembles.object.mpr
    intro p member
    obtain ⟨name, -, rfl⟩ := mem_map.mp member
    exact ⟨S.snippet _ _, S.expr (S.made .flag)⟩
  apply S.assembles.array.mpr
  simp only [cons_append, forall_mem_cons, forall_mem_append]
  refine ⟨holds, ⟨?_, ?_⟩, ?_⟩
  · cases found : d.exp with
    | some e => simpa using S.expr (lowered e (.inl found))
    | none => dsimp only; split <;> simp [absent]
  · cases found : d.arg with
    | some a => simpa using S.expr (lowered a (.inr found))
    | none => dsimp only; split <;> simp [absent]
  · split
    · simp
    · simpa using flags

theorem dynamicTag? (ready : ReadyProps W R el.props) : ∀ node ∈ Lower.dynamicTag? el, P node := by
  intro node found
  unfold Lower.dynamicTag? at found
  split at found
  · split at found
    · exact some.inj found ▸ S.string _
    next d prop =>
      obtain ⟨e, script, rfl⟩ := map_eq_some_iff.mp found
      have isBind : d.name = "bind" := by
        have gives := find?_some prop
        simp [ElementProp.gives, binds] at gives
        exact gives.1
      exact S.expr ((ready d (mem_of_find?_eq_some prop)).exp (by simp [isBind])
        (by simp [isBind]) e script)
    · cases found
  · cases found

/-! ## Outlets -/

theorem camelBinding (ready : d.Ready W R) : (Lower.camelBinding d).Ready W R := by
  unfold Lower.camelBinding
  split
  next s isBind _ =>
    have notOn : d.name ≠ "on" := by simp [isBind]
    split
    next isStatic =>
      refine ⟨fun a member => ?_, fun _ => ready.exp fun isOn => absurd isOn notOn,
        fun isOn => absurd isOn notOn⟩
      cases member
      exact S.static isStatic
    · exact ready
  · exact ready

/-- The name of an outlet and its props are as good as the props that they are taken from. -/
theorem outlet {q : OutletProps} (ready : ReadyProps W R props) (name : P q.name)
    (rest : ReadyProps W R q.props) : P (props.foldl OutletProps.add q).name ∧
      ReadyProps W R (props.foldl OutletProps.add q).props := by
  induction props generalizing q with
  | nil => exact ⟨name, rest⟩
  | cons p props ih =>
    have tail : ReadyProps W R props := fun d member => ready d (mem_cons_of_mem _ member)
    have pushed : ∀ p', (∀ d, p' = .directive d → d.Ready W R) →
        ReadyProps W R (q.props ++ [p']) := by
      intro p' new d member
      rcases mem_append.mp member with old | here
      · exact rest d old
      · exact new d (mem_singleton.mp here).symm
    rw [foldl_cons]
    rcases p with a | d
    · unfold OutletProps.add
      dsimp only
      split
      · exact ih tail (S.string _) rest
      · exact ih tail name (pushed _ (by simp))
    · have here := ready d mem_cons_self
      unfold OutletProps.add
      dsimp only
      split
      next bindsName =>
        split
        next e found =>
          refine ih tail (S.expr ?_) rest
          have isBind : d.name = "bind" := by
            simp only [binds, Bool.and_eq_true, beq_iff_eq] at bindsName
            exact bindsName.1
          exact here.exp (by simp [isBind]) (by simp [isBind]) e found
        · exact ih tail name rest
      · refine ih tail name (pushed _ fun d' same => ?_)
        cases same
        exact S.camelBinding here

theorem outletProps (el props) :
    J (outletProps el props) fun r => ReadyProps W R props → ∀ node ∈ r, P node := by
  unfold Lower.outletProps
  split
  · exact S.pure fun _ => by simp
  · refine S.bind (S.buildProps el props) fun result => ?_
    split
    · exact S.bind (S.error _ _) fun _ => S.pure fun _ holds ready => (holds ready).1
    · exact S.pure fun holds ready => (holds ready).1

/-! ## Conditions and keys -/

theorem branchCondition (d) : J (branchCondition d) fun e => (∀ e ∈ d.exp, W e) → R e := by
  unfold Lower.branchCondition
  split
  next e found =>
    exact S.mono (S.process e (by simp)) fun e' holds exp => holds (exp e (mem_of_script? found))
  · exact S.bind (S.error _ _) fun _ => S.pure fun _ _ => S.made (.word (by simp))

theorem templateKey? (el) : J (templateKey? el) fun key =>
    (∀ d, .directive d ∈ el.props → ∀ e ∈ d.exp, W e) → Properties R P key.toList := by
  unfold Lower.templateKey?
  split
  · exact S.pure fun _ => S.named _ (S.string _)
  next d prop =>
    split
    next e found =>
      refine S.bind (S.process e (by simp)) fun e' => S.pure fun holds exps => S.named _ (S.expr ?_)
      exact holds (exps d (mem_of_find?_eq_some prop) e found)
    · exact S.pure fun _ => by rintro _ ⟨⟩
  · exact S.pure fun _ => by rintro _ ⟨⟩

theorem checkKeyPlacement (nodes) : J (checkKeyPlacement nodes) fun _ => True := by
  induction nodes with
  | nil => exact S.pure trivial
  | cons node nodes ih =>
    unfold Lower.checkKeyPlacement
    split
    · exact S.bind (S.error _ _) fun _ => S.mono ih fun _ _ _ => trivial
    · exact ih

theorem itemKey? (el children) : J (itemKey? el children) fun key =>
    (∀ d, .directive d ∈ el.props → ∀ e ∈ d.exp, W e) → Properties R P key.toList := by
  unfold Lower.itemKey?
  split
  · exact S.bind (S.templateKey? el) fun key => S.bind (S.checkKeyPlacement children) fun _ =>
      S.pure fun _ => id
  · exact S.pure fun _ => by rintro _ ⟨⟩

end Scripting

/-! ## Scripts whatever their scope -/

/-- Properties of scripts as written, of scripts in lowered code and of lowered nodes that go
    together under given options, whatever is in scope. -/
structure PlainScripting (o : Options) (W R : Expression → Prop) (P : RenderNode → Prop) :
    Prop where
  static {s : Snippet} : s.isStatic = true → R (.simple s)
  plain {s : Snippet} : s.content = s.source → R (.simple s)
  compound {c : Compound} :
    (∀ part ∈ c.parts, (∃ code, part = .raw code) ∨ (∃ h, part = .helper h) ∨
      ∃ e, part = .expr e) →
    (∀ e, .expr e ∈ c.parts → R e) → R (.compound c)
  written {e : Expression} : W e → R e
  read {s : Snippet} {known : String → Bool} {mode : Script.Mode} {e : Expression} :
    W (.simple s) → Script.process s known o.qualify mode = .ok e → R e
  unread {s : Snippet} : W (.simple s) → R (.simple (s.withLevel .dynamic))
  loop {e : Expression} {head : LoopHead} : W e → LoopHead.read? e = some head → W head.source
  /-- A handler is not read before its rule reads it, or may be read again. -/
  handlers {name : String} {rule : DirectiveRule} :
    o.rule? name = some rule → rule.handles → name = "on" ∨ ∀ e, R e → W e
  assembles : Assembles R P
  expr {e : Expression} : R e → P (.expr e)
  call {callee : Helper} {args : List RenderNode} : (∀ arg ∈ args, P arg) → P (.call callee args)

/-- A directive before its scripts are read. -/
structure Directive.Fresh (W R : Expression → Prop) (d : Directive) : Prop where
  arg : ∀ a ∈ d.arg, a.isStatic = true ∨ W a
  exp : ∀ e ∈ d.exp, W e
  loop : ∀ head ∈ d.loop, R head.source

structure Directive.Settled (W R : Expression → Prop) (hasFor : Bool) (d : Directive) : Prop where
  arg : ∀ a ∈ d.arg, R a
  exp : ∀ e ∈ d.exp, R e
  loop : ∀ head ∈ d.loop, R head.source
  argWaits : d.argWaits hasFor = true → ∀ a ∈ d.arg, a.isStatic = true ∨ W a
  waits : d.waits = true → ∀ e ∈ d.exp, W e

section

variable {W R : Expression → Prop} (settled : d.Settled W R hasFor)
include settled

/-- What is read, but for what waits, is ready to be lowered. -/
theorem Directive.Settled.ready : d.Ready W R :=
  ⟨settled.arg, fun _ _ => settled.exp, fun isOn a hasArg =>
    settled.waits (by simp [Directive.waits, isOn, mem_def.mp hasArg])⟩

theorem Directive.Settled.lowered : Scripting.Lowered R d :=
  fun e inside => inside.elim (settled.exp e) (settled.arg e)

end

namespace PlainScripting

open Lower

variable {W R : Expression → Prop} (S : PlainScripting o W R P)
include S

theorem snippet (content isStatic span) : R (.snippet content isStatic span) :=
  S.plain rfl

theorem script (code) : P (.script code) :=
  S.expr (S.plain rfl)

theorem string (content) : P (.string content) :=
  S.expr (S.plain rfl)

theorem constant (code level) : P (.constant code level) :=
  S.expr (S.plain rfl)

theorem of_fresh (fresh : e.isStatic = true ∨ W e) : R e := by
  rcases fresh with isStatic | isWritten
  · cases e with
    | simple s => exact S.static isStatic
    | compound => cases isStatic
  · exact S.written isWritten

theorem around
    (pieces : ∀ part ∈ parts, part.Glue ∨ (∃ code, part = .raw code) ∨ ∃ e, part = .expr e)
    (inner : ∀ e, .expr e ∈ parts → R e) : R (.around parts origin) := by
  refine S.compound (fun part member => ?_) inner
  rcases pieces part member with glue | raw | expr
  · cases glue <;> simp
  · exact .inl raw
  · exact .inr (.inr expr)

theorem process (e) (mode : Script.Mode) : Steady o (process e mode) fun e' => W e → R e' := by
  cases e with
  | compound c => exact .pure S.written
  | simple s =>
    refine Steady.get.bind fun c _ => Steady.read.bind fun o' same => ?_
    subst same
    split
    next run => exact .pure fun holds => S.read holds run
    · exact (Steady.report _).bind fun _ _ => .pure S.unread

theorem handler (e) : Steady o (handler e) fun e' => W e → R e' := by
  unfold Lower.handler
  split
  · exact S.process e _
  · have bound : Steady o (bindName "$event" .handler) fun _ => True :=
      .modify fun _ => ⟨rfl, rfl, rfl⟩
    have body : Steady o (inScope do
        bindName "$event" .handler
        Lower.process e .statements) fun e' => W e → R e' :=
      .inScope (bound.bind fun _ _ => S.process e _)
    refine body.bind fun body read => .pure fun holds => S.around ?_ ?_
    · split <;> simp
    · split <;> simpa using read holds

theorem scripting : Scripting o (Steady o) W W R P where
  toLogic := Steady.logic
  static := S.static
  made _ := S.plain rfl
  around pieces := S.around fun part member => (pieces part member).imp_right .inr
  process e _ _ := S.process e _
  handler := S.handler
  written := id
  reread given handles notOn holds := (S.handlers given handles).resolve_left notOn _ holds
  bare _ := S.written
  assembles := S.assembles
  expr := S.expr
  call _ := S.call

theorem steady_process (holds : W e) (mode : Script.Mode) : Steady o (Lower.process e mode) R :=
  (S.process e mode).mono fun _ read => read holds

theorem of_readsArg {arg arg'} (fresh : ∀ a ∈ arg, a.isStatic = true ∨ W a)
    (reads : Option.Rel (Expression.ReadsArg fun e e' => W e → R e') arg arg') :
    ∀ a ∈ arg', R a := by
  intro a' member
  obtain ⟨a, before, read⟩ := exists_of_mem_rel reads member
  cases read with
  | static => exact S.of_fresh (fresh _ before)
  | dynamic isDynamic read => exact read ((fresh a before).resolve_left (by simp [isDynamic]))

theorem settled_of_readsScripts {d' : Directive} (fresh : d.Fresh W R) (named : d'.name = d.name)
    (reads : d.ReadsScripts (fun e e' => W e → R e') hasFor d') : d'.Settled W R hasFor := by
  refine ⟨?_, ?_, reads.loop ▸ fresh.loop, ?_, ?_⟩
  · cases waits : d.argWaits hasFor with
    | true => exact fun a member => S.of_fresh (fresh.arg a (reads.keptArg waits ▸ member))
    | false => exact S.of_readsArg fresh.arg (reads.arg waits)
  · intro e' member
    cases waits : d.waits with
    | true => exact S.written (fresh.exp e' (reads.keptExp waits ▸ member))
    | false =>
      obtain ⟨e, before, read⟩ := exists_of_mem_rel (reads.exp waits) member
      exact read (fresh.exp e before)
  · intro waits
    rw [argWaits, named] at waits
    exact reads.keptArg waits ▸ fresh.arg
  · intro waits
    rw [Directive.waits, named, reads.isSome] at waits
    exact reads.keptExp waits ▸ fresh.exp

theorem steady_processProps (fresh : ∀ d, .directive d ∈ props → d.Fresh W R) :
    Steady o (processProps hasFor props) (PropsChange (fun _ d' => d'.Settled W R hasFor) props) :=
  (Steady.logic.processProps (S.process · _) hasFor props).mono fun _ reads =>
    changes_imp reads fun d member _ => S.settled_of_readsScripts (fresh d member)

theorem steady_lowerProps (ready : ReadyProps W R el.props) :
    Steady o (lowerProps el) fun r => (∀ node ∈ r.props, P node) ∧
      ∀ d ∈ r.directives, .directive d.directive ∈ el.props ∧ Scripting.Lowered R d.directive :=
  (S.scripting.lowerProps el).mono fun _ holds => holds ready

theorem steady_outletProps (ready : ReadyProps W R props) (el) :
    Steady o (outletProps el props) fun r => ∀ node ∈ r, P node :=
  (S.scripting.outletProps el props).mono fun _ holds => holds ready

theorem steady_branchCondition (fresh : d.Fresh W R) : Steady o (branchCondition d) R :=
  (S.scripting.branchCondition d).mono fun _ holds => holds fresh.exp

theorem steady_itemKey? (fresh : ∀ d, .directive d ∈ el.props → d.Fresh W R) (children) :
    Steady o (itemKey? el children) fun key =>
      ∀ p ∈ key, R p.key ∧ P p.value :=
  (S.scripting.itemKey? el children).mono fun _ holds p member =>
    holds (fun d inside => (fresh d inside).exp) p (mem_toList.mpr member)

theorem steady_loopHead? (exp : ∀ e ∈ d.exp, W e) :
    Steady o (loopHead? d) fun head? => ∀ head ∈ head?, R head.source := by
  unfold loopHead?
  split
  · exact (Steady.error _ _).bind fun _ _ => .pure (by simp)
  next e script =>
    split
    · exact (Steady.error _ _).bind fun _ _ => .pure (by simp)
    next head found =>
      have isWritten : W head.source := S.loop (exp e (mem_of_script? script)) found
      refine (S.steady_process isWritten _).bind fun source holds => ?_
      refine .pure ?_
      rintro _ ⟨⟩
      exact holds

omit S in
theorem steady_bindNames (source names) : Steady o (bindNames source names) fun _ => True := by
  induction names with
  | nil => exact .pure trivial
  | cons name names ih =>
    have first : Steady o (bindName name source) fun _ => True := .modify fun _ => ⟨rfl, rfl, rfl⟩
    exact first.bind fun _ _ => ih

omit S in
theorem steady_bindingNames (e) : Steady o (bindingNames e) fun _ => True := by
  unfold bindingNames
  split
  · exact .pure trivial
  · exact (Steady.report _).bind fun _ _ => .pure trivial

omit S in
theorem steady_processParams (e) : Steady o (processParams e) fun _ => True := by
  cases e with
  | compound c => exact .pure trivial
  | simple s =>
    refine Steady.get.bind fun c _ => ?_
    refine Steady.read.bind fun o' _ => ?_
    split
    · exact .pure trivial
    · exact .pure trivial

omit S in
theorem steady_enterLoop (head) :
    Steady o (enterLoop head) fun head' => head'.source = head.source := by
  have bound (part : Option Expression) : Steady o (bindAlias part) fun _ => True := by
    cases part with
    | none => exact .pure trivial
    | some e => exact (steady_bindingNames e).bind fun names _ => steady_bindNames _ names
  have processed (part : Option Expression) : Steady o (processAlias part) fun _ => True := by
    cases part with
    | none => exact .pure trivial
    | some e => exact (steady_processParams e).map fun _ _ => trivial
  exact (bound _).bind fun _ _ => (bound _).bind fun _ _ => (bound _).bind fun _ _ =>
    (processed _).bind fun _ _ => (processed _).bind fun _ _ => (processed _).bind fun _ _ =>
      .pure rfl

/-- A loop is found on a slot template that has a loop only. -/
theorem steady_slotLoop? (settled : ∀ d, .directive d ∈ props → d.Settled W R hasFor)
    (holds : ∀ head ∈ found, R head.source) :
    Steady o (slotLoop? found props) fun head? => (∀ head ∈ head?, R head.source) ∧
      (head?.isSome = true → found.isSome = true ∨ ∃ d, .directive d ∈ props ∧ d.name = "for") := by
  induction props generalizing found with
  | nil => exact .pure ⟨holds, .inl⟩
  | cons p props ih =>
    have rest (found : Option LoopHead) (holds : ∀ head ∈ found, R head.source) :=
      ih (fun d member => settled d (mem_cons_of_mem p member)) holds
    have later {head? : Option LoopHead} (origin : head?.isSome = true → found.isSome = true ∨
        ∃ d, .directive d ∈ props ∧ d.name = "for") (isSome : head?.isSome = true) :
        found.isSome = true ∨ ∃ d, .directive d ∈ p :: props ∧ d.name = "for" :=
      (origin isSome).imp_right fun found =>
        found.imp fun d is => ⟨mem_cons_of_mem p is.1, is.2⟩
    rcases p with a | d
    · exact (rest _ holds).mono fun head? kept => ⟨kept.1, later kept.2⟩
    · rw [slotLoop?]
      split
      next isFor =>
        have here := settled d mem_cons_self
        have named : d.name = "for" := by simpa using isFor
        refine (S.steady_loopHead? (here.waits (by simp [waits, named]))).bind
          fun head? holds => ?_
        split
        next head =>
          refine (rest (some head) ?_).mono fun head? kept =>
            ⟨kept.1, fun _ => .inr ⟨d, mem_cons_self, named⟩⟩
          rintro _ ⟨⟩
          exact holds head rfl
        · exact .pure ⟨by simp, by simp⟩
      · exact (rest _ holds).mono fun head? kept => ⟨kept.1, later kept.2⟩

/-- The loop of a slot template is kept on its directive, and the name of the slot is read. -/
theorem steady_keepSlotLoop (settled : ∀ d, .directive d ∈ props → d.Settled W R true)
    {head : LoopHead} (source : R head.source) :
    Steady o (keepSlotLoop head props) (PropsChange (fun d d' =>
      d'.Settled W R false ∧ (d.name = "for" → d'.loop.isSome = true)) props) := by
  refine (Steady.logic.keepSlotLoop (S.process · _) head props).mono fun _ keeps => ?_
  refine changes_imp keeps fun d member d' named keeps => ?_
  have here := settled d member
  refine ⟨⟨?_, keeps.exp ▸ here.exp, ?_, ?_, ?_⟩, fun isFor => ?_⟩
  · by_cases isSlot : d.name = "slot"
    · exact S.of_readsArg (here.argWaits (by simp [argWaits, isSlot])) (keeps.arg isSlot)
    · exact keeps.keptArg isSlot ▸ here.arg
  · rw [keeps.loop]
    split
    · rintro _ ⟨⟩
      exact source
    · exact here.loop
  · intro waits
    have isFor : d.name = "for" := by simpa [argWaits, named] using waits
    exact keeps.keptArg (by simp [isFor]) ▸ here.argWaits (by simp [argWaits, isFor])
  · intro waits
    rw [Directive.waits, named, keeps.isSome] at waits
    exact keeps.exp ▸ here.waits waits
  · rw [keeps.loop, if_pos isFor]
    rfl

theorem bindStyle (settled : ∀ d, .directive d ∈ props → d.Settled W R hasFor) :
    ∀ d, .directive d ∈ props.map Stencil.bindStyle → d.Settled W R hasFor := by
  intro d member
  obtain ⟨p, before, same⟩ := mem_map.mp member
  unfold Stencil.bindStyle at same
  split at same
  · split at same
    · cases same
      refine ⟨?_, ?_, by simp, by simp [argWaits], by simp [waits]⟩
      · rintro _ ⟨⟩
        exact S.static rfl
      · rintro _ ⟨⟩
        exact S.plain rfl
    · cases same
  · cases same
    exact settled _ before

end PlainScripting

/-! ## Rules for nodes -/

namespace Lower.Logic

variable {o : Options} {J : {α : Type} → Lower α → (α → Prop) → Prop} (L : Logic o @J)
  {I : Element → Prop} (styled : ∀ el, I el → I { el with props := el.props.map bindStyle })
  (hasChildren : Bool) (r : Ruled)
include L styled

theorem applyNodeRule (rule) :
    J (applyNodeRule hasChildren r rule) fun r' => I r.element → I r'.element ∧
      r'.element.hasSideEffects = r.element.hasSideEffects ∧
      (r'.removed = false → rule = .sideEffects → r.element.hasSideEffects = false) := by
  cases rule with
  | style => exact L.pure fun before => ⟨styled _ before, rfl, by simp⟩
  | dropComments => exact L.pure fun before => ⟨before, rfl, by simp⟩
  | stripChildren =>
    rw [Lower.applyNodeRule]
    split
    · exact L.bind (L.error _ _) fun _ => L.pure fun _ before => ⟨before, rfl, by simp⟩
    · exact L.pure fun before => ⟨before, rfl, by simp⟩
  | sideEffects =>
    rw [Lower.applyNodeRule]
    split
    · exact L.bind (L.error _ _) fun _ => L.pure fun _ before => ⟨before, rfl, by simp⟩
    next without => exact L.pure fun before => ⟨before, rfl, fun _ _ => by simpa using without⟩
  | dropNext name =>
    refine L.pure fun before => ?_
    split <;> exact ⟨before, rfl, by simp⟩

/-- Rules keep what the binding of static styles keeps. An element that they leave in the template
    has no side effects if they look for them. -/
theorem applyNodeRules (rules) :
    J (applyNodeRules hasChildren r rules) fun r' => I r.element → I r'.element ∧
      r'.element.hasSideEffects = r.element.hasSideEffects ∧
      (r'.removed = false → .sideEffects ∈ rules → r.element.hasSideEffects = false) := by
  induction rules generalizing r with
  | nil => exact L.pure fun before => ⟨before, rfl, by simp⟩
  | cons rule rules ih =>
    refine L.bind (L.applyNodeRule styled hasChildren r rule) fun r' => ?_
    split
    next removed =>
      refine L.pure fun first before => ?_
      obtain ⟨between, same, -⟩ := first before
      refine ⟨between, same, fun stays => ?_⟩
      rw [removed] at stays
      cases stays
    next stays =>
      refine L.mono (ih r') fun r'' rest first before => ?_
      obtain ⟨between, same, harmless⟩ := first before
      obtain ⟨after, same', harmless'⟩ := rest between
      refine ⟨after, same'.trans same, fun kept member => ?_⟩
      rcases mem_cons.mp member with here | later
      · exact harmless (by simpa using stays) here.symm
      · exact same ▸ harmless' kept later

end Lower.Logic

end Stencil
