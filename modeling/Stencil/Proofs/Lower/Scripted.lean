import Stencil.Proofs.Lower.Resolving
import Stencil.Proofs.Script.Rewriting

/-! # Properties are made of script

What attributes and directives are lowered to consists of scripts, of helpers, and of objects,
arrays and calls of these. No text of the template gets into it, and no node is created in it.
-/

namespace Stencil

open List RenderNode

/-- A text that shows anything but text space. -/
def TextNode.shown (t : TextNode) : List TextNode :=
  if t.isSpace then [] else [t]

mutual
def Expression.texts : Expression → List TextNode
  | .simple _ => []
  | .compound c => c.texts
def Compound.texts : Compound → List TextNode
  | ⟨parts, _, _, _⟩ => Part.textsAll parts
def Part.texts : Part → List TextNode
  | .text t => t.shown
  | .expr e => e.texts
  | .interpolation content _ => content.texts
  | .raw _ | .helper _ => []
def Part.textsAll : List Part → List TextNode
  | [] => []
  | part :: parts => part.texts ++ Part.textsAll parts
end

@[simp] theorem Part.textsAll_eq (parts) : Part.textsAll parts = parts.flatMap Part.texts := by
  induction parts with
  | nil => rfl
  | cons part parts ih => rw [Part.textsAll, ih, flatMap_cons]

/-- The texts that stand in a node itself. -/
def RenderNode.ownTexts : RenderNode → List TextNode
  | .text t => t.shown
  | .expr e => e.texts
  | .interpolation content _ => content.texts
  | .object properties => properties.flatMap (·.key.texts)
  | _ => []

/-- The texts in the code of a render function. -/
def RenderNode.texts (node : RenderNode) : List TextNode :=
  node.collect ownTexts

namespace RenderNode

theorem texts_eq (node : RenderNode) :
    node.texts = node.ownTexts ++ node.parts.flatMap texts :=
  collect_eq _ node

@[simp] theorem texts_vnode (v) : (RenderNode.vnode v).texts = v.parts.flatMap texts :=
  texts_eq _

@[simp] theorem texts_call (callee args) :
    (RenderNode.call callee args).texts = args.flatMap texts :=
  texts_eq _

@[simp] theorem texts_object (properties) : (RenderNode.object properties).texts =
      properties.flatMap (·.key.texts) ++ properties.flatMap (·.value.texts) := by
  rw [texts_eq]
  simp [ownTexts, parts, flatMap_map]

@[simp] theorem texts_array (elements) :
    (RenderNode.array elements).texts = elements.flatMap texts :=
  texts_eq _

@[simp] theorem texts_function (params returns newline isSlot) :
    (RenderNode.function params returns newline isSlot).texts = returns.toList.flatMap texts :=
  texts_eq _

@[simp] theorem texts_conditional (test consequent alternate newline) :
    (RenderNode.conditional test consequent alternate newline).texts =
      test.texts ++ (consequent.texts ++ alternate.texts) := by
  rw [texts_eq]
  simp [ownTexts, parts]

@[simp] theorem texts_textCall (t) :
    (RenderNode.textCall t).texts = t.content.toList.flatMap texts :=
  texts_eq _

@[simp] theorem texts_expr (e) : (expr e).texts = e.texts := by
  rw [texts_eq]
  simp [ownTexts, parts]

@[simp] theorem texts_text (t) : (RenderNode.text t).texts = t.shown := by
  rw [texts_eq]
  simp [ownTexts, parts]

@[simp] theorem texts_interpolation (content span) :
    (RenderNode.interpolation content span).texts = content.texts := by
  rw [texts_eq]
  simp [ownTexts, parts]

@[simp] theorem texts_comment (c) : (comment c).texts = [] :=
  texts_eq _

@[simp] theorem texts_helper (h) : (RenderNode.helper h).texts = [] :=
  texts_eq _

@[simp] theorem texts_constant (code level) : (RenderNode.constant code level).texts = [] := by
  rw [constant, texts_expr, Expression.texts]

@[simp] theorem texts_script (code) : (RenderNode.script code).texts = [] := by
  rw [script, texts_expr, Expression.snippet, Expression.texts]

@[simp] theorem texts_string (content) : (RenderNode.string content).texts = [] := by
  rw [string, texts_expr, Expression.snippet, Expression.texts]

@[simp] theorem texts_placeholder : RenderNode.placeholder.texts = [] := by
  simp [placeholder]

end RenderNode

/-- An expression that holds no text. -/
def Expression.Scripted (e : Expression) : Prop :=
  e.texts = []

def RenderNode.Scripted (node : RenderNode) : Prop :=
  node.texts = []

theorem Expression.Scripted.texts {e : Expression} (scripted : e.Scripted) : e.texts = [] :=
  scripted

theorem RenderNode.Scripted.texts {node : RenderNode} (scripted : node.Scripted) :
    node.texts = [] :=
  scripted

theorem Expression.Scripted.simple : (Expression.simple s).Scripted := by
  rw [Scripted, Expression.texts]

structure Directive.Scripted (d : Directive) : Prop where
  arg : ∀ a ∈ d.arg, a.Scripted
  exp : ∀ e ∈ d.exp, e.Scripted
  loop : ∀ head ∈ d.loop, head.source.Scripted

def ScriptedDirectives (props : List ElementProp) : Prop :=
  ∀ d, .directive d ∈ props → d.Scripted

theorem Expression.Written.scripted {e : Expression} (written : e.Written) : e.Scripted := by
  obtain ⟨content, span, rfl⟩ := written
  exact .simple

theorem Directive.Written.scripted {d : Directive} (written : d.Written) : d.Scripted := by
  refine ⟨fun a found => ?_, fun e found => (written.exp e found).scripted, by simp [written.loop]⟩
  rcases written.arg a found with static | isWritten
  · cases a with
    | simple => exact .simple
    | compound => cases static
  · exact isWritten.scripted

variable {el : Element}

theorem Element.Written.scripted (written : el.Written) : ScriptedDirectives el.props := by
  intro d member
  cases written.props _ member with
  | directive isWritten => exact isWritten.scripted

theorem texts_scriptedAll {nodes : List RenderNode} (scripted : ∀ node ∈ nodes, node.Scripted) :
    nodes.flatMap texts = [] :=
  flatMap_eq_nil_iff.mpr scripted

theorem RenderNode.Scripted.call {callee : Helper} (scripted : ∀ arg ∈ args, arg.Scripted) :
    (RenderNode.call callee args).Scripted := by
  rw [Scripted, texts_call, texts_scriptedAll scripted]

theorem assembles_scripted : Assembles Expression.Scripted RenderNode.Scripted where
  object := by
    intro ps
    simp only [RenderNode.Scripted, Expression.Scripted, texts_object,
      append_eq_nil_iff, flatMap_eq_nil_iff, forall₂_and]
  array := by
    intro nodes
    rw [RenderNode.Scripted, texts_array, flatMap_eq_nil_iff]
    rfl
  call holds := .call (by simpa using holds)
  merge := .call
  args holds := by
    rw [RenderNode.Scripted, texts_call, flatMap_eq_nil_iff] at holds
    exact holds
  first holds new := by
    rw [RenderNode.Scripted, texts_call, flatMap_eq_nil_iff] at holds
    exact .call (forall_mem_cons.mpr ⟨new, (forall_mem_cons.mp holds).2⟩)

theorem Expression.Scripted.compound {c : Compound}
    (pieces : ∀ part ∈ c.parts, (∃ code, part = .raw code) ∨ (∃ h, part = .helper h) ∨
      ∃ e, part = .expr e)
    (inner : ∀ e, .expr e ∈ c.parts → e.Scripted) : (Expression.compound c).Scripted := by
  obtain ⟨parts, level, source, span⟩ := c
  rw [Scripted, Expression.texts, Compound.texts, Part.textsAll_eq, flatMap_eq_nil_iff]
  intro part member
  rcases pieces part member with ⟨code, rfl⟩ | ⟨h, rfl⟩ | ⟨e, rfl⟩
  · rw [Part.texts]
  · rw [Part.texts]
  · rw [Part.texts, inner e member]

theorem Script.scripted_process {known : String → Bool}
    (run : process s known qualify mode = .ok e) : e.Scripted := by
  unfold process at run
  split at run
  · exact Except.ok.inj run ▸ .simple
  · cases used : uses mode s.content with
    | error fault => simp [used, bind, Except.bind] at run
    | ok u =>
      simp only [used, bind, Except.bind] at run
      split at run
      · exact Except.ok.inj run ▸ .simple
      · exact Except.ok.inj run ▸ .simple
      · split at run
        · exact Except.ok.inj run ▸ .simple
        · rw [← Except.ok.inj run, Expression.Scripted, Expression.texts, Compound.texts,
            Part.textsAll_eq, flatMap_eq_nil_iff, splice_eq]
          intro part member
          obtain ⟨fragment, _, inside⟩ := mem_flatMap.mp member
          cases fragment with
          | text cs =>
            rw [mem_singleton.mp inside, Part.texts]
          | name spot site =>
            simp only [Fragment.parts, mem_append, mem_ite_nil_right, mem_singleton] at inside
            rcases inside with ⟨_, rfl⟩ | rfl
            · rw [Part.texts]
            · rw [Part.texts, Expression.texts]

theorem scripting_scripted (o) :
    PlainScripting o Expression.Scripted Expression.Scripted RenderNode.Scripted where
  static _ := .simple
  plain _ := .simple
  compound pieces inner := .compound pieces inner
  written := id
  read _ run := Script.scripted_process run
  unread _ := .simple
  loop _ read := (Lower.written_loopHead read).1.scripted
  handlers _ _ := .inr fun _ => id
  assembles := assembles_scripted
  expr holds := (texts_expr _).trans holds
  call := .call

namespace Directive

variable {d : Directive}

theorem Scripted.fresh (scripted : d.Scripted) : d.Fresh Expression.Scripted Expression.Scripted :=
  ⟨fun a member => .inr (scripted.arg a member), scripted.exp, scripted.loop⟩

theorem Scripted.settled (scripted : d.Scripted) (hasFor) :
    d.Settled Expression.Scripted Expression.Scripted hasFor :=
  ⟨scripted.arg, scripted.exp, scripted.loop, fun _ a member => .inr (scripted.arg a member),
    fun _ => scripted.exp⟩

theorem Settled.scripted (settled : d.Settled Expression.Scripted Expression.Scripted hasFor) :
    d.Scripted :=
  ⟨settled.arg, settled.exp, settled.loop⟩

end Directive

theorem ScriptedDirectives.settled (scripted : ScriptedDirectives props) (hasFor) :
    ∀ d, .directive d ∈ props →
      d.Settled Expression.Scripted Expression.Scripted hasFor :=
  fun d member => (scripted d member).settled hasFor

theorem ScriptedDirectives.ready (scripted : ScriptedDirectives props) :
    ReadyProps Expression.Scripted Expression.Scripted props :=
  fun d member => (scripted.settled false d member).ready

namespace Lower

/-! ## The properties of an element -/

theorem gives_lowerProps (scripted : ScriptedDirectives el.props) :
    Gives (lowerProps el) fun r =>
      (∀ node ∈ r.props, node.Scripted) ∧ ∀ d ∈ r.directives, d.directive.Scripted := by
  have lowered : Gives (lowerProps el) fun r => (∀ node ∈ r.props, node.Scripted) ∧
      ∀ d ∈ r.directives, .directive d.directive ∈ el.props ∧ _ :=
    .of_steady fun o => (scripting_scripted o).steady_lowerProps scripted.ready
  exact lowered.mono fun r holds =>
    ⟨holds.1, fun d member => scripted _ (holds.2 d member).1⟩

theorem gives_runtimeArguments {r : RuntimeDirective} (scripted : r.directive.Scripted) :
    Gives (runtimeArguments r) RenderNode.Scripted := by
  obtain ⟨dir, source⟩ := r
  have arguments {first : RenderNode} (holds : first.Scripted) : (dir.arguments first).Scripted :=
    (scripting_scripted {}).scripting.arguments (scripted.settled false).lowered holds
  cases source with
  | helper h => exact fun o c => arguments (texts_helper h)
  | resolve => exact fun o c => arguments (texts_script _)

theorem gives_runtimeArgumentList (scripted : ∀ r ∈ rs, r.directive.Scripted) :
    Gives (runtimeArgumentList rs) fun nodes => ∀ node ∈ nodes, node.Scripted := by
  induction rs with
  | nil => exact .pure (by simp)
  | cons r rs ih =>
    obtain ⟨head, tail⟩ := forall_mem_cons.mp scripted
    refine (gives_runtimeArguments head).bind fun first holds => ?_
    exact (ih tail).bind fun rest others => .pure (forall_mem_cons.mpr ⟨holds, others⟩)

theorem gives_resolveTag (scripted : ScriptedDirectives el.props) :
    Gives (resolveTag el) fun tag => ∀ node ∈ tag.parts, node.Scripted := by
  unfold resolveTag
  split
  · exact .pure (by rintro _ ⟨⟩)
  · split
    next node found =>
      have holds : node.Scripted :=
        (scripting_scripted {}).scripting.dynamicTag? scripted.ready node found
      refine .pure fun part member => ?_
      obtain rfl := mem_singleton.mp member
      exact .call (by simpa using holds)
    · exact (Gives.trivial _).bind fun _ _ => .pure (by rintro _ ⟨⟩)

/-! ## Directives on their way -/

theorem gives_processProps (scripted : ScriptedDirectives props) (hasFor) :
    Gives (processProps hasFor props)
      (PropsChange (fun _ d' => d'.Settled Expression.Scripted Expression.Scripted hasFor) props) :=
  .of_steady fun o => (scripting_scripted o).steady_processProps fun d member =>
    (scripted d member).fresh

theorem gives_branchCondition (scripted : d.Scripted) :
    Gives (branchCondition d) Expression.Scripted :=
  .of_steady fun o => (scripting_scripted o).steady_branchCondition scripted.fresh

theorem gives_enterLoop (head) : Gives (enterLoop head) fun head' => head'.source = head.source :=
  .of_steady fun _ => PlainScripting.steady_enterLoop head

theorem gives_slotLoop? (scripted : ScriptedDirectives props) :
    Gives (slotLoop? none props) fun head? => ∀ head ∈ head?, head.source.Scripted := by
  have found : Gives (slotLoop? none props) fun head? =>
      (∀ head ∈ head?, head.source.Scripted) ∧ _ :=
    .of_steady fun o => (scripting_scripted o).steady_slotLoop? (scripted.settled false) (by simp)
  exact found.mono fun _ holds => holds.1

theorem gives_keepSlotLoop (scripted : ScriptedDirectives props) {head : LoopHead}
    (source : head.source.Scripted) :
    Gives (keepSlotLoop head props) (PropsChange (fun d d' =>
      d'.Settled Expression.Scripted Expression.Scripted false ∧
        (d.name = "for" → d'.loop.isSome = true)) props) :=
  .of_steady fun o => (scripting_scripted o).steady_keepSlotLoop (scripted.settled true) source

end Lower

end Stencil
