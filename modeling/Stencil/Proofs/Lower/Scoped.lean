import Stencil.Dom.Style
import Stencil.Proofs.Lower.Properties
import Stencil.Proofs.Render.Expansion

/-! # Scripts in lowered code

Every script of a template is analysed in the scope that the template has there, and written into
the code below the functions that bind the names of loops and slots. A policy says what these two
have to do with each other.
-/

namespace Stencil

open RenderNode Script

/-- What is asked of a script, given the names that the functions around it bind, the names that
    were in scope when it was analysed, and what it uses. -/
abbrev ScriptRule := List String → (String → Bool) → Script.Uses → Prop

/-- What is asked of the scripts in lowered code. -/
structure Policy where
  /-- Names of the render context are qualified. -/
  qualify : Bool
  /-- Anything may stand for a script that cannot be read. -/
  raw : Prop
  /-- Constants may be referred to. -/
  refs : Prop
  /-- Handlers may stand as they are written. -/
  unread : Prop
  script : ScriptRule
  /-- Asked of the parameters of a function that binds the names given first. -/
  params : List String → ScriptRule

structure Policy.Le (P Q : Policy) : Prop where
  qualify : P.qualify = Q.qualify
  raw : P.raw → Q.raw
  refs : P.refs → Q.refs
  unread : P.unread → Q.unread
  script {bound known u} : P.script bound known u → Q.script bound known u
  params {own bound known u} : P.params own bound known u → Q.params own bound known u

/-- Code that no template has: words, numbers, lists and objects that lowering writes itself. -/
inductive Script.Made : Constancy → String → Prop
  | word {code} :
      code ∈ ["true", "undefined", "null", "void 0", "\x7b\x7d", "() => \x7b\x7d", "_ctx.$slots",
        "$slots"] → Made .dynamic code
  | directive (name : String) : Made .dynamic (assetVariable name "directive")
  | modifiers (names : List String) :
      Made .dynamic ("[" ++ ",".intercalate (names.map Text.quote) ++ "]")
  | key (number : Nat) : Made .hoistable (toString number)
  | modelModifiers (names : List String) : Made .hoistable (Lower.modelModifiers names)
  | stability (s : SlotStability) : Made .hoistable s.code
  | flag : Made .stringifiable "true"
  | style (css : String) : Made .stringifiable (Dom.styleObject css)

/-- What lowering writes around scripts to make keys and handlers of them. -/
inductive Part.Glue : Part → Prop
  | word {code} :
      code ∈ ["(", ")", ") || \"\"", "\"onUpdate:\" + ", " + \"Modifiers\"", "$event => ((",
        ") = $event)"] → Glue (.raw code)
  | mark {mark} : mark ∈ [".", "^"] → Glue (.raw ("\"" ++ mark ++ "\" + ("))
  | rename (event : String) :
      Glue (.raw (") === \"onClick\" ? " ++ Text.quote event ++ " : ("))
  | options {names : List String} (known : ∀ name ∈ names, Dom.isListenerOption name = true) :
      Glue (.raw (" + \"" ++ String.join (names.map capitalize) ++ "\""))
  | helper (h : Helper) : Glue (.helper h)

/-- What a run of text consists of. -/
inductive Part.InRun : Part → Prop
  | plus : InRun (.raw " + ")
  | text (t : TextNode) : InRun (.text t)
  | interpolation (content : Expression) (span : Span) : InRun (.interpolation content span)

/-- A script that has been read before is read once more, below functions that bind `bound`. -/
inductive Expression.Rereads (P : Policy) (bound : List String) : Expression → Expression → Prop
  | intro {s known mode e u} :
      mode ≠ .params → uses mode s.content = .ok u →
      process s known P.qualify mode = .ok e → P.script bound known u →
      Rereads P bound (.simple s) e

/-- An expression of lowered code below functions that bind the names `bound`. -/
inductive Expression.Emitted (P : Policy) : List String → Expression → Prop
  | static {bound s} : s.isStatic = true → Emitted P bound (.simple s)
  | made {bound level code span} :
      Script.Made level code →
      Emitted P bound (.simple ((Snippet.new code false span).withLevel level))
  | blank {bound source span} :
      isBlankString source = true → Emitted P bound (.snippet source false span)
  | raw {bound e} :
      P.raw → e.renderLevel = .dynamic → Emitted P bound e
  | read {bound source span known mode e u} :
      mode ≠ .params → isBlankString source = false → uses mode source = .ok u →
      process (Snippet.new source false span) known P.qualify mode = .ok e →
      P.script bound known u → Emitted P bound e
  /-- The rule for a directive takes a handler as it is written. -/
  | unread {bound source span known} :
      P.unread → (∀ mode u, uses mode source = .ok u → P.script bound known u) →
      Emitted P bound (.snippet source false span)
  | again {bound e e'} :
      Emitted P bound e → e.Rereads P bound e' → Emitted P bound e'
  | around {bound parts e} :
      (∀ part ∈ parts, part.Glue ∨ ∃ inner, part = .expr inner) →
      (∀ inner, .expr inner ∈ parts → Emitted P bound inner) → Emitted P bound (.around parts e)
  /-- The body of an inline handler has a parameter of its own. -/
  | handler {bound before after body e} :
      (before, after) ∈ [("$event => \x7b", "\x7d"), ("$event => (", ")")] →
      Emitted P ("$event" :: bound) body →
      Emitted P bound (.around [.raw before, .expr body, .raw after] e)
  /-- What has been read before is made the body of a handler. -/
  | rehandled {bound before after body inner e} :
      (before, after) ∈ [("$event => \x7b", "\x7d"), ("$event => (", ")")] →
      Emitted P bound inner → body = inner ∨ inner.Rereads P ("$event" :: bound) body →
      Emitted P bound (.around [.raw before, .expr body, .raw after] e)
  | run {bound c} :
      (∀ part ∈ c.parts, part.InRun) →
      (∀ content span, .interpolation content span ∈ c.parts → Emitted P bound content) →
      Emitted P bound (.compound c)

/-- The code of a parameter as it is written. That of a slot has no blanks around it. -/
def paramText (isSlot : Bool) (code : String) : String :=
  if isSlot then trimmed code else code

/-- Parameters of a function that binds the names `own` below functions that bind the names
    `bound`, and the names that these parameters bind. A place that a loop leaves empty is filled
    and binds nothing. -/
inductive Params (P : Policy) (isSlot : Bool) (own bound : List String) :
    List String → List String → Prop
  | nil : Params P isSlot own bound [] []
  | filler {text names texts} :
      text ∈ ["_", "__"] → Params P isSlot own bound names texts →
      Params P isSlot own bound names (text :: texts)
  | read {source span known e u new names texts} :
      bindingNames source = .ok new → uses .params source = .ok u →
      process (Snippet.new source false span) known P.qualify .params = .ok e →
      P.params own bound known u → Params P isSlot own bound names texts →
      Params P isSlot own bound (new ++ names) (paramText isSlot e.code :: texts)
  | blank {source names texts} :
      isBlankString source = true → Params P isSlot own bound names texts →
      Params P isSlot own bound names (paramText isSlot source :: texts)
  | unread {source fault names texts} :
      P.raw → bindingNames source = .error fault → Params P isSlot own bound names texts →
      Params P isSlot own bound names (paramText isSlot source :: texts)

namespace RenderNode

def isFunction : RenderNode → Bool
  | .function _ _ _ _ => true
  | _ => false

def exprs : RenderNode → List Expression
  | .expr e => [e]
  | .interpolation content _ => [content]
  | .object properties => properties.map (·.key)
  | _ => []

/-- Whether the node is no normaliser of several arguments. -/
def normalizesOne : RenderNode → Bool
  | .call callee args => !callee.isNormalizer || args.length ≤ 1
  | _ => true

/-- Code below functions that bind the names `bound`. -/
inductive Scoped (P : Policy) : List String → RenderNode → Prop
  | function {bound names params returns newline isSlot} :
      Params P isSlot names bound names params →
      (∀ node ∈ returns, Scoped P (names ++ bound) node) →
      Scoped P bound (.function params returns newline isSlot)
  | node {bound node} :
      node.isFunction = false → node.normalizesOne = true → P.refs ∨ node.ownRefs = [] →
      (∀ e ∈ node.exprs, e.Emitted P bound) → (∀ part ∈ node.parts, Scoped P bound part) →
      Scoped P bound node

end RenderNode

/-! ## Weaker policies -/

variable {P : Policy}

section

variable (le : P.Le Q)
include le

theorem Expression.Rereads.mono
    {e e' : Expression} (reads : e.Rereads P bound e') : e.Rereads Q bound e' := by
  obtain ⟨kind, uses, processed, rule⟩ := reads
  exact .intro kind uses (le.qualify ▸ processed) (le.script rule)

theorem Expression.Emitted.mono
    {e : Expression} (emitted : e.Emitted P bound) : e.Emitted Q bound := by
  induction emitted with
  | static isStatic => exact .static isStatic
  | made made => exact .made made
  | blank isBlank => exact .blank isBlank
  | raw raw dynamic => exact .raw (le.raw raw) dynamic
  | read kind visible uses processed rule =>
    exact .read kind visible uses (le.qualify ▸ processed) (le.script rule)
  | unread unread rule =>
    exact .unread (le.unread unread) fun mode u uses => le.script (rule mode u uses)
  | again _ reads ih => exact .again ih (reads.mono le)
  | around glue _ ih => exact .around glue ih
  | handler arrow _ ih => exact .handler arrow ih
  | rehandled arrow _ body ih => exact .rehandled arrow ih (body.imp_right (·.mono le))
  | run parts _ ih => exact .run parts ih

theorem Params.mono (params : Params P isSlot own bound names texts) :
    Params Q isSlot own bound names texts := by
  induction params with
  | nil => exact .nil
  | filler fills _ ih => exact .filler fills ih
  | read names uses processed rule _ ih =>
    exact .read names uses (le.qualify ▸ processed) (le.params rule) ih
  | blank isBlank _ ih => exact .blank isBlank ih
  | unread raw fault _ ih => exact .unread (le.raw raw) fault ih

theorem RenderNode.Scoped.mono
    {node : RenderNode} (inside : node.Scoped P bound) : node.Scoped Q bound := by
  induction inside with
  | function params _ ih => exact .function (params.mono le) ih
  | node kind unary refs exprs _ ih =>
    exact .node kind unary (refs.imp_left le.refs) (fun e member => (exprs e member).mono le) ih

end

/-! ## Code of each kind -/

namespace RenderNode

theorem scoped_iff {node : RenderNode} (kind : node.isFunction = false) :
    node.Scoped P bound ↔ node.normalizesOne = true ∧ (P.refs ∨ node.ownRefs = []) ∧
      (∀ e ∈ node.exprs, e.Emitted P bound) ∧ ∀ part ∈ node.parts, part.Scoped P bound := by
  constructor
  · intro inside
    cases inside with
    | function => cases kind
    | node _ unary refs exprs parts => exact ⟨unary, refs, exprs, parts⟩
  · rintro ⟨unary, refs, exprs, parts⟩
    exact .node kind unary refs exprs parts

@[simp] theorem scoped_expr : (expr e).Scoped P bound ↔ e.Emitted P bound := by
  rw [scoped_iff rfl]
  simp [normalizesOne, ownRefs, exprs, parts]

@[simp] theorem scoped_interpolation :
    (interpolation content span).Scoped P bound ↔ content.Emitted P bound := by
  rw [scoped_iff rfl]
  simp [normalizesOne, ownRefs, exprs, parts]

@[simp] theorem scoped_text (t) : (text t).Scoped P bound :=
  (scoped_iff rfl).mpr ⟨rfl, .inr rfl, by rintro _ ⟨⟩, by rintro _ ⟨⟩⟩

@[simp] theorem scoped_comment (c) : (comment c).Scoped P bound :=
  (scoped_iff rfl).mpr ⟨rfl, .inr rfl, by rintro _ ⟨⟩, by rintro _ ⟨⟩⟩

@[simp] theorem scoped_helper (h) : (helper h).Scoped P bound :=
  (scoped_iff rfl).mpr ⟨rfl, .inr rfl, by rintro _ ⟨⟩, by rintro _ ⟨⟩⟩

@[simp] theorem scoped_object :
    (object properties).Scoped P bound ↔
      ∀ p ∈ properties, p.key.Emitted P bound ∧ p.value.Scoped P bound := by
  rw [scoped_iff rfl]
  simp [normalizesOne, ownRefs, exprs, parts, forall_and]

@[simp] theorem scoped_array :
    (array elements).Scoped P bound ↔
      ∀ node ∈ elements, node.Scoped P bound := by
  rw [scoped_iff rfl]
  simp [normalizesOne, ownRefs, exprs, parts]

@[simp] theorem scoped_conditional :
    (conditional test consequent alternate newline).Scoped P bound ↔
      test.Scoped P bound ∧ consequent.Scoped P bound ∧ alternate.Scoped P bound := by
  rw [scoped_iff rfl]
  simp [normalizesOne, ownRefs, exprs, parts]

@[simp] theorem scoped_textCall :
    (textCall t).Scoped P bound ↔ ∀ node ∈ t.content, node.Scoped P bound := by
  rw [scoped_iff rfl]
  simp [normalizesOne, ownRefs, exprs, parts]

theorem scoped_vnode :
    (vnode v).Scoped P bound ↔
      (P.refs ∨ (vnode v).ownRefs = []) ∧ ∀ part ∈ v.parts, part.Scoped P bound := by
  rw [scoped_iff rfl]
  simp [normalizesOne, exprs, parts]

theorem scoped_call :
    (call callee args).Scoped P bound ↔
      (callee.isNormalizer = true → args.length ≤ 1) ∧ ∀ node ∈ args, node.Scoped P bound := by
  rw [scoped_iff rfl]
  cases kind : callee.isNormalizer <;> simp [normalizesOne, ownRefs, exprs, parts, kind]

theorem scoped_string (content) : (string content).Scoped P bound :=
  scoped_expr.mpr (.static rfl)

theorem scoped_script (made : Script.Made .dynamic code) : (script code).Scoped P bound :=
  scoped_expr.mpr (.made made)

theorem scoped_constant {code level} (made : Script.Made level code) :
    (constant code level).Scoped P bound :=
  scoped_expr.mpr (.made made)

end RenderNode

theorem Expression.Emitted.named (name span) :
    (Expression.snippet name true span).Emitted P bound :=
  .static rfl

theorem assembles_scoped (P bound) :
    Assembles (fun e => e.Emitted P bound) fun node => node.Scoped P bound where
  object := scoped_object
  array := scoped_array
  call inside := scoped_call.mpr ⟨fun _ => Nat.le_refl _, by simpa using inside⟩
  merge inside := scoped_call.mpr ⟨fun h => absurd h (by decide), inside⟩
  args inside := (scoped_call.mp inside).2
  first inside new := by
    obtain ⟨unary, args⟩ := scoped_call.mp inside
    have rest := (List.forall_mem_cons.mp args).2
    exact scoped_call.mpr ⟨unary, List.forall_mem_cons.mpr ⟨new, rest⟩⟩

end Stencil
