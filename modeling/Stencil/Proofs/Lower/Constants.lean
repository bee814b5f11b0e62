import Stencil.Proofs.Lower.Closed
import Stencil.Proofs.Lower.Compiled
import Stencil.Proofs.Lower.PatchFlags
import Stencil.Proofs.Script.Constancy

/-! # Constants need no render function

What is moved out of the render function of a template was below functions that bind names, and is
made before any of them runs. It is made of elements and texts; the scripts in it are strings, code
that lowering writes itself, and scripts of the template that use nothing but allowed globals.
-/

namespace Stencil

open List RenderNode Expression Script Constancy Bool

/-- A script that uses allowed globals only, and none that is bound around it. -/
def Script.Uses.GlobalOnly (bound : List String) (u : Script.Uses) : Prop :=
  ∀ r ∈ u.refs, r.bound = false ∧ isAllowedGlobal r.ident.name = true ∧
    r.ident.name ∉ bound

/-- An expression that means the same outside the functions that bind the names `bound`. -/
inductive Expression.Fixed (bound : List String) : Expression → Prop
  | static {s} : s.isStatic = true → Fixed bound (.simple s)
  | made {level code span} :
      Script.Made level code → level.canHoist = true →
      Fixed bound (.simple ((Snippet.new code false span).withLevel level))
  | read {s mode known u} :
      mode ≠ .params → uses mode s.content = .ok u → s.level = u.level known →
      s.level.canHoist = true → u.GlobalOnly bound → Fixed bound (.simple s)
  /-- A run of texts. -/
  | texts {c} :
      (∀ part ∈ c.parts, part = .raw " + " ∨ ∃ t, part = .text t) → Fixed bound (.compound c)

/-- Whether children are nodes or a text. Slots and lists are functions. -/
def Children.isContent : Children → Bool
  | .nodes _ | .single _ | .hoisted _ => true
  | .slots _ | .list _ => false

/-- A node that can be made outside the functions that bind the names `bound`: it has no component,
    no directive, no interpolation, no outlet, no conditional and no list. -/
inductive RenderNode.Fixed (bound : List String) : RenderNode → Prop
  | element {v} : v.tag.isLiteral = true → v.isComponent = false → v.directives = none →
      (∀ c ∈ v.children, c.isContent = true) → (∀ part ∈ v.parts, Fixed bound part) →
      Fixed bound (.vnode v)
  | text {t} : Fixed bound (.text t)
  | comment {c} : Fixed bound (.comment c)
  | textCall {t} : (∀ node ∈ t.content, Fixed bound node) → Fixed bound (.textCall t)
  | expr {e} : e.Fixed bound → Fixed bound (.expr e)
  | object {properties} :
      (∀ p ∈ properties, p.key.isStatic = true) → (∀ p ∈ properties, Fixed bound p.value) →
      Fixed bound (.object properties)
  | array {elements} :
      (∀ node ∈ elements, Fixed bound node) → Fixed bound (.array elements)
  | normalized {callee args} : callee.isNormalizer = true →
      (∀ node ∈ args, Fixed bound node) → Fixed bound (.call callee args)
  /-- A reference to another constant. -/
  | hoisted {index} : Fixed bound (.hoisted index)

/-! ## Constant scripts -/

namespace Script

/-- A script of a constant level has no sites, so it stays as it is. -/
theorem process_of_canHoist {s : Snippet} {known : String → Bool}
    (read : uses mode s.content = .ok u) (processed : process s known qualify mode = .ok e)
    (visible : (s.isStatic || isBlankString s.content) = false)
    (constant : e.renderLevel.canHoist = true) :
    e = .simple (s.withLevel (u.level known)) ∧ (u.level known).canHoist = true := by
  obtain ⟨u', read', level⟩ := level_of_process visible processed
  obtain rfl := Except.ok.inj (read.symm.trans read')
  have steady : (u.level known).canHoist = true := by
    rw [← level]
    cases e with
    | simple s => exact constant
    | compound c =>
      simp only [renderLevel] at constant
      split at constant
      · cases constant
      · exact constant
  rw [process_of_level visible read steady] at processed
  exact ⟨(Except.ok.inj processed).symm, steady⟩

end Script

variable {node : RenderNode}

section

variable {S : Setting}

theorem Script.Uses.globalOnly {u : Script.Uses} (constant : (u.level known).canHoist = true)
    (rule : S.policy.script bound known u) : u.GlobalOnly bound := by
  intro r member
  obtain ⟨free, unknown, isGlobal⟩ := (of_canHoist constant).2 r member
  refine ⟨free, isGlobal, fun inBound => ?_⟩
  have known := (rule _ (mem_free member free)).1 inBound
  simp [unknown] at known

theorem Expression.Emitted.fixed {e : Expression} (emitted : e.Emitted S.policy bound)
    (constant : e.renderLevel.canHoist = true) : e.Fixed bound := by
  induction emitted with
  | static isStatic => exact .static isStatic
  | made made => exact .made made constant
  | raw _ dynamic =>
    rw [dynamic] at constant
    cases constant
  | @read _ source span _ _ _ _ kind visible uses processed rule =>
    obtain ⟨rfl, level⟩ := process_of_canHoist (s := .new source false span) uses processed
      visible constant
    exact .read (s := (Snippet.new source false span).withLevel _) kind uses rfl level
      (Script.Uses.globalOnly level rule)
  | @again _ before after inner rereads ih =>
    cases rereads with
    | @intro s known mode _ u kind uses processed rule =>
      cases kept : s.isStatic || isBlankString s.content with
      | true =>
        have same : Expression.simple s = after := by
          simpa [process, kept, pure, Except.pure] using processed
        subst same
        exact ih constant
      | false =>
        obtain ⟨rfl, level⟩ := process_of_canHoist uses processed kept constant
        exact .read (s := s.withLevel _) kind uses rfl level
          (Script.Uses.globalOnly level rule)
  | run parts _ _ =>
    apply Expression.Fixed.texts
    intro part member
    cases parts part member with
    | plus => exact .inl rfl
    | text t => exact .inr ⟨t, rfl⟩
    | interpolation content span =>
      simp only [Expression.renderLevel] at constant
      split at constant
      · cases constant
      next none =>
        exact absurd (any_eq_true.mpr ⟨_, member, rfl⟩) none
  | blank | unread => cases constant
  | around | handler | rehandled =>
    simp only [Expression.around, Expression.renderLevel, ite_self] at constant
    cases constant

/-! ## Constant nodes -/

namespace RenderNode

theorem canHoist_of_levels (constant : (levels nodes).canHoist = true) :
    ∀ node ∈ nodes, node.level.canHoist = true := by
  induction nodes with
  | nil => simp
  | cons node nodes ih =>
    rw [levels, canHoist_min, and_eq_true] at constant
    exact forall_mem_cons.mpr ⟨constant.1, ih constant.2⟩

end RenderNode

theorem Property.canHoist_of_levels (constant : (levels properties).canHoist = true) :
    ∀ p ∈ properties, p.key.isStatic = true ∧ p.value.level.canHoist = true := by
  induction properties with
  | nil => simp
  | cons p properties ih =>
    obtain ⟨key, value⟩ := p
    rw [levels] at constant
    split at constant
    · cases constant
    next known =>
      rw [canHoist_min, and_eq_true] at constant
      refine forall_mem_cons.mpr ⟨⟨?_, constant.1⟩, ih constant.2⟩
      cases key with
      | simple s => simpa [static?, isStatic] using known
      | compound c => simp [static?] at known

theorem Children.canHoist_parts {c : Children} (constant : c.level.canHoist = true) :
    c.isContent = true ∧ ∀ part ∈ c.parts, part.level.canHoist = true := by
  cases c with
  | nodes items => exact ⟨rfl, canHoist_of_levels constant⟩
  | single node => exact ⟨rfl, by simpa [parts, level] using constant⟩
  | hoisted index => exact ⟨rfl, by simp [parts]⟩
  | slots | list => cases constant

/-- What is known of a constant element: its tag is written in quotes, and it has no directives. -/
theorem VNode.of_canHoist {v : VNode} (constant : v.level.canHoist = true) :
    v.tag.isLiteral = true ∧ v.isComponent = false ∧ v.directives = none ∧
      (∀ c ∈ v.children, c.isContent = true) ∧ ∀ part ∈ v.parts, part.level.canHoist = true := by
  rw [level_eq] at constant
  split at constant
  next passive =>
    rw [canHoist_min, and_eq_true] at constant
    obtain ⟨props, children⟩ := constant
    simp only [isPassive, and_eq_true, not_eq_true', Option.isNone_iff_eq_none]
      at passive
    obtain ⟨⟨⟨⟨literal, notComponent⟩, -⟩, -⟩, noDirectives⟩ := passive
    have noTag : v.tag.parts = [] := by
      cases tag : v.tag with
      | dynamic node => simp [tag, Tag.isLiteral] at literal
      | literal | component | helper => rfl
    have content : ∀ c ∈ v.children, c.isContent = true ∧
        ∀ part ∈ c.parts, part.level.canHoist = true := by
      intro c member
      rw [Option.mem_def.mp member] at children
      exact c.canHoist_parts children
    refine ⟨literal, notComponent, noDirectives, fun c member => (content c member).1, ?_⟩
    intro part member
    simp only [parts, noTag, noDirectives, nil_append, Option.getD_none,
      append_nil, mem_append, Option.mem_toList] at member
    rcases member with inProps | inChildren
    · rw [Option.mem_def.mp inProps] at props
      exact props
    · cases found : v.children with
      | none => simp [found] at inChildren
      | some c =>
        rw [found] at inChildren
        exact (content c found).2 part inChildren
  · cases constant

theorem RenderNode.canHoist_parts (unary : node.normalizesOne = true)
    (constant : node.level.canHoist = true) : ∀ part ∈ node.parts, part.level.canHoist = true := by
  cases node with
  | vnode v => exact (VNode.of_canHoist constant).2.2.2.2
  | call callee args =>
    cases args with
    | nil => cases constant
    | cons arg rest =>
      simp only [level] at constant
      split at constant
      next normalizer =>
        have alone : rest = [] := by simpa [normalizesOne, normalizer] using unary
        subst alone
        simpa [parts] using constant
      · cases constant
  | object properties =>
    simpa [parts] using fun p member => (Property.canHoist_of_levels constant p member).2
  | array elements => exact canHoist_of_levels constant
  | textCall t =>
    obtain ⟨id, content, flag, span⟩ := t
    rintro node member
    obtain rfl := Option.mem_toList.mp member
    exact constant
  | expr | text | comment | hoisted => simp [parts]
  | _ => cases constant

theorem RenderNode.isFunction_of_canHoist
    (constant : node.level.canHoist = true) : node.isFunction = false := by
  cases node with
  | function => cases constant
  | _ => rfl

/-- A constant node of lowered code is fixed. Functions are never constant, so the names that are
    bound stay the same on the way down. -/
theorem RenderNode.Scoped.fixed (inside : node.Scoped S.policy bound)
    (constant : node.level.canHoist = true) : node.Fixed bound := by
  induction node using rec_strong with
  | step node ih =>
    obtain ⟨unary, -, exprs, parts⟩ :=
      (scoped_iff (isFunction_of_canHoist constant)).mp inside
    replace ih := fun part member =>
      ih part member (parts part member) (canHoist_parts unary constant part member)
    cases node with
    | vnode v =>
      obtain ⟨literal, noComponent, noDirectives, content, -⟩ := VNode.of_canHoist constant
      exact .element literal noComponent noDirectives content ih
    | call callee args =>
      cases args with
      | nil => cases constant
      | cons arg rest =>
        simp only [level] at constant
        split at constant
        next normalizer => exact .normalized normalizer ih
        · cases constant
    | object properties =>
      apply Fixed.object (fun p member => (Property.canHoist_of_levels constant p member).1)
      exact fun p member => ih p.value (mem_map_of_mem member)
    | array elements => exact .array ih
    | textCall t => exact .textCall fun node content => ih node (Option.mem_toList.mpr content)
    | expr e => exact .expr ((exprs e mem_cons_self).fixed constant)
    | text t => exact .text
    | comment c => exact .comment
    | hoisted index => exact .hoisted
    | _ => cases constant

end

/-! ## Constants of a template -/

/-- What may become a constant in a tree below functions that bind the names given first, and the
    names that functions bind around the place where it is. -/
inductive RenderNode.LiftsBelow (P : Policy) :
    List String → RenderNode → List String → RenderNode → Prop
  | node {bound node} : node.level.canHoist = true →
      LiftsBelow P bound node bound (Hoist.constant node)
  | children {bound node items} :
      items.all Hoist.isHoisted = true → LiftsBelow P bound node bound (.array items)
  | part {bound inner node part entry} : node.isFunction = false →
      part ∈ node.parts → LiftsBelow P bound part inner entry → LiftsBelow P bound node inner entry
  | body {bound names params inner body entry newline isSlot} : Params P isSlot names bound names params →
      LiftsBelow P (names ++ bound) body inner entry →
      LiftsBelow P bound (.function params (some body) newline isSlot) inner entry

theorem RenderNode.Fixed.constant
    (fixed : node.Fixed bound) : (Hoist.constant node).Fixed bound := by
  cases fixed with
  | element literal notComponent noDirectives content parts =>
    exact .element literal notComponent noDirectives content parts
  | text => exact .text
  | comment => exact .comment
  | textCall content => exact .textCall content
  | expr e => exact .expr e
  | object keys values => exact .object keys values
  | array elements => exact .array elements
  | normalized normalizer args => exact .normalized normalizer args
  | hoisted => exact .hoisted

theorem RenderNode.Lifts.fixed {S : Setting} (lifts : node.Lifts entry)
    (inside : node.Scoped S.policy bound) :
    ∃ inner, LiftsBelow S.policy bound node inner entry ∧ entry.Fixed inner := by
  induction lifts generalizing bound with
  | node constant => exact ⟨bound, .node constant, (inside.fixed constant).constant⟩
  | @children _ items allHoisted =>
    refine ⟨bound, .children allHoisted, .array fun item member => ?_⟩
    have isHoisted := all_eq_true.mp allHoisted item member
    cases item with
    | hoisted index => exact .hoisted
    | _ => cases isHoisted
  | part member _ ih =>
    cases inside with
    | function params body =>
      have returned := Option.mem_toList.mp member
      obtain ⟨inner, lifts, fixed⟩ := ih (body _ returned)
      cases returned
      exact ⟨inner, .body params lifts, fixed⟩
    | node noFunction _ _ _ parts =>
      obtain ⟨inner, lifts, fixed⟩ := ih (parts _ member)
      exact ⟨inner, .part noFunction member lifts, fixed⟩

/-- A setting of which only the options are known. -/
def Setting.bare (o : Options) : Setting :=
  ⟨o, False, [], []⟩

section

variable {root : Root}

/-- Whatever is reported of a template, a name that a function around a script binds was in scope
    when the script was read. -/
theorem Root.scoped_bare (written : ∀ node ∈ root.children, node.Written) {code}
    (found : (root.lower o).1.code = some code) : code.Scoped (Setting.bare o).policy [] := by
  apply lower_scoped (S := .bare o) written _ False.elim found
  exact fun site _ => ⟨False.elim, False.elim⟩

theorem RenderNode.Scoped.refs_eq_nil {P : Policy} (noRefs : ¬P.refs)
    (inside : node.Scoped P bound) : node.refs = [] := by
  induction inside with
  | function _ _ ih =>
    rw [refs_eq, append_eq_nil_iff, flatMap_eq_nil_iff]
    exact ⟨rfl, fun part member => ih part (Option.mem_toList.mp member)⟩
  | node _ _ own _ _ ih =>
    rw [refs_eq, append_eq_nil_iff, flatMap_eq_nil_iff]
    exact ⟨own.resolve_left noRefs, ih⟩

theorem Root.lifts_of_hoists (written : ∀ node ∈ root.children, node.Written)
    (fresh : (root.lower o).1.hoists = []) {entry}
    (member : entry ∈ (root.lower o).1.hoist.hoists) :
    ∃ code, (root.lower o).1.code = some code ∧ code.Lifts entry := by
  cases found : (root.lower o).1.code with
  | none => simp [hoist, hoistBy, found, fresh] at member
  | some code =>
    have distinct := lower_ids_nodup written o found
    have noRefs := (scoped_bare written found).refs_eq_nil (fun refs => refs)
    have ready : Ready [] [code] := by
      refine ⟨?_, ?_, ?_⟩
      · rintro _ _ ⟨⟩
      · simp [RenderNode.RefsBelow, noRefs]
      · simpa using distinct
    obtain ⟨added, after, hoisted, moves⟩ := hoist_moves found distinct
    rw [hoisted, fresh] at member
    rw [fresh] at moves
    obtain ⟨node, inside, lifts⟩ := (moves.kept ready).origin entry member
    obtain rfl := mem_singleton.mp inside
    exact ⟨node, rfl, lifts⟩

end

/-- Constants are free of scopes. Every constant that is moved out of the render function of a
    template comes from below functions that bind some names, and needs neither these nor anything
    else of the render function. -/
theorem hoists_fixed (o o' : Options) (source : String) :
    ∀ entry ∈ ((readTemplate o source).1.lower o').1.hoist.hoists,
      ∃ code ∈ ((readTemplate o source).1.lower o').1.code,
        ∃ bound, RenderNode.LiftsBelow (Setting.bare o').policy [] code bound entry ∧
          entry.Fixed bound := by
  intro entry member
  have written := written_readTemplate o source
  obtain ⟨code, found, lifts⟩ := Root.lifts_of_hoists written rfl member
  obtain ⟨bound, below, fixed⟩ := lifts.fixed (Root.scoped_bare written found)
  exact ⟨code, found, bound, below, fixed⟩

/-- In a slot of a loop, an attribute and an element that use none of its names. -/
def loopedConstants : String :=
  "<Foo v-for=\"i in list\" v-slot=\"\x7b x \x7d\">" ++
    "<p :id=\"NaN\">\x7b\x7b i + x \x7d\x7d</p><b>c</b></Foo>"

theorem loopedConstants_fixed :
    ((readTemplate {} loopedConstants).1.lower {}).1.hoist.hoists.length = 2 ∧
      ∃ entry ∈ ((readTemplate {} loopedConstants).1.lower {}).1.hoist.hoists,
        ∃ code ∈ ((readTemplate {} loopedConstants).1.lower {}).1.code,
          ∃ bound, RenderNode.LiftsBelow (Setting.bare {}).policy [] code bound entry ∧
            entry.Fixed bound := by
  have two : ((readTemplate {} loopedConstants).1.lower {}).1.hoist.hoists.length = 2 := by
    decide +kernel
  obtain ⟨entry, member⟩ := exists_mem_of_length_pos (two ▸ Nat.two_pos)
  exact ⟨two, entry, member, hoists_fixed {} {} loopedConstants entry member⟩

/-! ## References -/

section

/-- A creation as it may stand in a constant: whatever is constant enough, and it may be marked as
    moved. -/
def VNode.Fixes (w v : VNode) : Prop :=
  w.level.canHoist = true ∧ (v = w ∨ v = { w with flag := .hoisted, isBlock := false })

theorem RenderNode.Scoped.canHoist_subnodes (inside : node.Scoped P bound)
    (constant : node.level.canHoist = true) :
    ∀ inner ∈ node.subnodes, inner.level.canHoist = true := by
  induction node using rec_strong with
  | step node ih =>
    obtain ⟨unary, -, -, parts⟩ :=
      (scoped_iff (isFunction_of_canHoist constant)).mp inside
    intro inner member
    rcases mem_subnodes.mp member with rfl | ⟨part, isPart, below⟩
    · exact constant
    · exact ih part isPart (parts part isPart) (canHoist_parts unary constant part isPart) inner below

theorem RenderNode.Lifts.fixes (lifts : node.Lifts entry) (inside : node.Scoped P bound)
    (member : .vnode v ∈ entry.subnodes) : ∃ w, .vnode w ∈ node.subnodes ∧ w.Fixes v := by
  induction lifts generalizing bound with
  | @node node constant =>
    have levels := inside.canHoist_subnodes constant
    rcases mem_subnodes.mp member with same | ⟨part, isPart, below⟩
    · cases node <;> cases same
      exact ⟨_, self_mem_subnodes _, constant, .inr rfl⟩
    · have isPart : part ∈ node.parts := by cases node <;> exact isPart
      have within : .vnode v ∈ node.subnodes := mem_subnodes.mpr (.inr ⟨part, isPart, below⟩)
      exact ⟨v, within, levels _ within, .inl rfl⟩
  | @children _ items allHoisted =>
    rcases mem_subnodes.mp member with same | ⟨item, isItem, below⟩
    · cases same
    · have isHoisted := all_eq_true.mp allHoisted item isItem
      cases item <;> cases isHoisted
      simp [subnodes, collect] at below
  | part isPart _ ih =>
    obtain ⟨bound', within⟩ : ∃ bound', RenderNode.Scoped P bound' _ := by
      cases inside with
      | function _ body => exact ⟨_, body _ (Option.mem_toList.mp isPart)⟩
      | node _ _ _ _ parts => exact ⟨_, parts _ isPart⟩
    obtain ⟨w, below, fixes⟩ := ih within member
    exact ⟨w, mem_subnodes.mpr (.inr ⟨_, isPart, below⟩), fixes⟩

end

theorem PatchFlag.eq_empty_of_insert {f g : PatchFlag} (none : f.insert g = .empty) :
    f = .empty := by
  obtain ⟨f⟩ := f
  simp only [insert, empty, mk.injEq, ← Int32.toBitVec_inj] at none ⊢
  exact (BitVec.or_eq_zero_iff.mp none).1

/-- A paragraph with a reference. -/
def referenced : Element :=
  { Lower.twoClasses with props := [.attribute ⟨"ref", some ⟨"a", .empty⟩, .empty⟩] }

/-- Whether a node is created with a reference. -/
def RenderNode.refers : RenderNode → Bool
  | .vnode v => v.props.any fun
    | .object ps => ps.any (·.name? == some "ref")
    | _ => false
  | _ => false

end Stencil
