import Mathlib.Algebra.BigOperators.Group.Multiset.Basic
import Mathlib.Data.Multiset.Filter
import Mathlib.Data.Multiset.OrderedMonoid
import Stencil.Proofs.Lower.Code
import Stencil.Proofs.Lower.Scripting
import Stencil.Proofs.Render.Labels

/-! # What lowered code is made from

Lowering accounts for all that it puts into code: every creation has a number that no other has and
is made for an element of the template, every script is one of the template after it is read, and
the components and directives that code refers to are in use. `Atom` is a single item of such an
account and `Sources.Held` says that an account is in order. `Sources.Turns` are the changes to code
that keep accounts in order.
-/

namespace Stencil

open List RenderNode TemplateNode Part

/-! ## Scripts and labels of a tree -/

mutual
def Expression.snippets : Expression → List Snippet
  | .simple s => [s]
  | .compound c => c.snippets
def Compound.snippets : Compound → List Snippet
  | ⟨parts, _, _, _⟩ => Part.snippetsAll parts
def Part.snippets : Part → List Snippet
  | .expr e => e.snippets
  | .interpolation content _ => content.snippets
  | .raw _ | .text _ | .helper _ => []
def Part.snippetsAll : List Part → List Snippet
  | [] => []
  | p :: ps => p.snippets ++ Part.snippetsAll ps
end

theorem Part.snippetsAll_eq (parts) : snippetsAll parts = parts.flatMap snippets := by
  induction parts with
  | nil => rfl
  | cons p ps ih => rw [snippetsAll, ih, flatMap_cons]

theorem Expression.snippets_compound (c) :
    (compound c).snippets = c.parts.flatMap Part.snippets := by
  obtain ⟨parts, level, source, span⟩ := c
  exact snippetsAll_eq parts

/-- A name of a directive that lowering finds on an element: that of one of its directives, of a
    `v-else-if` without a conditional before it, or of the binding that a static style becomes. -/
inductive Element.Lends (el : Element) : String → Prop
  | own {d} : .directive d ∈ el.props → Lends el d.name
  | elseIf {d} : .directive d ∈ el.props → d.name = "else-if" → Lends el "if"
  | style {a} : .attribute a ∈ el.props → a.name = "style" → Lends el "bind"

/-- The tag of a node creation that is made for an element. Components are looked up by their names
    or found by a script. -/
inductive Element.Tagged (components : List String) (el : Element) : Tag → Prop
  | plain : el.kind = .plain → Tagged components el (.literal el.tag)
  | component : el.kind = .component → el.tag ∈ components →
      Tagged components el (.component (assetVariable el.tag "component"))
  | dynamic {node} : el.kind = .component → Tagged components el (.dynamic node)

/-- The arguments of a directive that is run for an element: it is a helper, or looked up by the
    name that the element has it under. -/
inductive Element.Runs (directives : List String) (el : Element) : RenderNode → Prop
  | helper {h rest} : Runs directives el (.array (.helper h :: rest))
  | resolved {name rest} : el.Lends name → name ∈ directives →
      Runs directives el (.array (.script (assetVariable name "directive") :: rest))

/-- The label of a node creation that is made for an element. -/
structure Element.Labels (components directives : List String) (el : Element) (l : Label) : Prop where
  tag : el.Tagged components l.tag
  directives : ∀ nodes ∈ l.directives, ∀ node ∈ nodes, el.Runs directives node
  span : l.span = el.span

/-! ## Atoms -/

/-- What lowering accounts for: numbers and labels of creations, snippets of scripts, and the leave
    to refer to a component or directive. -/
inductive Atom
  | number (id : NodeId)
  | label (l : Label)
  | snippet (s : Snippet)
  | component (name : String)
  | directive (name : String)

def Atom.number? : Atom → Option NodeId
  | .number id => some id
  | _ => none

theorem coe_flatMap {α β : Type} (f : α → List β) (l : List α) :
    (↑(l.flatMap f) : Multiset β) = (l.map fun a => (↑(f a) : Multiset β)).sum := by
  induction l with
  | nil => rfl
  | cons a l ih => rw [flatMap_cons, ← Multiset.coe_add, ih, map_cons, sum_cons]

def Expression.atoms (e : Expression) : Multiset Atom :=
  ↑(e.snippets.map Atom.snippet)

theorem Expression.atoms_compound (c) : (compound c).atoms =
    ↑((c.parts.flatMap Part.snippets).map Atom.snippet) := by
  rw [atoms, snippets_compound]

namespace RenderNode

def ownAtoms (node : RenderNode) : List Atom :=
  node.ownIds.map .number ++ node.ownLabels.map .label ++
    node.exprs.flatMap fun e => e.snippets.map .snippet

def atoms (node : RenderNode) : Multiset Atom :=
  ↑(node.collect ownAtoms)

end RenderNode

def Property.atoms (p : Property) : Multiset Atom :=
  p.key.atoms + p.value.atoms

namespace RenderNode

theorem atoms_eq (node : RenderNode) :
    node.atoms = ↑node.ownAtoms + (node.parts.map atoms).sum := by
  rw [atoms, collect_eq, ← Multiset.coe_add, coe_flatMap]
  rfl

@[simp] theorem atoms_vnode (v) : (RenderNode.vnode v).atoms =
    {.number v.id} + {.label v.label} + (v.parts.map atoms).sum :=
  atoms_eq _

@[simp] theorem atoms_call (callee args) :
    (RenderNode.call callee args).atoms = (args.map atoms).sum :=
  (atoms_eq _).trans (zero_add _)

@[simp] theorem atoms_object (properties) :
    (RenderNode.object properties).atoms = (properties.map Property.atoms).sum := by
  rw [atoms_eq]
  simp only [ownAtoms, ownIds, ownLabels, exprs, parts, map_nil, nil_append,
    flatMap_map, coe_flatMap, map_map]
  exact sum_map_add.symm

@[simp] theorem atoms_array (elements) :
    (RenderNode.array elements).atoms = (elements.map atoms).sum :=
  (atoms_eq _).trans (zero_add _)

@[simp] theorem atoms_function (params returns newline isSlot) :
    (RenderNode.function params returns newline isSlot).atoms =
      (returns.toList.map atoms).sum :=
  (atoms_eq _).trans (zero_add _)

@[simp] theorem atoms_conditional (test consequent alternate newline) :
    (RenderNode.conditional test consequent alternate newline).atoms =
      test.atoms + (consequent.atoms + alternate.atoms) := by
  rw [atoms_eq]
  simp [ownAtoms, ownIds, ownLabels, exprs, parts]

@[simp] theorem atoms_textCall (t) : (RenderNode.textCall t).atoms =
    {.number t.id} + (t.content.toList.map atoms).sum :=
  atoms_eq _

@[simp] theorem atoms_expr (e) : (expr e).atoms = e.atoms := by
  rw [atoms_eq]
  simp [ownAtoms, ownIds, ownLabels, exprs, parts, Expression.atoms]

@[simp] theorem atoms_interpolation (content span) :
    (RenderNode.interpolation content span).atoms = content.atoms := by
  rw [atoms_eq]
  simp [ownAtoms, ownIds, ownLabels, exprs, parts, Expression.atoms]

@[simp] theorem atoms_text (t) : (RenderNode.text t).atoms = 0 :=
  atoms_eq _

@[simp] theorem atoms_comment (c) : (RenderNode.comment c).atoms = 0 :=
  atoms_eq _

@[simp] theorem atoms_helper (h) : (RenderNode.helper h).atoms = 0 :=
  atoms_eq _

theorem numbers_atoms (node : RenderNode) : node.atoms.filterMap Atom.number? = ↑node.ids := by
  induction node using rec_strong with
  | step node ih =>
    have own : (↑node.ownAtoms : Multiset Atom).filterMap Atom.number? = ↑node.ownIds := by
      have none : node.exprs.flatMap (fun _ => ([] : List NodeId)) = [] :=
        flatMap_eq_nil_iff.mpr fun _ _ => rfl
      rw [ownAtoms]
      simp [Atom.number?, Function.comp_def, filterMap_flatMap, none]
    have below : (node.parts.map atoms).sum.filterMap Atom.number? = ↑(node.parts.flatMap ids) := by
      generalize node.parts = nodes at ih
      induction nodes with
      | nil => rfl
      | cons first rest ihRest =>
        rw [map_cons, sum_cons, Multiset.filterMap_add, ih first mem_cons_self,
          ihRest fun part member => ih part (mem_cons_of_mem _ member), flatMap_cons,
          Multiset.coe_add]
    rw [atoms_eq, Multiset.filterMap_add, own, below, ids_eq, Multiset.coe_add]

theorem label_mem_atoms {node : RenderNode} : l ∈ node.labels ↔ .label l ∈ node.atoms := by
  simp [labels, atoms, mem_collect, ownAtoms]

end RenderNode

mutual
/-- The atoms in the code of a lowered node. -/
def TemplateNode.atoms : TemplateNode → Multiset Atom
  | .element el children =>
    match el.lowered with
    | some node => node.atoms
    | none => atomsAll children
  | .conditional _ lowered _ | .loop _ _ lowered _ => (lowered.toList.map RenderNode.atoms).sum
  | .textCall t => (RenderNode.textCall t).atoms
  | .interpolation content _ => content.atoms
  | .compound c => (Expression.compound c).atoms
  | .text _ | .comment _ => 0

def TemplateNode.atomsAll : List TemplateNode → Multiset Atom
  | [] => 0
  | node :: nodes => node.atoms + atomsAll nodes
end

@[simp] theorem TemplateNode.atomsAll_eq (nodes) : atomsAll nodes = (nodes.map atoms).sum := by
  induction nodes with
  | nil => rfl
  | cons node nodes ih => rw [atomsAll, ih, map_cons, sum_cons]

/-! ## Accounts -/

/-- What there is to make code from: elements of a template, and what holds of scripts before and
    after they are read. -/
structure Sources where
  options : Options
  elements : List Element
  Written : Expression → Prop
  snippet : Snippet → Prop

namespace Sources

variable (S : Sources)

def Script (e : Expression) : Prop :=
  ∀ s ∈ e.snippets, S.snippet s

/-- A node creation is a fragment, or made for an element that no rule drops. -/
def Labeled (components directives : List String) (l : Label) : Prop :=
  l.tag = .helper .fragment ∧ l.directives = none ∨
    ∃ el ∈ S.elements, el.Labels components directives l ∧
      (.sideEffects ∈ S.options.nodeRules → el.hasSideEffects = false)

/-- What code may hold in a context. -/
def Allows (c : Context) : Atom → Prop
  | .number id => id < c.nextId
  | .label l => S.Labeled c.components c.directives l
  | .snippet s => S.snippet s
  | .component name => name ∈ c.components
  | .directive name => name ∈ c.directives

/-- Code may hold the atoms, and no number is given out twice. -/
structure Held (c : Context) (atoms : Multiset Atom) : Prop where
  distinct : (atoms.filterMap Atom.number?).Nodup
  allows : ∀ a ∈ atoms, S.Allows c a
  components : c.components.Nodup
  directives : c.directives.Nodup

/-- In any context and whatever else there is, the atoms `before` may be given up for `after`. -/
def Turns (before after : Multiset Atom) : Prop :=
  ∀ c rest, S.Held c (before + rest) → S.Held c (after + rest)

/-- Snippets that may stand in any code. -/
def Free (atoms : Multiset Atom) : Prop :=
  ∀ a ∈ atoms, ∃ s, a = .snippet s ∧ S.snippet s

variable {S}

@[simp] theorem free_zero : S.Free 0 := by
  simp [Free]

@[simp] theorem free_add : S.Free (a + b) ↔ S.Free a ∧ S.Free b := by
  simp [Free, or_imp, forall_and]

@[simp] theorem free_sum {α : Type} {f} {l : List α} :
    S.Free (l.map f).sum ↔ ∀ x ∈ l, S.Free (f x) := by
  induction l with
  | nil => simp
  | cons x l ih => simp [ih]

@[simp] theorem free_expression {e : Expression} : S.Free e.atoms ↔ S.Script e := by
  simp [Free, Expression.atoms, Script]

@[simp] theorem free_property {p : Property} :
    S.Free p.atoms ↔ S.Script p.key ∧ S.Free p.value.atoms := by
  simp [Property.atoms]

theorem Held.mono (held : S.Held c b) (le : a ≤ b) : S.Held c a where
  distinct := Multiset.nodup_of_le (Multiset.filterMap_le_filterMap _ le) held.distinct
  allows x member := held.allows x (Multiset.mem_of_le le member)
  components := held.components
  directives := held.directives

theorem Held.add (held : S.Held c a) (distinct : ((b + a).filterMap Atom.number?).Nodup)
    (allowed : ∀ x ∈ b, S.Allows c x) : S.Held c (b + a) :=
  ⟨distinct, fun x member => (Multiset.mem_add.mp member).elim (allowed x) (held.allows x),
    held.components, held.directives⟩

theorem Held.add_one {x : Atom} (held : S.Held c a) (unnumbered : x.number? = none)
    (allowed : S.Allows c x) : S.Held c ({x} + a) := by
  refine held.add ?_ (by simpa using allowed)
  rw [Multiset.singleton_add, Multiset.filterMap_cons_none _ _ unnumbered]
  exact held.distinct

theorem Held.add_free (held : S.Held c a) (free : S.Free b) : S.Held c (b + a) := by
  have unnumbered : b.filterMap Atom.number? = 0 := by
    refine Multiset.eq_zero_of_forall_notMem fun id member => ?_
    obtain ⟨x, inside, isId⟩ := (Multiset.mem_filterMap _ _).mp member
    obtain ⟨s, rfl, -⟩ := free x inside
    cases isId
  refine held.add ?_ fun x member => ?_
  · rw [Multiset.filterMap_add, unnumbered, zero_add]
    exact held.distinct
  · obtain ⟨s, rfl, holds⟩ := free x member
    exact holds

namespace Turns

theorem of_le (le : b ≤ a) : S.Turns a b :=
  fun _ _ held => held.mono (add_le_add_left le _)

theorem refl (a : Multiset Atom) : S.Turns a a :=
  of_le le_rfl

theorem trans (first : S.Turns a b) (second : S.Turns b d) : S.Turns a d :=
  fun c rest held => second c rest (first c rest held)

theorem add_right (turns : S.Turns a b) (d : Multiset Atom) : S.Turns (a + d) (b + d) := by
  intro c rest held
  rw [add_assoc] at held ⊢
  exact turns c _ held

theorem add_left (turns : S.Turns a b) (d : Multiset Atom) : S.Turns (d + a) (d + b) := by
  rw [add_comm d a, add_comm d b]
  exact turns.add_right d

theorem more (free : S.Free b) : S.Turns a (b + a) :=
  fun _ _ held => add_assoc b a _ ▸ held.add_free free

theorem free (free : S.Free a) : S.Turns 0 a :=
  add_zero a ▸ more free

theorem add_free (turns : S.Turns a b) (d : S.Free a') : S.Turns a (a' + b) :=
  turns.trans (more d)

end Turns

theorem turns_fragment {v : VNode} (isFragment : v.tag = .helper .fragment)
    (none : v.directives = none) :
    S.Turns ((v.parts.map RenderNode.atoms).sum + {.number v.id}) (RenderNode.vnode v).atoms := by
  intro c rest held
  refine (held.add_one (x := .label v.label) rfl (.inl ⟨isFragment, none⟩)).mono (le_of_eq ?_)
  rw [atoms_vnode]
  ac_rfl

theorem turns_fragment_nodes (id span) (nodes : List RenderNode) {props} (isBlock)
    (free : ∀ p ∈ props, S.Free p.atoms) :
    S.Turns ((nodes.map RenderNode.atoms).sum + {.number id})
      (RenderNode.vnode { Lower.fragment id nodes with props, isBlock, span }).atoms := by
  have freeProps : S.Free (props.toList.map RenderNode.atoms).sum := by simpa using free
  refine .trans (.add_right (.more freeProps) _) (.trans ?_ (turns_fragment rfl rfl))
  refine .of_le (le_of_eq ?_)
  simp [VNode.parts, Lower.fragment, VNode.new, Tag.parts, Children.parts]

/-- Reading scripts gives scripts, and lowering may write scripts of its own. -/
structure Sound (S : Sources) : Prop where
  static {s : Snippet} : s.isStatic = true → S.snippet s
  plain {s : Snippet} : s.content = s.source → S.snippet s
  written {e : Expression} : S.Written e → S.Script e
  read {s : Snippet} {known : String → Bool} {mode : Script.Mode} {e : Expression} :
    S.Written (.simple s) → Script.process s known S.options.qualify mode = .ok e → S.Script e
  unread {s : Snippet} : S.Written (.simple s) → S.snippet (s.withLevel .dynamic)
  loop {e : Expression} {head : LoopHead} : S.Written e → LoopHead.read? e = some head →
    S.Written head.source
  handlers {name : String} {rule : DirectiveRule} : S.options.rule? name = some rule →
    rule.handles → name = "on" ∨ ∀ e, S.Script e → S.Written e

namespace Sound

variable (sound : S.Sound)
include sound

theorem scripting :
    PlainScripting S.options S.Written S.Script fun node => S.Free node.atoms where
  static isStatic := by
    rintro _ (_ | ⟨_, ⟨⟩⟩)
    exact sound.static isStatic
  plain same := by
    rintro _ (_ | ⟨_, ⟨⟩⟩)
    exact sound.plain same
  compound pieces inner := by
    rw [Script, Expression.snippets_compound, forall_mem_flatMap]
    intro part member
    rcases pieces part member with ⟨_, rfl⟩ | ⟨_, rfl⟩ | ⟨e, rfl⟩
    · rintro _ ⟨⟩
    · rintro _ ⟨⟩
    · exact inner e member
  written := sound.written
  read := sound.read
  unread isWritten := by
    rintro _ (_ | ⟨_, ⟨⟩⟩)
    exact sound.unread isWritten
  loop := sound.loop
  handlers := sound.handlers
  assembles :=
    { object := by simp
      array := by simp
      call := by simp
      merge := by simp
      args := by simp
      first := by simp +contextual }
  expr := by simp
  call := by simp

theorem script (code) : S.Free (RenderNode.script code).atoms :=
  sound.scripting.script code

end Sound

/-! ## Adding to code -/

section Adding

variable {p : Property} (free : S.Free p.atoms)
include free

theorem turns_addFirst (ps : List Property) :
    S.Turns (ps.map Property.atoms).sum ((addFirst p ps).map Property.atoms).sum := by
  have added : S.Turns (ps.map Property.atoms).sum ((p :: ps).map Property.atoms).sum :=
    .more free
  unfold addFirst
  split
  · split
    · exact .refl _
    · exact added
  · exact added

theorem turns_injectInto (node : RenderNode) : S.Turns node.atoms (injectInto p node).atoms := by
  have added := injected p node
  generalize injectInto p node = result at added
  induction added with
  | object => simpa using turns_addFirst free _
  | argument _ ih =>
    simp only [atoms_call]
    exact ih.add_right _
  | guarded _ ih =>
    simp only [atoms_call, map_cons]
    exact ((Turns.of_le (Multiset.le_add_right _ _)).trans ih).add_right _
  | unguarded | merged | joined => simpa using Turns.more free

theorem turns_injectProps (props : Option RenderNode) :
    S.Turns (props.toList.map RenderNode.atoms).sum (injectProps p props).atoms := by
  cases props with
  | none => simpa [injectProps] using Turns.free free
  | some node => simpa [injectProps] using turns_injectInto free node

/-- A node creation or the rendering of a slot with one more property. -/
theorem turns_inject (sound : S.Sound) (node : RenderNode) :
    S.Turns node.atoms (node.inject p).atoms := by
  have blank : S.Free (RenderNode.script "\x7b\x7d").atoms := sound.script _
  cases node with
  | vnode v =>
    simp only [inject, atoms_vnode, VNode.parts, VNode.label,
      map_append, sum_append, Option.toList_some, map_cons, map_nil, sum_cons, sum_nil, add_zero]
    refine .add_left (.add_right (.add_right (.add_left ?_ _) _) _) _
    exact turns_injectProps free v.props
  | call callee args =>
    rw [inject]
    split
    · split
      next slots name props rest =>
        simp only [atoms_call]
        refine .add_left (.add_left (.add_right ?_ _) _) _
        refine .trans (.of_le ?_) (turns_injectProps free _)
        split <;> simp
      next slots name =>
        simpa [add_assoc] using (Turns.free free).add_left (slots.atoms + name.atoms)
      next slots =>
        simpa using (Turns.free (free_add.mpr ⟨blank, free⟩)).add_left slots.atoms
      · simpa using Turns.free (free_add.mpr ⟨blank, free_add.mpr ⟨blank, free⟩⟩)
    · exact .refl _
  | _ => exact .refl _

end Adding

theorem atoms_attachAlternate (node alternate : RenderNode) :
    (node.attachAlternate alternate).atoms ≤ node.atoms + alternate.atoms := by
  have added := attached node alternate
  generalize node.attachAlternate alternate = result at added
  induction added with
  | last =>
    simp only [atoms_conditional, add_assoc]
    exact add_le_add_right (add_le_add_right (Multiset.le_add_left _ _) _) _
  | chain _ ih =>
    simp only [atoms_conditional, add_assoc]
    exact add_le_add_right (add_le_add_right ih _) _
  | other => exact Multiset.le_add_right _ _

end Sources

end Stencil
