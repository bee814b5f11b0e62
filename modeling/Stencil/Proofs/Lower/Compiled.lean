import Stencil.Compile
import Stencil.Dom.Options
import Stencil.Proofs.Lower.Origins
import Stencil.Proofs.Template.Standing

/-! # What compiled code is made from

`compiledTree` is the tree that a compile prints. Hoisting and the filling in of blocks move node
creations about but make no new ones, so every node creation in the tree is a fragment or made for
an element of the template. Elements that the rules of the browser drop are not among them.
-/

namespace Stencil

open List TemplateNode RenderNode

/-! ## Elements of a template -/

mutual
def TemplateNode.elements : TemplateNode → List Element
  | .element el children => el :: elementsAll children
  | .text _ | .interpolation _ _ | .comment _ | .conditional _ _ _ | .loop _ _ _ _ | .textCall _
  | .compound _ => []

def TemplateNode.elementsAll : List TemplateNode → List Element
  | [] => []
  | node :: nodes => node.elements ++ elementsAll nodes
end

theorem TemplateNode.elementsAll_eq (nodes) : elementsAll nodes = nodes.flatMap elements := by
  induction nodes with
  | nil => rfl
  | cons node nodes ih => rw [elementsAll, ih, flatMap_cons]

def Root.elements (root : Root) : List Element :=
  elementsAll root.children

namespace Sources

variable {S : Sources}

theorem fresh_of_written {d : Directive} (written : d.Written)
    (scripts : ∀ e ∈ (ElementProp.directive d).scripts, S.Written e) :
    d.Fresh S.Written S.Script := by
  obtain ⟨exp, arg⟩ := forall_mem_append.mp scripts
  refine ⟨fun a member => ?_, fun e member => exp e (Option.mem_toList.mpr member), ?_⟩
  · cases isStatic : a.isStatic with
    | true => exact .inl rfl
    | false => exact .inr (arg a (mem_filter.mpr ⟨Option.mem_toList.mpr member, by simp [isStatic]⟩))
  · simp [written.loop]

theorem given_of_written {node : TemplateNode} (written : node.Written)
    (elements : node.elements ⊆ S.elements) (scripts : ∀ e ∈ node.scripts, S.Written e) :
    S.Given node := by
  induction written with
  | text => exact .text
  | comment => exact .comment
  | interpolation => exact .interpolation (scripts _ mem_cons_self)
  | @element el children elWritten _ ih =>
    rw [TemplateNode.elements, TemplateNode.elementsAll_eq] at elements
    rw [TemplateNode.scripts, TemplateNode.scriptsAll_eq] at scripts
    obtain ⟨here, below⟩ := cons_subset.mp elements
    obtain ⟨own, inner⟩ := forall_mem_append.mp scripts
    refine .element ⟨⟨el, here, .refl el⟩, fun d member => ?_, elWritten.lowered⟩
      fun child member => ih child member ?_ ?_
    · cases elWritten.props _ member with
      | directive isWritten =>
        exact fresh_of_written isWritten fun e script =>
          own e (mem_flatMap.mpr ⟨_, member, script⟩)
    · exact fun el' inside => below (mem_flatMap.mpr ⟨child, member, inside⟩)
    · exact fun e inside => inner e (mem_flatMap.mpr ⟨child, member, inside⟩)

theorem given_readTemplate (o source) (elements : (readTemplate o source).1.elements ⊆ S.elements)
    (scripts : ∀ e ∈ (readTemplate o source).1.scripts, S.Written e) :
    ∀ node ∈ (readTemplate o source).1.children, S.Given node := by
  intro node member
  rw [Root.elements, elementsAll_eq] at elements
  rw [Root.scripts, scriptsAll_eq] at scripts
  refine given_of_written (written_readTemplate o source node member) ?_ ?_
  · exact fun el inside => elements (mem_flatMap.mpr ⟨node, member, inside⟩)
  · exact fun e inside => scripts e (mem_flatMap.mpr ⟨node, member, inside⟩)

end Sources

/-! ## Compiled trees -/

def compiledTree (o : Options) (source : String) : Root :=
  let lowered := ((readTemplate o.forCompile source).1.lower o.forCompile).1
  (if o.forCompile.hoists then lowered.hoist else lowered).flattenBlocks.1

theorem Root.components_hoist (root : Root) :
    root.hoist.components = root.components ∧ root.hoist.directives = root.directives := by
  unfold hoist hoistBy
  split <;> exact ⟨rfl, rfl⟩

theorem Root.components_flattenBlocks (root : Root) :
    root.flattenBlocks.1.components = root.components ∧
      root.flattenBlocks.1.directives = root.directives := by
  unfold flattenBlocks
  split <;> exact ⟨rfl, rfl⟩

theorem components_compiledTree (o source) :
    (compiledTree o source).components =
        ((readTemplate o.forCompile source).1.lower o.forCompile).1.components ∧
      (compiledTree o source).directives =
        ((readTemplate o.forCompile source).1.lower o.forCompile).1.directives := by
  unfold compiledTree
  generalize ((readTemplate o.forCompile source).1.lower o.forCompile).1 = lowered
  obtain ⟨components, directives⟩ := Root.components_flattenBlocks
    (if o.forCompile.hoists then lowered.hoist else lowered)
  rw [components, directives]
  split
  · exact lowered.components_hoist
  · exact ⟨rfl, rfl⟩

/-- What a template gives to make code from, whatever its scripts are. -/
def Root.sources (root : Root) (o : Options) : Sources where
  options := o
  elements := root.elements
  Written _ := True
  snippet _ := True

theorem Root.sound_sources (root : Root) (o) : (root.sources o).Sound where
  static _ := trivial
  plain _ := trivial
  written _ _ _ := trivial
  read _ _ _ _ := trivial
  unread _ := trivial
  loop _ _ := trivial
  handlers _ _ := .inr fun _ _ => trivial

section

variable {root : Root} (written : ∀ node ∈ root.children, node.Written) (o : Options)
include written

theorem Root.held_lower : ∃ c : Context, c.components = (root.lower o).1.components ∧
      c.directives = (root.lower o).1.directives ∧
      (root.sources o).Held c (sum (root.lower o).1.code.toList) := by
  refine Sources.held_lower (root.sound_sources o) fun node member => ?_
  refine Sources.given_of_written (written node member) (fun el inside => ?_) fun _ _ => trivial
  rw [sources, elements, elementsAll_eq]
  exact mem_flatMap.mpr ⟨node, member, inside⟩

theorem Root.lower_ids_nodup {code} (found : (root.lower o).1.code = some code) :
    code.ids.Nodup := by
  obtain ⟨c, -, -, held⟩ := held_lower written o
  have distinct := held.distinct
  rw [found] at distinct
  simpa [numbers_atoms] using distinct

end

/-- Every node creation in a compiled tree is a fragment or made for an element of the template. -/
theorem labeled_compiledTree (o source) :
    ∀ l ∈ (compiledTree o source).labels,
      ((readTemplate o.forCompile source).1.sources o.forCompile).Labeled
        (compiledTree o source).components (compiledTree o source).directives l := by
  obtain ⟨sameComponents, sameDirectives⟩ := components_compiledTree o source
  rw [sameComponents, sameDirectives]
  obtain ⟨c, components, directives, held⟩ :=
    Root.held_lower (written_readTemplate o.forCompile source) o.forCompile
  have noHoists : ((readTemplate o.forCompile source).1.lower o.forCompile).1.hoists = [] := rfl
  rw [← components, ← directives]
  unfold compiledTree
  have written := written_readTemplate o.forCompile source
  generalize (readTemplate o.forCompile source).1 = root at held noHoists written
  have lowered : ∀ l ∈ (root.lower o.forCompile).1.labels,
      (root.sources o.forCompile).Labeled c.components c.directives l := by
    intro l member
    rw [Root.labels, noHoists, append_nil] at member
    obtain ⟨code, isCode, inside⟩ := mem_flatMap.mp member
    rw [Option.mem_toList.mp isCode] at held
    exact held.allows (.label l) (by simpa using label_mem_atoms.mp inside)
  intro l member
  have unflattened := Root.labels_flattenBlocks _ member
  split at unflattened
  · exact lowered l (Root.labels_hoist (fun _ => Root.lower_ids_nodup written _) unflattened)
  · exact lowered l unflattened

/-! ## Numbers -/

/-- In the code of a template that was read and lowered once, no two creations of nodes or texts
    have the same number, wherever they stand. -/
theorem lower_readTemplate_ids_nodup (o o' : Options) (source : String) :
    (((readTemplate o source).1.lower o').1.code.toList.flatMap RenderNode.ids).Nodup := by
  cases found : ((readTemplate o source).1.lower o').1.code with
  | none => exact nodup_nil
  | some code =>
    rw [Option.toList_some, flatMap_singleton]
    exact Root.lower_ids_nodup (written_readTemplate o source) o' found

/-! ## Side effects -/

def Root.tags (root : Root) : List Tag :=
  root.labels.map (·.tag)

theorem Options.nodeRules_addRule (o : Options) (name rule) :
    (o.addRule name rule).nodeRules = o.nodeRules := by
  unfold addRule
  split <;> rfl

theorem Options.nodeRules_forCompile (o : Options) : o.forCompile.nodeRules = o.nodeRules := by
  unfold forCompile
  split <;> rfl

theorem Options.sideEffects_mem_withDom (o : Options) :
    .sideEffects ∈ o.withDom.forCompile.nodeRules := by
  simp [nodeRules_forCompile, withDom, nodeRules_addRule]

/-- With the rules of the browser no node is created for a `script` or a `style`. -/
theorem compiledTree_withDom_tags (o : Options) (source : String) :
    .literal "script" ∉ (compiledTree o.withDom source).tags ∧
      .literal "style" ∉ (compiledTree o.withDom source).tags := by
  have absent (tag : String) (effects : tag = "script" ∨ tag = "style") :
      .literal tag ∉ (compiledTree o.withDom source).tags := by
    intro member
    obtain ⟨l, inside, isTag⟩ := mem_map.mp member
    rcases labeled_compiledTree o.withDom source l inside with ⟨isFragment, -⟩ | ⟨el, -, labels, kept⟩
    · rw [isTag] at isFragment
      cases isFragment
    · have harmless := kept o.sideEffects_mem_withDom
      have tagged := labels.tag
      rw [isTag] at tagged
      cases tagged with
      | plain isPlain =>
        obtain ⟨notScript, notStyle⟩ : el.tag ≠ "script" ∧ el.tag ≠ "style" := by
          simpa [Element.hasSideEffects, isPlain] using harmless
        exact effects.elim notScript notStyle
  exact ⟨absent _ (.inl rfl), absent _ (.inr rfl)⟩

end Stencil
