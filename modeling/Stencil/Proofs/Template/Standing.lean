import Stencil.Proofs.Template.Places

/-! # Where scripts stand in a template

The span of a script covers the script in the template, as it is or with character references that
the reader replaces.
-/

namespace Stencil

open List TemplateNode Text

/-! ## Scripts of a template -/

mutual
/-- The scripts of a template as it was read. -/
def TemplateNode.scripts : TemplateNode → List Expression
  | .element el children => el.props.flatMap ElementProp.scripts ++ scriptsAll children
  | .interpolation content _ => [content]
  | .text _ | .comment _ | .conditional _ _ _ | .loop _ _ _ _ | .textCall _ | .compound _ => []

def TemplateNode.scriptsAll : List TemplateNode → List Expression
  | [] => []
  | node :: nodes => node.scripts ++ scriptsAll nodes
end

theorem TemplateNode.scriptsAll_eq (nodes) : scriptsAll nodes = nodes.flatMap scripts := by
  induction nodes with
  | nil => rfl
  | cons node nodes ih => rw [scriptsAll, ih, flatMap_cons]

def Root.scripts (root : Root) : List Expression :=
  scriptsAll root.children

/-! ## Places -/

theorem Span.Covers.slice {source : String} {s : Span} (covers : s.Covers 0 source.toList piece) :
    s.slice source = String.ofList piece := by
  obtain ⟨⟨front, after, split, start⟩, stop⟩ := covers
  rw [Nat.zero_add] at start
  rw [Span.slice, split, stop, start, slice_append]

variable {raw text : List Char} {i : Input}

/-- The script of an interpolation stands between the blanks inside its marks. -/
theorem stands_interpolation (here : i.Of text) (found : cut? stop i.rest = some (raw, rest)) :
    let offset := i.pos + (bytes raw - bytes (trimStart raw))
    ∀ e ∈ [Expression.snippet (String.ofList (decode (trim raw))) false
      ⟨offset, offset + bytes (trim raw)⟩], e.Stands text := by
  obtain ⟨before, after, raw_eq, blanks, -⟩ := trim_eq raw
  have split : i.rest = before ++ (trim raw ++ (after ++ (stop ++ rest))) := by
    rw [cut?_eq_some found]
    simp [← append_assoc, ← raw_eq]
  have covers := here.covers split
  rw [blanks]
  intro offset e member
  obtain rfl := mem_singleton.mp member
  exact ⟨_, rfl, rfl, _, covers, .inr (by simp [Snippet.new])⟩

/-- The scripts of a node stand in a text. -/
def TemplateNode.Stands (text : List Char) (node : TemplateNode) : Prop :=
  ∀ e ∈ node.scripts, e.Stands text

theorem TemplateNode.stands_element {el : Element}
    (props : ∀ p ∈ el.props, ∀ e ∈ p.scripts, e.Stands text)
    (below : ∀ child ∈ children, child.Stands text) : (element el children).Stands text := by
  rw [TemplateNode.Stands, scripts, scriptsAll_eq]
  exact forall_mem_append.mpr
    ⟨forall_mem_flatMap.mpr props, forall_mem_flatMap.mpr below⟩

/-- Every script of a template stands at its span, up to its character references. -/
theorem stands_readTemplate (o source) :
    ∀ e ∈ (readTemplate o source).1.scripts, e.Stands source.toList := by
  have rules : ReadRules o (Reading.Placed source.toList)
      (fun _ => TemplateNode.Stands source.toList)
      (fun _ _ el => ∀ p ∈ el.props, ∀ e ∈ p.scripts, e.Stands source.toList) :=
    { step := fun placed => placed.step o
      text := fun _ _ => by rintro _ ⟨⟩
      changed := fun _ _ => by rintro _ ⟨⟩
      comment := fun _ _ => by rintro _ ⟨⟩
      interpolation := fun span placed _ found =>
        stands_interpolation (placed.input.reaches (Input.reaches_skip _ _)) found
      start := fun _ _ _ placed => by
        have here (n : Nat) := placed.input.reaches (Input.reaches_skip n _)
        have none : ∀ a ∈ ([] : List RawAttribute), a.Placed source.toList := by simp
        have places (n : Nat) := (placed_readAttributes (here n) none (.nil (Nat.le_refl _))).1
        exact forall_readProps (fun _ => (by rintro _ ⟨⟩)) _ fun a member isName d found =>
          ((placed_readDirective (places _ a member) isName).1 d found).2
      resized := fun _ stands => stands
      element := stands_element }
  have placed : Reading.Placed source.toList ⟨⟨0, source.toList⟩, [], [], []⟩ :=
    ⟨⟨[], rfl, rfl⟩, ⟨by simp, .nil (Nat.le_refl _)⟩, .nil, by simp⟩
  rw [Root.scripts, scriptsAll_eq]
  exact forall_mem_flatMap.mpr (rules.readTemplate placed)

end Stencil
