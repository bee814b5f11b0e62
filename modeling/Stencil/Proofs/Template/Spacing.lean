import Stencil.Template.Reader

/-! # The choice of space

Condensing and preserving read the same template: the diagnostics agree, and so do the trees once
text space is deleted from them. The two readers run in step, with open elements whose finished
children differ by space only.
-/

namespace Stencil

open List TemplateNode Text String

/-- A text without its text space, and nothing of a text that was space only. -/
def TemplateNode.solid? : TemplateNode → Option TemplateNode
  | .text t =>
    match t.content.toList.filter (!isTextSpace ·) with
    | [] => none
    | cs => some (.text { t with content := ofList cs })
  | node => some node

mutual
/-- The node without the text space in the elements below it. -/
def TemplateNode.dense : TemplateNode → TemplateNode
  | .element el children => .element el (withoutSpace children)
  | node => node
/-- Siblings without text space. A text of nothing else is dropped. -/
def withoutSpace : List TemplateNode → List TemplateNode
  | [] => []
  | node :: rest => node.dense.solid?.toList ++ withoutSpace rest
end

def Root.withoutSpace (root : Root) : Root :=
  { root with children := Stencil.withoutSpace root.children }

theorem withoutSpace_eq (nodes) :
    withoutSpace nodes = (nodes.map (·.dense)).filterMap (·.solid?) := by
  induction nodes with
  | nil => rfl
  | cons node rest ih =>
    rw [withoutSpace, ih, map_cons, filterMap_cons]
    cases node.dense.solid? <;> rfl

@[simp]
theorem TemplateNode.dense_text (t) : (text t).dense = .text t := rfl

@[simp]
theorem TemplateNode.dense_comment (c) : (comment c).dense = .comment c := rfl

@[simp]
theorem TemplateNode.isComment_dense (node : TemplateNode) :
    node.dense.isComment = node.isComment := by
  cases node <;> rfl

/-! ## Space between nodes -/

theorem Text.filter_squeezeFrom (inRun cs) :
    (squeezeFrom inRun cs).filter (!isTextSpace ·) = cs.filter (!isTextSpace ·) := by
  have blank : isTextSpace ' ' = true := rfl
  induction cs generalizing inRun with
  | nil => rfl
  | cons c cs ih =>
    unfold squeezeFrom
    by_cases space : isTextSpace c = true
    · cases inRun <;> simp [space, blank, ih]
    · simp [space, ih]

/-- A text is solid as far as its characters other than space are. -/
theorem TemplateNode.solid?_text_congr {span} {a b : String}
    (same : a.toList.filter (!isTextSpace ·) = b.toList.filter (!isTextSpace ·)) :
    (text ⟨a, span⟩).solid? = (text ⟨b, span⟩).solid? := by
  simp only [solid?, same]

theorem TemplateNode.solid?_of_isSpace {t : TextNode} (space : t.isSpace = true) :
    (text t).solid? = none := by
  have none_left : t.content.toList.filter (!isTextSpace ·) = [] := by
    apply filter_eq_nil_iff.mpr
    intro c member
    simpa using all_eq_true.mp space c member
  simp only [solid?, none_left]

/-- Condensing a node takes nothing but space from it, unless the node is a comment to be
    dropped. -/
theorem solid?_condenseNode (keepComments previous) (node : TemplateNode) (next)
    (kept : keepComments = true ∨ node.isComment = false) :
    (condenseNode keepComments previous node next).bind (·.dense.solid?) = node.dense.solid? := by
  unfold condenseNode
  split
  next c =>
    obtain rfl : keepComments = true := kept.resolve_right (by simp [isComment])
    rfl
  next t =>
    split
    next space =>
      have gone := solid?_of_isSpace space
      have blank : (TemplateNode.text { t with content := " " }).solid? = none :=
        solid?_of_isSpace (by simp [TextNode.isSpace, isTextSpace])
      split
      · split
        · exact gone.symm
        · exact blank.trans gone.symm
      · exact gone.symm
    · apply solid?_text_congr
      rw [toList_ofList]
      exact filter_squeezeFrom false t.content.toList
  · rfl

theorem condenseNode_comment (previous) {node : TemplateNode} (next)
    (comment : node.isComment = true) : condenseNode false previous node next = none := by
  cases node with
  | comment c => rfl
  | _ => cases comment

/-- Condensed siblings have the content of the siblings, less the comments if they are dropped. -/
theorem withoutSpace_condenseAfter (keepComments previous nodes) :
    withoutSpace (condenseAfter keepComments previous nodes) =
      withoutSpace (nodes.filter fun node => keepComments || !node.isComment) := by
  induction nodes generalizing previous with
  | nil => rfl
  | cons node rest ih =>
    by_cases kept : keepComments = true ∨ node.isComment = false
    · have same := solid?_condenseNode keepComments previous node rest.head? kept
      have stays : (keepComments || !node.isComment) = true := by simpa using kept
      rw [filter_cons, if_pos stays]
      unfold condenseAfter
      split
      next found =>
        rw [found] at same
        rw [withoutSpace, withoutSpace, ih, ← same]
        rfl
      next found =>
        rw [found] at same
        rw [withoutSpace, ih, ← same]
        rfl
    · obtain ⟨dropped, comment⟩ : keepComments = false ∧ node.isComment = true := by
        simpa using kept
      subst dropped
      have goes : ¬(false || !node.isComment) = true := by simp [comment]
      rw [filter_cons, if_neg goes]
      unfold condenseAfter
      rw [condenseNode_comment previous rest.head? comment]
      exact ih none

theorem Options.withoutSpace_arrange (o : Options) (keepSpace nodes) :
    withoutSpace (o.arrange keepSpace nodes) =
      withoutSpace (nodes.filter fun node => o.comments || !node.isComment) := by
  unfold arrange
  split
  · exact withoutSpace_condenseAfter o.comments none nodes
  · split
    next keeps =>
      rw [filter_eq_self.mpr]
      simp [keeps]
    next drops => simp [drops]

theorem withoutSpace_dropLeadingNewline (nodes) :
    withoutSpace (dropLeadingNewline nodes) = withoutSpace nodes := by
  have feed : isTextSpace '\n' = true := rfl
  unfold dropLeadingNewline
  split
  next t rest =>
    split
    next only =>
      have gone : (TemplateNode.text t).solid? = none :=
        solid?_of_isSpace (by simp [TextNode.isSpace, only, feed])
      simp [withoutSpace, gone]
    next cs _ starts =>
      have same : (TemplateNode.text { t with content := ofList cs }).solid? =
          (TemplateNode.text t).solid? := by
        apply solid?_text_congr
        simp [starts, feed]
      simp only [withoutSpace, dense_text, same]
    · rfl
  · rfl

theorem withoutSpace_preformatted (preformatted : Bool) (nodes) :
    withoutSpace (if preformatted then dropLeadingNewline nodes else nodes) =
      withoutSpace nodes := by
  cases preformatted with
  | false => rfl
  | true => exact withoutSpace_dropLeadingNewline nodes

/-! ## Readers in step

A reader and the same reader with dense nodes go the same way, since no step but the closing of an
element looks below a node, and closing keeps all but the space.
-/

def OpenElement.dense (top : OpenElement) : OpenElement :=
  { top with before := top.before.map (·.dense) }

@[simp]
theorem OpenElement.element_dense (top : OpenElement) : top.dense.element = top.element := rfl

theorem map_dense_addText (content span nodes) :
    (addText content span nodes).map (·.dense) =
      addText content span (nodes.map (·.dense)) := by
  cases nodes with
  | nil => rfl
  | cons node rest => cases node <;> rfl

namespace Reading

def dense (s : Reading) : Reading :=
  { s with nodes := s.nodes.map (·.dense), stack := s.stack.map (·.dense) }

@[simp]
theorem inRaw_dense (s : Reading) : s.dense.inRaw = s.inRaw := by
  simp [inRaw, dense, Function.comp_def, OpenElement.dense]

theorem dense_text (o) (s : Reading) : (s.text o).dense = s.dense.text o := by
  simp only [text, inRaw_dense]
  simp only [dense, map_dense_addText, spanOf]

theorem dense_content (o) (s : Reading) : (s.content o).dense = s.dense.content o := by
  unfold content
  rw [inRaw_dense]
  dsimp only [dense]
  split
  next mark _ =>
    unfold interpolation
    dsimp only
    split
    · rfl
    · simp only [report, map_dense_addText, spanOf]
  · exact dense_text o s

theorem dense_comment (s : Reading) : s.comment.dense = s.dense.comment := by
  unfold comment
  dsimp only [dense]
  split <;> rfl

theorem dense_startTag (o) (s : Reading) : (s.startTag o).dense = s.dense.startTag o := by
  unfold startTag
  rw [inRaw_dense]
  dsimp only [dense]
  split <;> rfl

/-- Two readers that differ by the space in the elements that they have closed. -/
def Alike (s t : Reading) : Prop :=
  s.dense = t.dense

namespace Alike

variable {s t : Reading}

section

variable (alike : s.Alike t)
include alike

theorem input : s.input = t.input :=
  congrArg (·.input) alike

theorem diagnostics : s.diagnostics = t.diagnostics :=
  congrArg (·.diagnostics) alike

theorem nodes : s.nodes.map (·.dense) = t.nodes.map (·.dense) :=
  congrArg (·.nodes) alike

theorem stack : s.stack.map (·.dense) = t.stack.map (·.dense) :=
  congrArg (·.stack) alike

/-- The children of an element that closes are the same but for space, whichever way the two
    readers arrange them. -/
theorem arrange (o : Options) (w keepSpace keepSpace') :
    withoutSpace (o.arrange keepSpace s.nodes.reverse) =
      withoutSpace ({ o with whitespace := w }.arrange keepSpace' t.nodes.reverse) := by
  have kept (nodes : List TemplateNode) :
      (nodes.reverse.filter fun node => o.comments || !node.isComment).map (·.dense) =
        ((nodes.map (·.dense)).filter fun node => o.comments || !node.isComment).reverse := by
    simp [filter_map, Function.comp_def]
  rw [Options.withoutSpace_arrange, Options.withoutSpace_arrange, withoutSpace_eq, withoutSpace_eq,
    kept, kept, alike.nodes]

theorem close (o : Options) (w) : (s.close o).Alike (t.close { o with whitespace := w }) := by
  have sameStack := alike.stack
  have children := alike.arrange o w s.keepsSpace t.keepsSpace
  unfold Reading.close
  rcases here : s.stack with _ | ⟨top, stack⟩ <;>
    rcases there : t.stack with _ | ⟨top', stack'⟩ <;>
    simp only [here, there, map_nil, map_cons, List.cons.injEq, reduceCtorEq] at sameStack
  · exact alike
  · obtain ⟨tops, rest⟩ := sameStack
    have element : top.element = top'.element := congrArg (·.element) tops
    have before : top.before.map (·.dense) = top'.before.map (·.dense) :=
      congrArg (·.before) tops
    have ends : s.endsHere top = t.endsHere top' := by
      simp only [endsHere, alike.input, element]
    simp only [Alike, dense, map_cons, TemplateNode.dense, withoutSpace_preformatted, children,
      before, rest, ends, element, alike.input, alike.diagnostics]

end

/-- A step that looks below no node and at no option of space keeps two readers alike. -/
theorem of_commutes {f : Reading → Reading} (commutes : ∀ s, (f s).dense = f s.dense)
    (alike : s.Alike t) : (f s).Alike (f t) := by
  rw [Alike, commutes, commutes, alike]

variable (alike : s.Alike t) (o : Options) (w : Whitespace)
include alike w

theorem step :
    (s.step o).Alike (t.step { o with whitespace := w }) := by
  have text : (s.text o).Alike (t.text { o with whitespace := w }) :=
    of_commutes (dense_text o) alike
  have content : (s.content o).Alike (t.content { o with whitespace := w }) :=
    of_commutes (dense_content o) alike
  have startTag : (s.startTag o).Alike (t.startTag { o with whitespace := w }) :=
    of_commutes (dense_startTag o) alike
  have comment : s.comment.Alike t.comment := of_commutes dense_comment alike
  have declaration : s.declaration.Alike t.declaration := of_commutes (fun _ => rfl) alike
  have stray : s.strayEndTag.Alike t.strayEndTag := of_commutes (fun _ => rfl) alike
  have nameless : ((s.report .missingEndTagName (s.spanOf 3)).skip 3).Alike
      ((t.report .missingEndTagName (t.spanOf 3)).skip 3) :=
    of_commutes (f := fun s => (s.report .missingEndTagName (s.spanOf 3)).skip 3)
      (fun _ => rfl) alike
  have openTags (name : String) :
      (s.stack.any fun el => sameIgnoringCase el.element.tag name) =
        t.stack.any fun el => sameIgnoringCase el.element.tag name := by
    have dense := congrArg (List.any · fun el => sameIgnoringCase el.element.tag name)
      alike.stack
    simpa only [any_map, Function.comp_def, OpenElement.element_dense] using dense
  have close := alike.close o w
  unfold Reading.step
  rw [alike.input, openTags]
  split
  · exact close
  · exact nameless
  · split
    · split
      · exact close
      · exact stray
    · exact text
  · exact comment
  · exact declaration
  · split
    · exact startTag
    · exact content
  · exact content

theorem run :
    (s.run o).Alike (t.run { o with whitespace := w }) := by
  have ends (s t : Reading) (alike : s.Alike t) :
      (s.input.rest.isEmpty ∧ s.stack.isEmpty) ↔ t.input.rest.isEmpty ∧ t.stack.isEmpty := by
    have same := congrArg List.isEmpty alike.stack
    rw [isEmpty_map, isEmpty_map] at same
    rw [alike.input, same]
  fun_induction Reading.run o s generalizing t with
  | case1 s done =>
    rw [Reading.run.eq_def _ t, dif_pos ((ends s t alike).mp done)]
    exact alike
  | case2 s going ih =>
    rw [Reading.run.eq_def _ t, dif_neg (mt (ends s t alike).mpr going)]
    exact ih (alike.step o w)

end Alike

end Reading

/-- Whether space is condensed or preserved decides about space only: the diagnostics are the same,
    and so are the trees without text space. -/
theorem readTemplate_withoutSpace (o : Options) (source : String) :
    let condensed := readTemplate { o with whitespace := .condense } source
    let preserved := readTemplate { o with whitespace := .preserve } source
    condensed.2 = preserved.2 ∧ condensed.1.withoutSpace = preserved.1.withoutSpace := by
  let start : Reading := ⟨⟨0, source.toList⟩, [], [], []⟩
  have done := (show start.Alike start from rfl).run { o with whitespace := .condense } .preserve
  have children := done.arrange { o with whitespace := .condense } .preserve false false
  constructor
  · exact done.diagnostics
  · exact congrArg (Root.ofChildren · ⟨0, bytes source.toList⟩) children

end Stencil
