import Stencil.Proofs.Template.Printing
import Stencil.Proofs.Template.Spacing

/-! # Condensing twice

A second pass sees other neighbours than the first: those that are left. It agrees with the first
one on every node, except for a space that has come to the end because the comments behind it were
dropped.
-/

namespace Stencil

open List TemplateNode Text String

/-- Whether the last of the siblings is space. -/
def endsInSpace (nodes : List TemplateNode) : Bool :=
  nodes.getLast?.any (·.isSpace)

/-- Siblings without space at their end. -/
def withoutEndSpace (nodes : List TemplateNode) : List TemplateNode :=
  if endsInSpace nodes then nodes.dropLast else nodes

theorem Text.squeezeFrom_squeezeFrom (inRun cs) :
    squeezeFrom inRun (squeezeFrom inRun cs) = squeezeFrom inRun cs := by
  have blank : isTextSpace ' ' = true := rfl
  induction cs generalizing inRun with
  | nil => rfl
  | cons c cs ih =>
    by_cases space : isTextSpace c = true
    · cases inRun <;> simp [squeezeFrom, space, blank, ih]
    · simp [squeezeFrom, space, ih]

theorem isSpace_squeeze (t : TextNode) :
    TextNode.isSpace { t with content := ofList (squeeze t.content.toList) } =
      t.isSpace := by
  have all (cs : List Char) : cs.all isTextSpace = (cs.filter (!isTextSpace ·)).isEmpty := by
    induction cs with
    | nil => rfl
    | cons c cs ih => cases space : isTextSpace c <;> simp [space, ih]
  rw [TextNode.isSpace, TextNode.isSpace, toList_ofList, all, all, squeeze,
    filter_squeezeFrom]

/-- A node is kept as it is by a second pass, or it is a space between nodes that it does not lay
    out. -/
theorem condenseNode_kept {previous next node kept}
    (keeps : condenseNode keepComments previous node next = some kept) :
    (kept.isSpace = false ∧
      ∀ previous' next', condenseNode keepComments previous' kept next' = some kept) ∨
    ∃ p n, ∃ t : TextNode, previous = some p ∧ next = some n ∧ node.isPlainText = true ∧
      isLayout p n t.content = false ∧ kept = .text { t with content := " " } := by
  cases node with
  | comment c =>
    simp only [condenseNode] at keeps
    split at keeps
    next keep =>
      cases keeps
      exact .inl ⟨rfl, fun _ _ => if_pos keep⟩
    · cases keeps
  | text t =>
    simp only [condenseNode] at keeps
    split at keeps
    · split at keeps
      next p n =>
        split at keeps
        · cases keeps
        next seen =>
          cases keeps
          exact .inr ⟨p, n, t, rfl, rfl, rfl, by simpa using seen, rfl⟩
      · cases keeps
    next solid =>
      cases keeps
      have solid : TextNode.isSpace
          { t with content := ofList (squeeze t.content.toList) } = false := by
        rw [isSpace_squeeze]
        simpa using solid
      refine .inl ⟨solid, fun _ _ => ?_⟩
      refine (if_neg (by simp [solid])).trans ?_
      simp only [toList_ofList, squeeze, squeezeFrom_squeezeFrom]
  | _ =>
    cases keeps
    exact .inl ⟨rfl, fun _ _ => rfl⟩

/-- A node other than text is dropped only if it is a comment. -/
theorem condenseNode_other {previous next} {node : TemplateNode}
    (other : node.isPlainText = false) :
    condenseNode keepComments previous node next = some node ∨
      keepComments = false ∧ node.isComment = true := by
  cases node with
  | text => cases other
  | comment => cases keepComments <;> simp [condenseNode, isComment]
  | _ => exact .inl rfl

theorem withoutEndSpace_cons {node : TemplateNode} (inside : node.isSpace = false ∨ nodes ≠ []) :
    withoutEndSpace (node :: nodes) = node :: withoutEndSpace nodes := by
  cases nodes with
  | nil =>
    have solid : node.isSpace = false := inside.resolve_right (by simp)
    simp [withoutEndSpace, endsInSpace, solid]
  | cons next rest =>
    exact (apply_ite (node :: ·) ..).symm

/-- The second pass over siblings that begin behind the same node, or were first condensed behind
    none. -/
theorem condenseAfter_condenseAfter (apart : TextsApart nodes)
    (same : previous = none ∨ previous' = previous) :
    condenseAfter keepComments previous' (condenseAfter keepComments previous nodes) =
      withoutEndSpace (condenseAfter keepComments previous nodes) := by
  induction nodes generalizing previous previous' with
  | nil => rfl
  | cons node rest ih =>
    have behind : TextsApart rest := apart.tail
    rw [condenseAfter]
    split
    next kept keeps =>
      have later := @ih (some kept) (some kept) behind (.inr rfl)
      rcases condenseNode_kept keeps with ⟨solid, stays⟩ | ⟨p, n, t, rfl, next, text, seen, rfl⟩
      · rw [condenseAfter, stays, withoutEndSpace_cons (.inl solid)]
        exact congrArg _ later
      · obtain rfl : previous' = some p := same.resolve_left (by simp)
        obtain ⟨rest', rfl⟩ : ∃ rest', rest = n :: rest' := by
          cases rest <;> simp_all
        have other : n.isPlainText = false := by
          simpa [text] using (isChain_cons_cons.mp apart).1
        have space : TextNode.isSpace { t with content := " " } = true := by
          simp [TextNode.isSpace, isTextSpace]
        -- the space now stands before the first node that is left of the rest
        cases left : condenseAfter keepComments (some (.text { t with content := " " }))
            (n :: rest') with
        | nil => simp [condenseAfter, condenseNode, space, withoutEndSpace, endsInSpace, isSpace]
        | cons m after =>
          have seen' : isLayout p m " " = false := by
            rcases @condenseNode_other keepComments (some (.text { t with content := " " })) rest'.head? _
              other with keeps | ⟨-, comment⟩
            · rw [condenseAfter, keeps] at left
              obtain ⟨rfl, -⟩ := List.cons.inj left
              revert seen
              simp only [isLayout, show breaksLine " " = false from rfl]
              cases p.isComment <;> cases p.isElement <;> cases n.isComment <;>
                cases n.isElement <;> simp
            · revert seen
              simp only [isLayout, comment]
              cases p.isComment <;> cases p.isElement <;> simp
          have stays : condenseNode keepComments (some p) (.text { t with content := " " })
              (some m) = some (.text { t with content := " " }) := by
            simp [condenseNode, space, seen']
          rw [left] at later
          rw [condenseAfter, head?_cons, stays, withoutEndSpace_cons (.inr (by simp))]
          exact congrArg _ later
    · exact ih behind (.inl rfl)

/-- Where no comment is dropped, no space comes to the end. -/
theorem endsInSpace_condenseAfter (apart : TextsApart nodes)
    (keeps : keepComments = true ∨ ∀ node ∈ nodes, node.isComment = false) :
    endsInSpace (condenseAfter keepComments previous nodes) = false := by
  induction nodes generalizing previous with
  | nil => rfl
  | cons node rest ih =>
    have later (previous : Option TemplateNode) :=
      @ih previous apart.tail (keeps.imp_right fun all => (forall_mem_cons.mp all).2)
    rw [condenseAfter]
    split
    next kept isKept =>
      cases left : condenseAfter keepComments (some kept) rest with
      | cons m after =>
        have ends := later (some kept)
        rw [left] at ends
        simpa [endsInSpace] using ends
      | nil =>
        rcases condenseNode_kept isKept with ⟨solid, -⟩ | ⟨p, n, t, rfl, next, text, -, rfl⟩
        · simpa [endsInSpace] using solid
        · obtain ⟨rest', rfl⟩ : ∃ rest', rest = n :: rest' := by
            cases rest <;> simp_all
          have other : n.isPlainText = false := by
            simpa [text] using (isChain_cons_cons.mp apart).1
          rcases @condenseNode_other keepComments (some (.text { t with content := " " })) rest'.head? _
            other with stays | ⟨drops, comment⟩
          · rw [condenseAfter, stays] at left
            cases left
          · rcases keeps with keeps | none
            · simp [drops] at keeps
            · simp [none n (by simp)] at comment
    · exact later none

/-- Condensing a second time drops nothing but a space at the end, and not even that unless comments
    were dropped. -/
theorem condense_condense (keepComments : Bool) {nodes : List TemplateNode}
    (apart : TextsApart nodes) : condense keepComments (condense keepComments nodes) =
        withoutEndSpace (condense keepComments nodes) ∧
      (keepComments = true ∨ (∀ node ∈ nodes, node.isComment = false) →
        condense keepComments (condense keepComments nodes) = condense keepComments nodes) := by
  have twice : condense keepComments (condense keepComments nodes) = _ :=
    condenseAfter_condenseAfter apart (.inl rfl)
  refine ⟨twice, fun keeps => twice.trans ?_⟩
  rw [withoutEndSpace, condense, endsInSpace_condenseAfter apart keeps, if_neg (by simp)]

/-- An interpolation, a space and a comment. -/
def remark : List TemplateNode :=
  [.interpolation (.snippet "a" false .empty) .empty, .text ⟨"\n", .empty⟩, .comment ⟨"c", .empty⟩]

theorem remark_condensed : TextsApart remark ∧
    condense true (condense true remark) = condense true remark :=
  have apart : TextsApart remark := by
    simp [TextsApart, remark, isPlainText]
  ⟨apart, (condense_condense true apart).2 (.inl rfl)⟩

/-- Without its comment, the first pass leaves a space at the end, which the second one drops. -/
theorem remark_not_condensed : TextsApart remark ∧
    condense false (condense false remark) ≠ condense false remark := by
  refine ⟨by simp [TextsApart, remark, isPlainText], fun same => ?_⟩
  have lengths := congrArg List.length same
  revert lengths
  decide

end Stencil
