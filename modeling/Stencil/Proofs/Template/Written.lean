import Stencil.Template.Reader

/-! # Templates as written

What the reader gives is as it is written in the template: no script in it has been analysed, and
nothing has been lowered.
-/

namespace Stencil

open List Text Reading Option TemplateNode

/-- Script as the template has it. -/
def Expression.Written (e : Expression) : Prop :=
  ∃ content span, e = .snippet content false span

structure Directive.Written (d : Directive) : Prop where
  arg : ∀ a ∈ d.arg, a.isStatic = true ∨ a.Written
  exp : ∀ e ∈ d.exp, e.Written
  loop : d.loop = none

inductive ElementProp.Written : ElementProp → Prop
  | attribute {a} : Written (.attribute a)
  | directive {d} : d.Written → Written (.directive d)

structure Element.Written (el : Element) : Prop where
  props : ∀ p ∈ el.props, p.Written
  lowered : el.lowered = none

inductive TemplateNode.Written : TemplateNode → Prop
  | element {el children} :
      el.Written → (∀ child ∈ children, child.Written) → Written (.element el children)
  | text {t} : Written (.text t)
  | comment {c} : Written (.comment c)
  | interpolation {content span} :
      content.Written → Written (.interpolation content span)

/-! ## Attributes and directives -/

theorem RawAttribute.written_script? (a : RawAttribute) : ∀ e ∈ a.script?, e.Written := by
  intro e member
  unfold script? at member
  split at member
  · split at member
    · cases member
    · exact ⟨_, _, (some.inj member).symm⟩
  · cases member

theorem written_readArgument (start raw) :
    (readArgument start raw).1.isStatic = true ∨ (readArgument start raw).1.Written := by
  unfold readArgument
  split
  · exact .inr ⟨_, _, rfl⟩
  · exact .inl rfl

theorem written_readDirective (a) : ∀ d ∈ (readDirective a).directive, d.Written := by
  intro d member
  unfold readDirective at member
  split at member
  · cases member
  · dsimp only at member
    split at member
    · cases member
    · split at member
      · split at member
        · cases member
        · obtain rfl := some.inj member
          exact ⟨by simp, a.written_script?, rfl⟩
      · split at member <;> split at member
        all_goals
          obtain rfl := some.inj member
          refine ⟨?_, a.written_script?, rfl⟩
          rintro _ ⟨⟩
          exact written_readArgument _ _

/-- What holds of attributes, and of the directives that are read, holds of all props. -/
theorem forall_readProps {Q : ElementProp → Prop} (static : ∀ a, Q (.attribute a)) (raw)
    (directives : ∀ a ∈ attributes, isDirectiveName a.name = true →
      ∀ d ∈ (readDirective a).directive, Q (.directive d)) :
    ∀ p ∈ (readProps raw attributes).props, Q p := by
  induction attributes with
  | nil => rintro _ ⟨⟩
  | cons a rest ih =>
    obtain ⟨here, later⟩ := forall_mem_cons.mp directives
    have others := ih later
    rw [readProps]
    split
    · split
      · exact others
      · exact forall_mem_cons.mpr ⟨static _, others⟩
    · split
      next isName =>
        refine forall_mem_append.mpr ⟨fun p member => ?_, others⟩
        obtain ⟨d, found, rfl⟩ := map_eq_some_iff.mp (mem_toList.mp member)
        exact here isName d found
      · exact forall_mem_cons.mpr ⟨static _, others⟩

/-! ## Space between nodes -/

/-- Some of the nodes, in their order. Texts among them may have changed. -/
inductive Thinned : List TemplateNode → List TemplateNode → Prop
  | nil : Thinned [] []
  | keep {node nodes kept} :
      Thinned nodes kept → Thinned (node :: nodes) (node :: kept)
  | change {t t' nodes kept} : t'.span = t.span →
      Thinned nodes kept → Thinned (.text t :: nodes) (.text t' :: kept)
  | drop {node nodes kept} :
      Thinned nodes kept → Thinned (node :: nodes) kept

namespace Thinned

variable {nodes kept : List TemplateNode}

theorem refl (nodes) : Thinned nodes nodes := by
  induction nodes with
  | nil => exact .nil
  | cons _ _ ih => exact .keep ih

theorem condenseAfter (keepComments previous nodes) :
    Thinned nodes (condenseAfter keepComments previous nodes) := by
  induction nodes generalizing previous with
  | nil => exact .nil
  | cons node rest ih =>
    unfold Stencil.condenseAfter
    split
    next kept found =>
      unfold condenseNode at found
      split at found
      · split at found
        · exact some.inj found ▸ .keep (ih _)
        · cases found
      · split at found
        · split at found
          · split at found
            · cases found
            · exact some.inj found ▸ .change rfl (ih _)
          · cases found
        · exact some.inj found ▸ .change rfl (ih _)
      · exact some.inj found ▸ .keep (ih _)
    · exact .drop (ih _)

theorem filter (p : TemplateNode → Bool) (nodes) : Thinned nodes (nodes.filter p) := by
  induction nodes with
  | nil => exact .nil
  | cons node rest ih =>
    rw [filter_cons]
    split
    · exact .keep ih
    · exact .drop ih

theorem arrange (o : Options) (keepSpace nodes) : Thinned nodes (o.arrange keepSpace nodes) := by
  unfold Options.arrange
  split
  · exact condenseAfter o.comments none nodes
  · split
    · exact .refl nodes
    · exact filter _ nodes

theorem dropLeadingNewline (nodes) : Thinned nodes (dropLeadingNewline nodes) := by
  unfold Stencil.dropLeadingNewline
  split
  · split
    · exact .drop (.refl _)
    · exact .change rfl (.refl _)
    · exact .refl _
  · exact .refl nodes

theorem trans (first : Thinned nodes kept) (second : Thinned kept few) : Thinned nodes few := by
  induction first generalizing few with
  | nil => exact second
  | keep _ ih =>
    cases second with
    | keep rest => exact .keep (ih rest)
    | change same rest => exact .change same (ih rest)
    | drop rest => exact .drop (ih rest)
  | change same _ ih =>
    cases second with
    | keep rest => exact .change same (ih rest)
    | change same' rest => exact .change (same'.trans same) (ih rest)
    | drop rest => exact .drop (ih rest)
  | drop _ ih => exact .drop (ih second)

/-- The children that an element gets when it is closed. -/
theorem children (o : Options) (keepSpace drops : Bool) (nodes) :
    Thinned nodes (if drops then Stencil.dropLeadingNewline (o.arrange keepSpace nodes)
      else o.arrange keepSpace nodes) := by
  split
  · exact (arrange o keepSpace nodes).trans (dropLeadingNewline _)
  · exact arrange o keepSpace nodes

variable {Q : TemplateNode → Prop}
  (changed : ∀ {t t' : TextNode}, t'.span = t.span → Q (.text t) → Q (.text t'))

include changed in
theorem forall_mem (thinned : Thinned nodes kept) (holds : ∀ node ∈ nodes, Q node) :
    ∀ node ∈ kept, Q node := by
  induction thinned with
  | nil => exact holds
  | keep _ ih =>
    obtain ⟨here, later⟩ := forall_mem_cons.mp holds
    exact forall_mem_cons.mpr ⟨here, ih later⟩
  | change same _ ih =>
    obtain ⟨here, later⟩ := forall_mem_cons.mp holds
    exact forall_mem_cons.mpr ⟨changed same here, ih later⟩
  | drop _ ih => exact ih (forall_mem_cons.mp holds).2

theorem spans (thinned : Thinned nodes kept) :
    (kept.map (·.span)).Sublist (nodes.map (·.span)) := by
  induction thinned with
  | nil => exact .slnil
  | keep _ ih => exact ih.cons_cons _
  | @change t t' _ _ same _ ih =>
    have same : (text t').span = (text t).span := same
    rw [map_cons, same]
    exact ih.cons_cons _
  | drop _ ih => exact ih.cons _

end Thinned

theorem addText_eq (content span nodes) :
    ∃ t rest, addText content span nodes = .text t :: rest ∧ rest ⊆ nodes ∧
      (t.span = span ∨ ∃ t', nodes = .text t' :: rest ∧ t.span = t'.span.merge span) := by
  unfold addText
  split
  next t rest => exact ⟨_, rest, rfl, subset_cons_self _ _, .inr ⟨t, rfl, rfl⟩⟩
  · exact ⟨_, nodes, rfl, List.Subset.refl _, .inl rfl⟩

/-! ## Reading

What is asked of nodes holds of everything that is read if it holds of each piece of markup. An
invariant of the reader may be relied on for that.
-/

/-- The attributes that are written in the start tag here. -/
def Input.attributes (i : Input) : List RawAttribute :=
  let tagName := (i.rest.drop 2).takeWhile fun c => !isBlank c && c != '/' && c != '>'
  (readAttributes [] (i.skip (tagName.length + 2))).attributes

/-- What a property `Q` of nodes, a property `E` of elements without their children and an invariant
    `I` of the reader have to satisfy. Nodes are inside of a raw element or not, and elements are raw
    themselves or not. -/
structure ReadRules (o : Options) (I : Reading → Prop) (Q : Bool → TemplateNode → Prop)
    (E : Bool → Bool → Element → Prop) : Prop where
  step {s : Reading} : I s → I (s.step o)
  text {s : Reading} {t : TextNode} {rest : List TemplateNode} :
    I s → s.nodes = .text t :: rest → Q s.inRaw (.text t)
  changed {inRaw : Bool} {t t' : TextNode} :
    t'.span = t.span → Q inRaw (.text t) → Q inRaw (.text t')
  comment (inRaw : Bool) (c : Comment) : Q inRaw (.comment c)
  interpolation {s : Reading} {mark raw rest : List Char} (span : Span) : I s →
    s.inRaw = false →
    cut? o.delimiters.2.toList (s.input.skip mark.length).rest = some (raw, rest) →
    let offset := (s.input.skip mark.length).pos + (bytes raw - bytes (trimStart raw))
    Q s.inRaw (.interpolation (.snippet (String.ofList (decode (trim raw))) false
      ⟨offset, offset + bytes (trim raw)⟩) span)
  start {s : Reading} (tag : String) (selfClosing : Bool) (stop : Nat) : I s →
    let isRaw := !s.inRaw && s.input.attributes.any (·.isPre)
    let props := (readProps (s.inRaw || isRaw) s.input.attributes).props
    E s.inRaw isRaw { tag, kind := o.classify s.inRaw tag props, props, selfClosing,
                      lowered := none, span := ⟨s.input.pos, stop⟩ }
  resized {inRaw isRaw : Bool} {el : Element} (stop : Nat) :
    E inRaw isRaw el → E inRaw isRaw { el with span := ⟨el.span.start, stop⟩ }
  element {inRaw isRaw : Bool} {el : Element} {children : List TemplateNode} :
    E inRaw isRaw el → (∀ child ∈ children, Q (isRaw || inRaw) child) →
    Q inRaw (.element el children)

/-- Open elements, and what was read before them, are as the rules ask. -/
inductive Opened (Q : Bool → TemplateNode → Prop) (E : Bool → Bool → Element → Prop) :
    List OpenElement → Prop
  | nil : Opened Q E []
  | cons {top stack} :
      E (stack.any (·.isRaw)) top.isRaw top.element →
      (∀ node ∈ top.before, Q (stack.any (·.isRaw)) node) → Opened Q E stack →
      Opened Q E (top :: stack)

/-- What has been read so far is as the rules ask. -/
structure Reading.Obeys (Q : Bool → TemplateNode → Prop) (E : Bool → Bool → Element → Prop)
    (s : Reading) : Prop where
  nodes : ∀ node ∈ s.nodes, Q s.inRaw node
  stack : Opened Q E s.stack

namespace ReadRules

variable (rules : ReadRules o I Q E) {s : Reading} (obeys : s.Obeys Q E)
include rules obeys

theorem close : (s.close o).Obeys Q E := by
  unfold Reading.close
  split
  · exact obeys
  next top stack found =>
    obtain ⟨nodes, opened⟩ := obeys
    rw [inRaw, found] at nodes
    rw [found] at opened
    cases opened with
    | cons element before opened =>
      refine ⟨forall_mem_cons.mpr ⟨?_, before⟩, opened⟩
      refine rules.element (rules.resized _ element) ?_
      exact (Thinned.children ..).forall_mem rules.changed
        fun node member => nodes node (mem_reverse.mp member)

omit rules in
theorem add (holds : Q s.inRaw node) : (s.add node).Obeys Q E :=
  ⟨forall_mem_cons.mpr ⟨holds, obeys.nodes⟩, obeys.stack⟩

theorem takeComment : s.comment.Obeys Q E := by
  have added (c : Comment) := add obeys (rules.comment s.inRaw c)
  unfold Reading.comment
  dsimp only
  split
  · exact ⟨(added _).nodes, obeys.stack⟩
  · exact ⟨(added _).nodes, obeys.stack⟩

theorem startTag (holds : I s) : (s.startTag o).Obeys Q E := by
  unfold Reading.startTag
  dsimp only
  split
  · refine ⟨forall_mem_cons.mpr ⟨?_, obeys.nodes⟩, obeys.stack⟩
    exact rules.element (rules.start _ _ _ holds) (by simp)
  · exact ⟨by simp, .cons (rules.start _ _ _ holds) obeys.nodes obeys.stack⟩

theorem addText {content span} {after : Reading}
    (nodes : after.nodes = addText content span s.nodes) (stack : after.stack = s.stack)
    (holds : I after) : after.Obeys Q E := by
  obtain ⟨t, rest, added, others, -⟩ := addText_eq content span s.nodes
  have sameMode : after.inRaw = s.inRaw := by rw [inRaw, stack, inRaw]
  refine ⟨?_, stack ▸ obeys.stack⟩
  rw [nodes, added]
  refine forall_mem_cons.mpr ⟨rules.text holds (nodes.trans added), ?_⟩
  rw [sameMode]
  exact fun node member => obeys.nodes node (others member)

theorem content (holds : I s) (after : I (s.content o)) : (s.content o).Obeys Q E := by
  generalize step : s.content o = s' at after ⊢
  unfold Reading.content at step
  split at step
  next mark found =>
    have normal : s.inRaw = false := by
      have opens := (filter_eq_some_iff.mp found).1
      cases mode : s.inRaw with
      | false => rfl
      | true => simp [mode, Options.openMark?] at opens
    unfold Reading.interpolation at step
    dsimp only at step
    split at step
    next raw rest closes =>
      subst step
      exact ⟨(add obeys (rules.interpolation _ holds normal closes)).nodes, obeys.stack⟩
    · subst step
      exact rules.addText obeys rfl rfl after
  · subst step
    exact rules.addText obeys rfl rfl after

theorem stepped (holds : I s) : (s.step o).Obeys Q E := by
  have after := rules.step holds
  generalize step : s.step o = s' at after ⊢
  unfold Reading.step at step
  split at step
  · exact step ▸ rules.close obeys
  · exact step ▸ ⟨obeys.nodes, obeys.stack⟩
  · split at step
    · split at step
      · exact step ▸ rules.close obeys
      · exact step ▸ ⟨obeys.nodes, obeys.stack⟩
    · subst step
      exact rules.addText obeys rfl rfl after
  · exact step ▸ rules.takeComment obeys
  · exact step ▸ ⟨(add obeys (rules.comment _ _)).nodes, obeys.stack⟩
  · split at step
    · exact step ▸ rules.startTag obeys holds
    · subst step
      exact rules.content obeys holds after
  · subst step
    exact rules.content obeys holds after

theorem run (holds : I s) : (s.run o).Obeys Q E := by
  fun_induction Reading.run o s with
  | case1 s _ => exact obeys
  | case2 s _ ih => exact ih (rules.stepped obeys holds) (rules.step holds)

end ReadRules

theorem Reading.stack_run (o) (s : Reading) : (s.run o).stack = [] := by
  fun_induction run o s with
  | case1 s done => exact List.isEmpty_iff.mp done.2
  | case2 s _ ih => exact ih

theorem ReadRules.readTemplate {I : Reading → Prop} {Q : Bool → TemplateNode → Prop}
    (rules : ReadRules o I Q E) {source : String} (start : I ⟨⟨0, source.toList⟩, [], [], []⟩) :
    ∀ node ∈ (readTemplate o source).1.children, Q false node := by
  have nothing : Reading.Obeys Q E ⟨⟨0, source.toList⟩, [], [], []⟩ := ⟨by simp, .nil⟩
  have done := rules.run nothing start
  refine (Thinned.arrange o false _).forall_mem rules.changed fun node member => ?_
  have holds := done.nodes node (mem_reverse.mp member)
  rwa [inRaw, stack_run] at holds

theorem written_readTemplate (o source) :
    ∀ node ∈ (readTemplate o source).1.children, node.Written := by
  have rules : ReadRules o (fun _ => True) (fun _ => TemplateNode.Written)
      (fun _ _ => Element.Written) :=
    { step := fun _ => trivial
      text := fun _ _ => .text
      changed := fun _ _ => .text
      comment := fun _ _ => .comment
      interpolation := fun _ _ _ _ => .interpolation ⟨_, _, rfl⟩
      start := fun _ _ _ _ => ⟨forall_readProps (fun _ => .attribute) _
        fun a _ _ d found => .directive (written_readDirective a d found), rfl⟩
      resized := fun _ written => ⟨written.props, written.lowered⟩
      element := .element }
  exact rules.readTemplate trivial

end Stencil
