import Stencil.Proofs.Template.Places

/-! # Elements without directives

Inside of an element with `v-pre` nothing is a directive or an interpolation. Everything outside of
such elements is read as if there were none.
-/

namespace Stencil

open List Text Reading Nat Option

/-- All props are attributes as written. -/
def Element.Static (el : Element) : Prop :=
  ∀ p ∈ el.props, ∃ a, p = .attribute a ∧ a.name ≠ "v-pre"

/-- What stands inside of an element with `v-pre`. -/
inductive TemplateNode.Isolated : TemplateNode → Prop
  | element {el children} : el.kind = .plain → el.Static →
      (∀ child ∈ children, child.Isolated) → Isolated (.element el children)
  | text {t} : Isolated (.text t)
  | comment {c} : Isolated (.comment c)

/-- An end tag begins here. -/
def opensEndTag : List Char → Bool
  | '<' :: '/' :: c :: _ => c == '>' || isAsciiLetter c
  | _ => false

/-- Between two offsets of a text, every interpolation is in an end tag. A mark that begins like an
    end tag is none. -/
def Options.Recognises (o : Options) (text : List Char) (start stop : Nat) : Prop :=
  ∀ mark ∈ o.openMark? false, ∀ front raw rest,
    text = front ++ (mark ++ (raw ++ (o.delimiters.2.toList ++ rest))) →
    start ≤ bytes front → bytes front < stop →
    beginsWith ['<', '/'] (mark ++ (raw ++ (o.delimiters.2.toList ++ rest))) = true ∨
      ∃ before inside, front = before ++ inside ∧ '>' ∉ inside ∧
        opensEndTag (inside ++ (mark ++ (raw ++ (o.delimiters.2.toList ++ rest)))) = true

/-- What is read outside of elements with `v-pre`: directives among the attributes of each tag, and
    interpolations in the text. -/
inductive TemplateNode.ReadFrom (o : Options) (text : List Char) : TemplateNode → Prop
  | raw {el children} {i : Input} : i.Of text →
      i.pos = el.span.start → i.attributes.any (·.isPre) = true →
      el.kind = o.classify false el.tag el.props → el.Static →
      (∀ child ∈ children, child.Isolated) → ReadFrom o text (.element el children)
  | element {el children} {i : Input} : i.Of text →
      i.pos = el.span.start → i.attributes.any (·.isPre) = false →
      el.kind = o.classify false el.tag el.props → el.props = (readProps false i.attributes).props →
      (∀ child ∈ children, child.ReadFrom o text) → ReadFrom o text (.element el children)
  | text {t} : o.Recognises text t.span.start t.span.stop → ReadFrom o text (.text t)
  | comment {c} : ReadFrom o text (.comment c)
  | interpolation {content span} :
      ReadFrom o text (.interpolation content span)

variable {o : Options} {text : List Char} {i : Input}

/-! ## Text without interpolations -/

theorem Text.cut?_ne_none (mark front rest) : cut? mark (front ++ (mark ++ rest)) ≠ none := by
  induction front with
  | nil =>
    have found := after?_append mark rest
    rw [nil_append]
    cases split : mark ++ rest with
    | nil => simp [cut?, (append_eq_nil_iff.mp split).1]
    | cons c cs =>
      rw [cut?, ← split, found]
      simp
  | cons c front ih =>
    rw [cons_append, cut?]
    split
    · simp
    · simpa using ih

theorem not_textLength (before : List Char) :
    ¬before.length < textLength (some mark) (before ++ (mark ++ later)) := by
  have opens : beginsWith mark (mark ++ later) = true :=
    beginsWith_iff.mpr (prefix_append _ _)
  induction before with
  | nil =>
    rw [nil_append]
    cases split : mark ++ later with
    | nil => simp [textLength]
    | cons c cs => simp [textLength, ← split, opens]
  | cons c before ih =>
    rw [cons_append, textLength]
    split
    · simp
    · simpa using ih

/-- A place that is reached on the way to another one. -/
theorem Input.Of.within {front later n} (here : i.Of text) (split : text = front ++ later)
    (le : i.pos ≤ bytes front) (lt : bytes front < (i.skip n).pos) :
    ∃ before inside, front = before ++ inside ∧ i.rest = inside ++ later ∧ inside.length < n := by
  obtain ⟨start, whole, bytes⟩ := here
  have short {inside : List Char} (rest : i.rest = inside ++ later)
      (far : Text.bytes front = i.pos + Text.bytes inside) : inside.length < n := by
    refine lt_of_not_ge fun long => ?_
    have sizes := congrArg Text.bytes (take_append_drop n inside)
    rw [bytes_append] at sizes
    rw [Input.skip, rest, take_append_of_le_length long] at lt
    dsimp only at lt
    omega
  rcases append_eq_append_iff.mp (whole.symm.trans split) with
    ⟨inside, rfl, rest⟩ | ⟨more, rfl, rest⟩
  · refine ⟨start, inside, rfl, rest, short rest ?_⟩
    rw [bytes_append, bytes]
  · have none : more = [] := by
      have size := length_le_bytes more
      rw [bytes_append] at bytes
      exact length_eq_zero_iff.mp (by omega)
    subst none
    refine ⟨front, [], by simp, by simpa using rest.symm, short (by simpa using rest.symm) ?_⟩
    simpa [Text.bytes] using bytes

namespace Options.Recognises

theorem mono (recognises : o.Recognises text start stop) (later : start ≤ start')
    (earlier : stop' ≤ stop) : o.Recognises text start' stop' :=
  fun mark isMark front raw rest split le lt =>
    recognises mark isMark front raw rest split (by omega) (by omega)

theorem append (first : o.Recognises text start mid) (second : o.Recognises text mid stop) :
    o.Recognises text start stop := by
  intro mark isMark front raw rest split le lt
  rcases lt_or_ge (bytes front) mid with early | late
  · exact first mark isMark front raw rest split le early
  · exact second mark isMark front raw rest split late lt

variable (here : i.Of text)
include here

theorem endTag (opens : opensEndTag i.rest = true) (inTag : '>' ∉ i.rest.take (n - 1)) :
    o.Recognises text i.pos (i.skip n).pos := by
  intro mark isMark front raw rest split le lt
  obtain ⟨before, inside, rfl, passes, short⟩ := here.within split le lt
  refine .inr ⟨before, inside, rfl, fun member => inTag ?_, passes ▸ opens⟩
  rw [passes, take_append, take_of_length_le (by omega)]
  exact mem_append_left _ member

theorem skipEndTag (opens : opensEndTag i.rest = true) :
    o.Recognises text i.pos (skipEndTag i).1.pos := by
  have inTag : '>' ∉ i.rest.take (i.count (· != '>')) := by
    rw [Input.count, ← prefix_iff_eq_take.mp (List.takeWhile_prefix _)]
    exact fun member => absurd (all_eq_true.mp all_takeWhile _ member) (by simp)
  unfold Stencil.skipEndTag
  dsimp only
  split
  · exact endTag here opens fun member =>
      inTag (take_subset_take_left _ (sub_le _ _) member)
  · rw [Input.skip_skip]
    exact endTag here opens inTag

theorem takeText (notHere : ∀ mark ∈ o.openMark? false, beginsWith mark i.rest = true →
      beginsWith ['<', '/'] i.rest = true) : o.Recognises text i.pos
      (i.skip (textLength (o.openMark? false) (i.rest.drop 1) + 1)).pos := by
  intro mark isMark front raw rest split le lt
  obtain ⟨before, inside, rfl, passes, short⟩ := here.within split le lt
  rw [mem_def.mp isMark] at short
  cases inside with
  | nil =>
    refine .inl (passes ▸ notHere mark isMark ?_)
    rw [passes]
    exact beginsWith_iff.mpr (prefix_append _ _)
  | cons c inside =>
    rw [passes] at short
    exact absurd (lt_of_succ_lt_succ short) (not_textLength inside)

theorem unclosed (isMark : o.openMark? false = some mark)
    (open_ : cut? o.delimiters.2.toList (i.skip mark.length).rest = none) :
    o.Recognises text i.pos (i.skip mark.length).pos := by
  intro mark' isMark' front raw rest split le lt
  obtain rfl : mark = mark' := some.inj (isMark.symm.trans isMark')
  obtain ⟨before, inside, rfl, passes, short⟩ := here.within split le lt
  have closes : (i.skip mark.length).rest = (mark.drop (mark.length - inside.length) ++ raw) ++
      (o.delimiters.2.toList ++ rest) := by
    rw [Input.skip, passes]
    simp [drop_append, le_of_lt short]
  exact absurd open_ (closes ▸ cut?_ne_none _ _ _)

end Options.Recognises

namespace Reading

variable {s s' : Reading}

/-- In the newest text, and since then, no interpolation was passed over. -/
def Watches (o : Options) (text : List Char) (s : Reading) : Prop :=
  ∀ t rest, s.nodes = .text t :: rest → s.inRaw = false →
    o.Recognises text t.span.start s.input.pos

variable (watches : s.Watches o text)
include watches

theorem Watches.pass (nodes : s'.nodes = s.nodes)
    (stack : s'.stack = s.stack) (passed : o.Recognises text s.input.pos s'.input.pos) :
    s'.Watches o text := by
  intro t rest found normal
  rw [nodes] at found
  rw [inRaw, stack] at normal
  exact (watches t rest found normal).append passed

theorem Watches.addText {content} {span : Span} (begins : span.start = s.input.pos)
    (nodes : s'.nodes = addText content span s.nodes) (stack : s'.stack = s.stack)
    (passed : s.inRaw = false → o.Recognises text s.input.pos s'.input.pos) :
    s'.Watches o text := by
  obtain ⟨t, rest, added, -, joins⟩ := addText_eq content span s.nodes
  intro t' rest' found normal
  rw [nodes, added] at found
  obtain ⟨rfl, rfl⟩ : t = t' ∧ rest = rest' := by simpa using found
  rw [inRaw, stack] at normal
  have passed := passed normal
  obtain same | ⟨before, isText, same⟩ := joins
  · rw [same, begins]
    exact passed
  · rw [same, Span.merge, begins]
    rcases le_total before.span.start s.input.pos with le | le
    · rw [min_eq_left le]
      exact (watches before rest isText normal).append passed
    · rw [min_eq_right le]
      exact passed

theorem Watches.close : (s.close o).Watches o text := by
  unfold Reading.close
  split
  · exact watches
  · rintro _ _ ⟨⟩

variable (placed : s.Placed text)
include placed

theorem Watches.takeText
    (notHere : ∀ mark ∈ o.openMark? s.inRaw, beginsWith mark s.input.rest = true →
      beginsWith ['<', '/'] s.input.rest = true) : (s.text o).Watches o text := by
  refine watches.addText rfl rfl rfl fun normal => ?_
  rw [normal] at notHere
  rw [Reading.text, normal]
  exact .takeText placed.input notHere

theorem Watches.content :
    (s.content o).Watches o text := by
  unfold Reading.content
  split
  next mark found =>
    obtain ⟨isMark, -⟩ := filter_eq_some_iff.mp found
    unfold interpolation
    dsimp only
    split
    · rintro _ _ ⟨⟩
    next open_ =>
      refine watches.addText rfl rfl rfl fun normal => ?_
      rw [normal] at isMark
      exact .unclosed placed.input isMark open_
  next noMark =>
    refine watches.takeText placed fun mark isMark begins => ?_
    rw [filter_eq_none_iff] at noMark
    exact absurd begins (noMark mark isMark)

theorem Watches.step :
    (s.step o).Watches o text := by
  unfold Reading.step
  split
  · exact watches.close
  next rest =>
    refine watches.pass rfl rfl (.endTag placed.input ?_ ?_) <;> simp [rest, opensEndTag]
  next rest _ split =>
    split
    next letter =>
      split
      · exact watches.close
      · refine watches.pass rfl rfl (.skipEndTag placed.input ?_)
        rw [split]
        cases rest with
        | nil => cases letter
        | cons c cs => exact Bool.or_eq_true_iff.mpr (.inr letter)
    · refine watches.takeText placed fun _ _ _ => ?_
      rw [split]
      rfl
  · unfold comment
    dsimp only
    split <;> rintro _ _ ⟨⟩
  · rintro _ _ ⟨⟩
  · split
    · unfold startTag
      dsimp only
      split <;> rintro _ _ ⟨⟩
    · exact watches.content placed
  · exact watches.content placed

end Reading

/-! ## Props -/

theorem static_readProps (attributes) :
    ∀ p ∈ (readProps true attributes).props, ∃ a, p = .attribute a ∧ a.name ≠ "v-pre" := by
  induction attributes with
  | nil => rintro _ ⟨⟩
  | cons a rest ih =>
    rw [readProps]
    rw [if_pos rfl]
    split
    · exact ih
    next other =>
      refine forall_mem_cons.mpr ⟨⟨_, rfl, fun same => other ?_⟩, ih⟩
      have named := congrArg String.toList same
      rw [RawAttribute.toAttribute, String.toList_ofList] at named
      rw [RawAttribute.isPre, named]
      decide

/-- What is known of an element when its start tag has been read. -/
def Element.Opens (o : Options) (text : List Char) (el : Element) : Bool → Bool → Prop
  | true, _ => el.kind = .plain ∧ el.Static
  | false, isRaw => ∃ i : Input, i.Of text ∧ i.pos = el.span.start ∧
      i.attributes.any (·.isPre) = isRaw ∧ el.kind = o.classify false el.tag el.props ∧
      el.props = (readProps isRaw i.attributes).props

def TemplateNode.ReadIn (o : Options) (text : List Char) (node : TemplateNode) : Bool → Prop
  | true => node.Isolated
  | false => node.ReadFrom o text

/-- An element with `v-pre` isolates what is inside of it. It has only attributes, as written, and
    the elements inside of it are plain and have only these, and nothing there is an interpolation.
    All that is outside of such elements, also what comes after one, is read with its directives and
    interpolations. -/
theorem readTemplate_readFrom (o : Options) (source : String) :
    ∀ node ∈ (readTemplate o source).1.children, node.ReadFrom o source.toList := by
  have rules : ReadRules o (fun s => s.Placed source.toList ∧ s.Watches o source.toList)
      (fun inRaw node => node.ReadIn o source.toList inRaw)
      (fun inRaw isRaw el => el.Opens o source.toList inRaw isRaw) :=
    { step := fun holds => ⟨holds.1.step o, holds.2.step holds.1⟩
      text := fun {s t rest} holds found => by
        cases mode : s.inRaw with
        | true => exact .text
        | false =>
          have inside := holds.1.siblings.order.inside t.span (by simp [found, TemplateNode.span])
          exact .text ((holds.2 t rest found mode).mono (Nat.le_refl _) inside.2)
      changed := fun {inRaw t t'} same read => by
        cases inRaw with
        | true => exact .text
        | false =>
          cases read with
          | text recognises => exact .text (same ▸ recognises)
      comment := fun inRaw _ => by cases inRaw <;> exact .comment
      interpolation := fun _ _ normal _ => by
        rw [normal]
        exact .interpolation
      start := fun {s} tag selfClosing stop holds => by
        cases mode : s.inRaw with
        | true => exact ⟨rfl, static_readProps _⟩
        | false => exact ⟨s.input, holds.1.input, rfl, rfl, rfl, rfl⟩
      resized := fun {inRaw isRaw el} stop opens => by
        cases inRaw <;> exact opens
      element := fun {inRaw isRaw el children} opens below => by
        cases inRaw with
        | true =>
          rw [Bool.or_true] at below
          exact .element opens.1 opens.2 below
        | false =>
          obtain ⟨i, here, start, pre, kind, props⟩ := opens
          cases isRaw with
          | true =>
            refine .raw here start pre kind ?_ below
            exact fun p member => static_readProps _ p (props ▸ member)
          | false => exact .element here start pre kind props below }
  have placed : Reading.Placed source.toList ⟨⟨0, source.toList⟩, [], [], []⟩ :=
    ⟨⟨[], rfl, rfl⟩, ⟨by simp, .nil (Nat.le_refl _)⟩, .nil, by simp⟩
  exact rules.readTemplate ⟨placed, by rintro _ _ ⟨⟩⟩

theorem rawParagraph_readFrom :
    let text := "<p v-pre :id=\"a\">\x7b\x7bb\x7d\x7d</p>\x7b\x7bc\x7d\x7d"
    let nodes := (readTemplate {} text).1.children
    nodes.length = 2 ∧ ∀ node ∈ nodes.head?, node.ReadFrom {} text.toList := by
  refine ⟨by decide +kernel, fun node first => ?_⟩
  exact readTemplate_readFrom _ _ _ (mem_of_mem_head? first)

end Stencil
