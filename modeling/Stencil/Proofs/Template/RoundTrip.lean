import Mathlib.Data.List.Nodup
import Mathlib.Data.Set.List
import Stencil.Proofs.Template.Printing

/-! # Reading what was printed

A printed tree is read back as it was. Each printed node is read from the front of the text in one
step, an element in a step for each of its tags and those of its children between them.
-/

namespace Stencil

open List TemplateNode Text Reading

variable {after tail : List Char} {el : Element} {i : Input} {nodes : List TemplateNode}
  {o : Options} {s : Reading} {node : TemplateNode}

theorem takeWhile_append_cons {p : Char → Bool} (inside : ∀ d ∈ front, p d = true)
    (stops : p c = false) (rest) : (front ++ c :: rest).takeWhile p = front := by
  rw [takeWhile_append_of_pos inside, takeWhile_cons_of_neg (by simp [stops]), append_nil]

theorem Input.rest_skip (rest : i.rest = front ++ after) : (i.skip front.length).rest = after := by
  rw [Input.skip, rest]
  exact drop_left

theorem Input.rest_count {p : Char → Bool} (inside : ∀ d ∈ front, p d = true) (stops : p c = false)
    (rest : i.rest = front ++ c :: after) :
    i.rest.takeWhile p = front ∧ (i.skip (i.count p)).rest = c :: after := by
  have taken : i.rest.takeWhile p = front := by rw [rest, takeWhile_append_cons inside stops]
  exact ⟨taken, by rw [Input.count, taken, rest_skip rest]⟩

theorem Input.rest_skipBlank (i : Input) : i.skipBlank.rest = i.rest.dropWhile isBlank :=
  rest_skip takeWhile_append_dropWhile.symm

/-! ## Attributes -/

structure EndsAttribute (after : List Char) : Prop where
  head : after.head?.any (fun c => isBlank c || c == '>') = true
  noValue : (after.dropWhile isBlank).head? ≠ some '='

theorem attributeNameLength_append {name : List Char}
    (chars : ∀ c ∈ name, (isTagChar c && c != '=' && c != '[') = true)
    (ends : after.head?.any (fun c => isBlank c || c == '>' || c == '=') = true) :
    attributeNameLength false (name ++ after) = name.length := by
  induction name with
  | nil =>
    cases after with
    | nil => cases ends
    | cons c after =>
      have noBracket : c ≠ '[' := by
        rintro rfl
        have notBlank : isBlank '[' = false := by decide
        simp [notBlank] at ends
      simp only [nil_append, attributeNameLength, noBracket, Bool.false_eq_true, if_false,
        length_nil]
      grind
  | cons c name ih =>
    obtain ⟨first, others⟩ := forall_mem_cons.mp chars
    simp only [isTagChar, Bool.and_eq_true, Bool.not_eq_true', bne_iff_ne] at first
    simp [attributeNameLength, first, ih others]

theorem readValue_print (rest : i.rest = '"' :: (encode ['&', '"'] v ++ '"' :: after)) :
    ∃ span j, readValue i = ⟨some (v, span), j, []⟩ ∧ j.rest = after := by
  have noQuote : ∀ c ∈ encode ['&', '"'] v, (c != '"') = true := by
    intro c member
    rw [bne_iff_ne]
    rintro rfl
    exact not_mem_encode (by decide : '"' ∈ ['&', '"']) (by decide) (by decide) v member
  have start : (i.skip 1).rest = encode ['&', '"'] v ++ '"' :: after := by
    simp [Input.skip, rest]
  obtain ⟨inside, stop⟩ := Input.rest_count noQuote (by decide) start
  have decoded : decode (encode ['&', '"'] v) = v :=
    decode_encode (by decide) (by decide) v
  generalize closes : (i.skip 1).skip ((i.skip 1).count (· != '"')) = quote at stop
  refine ⟨(i.skip 1).spanFrom quote, quote.skip 1, ?_, congrArg (List.drop 1) stop⟩
  simp only [readValue, rest, inside, decoded, closes, stop]
  rfl

theorem readAttribute_print {a : Attribute} (printable : a.Printable) (ends : EndsAttribute after)
    (rest : i.rest = a.name.toList ++ (a.printValue ++ after)) :
    ∃ raw j, readAttribute i = ⟨raw, j, []⟩ ∧ raw.name = a.name.toList ∧
      raw.toAttribute.unplaced = a.unplaced ∧ j.rest = after := by
  have value : (a.printValue ++ after).head?.any
      (fun c => isBlank c || c == '>' || c == '=') = true := by
    unfold Attribute.printValue
    split
    · rfl
    · have head := ends.head
      cases after with
      | nil => cases head
      | cons c after =>
        simp only [head?_cons, Option.any_some, nil_append, Bool.or_eq_true] at head ⊢
        exact .inl head
  have named : attributeNameLength false (i.rest.drop 1) + 1 = a.name.toList.length := by
    cases name : a.name.toList with
    | nil => exact absurd name printable.nonempty
    | cons c cs =>
      have chars := printable.chars
      rw [name] at chars rest
      rw [rest]
      exact congrArg (· + 1) (attributeNameLength_append (forall_mem_cons.mp chars).2 value)
  have name : i.rest.take a.name.toList.length = a.name.toList := by rw [rest, take_left]
  have afterName := Input.rest_skip rest
  unfold readAttribute
  simp only [named, name]
  generalize i.skip a.name.toList.length = j at afterName ⊢
  cases hasValue : a.value with
  | none =>
    rw [Attribute.printValue, hasValue] at afterName
    have noSign : j.skipBlank.rest.head? ≠ some '=' := by
      rw [Input.rest_skipBlank, afterName]
      exact ends.noValue
    rw [if_neg noSign]
    exact ⟨_, _, rfl, rfl, by simp [RawAttribute.toAttribute, Attribute.unplaced, hasValue],
      afterName⟩
  | some v =>
    rw [Attribute.printValue, hasValue] at afterName
    have sign : j.skipBlank.rest = '=' :: '"' ::
        (encode ['&', '"'] v.content.toList ++ '"' :: after) := by
      rw [Input.rest_skipBlank, afterName]
      simp [show isBlank '=' = false by decide]
    have quoted : (j.skipBlank.skip 1).skipBlank.rest =
        '"' :: (encode ['&', '"'] v.content.toList ++ '"' :: after) := by
      rw [Input.rest_skipBlank, Input.skip, sign]
      simp [show isBlank '"' = false by decide]
    have isSign : j.skipBlank.rest.head? = some '=' := by rw [sign]; rfl
    obtain ⟨span, k, read, left⟩ := readValue_print quoted
    rw [if_pos isSign, read]
    exact ⟨_, _, rfl, rfl, by simp [RawAttribute.toAttribute, Attribute.unplaced, hasValue], left⟩

/-- The attributes of a tag as printed. -/
def Attribute.printAll (attributes : List Attribute) : List Char :=
  attributes.flatMap fun a => (ElementProp.attribute a).print

theorem Attribute.Printable.exists_cons {a : Attribute} (printable : a.Printable) :
    ∃ c cs, a.name.toList = c :: cs ∧ isBlank c = false ∧ c ≠ '/' ∧ c ≠ '>' ∧ c ≠ '=' := by
  obtain ⟨c, cs, name⟩ := exists_cons_of_ne_nil printable.nonempty
  have char := printable.chars c (name ▸ mem_cons_self)
  simp only [isTagChar, Bool.and_eq_true, Bool.not_eq_true', bne_iff_ne] at char
  exact ⟨c, cs, name, char.1.1.1.1, char.1.1.1.2, char.1.1.2, char.1.2⟩

theorem endsAttribute_printAll (printable : ∀ a ∈ attributes, a.Printable) (tail) :
    EndsAttribute (Attribute.printAll attributes ++ '>' :: tail) := by
  cases attributes with
  | nil =>
    have notBlank : isBlank '>' = false := by decide
    exact ⟨by simp [Attribute.printAll], by simp [Attribute.printAll, notBlank]⟩
  | cons a attributes =>
    have isBlank : isBlank ' ' = true := by decide
    obtain ⟨c, cs, name, char⟩ := (printable a mem_cons_self).exists_cons
    constructor
    · simp [Attribute.printAll, ElementProp.print, isBlank]
    · simp [Attribute.printAll, ElementProp.print, isBlank, name, char]

theorem readAttributes_print (printable : ∀ a ∈ attributes, a.Printable)
    {earlier : List RawAttribute}
    (distinct : (earlier.map (·.name) ++ attributes.map (·.name.toList)).Nodup)
    (rest : i.rest = Attribute.printAll attributes ++ '>' :: tail) :
    ∃ raws j, readAttributes earlier i = ⟨earlier ++ raws, j, []⟩ ∧
      raws.map (·.name) = attributes.map (·.name.toList) ∧
      raws.map (·.toAttribute.unplaced) = attributes.map (·.unplaced) ∧ j.rest = '>' :: tail := by
  induction attributes generalizing earlier i with
  | nil =>
    have notBlank : isBlank '>' = false := by decide
    have here : i.skipBlank.rest = '>' :: tail := by
      rw [Input.rest_skipBlank, rest]
      simp [Attribute.printAll, notBlank]
    rw [readAttributes, dif_pos (by rw [here]; rfl)]
    exact ⟨[], _, by simp, rfl, rfl, here⟩
  | cons a attributes ih =>
    obtain ⟨first, others⟩ := forall_mem_cons.mp printable
    obtain ⟨c, cs, name, char⟩ := first.exists_cons
    have here : i.skipBlank.rest = a.name.toList ++
        (a.printValue ++ (Attribute.printAll attributes ++ '>' :: tail)) := by
      have isBlank : isBlank ' ' = true := by decide
      rw [Input.rest_skipBlank, rest]
      simp [Attribute.printAll, ElementProp.print, isBlank, name, char]
    obtain ⟨raw, j, read, isName, same, left⟩ :=
      readAttribute_print first (endsAttribute_printAll others tail) here
    have opens : ¬ endsAttributes i.skipBlank.rest = true := by
      rw [here]
      unfold endsAttributes
      split <;> simp_all
    have noSlash : i.skipBlank.rest.head? ≠ some '/' := by
      rw [here, name]
      simp [char]
    have isNew : (earlier.any (·.name == raw.name)) = false := by
      rw [isName, any_eq_false]
      intro e member
      have absent := (nodup_append.mp distinct).2.2 e.name (mem_map_of_mem member)
        a.name.toList mem_cons_self
      simpa using absent
    obtain ⟨raws, k, more, names, all, leftover⟩ :=
      @ih j others (earlier ++ [raw]) (by simpa [isName] using distinct) left
    rw [readAttributes, dif_neg opens, if_neg noSlash]
    simp only [read, isNew, more]
    exact ⟨raw :: raws, k, by simp, by simp [names, isName], by simp [all, same], leftover⟩

theorem readProps_static (static : ∀ a ∈ raws, isDirectiveName a.name = false) :
    readProps false raws = ⟨raws.map (.attribute ·.toAttribute), []⟩ := by
  induction raws with
  | nil => rfl
  | cons a raws ih =>
    obtain ⟨first, others⟩ := forall_mem_cons.mp static
    simp [readProps, first, ih others]

theorem RawAttribute.isPre_of_static {a : RawAttribute} (static : isDirectiveName a.name = false) :
    a.isPre = false := by
  rw [isPre, beq_eq_false_iff_ne]
  intro same
  rw [same] at static
  revert static
  decide

/-! ## Elements -/

theorem IsTagName.exists_cons (isTag : IsTagName tag) :
    ∃ c cs, tag.toList = c :: cs ∧ isAsciiLetter c = true := by
  have head := isTag.head
  cases chars : tag.toList with
  | nil =>
    rw [chars] at head
    cases head
  | cons c cs =>
    rw [chars] at head
    exact ⟨c, cs, rfl, head⟩

theorem Options.KeepsAll.arrange (keeps : o.KeepsAll) (keepSpace nodes) :
    o.arrange keepSpace nodes = nodes := by
  simp [Options.arrange, keeps.whitespace, keeps.comments]

theorem Options.KeepsAll.classify (keeps : o.KeepsAll) (tag) (attributes : List Attribute) :
    o.classify false tag (attributes.map .attribute) = tagKind tag := by
  simp [Options.classify, tagKind, keeps.isNative]

theorem flatMap_print (attributes : List Attribute) :
    (attributes.map ElementProp.attribute).flatMap ElementProp.print =
      Attribute.printAll attributes := by
  rw [flatMap_map, Attribute.printAll]

theorem startTag_print (keeps : o.KeepsAll) (plain : s.inRaw = false) (printable : el.Printable)
    (rest : s.input.rest = el.printOpen ++ '>' :: tail) :
    ∃ i el', s.startTag o = ⟨i, [], ⟨el', false, false, s.nodes⟩ :: s.stack, s.diagnostics⟩ ∧
      i.rest = tail ∧ el'.unplaced = el.unplaced := by
  obtain ⟨attributes, props⟩ : el.props ∈ Set.range (List.map ElementProp.attribute) := by
    rw [Set.range_list_map]
    exact fun p member => (printable.props p member).imp fun _ found => found.1.symm
  have allPrintable : ∀ a ∈ attributes, a.Printable := by
    intro a member
    obtain ⟨_, same, first⟩ := printable.props _ (props ▸ mem_map_of_mem member)
    exact ElementProp.attribute.inj same ▸ first
  obtain ⟨c, cs, tag, -⟩ := printable.tag.exists_cons
  have chars : ∀ d ∈ cs, isTagChar d = true := by
    intro d member
    exact printable.tag.chars d (tag ▸ mem_cons_of_mem c member)
  rw [Element.printOpen, ← props, flatMap_print, tag] at rest
  have after : ∃ d more, Attribute.printAll attributes ++ '>' :: tail = d :: more ∧
      isTagChar d = false := by
    cases attributes with
    | nil => exact ⟨'>', tail, rfl, by decide⟩
    | cons a attributes => exact ⟨' ', _, rfl, by decide⟩
  have tagName : (s.input.rest.drop 2).takeWhile
      (fun c => !isBlank c && c != '/' && c != '>') = cs := by
    obtain ⟨d, more, split, stops⟩ := after
    rw [rest]
    simp only [cons_append, append_assoc, split]
    exact takeWhile_append_cons chars stops more
  have read : ((s.input.skip (cs.length + 2))).rest =
      Attribute.printAll attributes ++ '>' :: tail := by
    rw [Input.skip, rest]
    simp
  have distinct : (([] : List RawAttribute).map (·.name) ++
      attributes.map (·.name.toList)).Nodup := by
    have names := printable.distinct
    rw [← props, map_map] at names
    have texts := List.Nodup.map (fun a b same => String.toList_inj.mp same) names
    rwa [map_map] at texts
  obtain ⟨raws, stop, reads, names, same, left⟩ :=
    readAttributes_print allPrintable distinct read
  have static : ∀ a ∈ raws, isDirectiveName a.name = false := by
    rw [← forall_mem_map (P := fun name => isDirectiveName name = false), names]
    exact forall_mem_map.mpr fun a member => (allPrintable a member).static
  have notRaw : raws.any (·.isPre) = false :=
    any_eq_false.mpr fun a member => by simp [RawAttribute.isPre_of_static (static a member)]
  have tagText : String.ofList ((s.input.rest.drop 1).take (cs.length + 1)) = el.tag := by
    rw [rest]
    simp only [cons_append, drop_succ_cons, drop_zero, append_assoc, take_succ_cons, take_left]
    rw [← tag, String.ofList_toList]
  have kind : o.classify false el.tag (raws.map (.attribute ·.toAttribute)) = el.kind := by
    have classified := keeps.classify el.tag (raws.map (·.toAttribute))
    rw [map_map] at classified
    rw [printable.kind, ← classified]
    rfl
  refine ⟨stop.skip 1, ⟨el.tag, el.kind, raws.map (.attribute ·.toAttribute), false, none,
    s.input.spanFrom (stop.skip 1)⟩, ?_, ?_, ?_⟩
  · unfold startTag
    have open_ : beginsWith ['/', '>'] ('>' :: tail) = false := rfl
    have closes : beginsWith ['>'] ('>' :: tail) = true := rfl
    simp only [tagName, tagText, reads, left, plain, notRaw, open_, closes, nil_append,
      Bool.and_false, Bool.or_false, Bool.or_true, readProps_static static, kind, keeps.isVoid,
      keeps.isPre, Bool.not_true, Bool.false_eq_true, if_false, if_true, append_nil]
  · exact congrArg (List.drop 1) left
  · have unplaced := congrArg (List.map ElementProp.attribute) same
    simpa [Element.unplaced, ← props, printable.selfClosing, printable.lowered,
      ElementProp.unplaced, Function.comp_def] using unplaced

/-! ## Steps of reading -/

/-- Nothing about the open elements changes how their content is read. -/
def Reading.Plain (s : Reading) : Prop :=
  ∀ top ∈ s.stack, top.isRaw = false ∧ top.keepsSpace = false

theorem Reading.Plain.inRaw (plain : s.Plain) : s.inRaw = false :=
  any_eq_false.mpr fun top member => by simp [(plain top member).1]

/-- From one reading to another one, some nodes have been read without a problem. -/
structure Reading.Took (s s' : Reading) (nodes : List TemplateNode) (tail : List Char) : Prop where
  rest : s'.input.rest = tail
  stack : s'.stack = s.stack
  diagnostics : s'.diagnostics = s.diagnostics
  nodes : s'.nodes.map (·.unplaced) = (nodes.map (·.unplaced)).reverse ++ s.nodes.map (·.unplaced)

/-- Reading takes some nodes and then goes on with the text `tail`. -/
def Reading.Takes (o : Options) (s : Reading) (nodes : List TemplateNode) (tail : List Char) :
    Prop :=
  ∃ s', s.run o = s'.run o ∧ s.Took s' nodes tail

theorem Reading.run_step (more : s.input.rest ≠ []) : s.run o = (s.step o).run o := by
  rw [run]
  simp [more]

theorem Reading.Takes.of_step (more : s.input.rest ≠ []) (took : s.Took (s.step o) nodes tail) :
    s.Takes o nodes tail :=
  ⟨s.step o, run_step more, took⟩

theorem Options.KeepsAll.openMark? (keeps : o.KeepsAll) : o.openMark? false = some ['{', '{'] := by
  rw [Options.openMark?, keeps.delimiters]
  rfl

theorem Reading.step_content (rest : s.input.rest = c :: cs) (noTag : c ≠ '<') :
    s.step o = s.content o := by
  unfold step
  split <;> grind

/-! ## Texts -/

/-- A text ends where this begins. -/
def EndsText (tail : List Char) : Prop :=
  textLength (some ['{', '{']) tail = 0

theorem textLength_append {front : List Char} (noTag : '<' ∉ front) (noMark : '{' ∉ front)
    (ends : EndsText tail) : textLength (some ['{', '{']) (front ++ tail) = front.length := by
  induction front with
  | nil => exact ends
  | cons c front ih =>
    simp only [mem_cons, not_or] at noTag noMark
    have first : (c == '<') = false := by simpa using Ne.symm noTag.1
    have second : beginsWith ['{', '{'] (c :: (front ++ tail)) = false := by
      simp [beginsWith, after?, noMark.1]
    simp [textLength, first, second, ih noTag.2 noMark.2]

theorem addText_apart (apart : nodes.head?.any (·.isPlainText) = false) (content span) :
    addText content span nodes = .text ⟨String.ofList content, span⟩ :: nodes := by
  unfold addText
  split
  · cases apart
  · rfl

theorem takes_text (keeps : o.KeepsAll) (plain : s.Plain) {t : TextNode}
    (nonempty : t.content.toList ≠ []) (rest : s.input.rest = (TemplateNode.text t).print ++ tail)
    (apart : s.nodes.head?.any (·.isPlainText) = false) (ends : EndsText tail) :
    s.Takes o [.text t] tail := by
  have noTag := not_mem_encode (by decide : '<' ∈ ['&', '<', '{']) (by decide) (by decide)
    t.content.toList
  have noMark := not_mem_encode (by decide : '{' ∈ ['&', '<', '{']) (by decide) (by decide)
    t.content.toList
  have decoded := decode_encode (by decide : '&' ∈ ['&', '<', '{']) (by decide)
    t.content.toList
  rw [TemplateNode.print] at rest
  generalize encode ['&', '<', '{'] t.content.toList = text at noTag noMark decoded rest
  cases text with
  | nil => exact absurd decoded.symm nonempty
  | cons c cs =>
    have here : c ≠ '<' ∧ c ≠ '{' := by
      simp only [mem_cons, not_or] at noTag noMark
      exact ⟨Ne.symm noTag.1, Ne.symm noMark.1⟩
    have isText : s.content o = s.text o := by
      unfold content
      rw [plain.inRaw, keeps.openMark?, rest]
      simp [Option.filter, beginsWith, after?, Ne.symm here.2]
    have length : textLength (o.openMark? s.inRaw) (s.input.rest.drop 1) + 1 =
        (c :: cs).length := by
      rw [plain.inRaw, keeps.openMark?, rest]
      simp only [mem_cons, not_or] at noTag noMark
      exact congrArg (· + 1) (textLength_append noTag.2 noMark.2 ends)
    apply Reading.Takes.of_step (by simp [rest])
    rw [step_content rest here.1, isText]
    have taken : s.input.rest.take (c :: cs).length = c :: cs := by rw [rest, take_left]
    have left : s.input.rest.drop (c :: cs).length = tail := by rw [rest, drop_left]
    refine ⟨?_, rfl, rfl, ?_⟩
    · simp only [Reading.text, length]
      exact left
    · simp only [Reading.text, length, taken, decoded, addText_apart apart, String.ofList_toList]
      rfl

/-! ## Interpolations -/

theorem takes_interpolation (keeps : o.KeepsAll) (plain : s.Plain) {script : String} {inner span}
    (head : ∀ c ∈ script.toList.head?, isBlank c = false)
    (last : ∀ c ∈ script.toList.getLast?, isBlank c = false) (rest : s.input.rest =
      (TemplateNode.interpolation (.snippet script false inner) span).print ++ tail) :
    s.Takes o [.interpolation (.snippet script false inner) span] tail := by
  have noEnd := not_mem_encode (by decide : '}' ∈ ['&', '}']) (by decide) (by decide)
    script.toList
  have decoded := decode_encode (by decide : '&' ∈ ['&', '}']) (by decide) script.toList
  have isSpace : isBlank ' ' = true := by decide
  have trimmed : trim (' ' :: (encode ['&', '}'] script.toList ++ [' '])) =
      encode ['&', '}'] script.toList := by
    refine @Trimmed.trim_around _ [' '] [' '] ⟨?_, ?_⟩ (by simp [isSpace]) (by simp [isSpace])
    · intro c found
      rcases head?_encode found with rfl | first
      · decide
      · exact head c first
    · intro c found
      rcases getLast?_encode found with rfl | first
      · decide
      · exact last c first
  have source : (Expression.snippet script false inner).source = script := rfl
  rw [TemplateNode.print, source] at rest
  generalize encode ['&', '}'] script.toList = text at noEnd decoded trimmed rest
  have start : (s.input.skip 2).rest = ' ' :: (text ++ [' ']) ++ '}' :: (['}'] ++ tail) := by
    rw [Input.skip, rest]
    simp
  have cut : cut? ['}', '}'] (s.input.skip 2).rest = some (' ' :: (text ++ [' ']), tail) := by
    rw [start]
    apply cut?_append
    simpa using noEnd
  have close : o.delimiters.2.toList = ['}', '}'] := by
    rw [keeps.delimiters]
    rfl
  have isInterpolation : s.content o = s.interpolation o ['{', '{'] := by
    unfold content
    rw [plain.inRaw, keeps.openMark?, rest]
    rfl
  apply Reading.Takes.of_step (by simp [rest])
  rw [step_content rest (by decide), isInterpolation]
  unfold Reading.interpolation
  simp only [length_cons, length_nil, Nat.zero_add, Nat.reduceAdd, close, cut, trimmed,
    decoded, String.ofList_toList]
  have length : 2 + ((text ++ [' ']).length + 1) + 2 =
      ('{' :: '{' :: ' ' :: (text ++ [' ', '}', '}'])).length := by
    simp
    omega
  have left : s.input.rest.drop (2 + ((text ++ [' ']).length + 1) + 2) = tail := by
    rw [length, rest, drop_left]
  exact ⟨left, rfl, rfl, rfl⟩

/-! ## Comments -/

theorem cut?_comment {content} (absent : ¬ ['-', '-', '>'] <:+: content) (rest) :
    cut? ['-', '-', '>'] (content ++ '-' :: '-' :: '>' :: rest) = some (content, rest) := by
  induction content with
  | nil => rfl
  | cons c cs ih =>
    have notHere :
        after? ['-', '-', '>'] (c :: (cs ++ '-' :: '-' :: '>' :: rest)) = none := by
      cases here : after? ['-', '-', '>'] (c :: (cs ++ '-' :: '-' :: '>' :: rest)) with
      | none => rfl
      | some more =>
        have same := after?_eq_some here
        match cs, same with
        | [], same => simp at same
        | [_], same => simp at same
        | d :: e :: cs, same =>
          obtain ⟨rfl, rfl, rfl, -⟩ := same
          exact absurd ⟨[], cs, rfl⟩ absent
    have later := ih fun inside => absent (inside.trans (suffix_cons c cs).isInfix)
    rw [cons_append, cut?, notHere, later]
    rfl

theorem takes_comment {c : Comment} (absent : ¬ ['-', '-', '>'] <:+: c.content.toList)
    (rest : s.input.rest = (TemplateNode.comment c).print ++ tail) :
    s.Takes o [.comment c] tail := by
  have isComment : s.step o = s.comment := by
    rw [step, rest]
    rfl
  have cut : cut? ['-', '-', '>'] (s.input.rest.drop 4) = some (c.content.toList, tail) := by
    rw [rest, ← cut?_comment absent tail]
    simp [TemplateNode.print]
  apply Reading.Takes.of_step (by simp [rest, TemplateNode.print])
  rw [isComment]
  unfold Reading.comment
  simp only [cut, String.ofList_toList]
  refine ⟨?_, rfl, rfl, rfl⟩
  simp [skip, add, Input.skip, rest, TemplateNode.print]

/-! ## Whole trees -/

section

variable (tag : IsTagName el.tag) (rest : i.rest = el.printEnd ++ tail)
include tag rest

theorem endTagName_print :
    endTagName i = el.tag := by
  have chars : ∀ c ∈ el.tag.toList, (!isBlank c && c != '>' && c != '/') = true := by
    intro c member
    have char := tag.chars c member
    simp only [isTagChar, Bool.and_eq_true] at char ⊢
    exact ⟨⟨char.1.1, char.2⟩, char.1.2⟩
  have name : (i.rest.drop 2).takeWhile (fun c => !isBlank c && c != '>' && c != '/') =
      el.tag.toList := by
    rw [rest, Element.printEnd]
    simp only [cons_append, append_assoc]
    exact takeWhile_append_cons chars (by decide) tail
  rw [endTagName, name, String.ofList_toList]

theorem skipEndTag_print :
    (skipEndTag i).1.rest = tail ∧ (skipEndTag i).2 = [] := by
  have chars : ∀ c ∈ '<' :: '/' :: el.tag.toList, (c != '>') = true := by
    simp only [forall_mem_cons]
    refine ⟨by decide, by decide, fun c member => ?_⟩
    have char := tag.chars c member
    simp only [isTagChar, Bool.and_eq_true] at char
    exact char.2
  have split : i.rest = '<' :: '/' :: el.tag.toList ++ '>' :: tail := by
    simp [rest, Element.printEnd]
  have stop := (Input.rest_count chars (by decide) split).2
  unfold skipEndTag
  simp only [stop, isEmpty_cons, Bool.false_eq_true, if_false]
  exact ⟨congrArg (List.drop 1) stop, trivial⟩

end

theorem Reading.endsHere_print {top : OpenElement} (tag : IsTagName top.element.tag)
    (rest : s.input.rest = top.element.printEnd ++ tail) : s.endsHere top = true := by
  have begins : beginsWith ['<', '/'] s.input.rest = true := by
    rw [rest]
    rfl
  rw [endsHere, begins, endTagName_print tag rest]
  simp [sameIgnoringCase]

theorem Reading.step_endTag {top stack} (found : s.stack = top :: stack)
    (tag : IsTagName top.element.tag) (rest : s.input.rest = top.element.printEnd ++ tail) :
    s.step o = s.close o := by
  have name := endTagName_print tag rest
  obtain ⟨c, cs, chars, letter⟩ := tag.exists_cons
  rw [Element.printEnd] at rest
  have opened : (s.stack.any fun el =>
      sameIgnoringCase el.element.tag (endTagName s.input)) = true := by
    simp [found, name, sameIgnoringCase]
  have noEnd : c ≠ '>' := by
    rintro rfl
    exact absurd letter (by decide)
  unfold step
  split <;> grind

theorem Reading.step_startTag (letter : isAsciiLetter c = true)
    (rest : s.input.rest = '<' :: c :: cs) : s.step o = s.startTag o := by
  have different : c ≠ '/' ∧ c ≠ '!' := by
    constructor
    · rintro rfl
      exact absurd letter (by decide)
    · rintro rfl
      exact absurd letter (by decide)
  unfold step
  split <;> grind

theorem Reading.Took.trans {s' s'' first second mid} (took : s.Took s' first mid)
    (more : s'.Took s'' second tail) :
    s.Took s'' (first ++ second) tail where
  rest := more.rest
  stack := more.stack.trans took.stack
  diagnostics := more.diagnostics.trans took.diagnostics
  nodes := by simp [more.nodes, took.nodes]

/-- An element is read from its start tag to its end tag, if its children are read between. -/
theorem takes_element (keeps : o.KeepsAll) (plain : s.Plain) {children} (printable : el.Printable)
    (rest : s.input.rest = (TemplateNode.element el children).print ++ tail)
    (inside : ∀ s' : Reading, s'.Plain → s'.nodes = [] →
      s'.input.rest = printAll children ++ (el.printEnd ++ tail) →
      s'.Takes o children (el.printEnd ++ tail)) : s.Takes o [.element el children] tail := by
  obtain ⟨c, cs, tag, letter⟩ := printable.tag.exists_cons
  have split : s.input.rest = el.printOpen ++
      '>' :: (printAll children ++ (el.printEnd ++ tail)) := by
    simp [rest, TemplateNode.print]
  obtain ⟨i, el', opened, left, same⟩ := startTag_print keeps plain.inRaw printable split
  have starts : s.step o = s.startTag o := by
    rw [Element.printOpen, tag] at split
    exact step_startTag letter split
  have more : s.input.rest ≠ [] := by simp [split]
  rw [opened] at starts
  have plain' : (s.step o).Plain := by
    rw [starts]
    exact forall_mem_cons.mpr ⟨⟨rfl, rfl⟩, plain⟩
  have rest' : (s.step o).input.rest =
      printAll children ++ (el.printEnd ++ tail) := by
    rw [starts]
    exact left
  obtain ⟨s', goesOn, took⟩ := inside (s.step o) plain' (by rw [starts]) rest'
  have stack : s'.stack = ⟨el', false, false, s.nodes⟩ :: s.stack := by
    rw [took.stack, starts]
  have sameTag : el'.tag = el.tag := by
    change el'.unplaced.tag = el.unplaced.tag
    rw [same]
  have isTag : IsTagName el'.tag := sameTag ▸ printable.tag
  have atEnd : s'.input.rest = el'.printEnd ++ tail := by
    rw [took.rest, Element.printEnd, Element.printEnd, sameTag]
  obtain ⟨leftover, noProblems⟩ := skipEndTag_print isTag atEnd
  have closed : s'.step o = ⟨(skipEndTag s'.input).1,
      .element { el' with span := ⟨el'.span.start, (skipEndTag s'.input).1.pos⟩ }
        s'.nodes.reverse :: s.nodes, s.stack, s'.diagnostics⟩ := by
    rw [step_endTag stack isTag atEnd, close, stack]
    have ends : s'.endsHere ⟨el', false, false, s.nodes⟩ = true :=
      endsHere_print isTag atEnd
    simp [keeps.arrange, ends, noProblems]
  have children' : s'.nodes.reverse.map (·.unplaced) = children.map (·.unplaced) := by
    have nodes := congrArg List.reverse took.nodes
    rw [starts] at nodes
    simpa using nodes
  have again : s'.input.rest ≠ [] := by simp [atEnd, Element.printEnd]
  refine ⟨s'.step o, ?_, ?_⟩
  · rw [run_step more, goesOn, run_step again]
  · rw [closed]
    refine ⟨leftover, rfl, took.diagnostics.trans (by rw [starts]), ?_⟩
    have element : ({ el' with
        span := ⟨el'.span.start, (skipEndTag s'.input).1.pos⟩ } : Element).unplaced =
          el.unplaced := same
    simp [unplaced, unplacedAll_eq, element, children']

/-- Whatever is read before and stands behind, a printed node is read as it was. A text is not read
    alone behind another text or before what could be text. -/
def TemplateNode.Readable (o : Options) (node : TemplateNode) : Prop :=
  ∀ (s : Reading) (tail : List Char), s.Plain → s.input.rest = node.print ++ tail →
    (node.isPlainText = true → s.nodes.head?.any (·.isPlainText) = false ∧ EndsText tail) →
    s.Takes o [node] tail

theorem TemplateNode.isPlainText_unplaced (node : TemplateNode) :
    node.unplaced.isPlainText = node.isPlainText := by
  cases node <;> rfl

theorem Reading.Took.head (took : s.Took s' [node] tail) :
    s'.nodes.head?.any (·.isPlainText) = node.isPlainText := by
  have nodes := took.nodes
  cases newest : s'.nodes with
  | nil => simp [newest] at nodes
  | cons first rest =>
    rw [newest] at nodes
    have same : first.unplaced = node.unplaced := by
      simpa using congrArg List.head? nodes
    rw [head?_cons, Option.any_some, ← first.isPlainText_unplaced, same, node.isPlainText_unplaced]

/-- What is printed of a node that is no text is no text. -/
theorem TemplateNode.Printable.endsText (printable : node.Printable)
    (noText : node.isPlainText = false) (tail) : EndsText (node.print ++ tail) := by
  cases printable with
  | element el _ _ =>
    obtain ⟨c, cs, tag, letter⟩ := el.tag.exists_cons
    simp [EndsText, TemplateNode.print, Element.printOpen, tag, textLength, letter]
  | text => cases noText
  | comment => rfl
  | interpolation => rfl

theorem takes_all (printable : ∀ node ∈ nodes, node.Printable)
    (readable : ∀ node ∈ nodes, node.Readable o) (apart : TextsApart nodes) (ends : EndsText tail)
    (plain : s.Plain) (rest : s.input.rest = printAll nodes ++ tail) (first : ∀ node ∈ nodes.head?,
      (s.nodes.head?.any (·.isPlainText) && node.isPlainText) = false) : s.Takes o nodes tail := by
  induction nodes generalizing s with
  | nil => exact ⟨s, rfl, rest, rfl, rfl, rfl⟩
  | cons node nodes ih =>
    obtain ⟨_, others⟩ := forall_mem_cons.mp printable
    obtain ⟨isReadable, othersReadable⟩ := forall_mem_cons.mp readable
    rw [printAll, append_assoc] at rest
    have endsHere : node.isPlainText = true → s.nodes.head?.any (·.isPlainText) = false ∧
        EndsText (printAll nodes ++ tail) := by
      intro isText
      refine ⟨by simpa [isText] using first node rfl, ?_⟩
      cases nodes with
      | nil => exact ends
      | cons next nodes =>
        have noText : next.isPlainText = false := by
          have pair := (isChain_cons_cons.mp apart).1
          simpa [isText] using pair
        rw [printAll, append_assoc]
        exact (others next mem_cons_self).endsText noText _
    obtain ⟨s', goesOn, took⟩ := isReadable s _ plain rest endsHere
    have plain' : s'.Plain := by
      rw [Reading.Plain, took.stack]
      exact plain
    have first' : ∀ next ∈ nodes.head?,
        (s'.nodes.head?.any (·.isPlainText) && next.isPlainText) = false := by
      intro next found
      rw [took.head]
      cases nodes with
      | nil => cases found
      | cons other nodes =>
        cases found
        exact (isChain_cons_cons.mp apart).1
    obtain ⟨s'', goesOn', took'⟩ := ih others othersReadable apart.tail plain' took.rest first'
    exact ⟨s'', goesOn.trans goesOn', took.trans took'⟩

theorem TemplateNode.Printable.readable (keeps : o.KeepsAll) (printable : node.Printable) :
    node.Readable o := by
  induction printable with
  | @element el children elPrintable childrenPrintable apart ih =>
    intro s tail plain rest _
    apply takes_element keeps plain elPrintable rest
    intro s' plain' empty rest'
    apply takes_all childrenPrintable ih apart _ plain' rest'
    · simp [empty]
    · rfl
  | text nonempty =>
    intro s tail plain rest alone
    obtain ⟨apart, ends⟩ := alone rfl
    exact takes_text keeps plain nonempty rest apart ends
  | comment absent =>
    intro s tail _ rest _
    exact takes_comment absent rest
  | interpolation head last =>
    intro s tail plain rest _
    exact takes_interpolation keeps plain head last rest

/-- A forest that was printed is read back as it was, up to places, and nothing is reported. -/
theorem readTemplate_print {o : Options} (keeps : o.KeepsAll) {nodes : List TemplateNode}
    (printable : ∀ node ∈ nodes, node.Printable) (apart : TextsApart nodes) :
    (readTemplate o (String.ofList (printAll nodes))).2 = [] ∧
      (readTemplate o (String.ofList (printAll nodes))).1.children.map (·.unplaced) =
        nodes.map (·.unplaced) := by
  have readable := fun node member => (printable node member).readable keeps
  have plain : Reading.Plain ⟨⟨0, printAll nodes⟩, [], [], []⟩ :=
    fun top member => absurd member (by simp)
  have ends : EndsText [] := rfl
  obtain ⟨s, goesOn, took⟩ := takes_all printable readable apart ends plain
    (append_nil _).symm (fun _ _ => rfl)
  have done : s.run o = s := by
    rw [Reading.run]
    simp [took.rest, took.stack]
  rw [done] at goesOn
  simp only [readTemplate, String.toList_ofList, goesOn, Root.ofChildren, keeps.arrange]
  refine ⟨took.diagnostics, ?_⟩
  rw [map_reverse, took.nodes]
  simp

/-- A comment, a component whose attributes and content are full of marks, and a line break. -/
def sampleForest : List TemplateNode :=
  [.comment ⟨" a -- b ", .empty⟩,
    .element ⟨"Foo", .component, [.attribute ⟨"title", some ⟨"a \"b\" &amp;", .empty⟩, .empty⟩,
      .attribute ⟨"on", none, .empty⟩], false, none, .empty⟩
      [.text ⟨"x < y && \x7b\x7b", .empty⟩,
        .interpolation (.snippet "f(\x7b a: \x7b\x7d \x7d) & b" false .empty) .empty,
        .element ⟨"slot", .slot, [], false, none, .empty⟩ []], .text ⟨"\n", .empty⟩]

theorem sampleForest_printable : ∀ node ∈ sampleForest, node.Printable := by
  have foo : Element.Printable ⟨"Foo", .component,
      [.attribute ⟨"title", some ⟨"a \"b\" &amp;", .empty⟩, .empty⟩,
        .attribute ⟨"on", none, .empty⟩], false, none, .empty⟩ := by
    refine ⟨⟨by decide, forall_of_all (by decide)⟩, by decide, ?_, by decide, rfl, rfl⟩
    simp only [forall_mem_cons]
    refine ⟨⟨_, rfl, ?_⟩, ⟨_, rfl, ?_⟩, by simp⟩
    · exact ⟨by decide, forall_of_all (by decide), by decide⟩
    · exact ⟨by decide, forall_of_all (by decide), by decide⟩
  have slot : Element.Printable ⟨"slot", .slot, [], false, none, .empty⟩ :=
    ⟨⟨by decide, forall_of_all (by decide)⟩, by decide, by simp, by decide, rfl, rfl⟩
  simp only [sampleForest, forall_mem_cons]
  have noEnd : ¬ ['-', '-', '>'] <:+: " a -- b ".toList := by decide +kernel
  have apart : TextsApart [.text ⟨"x < y && \x7b\x7b", .empty⟩,
      .interpolation (.snippet "f(\x7b a: \x7b\x7d \x7d) & b" false .empty) .empty,
      .element ⟨"slot", .slot, [], false, none, .empty⟩ []] := by
    simp [TextsApart, isPlainText]
  refine ⟨.comment noEnd, .element foo ?_ apart, .text (by decide), by simp⟩
  simp only [forall_mem_cons]
  have solid : isBlank 'f' = false ∧ isBlank 'b' = false := by decide
  exact ⟨.text (by decide), .interpolation (by simpa using solid.1) (by simpa using solid.2),
    .element slot (by simp) .nil, by simp⟩

theorem sampleForest_read_back :
    String.ofList (printAll sampleForest) =
        "<!-- a -- b --><Foo title=\"a &quot;b&quot; &amp;amp;\" on>" ++
          "x &lt; y &amp;&amp; &#123;&#123;" ++
          "\x7b\x7b f(\x7b a: \x7b&#125; &#125;) &amp; b \x7d\x7d<slot></slot></Foo>\n" ∧
      (readTemplate { whitespace := .preserve } (String.ofList (printAll sampleForest))).2 = [] ∧
      (readTemplate { whitespace := .preserve }
        (String.ofList (printAll sampleForest))).1.children.map (·.unplaced) =
          sampleForest.map (·.unplaced) := by
  have keeps : Options.KeepsAll { whitespace := .preserve } :=
    ⟨rfl, rfl, rfl, rfl, fun _ => rfl, fun _ => rfl⟩
  refine ⟨by decide +kernel, readTemplate_print keeps sampleForest_printable ?_⟩
  simp [TextsApart, sampleForest, isPlainText]

end Stencil
