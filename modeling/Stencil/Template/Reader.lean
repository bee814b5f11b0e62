import Stencil.Template.Directive
import Stencil.Template.Space

/-! # Reading a template

The reader keeps a stack of open elements and reads one piece of markup at a time. What is
malformed is reported, and reading goes on: every text has a tree.
-/

namespace Stencil

structure OpenElement where
  element : Element
  keepsSpace : Bool
  /-- The element has `v-pre`: nothing inside it is a directive or an interpolation. -/
  isRaw : Bool
  /-- The siblings before it, nearest first. -/
  before : List TemplateNode

structure Reading where
  input : Input
  /-- The children of the innermost open element, or of the root, newest first. -/
  nodes : List TemplateNode
  stack : List OpenElement
  diagnostics : List Diagnostic

/-- What an element is, by its tag and directives. In a raw element every one is plain. -/
def Options.classify (o : Options) (inRaw : Bool) (tag : String) (props : List ElementProp) :
    ElementKind :=
  let structural := props.any fun
    | .directive d => ["if", "else", "else-if", "for", "slot"].contains d.name
    | .attribute _ => false
  let isComponent := tag == "component" || tag.toList.head?.any Text.isAsciiUpper ||
    o.isNative.any fun isNative => !isNative tag && tag != "template"
  if inRaw then .plain
  else if tag == "slot" then .slot
  else if tag == "template" && structural then .template
  else if isComponent then .component
  else .plain

def Options.openMark? (o : Options) (inRaw : Bool) : Option (List Char) :=
  let mark := o.delimiters.1.toList
  if inRaw || mark.isEmpty then none else some mark

/-- Characters of a text up to the next tag, comment or interpolation. -/
def textLength (mark : Option (List Char)) : List Char → Nat
  | [] => 0
  | c :: cs =>
    let startsMarkup :=
      c == '<' && cs.head?.any fun d => Text.isAsciiLetter d || d == '/' || d == '!'
    if startsMarkup || mark.any (Text.beginsWith · (c :: cs)) then 0 else textLength mark cs + 1

/-- Add a text to siblings. It joins a text right before it. -/
def addText (content : List Char) (span : Span) (nodes : List TemplateNode) : List TemplateNode :=
  match nodes with
  | .text t :: rest => .text ⟨t.content ++ String.ofList content, t.span.merge span⟩ :: rest
  | _ => .text ⟨String.ofList content, span⟩ :: nodes

def endTagName (i : Input) : String :=
  String.ofList ((i.rest.drop 2).takeWhile fun c => !Text.isBlank c && c != '>' && c != '/')

def skipEndTag (i : Input) : Input × List Diagnostic :=
  let stop := i.skip (i.count (· != '>'))
  if stop.rest.isEmpty then (stop, [.error .eofInTag (i.spanFrom stop)]) else (stop.skip 1, [])

namespace Reading

def inRaw (s : Reading) : Bool :=
  s.stack.any (·.isRaw)

def keepsSpace (s : Reading) : Bool :=
  s.stack.any (·.keepsSpace)

/-- What is left to do, which every step makes smaller. -/
def size (s : Reading) : Nat :=
  s.input.rest.length + s.stack.length

def skip (n : Nat) (s : Reading) : Reading :=
  { s with input := s.input.skip n }

def report (cause : Cause) (span : Span) (s : Reading) : Reading :=
  { s with diagnostics := s.diagnostics ++ [.error cause span] }

def add (node : TemplateNode) (s : Reading) : Reading :=
  { s with nodes := node :: s.nodes }

def spanOf (n : Nat) (s : Reading) : Span :=
  s.input.spanFrom (s.input.skip n)

/-- Whether an end tag that begins here closes an element. -/
def endsHere (s : Reading) (el : OpenElement) : Bool :=
  Text.beginsWith ['<', '/'] s.input.rest &&
    Text.sameIgnoringCase (endTagName s.input) el.element.tag

def close (o : Options) (s : Reading) : Reading :=
  match s.stack with
  | [] => s
  | top :: stack =>
    let children := o.arrange s.keepsSpace s.nodes.reverse
    let children := if top.keepsSpace then dropLeadingNewline children else children
    let (stop, problems) :=
      if s.endsHere top then skipEndTag s.input
      else (s.input, [.error .missingEndTag top.element.span])
    let element := { top.element with span := ⟨top.element.span.start, stop.pos⟩ }
    { input := stop, nodes := .element element children :: top.before, stack,
      diagnostics := s.diagnostics ++ problems }

def strayEndTag (s : Reading) : Reading :=
  let (stop, problems) := skipEndTag s.input
  { s with
    input := stop
    diagnostics := s.diagnostics ++ problems ++ [.error .invalidEndTag (s.input.spanFrom stop)] }

def comment (s : Reading) : Reading :=
  let body := s.input.rest.drop 4
  match Text.cut? ['-', '-', '>'] body with
  | some (content, _) =>
    let n := content.length + 7
    (s.add (.comment ⟨String.ofList content, s.spanOf n⟩)).skip n
  | none =>
    let n := body.length + 4
    let s := s.report .eofInComment (s.spanOf n)
    (s.add (.comment ⟨String.ofList body, s.spanOf n⟩)).skip n

/-- Read `<! … >`, which is kept as a comment. -/
def declaration (s : Reading) : Reading :=
  let content := (s.input.rest.drop 2).takeWhile (· != '>')
  let n := content.length + 3
  (s.add (.comment ⟨String.ofList content, s.spanOf n⟩)).skip n

def startTag (o : Options) (s : Reading) : Reading :=
  let isTagChar := fun c => !Text.isBlank c && c != '/' && c != '>'
  let tagName := (s.input.rest.drop 2).takeWhile isTagChar
  let tag := String.ofList ((s.input.rest.drop 1).take (tagName.length + 1))
  let read := readAttributes [] (s.input.skip (tagName.length + 2))
  let selfClosing := Text.beginsWith ['/', '>'] read.input.rest
  let closed := selfClosing || Text.beginsWith ['>'] read.input.rest
  let stop := read.input.skip (if selfClosing then 2 else if closed then 1 else 0)
  let span := s.input.spanFrom stop
  let unclosed := if closed then [] else [Diagnostic.error .eofInTag span]
  let isRaw := !s.inRaw && read.attributes.any (·.isPre)
  let props := readProps (s.inRaw || isRaw) read.attributes
  let element : Element :=
    { tag, kind := o.classify s.inRaw tag props.props, props := props.props, selfClosing,
      lowered := none, span }
  let diagnostics := s.diagnostics ++ read.diagnostics ++ unclosed ++ props.diagnostics
  if !closed || selfClosing || o.isVoid tag then
    { s with input := stop, nodes := .element element [] :: s.nodes, diagnostics }
  else
    { input := stop, nodes := [], stack := ⟨element, o.isPre tag, isRaw, s.nodes⟩ :: s.stack,
      diagnostics }

def text (o : Options) (s : Reading) : Reading :=
  let n := textLength (o.openMark? s.inRaw) (s.input.rest.drop 1) + 1
  let content := Text.decode (s.input.rest.take n)
  { s with nodes := addText content (s.spanOf n) s.nodes, input := s.input.skip n }

/-- Read an interpolation, whose opening mark is here. If its end is missing, the mark is text. -/
def interpolation (o : Options) (mark : List Char) (s : Reading) : Reading :=
  let start := s.input.skip mark.length
  match Text.cut? o.delimiters.2.toList start.rest with
  | some (raw, _) =>
    let content := Text.trim raw
    let offset := start.pos + (Text.bytes raw - Text.bytes (Text.trimStart raw))
    let script := String.ofList (Text.decode content)
    let n := mark.length + raw.length + o.delimiters.2.toList.length
    let exp := Expression.snippet script false ⟨offset, offset + Text.bytes content⟩
    (s.add (.interpolation exp (s.spanOf n))).skip n
  | none =>
    let n := mark.length
    let s := s.report .missingInterpolationEnd (s.spanOf n)
    { s with nodes := addText mark (s.spanOf n) s.nodes, input := s.input.skip n }

def content (o : Options) (s : Reading) : Reading :=
  match (o.openMark? s.inRaw).filter (Text.beginsWith · s.input.rest) with
  | some mark => s.interpolation o mark
  | none => s.text o

/-- Read one piece of markup, or close an element that ends here. -/
def step (o : Options) (s : Reading) : Reading :=
  match s.input.rest with
  | [] => s.close o
  | '<' :: '/' :: '>' :: _ => (s.report .missingEndTagName (s.spanOf 3)).skip 3
  | '<' :: '/' :: rest =>
    if rest.head?.any Text.isAsciiLetter then
      if s.stack.any fun el => Text.sameIgnoringCase el.element.tag (endTagName s.input) then
        s.close o
      else s.strayEndTag
    else s.text o
  | '<' :: '!' :: '-' :: '-' :: _ => s.comment
  | '<' :: '!' :: _ => s.declaration
  | '<' :: c :: _ => if Text.isAsciiLetter c then s.startTag o else s.content o
  | _ => s.content o

theorem length_skipEndTag (i : Input) : (skipEndTag i).1.rest.length ≤ i.rest.length := by
  unfold skipEndTag
  dsimp only
  split
  · simp
  · simp
    omega

theorem size_close (o : Options) {s : Reading} (h : s.stack ≠ []) :
    (s.close o).size < s.size := by
  unfold close
  split
  next empty => exact absurd empty h
  · next top stack eq =>
    have tag := length_skipEndTag s.input
    simp only [size, eq, List.length_cons]
    by_cases ends : s.endsHere top <;>
      simp only [ends, ite_true, ite_false, Bool.false_eq_true] <;> omega

theorem length_skipEndTag_lt {i : Input} (h : i.rest = '<' :: cs) :
    (skipEndTag i).1.rest.length < i.rest.length := by
  have counted : 1 ≤ i.count (· != '>') := by simp [Input.count, h]
  have pos : 0 < i.rest.length := by simp [h]
  unfold skipEndTag
  dsimp only
  split <;> simp <;> omega

theorem size_strayEndTag {s : Reading} (h : s.input.rest = '<' :: cs) :
    s.strayEndTag.size < s.size := by
  have := length_skipEndTag_lt h
  simp only [strayEndTag, size]
  omega

theorem size_comment {s : Reading} (h : s.input.rest ≠ []) : s.comment.size < s.size := by
  have pos := List.length_pos_iff.2 h
  unfold comment
  dsimp only
  split <;> simp [size, skip, add, report] <;> omega

theorem size_declaration {s : Reading} (h : s.input.rest ≠ []) : s.declaration.size < s.size := by
  have pos := List.length_pos_iff.2 h
  simp [declaration, size, skip, add]
  omega

theorem size_text (o : Options) {s : Reading} (h : s.input.rest ≠ []) :
    (s.text o).size < s.size := by
  have pos := List.length_pos_iff.2 h
  simp [text, size]
  omega

theorem size_content (o : Options) {s : Reading} (h : s.input.rest ≠ []) :
    (s.content o).size < s.size := by
  unfold content
  split
  · next mark eq =>
    have opens := (Option.filter_eq_some_iff.1 eq).1
    have pos := List.length_pos_iff.2 h
    have long : 0 < mark.length := by
      unfold Options.openMark? at opens
      dsimp only at opens
      split at opens
      · simp at opens
      · next nonempty =>
        simp only [Option.some.injEq] at opens
        subst opens
        simp only [Bool.or_eq_true, List.isEmpty_iff, not_or] at nonempty
        exact List.length_pos_iff.2 nonempty.2
    unfold interpolation
    dsimp only
    split <;> simp [size, skip, add, report] <;> omega
  · exact size_text o h

theorem size_startTag (o : Options) {s : Reading} (h : s.input.rest = a :: b :: cs) :
    (s.startTag o).size < s.size := by
  have attributes := fun n => length_readAttributes [] (s.input.skip (n + 2))
  have long : 2 ≤ s.input.rest.length := by simp [h]
  unfold startTag
  dsimp only
  generalize (List.takeWhile _ (s.input.rest.drop 2)).length = n
  have := attributes n
  simp only [Input.length_skip] at this
  split <;> simp [size] <;> omega

/-- Every step makes what is left smaller, so reading ends. -/
theorem size_step (o : Options) {s : Reading} (h : ¬(s.input.rest.isEmpty ∧ s.stack.isEmpty)) :
    (s.step o).size < s.size := by
  unfold step
  split
  next eq => exact size_close o (by simpa [eq] using h)
  next eq => simp [size, skip, report, eq]; omega
  · next rest _ eq =>
    have ne : s.input.rest ≠ [] := by simp [eq]
    split
    · split
      · next any =>
        refine size_close o fun empty => ?_
        simp [empty] at any
      · exact size_strayEndTag eq
    · exact size_text o ne
  next eq => exact size_comment (by simp [eq])
  next eq => exact size_declaration (by simp [eq])
  · next eq =>
    split
    · exact size_startTag o eq
    · exact size_content o (by simp [eq])
  next eq _ _ _ _ _ => exact size_content o eq

def run (o : Options) (s : Reading) : Reading :=
  if _h : s.input.rest.isEmpty ∧ s.stack.isEmpty then s else run o (s.step o)
termination_by s.size
decreasing_by exact size_step o _h

end Reading

/-- Read a template. The diagnostics are in the order in which they are found. -/
def readTemplate (o : Options) (source : String) : Root × List Diagnostic :=
  let done := Reading.run o ⟨⟨0, source.toList⟩, [], [], []⟩
  (Root.ofChildren (o.arrange false done.nodes.reverse) ⟨0, Text.bytes source.toList⟩,
    done.diagnostics)

end Stencil
