import Mathlib.Data.List.Chain
import Stencil.Proofs.Text.Cutting
import Stencil.Template.Reader

/-! # Printing templates

A tree of elements, texts, comments and interpolations is printed in one plain way: every element
with its end tag, every value in double quotes, and every character that would mean something as a
character reference.
-/

namespace Stencil

open List Text ElementProp

namespace Text

/-- The name of the reference to a character. -/
def referenceName : Char → List Char
  | '&' => ['a', 'm', 'p']
  | '<' => ['l', 't']
  | '"' => ['q', 'u', 'o', 't']
  | c => '#' :: Nat.toDigits 10 c.toNat

/-- Write a character as a reference if it is special. -/
def encodeChar (special : List Char) (c : Char) : List Char :=
  if c ∈ special then '&' :: (referenceName c ++ [';']) else [c]

def encode (special : List Char) (cs : List Char) : List Char :=
  cs.flatMap (encodeChar special)

/-- The characters that mean something in a template. -/
def encodable : List Char :=
  ['&', '<', '"', '{', '}']

theorem reference?_referenceName (known : c ∈ encodable) :
    reference? (referenceName c) = some c := by
  have all : ∀ c ∈ encodable, reference? (referenceName c) = some c := forall_of_all (by decide)
  exact all c known

theorem leadingReference?_referenceName (known : c ∈ encodable) (cs) :
    leadingReference? (referenceName c ++ ';' :: cs) =
      some (c, (referenceName c ++ [';']).length) := by
  have all : (encodable.all fun c => (referenceName c).all fun d => d != ';' && d != '&') = true := by
    decide
  have inName : ∀ d ∈ referenceName c, (d != ';' && d != '&') = true :=
    all_eq_true.mp (all_eq_true.mp all c known)
  have name : (referenceName c ++ ';' :: cs).takeWhile (fun d => d != ';' && d != '&') =
      referenceName c := by
    rw [takeWhile_append_of_pos inName]
    simp
  simp [leadingReference?, name, reference?_referenceName known]

theorem decodeFrom_append (front rest : List Char) :
    decodeFrom front.length (front ++ rest) = decodeFrom 0 rest := by
  induction front with
  | nil => rfl
  | cons c front ih => simpa [decodeFrom] using ih

theorem decode_encode (ampersand : '&' ∈ special) (known : special ⊆ encodable) (cs) :
    decode (encode special cs) = cs := by
  unfold decode
  induction cs with
  | nil => rfl
  | cons c cs ih =>
    rw [encode, flatMap_cons, encodeChar]
    split
    next isSpecial =>
      rw [cons_append, decodeFrom, if_pos rfl, append_assoc, singleton_append,
        leadingReference?_referenceName (known isSpecial)]
      have skipped := decodeFrom_append (referenceName c ++ [';']) (encode special cs)
      rw [append_assoc, singleton_append] at skipped
      simp only [encode] at skipped ih ⊢
      rw [skipped, ih]
    next plain =>
      have noReference : c ≠ '&' := fun same => plain (same ▸ ampersand)
      rw [singleton_append, decodeFrom, if_neg noReference]
      exact congrArg (c :: ·) ih

theorem not_mem_encode (isSpecial : c ∈ special) (known : special ⊆ encodable) (ampersand : c ≠ '&')
    (cs) : c ∉ encode special cs := by
  have all : (encodable.all fun d => encodable.all fun c => c ∉ referenceName d ++ [';']) = true := by
    decide
  have clean : ∀ d ∈ encodable, c ∉ referenceName d ++ [';'] := fun d inside =>
    forall_of_all (all_eq_true.mp all d inside) c (known isSpecial)
  intro member
  obtain ⟨d, -, inChar⟩ := mem_flatMap.mp member
  unfold encodeChar at inChar
  split at inChar
  next special' =>
    rcases mem_cons.mp inChar with same | inName
    · exact ampersand same
    · exact clean d (known special') inName
  next plain => exact plain (mem_singleton.mp inChar ▸ isSpecial)

theorem head?_encode (found : d ∈ (encode special cs).head?) : d = '&' ∨ d ∈ cs.head? := by
  cases cs with
  | nil => cases found
  | cons c cs =>
    rw [encode, flatMap_cons, encodeChar] at found
    split at found
    · exact .inl (Option.some.inj found).symm
    · exact .inr found

theorem getLast?_encode (found : d ∈ (encode special cs).getLast?) : d = ';' ∨ d ∈ cs.getLast? := by
  rcases cs.eq_nil_or_concat with rfl | ⟨front, c, rfl⟩
  · cases found
  · rw [encode, concat_eq_append, flatMap_append, flatMap_singleton, encodeChar] at found
    split at found
    · rw [← cons_append, ← append_assoc, getLast?_append] at found
      exact .inl (Option.some.inj found).symm
    · exact .inr (by simpa using found)

end Text

/-! ## Trees without places -/

def Expression.unplaced : Expression → Expression
  | .simple s => .simple { s with span := .empty }
  | .compound c => .compound { c with span := .empty }

def Attribute.unplaced (a : Attribute) : Attribute :=
  ⟨a.name, a.value.map fun v => ⟨v.content, .empty⟩, .empty⟩

def Directive.unplaced (d : Directive) : Directive :=
  { d with arg := d.arg.map (·.unplaced), exp := d.exp.map (·.unplaced), span := .empty }

def ElementProp.unplaced : ElementProp → ElementProp
  | .attribute a => .attribute a.unplaced
  | .directive d => .directive d.unplaced

def Element.unplaced (el : Element) : Element :=
  { el with props := el.props.map (·.unplaced), span := .empty }

mutual
/-- A node of which it is not known where it stands. -/
def TemplateNode.unplaced : TemplateNode → TemplateNode
  | .element el children => .element el.unplaced (unplacedAll children)
  | .text t => .text ⟨t.content, .empty⟩
  | .comment c => .comment ⟨c.content, .empty⟩
  | .interpolation content _ => .interpolation content.unplaced .empty
  | .conditional branches lowered _ => .conditional branches lowered .empty
  | .loop head children lowered _ => .loop head children lowered .empty
  | .textCall t => .textCall { t with span := .empty }
  | .compound c => .compound { c with span := .empty }

def TemplateNode.unplacedAll : List TemplateNode → List TemplateNode
  | [] => []
  | node :: nodes => node.unplaced :: unplacedAll nodes
end

theorem TemplateNode.unplacedAll_eq (nodes) : unplacedAll nodes = nodes.map unplaced := by
  induction nodes with
  | nil => rfl
  | cons node nodes ih => rw [unplacedAll, ih, map_cons]

/-! ## The printer -/

/-- The value of an attribute, with the sign before it. -/
def Attribute.printValue (a : Attribute) : List Char :=
  match a.value with
  | some v => '=' :: '"' :: (encode ['&', '"'] v.content.toList ++ ['"'])
  | none => []

def ElementProp.print : ElementProp → List Char
  | .attribute a => ' ' :: (a.name.toList ++ a.printValue)
  | .directive _ => []

def Element.printOpen (el : Element) : List Char :=
  '<' :: (el.tag.toList ++ el.props.flatMap print)

def Element.printEnd (el : Element) : List Char :=
  '<' :: '/' :: (el.tag.toList ++ ['>'])

mutual
def TemplateNode.print : TemplateNode → List Char
  | .element el children => el.printOpen ++ '>' :: (printAll children ++ el.printEnd)
  | .text t => encode ['&', '<', '{'] t.content.toList
  | .comment c => '<' :: '!' :: '-' :: '-' :: (c.content.toList ++ ['-', '-', '>'])
  | .interpolation content _ =>
    '{' :: '{' :: ' ' :: (encode ['&', '}'] content.source.toList ++ [' ', '}', '}'])
  | .conditional _ _ _ | .loop _ _ _ _ | .textCall _ | .compound _ => []

def TemplateNode.printAll : List TemplateNode → List Char
  | [] => []
  | node :: nodes => node.print ++ printAll nodes
end

/-! ## What can be printed -/

/-- A character that a tag may have. -/
def isTagChar (c : Char) : Bool :=
  !Text.isBlank c && c != '/' && c != '>'

structure IsTagName (tag : String) : Prop where
  head : tag.toList.head?.any isAsciiLetter = true
  chars : ∀ c ∈ tag.toList, isTagChar c = true

/-- What an element without directives is. -/
def tagKind (tag : String) : ElementKind :=
  if tag == "slot" then .slot
  else if tag == "component" || tag.toList.head?.any isAsciiUpper then .component
  else .plain

structure Attribute.Printable (a : Attribute) : Prop where
  nonempty : a.name.toList ≠ []
  chars : ∀ c ∈ a.name.toList, (isTagChar c && c != '=' && c != '[') = true
  static : isDirectiveName a.name.toList = false

/-- The name of a prop as written. -/
def ElementProp.rawName : ElementProp → String
  | .attribute a => a.name
  | .directive d => d.rawName

structure Element.Printable (el : Element) : Prop where
  tag : IsTagName el.tag
  kind : el.kind = tagKind el.tag
  props : ∀ p ∈ el.props, ∃ a, p = .attribute a ∧ a.Printable
  distinct : (el.props.map rawName).Nodup
  selfClosing : el.selfClosing = false
  lowered : el.lowered = none

def TemplateNode.isPlainText : TemplateNode → Bool
  | .text _ => true
  | _ => false

/-- No two texts stand next to each other. -/
def TextsApart (nodes : List TemplateNode) : Prop :=
  nodes.IsChain fun a b => (a.isPlainText && b.isPlainText) = false

inductive TemplateNode.Printable : TemplateNode → Prop
  | element {el children} : el.Printable →
      (∀ child ∈ children, child.Printable) → TextsApart children →
      Printable (.element el children)
  | text {t} : t.content.toList ≠ [] → Printable (.text t)
  | comment {c} : ¬ ['-', '-', '>'] <:+: c.content.toList → Printable (.comment c)
  /-- Blanks around an expression are no part of it. -/
  | interpolation {script inner span} :
      (∀ c ∈ script.toList.head?, isBlank c = false) →
      (∀ c ∈ script.toList.getLast?, isBlank c = false) →
      Printable (.interpolation (.snippet script false inner) span)

/-- Options under which nothing of a template is lost: the usual marks, all space and all comments
    are kept, and no tag is treated in its own way. -/
structure Options.KeepsAll (o : Options) : Prop where
  delimiters : o.delimiters = ("\x7b\x7b", "\x7d\x7d")
  whitespace : o.whitespace = .preserve
  comments : o.comments = true
  isNative : o.isNative = none
  isVoid : ∀ tag, o.isVoid tag = false
  isPre : ∀ tag, o.isPre tag = false

end Stencil
