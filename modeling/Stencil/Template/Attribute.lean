import Stencil.Diagnostic
import Stencil.Template.Entity
import Stencil.Template.Input

/-! # Attributes as written -/

namespace Stencil

structure RawAttribute where
  name : List Char
  /-- The decoded value and its place between the quotes. -/
  value : Option (List Char × Span)
  span : Span

/-- Characters of an attribute name after its first one. Inside brackets a name may hold anything
    but `>`. -/
def attributeNameLength (inBrackets : Bool) : List Char → Nat
  | [] => 0
  | c :: cs =>
    if inBrackets then
      if c = '>' then 0 else attributeNameLength (c != ']') cs + 1
    else if c = '[' then attributeNameLength true cs + 1
    else if Text.isBlank c || c = '/' || c = '>' || c = '=' then 0
    else attributeNameLength false cs + 1

structure ValueRead where
  value : Option (List Char × Span)
  input : Input
  diagnostics : List Diagnostic

def readValue (i : Input) : ValueRead :=
  match i.rest with
  | [] => ⟨none, i, []⟩
  | c :: _ =>
    if c = '"' || c = '\'' then
      let start := i.skip 1
      let stop := start.skip (start.count (· != c))
      let span := start.spanFrom stop
      let value := some (Text.decode (start.rest.takeWhile (· != c)), span)
      if stop.rest.isEmpty then ⟨value, stop, [.error .eofInTag span]⟩ else ⟨value, stop.skip 1, []⟩
    else if c = '>' then ⟨none, i, []⟩
    else
      let stop := i.skip (i.count fun c => !Text.isBlank c && c != '>')
      let raw := i.rest.takeWhile fun c => !Text.isBlank c && c != '>'
      ⟨some (Text.decode raw, i.spanFrom stop), stop, []⟩

structure AttributeRead where
  attr : RawAttribute
  input : Input
  diagnostics : List Diagnostic

/-- Read an attribute. Its first character belongs to its name, whatever it is. -/
def readAttribute (i : Input) : AttributeRead :=
  let n := attributeNameLength false (i.rest.drop 1) + 1
  let name := i.rest.take n
  let afterName := i.skip n
  let beforeValue := afterName.skipBlank
  if beforeValue.rest.head? = some '=' then
    let read := readValue (beforeValue.skip 1).skipBlank
    let span := i.spanFrom read.input
    let missing := if read.value.isNone then [Diagnostic.error .missingAttributeValue span] else []
    ⟨⟨name, read.value, span⟩, read.input, read.diagnostics ++ missing⟩
  else ⟨⟨name, none, i.spanFrom afterName⟩, afterName, []⟩

theorem length_readValue (i : Input) : (readValue i).input.rest.length ≤ i.rest.length := by
  unfold readValue
  split
  · simp
  · dsimp only
    split
    · split <;> simp <;> omega
    · split <;> simp

theorem length_readAttribute (i : Input) (h : i.rest ≠ []) :
    (readAttribute i).input.rest.length < i.rest.length := by
  have pos := List.length_pos_iff.2 h
  unfold readAttribute
  dsimp only
  split
  · have name := (i.skip (attributeNameLength false (i.rest.drop 1) + 1)).length_skipBlank
    generalize (i.skip (attributeNameLength false (i.rest.drop 1) + 1)).skipBlank = j at *
    have value := length_readValue (j.skip 1).skipBlank
    have blanks := (j.skip 1).length_skipBlank
    simp only [Input.length_skip] at name blanks
    dsimp only
    omega
  · simp only [Input.length_skip]
    omega

structure AttributesRead where
  attributes : List RawAttribute
  input : Input
  diagnostics : List Diagnostic

def endsAttributes : List Char → Bool
  | [] | '>' :: _ | '/' :: '>' :: _ => true
  | _ => false

theorem length_pos_of_not_endsAttributes (h : ¬endsAttributes cs) : 0 < cs.length := by
  cases cs with
  | nil => exact absurd rfl h
  | cons => simp

/-- Read attributes up to `>` or `/>`, after the ones in `earlier`. Other slashes are passed
    over. -/
def readAttributes (earlier : List RawAttribute) (i : Input) : AttributesRead :=
  if _h : endsAttributes i.skipBlank.rest then ⟨earlier, i.skipBlank, []⟩
  else if i.skipBlank.rest.head? = some '/' then readAttributes earlier (i.skipBlank.skip 1)
  else
    let read := readAttribute i.skipBlank
    if earlier.any (·.name == read.attr.name) then
      let more := readAttributes earlier read.input
      let duplicate := Diagnostic.error .duplicateAttribute read.attr.span
      { more with diagnostics := read.diagnostics ++ duplicate :: more.diagnostics }
    else
      let more := readAttributes (earlier ++ [read.attr]) read.input
      { more with diagnostics := read.diagnostics ++ more.diagnostics }
termination_by i.rest.length
decreasing_by
  all_goals
    have blank := i.length_skipBlank
    have pos := length_pos_of_not_endsAttributes _h
  · rw [Input.length_skip]
    omega
  all_goals
    have := length_readAttribute i.skipBlank (List.length_pos_iff.1 pos)
    omega

theorem length_readAttributes (earlier : List RawAttribute) (i : Input) :
    (readAttributes earlier i).input.rest.length ≤ i.rest.length := by
  induction h : i.rest.length using Nat.strongRecOn generalizing earlier i with
  | _ n ih =>
    subst h
    have blank := i.length_skipBlank
    rw [readAttributes]
    split
    · exact blank
    · next open_ =>
      have pos := length_pos_of_not_endsAttributes open_
      split
      · have shorter : (i.skipBlank.skip 1).rest.length < i.rest.length := by
          rw [Input.length_skip]; omega
        exact Nat.le_of_lt (Nat.lt_of_le_of_lt (ih _ shorter earlier _ rfl) shorter)
      · have shorter : (readAttribute i.skipBlank).input.rest.length < i.rest.length := by
          have := length_readAttribute i.skipBlank (List.length_pos_iff.1 pos)
          omega
        dsimp only
        split
        · exact Nat.le_of_lt (Nat.lt_of_le_of_lt (ih _ shorter earlier _ rfl) shorter)
        · exact Nat.le_of_lt (Nat.lt_of_le_of_lt (ih _ shorter _ _ rfl) shorter)

end Stencil
