import Stencil.Span

/-! # Diagnostics

What can be wrong with a template. Nothing stops a compile: causes are collected in the order in
which they are found.
-/

namespace Stencil

inductive Cause where
  -- reading the template
  | eofInTag
  | eofInComment
  | missingEndTag
  | invalidEndTag
  | missingEndTagName
  | missingInterpolationEnd
  | missingDirectiveName
  | missingDynamicArgumentEnd
  | duplicateAttribute
  | missingAttributeValue
  -- lowering it
  | ifNoExpression
  | elseNoAdjacentIf
  | forNoExpression
  | forMalformedExpression
  | forTemplateKeyPlacement
  | bindNoExpression
  | onNoExpression
  | slotDirectiveOnOutlet
  | slotMixedUsage
  | slotDuplicateNames
  | slotExtraneousChildren
  | slotMisplaced
  | modelNoExpression
  | modelMalformedExpression
  | modelOnScopeVariable
  -- scripts
  | invalidExpression
  -- the browser layer
  | htmlNoExpression
  | htmlWithChildren
  | textNoExpression
  | textWithChildren
  | modelOnInvalidElement
  | modelArgOnElement
  | modelOnFileInput
  | modelUnnecessaryValue
  | showNoExpression
  | ignoredSideEffectTag
  deriving Repr, DecidableEq

namespace Cause

def all : List Cause :=
  [eofInTag, eofInComment, missingEndTag, invalidEndTag, missingEndTagName,
    missingInterpolationEnd, missingDirectiveName, missingDynamicArgumentEnd, duplicateAttribute,
    missingAttributeValue, ifNoExpression, elseNoAdjacentIf, forNoExpression,
    forMalformedExpression, forTemplateKeyPlacement, bindNoExpression, onNoExpression,
    slotDirectiveOnOutlet, slotMixedUsage, slotDuplicateNames, slotExtraneousChildren,
    slotMisplaced, modelNoExpression, modelMalformedExpression, modelOnScopeVariable,
    invalidExpression, htmlNoExpression, htmlWithChildren, textNoExpression, textWithChildren,
    modelOnInvalidElement, modelArgOnElement, modelOnFileInput, modelUnnecessaryValue,
    showNoExpression, ignoredSideEffectTag]

def code : Cause → String
  | eofInTag => "eof-in-tag"
  | eofInComment => "eof-in-comment"
  | missingEndTag => "missing-end-tag"
  | invalidEndTag => "invalid-end-tag"
  | missingEndTagName => "missing-end-tag-name"
  | missingInterpolationEnd => "missing-interpolation-end"
  | missingDirectiveName => "missing-directive-name"
  | missingDynamicArgumentEnd => "missing-dynamic-directive-argument-end"
  | duplicateAttribute => "duplicate-attribute"
  | missingAttributeValue => "missing-attribute-value"
  | ifNoExpression => "v-if-no-expression"
  | elseNoAdjacentIf => "v-else-no-adjacent-if"
  | forNoExpression => "v-for-no-expression"
  | forMalformedExpression => "v-for-malformed-expression"
  | forTemplateKeyPlacement => "v-for-template-key-placement"
  | bindNoExpression => "v-bind-no-expression"
  | onNoExpression => "v-on-no-expression"
  | slotDirectiveOnOutlet => "v-slot-unexpected-directive-on-slot-outlet"
  | slotMixedUsage => "v-slot-mixed-slot-usage"
  | slotDuplicateNames => "v-slot-duplicate-slot-names"
  | slotExtraneousChildren => "v-slot-extraneous-default-slot-children"
  | slotMisplaced => "v-slot-misplaced"
  | modelNoExpression => "v-model-no-expression"
  | modelMalformedExpression => "v-model-malformed-expression"
  | modelOnScopeVariable => "v-model-on-scope-variable"
  | invalidExpression => "invalid-expression"
  | htmlNoExpression => "v-html-no-expression"
  | htmlWithChildren => "v-html-with-children"
  | textNoExpression => "v-text-no-expression"
  | textWithChildren => "v-text-with-children"
  | modelOnInvalidElement => "v-model-on-invalid-element"
  | modelArgOnElement => "v-model-arg-on-element"
  | modelOnFileInput => "v-model-on-file-input-element"
  | modelUnnecessaryValue => "v-model-unnecessary-value"
  | showNoExpression => "v-show-no-expression"
  | ignoredSideEffectTag => "ignored-side-effect-tag"

def ofCode? (name : String) : Option Cause :=
  all.find? (·.code == name)

def isReading : Cause → Bool
  | eofInTag | eofInComment | missingEndTag | invalidEndTag | missingEndTagName
  | missingInterpolationEnd | missingDirectiveName | missingDynamicArgumentEnd
  | duplicateAttribute | missingAttributeValue => true
  | _ => false

def message : Cause → String
  | eofInTag => "Unexpected EOF in tag."
  | eofInComment => "Unexpected EOF in comment."
  | missingEndTag => "Element is missing end tag."
  | invalidEndTag => "Invalid end tag."
  | missingEndTagName => "End tag name was expected."
  | missingInterpolationEnd => "Interpolation end sign was not found."
  | missingDirectiveName => "Legal directive name was expected."
  | missingDynamicArgumentEnd => "End bracket for dynamic directive argument was not found."
  | duplicateAttribute => "Duplicate attribute."
  | missingAttributeValue => "Attribute value was expected."
  | ifNoExpression => "v-if/v-else-if is missing expression."
  | elseNoAdjacentIf => "v-else/v-else-if has no adjacent v-if or v-else-if."
  | forNoExpression => "v-for is missing expression."
  | forMalformedExpression => "v-for has invalid expression."
  | forTemplateKeyPlacement =>
    "<template v-for> key should be placed on the <template> tag."
  | bindNoExpression => "v-bind is missing expression."
  | onNoExpression => "v-on is missing expression."
  | slotDirectiveOnOutlet => "Unexpected custom directive on <slot> outlet."
  | slotMixedUsage =>
    "Mixed v-slot usage on both the component and nested <template>. " ++
      "When there are multiple named slots, all slots should use <template> syntax."
  | slotDuplicateNames => "Duplicate slot names found."
  | slotExtraneousChildren =>
    "Extraneous children found when component already has explicitly named default slot. " ++
      "These children will be ignored."
  | slotMisplaced => "v-slot can only be used on components or <template> tags."
  | modelNoExpression => "v-model is missing expression."
  | modelMalformedExpression =>
    "v-model value must be a valid JavaScript member expression."
  | modelOnScopeVariable =>
    "v-model cannot be used on v-for or v-slot scope variables because they are not writable."
  | invalidExpression => "Error parsing JavaScript expression."
  | htmlNoExpression => "v-html is missing expression."
  | htmlWithChildren => "v-html will override element children."
  | textNoExpression => "v-text is missing expression."
  | textWithChildren => "v-text will override element children."
  | modelOnInvalidElement =>
    "v-model can only be used on <input>, <textarea> and <select> elements."
  | modelArgOnElement => "v-model argument is not supported on plain elements."
  | modelOnFileInput =>
    "v-model cannot be used on file inputs since they are read-only. " ++
      "Use a v-on:change listener instead."
  | modelUnnecessaryValue =>
    "Unnecessary value binding used alongside v-model. " ++
      "It will interfere with v-model's behavior."
  | showNoExpression => "v-show is missing expression."
  | ignoredSideEffectTag =>
    "Tags with side effect (<script> and <style>) are ignored in client component templates."

end Cause

inductive Severity where
  | error
  | warning
  deriving Repr, DecidableEq

def Severity.name : Severity → String
  | .error => "error"
  | .warning => "warning"

structure Diagnostic where
  cause : Cause
  message : String
  span : Span
  severity : Severity
  deriving Repr, DecidableEq

namespace Diagnostic

def error (cause : Cause) (span : Span) : Diagnostic :=
  ⟨cause, cause.message, span, .error⟩

def isError (d : Diagnostic) : Bool :=
  d.severity == .error

end Diagnostic

end Stencil
