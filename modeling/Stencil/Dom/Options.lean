import Stencil.Dom.Tags
import Stencil.Options

/-! # Options for the browser -/

namespace Stencil.Options

/-- The options with the tags of the browser, and with its rules before and below the given ones. -/
def withDom (o : Options) : Options :=
  let o := { o with
    isNative := some Dom.isNativeTag
    isVoid := Dom.isVoidTag
    isPre := Dom.isPreTag
    nodeRules := .sideEffects :: .style :: .stripChildren :: o.nodeRules }
  ((((((o.addRule "cloak" .cloak).addRule "html" .html).addRule "text" .text).addRule
    "model" .domModel).addRule "on" .domOn).addRule "show" .show)

/-- The options with the browser's, unless they know the platform's tags already. -/
def orDom (o : Options) : Options :=
  if o.isNative.isSome then o else o.withDom

end Stencil.Options
