/-! # Tags of the browser

Names are case-sensitive: `button` is an element, `Button` is not.
-/

namespace Stencil.Dom

def htmlTags : List String :=
  ["html", "body", "base", "head", "link", "meta", "style", "title", "address", "article",
    "aside", "footer", "header", "hgroup", "h1", "h2", "h3", "h4", "h5", "h6", "nav", "section",
    "div", "dd", "dl", "dt", "figcaption", "figure", "picture", "hr", "img", "li", "main", "ol",
    "p", "pre", "ul", "a", "b", "abbr", "bdi", "bdo", "br", "cite", "code", "data", "dfn", "em",
    "i", "kbd", "mark", "q", "rp", "rt", "ruby", "s", "samp", "small", "span", "strong", "sub",
    "sup", "time", "u", "var", "wbr", "area", "audio", "map", "track", "video", "embed", "object",
    "param", "source", "canvas", "script", "noscript", "del", "ins", "caption", "col", "colgroup",
    "table", "thead", "tbody", "td", "th", "tr", "button", "datalist", "fieldset", "form",
    "input", "label", "legend", "meter", "optgroup", "option", "output", "progress", "select",
    "textarea", "details", "dialog", "menu", "summary", "template", "blockquote", "iframe",
    "tfoot", "search"]

def svgTags : List String :=
  ["svg", "animate", "animateMotion", "animateTransform", "circle", "clipPath", "color-profile",
    "defs", "desc", "discard", "ellipse", "feBlend", "feColorMatrix", "feComponentTransfer",
    "feComposite", "feConvolveMatrix", "feDiffuseLighting", "feDisplacementMap", "feDistantLight",
    "feDropShadow", "feFlood", "feFuncA", "feFuncB", "feFuncG", "feFuncR", "feGaussianBlur",
    "feImage", "feMerge", "feMergeNode", "feMorphology", "feOffset", "fePointLight",
    "feSpecularLighting", "feSpotLight", "feTile", "feTurbulence", "filter", "foreignObject", "g",
    "hatch", "hatchpath", "image", "line", "linearGradient", "marker", "mask", "mesh",
    "meshgradient", "meshpatch", "meshrow", "metadata", "mpath", "path", "pattern", "polygon",
    "polyline", "radialGradient", "rect", "set", "solidcolor", "stop", "switch", "symbol", "text",
    "textPath", "title", "tspan", "unknown", "use", "view"]

def mathTags : List String :=
  ["annotation", "annotation-xml", "maction", "maligngroup", "malignmark", "math", "menclose",
    "merror", "mfenced", "mfrac", "mfraction", "mglyph", "mi", "mlabeledtr", "mlongdiv",
    "mmultiscripts", "mn", "mo", "mover", "mpadded", "mphantom", "mprescripts", "mroot", "mrow",
    "ms", "mscarries", "mscarry", "msgroup", "msline", "mspace", "msqrt", "msrow", "mstack",
    "mstyle", "msub", "msubsup", "msup", "mtable", "mtd", "mtext", "mtr", "munder", "munderover",
    "none", "semantics"]

def voidTags : List String :=
  ["area", "base", "br", "col", "embed", "hr", "img", "input", "link", "meta", "param", "source",
    "track", "wbr"]

def isNativeTag (tag : String) : Bool :=
  htmlTags.contains tag || svgTags.contains tag || mathTags.contains tag

def isVoidTag (tag : String) : Bool :=
  voidTags.contains tag

def isPreTag (tag : String) : Bool :=
  tag == "pre"

end Stencil.Dom
