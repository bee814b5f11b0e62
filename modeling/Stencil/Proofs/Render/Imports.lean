import Mathlib.Data.List.Basic
import Mathlib.Data.List.Induction
import Stencil.Proofs.Render.Tree
import Stencil.Render.Print

/-! # Imported helpers

A printed script imports exactly the helpers that it uses. What a render tree uses is read off the
tree: its words are the code and the helpers that each of its nodes stands for, in order. The
printer puts brackets, commas and line breaks between the words and adds none, and every helper is
bound before the code that uses it.
-/

namespace Stencil

open List RenderNode Text Options

/-! ## The words of a tree -/

mutual
def Expression.words : Expression → List Piece
  | .simple s => [.code s.code]
  | .compound c => c.words

def Compound.words : Compound → List Piece
  | ⟨parts, _, _, _⟩ => Part.allWords parts

def Part.words : Part → List Piece
  | .raw code => [.code code]
  | .expr e => e.words
  | .text t => [.code (quote t.content)]
  | .interpolation content _ => .helper .toDisplayString :: content.words
  | .helper h => [.helper h]

def Part.allWords : List Part → List Piece
  | [] => []
  | p :: ps => p.words ++ Part.allWords ps
end

/-- The words of a property key: its name, or the script in the brackets of a computed key. -/
def keyWords (key : Expression) : List Piece :=
  match key.static? with
  | some name => [.code (if isPlainKey name then name else quote name)]
  | none => key.words

def VNode.flagWords (v : VNode) : List Piece :=
  if v.flag.isEmpty then [] else [.code v.flag.code]

def VNode.dynamicPropWords (v : VNode) : List Piece :=
  if v.dynamicProps = [] then []
  else [.code ("[" ++ ", ".intercalate (v.dynamicProps.map quote) ++ "]")]

/-- The words of a node creation, given those of its parts. The directives stand in a call around
    the block, and the block is opened before the node is created. -/
def VNode.wordsWith (v : VNode) (tag props children directives : List Piece) : List Piece :=
  (if v.directives.isSome then [.helper .withDirectives] else []) ++
    (if v.isBlock then [.helper .openBlock] else []) ++
    .helper (.forVNode v.isBlock v.isComponent) :: tag ++ props ++ children ++ v.flagWords ++
    v.dynamicPropWords ++ directives

mutual
/-- The code and the helpers that a render tree stands for, in order. -/
def RenderNode.words : RenderNode → List Piece
  | .vnode v => v.words
  | .call callee args => .helper callee :: RenderNode.allWords args
  | .object properties => Property.allWords properties
  | .array elements => RenderNode.allWords elements
  | .function params returns _ isSlot =>
    (if isSlot then [.helper .withCtx] else []) ++
      .code ("(" ++ ", ".intercalate params ++ ") => ") ::
      match returns with
      | some node => node.words
      | none => []
  | .conditional test consequent alternate _ => test.words ++ consequent.words ++ alternate.words
  | .expr e => e.words
  | .text t => [.code (quote t.content)]
  | .interpolation content _ => .helper .toDisplayString :: content.words
  | .comment c => [.helper .createComment, .code (quote c.content)]
  | .textCall t => t.words
  | .hoisted index => [.code (hoistedName index)]
  | .helper h => [.helper h]

def VNode.words : VNode → List Piece
  | ⟨id, tag, props, children, flag, dynamicProps, directives, isBlock, disableTracking,
      isComponent, dynamicChildren, span⟩ =>
    VNode.wordsWith ⟨id, tag, props, children, flag, dynamicProps, directives, isBlock,
        disableTracking, isComponent, dynamicChildren, span⟩
      tag.words
      (match props with
        | some p => p.words
        | none => [])
      (match children with
        | some c => c.words
        | none => [])
      (match directives with
        | some elements => RenderNode.allWords elements
        | none => [])

def Tag.words : Tag → List Piece
  | .literal name => [.code (quote name)]
  | .component name => [.code name]
  | .helper h => [.helper h]
  | .dynamic node => node.words

def Children.words : Children → List Piece
  | .nodes nodes => RenderNode.allWords nodes
  | .single node | .slots node | .list node => node.words
  | .hoisted index => [.code (hoistedName index)]

def TextCall.words : TextCall → List Piece
  | ⟨_, content, flag, _⟩ =>
    .helper .createText ::
      match content with
      | some node => node.words ++ if flag.isDynamic then [.code (", " ++ flag.code)] else []
      | none => []

def RenderNode.allWords : List RenderNode → List Piece
  | [] => []
  | node :: nodes => node.words ++ RenderNode.allWords nodes

def Property.allWords : List Property → List Piece
  | [] => []
  | ⟨key, value⟩ :: properties => keyWords key ++ value.words ++ Property.allWords properties
end

/-! ## What the printer adds -/

namespace Piece

/-- What the printer puts between words. No helper is among it. -/
def glue : List String :=
  ["(", ")", "[", "]", "\x7b", "\x7d", "\x7b ", " \x7d", "\x7b\x7d", ",", ", ", ": ", "? ", " ? ",
    " : ", "return ", "null", "(), ", "(true), ", "/*#__PURE__*/"]

def isGlue : Piece → Bool
  | .code text => glue.contains text
  | .helper _ => false
  | .newline _ => true

/-- Pieces without the glue between them. -/
def bare (pieces : List Piece) : List Piece :=
  pieces.filter (!·.isGlue)

@[simp] theorem bare_nil : bare [] = [] := rfl

@[simp] theorem bare_append (a b) : bare (a ++ b) = bare a ++ bare b :=
  filter_append ..

theorem bare_cons_of_glue {p : Piece} (ps) (h : p.isGlue = true) : bare (p :: ps) = bare ps := by
  simp [bare, h]

theorem bare_cons (p ps) : bare (p :: ps) = bare [p] ++ bare ps :=
  bare_append [p] ps

@[simp] theorem bare_cons_inj (p a b) : bare (p :: a) = bare (p :: b) ↔ bare a = bare b := by
  rw [bare_cons p a, bare_cons p b, append_cancel_left_eq]

@[simp] theorem bare_newline (depth ps) : bare (.newline depth :: ps) = bare ps :=
  bare_cons_of_glue ps rfl

@[simp] theorem bare_helper (h ps) : bare (.helper h :: ps) = .helper h :: bare ps := rfl

theorem bare_code {text} (ps) (h : glue.contains text = true) : bare (.code text :: ps) = bare ps :=
  bare_cons_of_glue ps h

theorem bare_join (h : bare separator = []) (items) :
    bare (join separator items) = items.flatMap bare := by
  fun_induction join separator items with
  | case1 => rfl
  | case2 one => simp
  | case3 first second rest ih => simp [ih, h]

@[simp] theorem bare_call (h args) : bare (call h args) = .helper h :: bare args := by
  simp [call, bare_code, glue]

theorem bare_comma : bare [.code ", "] = [] := by
  simp [bare_code, glue]

theorem bare_enclose (depth multiline) {left right} (hl : glue.contains left)
    (hr : glue.contains right) (items) :
    bare (enclose depth multiline left right items) = items.flatMap bare := by
  have comma : bare [.code ",", .newline (depth + 1)] = [] := by
    simp [bare_code, glue]
  unfold enclose
  split
  · simp [bare_code _ hl, bare_code _ hr, bare_join comma]
  · simp [bare_code _ hl, bare_code _ hr, bare_join bare_comma]

end Piece

open Piece

theorem bare_layoutArguments (args) :
    bare (layoutArguments args) = args.flatMap fun arg => bare (arg.getD []) := by
  have null : bare [.code "null"] = [] := by simp [bare_code, glue]
  have absent (arg : Option (List Piece)) :
      bare (arg.getD [.code "null"]) = bare (arg.getD []) := by
    cases arg with
    | none => exact null
    | some pieces => rfl
  have dropped (args : List (Option (List Piece))) :
      ((args.reverse.dropWhile (·.isNone)).reverse.flatMap fun arg => bare (arg.getD [])) =
        args.flatMap fun arg => bare (arg.getD []) := by
    induction args using List.reverseRecOn with
    | nil => rfl
    | append_singleton args arg ih =>
      cases arg with
      | none => simp [ih]
      | some pieces => simp
  rw [layoutArguments, bare_join bare_comma, flatMap_map]
  simp only [absent]
  exact dropped args

theorem bare_layoutTest (test layout) : bare (layoutTest test layout) = bare layout := by
  simp only [layoutTest]
  split <;> split <;> simp [bare_code, glue]

mutual
theorem Expression.bare_layout (e : Expression) : bare e.layout = bare e.words := by
  cases e with
  | simple s => rfl
  | compound c => exact c.bare_layout

theorem Compound.bare_layout (c : Compound) : bare c.layout = bare c.words := by
  obtain ⟨parts, level, source, span⟩ := c
  exact Part.bare_layouts parts

theorem Part.bare_layout (p : Part) : bare p.layout = bare p.words := by
  cases p with
  | raw | text | helper => rfl
  | expr e => exact e.bare_layout
  | interpolation content span => simp [Part.layout, Part.words, content.bare_layout]

theorem Part.bare_layouts (ps) : bare (Part.layouts ps) = bare (Part.allWords ps) := by
  cases ps with
  | nil => rfl
  | cons p ps => simp [Part.layouts, Part.allWords, p.bare_layout, Part.bare_layouts ps]
end

theorem bare_layoutKey (key) : bare (layoutKey key) = bare (keyWords key) := by
  unfold layoutKey keyWords
  cases key.static? with
  | some name => rfl
  | none => simp [bare_code, glue, key.bare_layout]

theorem VNode.bare_layout (v : VNode) {tag tagWords propWords childWords directiveWords}
    {props children directives : Option (List Piece)} (hTag : bare tag = bare tagWords)
    (hProps : bare (props.getD []) = bare propWords)
    (hChildren : bare (children.getD []) = bare childWords)
    (hDirectives : bare (directives.getD []) = bare directiveWords)
    (same : directives.isSome = v.directives.isSome) :
    bare (v.layout tag props children directives) =
      bare (v.wordsWith tagWords propWords childWords directiveWords) := by
  have flag : (if v.flag.isEmpty then none else some [Piece.code v.flag.code]).getD [] =
      v.flagWords := by
    unfold flagWords
    split <;> rfl
  have dynamicProps : (if v.dynamicProps = [] then none else
      some [Piece.code ("[" ++ ", ".intercalate (v.dynamicProps.map quote) ++ "]")]).getD [] =
        v.dynamicPropWords := by
    unfold dynamicPropWords
    split <;> rfl
  have opening (ps : List Piece) :
      bare (.code (if v.disableTracking then "(true), " else "(), ") :: ps) = bare ps := by
    cases v.disableTracking <;> simp [bare_code, glue]
  unfold layout wordsWith
  rw [← same]
  cases directives <;> cases v.isBlock <;>
    simp [bare_layoutArguments, bare_code, glue, opening, flag, dynamicProps, hTag, hProps,
      hChildren, ← hDirectives]

section Nodes

variable {nodes : List RenderNode}

section

variable (ih : ∀ node ∈ nodes, ∀ d, bare (node.layout d) = bare node.words)
include ih

theorem bare_layouts (d) : (layouts d nodes).flatMap bare = bare (allWords nodes) := by
  induction nodes with
  | nil => rfl
  | cons node nodes rest =>
    have here := ih node mem_cons_self d
    have below := rest fun n member => ih n (mem_cons_of_mem node member)
    simp [RenderNode.layouts, RenderNode.allWords, here, below]

theorem bare_enclose_layouts (depth d long) :
    bare (enclose depth long "[" "]" (RenderNode.layouts d nodes)) =
      bare (allWords nodes) := by
  rw [bare_enclose _ _ (by decide) (by decide), bare_layouts ih]

end

theorem bare_layoutProperties {properties}
    (ih : ∀ p ∈ properties, ∀ d, bare (p.value.layout d) = bare p.value.words) (d) :
    (layoutProperties d properties).flatMap bare = bare (Property.allWords properties) := by
  induction properties with
  | nil => rfl
  | cons p properties rest =>
    obtain ⟨key, value⟩ := p
    have here := ih ⟨key, value⟩ mem_cons_self d
    have below := rest fun p member => ih p (mem_cons_of_mem _ member)
    simp [layoutProperties, Property.allWords, bare_layoutKey, bare_code, glue, here, below]

end Nodes

theorem bare_layoutVNode {v : VNode}
    (ih : ∀ part ∈ v.parts, ∀ d, bare (part.layout d) = bare part.words) (depth) :
    bare (layoutVNode depth v) = bare v.words := by
  obtain ⟨_, tag, props, children, _, _, directives, _, _, _, _, _⟩ := v
  simp only [VNode.parts, mem_append] at ih
  unfold layoutVNode VNode.words
  apply VNode.bare_layout
  · cases tag with
    | literal | component | helper => rfl
    | dynamic node => exact ih node (by simp [Tag.parts]) depth
  · cases props with
    | none => rfl
    | some p => exact ih p (by simp) depth
  · cases children with
    | none => rfl
    | some c =>
      cases c with
      | nodes items =>
        apply bare_enclose_layouts
        exact fun node member => ih node (by simp [Children.parts, member])
      | single node | slots node | list node => exact ih node (by simp [Children.parts]) depth
      | hoisted index => rfl
  · cases directives with
    | none => rfl
    | some elements =>
      apply bare_enclose_layouts
      exact fun node member => ih node (by simp [member])
  · cases directives <;> rfl

/-- The printer adds glue to the words of a tree, and nothing else. -/
theorem RenderNode.bare_layout (node : RenderNode) (depth) :
    bare (node.layout depth) = bare node.words := by
  induction node using rec_strong generalizing depth with
  | step node ih =>
    cases node with
    | vnode v => exact bare_layoutVNode ih depth
    | call callee args =>
      have shown := bare_layouts (show ∀ arg ∈ args, _ from ih) depth
      rw [RenderNode.layout, RenderNode.words, bare_call, bare_helper, bare_join bare_comma, shown]
    | object properties =>
      have values : ∀ p ∈ properties, ∀ d, bare (p.value.layout d) = bare p.value.words :=
        fun p member => ih p.value (mem_map_of_mem member)
      simp only [RenderNode.layout, RenderNode.words]
      split
      next empty =>
        rw [List.isEmpty_iff.mp empty]
        rfl
      · split <;> rw [bare_enclose _ _ (by decide) (by decide), bare_layoutProperties values]
    | array elements => exact bare_enclose_layouts ih depth _ _
    | function params returns newline isSlot =>
      cases returns with
      | none =>
        cases newline <;> cases isSlot <;>
          simp [RenderNode.layout, RenderNode.words, bare_code, glue]
      | some node =>
        have returned (d : Nat) := ih node (by simp [parts]) d
        cases newline <;> cases isSlot <;>
          simp [layout, words, bare_code, glue, returned]
    | conditional test consequent alternate newline =>
      have tested (d : Nat) := ih test (by simp [parts]) d
      have first (d : Nat) := ih consequent (by simp [parts]) d
      have second (d : Nat) := ih alternate (by simp [parts]) d
      cases newline <;>
        simp [layout, words, bare_code, glue, bare_layoutTest, tested, first, second]
    | expr e => exact e.bare_layout
    | text | hoisted | helper => rfl
    | comment c => simp [layout, words]
    | interpolation content => simp [layout, words, content.bare_layout]
    | textCall t =>
      obtain ⟨id, content, flag, span⟩ := t
      cases content with
      | none => rfl
      | some node =>
        have shown := ih node (by simp [parts]) depth
        simp [layout, layoutTextCall, words, TextCall.words, shown]

/-! ## The words of a script -/

/-- The words of the look-up of a component or directive. -/
def assetWords (kind : String) (resolver : Helper) (name : String) : List Piece :=
  [.code ("const " ++ assetVariable name kind ++ " = "), .helper resolver, .code (quote name)]

/-- The words of the constants before the render function. -/
def Root.hoistWords (root : Root) : List Piece :=
  root.hoists.flatMap (·.words)

def Root.bodyWords (root : Root) : List Piece :=
  root.components.flatMap (assetWords "component" .resolveComponent) ++
    root.directives.flatMap (assetWords "directive" .resolveDirective) ++
    match root.code with
    | some node => node.words
    | none => []

theorem bare_layoutHoist (node) : bare (layoutHoist node) = bare node.words := by
  simp only [layoutHoist]
  split <;> simp [bare_code, glue, bare_layout]

theorem Root.bare_hoists (root : Root) :
    bare (root.hoists.map layoutHoist).flatten = bare root.hoistWords := by
  unfold hoistWords
  induction root.hoists with
  | nil => rfl
  | cons node nodes ih => simp [bare_layoutHoist, ih]

theorem bare_layoutAssets (depth kind resolver) (names : List String) :
    bare (names.flatMap (layoutAsset depth kind resolver)) =
      bare (names.flatMap (assetWords kind resolver)) := by
  induction names with
  | nil => rfl
  | cons name names ih =>
    have here : bare (layoutAsset depth kind resolver name) =
        bare (assetWords kind resolver name) := by
      simp [layoutAsset, assetWords]
    rw [flatMap_cons, flatMap_cons, bare_append, bare_append, here, ih]

theorem Root.bare_layoutBody (root : Root) (depth) :
    bare (root.layoutBody depth) = bare root.bodyWords := by
  have assets : bare (root.layoutAssets depth) =
      bare (root.components.flatMap (assetWords "component" .resolveComponent) ++
        root.directives.flatMap (assetWords "directive" .resolveDirective)) := by
    rw [bare_append, ← bare_layoutAssets depth, ← bare_layoutAssets depth, ← bare_append]
    simp only [layoutAssets]
    split
    next empty => rw [List.isEmpty_iff.mp empty]
    · simp
  unfold layoutBody bodyWords
  cases root.code <;> simp [bare_code, glue, assets, bare_layout]

/-! ## Helpers in order of first use -/

theorem filterMap_helper?_bare (pieces) :
    (bare pieces).filterMap helper? = pieces.filterMap helper? := by
  rw [bare, filterMap_filter]
  refine filterMap_congr fun p _ => ?_
  cases p with
  | code | newline => exact ite_self none
  | helper => rfl

/-- Of a list without its repetitions, each item comes before the ones that occur later. -/
theorem pairwise_eraseDups {α : Type} [DecidableEq α] (l : List α) :
    l.eraseDups.Pairwise fun a b => l.idxOf a < l.idxOf b := by
  induction l using List.reverseRecOn with
  | nil => exact .nil
  | append_singleton l a ih =>
    have earlier {b : α} (member : b ∈ l.eraseDups) : (l ++ [a]).idxOf b = l.idxOf b :=
      idxOf_append_of_mem (mem_eraseDups.mp member)
    have before : l.eraseDups.Pairwise fun b c => (l ++ [a]).idxOf b < (l ++ [a]).idxOf c :=
      ih.imp_of_mem fun hb hc less => by rwa [earlier hb, earlier hc]
    rw [eraseDups_append]
    by_cases known : a ∈ l
    · simpa [List.removeAll, known] using before
    · have last : ([a].removeAll l).eraseDups = [a] := by
        simp [List.removeAll, known, eraseDups_cons]
      rw [last]
      refine pairwise_append.mpr ⟨before, pairwise_singleton _ _, fun b member c isLast => ?_⟩
      rw [mem_singleton.mp isLast, earlier member, idxOf_append_of_notMem known]
      exact Nat.lt_add_right _ (idxOf_lt_length_of_mem (mem_eraseDups.mp member))

/-- The helpers that words name, in order and with repetitions. -/
def usesOf (words : List Piece) : List Helper :=
  words.filterMap helper?

theorem usesOf_eq {pieces words} (same : bare pieces = bare words) :
    pieces.filterMap helper? = usesOf words := by
  rw [← filterMap_helper?_bare, same, filterMap_helper?_bare, usesOf]

/-! ## Bindings -/

/-- The statement imports the helper from a module, under its local name. -/
def Helper.ImportedBy (h : Helper) (source statement : String) : Prop :=
  ∃ before after : List Helper,
    statement = "import " ++ importList (before ++ h :: after) ++ " from " ++ source ++ "\n"

/-- The statement takes the helper out of an object, under its local name. -/
def Helper.TakenBy (h : Helper) (source statement : String) : Prop :=
  ∃ before after : List Helper,
    statement = "const " ++ destructure (before ++ h :: after) ++ " = " ++ source ++ "\n"

variable {helpers : List Helper}

theorem Helper.importedBy_of_mem (member : h ∈ helpers) (source) :
    h.ImportedBy source ("import " ++ importList helpers ++ " from " ++ source ++ "\n") := by
  obtain ⟨before, after, rfl⟩ := append_of_mem member
  exact ⟨before, after, rfl⟩

theorem Helper.takenBy_of_mem (member : h ∈ helpers) (source) :
    h.TakenBy source ("const " ++ destructure helpers ++ " = " ++ source ++ "\n") := by
  obtain ⟨before, after, rfl⟩ := append_of_mem member
  exact ⟨before, after, rfl⟩

/-- The declarations of all constants, as the preamble ends. -/
def Printed.declarations (printed : Printed) : String :=
  printHoists 0 printed.hoists ++ if printed.hoists.isEmpty then "" else "\n"

/-- Every helper is bound before it is used. A module imports the helpers before its constants, and
    a script with qualified names takes them from the runtime there. A script that runs in its
    context takes those of the constants there, and all of them inside `with`, before the body. -/
def Printed.Binds (printed : Printed) (o : Options) (forHoists : List Helper) (body : String) :
    Prop :=
  match o.mode, o.qualify with
  | .module, _ =>
    (∀ h ∈ printed.helpers, ∃ binding, h.ImportedBy (quote o.runtimeModule) binding ∧
      printed.preamble = binding ++ "\n" ++ printed.declarations) ∧
    printed.code = printed.preamble ++ "export function render(_ctx, _cache) \x7b\n  " ++ body ++
      "\n\x7d"
  | .function, true =>
    (∀ h ∈ printed.helpers, ∃ binding, h.TakenBy o.runtimeGlobal binding ∧
      printed.preamble = binding ++ "\n" ++ printed.declarations) ∧
    printed.code = printed.preamble ++ "return function render(_ctx, _cache) \x7b\n  " ++ body ++
      "\n\x7d"
  | .function, false =>
    (∀ h ∈ forHoists, ∃ binding, h.TakenBy "_Vue" binding ∧
      printed.preamble =
        "const _Vue = " ++ o.runtimeGlobal ++ "\n" ++ binding ++ "\n" ++ printed.declarations) ∧
    (∀ h ∈ printed.helpers, ∃ binding, h.TakenBy "_Vue" binding ∧
      printed.code = printed.preamble ++ "return function render(_ctx, _cache) \x7b\n" ++
        "  with (_ctx) \x7b\n    " ++ binding ++ "\n" ++ "    " ++ body ++ "\n  \x7d\n\x7d")

theorem Root.preamble_print (root : Root) (o) :
    (root.print o).preamble = o.printImports (root.print o).helpers
      (Piece.helpers (root.hoists.map layoutHoist).flatten) ++ (root.print o).declarations := by
  simp [print, Printed.declarations, String.append_assoc]

theorem mem_forHoists {root : Root} {h} (member : h ∈ usesOf root.hoistWords) :
    h ∈ Piece.helpers (root.hoists.map layoutHoist).flatten := by
  rw [Piece.helpers, usesOf_eq root.bare_hoists]
  exact mem_eraseDups.mpr member

theorem Root.binds_print (root : Root) (o) :
    (root.print o).Binds o (usesOf root.hoistWords)
      (Piece.text (root.layoutBody (if o.runsInContext then 2 else 1))) := by
  have preamble := root.preamble_print o
  have code : (root.print o).code = (root.print o).preamble ++
      o.printFunction (root.print o).helpers
        (Piece.text (root.layoutBody (if o.runsInContext then 2 else 1))) := rfl
  have blank : "\n\n" = "\n" ++ "\n" := rfl
  have indented : "    const " = "    " ++ "const " := rfl
  have within : "  with (_ctx) \x7b\n    " = "  with (_ctx) \x7b\n" ++ "    " := rfl
  have taken : " = _Vue\n\n" = " = " ++ ("_Vue" ++ ("\n" ++ "\n")) := rfl
  unfold Printed.Binds
  split
  next module =>
    have outside : o.runsInContext = false := by simp [runsInContext, module]
    constructor
    · intro h member
      refine ⟨_, Helper.importedBy_of_mem member _, ?_⟩
      simp [preamble, printImports, module, ne_nil_of_mem member, blank,
        String.append_assoc]
    · simp [code, printFunction, module, outside, String.append_assoc]
  next function qualify =>
    have outside : o.runsInContext = false := by simp [runsInContext, qualify]
    constructor
    · intro h member
      refine ⟨_, Helper.takenBy_of_mem member _, ?_⟩
      simp [preamble, printImports, function, outside, ne_nil_of_mem member, blank,
        String.append_assoc]
    · simp [code, printFunction, function, outside, String.append_assoc]
  next function qualify =>
    have inside : o.runsInContext = true := by simp [runsInContext, function, qualify]
    constructor
    · intro h member
      have used := mem_forHoists member
      refine ⟨_, Helper.takenBy_of_mem used _, ?_⟩
      simp [preamble, printImports, function, inside, ne_nil_of_mem used,
        String.append_assoc]
    · intro h member
      refine ⟨_, Helper.takenBy_of_mem member _, ?_⟩
      simp [code, printFunction, function, inside, ne_nil_of_mem member,
        -String.reduceAppend, String.append_assoc, indented, within, taken]

/-- The imports of a script are exact. Its helpers have no repetition, they are those that the
    words of the constants and of the body name, in order of first use, and each one is bound
    before it is used. The words are all that is written, but for the glue between them. -/
theorem Root.helpers_print (root : Root) (o : Options) :
    let printed := root.print o
    let body := root.layoutBody (if o.runsInContext then 2 else 1)
    let uses := usesOf root.hoistWords ++ usesOf root.bodyWords
    printed.helpers.Nodup ∧
      (∀ h, h ∈ printed.helpers ↔ h ∈ uses) ∧
      (printed.helpers.Pairwise fun a b => uses.idxOf a < uses.idxOf b) ∧
      printed.Binds o (usesOf root.hoistWords) (Piece.text body) ∧
      printed.hoists = root.hoists.map (fun node => Piece.text (layoutHoist node)) ∧
      (∀ node ∈ root.hoists, bare (layoutHoist node) = bare node.words) ∧
      bare body = bare root.bodyWords := by
  have helpers : (root.print o).helpers =
      (usesOf root.hoistWords ++ usesOf root.bodyWords).eraseDups := by
    simp only [print, Piece.helpers, filterMap_append]
    rw [usesOf_eq root.bare_hoists, usesOf_eq (root.bare_layoutBody _)]
  have order := pairwise_eraseDups (usesOf root.hoistWords ++ usesOf root.bodyWords)
  dsimp only
  rw [helpers]
  refine ⟨?_, ?_, order, root.binds_print o, ?_, ?_, root.bare_layoutBody _⟩
  · apply order.imp
    intro a b before same
    rw [same] at before
    exact Nat.lt_irrefl _ before
  · exact fun h => mem_eraseDups
  · simp [print]
  · exact fun node _ => bare_layoutHoist node

end Stencil
