import Stencil.Proofs.Lower.Traversal

/-! # Chains of conditionals

A conditional is lowered branch by branch: each further branch is put at the end of the chain that
is there already. The chain then shows the first branch whose condition is true.
-/

namespace Stencil

open List RenderNode Option

/-! ## What a chain shows -/

/-- The chain of conditionals for conditions and what they lead to. -/
def chain : List (Option Expression × RenderNode) → RenderNode
  | [] => .placeholder
  | (some condition, content) :: rest => .conditional (.expr condition) content (chain rest) true
  | (none, content) :: _ => content

/-- What is left of a node when its conditions are true as told. -/
def RenderNode.shown (truth : Expression → Bool) : RenderNode → RenderNode
  | .conditional (.expr condition) consequent alternate _ =>
    if truth condition then consequent.shown truth else alternate.shown truth
  | node => node

/-- Whether a branch is shown, unless one before it is. -/
def Branch.holds (truth : Expression → Bool) (b : Branch) : Bool :=
  b.condition.all truth

/-- A chain shows the first branch that holds. -/
theorem shown_chain (truth : Expression → Bool) (shows : List (Branch × RenderNode)) :
    (chain (shows.map fun s => (s.1.condition, s.2))).shown truth =
      match shows.find? (·.1.holds truth) with
      | some s => s.2.shown truth
      | none => .placeholder := by
  induction shows with
  | nil => rfl
  | cons s rest ih =>
    obtain ⟨b, content⟩ := s
    cases condition : b.condition with
    | none => simp [chain, Branch.holds, condition]
    | some e =>
      cases holds : truth e with
      | true => simp [chain, shown, Branch.holds, condition, holds]
      | false => simpa [chain, shown, Branch.holds, condition, holds] using ih

/-- A chain in which every branch has a condition can be continued. -/
theorem attachAlternate_chain (some : shows ≠ []) (conditions : ∀ s ∈ shows, s.1.isSome = true)
    (last) : (chain shows).attachAlternate (chain [last]) = chain (shows ++ [last]) := by
  induction shows with
  | nil => exact absurd rfl some
  | cons s rest ih =>
    obtain ⟨condition, content⟩ := s
    obtain ⟨e, rfl⟩ := isSome_iff_exists.mp (conditions _ mem_cons_self)
    cases rest with
    | nil => rfl
    | cons t rest =>
      obtain ⟨condition', content'⟩ := t
      obtain ⟨e', rfl⟩ := isSome_iff_exists.mp
        (conditions _ (mem_cons_of_mem _ mem_cons_self))
      have later := ih (cons_ne_nil _ _) fun s member =>
        conditions s (mem_cons_of_mem _ member)
      simp only [chain, attachAlternate, cons_append] at later ⊢
      rw [later]

/-! ## Conditionals of the template -/

/-- The children of a branch are lowered to a node, with a key of their own. -/
def Branch.Shows (key : Nat) (b : Branch) (content : RenderNode) : Prop :=
  ∃ o c, (Lower.exec (Lower.branchContent b key) o c).1 = content

/-- What the branches of a conditional show, with keys counted from `key`. -/
inductive Branch.AllShow : Nat → List Branch → List RenderNode → Prop
  | nil {key} : AllShow key [] []
  | cons {key b content branches contents} :
      b.Shows key content → AllShow (key + 1) branches contents →
      AllShow key (b :: branches) (content :: contents)

/-- A conditional is lowered to the chain of its branches. Only the last one may be without a
    condition. -/
structure Chained (key : Nat) (branches : List Branch) (lowered : Option RenderNode) : Prop where
  nonempty : branches ≠ []
  conditions : ∀ b ∈ branches.dropLast, b.condition.isSome = true
  chain : ∃ contents, Branch.AllShow key branches contents ∧
    lowered = some (Stencil.chain ((branches.zip contents).map fun s => (s.1.condition, s.2)))

/-- Siblings, the newest first, with every conditional among and below them lowered to its chain.
    Keys are counted through all conditionals before. -/
inductive Branched : List TemplateNode → Prop
  | nil : Branched []
  | element {el children before} :
      Branched children.reverse → Branched before → Branched (.element el children :: before)
  | loop {head children before lowered span} :
      Branched children.reverse → Branched before →
      Branched (.loop head children lowered span :: before)
  | conditional {branches lowered span before} :
      Chained (branchCount before) branches lowered →
      (∀ b ∈ branches, Branched b.children.reverse) → Branched before →
      Branched (.conditional branches lowered span :: before)
  | leaf {node before} :
      node.isLeaf = true → Branched before → Branched (node :: before)

/-- A node stands among siblings or somewhere below them. -/
inductive TemplateNode.Occurs (node : TemplateNode) : List TemplateNode → Prop
  | here {nodes} : node ∈ nodes → Occurs node nodes
  | element {el children nodes} :
      .element el children ∈ nodes → Occurs node children → Occurs node nodes
  | loop {head children nodes lowered span} :
      .loop head children lowered span ∈ nodes → Occurs node children → Occurs node nodes
  | branch {branches lowered span b nodes} :
      .conditional branches lowered span ∈ nodes → b ∈ branches → Occurs node b.children →
      Occurs node nodes

variable {node : TemplateNode}

namespace Branched

theorem tail (branched : Branched (node :: before)) : Branched before := by
  cases branched with
  | element _ rest | loop _ rest | conditional _ _ rest | leaf _ rest => exact rest

/-- A conditional is lowered to its chain wherever it stands. -/
theorem of_mem (branched : Branched nodes) (member : node ∈ nodes) :
    ∃ before, Branched (node :: before) := by
  induction nodes with
  | nil => cases member
  | cons first rest ih =>
    rcases mem_cons.mp member with rfl | later
    · exact ⟨rest, branched⟩
    · exact ih branched.tail later

theorem of_occurs (branched : Branched nodes.reverse) (occurs : node.Occurs nodes) :
    ∃ before, Branched (node :: before) := by
  induction occurs with
  | here member => exact branched.of_mem (mem_reverse.mpr member)
  | element member _ ih =>
    obtain ⟨before, inside⟩ := branched.of_mem (mem_reverse.mpr member)
    cases inside with
    | element below _ => exact ih below
    | leaf isLeaf => cases isLeaf
  | loop member _ ih =>
    obtain ⟨before, inside⟩ := branched.of_mem (mem_reverse.mpr member)
    cases inside with
    | loop below _ => exact ih below
    | leaf isLeaf => cases isLeaf
  | branch member inBranches _ ih =>
    obtain ⟨before, inside⟩ := branched.of_mem (mem_reverse.mpr member)
    cases inside with
    | conditional _ below _ => exact ih (below _ inBranches)
    | leaf isLeaf => cases isLeaf

end Branched

/-! ## Runs of text -/

theorem branchCount_of_isLeaf (isLeaf : node.isLeaf = true) : node.branchCount = 0 := by
  cases node with
  | text | interpolation | comment | textCall | compound => rfl
  | element | conditional | loop => cases isLeaf

theorem isLeaf_of_isText (isText : node.isText = true) : node.isLeaf = true := by
  cases node with
  | text | interpolation => rfl
  | _ => cases isText

theorem isLeaf_of_joins (joins : (node.isText || node.isCompound) = true) : node.isLeaf = true := by
  cases node with
  | text | interpolation | compound => rfl
  | _ => cases joins

theorem branchCount_addToRuns (done node) :
    branchCount (addToRuns done node) = node.branchCount + branchCount done := by
  obtain same | ⟨last, rest, rfl, isText, joins, same⟩ := Lower.addToRuns_cases done node
  · rw [same, branchCount]
  · have noBranches : last.branchCount = 0 := branchCount_of_isLeaf (isLeaf_of_joins joins)
    have none : node.branchCount = 0 := branchCount_of_isLeaf (isLeaf_of_isText isText)
    rw [same, none, branchCount, branchCount, noBranches]
    simp [TemplateNode.branchCount]

namespace Branched

theorem addLeaf (branched : Branched done) (isLeaf : node.isLeaf = true) :
    Branched (addToRuns done node) := by
  obtain same | ⟨last, rest, rfl, -, -, same⟩ := Lower.addToRuns_cases done node
  · exact same ▸ .leaf isLeaf branched
  · exact same ▸ .leaf rfl branched.tail

theorem foldr_addToRuns (branched : Branched nodes) :
    Branched (nodes.foldr (fun node done => addToRuns done node) []) ∧
      branchCount (nodes.foldr (fun node done => addToRuns done node) []) = branchCount nodes := by
  induction nodes with
  | nil => exact ⟨.nil, rfl⟩
  | cons node before ih =>
    obtain ⟨joined, same⟩ := ih branched.tail
    rw [foldr_cons, branchCount_addToRuns, same]
    refine ⟨?_, rfl⟩
    cases branched with
    | element below _ => exact .element below joined
    | loop below _ => exact .loop below joined
    | conditional chained below _ => exact .conditional (same ▸ chained) below joined
    | leaf isLeaf _ => exact joined.addLeaf isLeaf

theorem joinRuns (branched : Branched nodes.reverse) : Branched (joinRuns nodes).reverse := by
  have joined := branched.foldr_addToRuns.1
  simpa [Stencil.joinRuns] using joined

theorem congr (branched : Branched nodes)
    (same : List.Forall₂ (fun a b => a = b ∨ a.isLeaf = true ∧ b.isLeaf = true) nodes nodes') :
    Branched nodes' ∧ branchCount nodes = branchCount nodes' := by
  induction same with
  | nil => exact ⟨.nil, rfl⟩
  | cons first _ ih =>
    obtain ⟨rest, count⟩ := ih branched.tail
    rcases first with rfl | ⟨leaf, leaf'⟩
    · refine ⟨?_, by rw [branchCount, branchCount, count]⟩
      cases branched with
      | element below _ => exact .element below rest
      | loop below _ => exact .loop below rest
      | conditional chained below _ => exact .conditional (count ▸ chained) below rest
      | leaf isLeaf _ => exact .leaf isLeaf rest
    · refine ⟨.leaf leaf' rest, ?_⟩
      rw [branchCount, branchCount, count, branchCount_of_isLeaf leaf, branchCount_of_isLeaf leaf']

end Branched

namespace Lower

theorem gives_mergeText (direct) (branched : Branched nodes.reverse) :
    Gives (mergeText direct nodes) fun r => Branched r.reverse := by
  have joined := branched.joinRuns
  unfold mergeText
  dsimp only
  split
  · exact .pure joined
  · refine (gives_toTextCalls gives_toTextCall _).mono fun r same => ?_
    exact (joined.congr (rel_reverse same)).1

/-! ## Branches -/

theorem gives_branchCode (b key) :
    Gives (branchCode b key) fun code => ∃ content, b.Shows key content ∧
      code = chain [(b.condition, content)] := by
  have shows : Gives (branchContent b key) (b.Shows key) := fun o c => ⟨o, c, rfl⟩
  refine shows.bind fun content shown => ?_
  cases b.condition with
  | some condition => exact .pure ⟨content, shown, rfl⟩
  | none => exact .pure ⟨content, shown, rfl⟩

theorem gives_startConditional (branched : Branched done) (inside : Branched b.children.reverse) :
    Gives (startConditional b done) fun node => Branched (node :: done) := by
  refine (gives_branchCode b _).bind fun code => ?_
  rintro ⟨content, shown, rfl⟩
  refine .pure (.conditional ?_ (by simpa using inside) branched)
  exact ⟨cons_ne_nil _ _, by simp, [content], .cons shown .nil, rfl⟩

end Lower

theorem Branch.AllShow.concat (all : AllShow key branches contents)
    (last : b.Shows (key + branches.length) content) :
    AllShow key (branches ++ [b]) (contents ++ [content]) := by
  induction all with
  | nil => exact .cons last .nil
  | cons first _ ih =>
    refine .cons first (ih ?_)
    simpa [Nat.add_comm, Nat.add_left_comm] using last

theorem Branch.AllShow.length_eq (all : AllShow key branches contents) :
    branches.length = contents.length := by
  induction all with
  | nil => rfl
  | cons _ _ ih => simp [ih]

/-- A conditional takes one more branch if all of its branches have conditions. -/
theorem Chained.extend (chained : Chained key branches lowered)
    (all : ∀ b ∈ branches, b.condition.isSome = true)
    (last : b.Shows (key + branches.length) content) : Chained key (branches ++ [b])
      (lowered.map (·.attachAlternate (Stencil.chain [(b.condition, content)]))) := by
  obtain ⟨contents, shown, rfl⟩ := chained.chain
  refine ⟨by simp, by simpa using all, contents ++ [content], shown.concat last, ?_⟩
  rw [map_some, attachAlternate_chain, zip_append shown.length_eq]
  · simp
  · intro empty
    have sameLength := shown.length_eq
    simp only [map_eq_nil_iff, zip_eq_nil_iff] at empty
    rcases empty with none | none
    · exact chained.nonempty none
    · rw [none, length_nil, length_eq_zero_iff] at sameLength
      exact chained.nonempty sameLength
  · intro s member
    obtain ⟨⟨b', _⟩, inside, rfl⟩ := mem_map.mp member
    exact all b' (of_mem_zip inside).1

/-- The conditional that a further branch joins. -/
theorem Branched.of_openConditional? (branched : Branched done)
    (found : openConditional? done = some c) : Chained (branchCount c.before) c.branches c.lowered ∧
      (∀ b ∈ c.branches, b.condition.isSome = true) ∧
      (∀ b ∈ c.branches, Branched b.children.reverse) ∧ Branched c.before := by
  obtain ⟨ignored, -, rfl, takes⟩ := eq_of_openConditional? found
  clear found
  induction ignored with
  | nil =>
    cases branched with
    | conditional chained below rest =>
      refine ⟨chained, fun b member => ?_, below, rest⟩
      rw [← dropLast_append_getLast chained.nonempty] at member
      rcases mem_append.mp member with early | late
      · exact chained.conditions b early
      · rw [getLast?_eq_getLast_of_ne_nil chained.nonempty] at takes
        rw [mem_singleton.mp late]
        simpa using takes
    | leaf isLeaf => cases isLeaf
  | cons node ignored ih => exact ih branched.tail

namespace Lower

theorem gives_extendConditional (chained : Chained (branchCount c.before) c.branches c.lowered)
    (all : ∀ b ∈ c.branches, b.condition.isSome = true)
    (below : ∀ b ∈ c.branches, Branched b.children.reverse) (before : Branched c.before)
    (inside : Branched b.children.reverse) :
    Gives (extendConditional c b) fun node => Branched (node :: c.before) := by
  refine (gives_branchCode b _).bind fun code => ?_
  rintro ⟨content, shown, rfl⟩
  refine .pure (.conditional (chained.extend all shown) ?_ before)
  exact forall_mem_append.mpr ⟨below, by simpa using inside⟩

/-- A visit keeps its conditionals lowered to their chains. -/
theorem visitRules_branched (o) :
    VisitRules o (fun _ => True) (fun _ _ _ _ => True) fun _ => Branched where
  enterLoop _ _ := trivial
  enterSlot _ _ := trivial
  enterSlotLoop _ _ := trivial
  nil := .nil
  leaf := .leaf
  merge direct branched := gives_mergeText direct branched
  element _ _ := .element
  loop _ := .loop
  start inside branched := gives_startConditional branched inside
  extend inside branched found := by
    obtain ⟨chained, all, below, before⟩ := branched.of_openConditional? found
    exact gives_extendConditional chained all below before inside

end Lower

/-- Conditionals select the first branch that holds. In a lowered template, a conditional has a
    branch, only its last branch may have no condition, and its code is the chain of its conditions
    and of what its branches are lowered to, which ends with the branch that has no condition or
    else with the placeholder. Whatever conditions are true, it shows the first branch that holds. -/
theorem Root.lower_conditionals (o : Options) (source : String) {branches : List Branch}
    {lowered : Option RenderNode} {span : Span}
    (occurs : (TemplateNode.conditional branches lowered span).Occurs
      ((readTemplate o source).1.lower o).1.children) :
    branches ≠ [] ∧ (∀ b ∈ branches.dropLast, b.condition.isSome = true) ∧
      ∃ key contents code, Branch.AllShow key branches contents ∧ lowered = some code ∧
        code = chain ((branches.zip contents).map fun s => (s.1.condition, s.2)) ∧
        ∀ truth, code.shown truth =
          match (branches.zip contents).find? (·.1.holds truth) with
          | some s => s.2.shown truth
          | none => .placeholder := by
  have branched : Branched ((readTemplate o source).1.lower o).1.children.reverse :=
    (Lower.visitRules_branched o).lowerRoot trivial (written_readTemplate o source) trivial
  obtain ⟨before, inside⟩ := branched.of_occurs occurs
  cases inside with
  | conditional chained _ _ =>
    obtain ⟨contents, shown, code⟩ := chained.chain
    exact ⟨chained.nonempty, chained.conditions, _, contents, _, shown, code, rfl,
      fun truth => shown_chain truth _⟩
  | leaf isLeaf => cases isLeaf

def threeBranches : String :=
  "<p v-if=\"a\">x</p><b v-else-if=\"b\"><i v-if=\"c\" /></b><!-- d --><p v-else>z</p>"

/-- Which branches of a conditional have a condition. -/
def TemplateNode.conditions : TemplateNode → List Bool
  | .conditional branches _ _ => branches.map (·.condition.isSome)
  | _ => []

theorem threeBranches_lower_conditionals :
    ∃ branches lowered span, (TemplateNode.conditional branches lowered span).Occurs
        ((readTemplate {} threeBranches).1.lower {}).1.children ∧
      branches.map (·.condition.isSome) = [true, true, false] ∧
      ∃ (contents : List RenderNode) (code : RenderNode), lowered = some code ∧
        ∀ truth, code.shown truth =
          match (branches.zip contents).find? (·.1.holds truth) with
          | some s => s.2.shown truth
          | none => .placeholder := by
  have conditions : ((readTemplate {} threeBranches).1.lower {}).1.children.map
      TemplateNode.conditions = [[true, true, false]] := by
    decide +kernel
  obtain ⟨node, alone, here⟩ := map_eq_singleton_iff.mp conditions
  cases node with
  | conditional branches lowered span =>
    have occurs : (TemplateNode.conditional branches lowered span).Occurs
        ((readTemplate {} threeBranches).1.lower {}).1.children :=
      .here (alone ▸ mem_cons_self)
    obtain ⟨-, -, -, contents, code, -, isCode, -, shown⟩ :=
      Root.lower_conditionals {} threeBranches occurs
    exact ⟨branches, lowered, span, occurs, here, contents, code, isCode, shown⟩
  | element | text | interpolation | comment | loop | textCall | compound => cases here

end Stencil
