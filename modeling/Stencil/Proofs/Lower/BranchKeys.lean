import Stencil.Proofs.Lower.Branches
import Stencil.Proofs.Lower.Injection

/-! # Keys of branches

A branch takes the number of branches before it among its siblings as its key. Siblings are merged,
dropped and joined to conditionals while they are counted, and the keys still number all branches of
a sibling list in their order.
-/

namespace Stencil

open List Lower

/-- A key was added to a node that takes properties. -/
def RenderNode.CarriesKey (key : Nat) (content : RenderNode) : Prop :=
  ∃ node : RenderNode, node.takesProps = true ∧ content = node.inject (keyProperty key)

/-- Branches of a conditional with their keys, and the nodes that they are lowered to. -/
inductive Branch.AllKeyed : List Branch → List Nat → List RenderNode → Prop
  | nil : AllKeyed [] [] []
  | cons {b key content branches keys contents} : b.Shows key content → content.CarriesKey key →
      AllKeyed branches keys contents → AllKeyed (b :: branches) (key :: keys) (content :: contents)

/-- The keys of the branches of all conditionals among siblings, in the order of the template. -/
inductive BranchKeys : List TemplateNode → List Nat → Prop
  | nil : BranchKeys [] []
  | other {node nodes keys} :
      node.branchCount = 0 → BranchKeys nodes keys → BranchKeys (node :: nodes) keys
  | conditional {branches own keys contents lowered span nodes} :
      Branch.AllKeyed branches own contents →
      lowered = some (chain ((branches.zip contents).map fun s => (s.1.condition, s.2))) →
      BranchKeys nodes keys → BranchKeys (.conditional branches lowered span :: nodes) (own ++ keys)

/-- The sibling lists of a template: the outermost one, and those below its nodes. -/
inductive SiblingList (all : List TemplateNode) : List TemplateNode → Prop
  | outermost : SiblingList all all
  | element {el children nodes} :
      SiblingList all nodes → .element el children ∈ nodes → SiblingList all children
  | loop {head items nodes lowered span} : SiblingList all nodes → .loop head items lowered span ∈ nodes → SiblingList all items
  | branch {branches lowered span b nodes} : SiblingList all nodes → .conditional branches lowered span ∈ nodes →
      b ∈ branches → SiblingList all b.children

theorem BranchKeys.append {keys} (first : BranchKeys nodes keys) (second : BranchKeys nodes' keys') :
    BranchKeys (nodes ++ nodes') (keys ++ keys') := by
  induction first with
  | nil => exact second
  | other none _ ih => exact .other none ih
  | conditional keyed code _ ih =>
    rw [append_assoc]
    exact .conditional keyed code ih

theorem branchCount_append (nodes nodes') :
    branchCount (nodes ++ nodes') = branchCount nodes + branchCount nodes' := by
  induction nodes with
  | nil => exact (Nat.zero_add _).symm
  | cons node nodes ih => rw [cons_append, branchCount, branchCount, ih, Nat.add_assoc]

theorem branchCount_reverse (nodes) : branchCount nodes.reverse = branchCount nodes := by
  induction nodes with
  | nil => rfl
  | cons node nodes ih =>
    rw [reverse_cons, branchCount_append, ih, branchCount, branchCount, branchCount]
    omega

/-! ## Contents of branches -/

namespace Lower

theorem takesProps_lowerKind {el : Element} (unlowered : el.lowered = none) (children c) :
    ∀ code ∈ (exec (lowerKind el children) o c).1.lowered, code.takesProps = true := by
  unfold lowerKind
  split
  · rintro _ ⟨⟩
    rfl
  · rintro _ ⟨⟩
    rfl
  · rintro _ ⟨⟩
    rfl
  · rw [exec_pure, unlowered]
    rintro _ ⟨⟩

theorem takesProps_code (lowered : (TemplateNode.element el children).Lowered o k) :
    Gives (code (.element el children)) fun node => node.takesProps = true := by
  cases lowered with
  | @element _ el _ c unlowered _ _ =>
    have takes := takesProps_lowerKind (o := o) unlowered children c
    rw [code]
    split
    next node same => exact .pure (takes node same)
    · exact fun _ _ => rfl
  | leaf isLeaf => cases isLeaf

end Lower

theorem Branch.Shows.carriesKey {b : Branch} (shows : b.Shows key content)
    (lowered : ∀ child ∈ b.children, child.Lowered o k) : content.CarriesKey key := by
  obtain ⟨o', c, rfl⟩ := shows
  unfold branchContent
  split
  next el children same =>
    have takes := takesProps_code (lowered _ (same ▸ mem_cons_self)) o' c
    rw [exec_bind]
    split
    next v _ => exact ⟨.vnode { v with isBlock := true }, rfl, rfl⟩
    · exact ⟨_, takes, rfl⟩
  next head items code span same =>
    cases lowered _ (same ▸ mem_cons_self) with
    | loop v _ => exact ⟨.vnode v, rfl, rfl⟩
    | leaf isLeaf => cases isLeaf
  · exact ⟨.vnode { fragment _ _ with isBlock := true, span := b.span }, rfl, rfl⟩

theorem Branch.AllShow.keyed (all : AllShow key branches contents)
    (lowered : ∀ b ∈ branches, ∀ child ∈ b.children, child.Lowered o k) :
    AllKeyed branches (List.range' key branches.length) contents := by
  induction all with
  | nil => exact .nil
  | cons first _ ih =>
    obtain ⟨here, later⟩ := forall_mem_cons.mp lowered
    exact .cons first (first.carriesKey here) (ih later)

/-! ## Sibling lists -/

/-- Siblings, the newest first, take the numbers of their branches as keys. -/
theorem Branched.branchKeys (branched : Branched done) (lowered : ∀ node ∈ done, node.Lowered o k) :
    BranchKeys done.reverse (List.range (branchCount done)) := by
  have single {node : TemplateNode} {before : List TemplateNode} (none : node.branchCount = 0)
      (keys : BranchKeys before.reverse (List.range (branchCount before))) :
      BranchKeys (node :: before).reverse (List.range (branchCount (node :: before))) := by
    rw [reverse_cons, branchCount, none, Nat.zero_add, ← append_nil (List.range _)]
    exact keys.append (.other none .nil)
  induction branched with
  | nil => exact .nil
  | element _ _ _ ih | loop _ _ _ ih => exact single rfl (ih (forall_mem_cons.mp lowered).2)
  | leaf isLeaf _ ih =>
    exact single (branchCount_of_isLeaf isLeaf) (ih (forall_mem_cons.mp lowered).2)
  | @conditional branches code span before chained _ _ _ ih =>
    obtain ⟨here, rest⟩ := forall_mem_cons.mp lowered
    obtain ⟨contents, shown, isCode⟩ := chained.chain
    cases here with
    | conditional below =>
      have own : BranchKeys [.conditional branches code span] _ :=
        .conditional (shown.keyed below) isCode .nil
      have numbers : List.range (branchCount (.conditional branches code span :: before)) =
          List.range (branchCount before) ++ (List.range' (branchCount before) branches.length ++ []) := by
        rw [branchCount, TemplateNode.branchCount, Nat.add_comm, append_nil,
          range_eq_range', range_eq_range', List.range'_append_1.symm, Nat.zero_add]
      rw [reverse_cons, numbers]
      exact (ih rest).append own
    | leaf isLeaf => cases isLeaf

theorem SiblingList.kept {all} (siblings : SiblingList all nodes) (branched : Branched all.reverse)
    (lowered : ∀ node ∈ all, node.Lowered o k) :
    Branched nodes.reverse ∧ ∃ k', ∀ node ∈ nodes, node.Lowered o k' := by
  induction siblings with
  | outermost => exact ⟨branched, k, lowered⟩
  | element _ member ih =>
    obtain ⟨branched, k', lowered⟩ := ih
    obtain ⟨before, here⟩ := branched.of_mem (mem_reverse.mpr member)
    cases here with
    | element below _ =>
      cases lowered _ member with
      | element _ _ inside => exact ⟨below, _, inside⟩
      | leaf isLeaf => cases isLeaf
    | leaf isLeaf => cases isLeaf
  | loop _ member ih =>
    obtain ⟨branched, k', lowered⟩ := ih
    obtain ⟨before, here⟩ := branched.of_mem (mem_reverse.mpr member)
    cases here with
    | loop below _ =>
      cases lowered _ member with
      | loop _ inside => exact ⟨below, _, inside⟩
      | leaf isLeaf => cases isLeaf
    | leaf isLeaf => cases isLeaf
  | branch _ member inBranches ih =>
    obtain ⟨branched, k', lowered⟩ := ih
    obtain ⟨before, here⟩ := branched.of_mem (mem_reverse.mpr member)
    cases here with
    | conditional _ below _ =>
      cases lowered _ member with
      | conditional inside => exact ⟨below _ inBranches, _, inside _ inBranches⟩
      | leaf isLeaf => cases isLeaf
    | leaf isLeaf => cases isLeaf

/-- Keys of branches are unique. The branches of all conditionals in a sibling list of a lowered
    template have the keys 0, 1, 2 and so on, in the order of the template, so no two have the
    same. -/
theorem Root.lower_branchKeys (o : Options) (source : String)
    (siblings : SiblingList ((readTemplate o source).1.lower o).1.children nodes) :
    ∃ keys, BranchKeys nodes keys ∧ keys = List.range (branchCount nodes) ∧ keys.Nodup := by
  have branched : Branched ((readTemplate o source).1.lower o).1.children.reverse :=
    (Lower.visitRules_branched o).lowerRoot trivial (written_readTemplate o source) trivial
  obtain ⟨inside, k, lowered⟩ := siblings.kept branched (lowered_readTemplate o source)
  have keys := inside.branchKeys fun node member => lowered node (mem_reverse.mp member)
  rw [reverse_reverse, branchCount_reverse] at keys
  exact ⟨_, keys, rfl, nodup_range⟩

/-- Two conditionals with a comment in the first and an else that is left over between them. -/
def twoConditionals : String :=
  "<p v-if=\"a\" /><!-- b --><b v-else /><i v-else /><u v-if=\"c\" key=\"d\" />"

theorem twoConditionals_lower_branchKeys :
    ∃ nodes, SiblingList ((readTemplate {} twoConditionals).1.lower {}).1.children nodes ∧
      BranchKeys nodes [0, 1, 2] := by
  have count : branchCount ((readTemplate {} twoConditionals).1.lower {}).1.children = 3 := by
    decide +kernel
  obtain ⟨_, keys, rfl, -⟩ := Root.lower_branchKeys {} twoConditionals .outermost
  rw [count] at keys
  exact ⟨_, .outermost, keys⟩

end Stencil
