import Stencil.Proofs.Lower.Compiled

/-! # Variables of components and directives

A compiled template looks up each of its components and directives once and keeps it in a variable.
Code refers to variables that are declared, and to the one that was declared for the name in the
template. Components and directives have the same variable if they are of one kind and their names
are spelled alike there, which names that differ in hyphens and underscores are.
-/

namespace Stencil

open List

/-! ## Variables -/

inductive AssetKind
  | component
  | directive
deriving DecidableEq, Repr

namespace AssetKind

def word : AssetKind → String
  | .component => "component"
  | .directive => "directive"

def resolver : AssetKind → Helper
  | .component => .resolveComponent
  | .directive => .resolveDirective

end AssetKind

structure Asset where
  kind : AssetKind
  name : String
deriving DecidableEq, Repr

namespace Asset

def var (a : Asset) : String :=
  assetVariable a.name a.kind.word

def layout (depth : Nat) (a : Asset) : List Piece :=
  layoutAsset depth a.kind.word a.kind.resolver a.name

end Asset

/-- The components and directives that a template looks up, in order. -/
def Root.assets (root : Root) : List Asset :=
  root.components.map (Asset.mk .component) ++ root.directives.map (Asset.mk .directive)

theorem Root.layoutAssets_eq (root : Root) (depth) :
    root.layoutAssets depth = if root.assets = [] then []
      else root.assets.flatMap (Asset.layout depth) ++ [.newline depth] := by
  have layout : root.components.flatMap (layoutAsset depth "component" .resolveComponent) ++
      root.directives.flatMap (layoutAsset depth "directive" .resolveDirective) =
      root.assets.flatMap (Asset.layout depth) := by
    rw [assets, flatMap_append, flatMap_map, flatMap_map]
    rfl
  have empty : root.assets.flatMap (Asset.layout depth) = [] ↔ root.assets = [] := by
    refine ⟨fun none => eq_nil_iff_forall_not_mem.mpr fun a member => ?_, fun none => ?_⟩
    · exact absurd (flatMap_eq_nil_iff.mp none a member) (cons_ne_nil _ _)
    · rw [none, flatMap_nil]
  unfold layoutAssets
  simp only [layout, List.isEmpty_iff, empty]

/-- The characters of names that stand in variables: as they are, or as `_` for the hyphen. -/
def isAssetChar (c : Char) : Bool :=
  Text.isAsciiAlphanumeric c || c == '_' || c == '-'

def underscored (name : String) : List Char :=
  name.toList.map fun c => if c == '-' then '_' else c

/-- How a name is spelled in a variable. -/
def spelling (name : String) : List Char :=
  name.toList.flatMap assetChar

/-- Other characters apart, only hyphens are spelled in another way. -/
theorem spelling_eq_underscored {name : String} (plain : ∀ c ∈ name.toList, isAssetChar c = true) :
    spelling name = underscored name := by
  unfold spelling underscored
  generalize name.toList = cs at plain
  induction cs with
  | nil => rfl
  | cons c cs ih =>
    obtain ⟨here, later⟩ := forall_mem_cons.mp plain
    have one : assetChar c = [if c == '-' then '_' else c] := by
      unfold assetChar
      split
      next word =>
        have notHyphen : c ≠ '-' := by
          rintro rfl
          exact absurd word (by decide)
        simp [notHyphen]
      next notWord =>
        have isHyphen : c = '-' := by simpa [isAssetChar, notWord] using here
        simp [isHyphen]
    rw [flatMap_cons, map_cons, one, ih later, singleton_append]

theorem Asset.toList_var (a : Asset) :
    a.var.toList = '_' :: (a.kind.word.toList ++ '_' :: spelling a.name) := by
  simp [var, assetVariable, spelling]

theorem Asset.var_eq_iff {a b : Asset} :
    a.var = b.var ↔ a.kind = b.kind ∧ spelling a.name = spelling b.name := by
  rw [← String.toList_inj, a.toList_var, b.toList_var]
  constructor
  · intro same
    have inner := tail_eq_of_cons_eq same
    -- The words of the two kinds begin with different letters.
    have sameKind : a.kind = b.kind := by
      cases kindA : a.kind <;> cases kindB : b.kind
      · rfl
      · rw [kindA, kindB] at inner
        exact absurd (head_eq_of_cons_eq inner) (by decide)
      · rw [kindA, kindB] at inner
        exact absurd (head_eq_of_cons_eq inner) (by decide)
      · rfl
    rw [sameKind] at inner
    exact ⟨sameKind, tail_eq_of_cons_eq (append_cancel_left inner)⟩
  · rintro ⟨sameKind, sameSpelling⟩
    rw [sameKind, sameSpelling]

structure Asset.Shares (a b : Asset) : Prop where
  spelled : a.var = b.var ↔ a.kind = b.kind ∧ spelling a.name = spelling b.name
  hyphens : (∀ c ∈ a.name.toList ++ b.name.toList, isAssetChar c = true) →
    (spelling a.name = spelling b.name ↔ underscored a.name = underscored b.name)

theorem Asset.shares (a b : Asset) : a.Shares b where
  spelled := var_eq_iff
  hyphens plain := by
    obtain ⟨plainA, plainB⟩ := forall_mem_append.mp plain
    rw [spelling_eq_underscored plainA, spelling_eq_underscored plainB]

/-! ## Assets of compiled trees -/

theorem nodup_assets_compiledTree (o source) : (compiledTree o source).assets.Nodup := by
  obtain ⟨sameComponents, sameDirectives⟩ := components_compiledTree o source
  obtain ⟨c, components, directives, held⟩ :=
    Root.held_lower (written_readTemplate o.forCompile source) o.forCompile
  rw [Root.assets, sameComponents, sameDirectives, ← components, ← directives]
  refine nodup_append.mpr ⟨?_, ?_, ?_⟩
  · exact held.components.map fun _ _ same => congrArg Asset.name same
  · exact held.directives.map fun _ _ same => congrArg Asset.name same
  · intro a isComponent b isDirective same
    obtain ⟨_, -, rfl⟩ := mem_map.mp isComponent
    obtain ⟨_, -, rfl⟩ := mem_map.mp isDirective
    cases same

structure Root.Declares (compiled : Root) (kind : AssetKind) (name x : String) : Prop where
  declared : ⟨kind, name⟩ ∈ compiled.assets
  variable_eq : x = (Asset.mk kind name).var

/-- Every component and directive is looked up once. Two of them have the same variable exactly if
    they are of one kind and their names are spelled alike. A variable in the tag or the directives
    of a node creation is declared for the name that the node's element has in the template. -/
theorem compiledTree_assets (o : Options) (source : String) :
    let template := (readTemplate o.forCompile source).1
    let compiled := compiledTree o source
    (∀ depth, compiled.layoutAssets depth = if compiled.assets = [] then []
      else compiled.assets.flatMap (Asset.layout depth) ++ [.newline depth]) ∧
    compiled.assets.Nodup ∧
    compiled.assets.Pairwise Asset.Shares ∧
    (∀ l ∈ compiled.labels, ∀ x, l.tag = .component x → ∃ el ∈ template.elements,
      el.span = l.span ∧ el.kind = .component ∧ compiled.Declares .component el.tag x) ∧
    ∀ l ∈ compiled.labels, ∀ nodes ∈ l.directives, ∀ node ∈ nodes,
      (∃ h rest, node = .array (.helper h :: rest)) ∨
      ∃ x rest, node = .array (.script x :: rest) ∧ ∃ el ∈ template.elements,
        el.span = l.span ∧ ∃ name, el.Lends name ∧ compiled.Declares .directive name x := by
  intro template compiled
  have labeled := labeled_compiledTree o source
  refine ⟨compiled.layoutAssets_eq, nodup_assets_compiledTree o source, ?_, ?_, ?_⟩
  · exact pairwise_of_forall Asset.shares
  · intro l member x isComponent
    rcases labeled l member with ⟨isFragment, -⟩ | ⟨el, inside, labels, -⟩
    · rw [isComponent] at isFragment
      cases isFragment
    · have tagged := labels.tag
      rw [isComponent] at tagged
      cases tagged with
      | component kind known =>
        refine ⟨el, inside, labels.span.symm, kind, mem_append_left _ ?_, rfl⟩
        exact mem_map_of_mem known
  · intro l member nodes some node isDirective
    rcases labeled l member with ⟨-, none⟩ | ⟨el, inside, labels, -⟩
    · rw [none] at some
      cases some
    · cases labels.directives nodes some node isDirective with
      | helper => exact .inl ⟨_, _, rfl⟩
      | @resolved name rest lends known =>
        refine .inr ⟨_, rest, rfl, el, inside, labels.span.symm, name, lends, ?_, rfl⟩
        exact mem_append_right _ (mem_map_of_mem known)

/-- Two components whose names differ in a hyphen and an underscore. -/
def hyphenAndUnderscore : String :=
  "<My-button/><My_button/>"

/-- Both components are held in the same variable. -/
theorem hyphenAndUnderscore_not_nodup :
    (compiledTree {} hyphenAndUnderscore).assets = [⟨.component, "My-button"⟩,
      ⟨.component, "My_button"⟩] ∧
      ¬ ((compiledTree {} hyphenAndUnderscore).assets.map Asset.var).Nodup := by
  decide +kernel

end Stencil
