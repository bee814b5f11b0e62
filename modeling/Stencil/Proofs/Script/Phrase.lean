import Stencil.Proofs.Script.Woven
import Stencil.Script.Scope

/-! # Phrases and the names they use

The places where a phrase uses names do not depend on what is bound around it. In a script that was
written into, a phrase has accesses to `_ctx` for the marked names; it binds the same names, and uses
`_ctx` and, of the old names, those that are not marked.
-/

namespace Stencil.Script

open List PatternProp Declarator ObjectProp Stmt

/-- A place where a name is used. -/
structure Spot where
  ident : Ident
  shorthand : Bool

def Ref.spot (r : Ref) : Spot :=
  ⟨r.ident, r.shorthand⟩

def Spot.mark (x : Spot) : Mark :=
  if x.shorthand then .property x.ident.name else .context

def Uses.spots (u : Uses) : List Spot :=
  u.refs.map Ref.spot

namespace Uses

@[simp] theorem refs_and (a b : Uses) : (a.and b).refs = a.refs ++ b.refs := rfl

@[simp] theorem spots_and (a b : Uses) : (a.and b).spots = a.spots ++ b.spots := by
  simp [spots]

end Uses

/-- The access that is written for a name. -/
def contextAt (start : Nat) : Expr :=
  .member (.ident ⟨"_ctx", start, start + 4⟩)

/-- A name that is used, in a script that was written into. -/
def Ident.access (w : Weaving) (id : Ident) : Expr :=
  if (w.marks id.start).isSome then contextAt (w.place id.start) else .ident (id.woven w)

/-- A shorthand property in a script that was written into. -/
def Ident.property (w : Weaving) (id : Ident) : ObjectProp :=
  if (w.marks id.start).isSome then
    .keyValue .named (contextAt (w.place id.start + Text.bytes id.name.toList + 2))
  else .shorthand (id.woven w)

mutual
/-- A phrase as it is read from a script that was written into. -/
def Expr.woven (w : Weaving) : Expr → Expr
  | .ident id => id.access w
  | .literal => .literal
  | .this => .this
  | .template (some tag) parts => .template (some (tag.woven w)) (Expr.wovenAll w parts)
  | .template none parts => .template none (Expr.wovenAll w parts)
  | .array items => .array (Expr.wovenAll w items)
  | .object properties => .object (ObjectProp.wovenAll w properties)
  | .function f => .function (f.woven w)
  | .unary operand => .unary (operand.woven w)
  | .binary left right => .binary (left.woven w) (right.woven w)
  | .assign target value => .assign (target.woven w) (value.woven w)
  | .conditional test consequent alternate =>
    .conditional (test.woven w) (consequent.woven w) (alternate.woven w)
  | .sequence items => .sequence (Expr.wovenAll w items)
  | .member object => .member (object.woven w)
  | .index object property => .index (object.woven w) (property.woven w)
  | .call callee args => .call (callee.woven w) (Expr.wovenAll w args)
  | .new callee args => .new (callee.woven w) (Expr.wovenAll w args)
  | .spread e => .spread (e.woven w)
  | .paren e => .paren (e.woven w)
def Expr.wovenAll (w : Weaving) : List Expr → List Expr
  | [] => []
  | e :: es => e.woven w :: Expr.wovenAll w es
def ObjectProp.woven (w : Weaving) : ObjectProp → ObjectProp
  | .keyValue key value => .keyValue (key.woven w) (value.woven w)
  | .shorthand id => id.property w
  | .method key f => .method (key.woven w) (f.woven w)
  | .spread e => .spread (e.woven w)
def ObjectProp.wovenAll (w : Weaving) : List ObjectProp → List ObjectProp
  | [] => []
  | p :: ps => p.woven w :: ObjectProp.wovenAll w ps
def PropKey.woven (w : Weaving) : PropKey → PropKey
  | .named => .named
  | .computed e => .computed (e.woven w)
def Pattern.woven (w : Weaving) : Pattern → Pattern
  | .ident id => .ident (id.woven w)
  | .object properties => .object (PatternProp.wovenAll w properties)
  | .array items => .array (Pattern.wovenAll w items)
  | .hole => .hole
  | .default target value => .default (target.woven w) (value.woven w)
  | .rest target => .rest (target.woven w)
def Pattern.wovenAll (w : Weaving) : List Pattern → List Pattern
  | [] => []
  | p :: ps => p.woven w :: Pattern.wovenAll w ps
def PatternProp.woven (w : Weaving) : PatternProp → PatternProp
  | .keyValue key value => .keyValue (key.woven w) (value.woven w)
  | .shorthand id (some e) => .shorthand (id.woven w) (some (e.woven w))
  | .shorthand id none => .shorthand (id.woven w) none
  | .rest target => .rest (target.woven w)
def PatternProp.wovenAll (w : Weaving) : List PatternProp → List PatternProp
  | [] => []
  | p :: ps => p.woven w :: PatternProp.wovenAll w ps
def Func.woven (w : Weaving) : Func → Func
  | ⟨name, params, body⟩ => ⟨name, Pattern.wovenAll w params, body.woven w⟩
def FuncBody.woven (w : Weaving) : FuncBody → FuncBody
  | .expr e => .expr (e.woven w)
  | .block stmts => .block (Stmt.wovenAll w stmts)
def Stmt.woven (w : Weaving) : Stmt → Stmt
  | .expr e => .expr (e.woven w)
  | .ret (some e) => .ret (some (e.woven w))
  | .ret none => .ret none
  | .declare declarators => .declare (Declarator.wovenAll w declarators)
  | .branch test consequent (some s) =>
    .branch (test.woven w) (consequent.woven w) (some (s.woven w))
  | .branch test consequent none => .branch (test.woven w) (consequent.woven w) none
  | .block stmts => .block (Stmt.wovenAll w stmts)
  | .empty => .empty
def Stmt.wovenAll (w : Weaving) : List Stmt → List Stmt
  | [] => []
  | s :: ss => s.woven w :: Stmt.wovenAll w ss
def Declarator.woven (w : Weaving) : Declarator → Declarator
  | ⟨target, some e⟩ => ⟨target.woven w, some (e.woven w)⟩
  | ⟨target, none⟩ => ⟨target.woven w, none⟩
def Declarator.wovenAll (w : Weaving) : List Declarator → List Declarator
  | [] => []
  | x :: xs => x.woven w :: Declarator.wovenAll w xs
end

/-- The names used in a script that was written into: `_ctx`, and old names that are not marked. -/
def RefsLike (m : Marks) (refs refs' : List Ref) : Prop :=
  ∀ r' ∈ refs', r'.ident.name = "_ctx" ∨
    ∃ r ∈ refs, m r.ident.start = none ∧ r.ident.name = r'.ident.name ∧ r.bound = r'.bound

namespace RefsLike

theorem nil (refs) : RefsLike m refs [] :=
  fun _ member => absurd member (by simp)

theorem append (h : RefsLike m a a') (h' : RefsLike m b b') : RefsLike m (a ++ b) (a' ++ b') := by
  intro r' member
  rcases mem_append.mp member with first | second
  · rcases h r' first with ctx | ⟨r, inside, same⟩
    · exact .inl ctx
    · exact .inr ⟨r, mem_append_left _ inside, same⟩
  · rcases h' r' second with ctx | ⟨r, inside, same⟩
    · exact .inl ctx
    · exact .inr ⟨r, mem_append_right _ inside, same⟩

theorem ref {w : Weaving} {bound} {id : Ident} {shorthand}
    (unmarked : ¬(w.marks id.start).isSome = true) : RefsLike w.marks
      (Uses.ref bound id shorthand).refs (Uses.ref bound (id.woven w) shorthand).refs := by
  intro r' member
  obtain rfl := mem_singleton.mp member
  exact .inr ⟨_, mem_singleton_self _, by simpa using unmarked, rfl, rfl⟩

theorem context {bound start} : RefsLike m a ((contextAt start).uses bound).refs := by
  intro r' member
  obtain rfl := mem_singleton.mp member
  exact .inl rfl

end RefsLike

variable (w : Weaving)

theorem names_woven : (∀ p : Pattern, (p.woven w).names = p.names) ∧
    (∀ ps, Pattern.namesAll (Pattern.wovenAll w ps) = Pattern.namesAll ps) ∧
    (∀ ps, PatternProp.namesAll (wovenAll w ps) = PatternProp.namesAll ps) ∧
    ∀ p : PatternProp, (p.woven w).names = p.names := by
  apply Pattern.names.mutual_induct
  case case8 =>
    intro id value
    cases value <;> rfl
  all_goals
    intros
    simp_all [Pattern.names, Pattern.woven, Ident.woven, Pattern.namesAll, Pattern.wovenAll,
      PatternProp.names, PatternProp.woven, PatternProp.namesAll, PatternProp.wovenAll]

theorem Declarator.names_wovenAll : ∀ ds : List Declarator,
    (wovenAll w ds).flatMap (·.target.names) = ds.flatMap (·.target.names)
  | [] => rfl
  | ⟨target, some _⟩ :: ds =>
    congrArg₂ (· ++ ·) ((names_woven w).1 target) (Declarator.names_wovenAll ds)
  | ⟨target, none⟩ :: ds =>
    congrArg₂ (· ++ ·) ((names_woven w).1 target) (Declarator.names_wovenAll ds)

theorem Stmt.declared_woven (s : Stmt) : (s.woven w).declared = s.declared := by
  cases s with
  | declare declarators => exact Declarator.names_wovenAll w declarators
  | ret value => cases value <;> rfl
  | branch _ _ alternate => cases alternate <;> rfl
  | expr | block | empty => rfl

theorem Stmt.declared_wovenAll : ∀ ss : List Stmt,
    (wovenAll w ss).flatMap declared = ss.flatMap declared
  | [] => rfl
  | s :: ss => congrArg₂ (· ++ ·) (s.declared_woven w) (Stmt.declared_wovenAll ss)

theorem Ident.access_uses (bound id) :
    RefsLike w.marks (Uses.ref bound id false).refs ((id.access w).uses bound).refs := by
  unfold access
  split
  · exact .context
  next unmarked => exact .ref unmarked

theorem Ident.property_uses (bound id) :
    RefsLike w.marks (Uses.ref bound id true).refs ((id.property w).uses bound).refs := by
  unfold property
  split
  · exact .context
  next unmarked => exact .ref unmarked

/-- A relation between what a phrase uses and what it uses in a script that was written into, where
    the names bound around the two are related by `B`. -/
structure Tracks (w : Weaving) (B : List String → List String → Prop) (R : Uses → Uses → Prop) :
    Prop where
  below {a b : List String} (names : List String) : B a b → B (names ++ a) (names ++ b)
  none : R .none .none
  and {a a' b b' : Uses} : R a a' → R b b' → R (a.and b) (a'.and b')
  computing {a a' : Uses} : R a a' → R a.computing a'.computing
  access {a b : List String} (id : Ident) : B a b → R (.ref a id false) ((id.access w).uses b)
  property {a b : List String} (id : Ident) : B a b → R (.ref a id true) ((id.property w).uses b)

/-- Phrases are related to what they are in a script that was written into. -/
def Tracked (w : Weaving) (B : List String → List String → Prop) (R : Uses → Uses → Prop) {α : Type}
    (uses : List String → α → Uses) (woven : Weaving → α → α) : Prop :=
  ∀ p a b, B a b → R (uses a p) (uses b (woven w p))

theorem Tracks.tracked {w} (h : Tracks w B R) :
    Tracked w B R Expr.uses Expr.woven ∧ Tracked w B R Func.uses Func.woven ∧
    Tracked w B R FuncBody.uses FuncBody.woven ∧ Tracked w B R Stmt.usesAll Stmt.wovenAll ∧
    Tracked w B R Stmt.uses Stmt.woven ∧ Tracked w B R Declarator.usesAll Declarator.wovenAll ∧
    Tracked w B R Declarator.uses Declarator.woven ∧ Tracked w B R Pattern.uses Pattern.woven ∧
    Tracked w B R Pattern.usesAll Pattern.wovenAll ∧
    Tracked w B R PatternProp.usesAll PatternProp.wovenAll ∧
    Tracked w B R PatternProp.uses PatternProp.woven ∧ Tracked w B R PropKey.uses PropKey.woven ∧
    Tracked w B R ObjectProp.usesAll ObjectProp.wovenAll ∧
    Tracked w B R ObjectProp.uses ObjectProp.woven ∧ Tracked w B R Expr.usesAll Expr.wovenAll := by
  unfold Tracked
  apply Expr.woven.mutual_induct
  -- functions and blocks bind the same names in both scripts
  case case36 =>
    intro name params body inParams inBody a b around
    simp only [Func.woven, Func.uses, names_woven]
    exact h.and (inParams _ _ (h.below _ around)) (inBody _ _ (h.below _ around))
  case case38 | case45 =>
    intro stmts inside a b around
    simp only [FuncBody.woven, FuncBody.uses, Stmt.woven, Stmt.uses, declared_wovenAll]
    exact inside _ _ (h.below _ around)
  all_goals
    intros
    repeat' first | apply h.and | apply h.computing
    all_goals solve_by_elim [h.none, h.access, h.property]

/-- A phrase of a script that was written into uses the same names but for the marked ones. -/
theorem tracks_refs : Tracks w Eq fun u u' => RefsLike w.marks u.refs u'.refs where
  below _ same := same ▸ rfl
  none := .nil _
  and := .append
  computing same := same
  access id same := same ▸ id.access_uses w _
  property id same := same ▸ id.property_uses w _

/-- The places where a phrase uses names do not depend on what is bound around it. -/
theorem tracks_spots : Tracks (.shift 0) (fun _ _ => True) fun u u' => u.spots = u'.spots where
  below _ _ := trivial
  none := rfl
  and first second := by rw [Uses.spots_and, Uses.spots_and, first, second]
  computing same := same
  access _ _ := rfl
  property _ _ := rfl

theorem Tracked.spots_eq (h : Tracked (.shift 0) (fun _ _ => True) (fun u u' => u.spots = u'.spots)
    f g) (a b p) : (f a p).spots = (f b p).spots :=
  (h p a a trivial).trans (h p b a trivial).symm

theorem FuncBody.spots_uses (a b) (f : FuncBody) : (f.uses a).spots = (f.uses b).spots :=
  tracks_spots.tracked.2.2.1.spots_eq a b f

theorem Pattern.spots_usesAll : ∀ a b ps, (usesAll a ps).spots = (usesAll b ps).spots :=
  tracks_spots.tracked.2.2.2.2.2.2.2.2.1.spots_eq

theorem Stmt.spots_usesAll : ∀ a b ss, (usesAll a ss).spots = (usesAll b ss).spots :=
  tracks_spots.tracked.2.2.2.1.spots_eq

/-- What a reader returns: the places where it uses names, and how the same thing looks when read
    from a script that was written into. -/
class Result (α : Type) where
  spots : α → List Spot
  woven : Weaving → α → α

export Result (woven)

instance : Result Unit := ⟨fun _ => [], fun _ => id⟩
instance : Result Bool := ⟨fun _ => [], fun _ => id⟩
/-- A name that is bound here. -/
instance : Result Ident := ⟨fun _ => [], Ident.woven⟩
instance : Result Expr := ⟨fun e => (e.uses []).spots, Expr.woven⟩
instance : Result (List Expr) := ⟨fun es => (Expr.usesAll [] es).spots, Expr.wovenAll⟩
instance : Result ObjectProp := ⟨fun p => (p.uses []).spots, ObjectProp.woven⟩
instance : Result (List ObjectProp) :=
  ⟨fun ps => (usesAll [] ps).spots, wovenAll⟩
instance : Result PropKey := ⟨fun k => (k.uses []).spots, PropKey.woven⟩
instance : Result Pattern := ⟨fun p => (p.uses []).spots, Pattern.woven⟩
instance : Result (List Pattern) := ⟨fun ps => (Pattern.usesAll [] ps).spots, Pattern.wovenAll⟩
instance : Result PatternProp := ⟨fun p => (p.uses []).spots, PatternProp.woven⟩
instance : Result (List PatternProp) :=
  ⟨fun ps => (usesAll [] ps).spots, wovenAll⟩
instance : Result Func := ⟨fun f => (f.uses []).spots, Func.woven⟩
instance : Result FuncBody := ⟨fun f => (f.uses []).spots, FuncBody.woven⟩
instance : Result Declarator := ⟨fun d => (d.uses []).spots, Declarator.woven⟩
instance : Result (List Declarator) :=
  ⟨fun ds => (usesAll [] ds).spots, wovenAll⟩
instance : Result Stmt := ⟨fun s => (s.uses []).spots, Stmt.woven⟩
instance : Result (List Stmt) := ⟨fun ss => (usesAll [] ss).spots, wovenAll⟩
instance {α : Type} [Result α] : Result (Option α) :=
  ⟨fun x => x.elim [] Result.spots, fun w => Option.map (woven w)⟩

end Stencil.Script
