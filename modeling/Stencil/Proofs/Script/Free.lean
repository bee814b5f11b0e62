import Stencil.Proofs.Script.Stable

/-! # Free names

What a phrase leaves free is defined on its parts: a function takes away the names of its parameters
and its own name, a block takes away what is declared in it, and a parameter list takes away what it
binds. Qualifying a script takes exactly the free names from the render context that are neither in
scope nor allowed globals; nothing else is written into it.
-/

namespace Stencil.Script

open List Pattern Stmt Except Ref

/-! ## Free places of names -/

/-- The places of names other than the given ones. -/
def without (names : List String) (spots : List Spot) : List Spot :=
  spots.filter fun x => !names.contains x.ident.name

mutual
def Pattern.binders : Pattern → List Ident
  | .ident id => [id]
  | .object properties => PatternProp.bindersAll properties
  | .array items => Pattern.bindersAll items
  | .hole => []
  | .default target _ | .rest target => target.binders
def Pattern.bindersAll : List Pattern → List Ident
  | [] => []
  | p :: ps => p.binders ++ Pattern.bindersAll ps
def PatternProp.binders : PatternProp → List Ident
  | .shorthand id _ => [id]
  | .keyValue _ target | .rest target => target.binders
def PatternProp.bindersAll : List PatternProp → List Ident
  | [] => []
  | p :: ps => p.binders ++ PatternProp.bindersAll ps
end

def boundBy (params : List Pattern) : List String :=
  (bindersAll params).map (·.name)

/-- What is declared in a list of statements, but not inside one of them. -/
def declaredIn (stmts : List Stmt) : List String :=
  stmts.flatMap fun
    | .declare declarators => boundBy (declarators.map (·.target))
    | _ => []

mutual
/-- The places where an expression uses names that it does not bind. -/
def Expr.free : Expr → List Spot
  | .ident id => [⟨id, false⟩]
  | .literal | .this => []
  | .template (some tag) parts => tag.free ++ Expr.freeAll parts
  | .template none items | .array items | .sequence items => Expr.freeAll items
  | .object properties => ObjectProp.freeAll properties
  | .function f => f.free
  | .unary e | .member e | .spread e | .paren e => e.free
  | .binary a b | .assign a b | .index a b => a.free ++ b.free
  | .conditional test consequent alternate => test.free ++ consequent.free ++ alternate.free
  | .call callee args | .new callee args => callee.free ++ Expr.freeAll args
def Expr.freeAll : List Expr → List Spot
  | [] => []
  | e :: es => e.free ++ Expr.freeAll es
/-- A shorthand property uses its name. -/
def ObjectProp.free : ObjectProp → List Spot
  | .keyValue key value => key.free ++ value.free
  | .shorthand id => [⟨id, true⟩]
  | .method key f => key.free ++ f.free
  | .spread e => e.free
def ObjectProp.freeAll : List ObjectProp → List Spot
  | [] => []
  | p :: ps => p.free ++ ObjectProp.freeAll ps
def PropKey.free : PropKey → List Spot
  | .named => []
  | .computed e => e.free
/-- What default values and computed keys use. -/
def Pattern.free : Pattern → List Spot
  | .ident _ | .hole => []
  | .object properties => PatternProp.freeAll properties
  | .array items => Pattern.freeAll items
  | .default target value => target.free ++ value.free
  | .rest target => target.free
def Pattern.freeAll : List Pattern → List Spot
  | [] => []
  | p :: ps => p.free ++ Pattern.freeAll ps
def PatternProp.free : PatternProp → List Spot
  | .keyValue key value => key.free ++ value.free
  | .shorthand _ (some e) => e.free
  | .shorthand _ none => []
  | .rest target => target.free
def PatternProp.freeAll : List PatternProp → List Spot
  | [] => []
  | p :: ps => p.free ++ PatternProp.freeAll ps
def Func.free : Func → List Spot
  | ⟨name, params, body⟩ =>
    without (boundBy params ++ name.toList) (Pattern.freeAll params ++ body.free)
def FuncBody.free : FuncBody → List Spot
  | .expr e => e.free
  | .block stmts => without (declaredIn stmts) (Stmt.freeAll stmts)
def Stmt.free : Stmt → List Spot
  | .expr e | .ret (some e) => e.free
  | .ret none | .empty => []
  | .declare declarators => Declarator.freeAll declarators
  | .branch test consequent (some s) => test.free ++ consequent.free ++ s.free
  | .branch test consequent none => test.free ++ consequent.free
  | .block stmts => without (declaredIn stmts) (Stmt.freeAll stmts)
def Stmt.freeAll : List Stmt → List Spot
  | [] => []
  | s :: ss => s.free ++ Stmt.freeAll ss
def Declarator.free : Declarator → List Spot
  | ⟨target, some e⟩ => target.free ++ e.free
  | ⟨target, none⟩ => target.free
def Declarator.freeAll : List Declarator → List Spot
  | [] => []
  | d :: ds => d.free ++ Declarator.freeAll ds
end

/-- The places where a script uses names that it does not bind. -/
def freeSpots (mode : Mode) (script : String) : Except SyntaxError (List Spot) :=
  match mode with
  | .expression => Expr.free <$> parseExpression script
  | .statements => (fun stmts => without (declaredIn stmts) (freeAll stmts)) <$>
      parseStatements script
  | .params => (fun params => without (boundBy params) (freeAll params)) <$>
      parseParams script

/-! ## What is used and not bound -/

/-- The places of the names that are not bound. -/
def Uses.unbound (u : Uses) : List Spot :=
  (u.refs.filter fun r => !r.bound).map spot

theorem Uses.unbound_ref (bound id shorthand) :
    (Uses.ref bound id shorthand).unbound = without bound [⟨id, shorthand⟩] := by
  by_cases inside : id.name ∈ bound <;> simp [unbound, ref, without, spot, inside]

theorem Uses.unbound_and {u v : Uses} (h : u.unbound = without b xs)
    (h' : v.unbound = without b ys) : (u.and v).unbound = without b (xs ++ ys) := by
  rw [without, filter_append, ← without, ← without, ← h, ← h']
  simp [unbound]

theorem Uses.unbound_below {u : Uses} (h : u.unbound = without (more ++ b) xs) :
    u.unbound = without b (without more xs) := by
  rw [h]
  simp [without, Bool.and_comm]

theorem names_eq : (∀ p : Pattern, p.names = p.binders.map (·.name)) ∧
    (∀ ps, namesAll ps = boundBy ps) ∧
    (∀ ps, PatternProp.namesAll ps = (PatternProp.bindersAll ps).map (·.name)) ∧
    ∀ p : PatternProp, p.names = p.binders.map (·.name) := by
  apply Pattern.names.mutual_induct
  all_goals
    intros
    simp_all [Pattern.names, Pattern.binders, namesAll, boundBy, bindersAll, PatternProp.names,
      PatternProp.binders, PatternProp.namesAll, PatternProp.bindersAll]

theorem declared_eq (stmts : List Stmt) : stmts.flatMap declared = declaredIn stmts := by
  have targets (ds : List Declarator) :
      ds.flatMap (·.target.names) = boundBy (ds.map (·.target)) := by
    rw [← names_eq.2.1]
    induction ds with
    | nil => rfl
    | cons d ds ih => simp [namesAll, ih]
  refine flatMap_congr fun s _ => ?_
  cases s with
  | declare ds => exact targets ds
  | _ => rfl

/-- What is used and not bound is what is free. -/
def Frees {α : Type} (uses : List String → α → Uses) (free : α → List Spot) : Prop :=
  ∀ b a, (uses b a).unbound = without b (free a)

theorem frees_uses : Frees Expr.uses Expr.free ∧ Frees Func.uses Func.free ∧
    Frees FuncBody.uses FuncBody.free ∧ Frees Stmt.usesAll Stmt.freeAll ∧ Frees Stmt.uses Stmt.free ∧
    Frees Declarator.usesAll Declarator.freeAll ∧ Frees Declarator.uses Declarator.free ∧
    Frees Pattern.uses Pattern.free ∧ Frees Pattern.usesAll Pattern.freeAll ∧
    Frees PatternProp.usesAll PatternProp.freeAll ∧ Frees PatternProp.uses PatternProp.free ∧
    Frees PropKey.uses PropKey.free ∧ Frees ObjectProp.usesAll ObjectProp.freeAll ∧
    Frees ObjectProp.uses ObjectProp.free ∧ Frees Expr.usesAll Expr.freeAll := by
  unfold Frees
  apply Expr.uses.mutual_induct
  -- functions and blocks take away what they bind
  case case36 =>
    intro b name params body _ inParams inBody
    rw [Func.free, ← names_eq.2.1]
    exact Uses.unbound_below (Uses.unbound_and inParams inBody)
  case case38 | case45 =>
    intro b stmts inside
    refine Uses.unbound_below ?_
    rw [← declared_eq]
    exact inside
  all_goals
    intros
    first | rfl | exact Uses.unbound_ref .. | skip
    repeat' first | assumption | apply Uses.unbound_and

theorem freeSpots_eq (mode script) : freeSpots mode script = Uses.unbound <$> uses mode script := by
  have all (spots : List Spot) : without [] spots = spots := filter_eq_self.mpr (by simp)
  obtain ⟨exprs, -, -, stmts, -, -, -, -, params, -⟩ := frees_uses
  cases mode with
  | expression =>
    cases parsed : parseExpression script with
    | error fault => simp [freeSpots, uses, parsed]
    | ok e =>
      simp only [freeSpots, uses, parsed]
      exact congrArg ok ((exprs [] e).trans (all _)).symm
  | statements =>
    cases parsed : parseStatements script with
    | error fault => simp [freeSpots, uses, parsed]
    | ok program =>
      simp only [freeSpots, uses, parsed, programUses, declared_eq]
      exact congrArg ok (stmts _ program).symm
  | params =>
    cases parsed : parseParams script with
    | error fault => simp [freeSpots, uses, parsed]
    | ok list =>
      simp only [freeSpots, uses, parsed, paramsUses, names_eq]
      exact congrArg ok (params _ list).symm

/-! ## What is written -/

/-- A name of the render context, if it is not bound. -/
def Spot.inContext (known : String → Bool) (x : Spot) : Bool :=
  !known x.ident.name && !isAllowedGlobal x.ident.name

/-- The sites of a script are its free names, in order. -/
theorem sites_eq_unbound (used : uses mode script = .ok u) (known : String → Bool) :
    (u.sites known).map spot = u.unbound.filter (Spot.inContext known) := by
  obtain ⟨tokens, lexed, covers, -⟩ := uses_weave (fun _ => none) used
  have increasing := pairwise_map.mp (covers.inOrder (tokenize_eq_ok.mp lexed).tidy)
  rw [Uses.sites_of_increasing increasing, Uses.unbound, filter_map, filter_filter]
  congr 1
  refine filter_congr fun r _ => ?_
  simp [isContext, isLocal, Spot.inContext, spot]
  cases r.bound <;> simp

inductive Rewrites (e : Snippet) : List Spot → Expression → Prop where
  | nothing {s} (content : s.content = e.content) : Rewrites e [] (.simple s)
  /-- The snippet is one name, with blanks around it. -/
  | whole {x s front back} (plain : x.shorthand = false)
      (split : e.content.toList = front ++ (x.ident.name.toList ++ back))
      (start : x.ident.start = Text.bytes front) (before : ∀ c ∈ front, Text.isBlank c = true)
      (after : ∀ c ∈ back, Text.isBlank c = true) (content : s.content = "_ctx." ++ x.ident.name) :
      Rewrites e [x] (.simple s)
  | parts {c fragments}
      (parts : c.parts = fragments.flatMap Fragment.parts)
      (source : fragments.flatMap Fragment.source = e.content.toList) (laid : Laid e 0 fragments) :
      Rewrites e (fragments.filterMap Fragment.spot?) (.compound c)

/-- Qualifying a script writes the context at exactly those free names that are neither known nor
    allowed globals. -/
theorem process_rewrites_free {e : Snippet} {mode : Mode} {spots : List Spot}
    (visible : (e.isStatic || isBlankString e.content) = false)
    (free : freeSpots mode e.content = .ok spots) (known : String → Bool) :
    ∃ result, process e known true mode = .ok result ∧
      Rewrites e (spots.filter fun x => !known x.ident.name && !isAllowedGlobal x.ident.name)
        result := by
  rw [freeSpots_eq] at free
  obtain ⟨u, used, ok⟩ := ok_of_bind free
  cases ok
  obtain ⟨result, run⟩ : ∃ result, process e known true mode = .ok result := by
    simp only [process, visible, used, bind, Except.bind, Bool.false_eq_true, if_false]
    split
    · exact ⟨_, rfl⟩
    · exact ⟨_, rfl⟩
    · split <;> exact ⟨_, rfl⟩
  refine ⟨result, run, ?_⟩
  have sites := sites_eq_unbound used known
  unfold Spot.inContext at sites
  rw [← sites]
  rcases process_cases run with ⟨hidden, -⟩ | ⟨-, u', used', outcome⟩
  · rw [visible] at hidden
    cases hidden
  obtain rfl := Except.ok.inj (used.symm.trans used')
  obtain ⟨-, -, -, sited⟩ := sites_words used known
  rcases outcome with ⟨none, rfl⟩ | ⟨r, sole, whole, rfl⟩ | rfl
  · rw [none]
    exact .nothing rfl
  · rw [sole] at sited ⊢
    generalize split : e.content.toList = cs at sited whole
    cases sited with
    | @cons _ front back _ _ start stop name _ =>
      obtain ⟨before, after⟩ := coversAll_blank whole (by omega) (by omega)
      simp only [coversAll, Bool.and_eq_true, Bool.not_eq_true'] at whole
      exact .whole whole.1.1 split (start.trans (Nat.zero_add _)) before after rfl
  · obtain ⟨fragments, spliced, source, laid, spots⟩ := sites_laid used known
    rw [← spots]
    exact .parts spliced source laid

/-- A function with a default value, a declaration, shorthand properties and a global. -/
def scopedScript : Snippet :=
  Snippet.new "f((a, b = c) => \x7b let d = a + e.a; return \x7b d, g, k, n: Math \x7d \x7d)" false ⟨0, 60⟩

theorem scopedScript_rewrites :
    ∃ spots, freeSpots .expression scopedScript.content = .ok spots ∧
      spots.map (fun x => (x.ident.name, x.shorthand)) =
        [("f", false), ("c", false), ("e", false), ("g", true), ("k", true), ("Math", false)] ∧
      ∃ result, process scopedScript (· == "k") true .expression = .ok result ∧
        Rewrites scopedScript
          (spots.filter fun x => !(x.ident.name == "k") && !isAllowedGlobal x.ident.name) result := by
  have named : (freeSpots .expression scopedScript.content).toOption.map
      (·.map fun x => (x.ident.name, x.shorthand)) = some
        [("f", false), ("c", false), ("e", false), ("g", true), ("k", true), ("Math", false)] := by
    decide +kernel
  obtain ⟨spots, free, names⟩ := ok_of_toOption named
  exact ⟨spots, free, names, process_rewrites_free (by decide +kernel) free (· == "k")⟩

end Stencil.Script
