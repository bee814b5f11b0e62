import Stencil.Compile
import Stencil.Proofs.Lower.Visiting
import Stencil.Proofs.Script.Defaults

/-! # Bare and qualified names in lowered code

In the code of a template that compiles without diagnostics, the names of loops and slots are bare
and stand below the functions that bind them. Two kinds of slot templates are the exception: some
have names in scope where no function binds them, and some have parameters that are read before the
names of their loop are known.
-/

namespace Stencil

open List Text Expression Script RenderNode Policy

/-- A template after it was read and lowered, and what was found wrong with it. -/
def lowerTemplate (o : Options) (source : String) : Root × List Diagnostic :=
  let (read, readProblems) := readTemplate o source
  let (lowered, lowerProblems) := read.lower o
  (lowered, readProblems ++ lowerProblems)

namespace Root

def slotSites (root : Root) : List SlotSite :=
  TemplateNode.slotSitesAll false root.children

/-- Names that are in scope somewhere where no function binds them. -/
def escapedNames (root : Root) : List String :=
  root.slotSites.flatMap SlotSite.escaped

/-- Names of loops that the parameters of a slot use before they are known. -/
def lateNames (root : Root) : List String :=
  root.slotSites.flatMap SlotSite.late

end Root

namespace Policy

/-- A name of the template's scope that a script leaves bare is bound by a function around it,
    unless it is `escaped`. -/
def closed (o : Options) (escaped : List String) : Policy where
  qualify := o.qualify
  raw := False
  refs := False
  unread := o.readsHandlers = false
  script bound known u := ∀ r ∈ u.refs, r.bound = false → known r.ident.name = true →
    r.ident.name ∈ bound ∨ r.ident.name ∈ escaped
  params own bound known u := ∀ r ∈ u.refs, r.bound = false → known r.ident.name = true →
    r.ident.name ∈ own ++ bound ∨ r.ident.name ∈ escaped

/-- A name is taken from the render context only where no function around the script binds it, but
    for `late` names in parameters; all other names of the template are bound or `escaped`. -/
def sparing (o : Options) (escaped late : List String) : Policy where
  qualify := o.qualify
  raw := False
  refs := False
  unread := o.readsHandlers = false
  script bound known u := (closed o escaped).script bound known u ∧
    ∀ r ∈ u.refs, r.isContext known = true → r.ident.name ∉ bound
  params own bound known u := (closed o escaped).params own bound known u ∧
    ∀ r ∈ u.refs, r.isContext known = true → r.ident.name ∈ bound → r.ident.name ∈ late

end Policy

/-- What is allowed for in a template that is lowered without diagnostics. -/
def Root.setting (o : Options) (root : Root) : Setting :=
  ⟨o, True, root.escapedNames, root.lateNames⟩

theorem Script.Uses.mem_free {u : Script.Uses} (member : r ∈ u.refs) (free : r.bound = false) :
    r.ident.name ∈ u.free :=
  mem_map_of_mem (mem_filter.mpr ⟨member, by simp [free]⟩)

theorem Script.Ref.isContext_iff {r : Script.Ref} :
    r.isContext known = true ↔ r.bound = false ∧ known r.ident.name = false ∧
      isAllowedGlobal r.ident.name = false := by
  simp [isContext, isLocal, and_assoc]

section Policies

variable (o : Options) (root : Root)

theorem Root.setting_le_closed : (root.setting o).policy.Le (.closed o root.escapedNames) where
  qualify := rfl
  raw unclean := unclean trivial
  refs := id
  unread := id
  script rule _ member free := (rule _ (Script.Uses.mem_free member free)).2 trivial
  params rule _ member free := (rule trivial _ (Script.Uses.mem_free member free)).2

theorem Root.setting_le_sparing :
    (root.setting o).policy.Le (.sparing o root.escapedNames root.lateNames) where
  qualify := rfl
  raw unclean := unclean trivial
  refs := id
  unread := id
  script rule := by
    refine ⟨(root.setting_le_closed o).script rule, fun r member context inBound => ?_⟩
    obtain ⟨free, unknown, -⟩ := Script.Ref.isContext_iff.mp context
    have known := (rule _ (Script.Uses.mem_free member free)).1 inBound
    simp [unknown] at known
  params rule := by
    refine ⟨(root.setting_le_closed o).params rule, fun r member context inBound => ?_⟩
    obtain ⟨free, unknown, notGlobal⟩ := Script.Ref.isContext_iff.mp context
    rcases (rule trivial _ (Script.Uses.mem_free member free)).1 inBound with known | isGlobal | late
    · simp [unknown] at known
    · simp [notGlobal] at isGlobal
    · exact late

end Policies

theorem scoped_lowerTemplate {o source} (clean : (lowerTemplate o source).2 = []) {code}
    (found : (lowerTemplate o source).1.code = some code) :
    code.Scoped ((readTemplate o source).1.setting o).policy [] := by
  have noProblems : ((readTemplate o source).1.lower o).2 = [] := (append_eq_nil_iff.mp clean).2
  have lowered : ((readTemplate o source).1.lower o).1.code = some code := found
  have written := written_readTemplate o source
  generalize (readTemplate o source).1 = root at noProblems lowered written
  refine Root.lower_scoped (S := root.setting o) written (fun site member => ?_)
    (fun _ => noProblems) lowered
  exact ⟨fun _ name inside => mem_flatMap.mpr ⟨site, member, inside⟩,
    fun _ name inside => mem_flatMap.mpr ⟨site, member, inside⟩⟩

/-! ## Nodes outside functions -/

def RenderNode.outside? : List Nat → RenderNode → Option RenderNode
  | [], node => some node
  | i :: path, node => if node.isFunction then none else (node.parts[i]?).bind (outside? path)

def RenderNode.snippet? : RenderNode → Option Snippet
  | .expr (.simple s) => some s
  | _ => none

theorem RenderNode.Scoped.of_snippet? {node : RenderNode} (inside : node.Scoped P bound)
    (found : node.snippet? = some s) : (simple s).Emitted P bound := by
  unfold snippet? at found
  split at found
  · cases found
    exact scoped_expr.mp inside
  · cases found

theorem RenderNode.Scoped.outside? {node inner : RenderNode} (inside : node.Scoped P bound)
    (found : node.outside? path = some inner) : inner.Scoped P bound := by
  induction path generalizing node with
  | nil =>
    cases found
    exact inside
  | cons i path ih =>
    simp only [RenderNode.outside?] at found
    split at found
    · cases found
    next notFunction =>
      obtain ⟨part, here, below⟩ := Option.bind_eq_some_iff.mp found
      have kind : node.isFunction = false := by simpa using notFunction
      obtain ⟨-, -, -, parts⟩ := (scoped_iff kind).mp inside
      exact ih (parts part (mem_of_getElem? here)) below

/-! ## Functions and their parameters -/

def RenderNode.signature? : RenderNode → Option (Bool × List String)
  | .function params _ _ isSlot => some (isSlot, params)
  | _ => none

def RenderNode.returned? : RenderNode → Option RenderNode
  | .function _ returns _ _ => returns
  | _ => none

theorem RenderNode.Scoped.of_signature? {P params isSlot} {node : RenderNode}
    (inside : node.Scoped P bound) (found : node.signature? = some (isSlot, params)) :
    ∃ names, Params P isSlot names bound names params ∧
      ∀ inner, node.returned? = some inner → inner.Scoped P (names ++ bound) := by
  cases inside with
  | @function _ names _ returns _ _ params below =>
    cases found
    exact ⟨names, params, below⟩
  | node kind =>
    cases node with
    | function => cases kind
    | _ => cases found

/-- The code of a parameter is what is written for it, with blanks around it. -/
theorem paramText_split (isSlot) (code : String) :
    ∃ front back, code.toList = front ++ ((paramText isSlot code).toList ++ back) ∧
      (∀ c ∈ front, isBlank c = true) ∧ ∀ c ∈ back, isBlank c = true := by
  cases isSlot with
  | false => exact ⟨[], [], by simp [paramText], by simp, by simp⟩
  | true =>
    obtain ⟨front, back, split, _, before, after⟩ := trim_eq code.toList
    exact ⟨front, back, by simpa [paramText, trimmed] using split, before, after⟩

theorem Params.of_single {P isSlot own names text} (params : Params P isSlot own bound names [text])
    (noRaw : ¬ P.raw) {c} (solid : c ∈ text.toList ∧ isBlank c = false)
    (unmade : text ∉ ["_", "__"]) :
    ∃ source span known e u, bindingNames source = .ok names ∧
      uses .params source = .ok u ∧
      process (Snippet.new source false span) known P.qualify .params = .ok e ∧
      P.params own bound known u ∧ paramText isSlot e.code = text := by
  generalize single : [text] = texts at params
  cases params with
  | nil => cases single
  | filler fills others =>
    obtain ⟨rfl, rfl⟩ := List.cons.inj single
    exact absurd fills unmade
  | @read source span known e u new names _ binds used run rule others =>
    obtain ⟨rfl, rfl⟩ := List.cons.inj single
    cases others
    exact ⟨source, span, known, e, u, by rwa [append_nil], used, run, rule, rfl⟩
  | @blank source _ _ isBlank others =>
    obtain ⟨rfl, rfl⟩ := List.cons.inj single
    obtain ⟨front, back, split, _⟩ := paramText_split isSlot source
    have member : c ∈ source.toList := by
      rw [split]
      simp [solid.1]
    simp [visible_of_mem member solid.2] at isBlank
  | unread raw _ others => exact absurd raw noRaw

/-! ## Snippets that are left bare -/

/-- What is known of a script that stays one snippet. -/
theorem Script.process_simple {before after} {known : String → Bool} {mode}
    (processed : process before known true mode = .ok (.simple after)) :
    after = before ∧ (before.isStatic = true ∨ isBlankString before.content = true) ∨
      (∃ u, uses mode before.content = .ok u ∧ u.sites known = [] ∧
        after.content = before.content) ∨ ∃ name, after.content = inContext name := by
  unfold process at processed
  split at processed
  next kept =>
    have same : simple before = .simple after := Except.ok.inj processed
    exact .inl ⟨(simple.inj same).symm, by simpa using kept⟩
  · cases read : uses mode before.content with
    | error fault => simp [read, bind, Except.bind] at processed
    | ok u =>
      simp only [read, bind, Except.bind] at processed
      split at processed
      next no => cases no
      next none _ =>
        have same : simple (before.withLevel _) = .simple after :=
          Except.ok.inj processed
        obtain rfl := simple.inj same
        exact .inr (.inl ⟨u, rfl, none, rfl⟩)
      · split at processed
        next r _ =>
          have same := simple.inj (Except.ok.inj processed)
          exact .inr (.inr ⟨r.ident.name, by rw [← same]⟩)
        · cases Except.ok.inj processed

/-- Dynamic code that lowering makes up is a word, the variable of a directive or a list. -/
theorem Script.Made.front {code : String} (made : Made .dynamic code) :
    code ∈ ["true", "undefined", "null", "void 0", "\x7b\x7d", "() => \x7b\x7d", "_ctx.$slots",
      "$slots"] ∨ code.toList.head? = some '_' ∨ code.toList.head? = some '[' := by
  cases made with
  | word member => exact .inl member
  | directive name => exact .inr (.inl (by simp [assetVariable]))
  | modifiers names => exact .inr (.inr (by simp))

/-- A snippet of code that lowering did not make up was read as it stands. -/
theorem Expression.Emitted.bare (emitted : (simple s).Emitted (.closed o escaped) bound)
    (qualify : o.qualify = true) (reads : o.readsHandlers = true) (dynamic : s.isStatic = false)
    (visible : isBlankString s.content = false) (unmade : ¬ Script.Made s.level s.content)
    (bare : s.content.toList.head? ≠ some '_') :
    ∃ mode known u, mode ≠ .params ∧ uses mode s.content = .ok u ∧ u.sites known = [] ∧
      (closed o escaped).script bound known u := by
  generalize same : simple s = e at emitted
  have asItStands : ∀ {before : Snippet} {known mode u},
      process before known true mode = .ok e → uses mode before.content = .ok u →
      uses mode s.content = .ok u ∧ u.sites known = [] := by
    intro before known mode u processed read
    subst same
    rcases process_simple processed with ⟨same, kept⟩ | ⟨u', read', none, content⟩ | context
    · simp [← same, dynamic, visible] at kept
    · obtain rfl := Except.ok.inj (read.symm.trans read')
      rw [content]
      exact ⟨read, none⟩
    · obtain ⟨name, isContext⟩ := context
      simp [isContext, inContext] at bare
  cases emitted with
  | static isStatic =>
    cases same
    simp [dynamic] at isStatic
  | made made =>
    cases same
    exact absurd made unmade
  | blank isBlank =>
    cases same
    simp [Snippet.new, isBlank] at visible
  | raw raw => exact raw.elim
  | unread unread => simp [closed, reads] at unread
  | read kind _ uses processed rule =>
    rw [show (closed o escaped).qualify = true from qualify] at processed
    obtain ⟨here, none⟩ := asItStands processed uses
    exact ⟨_, _, _, kind, here, none, rule⟩
  | again _ rereads =>
    obtain ⟨kind, uses, processed, rule⟩ := rereads
    rw [show (closed o escaped).qualify = true from qualify] at processed
    obtain ⟨here, none⟩ := asItStands processed uses
    exact ⟨_, _, _, kind, here, none, rule⟩
  | around => cases same
  | handler => cases same
  | rehandled => cases same
  | run => cases same

/-! ## Compiled templates -/

/-- Compiled code is closed. In a template that compiles without diagnostics, a name of a loop or a
    slot that is left bare in a script is bound by a function around it. Names that a slot template
    has in scope where it has no function for them are the exception. -/
theorem compile_closed (o : Options) (source : String) (clean : (compile o source).diagnostics = [])
    {code : RenderNode} (found : (lowerTemplate o.forCompile source).1.code = some code) :
    code.Scoped (.closed o.forCompile (readTemplate o.forCompile source).1.escapedNames) [] :=
  (scoped_lowerTemplate clean found).mono (Root.setting_le_closed ..)

/-- A slot in a loop, with a default value that uses the loop's name. -/
def loopedSlot : String :=
  "<Foo v-for=\"i in list\" v-slot:a=\"\x7b x = i \x7d\">\x7b\x7b i + x \x7d\x7d</Foo>"

theorem loopedSlot_compiles :
    (compile {} loopedSlot).diagnostics = [] ∧ (readTemplate {} loopedSlot).1.escapedNames = [] ∧
      ∃ code, (lowerTemplate {} loopedSlot).1.code = some code :=
  ⟨by decide +kernel, by decide +kernel, Option.isSome_iff_exists.mp (by decide +kernel)⟩

theorem loopedSlot_closed :
    (compile {} loopedSlot).diagnostics = [] ∧ (readTemplate {} loopedSlot).1.escapedNames = [] ∧
      ∃ code, (lowerTemplate {} loopedSlot).1.code = some code ∧
        code.Scoped (.closed {} []) [] := by
  obtain ⟨clean, kept, code, found⟩ := loopedSlot_compiles
  have closed := compile_closed {} loopedSlot clean found
  rw [show (readTemplate (Options.forCompile {}) loopedSlot).1.escapedNames = [] from kept] at closed
  exact ⟨clean, kept, code, found, closed⟩

/-- A slot template whose own parameter has the name of the list that it is repeated for. -/
def slotNamedLikeList : String :=
  "<Foo><template v-for=\"i in list\" #a=\"\x7b list \x7d\">\x7b\x7b i \x7d\x7d</template></Foo>"

/-- The list of the loop stands outside the function of the slot, but is taken for its parameter. -/
theorem slotNamedLikeList_not_closed :
    (compile {} slotNamedLikeList).diagnostics = [] ∧
      ∃ code, (lowerTemplate {} slotNamedLikeList).1.code = some code ∧
        ¬ code.Scoped (.closed {} []) [] := by
  have clean : (compile {} slotNamedLikeList).diagnostics = [] := by decide +kernel
  have bare : (((lowerTemplate {} slotNamedLikeList).1.code.bind (·.outside? [0, 1, 0, 0])).bind
      RenderNode.snippet?) = some ⟨"list", false, .dynamic, "list", ⟨27, 31⟩⟩ := by decide +kernel
  obtain ⟨inner, found, isSnippet⟩ := Option.bind_eq_some_iff.mp bare
  obtain ⟨code, compiled, below⟩ := Option.bind_eq_some_iff.mp found
  refine ⟨clean, code, compiled, fun closed => ?_⟩
  have emitted := (closed.outside? below).of_snippet? isSnippet
  obtain ⟨mode, known, u, kind, read, none, rule⟩ := emitted.bare rfl rfl rfl (by decide)
    (fun made => absurd made.front (by decide)) (by decide)
  have usesList : (Script.uses mode "list").toOption = some ⟨[⟨⟨"list", 0, 4⟩, false, false⟩], false⟩ := by
    cases mode with
    | expression => decide +kernel
    | statements => decide +kernel
    | params => exact absurd rfl kind
  obtain rfl : u = _ := Option.some.inj ((congrArg Except.toOption read).symm.trans usesList)
  have left := Script.Uses.sites_eq_nil_iff.mp none _ mem_cons_self
  have isKnown : known "list" = true := by
    simpa [Script.Ref.isContext, Script.Ref.isLocal, Script.isAllowedGlobal] using left
  simpa using rule _ mem_cons_self rfl isKnown

/-- A name that a function around a script binds is not taken from the render context. The names of
    a loop that the parameters of its slot use are the exception, as they are read too early. -/
theorem compile_sparing (o : Options) (source : String)
    (clean : (compile o source).diagnostics = []) {code : RenderNode}
    (found : (lowerTemplate o.forCompile source).1.code = some code) :
    code.Scoped (.sparing o.forCompile (readTemplate o.forCompile source).1.escapedNames
      (readTemplate o.forCompile source).1.lateNames) [] :=
  (scoped_lowerTemplate clean found).mono (Root.setting_le_sparing ..)

theorem loopedSlot_sparing :
    (compile {} loopedSlot).diagnostics = [] ∧ (readTemplate {} loopedSlot).1.lateNames = [] ∧
      ∃ code, (lowerTemplate {} loopedSlot).1.code = some code ∧
        code.Scoped (.sparing {} [] []) [] := by
  obtain ⟨clean, escaped, code, found⟩ := loopedSlot_compiles
  have late : (readTemplate {} loopedSlot).1.lateNames = [] := by decide +kernel
  have sparing := compile_sparing {} loopedSlot clean found
  rw [show (readTemplate (Options.forCompile {}) loopedSlot).1.escapedNames = [] from escaped,
    show (readTemplate (Options.forCompile {}) loopedSlot).1.lateNames = [] from late] at sparing
  exact ⟨clean, late, code, found, sparing⟩

/-- A slot template with a default value that uses the name of the template's own loop. -/
def lateSlot : String :=
  "<Foo><template v-for=\"i in list\" #[i]=\"a = i\">\x7b\x7b a \x7d\x7d</template></Foo>"

/-- The function of the slot stands below that of the loop, but takes the loop's name from the
    context. -/
theorem lateSlot_not_sparing :
    (compile {} lateSlot).diagnostics = [] ∧ (readTemplate {} lateSlot).1.escapedNames = [] ∧
      ∃ code, (lowerTemplate {} lateSlot).1.code = some code ∧
        ¬ code.Scoped (.sparing {} [] []) [] := by
  have clean : (compile {} lateSlot).diagnostics = [] := by decide +kernel
  have escaped : (readTemplate {} lateSlot).1.escapedNames = [] := by decide +kernel
  have outer : (((lowerTemplate {} lateSlot).1.code.bind (·.outside? [0, 1, 0, 1])).bind
      RenderNode.signature?) = some (false, ["i"]) := by decide +kernel
  have inner : ((((lowerTemplate {} lateSlot).1.code.bind (·.outside? [0, 1, 0, 1])).bind
      RenderNode.returned?).bind (·.outside? [1])).bind RenderNode.signature? =
        some (true, ["a = _ctx.i"]) := by decide +kernel
  obtain ⟨loop, atLoop, signature⟩ := Option.bind_eq_some_iff.mp outer
  rw [atLoop] at inner
  obtain ⟨slot, atSlot, slotSignature⟩ := Option.bind_eq_some_iff.mp inner
  obtain ⟨object, returned, atSlot⟩ := Option.bind_eq_some_iff.mp atSlot
  obtain ⟨code, compiled, atLoop⟩ := Option.bind_eq_some_iff.mp atLoop
  refine ⟨clean, escaped, code, compiled, fun sparing => ?_⟩
  obtain ⟨names, params, below⟩ := (sparing.outside? atLoop).of_signature? signature
  obtain ⟨slotNames, slotParams, _⟩ :=
    ((below object returned).outside? atSlot).of_signature? slotSignature
  have isName : Script.IsName "i".toList := ⟨'i', [], rfl, rfl, by simp⟩
  have loopNames : names = ["i"] := by
    obtain ⟨source, span, known, e, u, binds, _, run, _, text⟩ :=
      params.of_single id (c := 'i') (by decide) (by decide)
    obtain ⟨front, back, split, before, after⟩ := paramText_split false e.code
    rw [text] at split
    have binds' := Script.bindingNames_of_name rfl run split isName (by decide) before after
    exact Except.ok.inj (binds.symm.trans binds')
  subst loopNames
  obtain ⟨source, span, known, e, u, binds, used, run, rule, text⟩ :=
    slotParams.of_single id (c := 'a') (by decide) (by decide)
  obtain ⟨front, back, split, before, after⟩ := paramText_split true e.code
  rw [text, show "a = _ctx.i" = Script.contextDefault "a" "i" by decide] at split
  obtain ⟨u', used', r, member, ⟨context, named, shorter⟩ | ⟨free, isContext, isKnown, own⟩⟩ :=
    Script.process_contextDefault rfl run split ⟨'a', [], rfl, rfl, by simp⟩ (by decide) isName
      (by decide) before after
  · obtain rfl := Except.ok.inj (used.symm.trans used')
    obtain ⟨c, more, cons, _⟩ := named
    have sameName : r.ident.name = "i" := by
      rw [cons, show "i".toList = ['i'] from rfl, cons_prefix_cons] at shorter
      rw [← String.toList_inj, cons, shorter.1, prefix_nil.mp shorter.2]
      rfl
    have late := rule.2 r member context (by simp [sameName])
    cases late
  · obtain rfl := Except.ok.inj (used.symm.trans used')
    obtain rfl := Except.ok.inj (binds.symm.trans own)
    have bound := rule.1 r member free (isContext ▸ isKnown)
    simp [isContext] at bound

end Stencil
