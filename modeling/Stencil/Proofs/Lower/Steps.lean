import Stencil.Proofs.Lower.Scripting
import Stencil.Proofs.Template.Written

/-! # Steps of lowering in a scope

A step of lowering leaves the scope as it was, or adds names to it; what it reports is added to what
was reported before. If nothing is reported in the end, every script on the way could be read.
-/

namespace Stencil

open List Script Expression Snippet

/-- The names that a script uses and does not bind itself. -/
def Script.Uses.free (u : Script.Uses) : List String :=
  (u.refs.filter (!·.bound)).map (·.ident.name)

/-- What is taken for granted of a run of lowering. -/
structure Setting where
  options : Options
  /-- Nothing is reported in the whole run. -/
  clean : Prop
  /-- Names that may be left bare where no function binds them. -/
  escaped : List String
  /-- Names that may be qualified in parameters although a function around binds them. -/
  late : List String

namespace Setting

/-- What lowering ensures for every script: names that are bound around it are in its scope, and
    in a clean run the names of its scope are bound around it. -/
def policy (S : Setting) : Policy where
  qualify := S.options.qualify
  raw := ¬ S.clean
  refs := False
  unread := S.options.readsHandlers = false
  script bound known u := ∀ name ∈ u.free, (name ∈ bound → known name = true) ∧
    (S.clean → known name = true → name ∈ bound ∨ name ∈ S.escaped)
  params own bound known u := S.clean → ∀ name ∈ u.free,
    (name ∈ bound → known name = true ∨ isAllowedGlobal name = true ∨ name ∈ S.late) ∧
      (known name = true → name ∈ own ++ bound ∨ name ∈ S.escaped)

end Setting

def scopeHas (scope : List ScopeVar) (name : String) : Bool :=
  scope.any (·.name == name)

variable {name source : String}

theorem scopeHas_iff : scopeHas scope name = true ↔ name ∈ scope.map (·.name) := by
  simp [scopeHas]

theorem scopeHas_append :
    scopeHas (scope ++ scope') name = true ↔
      scopeHas scope name = true ∨ scopeHas scope' name = true := by
  simp [scopeHas]

/-- The names that functions bind around a place, and the scope that the template has there. -/
structure Setting.Around (S : Setting) (bound : List String) (scope : List ScopeVar) : Prop where
  known : ∀ name ∈ bound, scopeHas scope name = true
  closed : S.clean → ∀ name, scopeHas scope name = true → name ∈ bound ∨ name ∈ S.escaped

namespace Setting.Around

variable {S : Setting}

theorem script (around : S.Around bound scope) (u : Script.Uses) :
    S.policy.script bound (scopeHas scope) u :=
  fun name _ => ⟨around.known name, fun clean => around.closed clean name⟩

theorem params (around : S.Around bound scope) (own) (u : Script.Uses) :
    S.policy.params own bound (scopeHas scope) u :=
  fun clean name _ => ⟨fun member => .inl (around.known name member),
    fun known => (around.closed clean name known).imp_left (mem_append_right _)⟩

/-- Parameters that are read with their own names in scope. -/
theorem ownParams (around : S.Around (own ++ bound) scope) (u : Script.Uses) :
    S.policy.params own bound (scopeHas scope) u :=
  fun clean name _ => ⟨fun member => .inl (around.known name (mem_append_right _ member)),
    around.closed clean name⟩

theorem append (around : S.Around bound scope)
    (same : ∀ name, scopeHas vars name = true ↔ name ∈ names) :
    S.Around (names ++ bound) (vars ++ scope) where
  known name member := by
    rw [scopeHas_append]
    rcases mem_append.mp member with new | old
    · exact .inl ((same name).mpr new)
    · exact .inr (around.known name old)
  closed clean name has := by
    rcases scopeHas_append.mp has with new | old
    · exact .inl (mem_append_left _ ((same name).mp new))
    · exact (around.closed clean name old).imp_left (mem_append_right _)

theorem ofScope (S : Setting) (scope : List ScopeVar) :
    S.Around (scope.map (·.name)) scope where
  known _ member := scopeHas_iff.mpr member
  closed _ _ has := .inl (scopeHas_iff.mp has)

end Setting.Around

namespace Lower

variable {α β : Type}

/-- What no step of lowering changes for good. -/
structure Frame (c c' : Context) : Prop where
  loopDepth : c'.loopDepth = c.loopDepth
  slotDepth : c'.slotDepth = c.slotDepth
  diagnostics : c.diagnostics <+: c'.diagnostics

namespace Frame

theorem refl (c) : Frame c c :=
  ⟨rfl, rfl, prefix_refl _⟩

theorem trans (first : Frame a b) (second : Frame b c) : Frame a c :=
  ⟨second.loopDepth.trans first.loopDepth, second.slotDepth.trans first.slotDepth,
    first.diagnostics.trans second.diagnostics⟩

end Frame

/-- A step that turns the scope `scope` into `scope'`. Unless the run is meant to be clean and the
    step has reported something, its result has the property `Q`. -/
def Binds (S : Setting) (scope : List ScopeVar) (act : Lower α) (scope' : List ScopeVar)
    (Q : α → Prop) : Prop :=
  ∀ c : Context, c.scope = scope →
    Frame c (exec act S.options c).2 ∧ (exec act S.options c).2.scope = scope' ∧
      ((S.clean → (exec act S.options c).2.diagnostics = []) → Q (exec act S.options c).1)

/-- A step that leaves the scope as it was. -/
abbrev Yields (S : Setting) (scope : List ScopeVar) (act : Lower α) (Q : α → Prop) : Prop :=
  Binds S scope act scope Q

namespace Binds

variable {Q : α → Prop}

theorem pure (holds : Q a) : Yields S s (Pure.pure a) Q :=
  fun c same => ⟨.refl c, same, fun _ => holds⟩

theorem bind {next : α → Lower β} (first : Binds S s act s' Q)
    (second : ∀ a, Binds S s' (next a) s'' fun b => Q a → R b) :
    Binds S s (act >>= next) s'' R := by
  intro c same
  obtain ⟨frame, scope, holds⟩ := first c same
  obtain ⟨frame', scope', holds'⟩ := second (exec act S.options c).1 _ scope
  refine ⟨frame.trans frame', scope', fun clean => holds' clean (holds fun isClean => ?_)⟩
  exact prefix_nil.mp (clean isClean ▸ frame'.diagnostics)

theorem mono {Q' : α → Prop} (binds : Binds S s act s' Q)
    (weaker : ∀ a, Q a → Q' a) : Binds S s act s' Q' := by
  intro c same
  obtain ⟨frame, scope, holds⟩ := binds c same
  exact ⟨frame, scope, fun clean => weaker _ (holds clean)⟩

theorem and (binds : Binds S s act s' Q) (gives : Gives act P) :
    Binds S s act s' fun a => P a ∧ Q a := by
  intro c same
  obtain ⟨frame, scope, holds⟩ := binds c same
  exact ⟨frame, scope, fun clean => ⟨gives S.options c, holds clean⟩⟩

theorem both (binds : Binds S s act s' Q) (binds' : Binds S s act s' Q') :
    Binds S s act s' fun a => Q a ∧ Q' a := by
  intro c same
  obtain ⟨frame, scope, holds⟩ := binds c same
  exact ⟨frame, scope, fun clean => ⟨holds clean, (binds' c same).2.2 clean⟩⟩

/-- What a step gives for all names that may be bound around it. -/
theorem around {Q : List String → α → Prop}
    (binds : ∀ bound, S.Around bound s → Binds S s act s' (Q bound)) :
    Binds S s act s' fun a => ∀ bound, S.Around bound s → Q bound a := by
  intro c same
  obtain ⟨frame, scope, -⟩ := binds _ (.ofScope S s) c same
  exact ⟨frame, scope, fun clean bound around => (binds bound around c same).2.2 clean⟩

theorem map {f : α → β} (binds : Binds S s act s' Q)
    (holds : ∀ a, Q a → R (f a)) : Binds S s (f <$> act) s' R :=
  binds.mono holds

theorem read : Yields S s read fun o => o = S.options :=
  fun c same => ⟨.refl c, same, fun _ => rfl⟩

theorem get : Yields S s get fun c => c.scope = s :=
  fun c same => ⟨.refl c, same, fun _ => same⟩

theorem useDirective (name) : Yields S s (modify (Context.useDirective name)) fun _ => True :=
  fun _ same => ⟨⟨rfl, rfl, prefix_refl _⟩, same, fun _ => trivial⟩

theorem useComponent (name) : Yields S s (modify (Context.useComponent name)) fun _ => True :=
  fun _ same => ⟨⟨rfl, rfl, prefix_refl _⟩, same, fun _ => trivial⟩

theorem report (d) : Yields S s (report d) fun _ => ¬ S.clean := by
  intro c same
  refine ⟨⟨rfl, rfl, prefix_append _ _⟩, same, fun clean isClean => ?_⟩
  have none : c.diagnostics ++ [d] = [] := clean isClean
  simp at none

theorem error (cause span) : Yields S s (error cause span) fun _ => ¬ S.clean :=
  report _

theorem fresh : Yields S s fresh fun _ => True :=
  fun _ same => ⟨⟨rfl, rfl, prefix_refl _⟩, same, fun _ => trivial⟩

theorem inScope {vars} (binds : Binds S s act (vars ++ s) Q) : Yields S s (inScope act) Q := by
  intro c same
  obtain ⟨frame, scope, holds⟩ := binds c same
  refine ⟨⟨frame.loopDepth, frame.slotDepth, frame.diagnostics⟩, ?_, holds⟩
  rw [exec_inScope]
  simp [Context.leave, Context.enter, scope, same]

theorem inLoop (yields : Yields S s act Q) : Yields S s (inLoop act) Q := by
  intro c same
  obtain ⟨frame, scope, holds⟩ := yields { c with loopDepth := c.loopDepth + 1 } same
  exact ⟨⟨congrArg (· - 1) frame.loopDepth, frame.slotDepth, frame.diagnostics⟩, scope, holds⟩

theorem inSlot (yields : Yields S s act Q) : Yields S s (inSlot act) Q := by
  intro c same
  obtain ⟨frame, scope, holds⟩ := yields { c with slotDepth := c.slotDepth + 1 } same
  exact ⟨⟨frame.loopDepth, congrArg (· - 1) frame.slotDepth, frame.diagnostics⟩, scope, holds⟩

theorem logic : Logic S.options (Yields S s) where
  pure := pure
  bind := bind
  mono := mono
  get := get.mono fun _ _ => trivial
  read := read
  report d := (report d).mono fun _ _ => trivial

end Binds

end Lower

/-! ## Scripts -/

namespace Script

section

variable (span : Span) (known : String → Bool) (qualify : Bool)

theorem process_blank (mode) (isBlank : isBlankString source = true) :
    process (new source false span) known qualify mode =
      .ok (.snippet source false span) := by
  simp [process, new, isBlank, snippet, pure, Except.pure]

theorem process_error (visible : isBlankString source = false)
    (failed : uses mode source = .error fault) :
    process (new source false span) known qualify mode = .error fault := by
  simp [process, new, visible, failed, bind, Except.bind]

end

theorem bindingNames_blank (isBlank : isBlankString source = true) :
    bindingNames source = .ok [] := by
  simp [bindingNames, isBlank, pure, Except.pure]

/-- Parameters are read alike for their names and for their default values. -/
theorem bindingNames_of_uses (visible : isBlankString source = false)
    (read : uses .params source = .ok u) : ∃ names, bindingNames source = .ok names := by
  simp only [uses, bind, Except.bind] at read
  split at read
  · cases read
  next parsed => exact ⟨_, by simp [bindingNames, visible, parsed]; rfl⟩

theorem bindingNames_of_error (visible : isBlankString source = false)
    (failed : uses .params source = .error fault) : bindingNames source = .error fault := by
  simp only [uses, bind, Except.bind] at failed
  split at failed
  next parsed =>
    cases failed
    simp [bindingNames, visible, parsed]
  · cases failed

end Script

def Expression.names (e : Expression) : List String :=
  match bindingNames e.source with
  | .ok names => names
  | .error _ => []

theorem Expression.names_of_ok {span names} (found : bindingNames source = .ok names) :
    (simple (new source false span)).names = names := by
  simp [Expression.names, Expression.source, new, found]

theorem Expression.names_of_error {span fault} (failed : bindingNames source = .error fault) :
    (simple (new source false span)).names = [] := by
  simp [names, Expression.source, new, failed]

def Expression.IsPattern (e : Expression) : Prop :=
  ∃ names, bindingNames e.source = .ok names

/-- Names as variables of the template's scope. -/
def scopeVars (source : VarSource) (names : List String) : List ScopeVar :=
  (names.map (⟨·, source⟩)).reverse

@[simp] theorem scopeHas_scopeVars {source names} :
    scopeHas (scopeVars source names) name = true ↔ name ∈ names := by
  simp [scopeHas, scopeVars]

namespace Lower

section

variable (e : Expression) (mode : Script.Mode) (kind : mode ≠ .params)
include kind

theorem yields_process :
    Yields S scope (process e mode) fun e' => ∀ {bound : List String}, e.Written →
      (∀ u, uses mode e.source = .ok u → S.policy.script bound (scopeHas scope) u) →
      e'.Emitted S.policy bound := by
  cases e with
  | compound c => exact .pure fun written => by obtain ⟨_, _, ⟨⟩⟩ := written
  | simple s =>
    refine Binds.get.bind fun c => Binds.read.bind fun o => ?_
    split
    next e processed =>
      refine .pure fun options same bound written rule => ?_
      obtain ⟨source, span, ⟨⟩⟩ := written
      subst options same
      cases visible : isBlankString source with
      | true =>
        rw [process_blank span _ _ mode visible] at processed
        exact Except.ok.inj processed ▸ .blank visible
      | false =>
        cases read : uses mode source with
        | error fault => cases (process_error span _ _ visible read).symm.trans processed
        | ok u => exact .read kind visible read processed (rule u read)
    · refine (Binds.report _).bind fun _ => .pure fun unclean _ _ bound written _ => ?_
      exact .raw unclean rfl

/-- A script that is read again, after the scope it stands in was applied to it. -/
theorem yields_process_again (around : S.Around bound scope) :
    Yields S scope (process e mode) fun e' =>
      e' = e ∨ e.Rereads S.policy bound e' ∨ ¬ S.clean ∧ e'.renderLevel = .dynamic := by
  cases e with
  | compound c => exact .pure (.inl rfl)
  | simple s =>
    refine Binds.get.bind fun c => Binds.read.bind fun o => ?_
    split
    next e processed =>
      refine .pure fun options same => ?_
      subst options same
      cases kept : s.isStatic || isBlankString s.content with
      | true =>
        have same : simple s = e := by
          simpa [Script.process, kept, pure, Except.pure] using processed
        exact .inl same.symm
      | false =>
        cases read : uses mode s.content with
        | error fault => simp [Script.process, kept, read, bind, Except.bind] at processed
        | ok u => exact .inr (.inl (.intro kind read processed (around.script u)))
    · exact (Binds.report _).bind fun _ => .pure fun unclean _ _ =>
        .inr (.inr ⟨unclean, rfl⟩)

end

/-- Default values are qualified in a parameter, and its names stay as they are. -/
theorem yields_processParams (e) :
    Yields S scope (processParams e) fun e' => ∀ {own bound names texts : List String} {isSlot},
      e.Written → (S.clean → e.IsPattern) → (∀ u, uses .params e.source = .ok u →
        S.policy.params own bound (scopeHas scope) u) →
      Params S.policy isSlot own bound names texts →
      Params S.policy isSlot own bound (e.names ++ names)
        (paramText isSlot e'.code :: texts) := by
  cases e with
  | compound c => exact .pure fun written => by obtain ⟨_, _, ⟨⟩⟩ := written
  | simple s =>
    refine Binds.get.bind fun c => Binds.read.bind fun o => ?_
    split
    next e processed =>
      refine .pure fun options same own bound names texts isSlot written _ rule rest => ?_
      obtain ⟨source, span, ⟨⟩⟩ := written
      subst options same
      cases visible : isBlankString source with
      | true =>
        rw [process_blank span _ _ _ visible] at processed
        obtain rfl := Except.ok.inj processed
        rw [names_of_ok (bindingNames_blank visible)]
        exact .blank visible rest
      | false =>
        cases read : uses .params source with
        | error fault => cases (process_error span _ _ visible read).symm.trans processed
        | ok u =>
          obtain ⟨new, found⟩ := bindingNames_of_uses visible read
          rw [names_of_ok found]
          exact .read found read processed (rule u read) rest
    next fault failed =>
      refine .pure fun _ _ own bound names texts isSlot written readable _ rest => ?_
      obtain ⟨source, span, ⟨⟩⟩ := written
      cases visible : isBlankString source with
      | true => cases (process_blank span _ _ _ visible).symm.trans failed
      | false =>
        cases read : uses .params source with
        | ok u =>
          obtain ⟨e, processed⟩ := process_ok (e := .new source false span) read c.has o.qualify
          cases processed.symm.trans failed
        | error fault =>
          have unread := bindingNames_of_error visible read
          rw [names_of_error unread]
          refine .unread (fun clean => ?_) unread rest
          obtain ⟨names, found⟩ := readable clean
          cases found.symm.trans unread

theorem binds_bindNames (source names) :
    Binds S scope (bindNames source names) (scopeVars source names ++ scope) fun _ => True := by
  induction names generalizing scope with
  | nil => exact .pure trivial
  | cons name names ih =>
    have first : Binds S scope (bindName name source) (⟨name, source⟩ :: scope) fun _ => True :=
      fun c same => ⟨⟨rfl, rfl, prefix_refl _⟩, congrArg _ same, fun _ => trivial⟩
    have rest := first.bind fun _ => ih.mono fun _ _ _ => trivial
    simpa [scopeVars, bindNames] using rest

theorem binds_bindExpression (source e) :
    Binds S scope (bindingNames e >>= bindNames source) (scopeVars source e.names ++ scope)
      fun _ => S.clean → e.IsPattern := by
  unfold bindingNames names
  cases found : Script.bindingNames e.source with
  | ok names => exact (binds_bindNames source names).mono fun _ _ _ => ⟨names, found⟩
  | error fault =>
    exact (Binds.report _).bind fun _ => .pure fun unclean clean => absurd clean unclean

end Lower

end Stencil
