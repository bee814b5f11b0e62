import Stencil.Proofs.Lower.SlotSites

/-! # Directives on their way

Before an element is lowered, the scripts of its directives are read, the loop of a slot template is
kept on its directive, and rules may turn attributes into bindings. Each of these steps changes the
props of an element one by one.
-/

namespace Stencil

open List Bool ElementProp

namespace Lower

variable {S : Setting}

/-- A script before and after it is read in a scope. -/
abbrev ReadIn (S : Setting) (scope : List ScopeVar) (e e' : Expression) : Prop :=
  ∀ {bound : List String}, e.Written → (∀ u, Script.uses .expression e.source = .ok u →
    S.policy.script bound (scopeHas scope) u) → e'.Emitted S.policy bound

theorem emitted_of_readsArg (reads : Option.Rel (Expression.ReadsArg (ReadIn S scope)) arg arg')
    (written : ∀ a ∈ arg, a.isStatic = true ∨ a.Written)
    (rule : ∀ a ∈ arg, a.isStatic = false → ∀ u, Script.uses .expression a.source = .ok u →
      S.policy.script bound (scopeHas scope) u) : ∀ a ∈ arg', a.Emitted S.policy bound := by
  intro a' member
  obtain ⟨a, before, read⟩ := exists_of_mem_rel reads member
  cases read with
  | static isStatic =>
    cases a' with
    | simple s => exact .static isStatic
    | compound => cases isStatic
  | dynamic isDynamic read =>
    exact read ((written a before).resolve_left (by simp [isDynamic])) (rule a before isDynamic)

/-- A directive before and after its scripts are read in a scope. -/
abbrev Reads (S : Setting) (scope : List ScopeVar) (hasFor : Bool) : Directive → Directive → Prop :=
  Directive.ReadsScripts (ReadIn S scope) hasFor

theorem yields_processProps (hasFor props) :
    Yields S scope (processProps hasFor props) (PropsChange (Reads S scope hasFor) props) :=
  Binds.logic.processProps (fun e => yields_process e .expression (by simp)) hasFor props

theorem Reads.emitted (reads : Reads S scope hasFor d d') (written : d.Written)
    (around : S.Around bound scope) (read : d.waits = false) :
    ∀ e ∈ d'.exp, e.Emitted S.policy bound := by
  intro e' member
  obtain ⟨e, before, emitted⟩ := exists_of_mem_rel (reads.exp read) member
  exact emitted (written.exp e before) fun u _ => around.script u

theorem emitted_of_unclean (unclean : ¬ S.clean) {e : Expression} (written : e.Written) :
    e.Emitted S.policy bound := by
  obtain ⟨source, span, rfl⟩ := written
  exact .raw unclean rfl

/-- The scripts of all directives but loops are read when the element is lowered. -/
theorem resolved_of_reads {d d' : Directive} (named : d'.name = d.name)
    (reads : Reads S scope hasFor d d') (written : d.Written) (around : S.Around bound scope)
    (noLoop : d.name = "for" ∨ hasFor = true → ¬ S.clean) : d'.Resolved S.policy bound where
  arg a member := by
    cases waits : d.argWaits hasFor with
    | false =>
      exact emitted_of_readsArg (reads.arg waits) written.arg (fun _ _ _ u _ => around.script u) a
        member
    | true =>
      have unclean : ¬ S.clean := by
        simp only [Directive.argWaits, or_eq_true, beq_iff_eq, and_eq_true] at waits
        exact noLoop (waits.imp_right And.right)
      rw [reads.keptArg waits] at member
      rcases written.arg a member with isStatic | isWritten
      · cases a with
        | simple s => exact .static isStatic
        | compound => cases isStatic
      · exact emitted_of_unclean unclean isWritten
  exp notHandler notSlot e member := by
    cases waits : d.waits with
    | false => exact Reads.emitted reads written around waits e member
    | true =>
      rw [reads.keptExp waits] at member
      rw [named] at notHandler notSlot
      simp only [Directive.waits, or_eq_true, beq_iff_eq, and_eq_true] at waits
      rcases waits with (isFor | isSlot) | ⟨isOn, hasArg⟩
      · exact emitted_of_unclean (noLoop (.inl isFor)) (written.exp e member)
      · exact absurd isSlot notSlot
      · rw [← reads.isSome, notHandler isOn] at hasArg
        cases hasArg
  handler isOn a hasArg e member := by
    rw [named] at isOn
    have some : d.arg.isSome = true := by rw [← reads.isSome, hasArg]; rfl
    rw [reads.keptExp (by simp [Directive.waits, isOn, some])] at member
    exact written.exp e member

/-! ## Loops of slot templates -/

theorem lastLoop?_reads (found) (reads : PropsChange (Reads S scope hasFor) props props') :
    lastLoop? found props' = lastLoop? found props := by
  induction reads generalizing found with
  | nil => rfl
  | cons first _ ih =>
    cases first with
    | «attribute» => exact ih found
    | directive named read =>
      simp only [lastLoop?, named]
      split
      next isFor =>
        have same := read.keptExp (by simp [Directive.waits, isFor])
        simp only [Directive.loopHead?, Directive.script?, same, ih]
      · exact ih found

theorem yields_slotLoop? (written found props) :
    Yields S scope (slotLoop? found props) fun r =>
      Option.Rel (LoopHead.Reads S scope) written found →
      Option.Rel (LoopHead.Reads S scope) (lastLoop? written props) r ∧
        (lastLoop? written props = none →
          written.isSome = true ∨ (∃ d, .directive d ∈ props ∧ d.name = "for") → ¬ S.clean) := by
  induction props generalizing written found with
  | nil =>
    refine .pure fun rel => ⟨rel, fun none some => ?_⟩
    rcases some with isSome | ⟨d, member, _⟩
    · simp_all [lastLoop?]
    · cases member
  | cons p props ih =>
    rcases p with a | d
    · refine (ih written found).mono fun r rest rel => ?_
      obtain ⟨same, unread⟩ := rest rel
      refine ⟨same, fun none some => unread none (some.imp_right ?_)⟩
      rintro ⟨d, member, isFor⟩
      exact ⟨d, (mem_cons.mp member).resolve_left (by simp), isFor⟩
    · simp only [slotLoop?, lastLoop?]
      split
      next isFor =>
        refine (yields_loopHead? d).bind fun head? => ?_
        split
        next head =>
          -- the source of this loop replaces that of the one before
          cases d.loopHead? with
          | none =>
            refine (ih none (some head)).mono ?_
            rintro r _ ⟨_, loop⟩
            obtain ⟨_, found, _⟩ := loop head rfl
            cases found
          | some raw =>
            refine (ih (some raw) (some head)).mono ?_
            rintro r rest ⟨_, loop⟩ _
            obtain ⟨_, found, reads⟩ := loop head rfl
            cases found
            obtain ⟨same, unread⟩ := rest (.some reads)
            exact ⟨same, fun none _ => unread none (.inl rfl)⟩
        · refine .pure ?_
          rintro ⟨failed, _⟩ _
          obtain ⟨unreadable, unclean⟩ := failed rfl
          simp only [unreadable]
          exact ⟨.none, fun _ _ => unclean⟩
      next notFor =>
        refine (ih written found).mono fun r rest rel => ?_
        obtain ⟨same, unread⟩ := rest rel
        refine ⟨same, fun none some => unread none (some.imp_right ?_)⟩
        rintro ⟨d', member, isFor⟩
        rcases mem_cons.mp member with here | later
        · cases here
          simp [isFor] at notFor
        · exact ⟨d', later, isFor⟩

theorem yields_keepSlotLoop (head props) :
    Yields S scope (keepSlotLoop head props)
      (PropsChange (Directive.KeepsLoop (ReadIn S scope) head) props) :=
  Binds.logic.keepSlotLoop (fun e => yields_process e .expression (by simp)) head props

end Lower

/-! ## Rules for nodes -/

inductive ElementProp.Styles : ElementProp → ElementProp → Prop
  | same {p} : Styles p p
  | style {a d} : d.name = "bind" →
      (∀ P bound, d.Resolved P bound) → Styles (.attribute a) (.directive d)

theorem ElementProp.Styles.bindStyle {p p' : ElementProp} (styles : p.Styles p') :
    p.Styles (bindStyle p') := by
  cases styles with
  | style isBind resolved => exact .style isBind resolved
  | same =>
    unfold Stencil.bindStyle
    split
    · split
      · refine .style rfl fun P bound => ⟨fun a member => ?_, fun _ _ e member => ?_, ?_⟩
        · cases member
          exact .static rfl
        · cases member
          exact .made (.style _)
        · exact fun isOn => absurd isOn (by simp)
      · exact .same
    · exact .same

/-- An element before and after some rules. -/
structure Element.Styles (el el' : Element) : Prop where
  kind : el'.kind = el.kind
  lowered : el'.lowered = el.lowered
  props : List.Forall₂ ElementProp.Styles el.props el'.props

namespace Element.Styles

variable {el el' : Element}

theorem refl (el : Element) : el.Styles el :=
  ⟨rfl, rfl, forall₂_same.mpr fun _ _ => .same⟩

variable (styles : el.Styles el')
include styles

theorem bindStyle :
    el.Styles { el' with props := el'.props.map bindStyle } :=
  ⟨styles.kind, styles.lowered,
    forall₂_map_right_iff.mpr (styles.props.imp fun _ _ => ElementProp.Styles.bindStyle)⟩

theorem find? (other : name ≠ "bind") : el'.find? name = el.find? name := by
  have changes := styles.props
  unfold Element.find?
  generalize el.props = props, el'.props = props' at changes
  induction changes with
  | nil => rfl
  | cons first _ ih =>
    cases first with
    | same => simp [findSome?_cons, ih]
    | @style a d isBind _ =>
      have skipped : (directive d).named? name = none := by
        simp [named?, isBind, other.symm]
      simp only [findSome?_cons, skipped]
      exact ih

theorem resolved {P bound} (resolved : ResolvedProps P bound el.props) :
    ResolvedProps P bound el'.props := by
  intro d member
  obtain ⟨p, before, styled⟩ := exists_of_mem_forall₂ styles.props member
  cases styled with
  | same => exact resolved d before
  | style _ isResolved => exact isResolved P bound

end Element.Styles

namespace Lower

theorem yields_applyNodeRules (hasChildren el rules) :
    Yields S scope (applyNodeRules hasChildren { element := el } rules) fun r =>
      el.Styles r.element :=
  (Binds.logic.applyNodeRules (I := el.Styles) (fun _ styles => styles.bindStyle) hasChildren _
    rules).mono fun _ kept => (kept (.refl el)).1

end Lower

end Stencil
