import Stencil.Proofs.Lower.Steps

/-! # Scripts in properties

The keys and values that attributes and directives are lowered to hold the scripts of the template
and what lowering writes around them.
-/

namespace Stencil

open List RenderNode

def ScopedProps (P : Policy) (bound : List String) (ps : List Property) : Prop :=
  ∀ p ∈ ps, p.key.Emitted P bound ∧ p.value.Scoped P bound

/-- A directive whose scripts are ready to be lowered. Handlers are analysed later. -/
abbrev Directive.Resolved (P : Policy) (bound : List String) (d : Directive) : Prop :=
  d.Ready Expression.Written fun e => e.Emitted P bound

abbrev ResolvedProps (P : Policy) (bound : List String) (props : List ElementProp) : Prop :=
  ReadyProps Expression.Written (fun e => e.Emitted P bound) props

/-- A script that is read as a handler, for the first time or once more. -/
def Expression.Handles (P : Policy) (bound : List String) (e : Expression) : Prop :=
  e.Written ∨ e.Emitted P bound

namespace Lower

theorem yields_handler (e) (around : S.Around bound scope) :
    Yields S scope (handler e) fun e' => e.Handles S.policy bound → e'.Emitted S.policy bound := by
  unfold handler
  split
  · refine ((yields_process e .expression (by decide)).both
      (yields_process_again e .expression (by decide) around)).mono ?_
    rintro e' ⟨once, again⟩ handles
    rcases handles with written | emitted
    · exact once written fun u _ => around.script u
    · rcases again with same | reads | ⟨unclean, dynamic⟩
      · rwa [same]
      · exact .again emitted reads
      · exact .raw unclean dynamic
  · have event : S.Around ("$event" :: bound) ([⟨"$event", .handler⟩] ++ scope) := by
      have same : ∀ name, scopeHas [⟨"$event", .handler⟩] name = true ↔ name ∈ ["$event"] := by
        intro name
        simp only [scopeHas, any_cons, any_nil, Bool.or_false, beq_iff_eq, mem_singleton]
        exact eq_comm
      exact around.append same
    have named : Binds S scope (bindName "$event" .handler)
        ([⟨"$event", .handler⟩] ++ scope) fun _ => True :=
      fun c same => ⟨⟨rfl, rfl, prefix_refl _⟩, congrArg _ same, fun _ => trivial⟩
    have body : Yields S scope (inScope (bindName "$event" .handler >>= fun _ =>
        process e .statements)) fun e' =>
          (e.Written → e'.Emitted S.policy ("$event" :: bound)) ∧
            (e' = e ∨ e.Rereads S.policy ("$event" :: bound) e' ∨
              ¬ S.clean ∧ e'.renderLevel = .dynamic) := by
      refine .inScope (named.bind fun _ =>
        ((yields_process e .statements (by decide)).both
          (yields_process_again e .statements (by decide) event)).mono ?_)
      rintro e' ⟨once, again⟩ _
      exact ⟨fun written => once written fun u _ => event.script u, again⟩
    refine body.bind fun e' => .pure ?_
    rintro ⟨once, again⟩ handles
    have arrow : ∀ before after, (before, after) ∈
        [("$event => \x7b", "\x7d"), ("$event => (", ")")] →
        (Expression.around [.raw before, .expr e', .raw after] e).Emitted S.policy bound := by
      intro before after arrow
      rcases handles with written | emitted
      · exact .handler arrow (once written)
      · rcases again with same | reads | ⟨unclean, -⟩
        · exact .rehandled arrow emitted (.inl same)
        · exact .rehandled arrow emitted (.inr reads)
        · exact .raw unclean rfl
    split <;> exact arrow _ _ (by simp)

/-- The scripts that lowering puts into properties are emitted as they should be. -/
theorem scripting_emitted (around : S.Around bound scope) :
    Scripting S.options (Yields S scope) Expression.Written (fun e => e.Handles S.policy bound)
      (fun e => e.Emitted S.policy bound) fun node => node.Scoped S.policy bound where
  toLogic := Binds.logic
  static := .static
  made := .made
  around := .around
  process e mode kind := (yields_process e mode kind).mono fun _ emitted written =>
    emitted written fun u _ => around.script u
  handler e := yields_handler e around
  written := .inl
  reread _ _ _ := .inr
  bare unread written := by
    obtain ⟨source, span, rfl⟩ := written
    exact .unread unread fun _ u _ => around.script u
  assembles := assembles_scoped S.policy bound
  expr := scoped_expr.mpr
  call unary inside := scoped_call.mpr ⟨unary, inside⟩

theorem yields_runtimeArguments (d) (around : S.Around bound scope) :
    Yields S scope (runtimeArguments d) fun node =>
      Scripting.Lowered (fun e => e.Emitted S.policy bound) d.directive →
      node.Scoped S.policy bound := by
  obtain ⟨dir, source⟩ := d
  have arguments {first : RenderNode} (inside : first.Scoped S.policy bound)
      (lowered : Scripting.Lowered (fun e => e.Emitted S.policy bound) dir) :
      (dir.arguments first).Scoped S.policy bound :=
    (scripting_emitted around).arguments lowered inside
  cases source with
  | helper h => exact .pure (arguments (scoped_helper h))
  | resolve =>
    exact (Binds.useDirective dir.name).bind fun _ => .pure fun _ =>
      arguments (scoped_script (.directive dir.name))

theorem yields_runtimeArgumentList (ds) (around : S.Around bound scope) :
    Yields S scope (runtimeArgumentList ds) fun nodes =>
      (∀ d ∈ ds, Scripting.Lowered (fun e => e.Emitted S.policy bound) d.directive) →
      ∀ node ∈ nodes, node.Scoped S.policy bound := by
  induction ds with
  | nil => exact .pure fun _ => by simp
  | cons d ds ih =>
    refine (yields_runtimeArguments d around).bind fun first => ih.bind fun rest => .pure ?_
    intro others this lowered
    obtain ⟨head, tail⟩ := forall_mem_cons.mp lowered
    exact forall_mem_cons.mpr ⟨this head, others tail⟩

theorem yields_resolveTag (el) (around : S.Around bound scope) :
    Yields S scope (resolveTag el) fun tag => ResolvedProps S.policy bound el.props →
      ∀ node ∈ tag.parts, node.Scoped S.policy bound := by
  unfold resolveTag
  split
  · exact .pure fun _ => by simp [Tag.parts]
  · split
    next node found =>
      refine .pure fun resolved => ?_
      have inside := (scripting_emitted around).dynamicTag? resolved node found
      have call : (RenderNode.call .resolveDynamicComponent [node]).Scoped S.policy bound :=
        scoped_call.mpr ⟨fun _ => Nat.le_refl _, by simpa using inside⟩
      simpa [Tag.parts] using call
    · exact (Binds.useComponent el.tag).bind fun _ => .pure fun _ _ => by simp [Tag.parts]

end Lower

end Stencil
