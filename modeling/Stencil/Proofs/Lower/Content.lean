import Stencil.Proofs.Lower.Code
import Stencil.Proofs.Lower.Directives
import Stencil.Proofs.Lower.LoopHeads

/-! # Scripts in the code of lowered nodes

The code of a lowered node is put into the code of its parent: as it is, with a key, as a branch of
a conditional or as the item of a loop.
-/

namespace Stencil

open List RenderNode Option Script

/-- A lowered node whose code can stand below functions that bind the names `bound`. -/
inductive TemplateNode.Ready (P : Policy) (bound : List String) : TemplateNode → Prop
  | lowered {el children node} :
      el.lowered = some node → node.Scoped P bound → Ready P bound (.element el children)
  | fragment {el children} :
      el.lowered = none → (∀ child ∈ children, Ready P bound child) →
      Ready P bound (.element el children)
  | text {t} : Ready P bound (.text t)
  | comment {c} : Ready P bound (.comment c)
  | interpolation {content span} :
      content.Emitted P bound → Ready P bound (.interpolation content span)
  | conditional {branches lowered span} :
      (∀ node ∈ lowered, node.Scoped P bound) → Ready P bound (.conditional branches lowered span)
  | loop {head children lowered span} :
      (∀ node ∈ lowered, node.Scoped P bound) → Ready P bound (.loop head children lowered span)
  | textCall {t} :
      (RenderNode.textCall t).Scoped P bound → Ready P bound (.textCall t)
  | compound {c} :
      (∀ part ∈ c.parts, part.InRun) →
      (∀ content span, .interpolation content span ∈ c.parts → content.Emitted P bound) →
      Ready P bound (.compound c)

def LoopHead.names (h : LoopHead) : List String :=
  h.aliases.flatMap Expression.names

def Directive.loopHead? (d : Directive) : Option LoopHead :=
  d.script?.bind LoopHead.read?

/-- A loop as it is written, and the same one with its source read in a scope. -/
structure LoopHead.Reads (S : Setting) (scope : List ScopeVar) (written head : LoopHead) : Prop where
  aliases : head.aliases = written.aliases
  source : ∀ {bound : List String}, (∀ u, uses .expression written.source.source = .ok u →
    S.policy.script bound (scopeHas scope) u) → head.source.Emitted S.policy bound

namespace Lower

theorem scoped_fragment (id span) (inside : ∀ node ∈ nodes, node.Scoped P bound) (isBlock)
    (own : ∀ node ∈ props, node.Scoped P bound) :
    (RenderNode.vnode { fragment id nodes with props, isBlock, span }).Scoped P bound := by
  refine scoped_vnode.mpr ⟨.inr rfl, ?_⟩
  simpa [fragment, VNode.parts, VNode.new, Tag.parts, or_imp, forall_and]
    using ⟨own, inside⟩

theorem scoped_placeholder : RenderNode.placeholder.Scoped P bound := by
  refine scoped_call.mpr ⟨fun h => absurd h (by decide), ?_⟩
  simp only [forall_mem_cons]
  exact ⟨scoped_string _, scoped_script (.word (by simp)), by simp⟩

mutual
theorem yields_code : (node : TemplateNode) → Yields S scope (code node) fun result =>
    ∀ bound, node.Ready S.policy bound → result.Scoped S.policy bound
  | .element el children => by
      rw [code]
      cases lowered : el.lowered with
      | some node =>
        refine .pure fun bound ready => ?_
        cases ready with
        | lowered same inside =>
          cases lowered.symm.trans same
          exact inside
        | fragment none _ => cases lowered.symm.trans none
      | none =>
        refine Binds.fresh.bind fun id => (yields_codes children).bind fun nodes => ?_
        refine .pure fun inside _ bound ready => ?_
        cases ready with
        | lowered same _ => cases lowered.symm.trans same
        | fragment _ below =>
          exact scoped_fragment id _ (inside bound below) _ (by rintro _ ⟨⟩)
  | .text t => by
      exact .pure fun _ _ => scoped_text t
  | .interpolation content span => by
      refine .pure fun _ ready => ?_
      cases ready with
      | interpolation emitted => exact scoped_interpolation.mpr emitted
  | .comment c => by
      exact .pure fun _ _ => scoped_comment c
  | .conditional branches lowered span => by
      refine .pure fun _ ready => ?_
      cases ready with
      | conditional inside =>
        cases lowered with
        | none => exact scoped_placeholder
        | some node => exact inside node rfl
  | .loop head children lowered span => by
      refine .pure fun _ ready => ?_
      cases ready with
      | loop inside =>
        cases lowered with
        | none => exact scoped_script (.word (by simp))
        | some node => exact inside node rfl
  | .textCall t => by
      refine .pure fun _ ready => ?_
      cases ready with
      | textCall inside => exact inside
  | .compound c => by
      refine .pure fun _ ready => ?_
      cases ready with
      | compound parts emitted => exact scoped_expr.mpr (.run parts emitted)

theorem yields_codes : (nodes : List TemplateNode) → Yields S scope (codes nodes) fun results =>
    ∀ bound, (∀ node ∈ nodes, node.Ready S.policy bound) →
      ∀ result ∈ results, result.Scoped S.policy bound
  | [] => .pure fun _ _ => by simp
  | node :: nodes => by
      refine (yields_code node).bind fun first => (yields_codes nodes).bind fun rest => ?_
      refine .pure fun others this bound ready => ?_
      obtain ⟨head, tail⟩ := forall_mem_cons.mp ready
      exact forall_mem_cons.mpr ⟨this bound head, others bound tail⟩
end

/-! ## Keys -/

theorem scoped_inject (new : p.key.Emitted P bound ∧ p.value.Scoped P bound)
    {node : RenderNode} (inside : node.Scoped P bound) : (node.inject p).Scoped P bound := by
  unfold inject
  split
  next v =>
    obtain ⟨refs, parts⟩ := scoped_vnode.mp inside
    refine scoped_vnode.mpr ⟨refs, ?_⟩
    simp only [VNode.parts, forall_mem_append] at parts ⊢
    obtain ⟨⟨⟨tag, props⟩, children⟩, directives⟩ := parts
    refine ⟨⟨⟨tag, ?_⟩, children⟩, directives⟩
    simpa using (assembles_scoped P bound).injectProps new fun node member => props node (mem_toList.mpr member)
  next callee args =>
    split
    next isOutlet =>
      have outlet : ∀ {args : List RenderNode}, (∀ node ∈ args, node.Scoped P bound) →
          (RenderNode.call callee args).Scoped P bound := fun inside =>
        scoped_call.mpr ⟨fun h => absurd h (by rw [isOutlet]; decide), inside⟩
      have own : (RenderNode.object [p]).Scoped P bound :=
        scoped_object.mpr (by simpa using new)
      have blank : (RenderNode.script "\x7b\x7d").Scoped P bound :=
        scoped_script (.word (by simp))
      have args := (scoped_call.mp inside).2
      split
      next slots name props rest =>
        simp only [forall_mem_cons] at args
        obtain ⟨slots, name, props, rest⟩ := args
        refine outlet ?_
        simp only [forall_mem_cons]
        refine ⟨slots, name, (assembles_scoped P bound).injectProps new ?_, rest⟩
        intro node member
        split at member <;> cases member
        exact props
      · simp only [forall_mem_cons] at args
        refine outlet ?_
        simp only [forall_mem_cons]
        exact ⟨args.1, args.2.1, own, by simp⟩
      · simp only [forall_mem_cons] at args
        refine outlet ?_
        simp only [forall_mem_cons]
        exact ⟨args.1, blank, own, by simp⟩
      · refine outlet ?_
        simp only [forall_mem_cons]
        exact ⟨blank, blank, own, by simp⟩
    · exact inside
  · exact inside

theorem scoped_keyProperty (P bound key) :
    (keyProperty key).key.Emitted P bound ∧ (keyProperty key).value.Scoped P bound :=
  ⟨.static rfl, scoped_constant (.key key)⟩

theorem scoped_attachAlternate {node alternate : RenderNode} (inside : node.Scoped P bound)
    (new : alternate.Scoped P bound) : (node.attachAlternate alternate).Scoped P bound := by
  have added := attached node alternate
  generalize node.attachAlternate alternate = result at added ⊢
  induction added with
  | last =>
    obtain ⟨test, consequent, -⟩ := scoped_conditional.mp inside
    exact scoped_conditional.mpr ⟨test, consequent, new⟩
  | chain _ ih =>
    obtain ⟨test, consequent, rest⟩ := scoped_conditional.mp inside
    exact scoped_conditional.mpr ⟨test, consequent, ih rest⟩
  | other => exact inside

/-! ## Runs of text -/

/-- A property of siblings that says of text no more than that its code is ready. -/
structure KeepsRuns (P : Policy) (bound : List String) (T : TemplateNode → Prop) : Prop where
  ready {node : TemplateNode} : (node.isText || node.isCompound) = true → T node →
    node.Ready P bound
  compound {c : Compound} : TemplateNode.Ready P bound (.compound c) → T (.compound c)
  textCall {t : TextCall} : TemplateNode.Ready P bound (.textCall t) → T (.textCall t)

theorem ready_run {node : TemplateNode} (joins : (node.isText || node.isCompound) = true)
    (ready : node.Ready P bound) : TemplateNode.Ready P bound (.compound node.run) := by
  cases ready with
  | lowered | fragment | comment | conditional | loop | textCall => cases joins
  | text => exact .compound (by simp [TemplateNode.run, Part.InRun.text]) (by simp [TemplateNode.run])
  | interpolation emitted =>
    refine .compound (by simp [TemplateNode.run, Part.InRun.interpolation]) ?_
    intro content span member
    cases mem_singleton.mp member
    exact emitted
  | compound parts emitted => exact .compound parts emitted

theorem ready_join (left : TemplateNode.Ready P bound (.compound a))
    (right : TemplateNode.Ready P bound (.compound b)) :
    TemplateNode.Ready P bound (.compound (a.join b)) := by
  cases left with
  | compound leftParts leftEmitted =>
    cases right with
    | compound rightParts rightEmitted =>
      refine .compound ?_ ?_
      · exact forall_mem_append.mpr ⟨leftParts,
          forall_mem_cons.mpr ⟨.plus, rightParts⟩⟩
      · intro content span member
        rcases mem_append.mp member with inLeft | inRight
        · exact leftEmitted content span inLeft
        · rcases mem_cons.mp inRight with plus | inRight
          · cases plus
          · exact rightEmitted content span inRight

namespace KeepsRuns

theorem joinRuns (keeps : KeepsRuns P bound T) (holds : ∀ n ∈ nodes, T n) :
    ∀ n ∈ joinRuns nodes, T n := by
  refine forall_mem_joinRuns holds fun last node before here joins isText => ?_
  have isRun : (node.isText || node.isCompound) = true := by simp [isText]
  exact keeps.compound (ready_join (ready_run joins (keeps.ready joins before))
    (ready_run isRun (keeps.ready isRun here)))

end KeepsRuns

theorem yields_textCall (content level span) :
    Yields S scope (textCall content level span) fun node =>
      ∃ t : TextCall, node = .textCall t ∧ t.content = content :=
  Binds.fresh.bind fun _ => .pure fun _ => ⟨_, rfl, rfl⟩

theorem yields_toTextCall (node) :
    Yields S scope (toTextCall node) fun result => ∀ {bound : List String} {T},
      KeepsRuns S.policy bound T → T node → T result := by
  have called : ∀ (content : Option RenderNode) (level : Constancy) (span : Span),
      (node.isText || node.isCompound) = true →
      (∀ bound, node.Ready S.policy bound → ∀ n ∈ content, n.Scoped S.policy bound) →
      Yields S scope (textCall content level span) fun result => ∀ {bound : List String} {T},
        KeepsRuns S.policy bound T → T node → T result := by
    intro content level span isRun inside
    refine (yields_textCall content level span).mono ?_
    rintro _ ⟨t, rfl, same⟩ bound T keeps holds
    refine keeps.textCall (.textCall (scoped_textCall.mpr ?_))
    rw [same]
    exact inside bound (keeps.ready isRun holds)
  cases node with
  | text t =>
    refine called _ _ _ rfl fun bound _ n member => ?_
    split at member <;> cases member
    exact scoped_text t
  | interpolation content span =>
    refine called _ _ _ rfl fun bound ready n member => ?_
    cases member
    cases ready with
    | interpolation emitted => exact scoped_interpolation.mpr emitted
  | compound c =>
    refine called _ _ _ rfl fun bound ready n member => ?_
    cases member
    cases ready with
    | compound parts emitted => exact scoped_expr.mpr (.run parts emitted)
  | _ => exact .pure fun _ holds => holds

theorem yields_toTextCalls (nodes) :
    Yields S scope (toTextCalls nodes) fun results => ∀ {bound : List String} {T},
      KeepsRuns S.policy bound T → (∀ n ∈ nodes, T n) → ∀ n ∈ results, T n := by
  induction nodes with
  | nil => exact .pure fun _ _ => by simp
  | cons node nodes ih =>
    refine (yields_toTextCall node).bind fun first => ih.bind fun rest => .pure ?_
    intro others this bound T keeps holds
    obtain ⟨head, tail⟩ := forall_mem_cons.mp holds
    exact forall_mem_cons.mpr ⟨this keeps head, others keeps tail⟩

theorem yields_mergeText (direct nodes) :
    Yields S scope (mergeText direct nodes) fun results => ∀ {bound : List String} {T},
      KeepsRuns S.policy bound T → (∀ n ∈ nodes, T n) → ∀ n ∈ results, T n := by
  unfold mergeText
  dsimp only
  split
  · exact .pure fun keeps holds => keeps.joinRuns holds
  · exact (yields_toTextCalls _).mono fun results kept bound T keeps holds =>
      kept keeps (keeps.joinRuns holds)

theorem keepsRuns_ready (P bound) : KeepsRuns P bound fun node => node.Ready P bound :=
  ⟨fun _ ready => ready, id, id⟩

/-! ## Conditionals and loops -/

theorem scoped_setBlock (isBlock) (inside : (RenderNode.vnode v).Scoped P bound) :
    (RenderNode.vnode { v with isBlock }).Scoped P bound := by
  obtain ⟨refs, parts⟩ := scoped_vnode.mp inside
  exact scoped_vnode.mpr ⟨refs, by simpa only [VNode.parts] using parts⟩

theorem yields_branchContent (b key) :
    Yields S scope (branchContent b key) fun node => ∀ bound,
      (∀ child ∈ b.children, child.Ready S.policy bound) → node.Scoped S.policy bound := by
  unfold branchContent
  split
  next el children same =>
    refine (yields_code _).bind fun node => ?_
    have one : ∀ bound, (∀ child ∈ b.children, child.Ready S.policy bound) →
        TemplateNode.Ready S.policy bound (.element el children) := fun bound ready =>
      ready _ (by simp [same])
    split
    · exact .pure fun inside bound ready =>
        scoped_inject (scoped_keyProperty _ _ _) (scoped_setBlock true (inside bound (one bound ready)))
    · exact .pure fun inside bound ready =>
        scoped_inject (scoped_keyProperty _ _ _) (inside bound (one bound ready))
  next head children lowered span same =>
    refine (yields_code _).bind fun node => .pure fun inside bound ready => ?_
    exact scoped_inject (scoped_keyProperty _ _ _) (inside bound (ready _ (by simp [same])))
  · refine Binds.fresh.bind fun id => (yields_codes _).bind fun nodes => .pure ?_
    intro inside _ bound ready
    refine scoped_fragment id _ (inside bound ready) _ ?_
    rintro _ ⟨⟩
    exact scoped_object.mpr (by simpa using scoped_keyProperty _ _ key)

theorem yields_branchCode (b key) :
    Yields S scope (branchCode b key) fun node => ∀ bound,
      (∀ child ∈ b.children, child.Ready S.policy bound) →
      (∀ e ∈ b.condition, e.Emitted S.policy bound) → node.Scoped S.policy bound := by
  refine (yields_branchContent b key).bind fun content => ?_
  split
  next condition found =>
    refine .pure fun inside bound ready emitted => scoped_conditional.mpr ?_
    exact ⟨scoped_expr.mpr (emitted condition found), inside bound ready,
      scoped_placeholder⟩
  · exact .pure fun inside bound ready _ => inside bound ready

theorem yields_startConditional (b done) :
    Yields S scope (startConditional b done) fun node => node.isElement = false ∧ ∀ bound,
      (∀ child ∈ b.children, child.Ready S.policy bound) →
      (∀ e ∈ b.condition, e.Emitted S.policy bound) → node.Ready S.policy bound := by
  refine (yields_branchCode b _).bind fun code => .pure fun inside => ⟨rfl, ?_⟩
  refine fun bound ready emitted => .conditional fun node member => ?_
  cases member
  exact inside bound ready emitted

theorem yields_extendConditional (c b) :
    Yields S scope (extendConditional c b) fun node => node.isElement = false ∧ ∀ bound,
      (∀ child ∈ b.children, child.Ready S.policy bound) →
      (∀ e ∈ b.condition, e.Emitted S.policy bound) →
      (∀ node ∈ c.lowered, node.Scoped S.policy bound) → node.Ready S.policy bound := by
  refine (yields_branchCode b _).bind fun code => .pure fun inside => ⟨rfl, ?_⟩
  refine fun bound ready emitted old => .conditional fun node member => ?_
  obtain ⟨chain, found, rfl⟩ := map_eq_some_iff.mp member
  exact scoped_attachAlternate (old chain found) (inside bound ready emitted)

theorem yields_branchCondition (d : Directive) (written : d.Written)
    (around : S.Around bound scope) :
    Yields S scope (branchCondition d) fun e => e.Emitted S.policy bound :=
  ((scripting_emitted around).branchCondition d).mono fun _ emitted => emitted written.exp

theorem yields_itemKey? (el : Element) (written : el.Written) (children)
    (around : S.Around bound scope) :
    Yields S scope (itemKey? el children) fun key => ∀ p ∈ key,
      p.key.Emitted S.policy bound ∧ p.value.Scoped S.policy bound := by
  refine ((scripting_emitted around).itemKey? el children).mono fun key keyed p member => ?_
  refine keyed (fun d inside => ?_) p (mem_toList.mpr member)
  cases written.props _ inside with
  | directive d => exact d.exp

theorem yields_itemCode (children key isStable) :
    Yields S scope (itemCode children key isStable) fun node => ∀ bound,
      (∀ child ∈ children, child.Ready S.policy bound) →
      (∀ p ∈ key, p.key.Emitted S.policy bound ∧ p.value.Scoped S.policy bound) →
      node.Scoped S.policy bound := by
  unfold itemCode
  split
  next el inner =>
    refine (yields_code _).bind fun node => ?_
    have keyed : ∀ bound, (∀ child ∈ [TemplateNode.element el inner],
        child.Ready S.policy bound) →
        (∀ p ∈ key, p.key.Emitted S.policy bound ∧ p.value.Scoped S.policy bound) →
        (∀ bound, TemplateNode.Ready S.policy bound (.element el inner) →
          node.Scoped S.policy bound) →
        (node.withKey key).Scoped S.policy bound := by
      intro bound ready emitted inside
      have one := inside bound (ready _ mem_cons_self)
      cases key with
      | none => exact one
      | some p => exact scoped_inject (emitted _ rfl) one
    dsimp only
    split
    next v same =>
      split
      · exact .pure fun inside bound ready emitted => keyed bound ready emitted inside
      · refine .pure fun inside bound ready emitted => scoped_setBlock _ ?_
        exact same ▸ keyed bound ready emitted inside
    · exact .pure fun inside bound ready emitted => keyed bound ready emitted inside
  · refine Binds.fresh.bind fun id => (yields_codes _).bind fun nodes => .pure ?_
    intro inside _ bound ready emitted
    refine scoped_fragment id _ (inside bound ready) _ fun node member => ?_
    obtain ⟨p, found, rfl⟩ := map_eq_some_iff.mp member
    exact scoped_object.mpr (by simpa using emitted p found)

theorem scoped_renderList {source : Expression} {item : RenderNode}
    (emitted : source.Emitted P bound) (binds : Params P false names bound names params)
    (inside : item.Scoped P (names ++ bound)) : (RenderNode.call .renderList
      [.expr source, .function params (some item) true false]).Scoped P bound := by
  refine scoped_call.mpr ⟨fun h => absurd h (by decide), ?_⟩
  simp only [forall_mem_cons]
  exact ⟨scoped_expr.mpr emitted, .function binds (by simpa using inside), by simp⟩

theorem yields_loopCode (source params item flag isStable span) :
    Yields S scope (loopCode source params item flag isStable span) fun node =>
      ∀ bound names, source.Emitted S.policy bound → Params S.policy false names bound names params →
      item.Scoped S.policy (names ++ bound) → node.Scoped S.policy bound := by
  refine Binds.fresh.bind fun id => .pure fun _ bound names emitted binds inside => ?_
  have list := scoped_renderList emitted binds inside
  refine scoped_vnode.mpr ⟨.inr rfl, ?_⟩
  simpa [VNode.parts, VNode.new, Tag.parts, Children.parts] using list

/-! ## Names of loops -/

theorem written_loopHead {e head} (found : LoopHead.read? e = some head) :
    head.source.Written ∧ ∀ part ∈ head.aliases, part.Written := by
  refine forall_mem_cons.mp fun part isPart => ?_
  obtain ⟨_, _, same, -⟩ := LoopHead.pieceOf_read? found part isPart
  exact ⟨_, _, same⟩

theorem binds_bindAlias (e) :
    Binds S scope (bindAlias e) (scopeVars .loop (e.toList.flatMap Expression.names) ++ scope)
      fun _ => S.clean → ∀ part ∈ e, part.IsPattern := by
  cases e with
  | none => exact .pure fun _ => by simp
  | some e =>
    have binds : Binds S scope _ _ _ := binds_bindExpression .loop e
    simpa [bindAlias] using binds

theorem yields_processAlias (e) :
    Yields S scope (processAlias e) fun e' => e'.isSome = e.isSome ∧
      ∀ {own bound names texts : List String} (filler : String),
        (∀ part ∈ e, part.Written) → (S.clean → ∀ part ∈ e, part.IsPattern) →
        (∀ part ∈ e, ∀ u, uses .params part.source = .ok u →
          S.policy.params own bound (scopeHas scope) u) →
        filler ∈ ["_", "__"] → Params S.policy false own bound names texts →
        Params S.policy false own bound (e.toList.flatMap Expression.names ++ names)
          ((e'.map Expression.code).getD filler :: texts) := by
  cases e with
  | none => exact .pure ⟨rfl, fun _ _ _ _ fills rest => .filler fills rest⟩
  | some e =>
    refine (yields_processParams e).map fun e' params => ⟨rfl, ?_⟩
    intro own bound names texts filler written readable rule _ rest
    simpa [paramText] using
      params (written e rfl) (fun clean => readable clean e rfl) (rule e rfl) rest

theorem scopeVars_append (source names names') :
    scopeVars source (names ++ names') = scopeVars source names' ++ scopeVars source names := by
  simp [scopeVars]

/-- The function that renders an item has the names of the loop. -/
theorem binds_enterLoop (h) :
    Binds S scope (enterLoop h) (scopeVars .loop h.names ++ scope) fun h' =>
      h'.source = h.source ∧ ∀ {own bound : List String}, (∀ part ∈ h.aliases, part.Written) →
        (∀ part ∈ h.aliases, ∀ u, uses .params part.source = .ok u →
          S.policy.params own bound (scopeHas (scopeVars .loop h.names ++ scope)) u) →
        Params S.policy false own bound h.names h'.params := by
  have names : h.names = h.value.toList.flatMap Expression.names ++
      (h.key.toList.flatMap Expression.names ++ h.index.toList.flatMap Expression.names) := by
    simp [LoopHead.names, LoopHead.aliases]
  have vars : scopeVars .loop h.names ++ scope =
      scopeVars .loop (h.index.toList.flatMap Expression.names) ++
        (scopeVars .loop (h.key.toList.flatMap Expression.names) ++
          (scopeVars .loop (h.value.toList.flatMap Expression.names) ++ scope)) := by
    simp [names, scopeVars_append]
  rw [vars]
  refine (binds_bindAlias h.value).bind fun _ => (binds_bindAlias h.key).bind fun _ =>
    (binds_bindAlias h.index).bind fun _ => (yields_processAlias h.value).bind fun value =>
    (yields_processAlias h.key).bind fun key => (yields_processAlias h.index).bind fun index =>
    .pure ?_
  rintro ⟨hasIndex, index'⟩ ⟨hasKey, key'⟩ ⟨hasValue, value'⟩ indexRead keyRead valueRead
  refine ⟨rfl, ?_⟩
  intro own bound written rule
  simp only [LoopHead.aliases, forall_mem_append, mem_toList] at written rule
  obtain ⟨valueWritten, keyWritten, indexWritten⟩ := written
  obtain ⟨valueRule, keyRule, indexRule⟩ := rule
  have withValue {names texts} (rest : Params S.policy false own bound names texts) :=
    value' "_" valueWritten valueRead valueRule (by simp) rest
  have withKey {names texts} (rest : Params S.policy false own bound names texts) :=
    key' "__" keyWritten keyRead keyRule (by simp) rest
  have withIndex := index' "_" indexWritten indexRead indexRule (by simp) .nil
  rw [names]
  -- the last part that is there says how many parameters there are
  cases index with
  | some i => simpa [LoopHead.params] using withValue (withKey withIndex)
  | none =>
    have noIndex : h.index = none := by simpa using hasIndex.symm
    cases key with
    | some k => simpa [LoopHead.params, noIndex] using withValue (withKey .nil)
    | none =>
      have noKey : h.key = none := by simpa using hasKey.symm
      cases value with
      | some v => simpa [LoopHead.params, noIndex, noKey] using withValue .nil
      | none =>
        have noValue : h.value = none := by simpa using hasValue.symm
        simpa [LoopHead.params, noIndex, noKey, noValue] using Params.nil

theorem yields_loopHead? (d) :
    Yields S scope (loopHead? d) fun head? => (head? = none → d.loopHead? = none ∧ ¬ S.clean) ∧
      ∀ head ∈ head?, ∃ written, d.loopHead? = some written ∧ written.Reads S scope head := by
  unfold loopHead? Directive.loopHead?
  split
  next noScript =>
    refine (Binds.error _ _).bind fun _ => .pure fun unclean => ⟨fun _ => ?_, by simp⟩
    exact ⟨by rw [noScript]; rfl, unclean⟩
  next e found =>
    split
    next malformed =>
      refine (Binds.error _ _).bind fun _ => .pure fun unclean => ⟨fun _ => ?_, by simp⟩
      exact ⟨by simpa [found] using malformed, unclean⟩
    next head readable =>
      refine (yields_process head.source .expression (by simp)).bind fun source => ?_
      refine .pure fun emitted => ?_
      refine ⟨by simp, fun _ same => ?_⟩
      obtain rfl := some.inj same
      refine ⟨head, by simpa [found] using readable, rfl, fun rule => ?_⟩
      exact emitted (written_loopHead readable).1 rule

end Lower

end Stencil
