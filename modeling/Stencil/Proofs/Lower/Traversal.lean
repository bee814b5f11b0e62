import Stencil.Proofs.Lower.Visiting

/-! # What a visit keeps

A visit leaves the names in scope and the depths of loops and slots as they were, so what is true of
them at a place depends on the loops and slots around the place alone. Something that each way to
lower a node keeps true of the siblings so far is therefore true of a whole lowered template.
-/

namespace Stencil

open List Lower Element

/-- The names in scope and the depths of loops and slots are the same in two contexts. -/
structure Context.Balanced (before after : Context) : Prop where
  scope : after.scope = before.scope
  loopDepth : after.loopDepth = before.loopDepth
  slotDepth : after.slotDepth = before.slotDepth

namespace Lower

variable {α β : Type}

/-- A step that, run where `fits` holds of the names in scope and the depths of loops and slots,
    leaves them as they were and gives what has the property `Q`. -/
def Within (o : Options) (fits : List ScopeVar → Nat → Nat → Prop) (act : Lower α) (Q : α → Prop) :
    Prop :=
  ∀ c : Context, fits c.scope c.loopDepth c.slotDepth →
    c.Balanced (exec act o c).2 ∧ Q (exec act o c).1

namespace Within

variable {act : Lower α} {Q : α → Prop}

theorem pure (holds : Q a) : Within o fits (Pure.pure a) Q :=
  fun _ _ => ⟨⟨rfl, rfl, rfl⟩, holds⟩

theorem bind {next : α → Lower β} (first : Within o fits act Q)
    (second : ∀ a, Q a → Within o fits (next a) R) : Within o fits (act >>= next) R := by
  intro c here
  obtain ⟨before, holds⟩ := first c here
  have there := here
  rw [← before.scope, ← before.loopDepth, ← before.slotDepth] at there
  obtain ⟨after, result⟩ := second _ holds _ there
  exact ⟨⟨after.scope.trans before.scope, after.loopDepth.trans before.loopDepth,
    after.slotDepth.trans before.slotDepth⟩, result⟩

variable {P : Setting → List ScopeVar → α → Prop}

section

variable (yields : ∀ S scope, Yields S scope act (P S scope))
include yields

/-- What is known of a step in every scope is known of it in the scope that there is. -/
theorem of_yields
    (holds : ∀ S scope a, P S scope a → Q a) : Within o fits act Q := by
  intro c _
  obtain ⟨frame, scope, result⟩ := yields ⟨o, False, [], []⟩ c.scope c rfl
  exact ⟨⟨scope, frame.loopDepth, frame.slotDepth⟩, holds _ _ _ (result False.elim)⟩

theorem skip : Within o fits act fun _ => True :=
  of_yields yields fun _ _ _ _ => trivial

theorem step (gives : Gives act Q) :
    Within o fits act Q :=
  fun c here => ⟨(skip yields c here).1, gives o c⟩

end

theorem inLoop (enter : ∀ {s l d}, fits s l d → g s (l + 1) d) (inside : Within o g act Q) :
    Within o fits (inLoop act) Q := by
  intro c here
  obtain ⟨balanced, holds⟩ := inside { c with loopDepth := c.loopDepth + 1 } (enter here)
  exact ⟨⟨balanced.scope, congrArg (· - 1) balanced.loopDepth, balanced.slotDepth⟩, holds⟩

theorem inSlot (enter : ∀ {s l d}, fits s l d → g s l (d + 1)) (inside : Within o g act Q) :
    Within o fits (inSlot act) Q := by
  intro c here
  obtain ⟨balanced, holds⟩ := inside { c with slotDepth := c.slotDepth + 1 } (enter here)
  exact ⟨⟨balanced.scope, balanced.loopDepth, congrArg (· - 1) balanced.slotDepth⟩, holds⟩

theorem inScope {binder} {next : β → Lower α} {vars} {P : Setting → List ScopeVar → β → Prop}
    (binds : ∀ S scope, Binds S scope binder (vars ++ scope) (P S scope))
    (inside : ∀ b, Within o (fun s l d => ∃ s', s = vars ++ s' ∧ fits s' l d) (next b) Q) :
    Within o fits (inScope (binder >>= next)) Q := by
  intro c here
  obtain ⟨frame, scope, -⟩ : Frame c (exec binder o c).2 ∧
      (exec binder o c).2.scope = vars ++ c.scope ∧ _ := binds ⟨o, False, [], []⟩ c.scope c rfl
  have there := here
  rw [← frame.loopDepth, ← frame.slotDepth] at there
  obtain ⟨balanced, holds⟩ := inside (exec binder o c).1 (exec binder o c).2 ⟨_, scope, there⟩
  rw [exec_inScope]
  refine ⟨⟨?_, balanced.loopDepth.trans frame.loopDepth, balanced.slotDepth.trans frame.slotDepth⟩,
    holds⟩
  simp [Context.leave, Context.enter, balanced.scope, scope]

theorem weaken (within : Within o g act Q) (fitting : ∀ {s l d}, fits s l d → g s l d) :
    Within o fits act Q :=
  fun c here => within c (fitting here)

end Within

theorem yields_dropsComments : Yields S scope dropsComments fun _ => True :=
  Binds.read.bind fun _ => .pure fun _ => trivial

end Lower

/-! ## Places -/

/-- What opens a scope for the nodes below it. -/
inductive Construct where
  | loop
  | slot

def Element.constructs (el : Element) : List Construct :=
  if opensSlot el && el.has "slot" then [.slot] else []

theorem Element.constructs_eq {el el' : Element} (kind : el'.kind = el.kind)
    (slot : el'.has "slot" = el.has "slot") : el'.constructs = el.constructs := by
  rw [constructs, constructs, opensSlot, opensSlot, kind, slot]

namespace Lower

/-- What a visit needs to know to keep something true of the siblings that it has lowered, the newest
    first, inside any constructs. It starts from elements with code for which `starts` holds. -/
structure VisitRules (o : Options) (starts : Option RenderNode → Prop)
    (fits : List Construct → List ScopeVar → Nat → Nat → Prop)
    (Holds : List Construct → List TemplateNode → Prop) : Prop where
  enterLoop {k s l d} (names : List String) :
    fits k s l d → fits (.loop :: k) (scopeVars .loop names ++ s) (l + 1) d
  enterSlot {k s l d} (names : List String) :
    fits k s l d → fits (.slot :: k) (scopeVars .slot names ++ s) l (d + 1)
  enterSlotLoop {k s l d} (names : List String) :
    fits (.slot :: k) s l d → fits (.slot :: k) (scopeVars .loop names ++ s) l d
  nil {k} : Holds k []
  leaf {k node done} : node.isLeaf = true → Holds k done → Holds k (node :: done)
  merge {k nodes} (direct : Bool) :
    Holds k nodes.reverse → Gives (mergeText direct nodes) fun r => Holds k r.reverse
  element {k el children done} {c : Context} : starts el.lowered →
    fits k c.scope c.loopDepth c.slotDepth → Holds (el.constructs ++ k) children.reverse →
    Holds k done → Holds k (.element (exec (lowerKind el children) o c).1 children :: done)
  loop {k head items done span} (v : VNode) : Holds (.loop :: k) items.reverse → Holds k done →
    Holds k (.loop head items (some (.vnode v)) span :: done)
  start {k b done} : Holds k b.children.reverse → Holds k done →
    Gives (startConditional b done) fun node => Holds k (node :: done)
  extend {k b c done} : Holds k b.children.reverse → Holds k done → openConditional? done = some c →
    Gives (extendConditional c b) fun node => Holds k (node :: c.before)

namespace VisitRules

variable {Q : α → Prop} {Holds : List Construct → List TemplateNode → Prop}
  (rules : VisitRules o starts fits Holds) {done : List TemplateNode}
  {el : Element} {kids : Lower (List TemplateNode)} {inner : Element → Lower (List TemplateNode)}
include rules

/-! ## Elements -/

theorem inSlotScope (inside : Within o (fits (el.constructs ++ k)) act Q) :
    Within o (fits k) (inSlotScope el act) Q := by
  unfold Lower.inSlotScope
  split
  next d found =>
    have opens : el.constructs = [.slot] := by
      refine if_pos ?_
      split at found
      next own => simp [opensSlot, own, has, found]
      · cases found
    rw [opens] at inside
    have slot (names : List String) :
        Within o (fun s l d => ∃ s', s = scopeVars .slot names ++ s' ∧ fits k s' l d) (inSlot act) Q := by
      refine .inSlot ?_ inside
      rintro _ _ _ ⟨s, rfl, here⟩
      exact rules.enterSlot names here
    split
    next e _ =>
      show Within o (fits k) (inScope ((bindingNames e >>= bindNames .slot) >>= fun _ => inSlot act)) Q
      exact .inScope (fun _ _ => binds_bindExpression .slot e) fun _ => slot e.names
    · have binds : ∀ S scope, Binds S scope (pure ()) (scopeVars .slot [] ++ scope) fun _ => True :=
        fun _ _ => .pure trivial
      show Within o (fits k) (inScope (pure () >>= fun _ => inSlot act)) Q
      exact .inScope binds fun _ => slot []
  next none =>
    have closed : el.constructs = [] := by
      refine if_neg fun opens => ?_
      rw [Bool.and_eq_true] at opens
      have found : el.find? "slot" = Option.none := (if_pos opens.1).symm.trans none
      simp [has, found] at opens
    rwa [closed] at inside

theorem inSlotLoop {act : Element → Lower α} (inside : ∀ el' : Element, el'.kind = el.kind →
      el'.has "slot" = el.has "slot" → el'.lowered = el.lowered →
      Within o (fits (el.constructs ++ k)) (act el') Q) :
    Within o (fits (el.constructs ++ k)) (inSlotLoop el act) Q := by
  unfold Lower.inSlotLoop
  split
  next isTemplate =>
    have opens : el.constructs = [.slot] := by
      refine if_pos ?_
      rw [isSlotTemplate, Bool.and_eq_true] at isTemplate
      simp [opensSlot, isTemplate]
    refine .bind (.skip fun _ _ => yields_slotLoop? none none el.props) fun found _ => ?_
    split
    next head =>
      refine .inScope (fun _ _ => binds_enterLoop head) fun head' => ?_
      refine .bind (.of_yields (fun _ _ => yields_keepSlotLoop head' el.props) fun _ _ props kept =>
        (has_changes kept "slot" : has { el with props } "slot" = _)) fun props same => ?_
      refine (inside { el with props } rfl same rfl).weaken ?_
      rw [opens]
      rintro _ _ _ ⟨s, rfl, here⟩
      exact rules.enterSlotLoop head.names here
    · exact inside el rfl rfl rfl
  · exact inside el rfl rfl rfl

variable (below : ∀ k, Within o (fits k) kids fun r => Holds k r.reverse)
include below

theorem lowerContent (hasChildren) (el : Element) :
    Within o (fits (el.constructs ++ k)) (lowerContent hasChildren kids el) fun content =>
      el.Styles content.element ∧ ∀ children ∈ content.children,
        Holds (content.element.constructs ++ k) children.reverse := by
  refine .bind (.skip fun _ _ => Binds.read) fun o' _ => ?_
  refine .bind (.of_yields (fun _ _ => yields_applyNodeRules hasChildren el o'.nodeRules)
    fun _ _ _ => id) fun ruled styles => ?_
  have same : ruled.element.constructs = el.constructs :=
    constructs_eq styles.kind (by simp [has, styles.find?])
  split
  · exact .pure ⟨styles, by simp⟩
  · have lowered : Within o (fits (el.constructs ++ k)) (if ruled.stripped then pure [] else kids)
        fun children => Holds (el.constructs ++ k) children.reverse := by
      split
      · exact .pure rules.nil
      · exact below _
    rw [bind_ite]
    refine .bind lowered fun children inside => ?_
    refine .bind (.skip fun _ _ => yields_takesText ruled.element) fun direct _ => ?_
    refine .bind (.step (fun _ _ => yields_mergeText direct children) (rules.merge direct inside))
      fun merged joined => .pure ⟨styles, ?_⟩
    rintro _ ⟨⟩
    rwa [same]

theorem visitPlain (hasChildren) (unlowered : starts el.lowered) (before : Holds k done) :
    Within o (fits k) (visitPlain el hasChildren kids done) fun v => Holds k v.done := by
  refine .bind (.skip fun _ _ => yields_processProps (el.has "for") el.props) fun props _ => ?_
  refine .bind (Q := fun content => starts content.element.lowered ∧ ∀ children ∈ content.children,
      Holds (content.element.constructs ++ k) children.reverse)
    (rules.inSlotScope (rules.inSlotLoop fun el' kind slot lowered => ?_)) fun content inside => ?_
  · rw [← constructs_eq kind slot]
    intro c here
    obtain ⟨balanced, styles, holds⟩ := rules.lowerContent below hasChildren el' c here
    exact ⟨balanced, by rwa [styles.lowered, lowered], holds⟩
  · split
    · exact .pure before
    next children found =>
      intro c here
      refine ⟨(Within.skip (fun S scope =>
        yields_lowerKind content.element children (.ofScope S scope)) c here).1, ?_⟩
      exact rules.element inside.1 here (inside.2 children found) before

section Inner

variable (el) (within : ∀ k (el : Element), starts el.lowered →
  Within o (fits k) (inner el) fun r => Holds k r.reverse) (unlowered : starts el.lowered)
include within unlowered

theorem visitLoop (children) (before : Holds k done) :
    Within o (fits k) (visitLoop el children kids inner done) fun v => Holds k v.done := by
  unfold Lower.visitLoop
  split
  · exact rules.visitPlain below _ unlowered before
  next d _ =>
    refine .bind (.skip fun _ _ => yields_loopHead? d) fun found _ => ?_
    split
    · exact rules.visitPlain below _ unlowered before
    next head =>
      refine .inScope (fun _ _ => binds_enterLoop head) fun head' => ?_
      refine .inLoop (g := fits (.loop :: k))
        (by rintro _ _ _ ⟨s, rfl, here⟩; exact rules.enterLoop head.names here) ?_
      refine .bind (.skip fun S scope =>
        (scripting_emitted (.ofScope S scope)).itemKey? (el.erase "for") children) fun key _ => ?_
      have lowered : Within o (fits (.loop :: k)) (if (el.erase "for").kind == .template then kids
          else inner (el.erase "for")) fun items => Holds (.loop :: k) items.reverse := by
        split
        · exact below _
        · exact within _ _ unlowered
      have isNode : ∀ source params item flag isStable span,
          Gives (loopCode source params item flag isStable span) fun code => ∃ v, code = .vnode v :=
        fun _ _ _ _ _ _ _ _ => ⟨_, rfl⟩
      rw [bind_ite]
      refine .bind lowered fun items inside => ?_
      refine .bind (.step (fun _ _ => yields_mergeText false items) (rules.merge false inside))
        fun items joined => ?_
      refine .bind (.skip fun _ _ => yields_itemCode items key _) fun item _ => ?_
      refine .bind (.step (fun _ _ => yields_loopCode _ _ item _ _ _) (isNode _ _ _ _ _ _)) ?_
      rintro _ ⟨v, rfl⟩
      exact .pure (rules.loop v joined before)

theorem visitBranch (condition) :
    Within o (fits k) (visitBranch el condition kids inner) fun b => Holds k b.children.reverse := by
  have lowered : Within o (fits k) (if el.kind == .template && !el.has "for" then kids
      else inner el) fun items => Holds k items.reverse := by
    split
    · exact below k
    · exact within k el unlowered
  unfold Lower.visitBranch
  rw [bind_ite]
  exact .bind lowered fun items inside => .bind (.step (fun _ _ => yields_mergeText false items)
    (rules.merge false inside)) fun _ joined => .pure joined

theorem visitIf (d) (before : Holds k done) :
    Within o (fits k) (visitIf d el kids inner done) fun v => Holds k v.done := by
  refine .bind (.skip fun S scope => (scripting_emitted (.ofScope S scope)).branchCondition d)
    fun condition _ => ?_
  refine .bind (rules.visitBranch (el.erase "if") below within unlowered _) fun b inside => ?_
  exact .bind (.step (fun _ _ => yields_startConditional b done) (rules.start inside before))
    fun node joined => .pure joined

theorem visitElse (d) (found : openConditional? done = some c) (before : Holds k done) :
    Within o (fits k) (visitElse c d el kids inner) fun v => Holds k v.done := by
  have condition : ∀ S scope, Yields S scope (if d.name == "else-if" then
      some <$> branchCondition d else pure none) fun _ => True := by
    intro S scope
    split
    · exact ((scripting_emitted (.ofScope S scope)).branchCondition d).map fun _ _ => trivial
    · exact .pure trivial
  unfold Lower.visitElse
  rw [bind_ite]
  exact .bind (.skip condition) fun condition _ =>
    .bind (rules.visitBranch (el.erase d.name) below within unlowered condition) fun b inside =>
      .bind (.step (fun _ _ => yields_extendConditional c b) (rules.extend inside before found))
        fun node joined => .pure joined

end Inner

/-- The induction is on the structural directives that are left. -/
theorem visitElement (fuel) (el : Element) (children) (unlowered : starts el.lowered)
    (before : Holds k done) :
    Within o (fits k) (visitElement fuel el children kids done) fun v => Holds k v.done := by
  induction fuel generalizing k el done with
  | zero => exact rules.visitPlain below _ unlowered before
  | succ fuel ih =>
    have within : ∀ k (el : Element), starts el.lowered →
        Within o (fits k) (visitElement fuel el children kids [] >>= fun v =>
          pure v.done.reverse) fun r => Holds k r.reverse := fun k el unlowered =>
      .bind (ih el unlowered rules.nil) fun v inside => .pure (by rwa [reverse_reverse])
    rw [visitElement]
    split
    · exact rules.visitPlain below _ unlowered before
    · split
      · exact rules.visitIf el below within unlowered _ before
      · split
        next c found => exact rules.visitElse el below within unlowered _ found before
        · exact .bind (.skip fun _ _ => Binds.error _ _) fun _ _ =>
            rules.visitIf el.elseIfToIf below within unlowered _ before
      · split
        next c found => exact rules.visitElse el below within unlowered _ found before
        · exact .bind (.skip fun _ _ => Binds.error _ _) fun _ _ =>
            rules.visitLoop (el.erase "else") below within unlowered children before
      · exact rules.visitLoop el below within unlowered children before

/-! ## Siblings -/

omit rules below in
theorem visitNodes (each : ∀ node ∈ nodes, ∀ {done}, Holds k done →
      Within o (fits k) (visitNode done node) fun v => Holds k v.done) (skip)
    (before : Holds k done) :
    Within o (fits k) (visitNodes skip done nodes) fun r => Holds k r.reverse := by
  induction nodes generalizing skip done with
  | nil =>
    exact .pure (by rwa [reverse_reverse])
  | cons node nodes ih =>
    have later := fun skip {done} =>
      @ih done (fun n member => each n (mem_cons_of_mem node member)) skip
    cases skip with
    | succ skip =>
      exact later skip before
    | zero =>
      exact .bind (each node mem_cons_self before) fun v inside => later v.skip inside

variable (fresh : starts none)
include fresh

omit below in
theorem visitNode {node : TemplateNode} (written : node.Written) (before : Holds k done) :
    Within o (fits k) (visitNode done node) fun v => Holds k v.done := by
  induction written generalizing k done with
  | element written _ ih =>
    refine rules.visitElement (fun k => ?_) _ _ _ (by rwa [written.lowered]) before
    exact visitNodes (fun node member _ inside => ih node member inside) 0 rules.nil
  | text =>
    exact .pure (rules.leaf rfl before)
  | comment =>
    refine .bind (.skip fun _ _ => yields_dropsComments) fun _ _ => ?_
    split
    · exact .pure before
    · exact .pure (rules.leaf rfl before)
  | interpolation =>
    exact .bind (.skip fun _ _ => yields_process _ .expression (by simp)) fun _ _ =>
      .pure (rules.leaf rfl before)

omit below in
/-- What is kept holds of a whole lowered template. -/
theorem lowerRoot (written : ∀ node ∈ nodes, node.Written)
    (outside : fits [] [] 0 0) : Holds [] (exec (lowerRoot nodes) o {}).1.1.reverse := by
  have visited : Within o (fits []) (Lower.visitNodes 0 [] nodes) fun r => Holds [] r.reverse :=
    visitNodes (fun node member _ inside => rules.visitNode fresh (written node member) inside) 0
      rules.nil
  have lowered : Within o (fits []) (Lower.lowerRoot nodes) fun r => Holds [] r.1.reverse :=
    .bind visited fun nodes inside =>
      .bind (.step (fun _ _ => yields_mergeText true nodes) (rules.merge true inside))
        fun merged joined => .bind (.skip fun _ _ => yields_rootCode merged) fun _ _ => .pure joined
  exact (lowered {} outside).2

end VisitRules

/-! ## Lowered nodes -/

def Fits (around : List Construct) (scope : List ScopeVar) (loopDepth slotDepth : Nat) : Prop :=
  loopDepth = 0 → slotDepth = 0 → around = [] ∧ scope = []

end Lower

/-- A node that was lowered inside some constructs, the innermost first, with all nodes below it. -/
inductive TemplateNode.Lowered (o : Options) : List Construct → TemplateNode → Prop
  | element {k el children c} :
      el.lowered = none → Lower.Fits k c.scope c.loopDepth c.slotDepth →
      (∀ child ∈ children, Lowered o (el.constructs ++ k) child) →
      Lowered o k (.element (exec (lowerKind el children) o c).1 children)
  | loop {k head items span} (v : VNode) :
      (∀ item ∈ items, Lowered o (.loop :: k) item) →
      Lowered o k (.loop head items (some (.vnode v)) span)
  | conditional {k branches lowered span} : (∀ b ∈ branches, ∀ child ∈ b.children, Lowered o k child) →
      Lowered o k (.conditional branches lowered span)
  | leaf {k node} : node.isLeaf = true → Lowered o k node

namespace Lower

theorem constructs_lowerKind (el children c) :
    (exec (lowerKind el children) o c).1.constructs = el.constructs := by
  unfold lowerKind
  split <;> rfl

theorem visitRules_lowered (o) : VisitRules o (· = none) Fits fun k done =>
    ∀ node ∈ done, node.Lowered o k where
  enterLoop _ _ := fun none => by cases none
  enterSlot _ _ := fun _ none => by cases none
  enterSlotLoop _ inside := fun noLoop noSlot => by cases (inside noLoop noSlot).1
  nil := by simp
  leaf isLeaf before := forall_mem_cons.mpr ⟨.leaf isLeaf, before⟩
  merge direct lowered := by
    simp only [mem_reverse] at lowered ⊢
    exact (gives_forall_mergeText .leaf direct _).mono fun _ kept => kept lowered
  element unlowered fits inside before := by
    simp only [mem_reverse] at inside
    exact forall_mem_cons.mpr ⟨.element unlowered fits inside, before⟩
  loop v inside before := by
    simp only [mem_reverse] at inside
    exact forall_mem_cons.mpr ⟨.loop v inside, before⟩
  start inside before := by
    exact (Gives.trivial _).bind fun _ _ => .pure (forall_mem_cons.mpr
      ⟨.conditional (by simpa using inside), before⟩)
  extend {k b c done} inside before found := by
    obtain ⟨ignored, -, rfl, -⟩ := eq_of_openConditional? found
    obtain ⟨here, rest⟩ := forall_mem_cons.mp (forall_mem_append.mp before).2
    refine (Gives.trivial _).bind fun _ _ => .pure (forall_mem_cons.mpr ⟨.conditional ?_, rest⟩)
    cases here with
    | conditional branches =>
      exact forall_mem_append.mpr ⟨branches, by simpa using inside⟩
    | leaf isLeaf => cases isLeaf

end Lower

theorem lowered_readTemplate (o source) :
    ∀ node ∈ ((readTemplate o source).1.lower o).1.children, node.Lowered o [] := by
  have lowered := (visitRules_lowered o).lowerRoot rfl (written_readTemplate o source)
    fun _ _ => ⟨rfl, rfl⟩
  exact fun node member => lowered node (mem_reverse.mpr member)

/-- The node stands inside some constructs, the innermost first, among siblings or below them. -/
inductive TemplateNode.Inside (node : TemplateNode) : List Construct → List TemplateNode → Prop
  | here {nodes : List TemplateNode} : node ∈ nodes → Inside node [] nodes
  | element {el children nodes around} :
      .element el children ∈ nodes → Inside node around children →
      Inside node (around ++ el.constructs) nodes
  | loop {head items nodes lowered span around} :
      .loop head items lowered span ∈ nodes → Inside node around items →
      Inside node (around ++ [.loop]) nodes
  | branch {branches lowered span b nodes around} :
      .conditional branches lowered span ∈ nodes → b ∈ branches → Inside node around b.children →
      Inside node around nodes

theorem TemplateNode.Inside.lowered {node : TemplateNode} (inside : node.Inside around nodes)
    (all : ∀ node ∈ nodes, node.Lowered o k) : node.Lowered o (around ++ k) := by
  induction inside generalizing k with
  | here member => exact all _ member
  | element member _ ih =>
    rw [append_assoc]
    cases all _ member with
    | element _ _ below =>
      rw [constructs_lowerKind]
      exact ih below
    | leaf isLeaf => cases isLeaf
  | loop member _ ih =>
    rw [append_assoc]
    cases all _ member with
    | loop _ below => exact ih below
    | leaf isLeaf => cases isLeaf
  | branch member inBranches _ ih =>
    cases all _ member with
    | conditional below => exact ih (below _ inBranches)
    | leaf isLeaf => cases isLeaf

end Stencil
