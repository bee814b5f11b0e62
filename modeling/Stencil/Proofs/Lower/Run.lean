import Mathlib.Data.List.Forall2
import Stencil.Lower.Visit

/-! # Running the steps of lowering -/

namespace Stencil

open List

open Script in
theorem Script.process_ok {e : Snippet} (used : uses mode e.content = .ok u) (known : String → Bool)
    (qualify) : ∃ result, process e known qualify mode = .ok result := by
  simp only [process, used, bind, Except.bind]
  split
  · exact ⟨_, rfl⟩
  · split
    · exact ⟨_, rfl⟩
    · exact ⟨_, rfl⟩
    · split <;> exact ⟨_, rfl⟩

theorem exists_of_mem_forall₂ {α β : Type} {R : α → β → Prop} {as bs}
    (related : List.Forall₂ R as bs) {b} (member : b ∈ bs) : ∃ a ∈ as, R a b := by
  induction related with
  | nil => cases member
  | cons first _ ih =>
    rcases mem_cons.mp member with rfl | later
    · exact ⟨_, mem_cons_self, first⟩
    · obtain ⟨a, before, related⟩ := ih later
      exact ⟨a, mem_cons_of_mem _ before, related⟩

def TemplateNode.isLeaf : TemplateNode → Bool
  | .text _ | .interpolation _ _ | .comment _ | .textCall _ | .compound _ => true
  | .element _ _ | .conditional _ _ _ | .loop _ _ _ _ => false

namespace Lower

variable {α β : Type}

/-- What a step gives under given options and in a given context, and the context after it. -/
def exec (act : Lower α) (o : Options) (c : Context) : α × Context :=
  (act.run o).run c

variable (o : Options) (c : Context)

@[simp] theorem exec_pure (a : α) : exec (pure a) o c = (a, c) :=
  rfl

@[simp] theorem exec_bind (act) (next : α → Lower β) :
    exec (act >>= next) o c = exec (next (exec act o c).1) o (exec act o c).2 :=
  rfl

@[simp] theorem exec_map (f : α → β) (act) :
    exec (f <$> act) o c = (f (exec act o c).1, (exec act o c).2) :=
  rfl

@[simp] theorem exec_read : exec read o c = (o, c) :=
  rfl

@[simp] theorem exec_get : exec get o c = (c, c) :=
  rfl

@[simp] theorem exec_modify (f : Context → Context) : exec (modify f) o c = ((), f c) :=
  rfl

@[simp] theorem exec_report (d) : exec (report d) o c = ((), c.report d) :=
  rfl

theorem exec_inScope (act : Lower α) :
    exec (inScope act) o c = ((exec act o c).1, (exec act o c).2.leave c.enter) :=
  rfl

theorem bind_ite [Decidable condition] (act other) (next : α → Lower β) :
    (if condition then act >>= next else other >>= next) =
      (if condition then act else other) >>= next := by
  split <;> rfl

/-- Whatever the options and the context, the result of a step has the property `P`. -/
def Gives (act : Lower α) (P : α → Prop) : Prop :=
  ∀ (o : Options) (c : Context), P (exec act o c).1

variable {act : Lower α}

namespace Gives

variable {P : α → Prop}

theorem pure (holds : P a) : Gives (Pure.pure a) P :=
  fun _ _ => holds

theorem trivial (act : Lower α) : Gives act fun _ => True :=
  fun _ _ => True.intro

theorem mono {R : α → Prop} (gives : Gives act P) (weaker : ∀ a, P a → R a) : Gives act R :=
  fun o c => weaker _ (gives o c)

theorem bind {next : α → Lower β} (first : Gives act P)
    (second : ∀ a, P a → Gives (next a) Q) : Gives (act >>= next) Q :=
  fun o c => second _ (first o c) o _

variable (gives : Gives act P)
include gives

theorem inScope : Gives (inScope act) P :=
  gives

theorem inLoop : Gives (inLoop act) P :=
  fun o c => gives o { c with loopDepth := c.loopDepth + 1 }

theorem inSlot : Gives (inSlot act) P :=
  fun o c => gives o { c with slotDepth := c.slotDepth + 1 }

end Gives

theorem gives_inSlotScope (el : Element) (gives : Gives act P) : Gives (inSlotScope el act) P := by
  unfold inSlotScope
  split
  · refine .inScope ?_
    split
    · exact (Gives.trivial _).bind fun _ _ => (Gives.trivial _).bind fun _ _ => gives.inSlot
    · exact gives.inSlot
  · exact gives

/-! ## Ways to tell what steps give -/

/-- A way to tell what the steps of lowering give under some options. What is known of the result of
    a step need not hold unless the run is one that is asked about, so the next step is judged
    without it. -/
structure Logic (o : Options) (J : {α : Type} → Lower α → (α → Prop) → Prop) : Prop where
  pure {α : Type} {a : α} {Q : α → Prop} : Q a → J (Pure.pure a) Q
  bind {α β : Type} {act : Lower α} {next : α → Lower β} {Q : α → Prop} {R : β → Prop} :
    J act Q → (∀ a, J (next a) fun b => Q a → R b) → J (act >>= next) R
  mono {α : Type} {act : Lower α} {Q R : α → Prop} : J act Q → (∀ a, Q a → R a) → J act R
  get : J get fun _ => True
  read : J read (· = o)
  report (d : Diagnostic) : J (report d) fun _ => True

theorem Logic.error {o} {J : {α : Type} → Lower α → (α → Prop) → Prop} (L : Logic o @J)
    (cause span) : J (error cause span) fun _ => True :=
  L.report _

/-! ## Runs of text -/

/-- A node is put before its elder siblings, or joins the run that ends them. -/
theorem addToRuns_cases (done node) :
    addToRuns done node = node :: done ∨
      ∃ last rest, done = last :: rest ∧ node.isText = true ∧
        (last.isText || last.isCompound) = true ∧
        addToRuns done node = .compound (last.run.join node.run) :: rest := by
  unfold addToRuns
  split
  next isText =>
    split
    next last rest =>
      split
      next joins => exact .inr ⟨last, rest, rfl, isText, joins, rfl⟩
      · exact .inl rfl
    · exact .inl rfl
  · exact .inl rfl

/-- What holds of all siblings, and is kept when a text joins a run, holds of the joined ones. -/
theorem forall_mem_joinRuns {T : TemplateNode → Prop} (holds : ∀ node ∈ nodes, T node)
    (join : ∀ last node, T last → T node → (last.isText || last.isCompound) = true →
      node.isText = true → T (.compound (last.run.join node.run))) :
    ∀ node ∈ joinRuns nodes, T node := by
  suffices ∀ done : List TemplateNode, (∀ node ∈ done, T node) →
      ∀ node ∈ nodes.foldl addToRuns done, T node from
    fun node member => this [] (by simp) node (mem_reverse.mp member)
  induction nodes with
  | nil => exact fun _ => id
  | cons node nodes ih =>
    intro done before
    obtain ⟨head, tail⟩ := forall_mem_cons.mp holds
    refine ih tail _ ?_
    obtain same | ⟨last, rest, rfl, isText, joins, same⟩ := addToRuns_cases done node
    · exact same ▸ forall_mem_cons.mpr ⟨head, before⟩
    · obtain ⟨lastHolds, restHolds⟩ := forall_mem_cons.mp before
      exact same ▸ forall_mem_cons.mpr ⟨join last node lastHolds head joins isText, restHolds⟩

/-- What siblings have one after another stays, if a joined run has what both of its parts have. -/
theorem flatMap_joinRuns {f : TemplateNode → List β}
    (join : ∀ last node, (last.isText || last.isCompound) = true → node.isText = true →
      f (.compound (last.run.join node.run)) = f last ++ f node) (nodes) :
    (joinRuns nodes).flatMap f = nodes.flatMap f := by
  suffices ∀ done : List TemplateNode, (nodes.foldl addToRuns done).reverse.flatMap f =
      done.reverse.flatMap f ++ nodes.flatMap f from this []
  induction nodes with
  | nil => simp
  | cons node nodes ih =>
    intro done
    rw [foldl_cons, ih]
    obtain same | ⟨last, rest, rfl, isText, joins, same⟩ := addToRuns_cases done node
    · simp [same]
    · simp [same, join last node joins isText]

theorem gives_toTextCalls {R : TemplateNode → TemplateNode → Prop}
    (each : ∀ node, Gives (toTextCall node) (R node)) (nodes) :
    Gives (toTextCalls nodes) (List.Forall₂ R nodes) := by
  induction nodes with
  | nil => exact .pure .nil
  | cons node nodes ih =>
    exact (each node).bind fun first here => ih.bind fun rest others => .pure (.cons here others)

theorem gives_toTextCall (node : TemplateNode) :
    Gives (toTextCall node) fun r => node = r ∨ node.isLeaf = true ∧ r.isLeaf = true := by
  cases node with
  | text | interpolation | compound =>
    exact (Gives.trivial _).bind fun id _ => .pure (.inr ⟨rfl, rfl⟩)
  | _ => exact .pure (.inl rfl)

/-- What holds of all siblings, and of whatever has no nodes below it, holds of the merged ones. -/
theorem gives_forall_mergeText {P : TemplateNode → Prop}
    (leaf : ∀ {node : TemplateNode}, node.isLeaf = true → P node) (direct nodes) :
    Gives (mergeText direct nodes) fun r => (∀ node ∈ nodes, P node) → ∀ node ∈ r, P node := by
  have joined (holds : ∀ node ∈ nodes, P node) : ∀ node ∈ joinRuns nodes, P node :=
    forall_mem_joinRuns holds fun _ _ _ _ _ _ => leaf rfl
  unfold mergeText
  dsimp only
  split
  · exact .pure joined
  · refine (gives_toTextCalls gives_toTextCall _).mono fun r same holds node member => ?_
    obtain ⟨before, inside, rfl | ⟨-, isLeaf⟩⟩ := exists_of_mem_forall₂ same member
    · exact joined holds _ inside
    · exact leaf isLeaf

/-! ## What is in use -/

/-- The same components, directives and numbers are in use. -/
structure SameUses (c c' : Context) : Prop where
  components : c'.components = c.components
  directives : c'.directives = c.directives
  nextId : c'.nextId = c.nextId

theorem SameUses.rfl : SameUses c c :=
  ⟨Eq.refl _, Eq.refl _, Eq.refl _⟩

theorem SameUses.trans {c c' c''} (first : SameUses c c') (second : SameUses c' c'') :
    SameUses c c'' :=
  ⟨second.components.trans first.components, second.directives.trans first.directives,
    second.nextId.trans first.nextId⟩

/-- A step that takes nothing into use, and whose result has the property `P`. -/
def Steady (act : Lower α) (P : α → Prop) : Prop :=
  ∀ c : Context, SameUses c (exec act o c).2 ∧ P (exec act o c).1

namespace Steady

variable {o} {P : α → Prop}

theorem pure (holds : P a) : Steady o (Pure.pure a) P :=
  fun c => ⟨.rfl c, holds⟩

theorem mono {R : α → Prop} (steady : Steady o act P) (weaker : ∀ a, P a → R a) : Steady o act R :=
  fun c => ⟨(steady c).1, weaker _ (steady c).2⟩

theorem bind {next : α → Lower β} (first : Steady o act P)
    (second : ∀ a, P a → Steady o (next a) Q) : Steady o (act >>= next) Q :=
  fun c => ⟨(first c).1.trans (second _ (first c).2 _).1, (second _ (first c).2 _).2⟩

theorem map {f : α → β} (steady : Steady o act P) (holds : ∀ a, P a → Q (f a)) :
    Steady o (f <$> act) Q :=
  fun c => ⟨(steady c).1, holds _ (steady c).2⟩

theorem inScope (steady : Steady o act P) : Steady o (inScope act) P :=
  fun c => ⟨⟨(steady c).1.components, (steady c).1.directives, (steady c).1.nextId⟩, (steady c).2⟩

theorem get : Steady o get fun _ => True :=
  fun c => ⟨.rfl c, trivial⟩

theorem read : Steady o read (· = o) :=
  fun c => ⟨.rfl c, rfl⟩

theorem modify {f : Context → Context} (same : ∀ c, SameUses c (f c)) :
    Steady o (modify f) fun _ => True :=
  fun c => ⟨same c, trivial⟩

theorem report (d) : Steady o (report d) fun _ => True :=
  modify fun _ => ⟨rfl, rfl, rfl⟩

theorem error (cause span) : Steady o (error cause span) fun _ => True :=
  report _

theorem logic : Logic o (Steady o) where
  pure := pure
  bind first second := fun c => ⟨(first c).1.trans (second _ _).1, (second _ _).2 (first c).2⟩
  mono := mono
  get := get
  read := read
  report := report

end Steady

theorem Gives.of_steady (steady : ∀ o, Steady o act P) : Gives act P :=
  fun o c => (steady o c).2

end Lower

end Stencil
