import Mathlib.Data.List.Perm.Basic
import Stencil.Proofs.Lower.Code
import Stencil.Proofs.Lower.Run
import Stencil.Template.Cursor

/-! # Every sibling that is left is visited once

A visit may replace the node that it stands on, remove siblings around it, and in the end take the
node away. Whatever it does, the siblings after the node that it leaves are the ones that come next.
So a traversal meets each sibling that no earlier visit removed, once and in order. Lowering is such
a traversal: a node that joins the conditional before it takes the place of all from there on.
-/

namespace Stencil

open List

variable {α σ : Type}

/-- A list from which `removed` was removed. -/
structure Pruned (l removed left : List α) : Prop where
  sublist : left <+ l
  perm : l ~ removed ++ left

namespace Pruned

variable {l removed left : List α}

theorem refl (l : List α) : Pruned l [] l :=
  ⟨.refl l, .refl l⟩

theorem eraseIdx (h : Pruned l removed left) (found : left[i]? = some a) :
    Pruned l (a :: removed) (left.eraseIdx i) := by
  obtain ⟨lt, rfl⟩ := List.getElem?_eq_some_iff.mp found
  refine ⟨(eraseIdx_sublist left i).trans h.sublist, h.perm.trans ?_⟩
  exact ((getElem_cons_eraseIdx_perm lt).symm.append_left removed).trans perm_middle

theorem reverse (h : Pruned l removed left) : Pruned l.reverse removed left.reverse :=
  ⟨h.sublist.reverse, (reverse_perm l).trans (h.perm.trans (.append_left _ (reverse_perm left).symm))⟩

/-- What is left is pruned further, behind a node that stays. -/
theorem cons {removed' left'} (a : α) (h : Pruned l removed left)
    (h' : Pruned left removed' left') : Pruned (a :: l) (removed ++ removed') (a :: left') := by
  refine ⟨(h'.sublist.trans h.sublist).cons_cons a, ?_⟩
  rw [append_assoc]
  exact ((h.perm.trans (h'.perm.append_left removed)).cons a).trans
    (by rw [← append_assoc, ← append_assoc]; exact perm_middle.symm)

end Pruned

namespace Cursor

/-- A sibling is removed before the cursor or behind its node, and nothing else changes. -/
theorem removeSibling?_eq_some {c c' : Cursor α} :
    c.removeSibling? i = some (a, c') ↔
      (∃ back, i + back + 1 = c.index ∧ c.before[back]? = some a ∧
        c' = { c with before := c.before.eraseIdx back }) ∨
      (∃ ahead, i = c.index + ahead + 1 ∧ c.after[ahead + 1]? = some a ∧
        c' = { c with after := c.after.eraseIdx (ahead + 1) }) := by
  have inRange {l : List α} {k : Nat} {f : α → Cursor α} :
      (l[k]?.map fun a => (a, f a)) = some (a, c') ↔ l[k]? = some a ∧ c' = f a := by
    grind
  unfold removeSibling?
  rcases Nat.lt_trichotomy i c.index with lt | rfl | gt
  · obtain ⟨back, eq⟩ := Nat.exists_eq_add_of_lt lt
    grind
  · grind
  · obtain ⟨ahead, rfl⟩ := Nat.exists_eq_add_of_lt gt
    grind

/-- What a visit may do before it leaves. -/
inductive Edit (α : Type) where
  | replace (node : α)
  | remove (i : Nat)

/-- The node under the cursor after an edit. -/
def Edit.node (a : α) : Edit α → α
  | .replace node => node
  | .remove _ => a

/-- A cursor after some edits, and what they removed before and after it. -/
structure Edited (α : Type) where
  cursor : Cursor α
  earlier : List α := []
  later : List α := []

def Edited.edit? (e : Edited α) : Edit α → Option (Edited α)
  | .replace node => (e.cursor.replace? node).map fun r => { e with cursor := r.2 }
  | .remove i => (e.cursor.removeSibling? i).map fun r =>
    if i < e.cursor.index then { e with cursor := r.2, earlier := r.1 :: e.earlier }
    else { e with cursor := r.2, later := r.1 :: e.later }

def Edited.run? (e : Edited α) : List (Edit α) → Option (Edited α)
  | [] => some e
  | edit :: edits => e.edit? edit >>= (·.run? edits)

/-- The cursor still stands on its node, after edits of the siblings of `c`. -/
structure Edited.Stands (c : Cursor α) (node : α) (after : List α) (e : Edited α) : Prop where
  present : e.cursor.removed = false
  here : e.cursor.after = node :: after
  before : Pruned c.before e.earlier e.cursor.before
  behind : Pruned c.after.tail e.later after

namespace Edited.Stands

variable {after : List α}

theorem edit? (h : Stands c node after e) (applied : e.edit? edit = some e') :
    ∃ after', Stands c (edit.node node) after' e' := by
  obtain ⟨⟨front, rest, flag⟩, earlier, later⟩ := e
  obtain ⟨rfl, rfl, before, behind⟩ := h
  cases edit with
  | replace other =>
    cases applied
    exact ⟨after, rfl, rfl, before, behind⟩
  | remove i =>
    obtain ⟨⟨a, cursor⟩, removed, rfl⟩ := Option.map_eq_some_iff.mp applied
    obtain ⟨back, place, found, rfl⟩ | ⟨ahead, rfl, found, rfl⟩ := removeSibling?_eq_some.mp removed
    · rw [if_pos (by omega)]
      exact ⟨after, rfl, rfl, before.eraseIdx found, behind⟩
    · rw [if_neg (by omega)]
      exact ⟨after.eraseIdx ahead, rfl, rfl, before, behind.eraseIdx found⟩

theorem run? (h : Stands c node after e) (ran : e.run? edits = some e') :
    ∃ after', Stands c (edits.foldl Edit.node node) after' e' := by
  induction edits generalizing node after e with
  | nil =>
    cases ran
    exact ⟨after, h⟩
  | cons edit edits ih =>
    obtain ⟨e₁, applied, ran⟩ := Option.bind_eq_some_iff.mp ran
    obtain ⟨after₁, stands⟩ := h.edit? applied
    exact ih stands ran

/-- The node can be replaced, and every other sibling can be removed. -/
theorem isSome_edit? (h : Stands c node after e) (other : α) (i) :
    (e.edit? (.replace other)).isSome ∧
    ((e.edit? (.remove i)).isSome ↔ i < e.cursor.siblings.length ∧ i ≠ e.cursor.index) := by
  obtain ⟨⟨front, rest, flag⟩, earlier, later⟩ := e
  obtain ⟨rfl, rfl, -, -⟩ := h
  refine ⟨rfl, ?_⟩
  simp only [Edited.edit?, Option.isSome_map, Option.isSome_iff_exists, Prod.exists,
    removeSibling?_eq_some, index, siblings, length_append, length_reverse, length_cons]
  constructor
  · rintro ⟨a, _, ⟨back, place, _⟩ | ⟨ahead, rfl, found, _⟩⟩
    · omega
    · have lt := (List.getElem?_eq_some_iff.mp found).1
      simp only [length_cons] at lt
      omega
  · rintro ⟨lt, apart⟩
    rcases Nat.lt_or_gt_of_ne apart with before | behind
    · obtain ⟨back, place⟩ := Nat.exists_eq_add_of_lt before
      exact ⟨_, _, .inl ⟨back, place.symm, List.getElem?_eq_getElem (by omega), rfl⟩⟩
    · obtain ⟨ahead, rfl⟩ := Nat.exists_eq_add_of_lt behind
      exact ⟨_, _, .inr ⟨ahead, rfl, List.getElem?_eq_getElem (by simp only [length_cons]; omega), rfl⟩⟩

end Edited.Stands

/-- A visit edits the siblings, and may take its node away in the end. It has removed `later` behind
    its node. -/
inductive Visit (c : Cursor α) : List α → Cursor α → Prop
  | stays {edits e} (ran : Edited.run? ⟨c, [], []⟩ edits = some e) : Visit c e.later e.cursor
  | leaves {edits e a c'} (ran : Edited.run? ⟨c, [], []⟩ edits = some e)
      (taken : e.cursor.take? = some (a, c')) : Visit c e.later c'

/-- A traversal from an index on, where `visit` tells what a visit does and how it changes a state:
    the nodes that it visits, those that were removed before their turn, and the siblings in the
    end. -/
inductive Traversal (visit : σ → Cursor α → σ → Cursor α → Prop) :
    σ → List α → Nat → List α → List α → List α → σ → Prop
  | ended {s siblings index} (past : siblings.length ≤ index) :
      Traversal visit s siblings index [] [] siblings s
  | next {s siblings index c node later s₁ c₁ visited removed final s₂}
      (stand : at? siblings index = some c) (here : c.node? = some node) (did : visit s c s₁ c₁)
      (legal : Visit c later c₁)
      (others : Traversal visit s₁ c₁.siblings c₁.next visited removed final s₂) :
      Traversal visit s siblings index (node :: visited) (later ++ removed) final s₂

theorem at?_append (before : List α) (node : α) (after) :
    at? (before.reverse ++ node :: after) before.length = some ⟨before, node :: after, false⟩ := by
  simp [at?]

theorem at?_of_lt {siblings : List α} {index} (lt : index < siblings.length) :
    at? siblings index =
      some ⟨(siblings.take index).reverse, siblings[index] :: siblings.drop (index + 1), false⟩ := by
  rw [at?, if_pos lt, drop_eq_getElem_cons lt]

theorem lt_of_at? {siblings index} {c : Cursor α} (stand : at? siblings index = some c) :
    index < siblings.length := by
  unfold at? at stand
  split at stand
  · assumption
  · cases stand

/-- What comes next is what is left of the siblings after the node. -/
theorem Visit.drop_next {before after later} {c' : Cursor α}
    (h : Visit ⟨before, node :: after, false⟩ later c') :
    Pruned after later (c'.siblings.drop c'.next) := by
  cases h with
  | stays ran =>
    obtain ⟨left, stands⟩ := Edited.Stands.run? ⟨rfl, rfl, .refl _, .refl _⟩ ran
    rw [siblings, stands.here, append_cons, drop_left' (by simp [next, index, stands.present])]
    exact stands.behind
  | @leaves _ e a _ ran taken =>
    obtain ⟨left, stands⟩ := Edited.Stands.run? ⟨rfl, rfl, .refl _, .refl _⟩ ran
    simp only [take?, stands.here] at taken
    obtain ⟨rfl, rfl⟩ := taken
    simpa [next, siblings, index] using stands.behind

/-- The siblings are visited in order, except for those that were removed before their turn. -/
theorem Traversal.pruned {visit : σ → Cursor α → σ → Cursor α → Prop} {s s' index}
    {siblings visited removed final : List α}
    (h : Traversal visit s siblings index visited removed final s') :
    Pruned (siblings.drop index) removed visited := by
  induction h with
  | ended past =>
    rw [drop_eq_nil_of_le past]
    exact .refl []
  | next stand here _ legal _ ih =>
    have lt := lt_of_at? stand
    cases (at?_of_lt lt).symm.trans stand
    cases here
    rw [drop_eq_getElem_cons lt]
    exact legal.drop_next.cons _ ih

/-- A visit can replace its node by any other, and remove all but the first siblings and the ones
    right behind it. -/
theorem exists_run? (node : α) (k) {more before nodes old} {e : Edited α}
    (cursor : e.cursor = ⟨more ++ before, old :: nodes, false⟩) :
    ∃ edits e', e.run? edits = some e' ∧ e'.cursor = ⟨before, node :: nodes.drop k, false⟩ := by
  obtain ⟨_, earlier, later⟩ := e
  cases cursor
  induction more generalizing earlier with
  | cons a more ih =>
    obtain ⟨edits, e', ran, cursor⟩ := ih (a :: earlier)
    exact ⟨.remove (more ++ before).length :: edits, e', by
      simp [Edited.run?, Edited.edit?, removeSibling?, index, ran], cursor⟩
  | nil =>
    induction k generalizing nodes later with
    | zero => exact ⟨[.replace node], _, rfl, rfl⟩
    | succ k ih =>
      cases nodes with
      | nil => exact ⟨[.replace node], _, rfl, rfl⟩
      | cons a nodes =>
        obtain ⟨edits, e', ran, cursor⟩ := ih (a :: later)
        have behind : ¬ before.length + 1 < before.length := by omega
        exact ⟨.remove (before.length + 1) :: edits, e', by
          simpa [Edited.run?, Edited.edit?, removeSibling?, index, behind] using ran, cursor⟩

end Cursor

/-! ## Lowering siblings -/

namespace Lower

open Cursor

/-- A visit drops its node, or puts one in the place of it and of some siblings before it. -/
inductive Lands (done : List TemplateNode) : Visited → Prop
  | dropped {skip} : Lands done ⟨done, skip⟩
  | put {more before node skip} (eq : done = more ++ before) : Lands done ⟨node :: before, skip⟩

theorem Lands.here : Lands done ⟨node :: done, skip⟩ :=
  .put (nil_append done).symm

theorem lands_visitPlain (hasChildren) : Gives (visitPlain el hasChildren kids done) (Lands done) := by
  refine (Gives.trivial _).bind fun props _ => (Gives.trivial _).bind fun content _ => ?_
  cases content.children with
  | none => exact .pure .dropped
  | some children => exact (Gives.trivial _).bind fun _ _ => .pure .here

theorem lands_visitLoop {inner} (children) :
    Gives (visitLoop el children kids inner done) (Lands done) := by
  unfold visitLoop
  split
  · exact lands_visitPlain _
  refine (Gives.trivial _).bind fun head _ => ?_
  cases head with
  | none => exact lands_visitPlain _
  | some head =>
    refine .inScope ((Gives.trivial _).bind fun head _ => .inLoop ((Gives.trivial _).bind fun _ _ => ?_))
    split <;> exact (Gives.trivial _).bind fun _ _ => (Gives.trivial _).bind fun _ _ =>
      (Gives.trivial _).bind fun _ _ => (Gives.trivial _).bind fun _ _ => .pure .here

theorem lands_visitElement (fuel children) :
    Gives (visitElement fuel el children kids done) (Lands done) := by
  cases fuel with
  | zero => exact lands_visitPlain _
  | succ fuel =>
    have joins {c : OpenConditional} {d : Directive} {inner : Element → Lower (List TemplateNode)}
        (found : openConditional? done = some c) : Gives (visitElse c d el kids inner) (Lands done) := by
      obtain ⟨ignored, -, eq, -⟩ := eq_of_openConditional? found
      unfold visitElse
      split <;> exact (Gives.trivial _).bind fun _ _ => (Gives.trivial _).bind fun _ _ =>
        (Gives.trivial _).bind fun _ _ => .pure (.put (eq.trans (append_cons ..)))
    unfold visitElement
    split
    · exact lands_visitPlain _
    split
    · exact fun o c => .here
    · split
      · exact joins ‹_›
      · exact fun o c => .here
    · split
      · exact joins ‹_›
      · exact (Gives.trivial _).bind fun _ _ => lands_visitLoop _
    · exact lands_visitLoop _

theorem lands_visitNode (node) : Gives (visitNode done node) (Lands done) := by
  cases node with
  | element el children => exact lands_visitElement _ _
  | comment =>
    refine (Gives.trivial _).bind fun drops _ => ?_
    cases drops
    · exact .pure .here
    · exact .pure .dropped
  | _ => exact fun o c => .here

/-- What lowering a node does to its siblings. -/
def Visiting (o : Options) (s : Context) (c : Cursor TemplateNode) (s' : Context)
    (c' : Cursor TemplateNode) : Prop :=
  ∃ node nodes visited, c.after = node :: nodes ∧ exec (visitNode c.before node) o s = (visited, s') ∧
    c'.siblings = visited.done.reverse ++ nodes.drop visited.skip ∧ c'.next = visited.done.length

/-- Lowering a node is a visit. -/
theorem visit_visitNode {o s s' node visited} (nodes)
    (ran : exec (visitNode done node) o s = (visited, s')) :
    ∃ later c', Cursor.Visit ⟨done, node :: nodes, false⟩ later c' ∧
      c'.siblings = visited.done.reverse ++ nodes.drop visited.skip ∧
      c'.next = visited.done.length := by
  have lands := @lands_visitNode done node o s
  rw [ran] at lands
  cases lands with
  | @dropped skip =>
    obtain ⟨edits, e, ran, cursor⟩ := exists_run? node skip (e := ⟨⟨[] ++ done, node :: nodes, false⟩, [], []⟩) rfl
    exact ⟨_, _, .leaves ran (by rw [cursor]; rfl), rfl, rfl⟩
  | @put more before new skip eq =>
    obtain ⟨edits, e, ran, cursor⟩ := exists_run? new skip (e := ⟨⟨more ++ before, node :: nodes, false⟩, [], []⟩) rfl
    rw [eq]
    exact ⟨_, _, .stays ran, by simp [cursor, siblings], by simp [cursor, Cursor.next, index]⟩

theorem visitNodes_skip (skip done nodes) :
    visitNodes skip done nodes = visitNodes 0 done (nodes.drop skip) := by
  induction skip generalizing nodes with
  | zero => rfl
  | succ skip ih =>
    cases nodes with
    | nil => simp [visitNodes]
    | cons node nodes => simpa [visitNodes] using ih nodes

/-- Lowering siblings is a traversal. -/
theorem traversal_visitNodes (o s) (done nodes : List TemplateNode) :
    ∃ visited removed, Traversal (Visiting o) s (done.reverse ++ nodes) done.length visited removed
      (exec (visitNodes 0 done nodes) o s).1 (exec (visitNodes 0 done nodes) o s).2 := by
  cases nodes with
  | nil =>
    simp only [append_nil]
    exact ⟨[], [], .ended (by simp)⟩
  | cons node nodes =>
    obtain ⟨visited, s₁, ran⟩ : ∃ visited s₁, exec (visitNode done node) o s = (visited, s₁) :=
      ⟨_, _, rfl⟩
    obtain ⟨later, c', legal, siblings, next⟩ := visit_visitNode nodes ran
    obtain ⟨more, removed, others⟩ :=
      traversal_visitNodes o s₁ visited.done (nodes.drop visited.skip)
    rw [← siblings, ← next, ← visitNodes_skip] at others
    simp only [visitNodes, exec_bind, ran]
    exact ⟨node :: more, later ++ removed,
      .next (at?_append ..) rfl ⟨node, nodes, visited, rfl, ran, siblings, next⟩ legal others⟩
termination_by nodes.length
decreasing_by rw [length_drop, length_cons]; omega

end Lower

namespace Cursor

end Cursor

end Stencil
