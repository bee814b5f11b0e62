import Stencil.Proofs.Render.Settle

/-! # Hoisting preserves the tree

A walk that remembers levels does what a walk does that works them out anew, and such a walk moves
constants out of the tree and does nothing else to it. The nodes that it gives back, and the
constants that it adds, then stand for the nodes that it was given.
-/

namespace Stencil

open List RenderNode Hoist

namespace Hoist

/-- The test that works out anew how constant a node is. -/
def testAnew (node : RenderNode) : Hoist Bool :=
  return node.level.canHoist

section

variable (test : RenderNode → Hoist Bool)

/-- What is done to a child of an element or a slot that stays. -/
def walkStaying : RenderNode → Hoist RenderNode
  | .vnode v => do
    let props ← hoistProps test v
    return .vnode { (← walkVNode test v) with props }
  | other => walk test other

def walkItem (node : RenderNode) : Hoist RenderNode := do
  if ← isHoistable test node then hoist node else walkStaying test node

theorem walkList_cons (node nodes) :
    walkList test (node :: nodes) =
      walkItem test node >>= fun n => walkList test nodes >>= fun ns => pure (n :: ns) := by
  cases node <;> simp only [walkItem, bind_assoc] <;>
    refine bind_congr fun b => ?_ <;> cases b <;> simp [walkStaying]

/-- What is done to the children of an element that stays. -/
def walkOwn (v : VNode) : Hoist (Option Children) :=
  match v.children with
  | some c => some <$> walkChildren test (v.tag.isLiteral && !v.isComponent) c
  | none => pure none

theorem walkVNode_eq (v) :
    walkVNode test v = walkOwn test v >>= fun children => pure { v with children } := by
  obtain ⟨_, _, _, children, _, _, _, _, _, _, _, _⟩ := v
  cases children <;> rw [walkVNode] <;> rfl

end

/-! ## Remembering levels -/

/-- Two computations that give the same result and the same constants, if there are the same
    constants before. The first one remembers levels, as `f` gives them to numbers. -/
def Alike {α : Type} (f : NodeId → Constancy) (act act' : Hoist α) : Prop :=
  ∀ st st' : Hoisting, st.hoists = st'.hoists → st.levels.Sound f →
    (act.run st).1 = (act'.run st').1 ∧ (act.run st).2.hoists = (act'.run st').2.hoists ∧
      (act.run st).2.levels.Sound f

variable {test test' : RenderNode → Hoist Bool}

namespace Alike

variable {α β : Type} {act act' : Hoist α}

theorem pure (a : α) : Alike f (Pure.pure a) (Pure.pure a) :=
  fun _ _ same sound => ⟨rfl, same, sound⟩

theorem bind {next next' : α → Hoist β} (first : Alike f act act')
    (second : ∀ a, Alike f (next a) (next' a)) : Alike f (act >>= next) (act' >>= next') := by
  intro st st' same sound
  obtain ⟨value, hoists, sound⟩ := first st st' same sound
  have run : (act' >>= next').run st' = (next' (act.run st).1).run (act'.run st').2 := by
    rw [value]
    rfl
  rw [run]
  exact second _ _ _ hoists sound

theorem ite {no no'} (b : Bool) (yes : Alike f act act') (other : Alike f no no') :
    Alike f (if b then act else no) (if b then act' else no') := by
  cases b with
  | true => exact yes
  | false => exact other

theorem push (node) : Alike f (push node) (push node) :=
  fun _ _ same sound => ⟨congrArg List.length same, congrArg (· ++ [node]) same, sound⟩

theorem isHoistable (tests : Alike f (test node) (test' node)) :
    Alike f (isHoistable test node) (isHoistable test' node) :=
  .ite _ tests (.pure false)

theorem hoistProps (tests : ∀ p ∈ v.props, Alike f (test p) (test' p)) :
    Alike f (hoistProps test v) (hoistProps test' v) := by
  unfold Hoist.hoistProps
  split
  next properties found =>
    refine .ite _ ((tests _ found).bind fun b => ?_) (.pure _)
    exact .ite b ((push _).bind fun _ => .pure _) (.pure _)
  · exact .pure _

end Alike

variable (tests : ∀ node : RenderNode, node.Agrees f → Alike f (test node) (test' node))

include tests

theorem alike_item (walks : match node with
      | .vnode v => (vnode v).Agrees f → Alike f (walkVNode test v) (walkVNode test' v)
      | other => other.Agrees f → Alike f (walk test other) (walk test' other))
    (agrees : node.Agrees f) :
    Alike f (walkItem test node) (walkItem test' node) := by
  refine (Alike.isHoistable (tests node agrees)).bind fun b => ?_
  refine .ite b ((Alike.push _).bind fun _ => .pure _) ?_
  cases node with
  | vnode v =>
    refine (Alike.hoistProps fun p member => tests p (agrees.part ?_)).bind fun props => ?_
    · simp [parts, VNode.parts, Option.mem_def.mp member]
    · exact (walks agrees).bind fun _ => .pure _
  | _ => exact walks agrees

/-- Walks do the same with tests that do the same. -/
theorem alike_walk (node : RenderNode) (agrees : node.Agrees f) :
    Alike f (walk test node) (walk test' node) := by
  let Each (nodes : List RenderNode) := ∀ node ∈ nodes, node.Agrees f
  refine walk.induct (fun node => node.Agrees f → Alike f (walk test node) (walk test' node))
    (fun properties => Each (properties.map (·.value)) →
      Alike f (walkProperties test properties) (walkProperties test' properties))
    (fun nodes => Each nodes → Alike f (walkList test nodes) (walkList test' nodes))
    (fun v => (vnode v).Agrees f → Alike f (walkVNode test v) (walkVNode test' v))
    (fun isPlain c => Each c.parts →
      Alike f (walkChildren test isPlain c) (walkChildren test' isPlain c))
    (fun nodes => Each nodes → Alike f (walkAll test nodes) (walkAll test' nodes))
    ?full ?empty ?nodes ?slots ?list ?single ?hoisted ?vnode ?conditional ?call ?returnsArray
    ?returns ?returnsNone ?object ?array ?other ?listNil ?listCons ?allNil ?allCons ?propsNil
    ?propsCons node agrees
  case full =>
    intro _ _ _ _ _ _ _ _ _ _ _ c walks agrees
    simp only [walkVNode, map_eq_pure_bind, bind_assoc]
    refine (walks fun part member => agrees.part ?_).bind fun _ => .pure _
    simp [parts, VNode.parts, member]
  case nodes =>
    intro isPlain nodes walks each
    exact (walks each).bind fun _ => .ite _ ((Alike.push _).bind fun _ => .pure _) (.pure _)
  case slots | list =>
    intro isPlain node walks each
    exact (walks (each node mem_cons_self)).bind fun _ => .pure _
  case vnode =>
    intro v walks agrees
    exact (walks agrees).bind fun _ => .pure _
  case conditional =>
    intro condition consequent alternate newline first second agrees
    refine (first (agrees.part ?_)).bind fun _ => (second (agrees.part ?_)).bind fun _ => .pure _
    all_goals simp [parts]
  case call =>
    intro callee args walks agrees
    exact (walks fun _ => agrees.part).bind fun _ => .pure _
  case returnsArray =>
    intro params newline isSlot elements walks agrees
    exact (walks fun _ => (agrees.part (Option.mem_toList.mpr rfl)).part).bind fun _ => .pure _
  case returns =>
    intro params newline isSlot node noArray walks agrees
    rw [walk, walk]
    · exact (walks (agrees.part (Option.mem_toList.mpr rfl))).bind fun _ => .pure _
    all_goals exact noArray
  case object | array =>
    intro parts walks agrees
    exact (walks fun _ => agrees.part).bind fun _ => .pure _
  case other =>
    intro node _ _ _ _ _ _ _
    rw [walk, walk] <;> first | exact .pure _ | assumption
  case listCons =>
    intro node nodes rest here each
    obtain ⟨agrees, later⟩ := forall_mem_cons.mp each
    rw [walkList_cons, walkList_cons]
    exact (alike_item tests here agrees).bind fun _ => (rest later).bind fun _ => .pure _
  case allCons =>
    intro node nodes here rest each
    obtain ⟨agrees, later⟩ := forall_mem_cons.mp each
    exact (here agrees).bind fun _ => (rest later).bind fun _ => .pure _
  case propsCons =>
    intro key value properties here rest each
    obtain ⟨agrees, later⟩ := forall_mem_cons.mp each
    exact (here agrees).bind fun _ => (rest later).bind fun _ => .pure _
  all_goals
    intros
    exact .pure _

theorem alike_hoistTree (agrees : node.Agrees f) :
    Alike f (hoistTree test node) (hoistTree test' node) :=
  (Alike.isHoistable (tests node agrees)).bind fun b =>
    .ite b ((Alike.push _).bind fun _ => .pure _) (alike_walk tests node agrees)

omit tests

theorem alike_canHoist (agrees : node.Agrees f) : Alike f (canHoist node) (testAnew node) := by
  intro st st' same sound
  obtain ⟨value, kept⟩ := node.computes_constancy agrees st.levels sound
  exact ⟨congrArg Constancy.canHoist value, same, kept⟩

theorem isHoistable_anew (node) :
    isHoistable testAnew node = pure (isCandidate node && node.level.canHoist) := by
  unfold isHoistable
  cases isCandidate node <;> rfl

theorem walkItem_anew (node) : walkItem testAnew node =
    if isCandidate node && node.level.canHoist then hoist node else walkStaying testAnew node := by
  rw [walkItem, isHoistable_anew, pure_bind]

theorem hoistTree_anew (node) : hoistTree testAnew node =
    if isCandidate node && node.level.canHoist then hoist node else walk testAnew node := by
  rw [hoistTree, isHoistable_anew, pure_bind]

/-! ## Moving out -/

/-- A step of hoisting that adds constants, and gives a result to which `R` relates the constants
    before it and those that it adds. -/
def Adds {α : Type} (act : Hoist α) (R : List RenderNode → List RenderNode → α → Prop) : Prop :=
  ∀ st : Hoisting, ∃ added, (act.run st).2.hoists = st.hoists ++ added ∧
    R st.hoists added (act.run st).1

namespace Adds

variable {α β γ : Type} {R : List RenderNode → List RenderNode → α → Prop}

theorem pure (holds : ∀ hoists, R hoists [] a) : Adds (Pure.pure a) R :=
  fun st => ⟨[], (append_nil _).symm, holds st.hoists⟩

theorem map {give : α → β} (adds : Adds act R)
    (gives : ∀ {hoists added a}, R hoists added a → S hoists added (give a)) :
    Adds (act >>= fun a => Pure.pure (give a)) S := by
  intro st
  obtain ⟨added, grown, holds⟩ := adds st
  exact ⟨added, grown, gives holds⟩

theorem seq {next} {give : α → β → γ} {T : List RenderNode → List RenderNode → γ → Prop}
    (first : Adds act R) (second : Adds next S)
    (gives : ∀ {hoists added added' a b}, R hoists added a → S (hoists ++ added) added' b →
      T hoists (added ++ added') (give a b)) :
    Adds (act >>= fun a => next >>= fun b => Pure.pure (give a b)) T := by
  intro st
  obtain ⟨added, grown, holds⟩ := first st
  obtain ⟨added', grown', holds'⟩ := second (act.run st).2
  rw [grown] at grown' holds'
  exact ⟨added ++ added', grown'.trans (append_assoc ..), gives holds holds'⟩

theorem push (node) : Adds (push node) fun hoists added index =>
    added = [node] ∧ index = hoists.length :=
  fun _ => ⟨[node], rfl, rfl, rfl⟩

end Adds

/-- Siblings that are walked over, and left as they are when they are walked over again. -/
abbrev Moves (walk : List RenderNode → Hoist (List RenderNode)) (nodes : List RenderNode) : Prop :=
  Adds (walk nodes) fun hoists added after =>
    MovesOut hoists added nodes after ∧ walk after = pure after

abbrev MovesNode (walk : RenderNode → Hoist RenderNode) (node : RenderNode) : Prop :=
  Adds (walk node) fun hoists added after =>
    MovesOut hoists added [node] [after] ∧ walk after = pure after

theorem MovesNode.cons {walk : RenderNode → Hoist RenderNode}
    {walkAll : List RenderNode → Hoist (List RenderNode)} (inTurn : ∀ node nodes,
      walkAll (node :: nodes) = walk node >>= fun n => walkAll nodes >>= fun ns => pure (n :: ns))
    {node nodes} (here : MovesNode walk node) (rest : Moves walkAll nodes) :
    Moves walkAll (node :: nodes) := by
  unfold Moves
  rw [inTurn]
  refine here.seq rest fun first second => ⟨first.1.append second.1, ?_⟩
  rw [inTurn, first.2, second.2]
  rfl

/-- The children of an element after constants were moved out of them, or all of them together. -/
inductive ChildrenMove (hoists : List RenderNode) :
    List RenderNode → Option Children → Option Children → Prop
  | parts {added c c'} :
      c'.map (Children.mapParts gap) = c.map (Children.mapParts gap) →
      MovesOut hoists added ((c.map Children.parts).getD []) ((c'.map Children.parts).getD []) →
      ChildrenMove hoists added c c'
  | array {added items items'} : items'.all isHoisted = true →
      MovesOut hoists added items items' → ChildrenMove hoists (added ++ [.array items'])
        (some (.nodes items)) (some (.hoisted (hoists ++ added).length))

theorem ChildrenMove.element {hoists added added'} {v : VNode} {props : Option RenderNode}
    {children} (moves : ChildrenMove (hoists ++ added) added' v.children children)
    (movesProps : MovesOut hoists added v.props.toList props.toList) :
    MovesOut hoists (added ++ added') [.vnode v] [.vnode { v with props, children }] := by
  generalize found : v.children = old at moves
  cases moves with
  | parts shape parts => exact movesProps.vnode (found ▸ parts) (found ▸ shape)
  | @array added' items items' hoisted inside =>
    have shape := congrArg (fun gaps => some (Children.nodes gaps)) inside.gaps
    have stays : MovesOut hoists _ [.vnode v]
        [.vnode { v with props, children := some (.nodes items') }] :=
      movesProps.vnode (by rwa [found]) (found ▸ shape)
    have moved := stays.children rfl hoisted
    rwa [append_assoc, ← append_assoc hoists] at moved

abbrev MovesChildren (isPlain : Bool) (c : Children) : Prop :=
  Adds (walkChildren testAnew isPlain c) fun hoists added c' =>
    ChildrenMove hoists added (some c) (some c') ∧ walkChildren testAnew isPlain c' = pure c'

abbrev MovesOwn (v : VNode) : Prop :=
  Adds (walkOwn testAnew v) fun hoists added children =>
    ChildrenMove hoists added v.children children ∧
      walkOwn testAnew { v with children } = pure children

theorem moves_hoist {walk : RenderNode → Hoist RenderNode} (constant : node.level.canHoist = true)
    (still : ∀ index, walk (.hoisted index) = pure (.hoisted index)) :
    Adds (hoist node) fun hoists added after =>
      MovesOut hoists added [node] [after] ∧ walk after = pure after :=
  (Adds.push _).map (by rintro _ _ _ ⟨rfl, rfl⟩; exact ⟨.push constant, still _⟩)

theorem hoistProps_anew (v) : hoistProps testAnew v = pure v.props ∨
    ∃ properties, v.props = some (.object properties) ∧
      (object properties).level.canHoist = true ∧ hoistProps testAnew v =
        push (.object properties) >>= fun index => pure (some (.hoisted index)) := by
  unfold hoistProps testAnew
  simp only [pure_bind]
  split
  next properties found =>
    split
    · split
      next constant => exact .inr ⟨_, found, constant, rfl⟩
      · exact .inl rfl
    · exact .inl rfl
  · exact .inl rfl

theorem adds_hoistProps (v) : Adds (hoistProps testAnew v) fun hoists added props =>
    MovesOut hoists added v.props.toList props.toList ∧
      ∀ children, hoistProps testAnew { v with props, children } = pure props := by
  obtain same | ⟨properties, found, constant, hoists⟩ := hoistProps_anew v
  · rw [same]
    exact .pure fun _ => ⟨.refl, fun _ => same⟩
  · rw [hoists, found]
    exact (Adds.push _).map (by rintro _ _ _ ⟨rfl, rfl⟩; exact ⟨.push constant, fun _ => rfl⟩)

theorem movesChildren_nodes (isPlain) (walks : Moves (walkList testAnew) nodes) :
    MovesChildren isPlain (.nodes nodes) := by
  intro st
  obtain ⟨added, grown, moves, settled⟩ := walks st
  have run : (walkChildren testAnew isPlain (.nodes nodes)).run st =
      (hoistChildren isPlain ((walkList testAnew nodes).run st).1).run
        ((walkList testAnew nodes).run st).2 := by
    rfl
  rw [run]
  generalize (walkList testAnew nodes).run st = walked at grown moves settled
  unfold hoistChildren
  split
  next hoisted =>
    refine ⟨added ++ [.array walked.1], ?_, ?_, rfl⟩
    · exact (congrArg (· ++ _) grown).trans (append_assoc ..)
    · have array := ChildrenMove.array (Bool.and_eq_true_iff.mp hoisted).2 moves
      rwa [← grown] at array
  next stays =>
    refine ⟨added, grown, .parts ?_ moves, ?_⟩
    · exact congrArg (fun gaps => some (Children.nodes gaps)) moves.gaps
    · change walkChildren testAnew isPlain (.nodes walked.1) = pure (.nodes walked.1)
      rw [walkChildren, settled, pure_bind, hoistChildren, if_neg stays]

/-- An element that stays is as constant as it was when its properties and children have moved. -/
theorem moves_staying
    (stays : ¬(isCandidate (.vnode v) && (vnode v).level.canHoist) = true)
    (own : MovesOwn v) : Adds (walkStaying testAnew (.vnode v)) fun hoists added after =>
      MovesOut hoists added [.vnode v] [after] ∧ walkItem testAnew after = pure after := by
  simp only [walkStaying, walkVNode_eq, bind_assoc]
  refine (adds_hoistProps v).seq own ?_
  intro hoists added added' props children first second
  have moves := second.1.element first.1
  have stays' := stays
  rw [← moves.canHoist_node] at stays'
  have again : walkOwn testAnew { v with props, children } = pure children := second.2
  refine ⟨moves, (walkItem_anew _).trans ((if_neg stays').trans ?_)⟩
  rw [walkStaying, first.2, walkVNode_eq, again]
  rfl

theorem walk_function (test : RenderNode → Hoist Bool) (params returns newline isSlot st) :
    ∃ after, ((walk test (.function params returns newline isSlot)).run st).1 =
      .function params after newline isSlot := by
  rcases returns with _ | returned
  · exact ⟨_, rfl⟩
  · cases returned <;> exact ⟨_, rfl⟩

theorem walk_noArray (noArray : ∀ elements, node ≠ .array elements) (test : RenderNode → Hoist Bool)
    (st elements) : ((walk test node).run st).1 ≠ .array elements := by
  intro array
  cases node with
  | array elements => exact noArray elements rfl
  | function params returns newline isSlot =>
    obtain ⟨after, same⟩ := walk_function test params returns newline isSlot st
    cases same.symm.trans array
  | _ => cases array

theorem moves_item (walks : match node with
      | .vnode v => MovesOwn v
      | other => MovesNode (walk testAnew) other) : MovesNode (walkItem testAnew) node := by
  unfold MovesNode
  rw [walkItem_anew]
  split
  next hoistable => exact moves_hoist (Bool.and_eq_true_iff.mp hoistable).2 fun _ => rfl
  next stays =>
    cases node with
    | vnode v => exact moves_staying stays walks
    | function params returns newline isSlot =>
      intro st
      obtain ⟨added, grown, moves, settled⟩ := walks st
      obtain ⟨after, same⟩ := walk_function testAnew params returns newline isSlot st
      refine ⟨added, grown, moves, ?_⟩
      rw [same] at settled
      simp only [walkStaying, same]
      exact settled
    | textCall t => exact .pure fun _ => ⟨.refl, (walkItem_anew _).trans (if_neg stays)⟩
    | _ => exact walks

variable (node : RenderNode)

/-- Walking over a tree moves constants out of it, and does nothing else. There is then nothing left
    to move. -/
theorem moves_walk : MovesNode (walk testAnew) node := by
  let outline (p : Property) := { p with value := p.value.gap }
  refine walk.induct (MovesNode (walk testAnew))
    (fun properties => Adds (walkProperties testAnew properties) fun hoists added after =>
      (after.map outline = properties.map outline ∧
        MovesOut hoists added (properties.map (·.value)) (after.map (·.value))) ∧
        walkProperties testAnew after = pure after)
    (Moves (walkList testAnew)) MovesOwn MovesChildren (Moves (walkAll testAnew))
    ?full ?empty ?nodes ?slots ?list ?single ?hoisted ?vnode ?conditional ?call ?returnsArray
    ?returns ?returnsNone ?object ?array ?other ?listNil ?listCons ?allNil ?allCons ?propsNil
    ?propsCons node
  case full =>
    intro _ _ _ _ _ _ _ _ _ _ _ c walks
    simp only [MovesOwn, walkOwn]
    exact walks.map fun moves => ⟨moves.1, by simp [moves.2]⟩
  case empty | single | hoisted =>
    intros
    exact .pure fun _ => ⟨.parts rfl .refl, rfl⟩
  case nodes => exact fun isPlain nodes walks => movesChildren_nodes isPlain walks
  case slots | list =>
    intro _ node walks
    refine walks.map fun moves => ⟨.parts rfl moves.1, ?_⟩
    rw [walkChildren, moves.2]
    rfl
  case vnode =>
    intro v own
    simp only [MovesNode, walk, walkVNode_eq, bind_assoc]
    refine own.map fun {hoists added children} moves => ⟨?_, ?_⟩
    · have same : MovesOut hoists [] v.props.toList v.props.toList := .refl
      exact ChildrenMove.element (by rw [append_nil]; exact moves.1) same
    · rw [walk, walkVNode_eq, moves.2]
      rfl
  case conditional =>
    intro test consequent alternate newline first second
    refine first.seq second fun moves moves' =>
      ⟨.node rfl rfl ((moves.1.append moves'.1).append_left [test]), ?_⟩
    rw [walk, moves.2, moves'.2]
    rfl
  case call =>
    intro callee args walks
    refine walks.map fun moves =>
      ⟨.node (congrArg (call callee) moves.1.gaps) rfl moves.1, ?_⟩
    rw [walk, moves.2]
    rfl
  case returnsArray =>
    intro params newline isSlot elements walks
    refine walks.map fun moves => ⟨.node rfl rfl
      (.node (congrArg array moves.1.gaps) rfl moves.1), ?_⟩
    rw [walk, moves.2]
    rfl
  case returns =>
    intro params newline isSlot node noArray walks st
    obtain ⟨added, grown, moves, settled⟩ := walks st
    have run : (walk testAnew (.function params (some node) newline isSlot)).run st =
        (.function params (some ((walk testAnew node).run st).1) newline isSlot,
          ((walk testAnew node).run st).2) := by
      rw [walk]
      · rfl
      · exact noArray
    rw [run]
    refine ⟨added, grown, .node rfl rfl moves, ?_⟩
    rw [walk, settled]
    · rfl
    · exact walk_noArray noArray testAnew st
  case object =>
    intro properties walks
    refine walks.map fun moves =>
      ⟨.node (congrArg object moves.1.1) rfl moves.1.2, ?_⟩
    rw [walk, moves.2]
    rfl
  case array =>
    intro elements walks
    refine walks.map fun moves => ⟨.node (congrArg array moves.1.gaps) rfl moves.1, ?_⟩
    rw [walk, moves.2]
    rfl
  case other =>
    intro node _ _ _ _ _ _
    have same : walk testAnew node = pure node := by rw [walk] <;> assumption
    rw [MovesNode, same]
    exact .pure fun _ => ⟨.refl, same⟩
  case returnsNone | listNil | allNil =>
    intros
    exact .pure fun _ => ⟨.refl, rfl⟩
  case listCons => exact fun node nodes rest here => (moves_item here).cons (walkList_cons _) rest
  case allCons => exact fun node nodes here rest => here.cons (fun _ _ => by rw [walkAll]) rest
  case propsNil =>
    exact .pure fun _ => ⟨⟨rfl, .refl⟩, rfl⟩
  case propsCons =>
    intro key value properties here rest
    refine here.seq rest fun moves moves' =>
      ⟨⟨congrArg (_ :: ·) moves'.1.1, moves.1.append moves'.1.2⟩, ?_⟩
    rw [walkProperties, moves.2, moves'.2]
    rfl

theorem isCandidate_walk (st) : isCandidate ((walk testAnew node).run st).1 = isCandidate node := by
  cases node with
  | vnode v =>
    simp only [walk, walkVNode_eq]
    rfl
  | function params returns newline isSlot =>
    obtain ⟨after, same⟩ := walk_function testAnew params returns newline isSlot st
    rw [same]
    rfl
  | _ => rfl

theorem moves_hoistTree : MovesNode (hoistTree testAnew) node := by
  unfold MovesNode
  rw [hoistTree_anew]
  split
  next hoistable => exact moves_hoist (Bool.and_eq_true_iff.mp hoistable).2 fun _ => rfl
  next stays =>
    intro st
    obtain ⟨added, grown, moves, settled⟩ := moves_walk node st
    refine ⟨added, grown, moves, ?_⟩
    rw [hoistTree_anew, isCandidate_walk, moves.canHoist_node, if_neg stays]
    exact settled

end Hoist

namespace Root

variable {root : Root} {code : RenderNode}

theorem hoistBy_code (found : root.code = some code) (test : RenderNode → Hoist Bool) :
    root.hoistBy test =
      let walked := (hoistTree test code).run { hoists := root.hoists }
      { root with code := some walked.1, hoists := walked.2.hoists } := by
  unfold hoistBy
  rw [found]
  rfl

theorem hoistBy_congr {test test' : RenderNode → Hoist Bool}
    (tests : ∀ f (node : RenderNode), node.Agrees f → Hoist.Alike f (test node) (test' node))
    (distinct : ∀ code ∈ root.code, code.ids.Nodup) : root.hoistBy test = root.hoistBy test' := by
  cases found : root.code with
  | none => rw [hoistBy, hoistBy, found]
  | some code =>
    obtain ⟨f, agrees⟩ := exists_agrees (distinct code found)
    obtain ⟨sameCode, sameHoists, -⟩ := alike_hoistTree (tests f) agrees
      { hoists := root.hoists } { hoists := root.hoists } rfl (fun _ _ h => absurd h (by simp))
    simp only [hoistBy_code found, sameCode, sameHoists]

theorem hoist_eq_anew (distinct : ∀ code ∈ root.code, code.ids.Nodup) :
    root.hoist = root.hoistBy testAnew :=
  hoistBy_congr (fun _ _ => alike_canHoist) distinct

theorem hoist_moves (found : root.code = some code) (distinct : code.ids.Nodup) :
    ∃ added after, root.hoist = { root with code := some after, hoists := root.hoists ++ added } ∧
      MovesOut root.hoists added [code] [after] := by
  obtain ⟨added, grown, moves, -⟩ := moves_hoistTree code { hoists := root.hoists }
  refine ⟨added, _, ?_, moves⟩
  have distinct : ∀ code ∈ root.code, code.ids.Nodup := by
    rw [found]
    rintro _ ⟨⟩
    exact distinct
  simp only [hoist_eq_anew distinct, hoistBy_code found, grown]

end Root

/-- Hoisting keeps what the code stands for. With every reference expanded, the code after hoisting
    is the code before it, but for the node creations that became constants: these had no flag, and
    are marked as hoisted and are no blocks. The constants that were there stay in front, every
    reference is in range, and a constant refers to earlier ones only. -/
theorem Root.hoist_preserves (root : Root) (distinct : ∀ code ∈ root.code, code.ids.Nodup)
    (inRange : ∀ code ∈ root.code, code.RefsBelow root.hoists.length)
    (backward : Backward root.hoists) : ∃ added, root.hoist.hoists = root.hoists ++ added ∧
      root.hoist.code.map (·.expand root.hoist.hoists) =
        root.code.map (fun code => (code.settle (movedIds added)).expand root.hoists) ∧
      (∀ code ∈ root.code, ∀ v, .vnode v ∈ code.subnodes → v.id ∈ movedIds added →
        v.flag = .empty) ∧ (∀ code ∈ root.hoist.code, code.RefsBelow root.hoist.hoists.length) ∧
      Backward root.hoist.hoists := by
  cases found : root.code with
  | none =>
    simp [hoist, hoistBy, found, backward]
  | some code =>
    have ready : Ready root.hoists [code] := by
      refine ⟨backward, ?_, ?_⟩
      · simpa using inRange code found
      · simpa using distinct code found
    obtain ⟨added, after, hoisted, moves⟩ := hoist_moves found (distinct code found)
    have kept := moves.kept ready
    rw [hoisted]
    refine ⟨added, rfl, ?_, ?_, ?_, ?_⟩
    · simpa using kept.same
    · rintro _ ⟨⟩
      exact kept.unflagged code (mem_singleton.mpr rfl)
    · rintro _ ⟨⟩
      exact kept.below _ (mem_singleton.mpr rfl)
    · exact kept.backward

/-- A block with a constant paragraph that refers to a constant, and an element that shows a
    value. -/
def samplePage : Root where
  children := []
  components := []
  directives := []
  hoists := [.object [.named "class" (.string "a")]]
  code := some (.vnode { VNode.new 0 (.literal "div") with
    isBlock := true
    children := some (.nodes [
      .vnode { VNode.new 1 (.literal "p") with props := some (.hoisted 0) },
      .vnode { VNode.new 2 (.literal "b") with
        flag := .text
        props := some (.object [.named "id" (.string "c")])
        children := some (.single (.interpolation (.snippet "x" false .empty) .empty)) }]) })
  span := .empty

theorem samplePage_hoist_preserves :
    (∀ code ∈ samplePage.code, code.ids.Nodup) ∧ Backward samplePage.hoists ∧
      ∃ added, samplePage.hoist.hoists = samplePage.hoists ++ added ∧
        samplePage.hoist.code.map (·.expand samplePage.hoist.hoists) =
          samplePage.code.map
            (fun code => (code.settle (movedIds added)).expand samplePage.hoists) ∧
        Backward samplePage.hoist.hoists := by
  have distinct : ∀ code ∈ samplePage.code, code.ids.Nodup := by
    decide
  have inRange : ∀ code ∈ samplePage.code, code.RefsBelow samplePage.hoists.length := by
    decide
  have backward : Backward samplePage.hoists := by
    intro j node found i inside
    match j, found with
    | 0, rfl => exact absurd (show i ∈ ([] : List Nat) from inside) (by simp)
  obtain ⟨added, hoists, same, -, -, back⟩ :=
    Root.hoist_preserves samplePage distinct inRange backward
  exact ⟨distinct, backward, added, hoists, same, back⟩

end Stencil
