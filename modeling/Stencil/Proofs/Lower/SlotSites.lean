import Stencil.Proofs.Lower.Slots

/-! # Where the names of slots and loops are known

The names of a slot template are in scope for all of its content. They are bound by a function only
if the template stands right in a component, and those of its loop only if it has no condition as
well. The loop itself and the name of the slot are written outside the function of the slot, but
read with its names in scope; the parameters of the slot are written inside the function of the
loop, but read without its names.
-/

namespace Stencil

open List Expression Script Option

/-- The names that a script uses and does not bind itself, if it can be read. -/
def Expression.mentions (mode : Script.Mode) (e : Expression) : List String :=
  match uses mode e.source with
  | .ok u => u.free
  | .error _ => []

variable {e : Expression} {head : LoopHead}

theorem Expression.mem_mentions (read : uses mode e.source = .ok u) (free : name ∈ u.free) :
    name ∈ e.mentions mode := by
  simpa [mentions, read] using free

def lastLoop? (found : Option LoopHead) : List ElementProp → Option LoopHead
  | [] => found
  | .attribute _ :: props => lastLoop? found props
  | .directive d :: props =>
    if d.name == "for" then
      match d.loopHead? with
      | some head => lastLoop? (some head) props
      | none => none
    else lastLoop? found props

theorem lastLoop?_of_no_loop {props : List ElementProp} (found)
    (noLoop : props.findSome? (·.named? "for") = none) : lastLoop? found props = found := by
  induction props with
  | nil => rfl
  | cons p props ih =>
    simp only [findSome?_cons] at noLoop
    split at noLoop
    · cases noLoop
    next other =>
      rcases p with a | d
      · exact ih noLoop
      · have notFor : d.name ≠ "for" := by simpa [ElementProp.named?] using other
        simpa [lastLoop?, notFor] using ih noLoop

theorem written_lastLoop? (before : ∀ h ∈ found, ∀ part ∈ h.aliases, part.Written)
    (last : lastLoop? found props = some head) : ∀ part ∈ head.aliases, part.Written := by
  induction props generalizing found with
  | nil => exact before head last
  | cons p props ih =>
    rcases p with a | d
    · exact ih before last
    · simp only [lastLoop?] at last
      split at last
      · split at last
        next h readable =>
          refine ih ?_ last
          intro h' same
          obtain rfl := some.inj same
          obtain ⟨e, _, read⟩ := bind_eq_some_iff.mp readable
          exact (Lower.written_loopHead read).2
        · cases last
      · exact ih before last

/-- The template of a slot, and whether it stands right in a component. -/
structure SlotSite where
  element : Element
  inComponent : Bool

namespace SlotSite

def loop? (site : SlotSite) : Option LoopHead :=
  lastLoop? none site.element.props

def loopNames (site : SlotSite) : List String :=
  site.loop?.toList.flatMap LoopHead.names

/-- Names that the source of the loop uses. -/
def sourceMentions (site : SlotSite) : List String :=
  site.loop?.toList.flatMap (·.source.mentions .expression)

/-- Names that are used where those of the loop are known but not those of the slot: in default
    values of the loop and in the name of the slot. -/
def loopMentions (site : SlotSite) : List String :=
  site.loop?.toList.flatMap (·.aliases.flatMap (mentions .params)) ++
    (site.element.find? "slot").toList.flatMap
      fun d => (d.arg.filter (!·.isStatic)).toList.flatMap (mentions .expression)

/-- Names that the default values in the parameters of the slot use. -/
def patternMentions (site : SlotSite) : List String :=
  (site.element.find? "slot").toList.flatMap
    (·.exp.toList.flatMap (mentions .params))

/-- Names of the loop that its function binds. It has none under a condition. -/
def keptLoopNames (site : SlotSite) : List String :=
  if site.element.isConditional then [] else site.loopNames

/-- Names of the loop that no function binds. -/
def lostLoopNames (site : SlotSite) : List String :=
  if site.element.isConditional then site.loopNames else []

/-- Names of the slot that its own loop or its name uses. -/
def earlyNames (site : SlotSite) : List String :=
  site.element.slotNames.filter fun name => site.loop?.isSome &&
    (site.sourceMentions.contains name ||
      site.loopMentions.contains name && !site.loopNames.contains name)

/-- Names that are in scope where no function binds them. -/
def escaped (site : SlotSite) : List String :=
  if site.inComponent then site.lostLoopNames ++ site.earlyNames
  else site.element.slotNames ++ site.loopNames

/-- Names of the loop that the parameters of the slot use before they are in scope. -/
def late (site : SlotSite) : List String :=
  if site.inComponent && !site.element.isConditional then
    site.loopNames.filter fun name =>
      site.patternMentions.contains name && !Script.isAllowedGlobal name
  else []

/-- The scope inside the template, given the one around it. -/
def scope (site : SlotSite) (around : List ScopeVar) : List ScopeVar :=
  scopeVars .loop site.loopNames ++ (scopeVars .slot site.element.slotNames ++ around)

/-- The setting allows for what becomes of the names of a slot template. -/
structure Allowed (S : Setting) (site : SlotSite) : Prop where
  escaped : S.clean → ∀ name ∈ site.escaped, name ∈ S.escaped
  late : S.clean → ∀ name ∈ site.late, name ∈ S.late

variable {site : SlotSite} {around : List ScopeVar}

theorem scopeHas_scope : scopeHas (site.scope around) name = true ↔
    name ∈ site.loopNames ∨ name ∈ site.element.slotNames ∨ scopeHas around name = true := by
  simp [scope, scopeHas_append]

theorem loopNames_kept_or_lost (member : name ∈ site.loopNames) :
    name ∈ site.keptLoopNames ∨ name ∈ site.lostLoopNames := by
  unfold keptLoopNames lostLoopNames
  split
  · exact .inr member
  · exact .inl member

theorem mem_loopNames_of_kept (member : name ∈ site.keptLoopNames) : name ∈ site.loopNames := by
  unfold keptLoopNames at member
  split at member
  · cases member
  · exact member

namespace Allowed

/-- Outside a component the content of the template has none of its names bound. -/
theorem outside (allowed : site.Allowed S) (here : S.Around bound around)
    (unclean : site.inComponent = true → ¬ S.clean) : S.Around bound (site.scope around) where
  known name member := scopeHas_scope.mpr (.inr (.inr (here.known name member)))
  closed clean name has := by
    have notIn : site.inComponent = false := by
      cases inside : site.inComponent with
      | false => rfl
      | true => exact absurd clean (unclean inside)
    have lost : ∀ name, name ∈ site.element.slotNames ++ site.loopNames → name ∈ S.escaped := by
      simpa [SlotSite.escaped, notIn] using allowed.escaped clean
    rcases scopeHas_scope.mp has with loop | slot | old
    · exact .inr (lost name (mem_append_right _ loop))
    · exact .inr (lost name (mem_append_left _ slot))
    · exact here.closed clean name old

variable (allowed : site.Allowed S) (inside : site.inComponent = true)
include allowed inside

theorem unbound (clean : S.clean) (member : name ∈ site.lostLoopNames ∨ name ∈ site.earlyNames) :
    name ∈ S.escaped :=
  allowed.escaped clean name (by simp [SlotSite.escaped, inside, member])

section

variable (here : S.Around bound around)
include here

/-- In a component the content of the template has the names of the slot bound, and those of the
    loop unless there is a condition. -/
theorem content :
    S.Around (site.element.slotNames ++ (site.keptLoopNames ++ bound)) (site.scope around) where
  known name member := by
    rw [scopeHas_scope]
    rcases mem_append.mp member with slot | member
    · exact .inr (.inl slot)
    · rcases mem_append.mp member with kept | old
      · exact .inl (mem_loopNames_of_kept kept)
      · exact .inr (.inr (here.known name old))
  closed clean name has := by
    rcases scopeHas_scope.mp has with loop | slot | old
    · rcases loopNames_kept_or_lost loop with kept | lost
      · exact .inl (mem_append_right _ (mem_append_left _ kept))
      · exact .inr (allowed.unbound inside clean (.inl lost))
    · exact .inl (mem_append_left _ slot)
    · refine (here.closed clean name old).imp_left fun member => ?_
      exact mem_append_right _ (mem_append_right _ member)

theorem source (loop : site.loop? = some head)
    (read : uses .expression head.source.source = .ok u) :
    S.policy.script bound (scopeHas (scopeVars .slot site.element.slotNames ++ around)) u := by
  intro name free
  refine ⟨fun member => scopeHas_append.mpr (.inr (here.known name member)), fun clean known => ?_⟩
  rcases scopeHas_append.mp known with slot | old
  · have used : name ∈ site.sourceMentions := by
      simpa [sourceMentions, loop] using mem_mentions read free
    refine .inr (allowed.unbound inside clean (.inr ?_))
    simpa [earlyNames, loop, used] using slot
  · exact here.closed clean name old

/-- A name that is used where those of the loop are known is bound there, or allowed for. -/
theorem known_of_loopMentions (clean : S.clean) (looped : site.loop?.isSome = true)
    (used : name ∈ site.loopMentions) (known : scopeHas (site.scope around) name = true) :
    name ∈ site.loopNames ∨ name ∈ bound ∨ name ∈ S.escaped := by
  by_cases loop : name ∈ site.loopNames
  · exact .inl loop
  · rcases scopeHas_scope.mp known with isLoop | slot | old
    · exact absurd isLoop loop
    · refine .inr (.inr (allowed.unbound inside clean (.inr ?_)))
      simpa [earlyNames, looped, used, loop] using slot
    · exact .inr (here.closed clean name old)

theorem aliases (loop : site.loop? = some head)
    (member : e ∈ head.aliases) (read : uses .params e.source = .ok u) :
    S.policy.params site.loopNames bound (scopeHas (site.scope around)) u := by
  intro clean name free
  refine ⟨fun inBound => .inl (scopeHas_scope.mpr (.inr (.inr (here.known name inBound)))), ?_⟩
  intro known
  have used : name ∈ site.loopMentions := by
    refine mem_append_left _ ?_
    simpa [loop] using ⟨e, member, mem_mentions read free⟩
  rcases allowed.known_of_loopMentions inside here clean (by simp [loop]) used known with
    own | old | escaped
  · exact .inl (mem_append_left _ own)
  · exact .inl (mem_append_right _ old)
  · exact .inr escaped

theorem name (looped : site.loop?.isSome = true) {d} (found : site.element.find? "slot" = some d)
    (member : e ∈ d.arg) (dynamic : e.isStatic = false) (read : uses .expression e.source = .ok u) :
    S.policy.script (site.keptLoopNames ++ bound) (scopeHas (site.scope around)) u := by
  intro name free
  constructor
  · exact fun inBound => (allowed.content inside here).known name (mem_append_right _ inBound)
  · intro clean known
    have used : name ∈ site.loopMentions := by
      refine mem_append_right _ ?_
      have arg : d.arg = some e := member
      simpa [found, arg, dynamic] using mem_mentions read free
    rcases allowed.known_of_loopMentions inside here clean looped used known with
      loop | old | escaped
    · rcases loopNames_kept_or_lost loop with kept | lost
      · exact .inl (mem_append_left _ kept)
      · exact .inr (allowed.unbound inside clean (.inl lost))
    · exact .inl (mem_append_right _ old)
    · exact .inr escaped

end

/-- The parameters of a looped slot are read without the names of the loop. -/
theorem pattern (unconditional : site.element.isConditional = false) {d}
    (found : site.element.find? "slot" = some d) (clean : S.clean) (member : e ∈ d.exp)
    (read : uses .params e.source = .ok u) {name} (free : name ∈ u.free)
    (loop : name ∈ site.loopNames) : isAllowedGlobal name = true ∨ name ∈ S.late := by
  cases isGlobal : isAllowedGlobal name with
  | true => exact .inl rfl
  | false =>
    refine .inr (allowed.late clean name ?_)
    have exp : d.exp = some e := member
    have used : name ∈ site.patternMentions := by
      simpa [patternMentions, found, exp] using mem_mentions read free
    simpa [SlotSite.late, inside, unconditional, isGlobal, used] using loop

end Allowed

end SlotSite

mutual
def TemplateNode.slotSites (inComponent : Bool) : TemplateNode → List SlotSite
  | .element el children =>
    (if el.isSlotTemplate then [⟨el, inComponent⟩] else []) ++
      slotSitesAll (el.kind == .component) children
  | _ => []

def TemplateNode.slotSitesAll (inComponent : Bool) : List TemplateNode → List SlotSite
  | [] => []
  | node :: nodes => node.slotSites inComponent ++ slotSitesAll inComponent nodes
end

theorem TemplateNode.slotSitesAll_eq (inComponent nodes) :
    slotSitesAll inComponent nodes = nodes.flatMap (slotSites inComponent) := by
  induction nodes with
  | nil => rfl
  | cons node nodes ih => rw [slotSitesAll, ih, flatMap_cons]

end Stencil
