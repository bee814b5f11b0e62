import Mathlib.Data.List.Forall2
import Stencil.Proofs.Lower.PatchFlags

/-! # Properties with the same key

Properties are put together in objects, and an object has every static key once. Of the values that
are given for one key in an object, all stay if they are classes, styles or handlers, and else the
first one. No property is lost between the objects.
-/

namespace Stencil

open List Property RenderNode Dom

/-- What the values given for a name come to: all in one array, or the first one. -/
def Gathers (name : String) (values : List RenderNode) (value : RenderNode) : Prop :=
  ∃ first rest, values = first :: rest ∧
    value = if keepsAllValues name = true ∧ rest ≠ [] then .array (first.merged ++ rest) else first

variable {name : String}

theorem Gathers.add {p : Property} (q : Property) (gathers : Gathers name values p.value) :
    Gathers name (values ++ [q.value])
      (if keepsAllValues name then p.addValue q.value else p).value := by
  obtain ⟨first, rest, rfl, same⟩ := gathers
  refine ⟨first, rest ++ [q.value], rfl, ?_⟩
  cases keeps : keepsAllValues name with
  | false => simpa [keeps] using same
  | true =>
    rw [addValue]
    cases rest with
    | nil => cases first <;> simp_all [merged]
    | cons => simp_all

/-- A property after another one with its name. -/
def Property.further (q p : Property) : Property :=
  if p.name? = q.name? ∧ q.name?.any keepsAllValues then p.addValue q.value else p

structure Merges (ps object : List Property) : Prop where
  distinct : (object.filterMap name?).Nodup
  names : object.filterMap name? = (ps.filterMap name?).eraseDups
  computed : object.filter (·.name?.isNone) = ps.filter (·.name?.isNone)
  values : ∀ p ∈ object, ∀ name ∈ p.name?,
    Gathers name ((ps.filter (·.name? == some name)).map (·.value)) p.value

theorem modifyNamed_eq_map (f : Property → Property) {ps : List Property}
    (distinct : (ps.filterMap name?).Nodup) :
    modifyNamed name f ps = ps.map fun p => if p.name? = some name then f p else p := by
  induction ps with
  | nil => rfl
  | cons p ps ih =>
    rw [modifyNamed, map_cons]
    split
    next named =>
      rw [filterMap_cons_some named, nodup_cons, mem_filterMap] at distinct
      have others : ps.map (fun q => if q.name? = some name then f q else q) = ps :=
        (map_congr_left fun q member => if_neg fun same => distinct.1 ⟨q, member, same⟩).trans
          (map_id' ps)
      rw [others]
    next =>
      rw [ih (distinct.sublist ((sublist_cons_self p ps).filterMap _))]

namespace Merges

variable {ps object : List Property} (merges : Merges ps object)
include merges

theorem mem_names :
    name ∈ object.filterMap name? ↔ name ∈ ps.filterMap name? := by
  rw [merges.names, mem_eraseDups]

theorem append (absent : ∀ name ∈ q.name?, name ∉ ps.filterMap name?) :
    Merges (ps ++ [q]) (object ++ [q]) := by
  have fresh : (q.name?.toList.removeAll (ps.filterMap name?)).eraseDups =
      q.name?.toList := by
    cases named : q.name? <;> simp_all [List.removeAll, eraseDups_cons]
  have split (qs : List Property) :
      (qs ++ [q]).filterMap name? = qs.filterMap name? ++ q.name?.toList := by
    cases named : q.name? <;> simp [named]
  refine ⟨?_, ?_, by simp [merges.computed], fun p member name isName => ?_⟩
  · rw [split]
    refine merges.distinct.append (by cases q.name? <;> simp) fun name inside isLast => ?_
    exact absent name (Option.mem_toList.mp isLast) (merges.mem_names.mp inside)
  · rw [split, split, eraseDups_append, fresh, merges.names]
  · rcases mem_append.mp member with old | new
    · have other : q.name? ≠ some name := by
        intro same
        exact absent name same (merges.mem_names.mp (mem_filterMap.mpr ⟨p, old, isName⟩))
      simpa [other] using merges.values p old name isName
    · obtain rfl := mem_singleton.mp new
      have none : ps.filter (·.name? == some name) = [] := by
        rw [filter_eq_nil_iff]
        intro p' member same
        exact absent name isName (mem_filterMap.mpr ⟨p', member, by simpa using same⟩)
      exact ⟨p.value, [], by simp [none, Option.mem_def.mp isName], by simp⟩

theorem further (named : q.name? = some name)
    (present : name ∈ ps.filterMap name?) : Merges (ps ++ [q]) (object.map q.further) := by
  have kept (p : Property) : (q.further p).name? = p.name? := by
    unfold Property.further Property.addValue
    split
    · split <;> rfl
    · rfl
  have names : (object.map q.further).filterMap name? =
      object.filterMap name? := by
    rw [filterMap_map]
    exact filterMap_congr fun p _ => kept p
  have none : [name].removeAll (ps.filterMap name?) = [] := by
    simpa [List.removeAll] using present
  refine ⟨names ▸ merges.distinct, ?_, ?_, fun p' member other isName => ?_⟩
  · rw [names, merges.names, filterMap_append, filterMap_cons_some named,
      filterMap_nil, eraseDups_append, none, eraseDups_nil, append_nil]
  · have still : ∀ p ∈ object.filter (·.name?.isNone), q.further p = p := by
      intro p member
      have unnamed := (mem_filter.mp member).2
      exact if_neg fun same => by simp [same.1, named] at unnamed
    rw [filter_map, Function.comp_def]
    simp only [kept]
    rw [map_congr_left still, merges.computed]
    simp [named]
  · obtain ⟨p, inside, rfl⟩ := mem_map.mp member
    rw [kept] at isName
    have before := merges.values p inside other isName
    by_cases same : other = name
    · subst same
      simpa [further, named, Option.mem_def.mp isName] using before.add q
    · have apart : p.name? ≠ q.name? := by simpa [named, Option.mem_def.mp isName] using same
      rw [Property.further, if_neg fun both => apart both.1]
      simpa [named, Ne.symm same] using before

theorem insert (q) : Merges (ps ++ [q]) (insertProperty object q) := by
  unfold insertProperty
  split
  next named => exact merges.append (by simp [named])
  next name named =>
    have present : object.any (·.name? == some name) = true ↔ name ∈ ps.filterMap name? := by
      simp [← merges.mem_names]
    split
    next found =>
      have mapped : (if keepsAllValues name then modifyNamed name (·.addValue q.value) object
          else object) = object.map q.further := by
        unfold Property.further
        split
        next keeps => simp [modifyNamed_eq_map _ merges.distinct, named, keeps]
        next single => simp [named, single]
      rw [mapped]
      exact merges.further named (present.mp found)
    next absent =>
      refine merges.append fun other isName inside => absent (present.mpr ?_)
      rw [named] at isName
      exact Option.some.inj isName ▸ inside

end Merges

theorem merges_mergeProperties (ps) : Merges ps (mergeProperties ps) := by
  induction ps using List.reverseRecOn with
  | nil => exact ⟨.nil, rfl, rfl, by simp [mergeProperties]⟩
  | append_singleton ps q ih =>
    rw [mergeProperties, foldl_concat]
    exact ih.insert q

/-! ## Builds -/

def RenderNode.object? : RenderNode → Option (List Property)
  | .object ps => some ps
  | _ => none

namespace PropsBuild

/-- All properties that were read. -/
def properties (b : PropsBuild) : List Property :=
  (b.merged.filterMap object?).flatten ++ b.pending

/-- The objects among the parts are made of the properties given, in turn, but for those that are
    pending. -/
def Traces (b : PropsBuild) (ps : List Property) : Prop :=
  ∃ segments, segments.flatten ++ b.pending = ps ∧
    List.Forall₂ Merges segments (b.merged.filterMap object?)

def Follows (b alone b' : PropsBuild) : Prop :=
  alone.merged = [] ∧ b'.merged = b.merged ∧ b'.pending = b.pending ++ alone.pending ∨
    alone.pending = [] ∧ b'.pending = [] ∧ ∃ node, alone.merged = [node] ∧
      b'.merged = b.flush.merged ++ [node] ∧ ∀ ps ∈ node.object?, Merges ps ps

variable {b alone b' : PropsBuild}

theorem Traces.flush (traces : b.Traces ps) : b.flush.Traces ps ∧ b.flush.pending = [] := by
  obtain ⟨segments, rfl, merges⟩ := traces
  unfold PropsBuild.flush
  split
  next none => exact ⟨⟨segments, rfl, merges⟩, by simpa using none⟩
  next =>
    refine ⟨⟨segments ++ [b.pending], by simp, ?_⟩, rfl⟩
    rw [filterMap_append]
    exact rel_append merges (.cons (merges_mergeProperties b.pending) .nil)

theorem Traces.follows (traces : b.Traces ps) (follows : b.Follows alone b') :
    b'.Traces (ps ++ alone.properties) := by
  rcases follows with ⟨none, merged, pending⟩ | ⟨none, pending, node, single, merged, merges⟩
  · obtain ⟨segments, rfl, merges⟩ := traces
    exact ⟨segments, by simp [pending, properties, none], by rwa [merged]⟩
  · obtain ⟨⟨segments, rfl, before⟩, flushed⟩ := traces.flush
    refine ⟨segments ++ node.object?.toList, ?_, ?_⟩
    · cases found : node.object? <;> simp [pending, flushed, properties, none, single, found]
    · rw [merged, filterMap_append]
      refine rel_append before ?_
      cases found : node.object? with
      | none => simp [found]
      | some ps => simpa [found] using merges ps found

theorem follows_addPart (b : PropsBuild) (survey survey') {node : RenderNode}
    (merges : ∀ ps ∈ node.object?, Merges ps ps) :
    b.Follows (addPart node { survey }) (addPart node { b with survey := survey' }) := by
  refine .inr ⟨rfl, ?_, node, rfl, ?_, merges⟩ <;> simp only [addPart, PropsBuild.flush] <;>
    split <;> simp_all

end PropsBuild

namespace Lower

variable {o : Options}

/-- What the attributes and directives of an element give, each for itself. -/
def contributions (el : Element) : List ElementProp → Lower (List Property)
  | [] => return []
  | p :: ps => do return (← addProp el {} p).properties ++ (← contributions el ps)

theorem follows_addResult {d : Directive} {result : DirectiveResult}
    (keys : d.name = "on" → d.arg.any (!·.isStatic) = true →
      ∃ p, result.props = [p] ∧ p.name? = none) (b : PropsBuild) :
    b.Follows (addResult isComponent {} d result) (addResult isComponent b d result) := by
  unfold addResult
  by_cases event : (d.name == "on" && d.arg.any (!·.isStatic)) = true
  · simp only [event]
    rw [Bool.and_eq_true, beq_iff_eq] at event
    obtain ⟨p, single, unnamed⟩ := keys event.1 event.2
    have merges : ∀ ps ∈ (object result.props).object?, Merges ps ps := by
      rintro _ ⟨⟩
      rw [single]
      exact ⟨by simp [unnamed], by simp [unnamed], rfl, by simp [unnamed]⟩
    split <;> exact PropsBuild.follows_addPart b _ _ merges
  · simp only [event]
    split <;> exact .inl ⟨rfl, rfl, rfl⟩

variable (handlers : ∀ rule, o.rule? "on" = some rule → rule.handles) (el : Element)
include handlers

theorem follows_addProp (b) (p : ElementProp) :
    (exec (addProp el b p) o c).2 = (exec (addProp el {} p) o c).2 ∧
      b.Follows (exec (addProp el {} p) o c).1 (exec (addProp el b p) o c).1 := by
  have same : b.Follows {} b := .inl ⟨rfl, rfl, (append_nil _).symm⟩
  rcases p with a | d
  · simp only [addProp, addAttribute, exec_bind, exec_get]
    generalize (a.name == "ref") = isRef, (a.name == "is" && el.tag == "component") = isTag
    by_cases deep : 0 < c.loopDepth <;> simp only [deep] <;>
      cases isRef <;> cases isTag <;>
      exact ⟨rfl, .inl ⟨rfl, rfl, by simp [PropsBuild.addPending]⟩⟩
  · simp only [addProp, addDirective]
    generalize kind : (el.kind == .component) = isComponent
    by_cases isSlot : (d.name == "slot") = true
    · simp only [isSlot]
      cases isComponent <;> exact ⟨rfl, same⟩
    by_cases waits : (d.name == "once" || d.name == "memo") = true
    · simp only [isSlot, waits]
      exact ⟨rfl, same⟩
    by_cases isTag : (d.binds "is" && el.tag == "component") = true
    · simp only [isSlot, waits, isTag]
      exact ⟨rfl, same⟩
    by_cases spread : ((d.name == "bind" || d.name == "on") && d.arg.isNone) = true
    · simp only [isSlot, waits, isTag, spread, addSpread]
      cases script : d.script? with
      | none => exact ⟨rfl, .inl ⟨rfl, rfl, (append_nil _).symm⟩⟩
      | some e =>
        cases (d.name == "bind") <;>
          exact ⟨rfl, PropsBuild.follows_addPart b _ _ (by simp [object?])⟩
    · simp only [isSlot, waits, isTag, spread, Bool.false_eq_true, if_false, exec_bind]
      cases found : (exec (rule? d.name) o c).1 with
      | none => cases (isBuiltinDirective d.name) <;> exact ⟨rfl, same⟩
      | some rule =>
        exact ⟨rfl, follows_addResult (fun isOn =>
          unnamed_applyRule (handles_of_rule? handlers found isOn) el) b⟩

theorem traces_addProps (props) {b : PropsBuild} (traces : b.Traces ps) (c) :
    (exec (addProps el b props) o c).1.Traces (ps ++ (exec (contributions el props) o c).1) := by
  induction props generalizing b ps c with
  | nil => simpa [addProps, contributions] using traces
  | cons p props ih =>
    obtain ⟨context, follows⟩ := follows_addProp (c := c) handlers el b p
    simp only [contributions, exec_bind, exec_pure, ← append_assoc, ← context]
    exact ih (traces.follows follows) _

end Lower

/-! ## Handlers -/

theorem Text.isAsciiLower_ofNat (high : 122 < m) : Text.isAsciiLower (Char.ofNat m) = false := by
  by_cases valid : m.isValidChar
  · have above : ¬ Char.ofNat m ≤ 'z' := by
      rw [show Char.ofNat m = Char.ofNatAux m valid from dif_pos valid]
      exact Nat.not_le.mpr high
    rw [isAsciiLower, decide_eq_false above, Bool.and_false]
  · rw [show Char.ofNat m = _ from dif_neg valid]
    rfl

theorem Text.head_upper (c) : ∃ d ds, upper c = d :: ds ∧ isAsciiLower d = false := by
  unfold upper
  dsimp only
  split
  next low =>
    have ascii : ∀ n < 128, isAsciiLower (Char.ofNat n) = true →
        isAsciiLower (Char.ofNat (n - 32)) = false := by decide
    split
    next isLower => exact ⟨_, [], rfl, ascii c.toNat low (by simpa using isLower)⟩
    next notLower => exact ⟨c, [], rfl, by simpa using notLower⟩
  next high =>
    have inTable {β : Type} {table : List (Nat × β)} {x : β}
        (listed : table.lookup c.toNat = some x) : (c.toNat, x) ∈ table := by
      obtain ⟨before, after, rfl, -⟩ := lookup_eq_some_iff.mp listed
      simp
    split
    next ns found =>
      obtain ⟨m, rest, rfl, upper⟩ :
          ∃ m rest, ns = m :: rest ∧ isAsciiLower (Char.ofNat m) = false := by
        cases listed : upperExpansions.lookup c.toNat with
        | some ms =>
          obtain rfl : ms = ns := by simpa [listed] using found
          have head := (by decide : ∀ e ∈ upperExpansions,
            (e.2.head?.any fun m => !isAsciiLower (Char.ofNat m)) = true) _ (inTable listed)
          cases ms <;> simp_all
        | none =>
          obtain ⟨⟨first, target⟩, member, upper⟩ :=
            exists_of_findSome?_eq_some (show iotaExpansion? _ = _ by simpa [listed] using found)
          have := (by decide : ∀ e ∈ [(0x1F80, 0x1F08), (0x1F90, 0x1F28), (0x1FA0, 0x1F68)],
            122 < e.2) _ member
          dsimp only at upper
          split at upper
          · exact ⟨_, _, (Option.some.inj upper).symm, isAsciiLower_ofNat (by omega)⟩
          · cases upper
      exact ⟨_, _, rfl, upper⟩
    next =>
      split
      next m found =>
        refine ⟨_, [], rfl, ?_⟩
        cases listed : upperLetters.lookup c.toNat with
        | some m' =>
          obtain rfl : m' = m := by simpa [listed] using found
          exact (by decide +kernel : ∀ e ∈ upperLetters, isAsciiLower (Char.ofNat e.2) = false) _
            (inTable listed)
        | none =>
          rw [listed] at found
          obtain ⟨r, member, upper⟩ := exists_of_findSome?_eq_some (by simpa using found)
          have := (by decide : ∀ r ∈ upperRuns, 122 < r.target) r member
          unfold CaseRun.upper? at upper
          exact isAsciiLower_ofNat (by grind)
      next =>
        refine ⟨c, [], rfl, ?_⟩
        rw [← Char.ofNat_toNat c]
        exact isAsciiLower_ofNat (by omega)

/-- Whether a key is static and names a handler. -/
def Expression.NamesHandler (key : Expression) : Prop :=
  ∃ name, key.static? = some name ∧ isHandlerKey name = true

theorem isHandlerKey_append (suffix) (handles : isHandlerKey name = true) :
    isHandlerKey (name ++ suffix) = true := by
  unfold isHandlerKey at handles ⊢
  split at handles
  next found => simpa [found] using handles
  · cases handles

theorem isHandlerKey_eventKey (kind) (named : event ≠ "") :
    isHandlerKey (Lower.eventKey kind event) = true := by
  have capital : ∀ s : String, s ≠ "" → isHandlerKey (handlerKey (camelize s)) = true := by
    intro s some
    obtain ⟨c, cs, camel⟩ : ∃ c cs, camelizeChars s.toList = c :: cs := by
      obtain ⟨c, cs, shape⟩ := exists_cons_of_ne_nil (show s.toList ≠ [] by simpa using some)
      rw [shape]
      cases cs with
      | nil => exact ⟨_, _, rfl⟩
      | cons next rest =>
        obtain ⟨d, ds, upper, -⟩ := Text.head_upper next
        unfold camelizeChars
        split
        · exact ⟨d, _, by rw [upper]; rfl⟩
        · exact ⟨_, _, rfl⟩
    obtain ⟨d, ds, upper, notLower⟩ := Text.head_upper c
    simp [isHandlerKey, handlerKey, capitalize, camelize, camel, upper, notLower]
  have either (camel : Bool) {s : String} (some : s ≠ "") :
      isHandlerKey (if camel then handlerKey (camelize s) else "on:" ++ s) = true := by
    cases camel
    · exact isHandlerKey_append s (by decide)
    · exact capital s some
  unfold Lower.eventKey
  split
  · exact either _ (by simp [← String.toList_inj])
  · exact either _ named

theorem Expression.NamesHandler.modify {p : Property} (handles : p.key.NamesHandler) (modifiers) :
    (modifyHandler modifiers p).key.NamesHandler := by
  have rename {key : Expression} {event : String} (handles : key.NamesHandler)
      (known : isHandlerKey event = true) : (renameClick key event).NamesHandler := by
    obtain ⟨name, static, isKey⟩ := handles
    simp only [renameClick, static]
    split
    · exact ⟨event, rfl, known⟩
    · exact ⟨name, static, isKey⟩
  have options {key : Expression} (options : List String) (handles : key.NamesHandler) :
      (addOptions key options).NamesHandler := by
    obtain ⟨name, static, isKey⟩ := handles
    simp only [addOptions, static]
    split
    · exact ⟨name, static, isKey⟩
    · exact ⟨_, rfl, isHandlerKey_append _ isKey⟩
  apply options
  have right (guarded : Bool) :
      (if guarded then renameClick p.key "onContextmenu" else p.key).NamesHandler := by
    cases guarded
    · exact handles
    · exact rename handles (by decide)
  unfold modifiedKey
  dsimp only
  split
  · exact rename (right _) (by decide)
  · exact right _

/-- Parts as one expression. -/
def mergeParts : List RenderNode → Option RenderNode
  | [] => none
  | [one] => some one
  | several => some (.call .mergeProps several)

theorem PropsBuild.expression?_eq (b : PropsBuild) : b.expression? = mergeParts b.flush.merged := by
  unfold expression? flush
  by_cases parts : b.merged = [] <;> by_cases pending : b.pending = []
  · simp [parts, pending, mergeParts]
  · simp [parts, pending, mergeParts]
  all_goals
    obtain ⟨first, rest, shape⟩ := exists_cons_of_ne_nil parts
    cases rest <;> simp [shape, pending, mergeParts]

namespace Lower

end Lower

end Stencil
