import Stencil.Proofs.Script.Stable

/-! # Default values that are taken from the context

The code of a script holds a site of it behind its context, or is the script as it was written. For
parameters that are written `target = _ctx.name` this leaves two ways to have come about: `name` was
a site, or the parameters had this default value from the start and use `_ctx` themselves.
-/

namespace Stencil.Script

open List Reader Text String Expression Phrases

theorem codes_splice_cons (base pos cs r rest) :
    ∃ before after, (Part.codes (splice base pos cs (r :: rest))).toList =
      before ++ ((inContext r.ident.name).toList ++ after) := by
  rw [splice, Part.codes_append, Part.codes, toList_append, toList_append]
  exact ⟨_, _, rfl⟩

/-- The code of a script is the script itself, or holds a site of it behind its context. -/
theorem code_of_process {s : Snippet} {known : String → Bool} (dynamic : s.isStatic = false)
    (run : process s known true mode = .ok e) :
    e.code = s.content ∧ (isBlankString s.content = true ∨
        ∃ u, uses mode s.content = .ok u ∧ u.sites known = []) ∨
      ∃ u r before after, uses mode s.content = .ok u ∧ r ∈ u.sites known ∧
        IsName r.ident.name.toList ∧
        e.code.toList = before ++ ((inContext r.ident.name).toList ++ after) := by
  rcases process_code dynamic run with
    ⟨blank, code⟩ | ⟨u, used, names, ⟨r, sole, _, code⟩ | code⟩
  · exact .inl ⟨code, .inl blank⟩
  · have member : r ∈ u.sites known := by simp [sole]
    exact .inr ⟨u, r, [], [], used, member, names r member, by simp [code]⟩
  · cases sites : u.sites known with
    | nil =>
      rw [sites, codes_splice_nil, ofList_toList] at code
      exact .inl ⟨code, .inr ⟨u, used, sites⟩⟩
    | cons r rest =>
      have member : r ∈ u.sites known := by simp [sites]
      rw [sites] at code
      obtain ⟨before, after, codes⟩ := codes_splice_cons s.span.start 0 s.content.toList r rest
      exact .inr ⟨u, r, before, after, used, member, names r member, code ▸ codes⟩

/-! ## Reading a default value -/

/-- What is written for a parameter `target` with the default value `_ctx.name`. -/
def contextDefault (target name : String) : String :=
  target ++ " = " ++ inContext name

section Reading

variable {front back : List Char} {target name : String}

theorem tokenize_contextDefault (isTarget : IsName target.toList) (isName : IsName name.toList)
    (before : ∀ c ∈ front, isBlank c = true) (after : ∀ c ∈ back, isBlank c = true) :
    ∃ t sign ctx dot id newline,
      tokenize 0 (front ++ ((contextDefault target name).toList ++ back)) =
        .ok [t, sign, ctx, dot, id] ∧
      t.Is .word target newline ∧ sign.Is .punctuator "=" false ∧ ctx.Is .word "_ctx" false ∧
      dot.Is .punctuator "." false ∧ id.Is .word name false := by
  have leading := (Gap.of_blank before).skipTrivia (isTarget.solid ([' '] ++
    '=' :: ' ' :: (Mark.context.text ++ (name.toList ++ back)))) 0
  obtain ⟨t, sign, ctx, dot, id, lexes, isT, isSign, isCtx, _, isDot, isId⟩ :=
    Lexes.assigned (.inr ⟨rfl, rfl⟩) isTarget isName leading (stops_of_blank after)
      (.done (skipTrivia_end_eq_ok.mpr ⟨.of_blank after, rfl⟩))
  rw [ofList_toList] at isT isId
  refine ⟨t, sign, ctx, dot, id, _, ?_, isT, isSign, isCtx, isDot, isId⟩
  rw [tokenize_eq_ok]
  simpa [contextDefault, inContext, Mark.text] using lexes

theorem readParamList_contextDefault (n) {t sign ctx dot id : Token}
    (isT : t.Is .word target newline) (isSign : sign.Is .punctuator "=" false)
    (isCtx : ctx.Is .word "_ctx" false) (isDot : dot.Is .punctuator "." false)
    (isId : id.Is .word name false) (free : isReservedWord target = false) (stop) :
    (phrases (n + 2)).readParamList ⟨[t, sign, ctx, dot, id], stop⟩ =
      .ok ([.default (.ident ⟨target, t.start, t.stop⟩) (contextAt ctx.start)], ⟨[], stop⟩) := by
  obtain rfl := isT.text
  have value := readsContext n ctx dot id false name [] stop isCtx isDot isId rfl
  refine readParamList_single isT.kind ?_
  rw [readPattern, bind_run (readTarget_name isT.kind free),
    bind_run (eat_of_is isSign ..), if_pos rfl, bind_run value]
  rfl

/-- A parameter with a default value from the context binds its name and uses the context. -/
theorem parseParams_contextDefault {script : String}
    (split : script.toList = front ++ ((contextDefault target name).toList ++ back))
    (isTarget : IsName target.toList) (free : isReservedWord target = false)
    (isName : IsName name.toList) (before : ∀ c ∈ front, isBlank c = true)
    (after : ∀ c ∈ back, isBlank c = true) : ∃ id i, id.name = target ∧ i.name = "_ctx" ∧
      parseParams script = .ok [.default (.ident id) (.member (.ident i))] := by
  obtain ⟨t, sign, ctx, dot, id, newline, lexed, isT, isSign, isCtx, isDot, isId⟩ :=
    tokenize_contextDefault isTarget isName before after
  have size : ∃ n, script.toList.length = n + 1 := by
    exact Nat.exists_eq_succ_of_ne_zero (by simp [split, contextDefault])
  obtain ⟨n, length⟩ := size
  have read := readParamList_contextDefault n isT isSign isCtx isDot isId free
    (0 + bytes script.toList)
  have deep : (phrasesFor script).paramList = (phrases (n + 2)).readParamList := by
    rw [phrasesFor, length]
    rfl
  rw [← deep] at read
  exact ⟨_, _, rfl, rfl, readAll_ok.mpr ⟨_, _, split ▸ lexed, read, rfl⟩⟩

theorem parseParams_name {script : String} (split : script.toList = front ++ (name.toList ++ back))
    (isName : IsName name.toList) (free : isReservedWord name = false)
    (before : ∀ c ∈ front, isBlank c = true) (after : ∀ c ∈ back, isBlank c = true) :
    ∃ id, id.name = name ∧ parseParams script = .ok [.ident id] := by
  obtain ⟨t, lexed, kind, rfl⟩ := tokenize_name isName before after
  have read : (phrasesFor script).paramList ⟨[t], 0 + bytes script.toList⟩ = _ :=
    readParamList_name kind free
  exact ⟨_, rfl, readAll_ok.mpr ⟨_, _, split ▸ lexed, read, rfl⟩⟩

/-! ## Where qualified parameters come from -/

theorem dot_notMem_blank {cs : List Char} (blank : ∀ c ∈ cs, isBlank c = true) : '.' ∉ cs :=
  fun dot => absurd (blank _ dot) (by decide)

theorem IsName.dot_notMem (isName : IsName cs) : '.' ∉ cs :=
  fun dot => absurd (isName.parts _ dot) (by decide)

/-- A name is no longer than another that stands in the same place, with no name part behind it. -/
theorem prefix_of_stops (same : first ++ rest = second ++ back)
    (parts : ∀ c ∈ first, isNamePart c = true) (stops : back.head?.any isNamePart = false) :
    first <+: second := by
  rcases append_eq_append_iff.mp same with ⟨more, rfl, _⟩ | ⟨more, rfl, split⟩
  · exact prefix_append ..
  · cases more with
    | nil => simp
    | cons c more =>
      have isPart : isNamePart c = true := parts c (by simp)
      simp [split, isPart] at stops

theorem visible_of_mem {s : String} (member : c ∈ s.toList) (solid : isBlank c = false) :
    isBlankString s = false := by
  cases blank : isBlankString s with
  | false => rfl
  | true => simp [all_eq_true.mp blank _ member] at solid

variable (dynamic : s.isStatic = false) (run : process s known true .params = .ok e)
include dynamic run

/-- Parameters that are written as a name were this name from the start. -/
theorem bindingNames_of_name
    (split : e.code.toList = front ++ (name.toList ++ back)) (isName : IsName name.toList)
    (free : isReservedWord name = false) (before : ∀ c ∈ front, isBlank c = true)
    (after : ∀ c ∈ back, isBlank c = true) : bindingNames s.content = .ok [name] := by
  have noDot : '.' ∉ e.code.toList := by
    simp [split, dot_notMem_blank before, dot_notMem_blank after, isName.dot_notMem]
  rcases code_of_process dynamic run with ⟨code, _⟩ | ⟨u, r, begun, rest, _, _, _, code⟩
  · rw [code] at split
    obtain ⟨id, isId, parsed⟩ := parseParams_name split isName free before after
    have visible : isBlankString s.content = false := by
      obtain ⟨c, more, cons, start, _⟩ := isName
      exact visible_of_mem (by simp [split, cons]) (solid_of_isNameStart start).1
    rw [bindingNames, visible, parsed, ← isId]
    rfl
  · exact absurd (by simp [code, inContext]) noDot

/-- A default value from the context comes about in two ways: a name was taken from the context, or
    the parameters use the context themselves. -/
theorem process_contextDefault
    (split : e.code.toList = front ++ ((contextDefault target name).toList ++ back))
    (isTarget : IsName target.toList) (free : isReservedWord target = false)
    (isName : IsName name.toList) (other : target ≠ "_ctx")
    (before : ∀ c ∈ front, isBlank c = true) (after : ∀ c ∈ back, isBlank c = true) :
    ∃ u, uses .params s.content = .ok u ∧ ∃ r ∈ u.refs,
      r.isContext known = true ∧ IsName r.ident.name.toList ∧ r.ident.name.toList <+: name.toList ∨
      r.bound = false ∧ r.ident.name = "_ctx" ∧ known "_ctx" = true ∧
        bindingNames s.content = .ok [target] := by
  have visible : isBlankString e.code = false := by
    have sign : '=' ∈ e.code.toList := by simp [split, contextDefault]
    exact visible_of_mem sign (by decide)
  rcases code_of_process dynamic run with
    ⟨code, blank | ⟨u, used, none⟩⟩ | ⟨u, r, begun, rest, used, site, rName, code⟩
  · simp [code, blank] at visible
  · rw [code] at split visible
    obtain ⟨id, i, isId, isContext, parsed⟩ :=
      parseParams_contextDefault split isTarget free isName before after
    have used' : uses .params s.content = .ok ⟨[⟨i, false, false⟩], true⟩ := by
      rw [uses, parsed]
      simp [bind, Except.bind, pure, Except.pure, paramsUses, Pattern.usesAll, Pattern.namesAll,
        Pattern.names, Pattern.uses, Expr.uses, Uses.ref, Uses.and, Uses.none, Uses.computing, isId,
        isContext, other.symm]
    obtain rfl := Except.ok.inj (used.symm.trans used')
    refine ⟨_, used, _, mem_cons_self, .inr ⟨rfl, isContext, ?_, ?_⟩⟩
    · have unsited := Uses.sites_eq_nil_iff.mp none _ mem_cons_self
      simpa [Ref.isContext, Ref.isLocal, isContext, isAllowedGlobal] using unsited
    · rw [bindingNames, visible, parsed, ← isId]
      rfl
  · obtain ⟨member, context⟩ := Uses.of_mem_sites site
    refine ⟨u, used, r, member, .inl ⟨context, rName, ?_⟩⟩
    -- the only dot of the code is the one behind the context
    have whole : (front ++ (target.toList ++ " = _ctx".toList)) ++ '.' :: (name.toList ++ back) =
        (begun ++ "_ctx".toList) ++ '.' :: (r.ident.name.toList ++ rest) := by
      simpa [contextDefault, inContext] using split.symm.trans code
    have noneBefore : '.' ∉ front ++ (target.toList ++ " = _ctx".toList) := by
      simp [dot_notMem_blank before, isTarget.dot_notMem]
    have noneAfter : '.' ∉ name.toList ++ back := by
      simp [dot_notMem_blank after, isName.dot_notMem]
    obtain ⟨_, _, same⟩ := (append_cons_inj_of_notMem noneBefore noneAfter).mp whole
    exact prefix_of_stops same.symm rName.parts (stops_of_blank after)

end Reading

end Stencil.Script
