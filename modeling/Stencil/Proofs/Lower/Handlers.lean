import Stencil.Proofs.Lower.Scripting
import Stencil.Proofs.Script.Sums

/-! # Models and listeners

A model assigns to what its script names. The keys of a model with a dynamic argument and of a
listener with options are sums of a string and code that is written as it stands: they mean what
they should where the code binds tighter than the sign.
-/

namespace Stencil

open List Script Text Expression Phrases Expr Reader

theorem Text.quote_plain {s : String} (plain : ∀ c ∈ s.toList, escape c = [c]) :
    quote s = "\"" ++ s ++ "\"" := by
  have same : s.toList.flatMap escape = s.toList := by
    rw [flatMap_congr plain, flatMap_singleton']
  rw [← String.ofList_toList (s := "\"" ++ s ++ "\""), quote, quoteChars, same]
  simp

/-- A string beside a sign. -/
theorem term_quote (least s) : Term least (quote s) .literal :=
  (operand_quote s).term rfl least

theorem steady_quote (signs s) :
    tokensFrom signs none 0 (quote s).toList = tokenize 0 (quote s).toList :=
  (tokensFrom_of_lexes (lexes_quote _ s)).trans (tokensFrom_of_lexes (lexes_quote _ s)).symm

/-- The text reads as the sum of two others, of which either is as a whole an operand. -/
def IsSum (text left right : String) : Prop :=
  text = left ++ " + " ++ right ∧ ∃ a b o o', parseExpression left = .ok a ∧
    parseExpression right = .ok b ∧ parseExpression text = .ok (.binary (moved o a) (moved o' b))

theorem isSum_quote (h : Term 10 script a) (s) :
    IsSum (script ++ " + " ++ quote s) script (quote s) := by
  obtain ⟨o, o', sum⟩ := parseExpression_sum h (term_quote 11 s) (steady_quote _ s)
  exact ⟨rfl, a, .literal, o, o', h.reads, (operand_quote s).reads, sum⟩

theorem quote_isSum (h : Term 11 script a) (s) :
    IsSum (quote s ++ " + " ++ script) (quote s) script := by
  have steady : tokensFrom (!beginsWith ['0', 'x'] (quote s).toList) none 0
      script.toList = tokenize 0 script.toList := by
    rw [quote, String.toList_ofList]
    exact h.steady
  obtain ⟨o, o', sum⟩ := parseExpression_sum (term_quote 10 s) h steady
  exact ⟨rfl, .literal, a, o, o', (operand_quote s).reads, h.reads, sum⟩

/-- Which operands of a sum are sums themselves. -/
def Script.Expr.sums? : Expr → Option (Bool × Bool)
  | .binary left right => some (isSum left, isSum right)
  | _ => none
where isSum : Expr → Bool
  | .binary .. => true
  | _ => false

theorem IsSum.sums? (h : IsSum text left right) :
    (parseExpression text).toOption.bind sums? = (parseExpression left).toOption.bind fun a =>
      (parseExpression right).toOption.map fun b => (sums?.isSum a, sums?.isSum b) := by
  have kept : ∀ (o : Nat) (e : Expr), sums?.isSum (moved o e) = sums?.isSum e := by
    intro o e
    cases e with
    | template tag parts => cases tag <;> rfl
    | _ => rfl
  obtain ⟨-, a, b, o, o', left, right, sum⟩ := h
  rw [left, right, sum]
  exact congrArg some (Prod.ext (kept o a) (kept o' b))

/-! ## Targets of models -/

variable {arg : Expression} {a : Expr}

theorem parseExpression_name (simple : isSimpleName name = true) (noWait : name ≠ "await") :
    parseExpression name = .ok (.ident ⟨name, 0, bytes name.toList⟩) := by
  rw [isSimpleName] at simple
  split at simple
  · cases simple
  next c cs chars =>
  simp only [Bool.and_eq_true, Bool.not_eq_true', all_eq_true] at simple
  obtain ⟨⟨start, parts⟩, free⟩ := simple
  have same : String.ofList (c :: cs) = name := by rw [← chars, String.ofList_toList]
  have lexes : Lexes (!beginsWith ['0', 'x'] name.toList) none 0 name.toList
      [⟨.word, name, 0, false⟩] := by
    have word := @Lexes.name [] (!beginsWith ['0', 'x'] name.toList) 0 none [] (c :: cs)
      ⟨c, cs, rfl, start, parts⟩ rfl .nil
    rwa [append_nil, same, ← chars] at word
  have other : ∀ word, isReservedWord word = true → name ≠ word := by
    rintro word reserved rfl
    rw [reserved] at free
    cases free
  have read : ∀ (p : Phrases) stop, p.readExpression ⟨[⟨.word, name, 0, false⟩], stop⟩ =
      .ok (.ident ⟨name, 0, 0 + bytes name.toList⟩, ⟨[], stop⟩) := by
    intro p stop
    refine readExpression_of_readPostfix rfl rfl ?_ ?_
    · simp [isPrefixOperator, noWait, other "typeof" rfl, other "void" rfl,
        other "delete" rfl]
    · rw [readPostfix_name rfl ⟨free, by simp⟩]
      exact readChain_end rfl _ stop
  rw [← Nat.zero_add (bytes name.toList)]
  exact readAll_ok.mpr ⟨_, _, tokensFrom_of_lexes lexes, read _ _, rfl⟩

def Script.Expr.bare : Expr → Expr
  | .paren e => e.bare
  | e => e

theorem Script.Expr.bare_of_isMember {e : Expr} (h : e.isMember = true) :
    (∃ id, e.bare = .ident id) ∨ (∃ object, e.bare = .member object) ∨
      ∃ object property, e.bare = .index object property := by
  fun_induction isMember with
  | case4 e ih => exact ih h
  | _ => simp_all [bare]

/-- A model assigns to a name or to an access, perhaps in brackets, and never to a name that a loop
    or a slot binds. The name is looked for in the script as it is written, so not between brackets
    or behind a comment. -/
theorem Lower.modelDirective_target (el : Element) (o : Options) (c : Context)
    (writes : (exec (modelDirective d el) o c).1.props ≠ []) :
    ∃ e target key event update rest, d.script? = some e ∧
      (exec (modelDirective d el) o c).1.props = ⟨key, .expr e⟩ :: ⟨event, .expr update⟩ :: rest ∧
      update.code = "$event => ((" ++ e.code ++ ") = $event)" ∧
      parseExpression (trimmed e.source) = .ok target ∧
      ((∃ id, target.bare = .ident id) ∨ (∃ object, target.bare = .member object) ∨
        ∃ object property, target.bare = .index object property) ∧
      (o.qualify = true → isSimpleName (trimmed e.source) = true →
        ∃ id, target = .ident id ∧ id.name = trimmed e.source ∧
          c.source? id.name ≠ some .loop ∧ c.source? id.name ≠ some .slot) := by
  rw [modelDirective, exec_bind] at writes ⊢
  cases found : (exec (modelTarget? d) o c).1 with
  | none =>
    rw [found] at writes
    exact absurd rfl writes
  | some e =>
    obtain ⟨script, member, free⟩ : d.script? = some e ∧ isMemberScript (trimmed e.source) = true ∧
        ((o.qualify && isSimpleName (trimmed e.source) && (c.source? (trimmed e.source) == some .loop ||
          c.source? (trimmed e.source) == some .slot)) = false) := by
      rw [modelTarget?] at found
      split at found
      · cases found
      next e' script =>
        change (exec (if _ then _ else if _ then pure (some e') else _) o c).1 = _ at found
        split at found
        · cases found
        next free =>
          split at found
          next member =>
            cases found
            exact ⟨script, member, by simpa using free⟩
          · cases found
    rw [isMemberScript] at member
    split at member
    next target parsed =>
      refine ⟨e, target, _, _, _, _, script, rfl, ?_, parsed, Expr.bare_of_isMember member, ?_⟩
      · simp [← String.toList_inj, Expression.around, Expression.code, Compound.code, Part.codes,
          Part.code]
      · intro qualify simple
        have noWait : trimmed e.source ≠ "await" := by
          intro isWait
          have none : (parseExpression "await").toOption.isSome = false := by decide +kernel
          rw [← isWait, parsed] at none
          cases none
        cases parsed.symm.trans (parseExpression_name simple noWait)
        exact ⟨_, rfl, rfl, by simpa [qualify, simple] using free⟩
    · cases member

def Script.Expr.name? : Expr → Option String
  | .ident id => some id.name
  | _ => none

def dynamicDirective (arg script : String) (modifiers : List String) : Directive :=
  { name := "model", rawName := "v-model", arg := some (.snippet arg false ⟨0, 0⟩), modifiers
    exp := some (.snippet script false ⟨0, 0⟩), span := ⟨0, 0⟩, loop := none }

def componentElement : Element :=
  ⟨"Foo", .component, [], true, none, ⟨0, 0⟩⟩

theorem nameModel_target :
    ∃ id, parseExpression "c" = .ok (.ident id) ∧ id.name = "c" ∧
      Context.source? { scope := [⟨"i", .loop⟩] } id.name ≠ some .loop := by
  have writes : (Lower.exec (Lower.modelDirective (dynamicDirective "a" "c" []) componentElement) {}
      { scope := [⟨"i", .loop⟩] }).1.props.isEmpty = false := by decide +kernel
  obtain ⟨e, target, _, _, _, _, script, _, _, parsed, _, free⟩ :=
    Lower.modelDirective_target componentElement {} { scope := [⟨"i", .loop⟩] } fun none => by
      rw [none] at writes
      cases writes
  cases script
  obtain ⟨id, rfl, same, noLoop, _⟩ := free rfl (by decide +kernel)
  exact ⟨id, parsed, same, noLoop⟩

/-- A name between brackets is assigned to although a loop binds it. -/
theorem bracketedModel_assigned :
    (Lower.exec (Lower.modelDirective (dynamicDirective "a" "(i)" []) componentElement) {}
        { scope := [⟨"i", .loop⟩] }).1.props ≠ [] ∧
      ∃ target, parseExpression "(i)" = .ok target ∧ target.bare.name? = some "i" := by
  have writes : (Lower.exec (Lower.modelDirective (dynamicDirective "a" "(i)" []) componentElement)
      {} { scope := [⟨"i", .loop⟩] }).1.props.isEmpty = false := by decide +kernel
  have named : (parseExpression "(i)").toOption.map (·.bare.name?) = some (some "i") := by
    decide +kernel
  refine ⟨fun none => ?_, ok_of_toOption named⟩
  rw [none] at writes
  cases writes

/-! ## Keys of models -/

theorem Lower.modelKeys_dynamic (isArg : d.arg = some arg) (dynamic : arg.isStatic = false) :
    (modelKeys d).value = arg ∧ (modelKeys d).event.code = quote "onUpdate:" ++ " + " ++ arg.code ∧
      (modelKeys d).modifiers.code = arg.code ++ " + " ++ quote "Modifiers" := by
  have marks : quote "onUpdate:" = "\"onUpdate:\"" ∧ quote "Modifiers" = "\"Modifiers\"" :=
    ⟨rfl, rfl⟩
  have keys : modelKeys d =
      ⟨arg, .around [.raw "\"onUpdate:\" + ", .expr arg] arg,
        .around [.expr arg, .raw " + \"Modifiers\""] arg⟩ := by
    rw [modelKeys, isArg]
    cases arg with
    | simple s =>
      have dynamic : s.isStatic = false := dynamic
      simp [dynamic]
    | compound c => rfl
  rw [keys, marks.1, marks.2]
  simp [Expression.around, Expression.code, Compound.code, Part.codes, Part.code, String.append_assoc]

/-- A model whose argument is dynamic sets the argument, the sum of `onUpdate:` and the argument,
    and for its modifiers the sum of the argument and `Modifiers`. Either sum has the whole argument
    as one operand, if no operator of the argument binds looser than the sign or stands where the
    sign would take its operand: the argument is not put in brackets. -/
theorem Lower.modelDirective_keys (el : Element) (o : Options) (c : Context)
    (isArg : d.arg = some arg) (dynamic : arg.isStatic = false)
    (writes : (exec (modelDirective d el) o c).1.props ≠ []) : ∃ value event update modifiers,
      (exec (modelDirective d el) o c).1.props = ⟨arg, value⟩ :: ⟨event, update⟩ :: modifiers ∧
      (Term 11 arg.code a → IsSum event.code (quote "onUpdate:") arg.code) ∧ (Term 10 arg.code a →
        ∀ p ∈ modifiers, IsSum p.key.code arg.code (quote "Modifiers")) := by
  obtain ⟨isValue, event, modifiers⟩ := modelKeys_dynamic isArg dynamic
  rw [modelDirective, exec_bind] at writes ⊢
  cases target : (exec (modelTarget? d) o c).1 with
  | none =>
    rw [target] at writes
    exact absurd rfl writes
  | some e =>
    refine ⟨_, (modelKeys d).event, _, _, by rw [← isValue]; rfl, fun tight => ?_,
      fun tight p member => ?_⟩
    · rw [event]
      exact quote_isSum tight "onUpdate:"
    · split at member
      · cases member
      · obtain rfl := mem_singleton.mp member
        show IsSum (modelKeys d).modifiers.code _ _
        rw [modifiers]
        exact isSum_quote tight "Modifiers"

theorem memberModel_keys :
    ∃ value event update modifiers, (Lower.exec (Lower.modelDirective
        (dynamicDirective "_ctx.a.b" "_ctx.c" ["x"]) componentElement) {} {}).1.props =
      [⟨.snippet "_ctx.a.b" false ⟨0, 0⟩, value⟩, ⟨event, update⟩, modifiers] ∧
      IsSum event.code "\"onUpdate:\"" "_ctx.a.b" ∧
      IsSum modifiers.key.code "_ctx.a.b" "\"Modifiers\"" := by
  have parsed : (parseExpression "_ctx.a.b").toOption.map
      (fun a => (a.isSequence, a.isFactor)) = some (false, true) := by decide +kernel
  obtain ⟨a, reads, shape⟩ := ok_of_toOption parsed
  have operand : Operand "_ctx.a.b" a :=
    ⟨reads, congrArg Prod.fst shape, by decide +kernel, rfl⟩
  have tight := operand.term (congrArg Prod.snd shape)
  have size : (Lower.exec (Lower.modelDirective (dynamicDirective "_ctx.a.b" "_ctx.c" ["x"])
      componentElement) {} {}).1.props.length = 3 := by decide +kernel
  obtain ⟨value, event, update, modifiers, props, isEvent, isModifiers⟩ :=
    @Lower.modelDirective_keys (.snippet "_ctx.a.b" false ⟨0, 0⟩) a
      (dynamicDirective "_ctx.a.b" "_ctx.c" ["x"]) componentElement {} {} rfl rfl
      (by rintro none; rw [none] at size; cases size)
  rw [props] at size
  obtain ⟨m, rfl⟩ := length_eq_one_iff.mp (Nat.succ.inj (Nat.succ.inj size))
  exact ⟨value, event, update, m, props, isEvent (tight 11), isModifiers (tight 10) m (by simp)⟩

/-- The sign takes one side of an argument that binds looser. -/
theorem choiceModel_not_sums :
    ¬ IsSum (Lower.modelKeys (dynamicDirective "_ctx.a||_ctx.b" "c" ["x"])).event.code
        "\"onUpdate:\"" "_ctx.a||_ctx.b" ∧
      ¬ IsSum (Lower.modelKeys (dynamicDirective "_ctx.a||_ctx.b" "c" ["x"])).modifiers.code
        "_ctx.a||_ctx.b" "\"Modifiers\"" :=
  ⟨fun sum => absurd sum.sums? (by decide +kernel), fun sum => absurd sum.sums? (by decide +kernel)⟩

/-! ## Listeners -/

namespace Dom

theorem quote_options {options : List String} (listed : ∀ m ∈ options, isListenerOption m = true) :
    quote (String.join (options.map capitalize)) =
      "\"" ++ String.join (options.map capitalize) ++ "\"" := by
  refine quote_plain fun c member => ?_
  obtain ⟨m, among, part⟩ : ∃ m ∈ options, c ∈ (capitalize m).toList := by
    simpa [String.toList_join] using member
  have plain : ∀ m ∈ ["passive", "once", "capture"],
      (capitalize m).toList.all fun c => escape c = [c] := by decide
  exact forall_of_all (plain m (by simpa [isListenerOption] using listed m among)) c part

theorem onKey_dynamic (kind) (dynamic : arg.isStatic = false) :
    (Lower.onKey kind arg).static? = none ∧
      (Lower.onKey kind arg).code = "_toHandlerKey(" ++ arg.code ++ ")" := by
  have key : Lower.onKey kind arg =
      .around [.helper .toHandlerKey, .raw "(", .expr arg, .raw ")"] arg := by
    cases arg with
    | simple s =>
      have dynamic : s.isStatic = false := dynamic
      simp [Lower.onKey, dynamic]
    | compound c => rfl
  rw [key]
  refine ⟨rfl, ?_⟩
  simp [← String.toList_inj, around, code, Compound.code, Part.codes,
    Part.code, Helper.localName, Helper.toHandlerKey]

theorem addOptions_dynamic {key : Expression} {options : List String} (dynamic : key.static? = none)
    (nonempty : options ≠ []) (listed : ∀ m ∈ options, isListenerOption m = true) :
    (addOptions key options).code =
      key.code ++ " + " ++ quote (String.join (options.map capitalize)) := by
  rw [addOptions, if_neg (by simpa using nonempty), dynamic, quote_options listed]
  simp [← String.toList_inj, around, code, Compound.code, Part.codes,
    Part.code]

/-- A listener for an event that is named at run time has its options behind the key of the event,
    whatever the event is, unless it also listens for a button of the mouse: the key of the click is
    then chosen by a conditional, which is not put in brackets. -/
theorem handler_optionKey {a : Expr} (el : Element) (o : Options) (c : Context)
    (isArg : d.arg = some arg) (dynamic : arg.isStatic = false) (operand : Operand arg.code a)
    (listens : ∃ m ∈ d.modifiers, isListenerOption m = true)
    (noButton : "right" ∉ d.modifiers ∧ "middle" ∉ d.modifiers) :
    ∃ key value, (Lower.exec (handler d el) o c).1.props = [⟨key, value⟩] ∧
      IsSum key.code (Lower.onKey el.kind arg).code
        (quote (String.join ((d.modifiers.filter isListenerOption).map capitalize))) := by
  obtain ⟨noName, code⟩ := onKey_dynamic el.kind dynamic
  obtain ⟨options, guards⟩ := options_sortModifiers (Lower.onKey el.kind arg) d.modifiers
  obtain ⟨m, among, isOption⟩ := listens
  have some : d.modifiers.isEmpty = false := by
    cases same : d.modifiers with
    | nil => simp [same] at among
    | cons => rfl
  have kept : modifiedKey (Lower.onKey el.kind arg)
      (sortModifiers (Lower.onKey el.kind arg) d.modifiers) = Lower.onKey el.kind arg := by
    have none : ∀ g, g ∉ d.modifiers →
        (sortModifiers (Lower.onKey el.kind arg) d.modifiers).guards.contains g = false :=
      fun g absent => by simpa using fun member => absent (guards g member)
    rw [modifiedKey, none "right" noButton.1, none "middle" noButton.2]
    rfl
  have run : ∃ value, (Lower.exec (handler d el) o c).1.props =
      [modifyHandler d.modifiers ⟨Lower.onKey el.kind arg, value⟩] := by
    obtain ⟨value, first⟩ : ∃ value, (Lower.exec (Lower.onDirective d el) o c).1.props =
        [⟨Lower.onKey el.kind arg, value⟩] := by
      rw [Lower.onDirective, isArg]
      cases d.script? <;> exact ⟨_, rfl⟩
    exact ⟨value, by simp [handler, some, first]⟩
  obtain ⟨value, run⟩ := run
  refine ⟨_, _, run, ?_⟩
  obtain ⟨p, call⟩ := @operand_call "toHandlerKey".toList (forall_of_all (by decide)) _ _ operand
  have same : String.ofList ('_' :: ("toHandlerKey".toList ++ '(' :: (arg.code.toList ++ [')']))) =
      (Lower.onKey el.kind arg).code := by
    rw [code, ← String.toList_inj]
    simp
  rw [same] at call
  have listed : ∀ m ∈ d.modifiers.filter isListenerOption, isListenerOption m = true :=
    fun m member => (mem_filter.mp member).2
  have nonempty : d.modifiers.filter isListenerOption ≠ [] :=
    ne_nil_of_mem (mem_filter.mpr ⟨among, isOption⟩)
  rw [kept, options, addOptions_dynamic noName nonempty listed]
  exact isSum_quote (call.term rfl 10) _

theorem onceListener_key :
    ∃ key value, (Lower.exec (handler (dynamicDirective "_ctx.e" "f" ["stop", "once"])
        componentElement) {} {}).1.props = [⟨key, value⟩] ∧
      IsSum key.code "_toHandlerKey(_ctx.e)" "\"Once\"" := by
  have parsed : (parseExpression "_ctx.e").toOption.map Expr.isSequence = some false := by
    decide +kernel
  obtain ⟨a, reads, single⟩ := ok_of_toOption parsed
  exact @handler_optionKey (.snippet "_ctx.e" false ⟨0, 0⟩)
    (dynamicDirective "_ctx.e" "f" ["stop", "once"]) a componentElement {} {} rfl rfl
    ⟨reads, single, by decide +kernel, rfl⟩ ⟨"once", by decide, rfl⟩ ⟨by decide, by decide⟩

/-- Where the click of another button is another event, the options stand behind one of the two. -/
theorem rightOnceListener_not_sum :
    ∃ p, (Lower.exec (handler (dynamicDirective "_ctx.e" "f" ["right", "once"]) componentElement)
        {} {}).1.props = [p] ∧ ∀ whole, ¬ IsSum p.key.code whole "\"Once\"" := by
  have choice : (Lower.exec (handler (dynamicDirective "_ctx.e" "f" ["right", "once"])
      componentElement) {} {}).1.props.map
        (fun p => (parseExpression p.key.code).toOption.bind Expr.sums?) = [none] := by
    decide +kernel
  obtain ⟨p, props, noSum⟩ := map_eq_singleton_iff.mp choice
  refine ⟨p, props, fun whole sum => ?_⟩
  obtain ⟨-, a, b, o, o', -, -, sum⟩ := sum
  rw [sum] at noSum
  cases noSum

end Dom

end Stencil
