import Stencil.Proofs.Script.Operands

/-! # Arrow functions

An arrow function is recognised by looking ahead for the arrow behind its parameters. Writing before
names adds no brackets and no arrows, so what is found stays the same.
-/

namespace Stencil.Script.Phrases

open Reader Token Result Phrases FollowsAt

variable {p q : Phrases} {tokens tokens' : List Token}

theorem afterClosing?_cons (depth t tokens) :
    afterClosing? depth (t :: tokens) =
      if t.isOpening then afterClosing? (depth + 1) tokens
      else if t.isClosing then
        match depth with
        | 0 => none
        | 1 => some tokens
        | depth + 1 => afterClosing? depth tokens
      else afterClosing? depth tokens := by
  cases depth <;> rfl

theorem afterClosing?_plain (noOpening : t.isOpening = false) (noClosing : t.isClosing = false) :
    afterClosing? depth (t :: tokens) = afterClosing? depth tokens := by
  rw [afterClosing?_cons, noOpening, noClosing]
  rfl

theorem afterClosing?_of_kind (other : t.kind ≠ .punctuator) :
    afterClosing? depth (t :: tokens) = afterClosing? depth tokens :=
  afterClosing?_plain (by simp [isOpening, other]) (by simp [isClosing, other])

theorem afterClosing?_of_is {depth text newline} (h : t.Is .punctuator text newline)
    (other : text = "." ∨ text = ":") :
    afterClosing? depth (t :: tokens) = afterClosing? depth tokens := by
  apply afterClosing?_plain <;> rcases other with rfl | rfl <;>
    simp [isOpening, isClosing, h.text]

theorem any_arrow (h : Woven w tail tokens tokens') (stop : Ends tail) :
    tokens'.head?.any (·.isPunctuator "=>") = tokens.head?.any (·.isPunctuator "=>") :=
  h.any_head_eq (tests_isPunctuator "=>")
    (fun t passes word => by simp [isPunctuator, word] at passes)
    fun _ => stop.head_any fun t => isPunctuator_of_isEnd (by simp)

/-- The arrow behind the bracket that closes is still there. -/
theorem afterClosing?_woven (h : Woven w tail tokens tokens') (stop : Ends tail) (depth) :
    (afterClosing? (depth + 1) tokens').any (·.head?.any (·.isPunctuator "=>")) =
      (afterClosing? (depth + 1) tokens).any (·.head?.any (·.isPunctuator "=>")) := by
  induction h generalizing depth with
  | nil => exact stop.noArrow depth
  | @keep t t' tokens tokens' same rest ih =>
    have brackets : t'.isOpening = t.isOpening ∧ t'.isClosing = t.isClosing := by
      rcases same.inv with ⟨kept, _⟩ | ⟨_, _, kind, kind', _⟩
      · simp [isOpening, isClosing, kept.kind, kept.text]
      · have other : (t.kind == .punctuator) = false ∧ (t'.kind == .punctuator) = false := by
          simp [kind, kind']
        simp [isOpening, isClosing, other]
    rw [afterClosing?_cons, afterClosing?_cons, brackets.1, brackets.2]
    split
    · exact ih _
    split
    · rcases depth with _ | depth
      · exact any_arrow rest stop
      · exact ih _
    · exact ih _
  | context mark kind free isCtx place isDot isName rest ih =>
    rw [afterClosing?_of_kind (by simp [isCtx.kind]), afterClosing?_of_is isDot (.inl rfl),
      afterClosing?_of_kind (by simp [isName.kind]), afterClosing?_of_kind (by simp [kind])]
    exact ih depth
  | property mark kind free isKey isColon isCtx place isDot isName rest ih =>
    rw [afterClosing?_of_kind (by simp [isKey.kind]), afterClosing?_of_is isColon (.inr rfl),
      afterClosing?_of_kind (by simp [isCtx.kind]), afterClosing?_of_is isDot (.inl rfl),
      afterClosing?_of_kind (by simp [isName.kind]), afterClosing?_of_kind (by simp [kind])]
    exact ih depth

/-- What begins with an opening parenthesis is an arrow function if the arrow comes behind the
    closing one. -/
theorem arrowHead?_paren (paren : t.isPunctuator "(" = true) :
    arrowHead? (t :: tokens) =
      if (afterClosing? 1 tokens).any (·.head?.any (·.isPunctuator "=>")) then some .params else none := by
  have opening : t.isOpening = true := by
    rw [isPunctuator_iff] at paren
    simp [isOpening, paren]
  have kind : t.kind = .punctuator := by simp_all [isPunctuator]
  rw [arrowHead?, if_neg (by simp [kind]), if_pos paren, afterClosing?_cons, if_pos opening]
  rcases afterClosing? 1 tokens with _ | _ | _ <;> rfl

theorem arrowHead?_other (paren : t.isPunctuator "(" = false) :
    arrowHead? (t :: tokens) =
      if t.kind == .word && tokens.head?.any (·.isPunctuator "=>") then some .name else none := by
  rw [arrowHead?, paren]
  rfl

theorem arrowHead?_cons (same : t.Kept w t') (rest : Woven w tail tokens tokens')
    (stop : Ends tail) : arrowHead? (t' :: tokens') = arrowHead? (t :: tokens) := by
  have paren := (tests_isPunctuator "(").kept same
  by_cases isParen : t.isPunctuator "(" = true
  · rw [arrowHead?_paren isParen, arrowHead?_paren (paren.trans isParen), afterClosing?_woven rest stop]
  · have noParen : t.isPunctuator "(" = false := by simpa using isParen
    rw [arrowHead?_other noParen, arrowHead?_other (paren.trans noParen), same.kind,
      any_arrow rest stop]

theorem arrowHead?_end (stops : tokens.head?.all isEnd = true) : arrowHead? tokens = none := by
  cases tokens with
  | nil => rfl
  | cons t tokens =>
    rw [arrowHead?_other (isPunctuator_of_isEnd (by simp) stops), (cases_of_isEnd stops).1]
    rfl

/-- No arrow function begins with a word that something else than an arrow follows. -/
theorem arrowHead?_of_word {next : Token} (kind : t.kind = .word)
    (other : next.isPunctuator "=>" = false) : arrowHead? (t :: next :: tokens) = none := by
  rw [arrowHead?_other (isPunctuator_of_ne (by simp [kind])), List.head?_cons, Option.any_some,
    other, Bool.and_false]
  rfl

theorem arrowHead?_none (h : Woven w tail tokens tokens') (stop : Ends tail)
    (absent : arrowHead? tokens = none) : arrowHead? tokens' = none := by
  cases h with
  | nil => exact arrowHead?_end stop.head
  | keep same rest =>
    rcases same.inv with ⟨kept, _⟩ | ⟨_, _, _, kind, _⟩
    · rwa [arrowHead?_cons kept rest stop]
    · rw [arrowHead?_other (isPunctuator_of_ne (by simp [kind])), kind]
      rfl
  | context mark kind free isCtx place isDot =>
    exact arrowHead?_of_word isCtx.kind (by simp [isPunctuator, isDot.text])
  | property mark kind free isKey isColon =>
    exact arrowHead?_of_word isKey.kind (by simp [isPunctuator, isColon.text])

/-- Whether the word before the token may belong to a function that begins with the token. -/
def followsAsync (t : Token) : Bool :=
  !t.newlineBefore && (t.kind == .word || t.isPunctuator "(")

theorem isAsyncHead_eq (t tokens) :
    isAsyncHead (t :: tokens) = (t.isWord "async" && tokens.head?.any followsAsync) := by
  cases tokens with
  | nil => simp [isAsyncHead]
  | cons next tokens => simp [isAsyncHead, followsAsync, Bool.and_assoc]

theorem any_followsAsync (h : Woven w tail tokens tokens') (stop : Ends tail) :
    tokens'.head?.any followsAsync = tokens.head?.any followsAsync := by
  cases h with
  | nil =>
    refine stop.head_any fun t stops => ?_
    simp [followsAsync, isPunctuator_of_isEnd, stops, (cases_of_isEnd stops).1]
  | keep same =>
    rcases same.inv with ⟨kept, _⟩ | ⟨_, _, kind, kind', _⟩
    · simp [followsAsync, isPunctuator, kept.kind, kept.text, kept.newline]
    · simp [followsAsync, isPunctuator_of_ne, beq_false_of_ne, kind, kind']
  | context mark kind free isCtx => simp [followsAsync, kind, isCtx.kind, isCtx.newline]
  | property mark kind free isKey => simp [followsAsync, kind, isKey.kind, isKey.newline]

theorem isAsyncHead_cons (same : t.Kept w t') (rest : Woven w tail tokens tokens')
    (stop : Ends tail) : isAsyncHead (t' :: tokens') = isAsyncHead (t :: tokens) := by
  simp only [isAsyncHead_eq, any_followsAsync rest stop, isWord, same.kind, same.text]

/-- The tokens from the parameters of an arrow function on. -/
def arrowTokens (tokens : List Token) : List Token :=
  if isAsyncHead tokens then tokens.tail else tokens

theorem arrowTokens_of_not (h : isAsyncHead tokens = false) : arrowTokens tokens = tokens := by
  rw [arrowTokens, h]
  rfl

theorem isAsyncHead_of_not (other : t.isWord "async" = false) : isAsyncHead (t :: tokens) = false := by
  rw [isAsyncHead_eq, other, Bool.false_and]

theorem isAsyncHead_of_colon {colon : Token} (isColon : colon.Is .punctuator ":" false) :
    isAsyncHead (t :: colon :: tokens) = false := by
  have noAsync : followsAsync colon = false := by
    simp [followsAsync, isPunctuator, isColon.kind, isColon.text]
  rw [isAsyncHead_eq, List.head?_cons, Option.any_some, noAsync, Bool.and_false]

theorem isAsyncHead_end (stops : tokens.head?.all isEnd = true) :
    isAsyncHead tokens = false := by
  cases tokens with
  | nil => rfl
  | cons t tokens => exact isAsyncHead_of_not (t.isWord_of_isEnd "async" stops)

/-- Either the word before a function is still there, or none begins here. -/
theorem arrowTokens_woven (h : Woven w tail tokens tokens') (stop : Ends tail) :
    isAsyncHead tokens' = isAsyncHead tokens ∧
        Woven w tail (arrowTokens tokens) (arrowTokens tokens') ∨
      isAsyncHead tokens' = false ∧ arrowHead? tokens' = none := by
  cases h with
  | nil => exact .inr ⟨isAsyncHead_end stop.head, arrowHead?_end stop.head⟩
  | @keep t t' tokens tokens' same rest =>
    have woven := Woven.keep same rest
    have async : isAsyncHead (t' :: tokens') = isAsyncHead (t :: tokens) := by
      rcases same.inv with ⟨kept, _⟩ | ⟨_, _, kind, kind', _⟩
      · exact isAsyncHead_cons kept rest stop
      · rw [isAsyncHead_of_not (by simp [isWord, kind']), isAsyncHead_of_not (by simp [isWord, kind])]
    refine .inl ⟨async, ?_⟩
    rw [arrowTokens, arrowTokens, async]
    split
    · exact rest
    · exact woven
  | context mark kind free isCtx place isDot =>
    exact .inr ⟨isAsyncHead_of_not (by simp [isWord, isCtx.text]),
      arrowHead?_of_word isCtx.kind (by simp [isPunctuator, isDot.text])⟩
  | property mark kind free isKey isColon =>
    exact .inr ⟨isAsyncHead_of_colon isColon,
      arrowHead?_of_word isKey.kind (by simp [isPunctuator, isColon.text])⟩

theorem arrowHead?_arrowTokens_none (h : Woven w tail tokens tokens') (stop : Ends tail)
    (absent : arrowHead? (arrowTokens tokens) = none) : arrowHead? (arrowTokens tokens') = none := by
  rcases arrowTokens_woven h stop with ⟨_, woven⟩ | ⟨noAsync, none⟩
  · exact arrowHead?_none woven stop absent
  · rwa [arrowTokens_of_not noAsync]

/-- The body of an arrow function. -/
def readArrowBody (p : Phrases) (params : List Pattern) : Reader (Option Func) := do
  let body ← if ← Reader.eat "\x7b" then .block <$> p.block else .expr <$> p.assignment
  return some ⟨none, params, body⟩

def readArrowRest (p : Phrases) (start : Stream) (params : List Pattern) : Reader (Option Func) := do
  if ← Reader.eat "=>" then p.readArrowBody params
  else
    set start
    return none

/-- An arrow function, if one begins here. -/
def readArrowHere (p : Phrases) (start : Stream) : Reader (Option Func) := fun s =>
  match arrowHead? s.tokens with
  | none => .ok (none, start)
  | some .name => (do p.readArrowRest start [.ident (← Reader.ident)] : Reader (Option Func)) s
  | some .params =>
    (do Reader.skip; p.readArrowRest start (← p.readParams) : Reader (Option Func)) s

/-- Read an arrow function, given what it begins with. -/
def readArrowAt (p : Phrases) (start : Stream) : Option ArrowHead → Reader (Option Func)
  | none => return none
  | some head => do
    set { start with tokens := arrowTokens start.tokens }
    let params ← match head with
      | .name => (fun id => [Pattern.ident id]) <$> Reader.ident
      | .params => do
        Reader.skip
        p.readParams
    p.readArrowRest start params

theorem readArrow?_run (start) :
    p.readArrow? start = p.readArrowHere start { start with tokens := arrowTokens start.tokens } := by
  show p.readArrowAt start (arrowHead? (arrowTokens start.tokens)) start = _
  unfold readArrowHere
  cases arrowHead? (arrowTokens start.tokens) with
  | none => rfl
  | some head =>
    cases head with
    | name =>
      simp only [readArrowAt, bind_map_left]
      rfl
    | params => rfl

theorem readArrowHere_name (found : arrowHead? (t :: tokens) = some .name)
    (name : (t.kind == .word && !isReservedWord t.text) = true) (start stop) :
    p.readArrowHere start ⟨t :: tokens, stop⟩ =
      p.readArrowRest start [.ident ⟨t.text, t.start, t.stop⟩] ⟨tokens, stop⟩ := by
  have run : Reader.ident ⟨t :: tokens, stop⟩ = .ok (⟨t.text, t.start, t.stop⟩, ⟨tokens, stop⟩) := by
    rw [ident_run, if_pos name]
  rw [readArrowHere, found]
  exact bind_run run

theorem readArrowHere_params (found : arrowHead? (t :: tokens) = some .params) (start stop) :
    p.readArrowHere start ⟨t :: tokens, stop⟩ =
      (do p.readArrowRest start (← p.readParams) : Reader (Option Func)) ⟨tokens, stop⟩ := by
  rw [readArrowHere, found]
  rfl

theorem Followed.readArrowBody (h : Followed c p q) (params) :
    Follows c (c.EndsOperand 0) ⟨spots params, 1, true⟩ (p.readArrowBody params)
      (q.readArrowBody (woven c.toWeaving params)) fun f => ⟨spots f, 1, true⟩ := by
  have body : Follows c (c.EndsOperand 0) ⟨spots params, 1, true⟩
      (do if ← Reader.eat "\x7b" then FuncBody.block <$> p.block else FuncBody.expr <$> p.assignment)
      (do if ← Reader.eat "\x7b" then FuncBody.block <$> q.block else FuncBody.expr <$> q.assignment)
      fun body => ⟨spots params ++ spots body, 1, true⟩ := by
    refine .ifOpen h.ends (by simp) ?_ ?_
    · refine .map (.weaken (h.block.within _ _) fun _ => trivial) (fun _ => rfl) fun b => ?_
      rw [FuncBody.spots_block]
    · exact .map (h.assignment.within _ _) (fun _ => rfl) fun _ => rfl
  refine .join (body.bindInside fun body => .pure rfl ?_)
  exact congrArg (Stage.mk · 1 true) (Func.spots_eq none params body)

theorem Followed.readArrowRest (h : Followed c p q) {stop} (params)
    (arrow : tokens.head?.any (·.isPunctuator "=>") = true) (start start') :
    FollowsAt (fun rest => rest = [] → c.EndsOperand 0) c ⟨spots params, 1, true⟩
      (p.readArrowRest start params) (q.readArrowRest start' (woven c.toWeaving params))
      (fun f => ⟨spots f, 1, true⟩) ⟨tokens, stop⟩ := by
  cases tokens with
  | nil => cases arrow
  | cons t rest =>
    have isArrow : t.kind = .punctuator ∧ t.text = "=>" := by simp_all [isPunctuator]
    refine .step (by simp [isArrow]) (plain (by simp) 0 t arrow) ?_ ?_ (h.readArrowBody params _)
    · exact bind_run (eat_of_is ⟨isArrow.1, isArrow.2, rfl⟩ rest stop)
    · intro t' tokens' stop' same _
      exact bind_run (eat_of_is
        ⟨same.kind.trans isArrow.1, same.text.trans isArrow.2, rfl⟩ tokens' stop')

/-- An arrow function that begins with a parenthesis. The brackets in the parameters match, so the
    arrow comes next after them. -/
theorem Followed.readArrow_paren (h : Followed c p q) {stop} (start start')
    (arrow : (afterClosing? 1 tokens).any (·.head?.any (·.isPunctuator "=>")) = true) :
    FollowsAt (fun rest => rest = [] → c.EndsOperand 0) c ⟨[], 2, true⟩
      (do p.readArrowRest start (← p.readParams)) (do q.readArrowRest start' (← q.readParams))
      (fun f => ⟨spots f, 1, true⟩) ⟨tokens, stop⟩ := by
  refine bind (m := fun tokens => tokens.head?.any (·.isPunctuator "=>") = true)
    ((h.readParams.begun.within [] 1).weaken (fun _ => trivial) _)
    (fun params s₁ found => h.readArrowRest params found start start') ?_
  intro params s₁ _ _ tidy run _ _
  obtain ⟨front, _, split, _, _, moves, _⟩ :=
    h.readParams ⟨tokens, stop⟩ params s₁ tidy run fun _ => trivial
  have closing : afterClosing? 1 tokens = some s₁.tokens := by
    rw [show tokens = front ++ s₁.tokens from split]
    exact moves 0 s₁.tokens
  rwa [closing] at arrow

theorem Followed.readArrowHere (h : Followed c p q) {head stop u}
    (found : arrowHead? tokens = some head) (start start') :
    FollowsAt (fun rest => rest = [] → c.EndsOperand 0) c ⟨[], 1, u⟩ (p.readArrowHere start)
      (q.readArrowHere start') (fun f => ⟨spots f, 1, true⟩) ⟨tokens, stop⟩ := by
  cases tokens with
  | nil => cases found
  | cons t tokens =>
    by_cases paren : t.isPunctuator "(" = true
    · have arrow := found
      rw [arrowHead?_paren paren] at arrow
      split at arrow
      next closed =>
        cases arrow
        have kind : t.kind = .punctuator := by simp_all [isPunctuator]
        refine .step (by simp [kind]) (opening (by simp) 0 t paren)
          (readArrowHere_params found start stop) ?_ (h.readArrow_paren start start' closed)
        intro t' tokens' stop' same rest
        exact readArrowHere_params ((arrowHead?_cons same rest h.ends).trans found) start' stop'
      · cases arrow
    · have arrow := found
      rw [arrowHead?_other (by simpa using paren)] at arrow
      split at arrow
      next arrowNext =>
        cases arrow
        obtain ⟨word, arrowNext⟩ := Bool.and_eq_true_iff.mp arrowNext
        have word : t.kind = .word := by simpa using word
        by_cases name : (t.kind == .word && !isReservedWord t.text) = true
        · refine .step (by simp [word]) (moves_word word 0) (readArrowHere_name found name start stop)
            ?_ (h.readArrowRest [.ident t.ident] arrowNext start start')
          intro t' tokens' stop' same rest
          refine (readArrowHere_name ((arrowHead?_cons same rest h.ends).trans found)
            (by rwa [same.kind, same.text]) start' stop').trans ?_
          exact congrArg (fun id => q.readArrowRest start' [.ident id] _) same.ident
        · intro a s₁ _ run
          rw [readArrowHere, found] at run
          obtain ⟨id, s₂, run, _⟩ := bind_ok.mp run
          rw [ident_run, if_neg name] at run
          exact absurd run (unexpected_run _ _ _ _)
      · cases arrow

theorem Followed.readArrow? (h : Followed c p q) :
    Follows c (c.EndsOperand 0) ⟨[], 1, false⟩ p.readArrow? q.readArrow?
      fun f => ⟨spots f, 1, f.isSome⟩ := by
  rintro ⟨tokens, stop⟩
  cases found : arrowHead? (arrowTokens tokens) with
  | none =>
    refine congr (f := pure none) (g := pure none) (.pure rfl rfl) ?_ fun s' _ woven => ?_
    · rw [readArrow?_run, Phrases.readArrowHere, found]
      rfl
    · rw [readArrow?_run, Phrases.readArrowHere, arrowHead?_arrowTokens_none woven h.ends found]
      rfl
  | some head =>
    refine relax (choose
      (f := fun s => p.readArrowHere ⟨tokens, stop⟩ { s with tokens := arrowTokens s.tokens })
      (g := fun s' s => q.readArrowHere s' { s with tokens := arrowTokens s.tokens })
      (fun start' => ?_) (readArrow?_run _) fun s' _ _ => readArrow?_run s')
    by_cases async : isAsyncHead tokens = true
    · cases tokens with
      | nil => cases async
      | cons t tokens =>
        have word : t.kind = .word := by
          rw [isAsyncHead_eq] at async
          simp_all [isWord]
        rw [arrowTokens, if_pos async] at found
        refine .step (by simp [word]) (moves_word word 0) ?_ ?_
          (h.readArrowHere found ⟨t :: tokens, stop⟩ start')
        · simp only [arrowTokens, if_pos async]
          rfl
        · intro t' tokens' stop' same rest
          simp only [arrowTokens, if_pos ((isAsyncHead_cons same rest h.ends).trans async)]
          rfl
    · have noAsync : isAsyncHead tokens = false := by simpa using async
      rw [arrowTokens_of_not noAsync] at found
      refine (h.readArrowHere found ⟨tokens, stop⟩ start').congr ?_ fun s' _ woven => ?_
      · simp only [arrowTokens_of_not noAsync]
      · have noAsync' : isAsyncHead s'.tokens = false := by
          rcases arrowTokens_woven woven h.ends with ⟨same, _⟩ | ⟨none, _⟩
          · rw [same, noAsync]
          · exact none
        simp only [arrowTokens_of_not noAsync']

end Stencil.Script.Phrases
