import Stencil.Proofs.Script.Grammar

/-! # Operands and their accesses

A name that is used is an operand. If it is marked, an access stands in its place, so the operand is
followed together with what is read after it.
-/

namespace Stencil.Script.Phrases

open List Reader Token Result FollowsTo FollowsAt Expr

variable {p q : Phrases} {ends : List Token → Prop}

/-- Whether an operand that begins with a word is a name. -/
def NamesOperand (t : Token) (tokens : List Token) : Prop :=
  isReservedWord t.text = false ∧ ¬(t.text = "async" ∧ tokens.head?.any (·.isWord "function") = true)

variable {name t : Token}

theorem readPrimary_word (kind : t.kind = .word) (tokens stop) :
    p.readPrimary ⟨t :: tokens, stop⟩ =
      (if ["true", "false", "null"].contains t.text then .ok (.literal, ⟨tokens, stop⟩)
        else if t.text == "this" then .ok (.this, ⟨tokens, stop⟩) else if t.text == "function" then
          (do return .function (← p.readFunction) : Reader Expr) ⟨tokens, stop⟩
        else if t.text == "async" && tokens.head?.any (·.isWord "function") then
          (do return .function (← p.readFunction) : Reader Expr) ⟨tokens.tail, stop⟩
        else (do return .ident (← Reader.ident) : Reader Expr) ⟨t :: tokens, stop⟩) := by
  obtain ⟨_, text, start, newline⟩ := t
  cases kind
  have ahead : (⟨.word, text, start, newline⟩ :: tokens : List Token)[1]? = tokens.head? := by
    simp [head?_eq_getElem?]
  show (if _ then _ else if _ then _ else if _ then _ else _ : Reader Expr) _ = _
  split
  · rfl
  split
  · rfl
  split
  · rfl
  · show (if (text == "async" && (⟨.word, text, start, newline⟩ :: tokens : List Token)[1]?.any _) = true
      then _ else _ : Reader Expr) _ = _
    rw [ahead]
    split <;> rfl

theorem Followed.readBracketed (h : Followed c p q) (text) :
    Follows c True ⟨[], 2, true⟩ (p.readBracketed text) (q.readBracketed text)
      fun a => ⟨spots a, 1, true⟩ := by
  unfold Phrases.readBracketed
  split
  · refine (h.expression.within _ _).bindBefore (fun a => ?_) fun _ => .of fun _ => rfl
    exact (expect (closing (by simp) 1)).bind fun _ => .pure rfl rfl
  split
  · exact (h.items.within _ _).bind fun a => .pure rfl rfl
  · exact (h.properties.within _ _).bind fun a => .pure rfl rfl

theorem moves_of_kind (other : t.kind ≠ .punctuator) (d) : Moves [t] (d + 1) (d + 1) :=
  moves_plain (by simp [isOpening, other]) (by simp [isClosing, other]) d

theorem Followed.functionOperand (h : Followed c p q) :
    Reads c True 1 (do return function (← p.readFunction))
      (do return function (← q.readFunction)) := by
  exact h.readFunction.bind fun a => .pure rfl rfl

theorem Followed.readPrimary_reserved (h : Followed c p q) {stop} (kind : t.kind = .word)
    (other : ¬NamesOperand t tokens) :
    FollowsAt (fun rest => rest = [] → True) c ⟨[], 1, false⟩ p.readPrimary q.readPrimary
      (fun a => ⟨spots a, 1, true⟩) ⟨t :: tokens, stop⟩ := by
  have noTemplate : ∀ bodies, t.kind ≠ .template bodies := by simp [kind]
  by_cases value : ["true", "false", "null"].contains t.text = true
  · refine .step (f := pure .literal) (g := pure .literal) noTemplate (moves_word kind 0) ?_ ?_
      (.pure rfl rfl)
    · rw [readPrimary_word kind, if_pos value]
      rfl
    · intro t' tokens' stop' same _
      rw [readPrimary_word (same.kind.trans kind), same.text, if_pos value]
      rfl
  by_cases this : (t.text == "this") = true
  · refine .step (f := pure .this) (g := pure .this) noTemplate (moves_word kind 0) ?_ ?_
      (.pure rfl rfl)
    · rw [readPrimary_word kind, if_neg value, if_pos this]
      rfl
    · intro t' tokens' stop' same _
      rw [readPrimary_word (same.kind.trans kind), same.text, if_neg value, if_pos this]
      rfl
  by_cases function : (t.text == "function") = true
  · refine .step (f := do return .function (← p.readFunction))
      (g := do return .function (← q.readFunction)) noTemplate (moves_word kind 0) ?_ ?_
      (h.functionOperand _)
    · rw [readPrimary_word kind, if_neg value, if_neg this, if_pos function]
    · intro t' tokens' stop' same _
      rw [readPrimary_word (same.kind.trans kind), same.text, if_neg value, if_neg this, if_pos function]
  by_cases async : (t.text == "async" && tokens.head?.any (·.isWord "function")) = true
  · cases tokens with
    | nil => simp at async
    | cons next tokens =>
      have word : next.kind = .word := by simp_all [isWord]
      refine .step (f := do Reader.skip; return .function (← p.readFunction))
        (g := do Reader.skip; return .function (← q.readFunction)) noTemplate
        (moves_word kind 0) ?_ ?_ ?_
      · rw [readPrimary_word kind, if_neg value, if_neg this, if_neg function, if_pos async]
        rfl
      · intro t' tokens' stop' same rest
        rw [readPrimary_word (same.kind.trans kind), same.text, if_neg value, if_neg this,
          if_neg function, if_pos (by rwa [rest.any_reserved h.ends (by decide)])]
        rfl
      · exact .step (f := do return .function (← p.readFunction))
          (g := do return .function (← q.readFunction)) (by simp [word])
          (moves_word word 0) rfl (fun _ _ _ _ _ => rfl) (h.functionOperand _)
  · intro a s₁ _ run
    rw [readPrimary_word kind, if_neg value, if_neg this, if_neg function, if_neg async] at run
    obtain ⟨id, s₂, run, _⟩ := bind_ok.mp run
    have reserved : isReservedWord t.text = true := by
      by_contra free
      refine other ⟨by simpa using free, fun both => async ?_⟩
      simp [both]
    rw [ident_run, if_neg (by simp [reserved])] at run
    exact absurd run (unexpected_run _ _ _ _)

theorem Followed.readPrimary (h : Followed c p q) {stop}
    (other : t.kind = .word → ¬NamesOperand t tokens) :
    FollowsAt (fun rest => rest = [] → True) c ⟨[], 1, false⟩ p.readPrimary q.readPrimary
      (fun a => ⟨spots a, 1, true⟩) ⟨t :: tokens, stop⟩ := by
  have literal : t.kind = .number ∨ t.kind = .string ∨ t.kind = .regex →
      FollowsAt (fun rest => rest = [] → True) c ⟨[], 1, false⟩ p.readPrimary q.readPrimary
        (fun a => ⟨spots a, 1, true⟩) ⟨t :: tokens, stop⟩ := by
    intro kind
    refine .step (f := pure .literal) (g := pure .literal) ?_ (moves_of_kind ?_ 0)
      (readPrimary_literal kind tokens stop) ?_ (.pure rfl rfl)
    · rcases kind with kind | kind | kind <;> simp [kind]
    · rcases kind with kind | kind | kind <;> simp [kind]
    · intro t' tokens' stop' same _
      exact readPrimary_literal (by rwa [same.kind]) tokens' stop'
  cases kind : t.kind with
  | number => exact literal (.inl kind)
  | string => exact literal (.inr (.inl kind))
  | regex => exact literal (.inr (.inr kind))
  | template bodies =>
    refine congr (f := do return .template none (← p.readTemplate))
      (g := do return .template none (← q.readTemplate)) ?_ (readPrimary_template kind tokens stop) ?_
    · refine bind h.readTemplate (fun a => ?_) _
      exact .pure rfl rfl
    · rintro ⟨tokens', stop'⟩ _ woven
      obtain ⟨t', rest', bodies', rfl, kind'⟩ := woven.template_head kind
      exact readPrimary_template kind' rest' stop'
  | punctuator =>
    by_cases bracket : t.isOpening = true
    · refine .step (b := 2) (f := p.readBracketed t.text) (g := q.readBracketed t.text)
        (by simp [kind]) (moves_opening bracket 0) (readPrimary_bracket bracket tokens stop) ?_
        (h.readBracketed t.text _)
      intro t' tokens' stop' same _
      rw [readPrimary_bracket (by simpa [isOpening, same.kind, same.text] using bracket), same.text]
    · intro a s₁ _ run
      rw [readPrimary_punctuator kind (by simpa using bracket)] at run
      exact absurd run (unexpected_run _ _ _ _)
  | word => exact h.readPrimary_reserved kind (other kind)

theorem readPrimary_name (kind : t.kind = .word) (name : NamesOperand t tokens) (stop) :
    p.readPrimary ⟨t :: tokens, stop⟩ = .ok (.ident ⟨t.text, t.start, t.stop⟩, ⟨tokens, stop⟩) := by
  obtain ⟨free, noAsync⟩ := name
  have differs : ∀ w, isReservedWord w = true → t.text ≠ w := by
    rintro w reserved rfl
    rw [free] at reserved
    cases reserved
  have noValue : ["true", "false", "null"].contains t.text = false := by
    simp [differs "true" (by decide), differs "false" (by decide), differs "null" (by decide)]
  have noThis : (t.text == "this") = false := by simp [differs "this" (by decide)]
  have noFunction : (t.text == "function") = false := by simp [differs "function" (by decide)]
  rw [readPrimary_word kind, noValue, noThis, noFunction, if_neg (by simp), if_neg (by simp),
    if_neg (by simp), if_neg (by simpa using noAsync)]
  have run : Reader.ident ⟨t :: tokens, stop⟩ = .ok (⟨t.text, t.start, t.stop⟩, ⟨tokens, stop⟩) := by
    rw [ident_run, if_pos (by simp [kind, free])]
  rw [bind_run run]
  rfl

theorem readPostfix_run (noNew : t.isWord "new" = false) (stop) :
    p.readPostfix ⟨t :: tokens, stop⟩ = (p.readPrimary >>= p.readChain) ⟨t :: tokens, stop⟩ := by
  have skip : eatWord "new" ⟨t :: tokens, stop⟩ = .ok (false, ⟨t :: tokens, stop⟩) := by
    rw [eatWord_run, if_neg (by simp [noNew])]
  rw [readPostfix, bind_run skip]
  rfl

theorem readPostfix_name (kind : t.kind = .word) (name : NamesOperand t tokens) (stop) :
    p.readPostfix ⟨t :: tokens, stop⟩ =
      p.readChain (.ident ⟨t.text, t.start, t.stop⟩) ⟨tokens, stop⟩ := by
  have noNew : t.text ≠ "new" := fun same => absurd (same ▸ name.1) (by decide)
  rw [readPostfix_run (by simp [isWord, noNew]), bind_run (readPrimary_name kind name stop)]

theorem contextAt_start {ctx : Token} (isCtx : ctx.Is .word "_ctx" newline) :
    contextAt ctx.start = .member (.ident ctx.ident) := by
  have stop : ctx.stop = ctx.start + 4 := by
    simp only [Token.stop, isCtx.text]
    rfl
  simp only [contextAt, Token.ident, isCtx.text, stop]

variable {β : Type} [Result β]

/-- An operand and what is read after it. After the access that is written for a name, one less
    level is left to read the rest with. -/
theorem Followed.operand (h : Followed c p q) {f g : Expr → Reader β} {post}
    (next : ∀ e, FollowsTo ends c ⟨spots e, 1, true⟩ (f e) (g (woven c.toWeaving e)) post)
    (access : ∀ fuel, c.fuel = fuel + 1 → ∃ f₁ : Expr → Reader β,
      (∀ e, FollowsTo ends { c with fuel } ⟨spots e, 1, false⟩ (f e)
        (f₁ (woven c.toWeaving e)) fun a => { post a with used := false }) ∧
      ∀ e dot name text rest stop, dot.Is .punctuator "." false → name.Is .word text false →
        g e ⟨dot :: name :: rest, stop⟩ = f₁ (.member e) ⟨rest, stop⟩) :
    FollowsTo ends c ⟨[], 1, false⟩ (p.readPrimary >>= f) (q.readPrimary >>= g) post := by
  refine .ofCons (.of fun _ => rfl) fun t tokens stop => ?_
  by_cases name : t.kind = .word ∧ NamesOperand t tokens
  · obtain ⟨word, name⟩ := name
    intro a s₁ tidy run ended
    rw [bind_run (readPrimary_name word name stop)] at run
    obtain ⟨front, new, split, spots, covers, moves, follows⟩ :=
      next (.ident t.ident) ⟨tokens, stop⟩ a s₁ tidy.tail run ended
    have covered := Covers.word word name.1 false
    refine ⟨t :: front, ⟨t.ident, false⟩ :: new,
      by simp [show tokens = front ++ s₁.tokens from split], spots, covered.append covers,
      (moves_word word 0).append moves, ?_⟩
    rintro ⟨tokens', stop'⟩ owned woven light
    have tidy₂ : Tidy ([t] ++ front ++ s₁.tokens) := by
      rwa [append_assoc, ← show tokens = front ++ s₁.tokens from split]
    obtain ⟨own, own'⟩ :=
      @Owned.split c.marks [t] front s₁.tokens [⟨t.ident, false⟩] new owned tidy₂ covered covers
    cases woven with
    | @keep _ t' _ rest' same rest =>
      rcases same.inv with ⟨kept, _⟩ | ⟨_, _, template, _⟩
      · have name' : NamesOperand t' rest' := by
          unfold NamesOperand
          rwa [kept.text, rest.any_reserved h.ends (by decide)]
        have bare : woven c.toWeaving (ident t.ident) = .ident t'.ident := by
          rw [kept.ident]
          exact if_neg (by simp [show c.marks t.ident.start = none from same.unmarked])
        rw [bare] at follows
        rw [bind_run (readPrimary_name (kept.kind.trans word) name' stop')]
        exact follows ⟨rest', stop'⟩ own' rest (Nat.le_trans (weight_lt_cons t' rest') light)
      · rw [word] at template
        cases template
    | @context _ ctx dot name' _ rest' mark _ _ isCtx place isDot isName rest =>
      have light : weight (ctx :: dot :: name' :: rest') ≤ c.fuel := light
      have lighter := weight_lt_cons ctx (dot :: name' :: rest')
      have lighter' := weight_lt_cons dot (name' :: rest')
      have lightest := weight_lt_cons name' rest'
      obtain ⟨fuel, deeper⟩ : ∃ fuel, c.fuel = fuel + 1 := ⟨c.fuel - 1, by omega⟩
      obtain ⟨f₁, follow, read⟩ := access fuel deeper
      have ctxName : NamesOperand ctx (dot :: name' :: rest') := by
        simp [NamesOperand, isCtx.text]
        decide
      have accessed : woven c.toWeaving (ident t.ident) = .member (.ident ctx.ident) := by
        rw [← contextAt_start isCtx, place]
        exact if_pos (by simp [show c.marks t.ident.start = _ from mark])
      rw [bind_run (readPrimary_name isCtx.kind ctxName stop'),
        read _ dot name' t.text rest' stop' isDot isName]
      obtain ⟨front', new', split', spots', _, _, follows₁⟩ :=
        follow (.ident t.ident) ⟨tokens, stop⟩ a s₁ tidy.tail run ended
      obtain rfl : front' = front := append_cancel_right (split'.symm.trans split)
      obtain rfl : new' = new := append_cancel_left (spots'.symm.trans spots)
      obtain ⟨rest₁, run', woven', light'⟩ :=
        follows₁ ⟨rest', stop'⟩ own' rest (show weight rest' ≤ fuel by omega)
      rw [accessed] at run'
      have light' : weight rest₁ ≤ fuel := light'
      have := (post a).used.toNat_le
      exact ⟨rest₁, run', woven', by omega⟩
    | property mark =>
      obtain ⟨x, member, _, same⟩ := own t (by simp) t.start _ (Nat.le_refl _)
        (tidy.sound t (by simp)).nonempty mark
      obtain rfl := mem_singleton.mp member
      cases same
  · refine bind (h.readPrimary fun word => ?_) (fun a s₁ _ => next a s₁)
      fun _ _ _ _ _ _ _ _ _ => trivial
    exact fun named => name ⟨word, named⟩

theorem Followed.readAccesses (h : Followed c p q) (u) :
    Continues c True u p.readAccesses q.readAccesses := by
  intro e
  refine .ifEat h.ends (by simp) ?_ (.ifOpen h.ends (by simp) ?_ (.pure rfl rfl))
  · exact (readPropertyName h.ends).bind fun _ => Continues.go (e := .member e) h.accesses rfl
  · refine (h.expression.within _ _).bindBefore (fun a => ?_) fun _ => .of fun _ => rfl
    refine (expect (closing (by simp) 1)).bind fun _ => ?_
    exact Continues.go (e := .index e a) h.accesses (Uses.spots_and _ _)

/-- Whether an assertion that a value is there comes next, before an access. -/
def isAssertion (tokens : List Token) : Bool :=
  tokens.head?.any (fun t => t.isPunctuator "!" && !t.newlineBefore) &&
    tokens[1]?.any (fun t => t.isPunctuator "." || t.isPunctuator "[")

/-- A template literal or an assertion after an expression. -/
def readTail (p : Phrases) (e : Expr) : Reader Expr := do
  match ← Reader.peek with
  | none => return e
  | some t =>
    match t.kind with
    | .template _ => p.chain (.template (some e) (← p.readTemplate))
    | _ =>
      if t.isPunctuator "!" && !t.newlineBefore &&
          (← Reader.ahead 1).any (fun t => t.isPunctuator "." || t.isPunctuator "[") then
        Reader.skip
        p.chain e
      else return e

theorem readTail_template (kind : t.kind = .template bodies) (e tokens stop) :
    p.readTail e ⟨t :: tokens, stop⟩ =
      (do p.chain (.template (some e) (← p.readTemplate)) : Reader Expr) ⟨t :: tokens, stop⟩ := by
  obtain ⟨_, text, start, newline⟩ := t
  cases kind
  rfl

theorem readTail_other (plain : ∀ bodies, t.kind ≠ .template bodies) (e tokens stop) :
    p.readTail e ⟨t :: tokens, stop⟩ =
      if isAssertion (t :: tokens) then p.chain e ⟨tokens, stop⟩ else .ok (e, ⟨t :: tokens, stop⟩) := by
  have unfold : p.readTail e ⟨t :: tokens, stop⟩ =
      (if isAssertion (t :: tokens) then do Reader.skip; p.chain e else return e : Reader Expr)
        ⟨t :: tokens, stop⟩ := by
    obtain ⟨kind, text, start, newline⟩ := t
    cases kind with
    | template bodies => exact absurd rfl (plain bodies)
    | _ => rfl
  rw [unfold]
  split <;> rfl

theorem readTail_end (stops : tokens.head?.all isEnd = true) (e stop) :
    p.readTail e ⟨tokens, stop⟩ = .ok (e, ⟨tokens, stop⟩) := by
  cases tokens with
  | nil => rfl
  | cons t tokens =>
    have kind := (cases_of_isEnd stops).1
    have bang : t.isPunctuator "!" = false := isPunctuator_of_isEnd (by simp) stops
    rw [readTail_other (by simp [kind]), if_neg (by simp [isAssertion, bang])]

theorem isAssertion_cons {w tail tokens' t'} (same : t.Kept w t')
    (rest : Woven w tail tokens tokens') (stop : Ends tail) :
    isAssertion (t' :: tokens') = isAssertion (t :: tokens) := by
  have next := rest.any_head_eq (q := fun t => t.isPunctuator "." || t.isPunctuator "[")
    (.of (fun _ => rfl) (fun _ _ _ => rfl) fun _ => rfl)
    (fun t passes word => by simp [isPunctuator, word] at passes)
    fun _ => stop.head_any fun t stops => by simp [isPunctuator_of_isEnd, stops]
  simp only [isAssertion, head?_cons, Option.any_some, getElem?_cons_succ,
    ← head?_eq_getElem?, next, (tests_isPunctuator "!").kept same, same.newline]

theorem isAssertion_of_word (kind : t.kind = .word) : isAssertion (t :: tokens) = false := by
  simp [isAssertion, isPunctuator, kind]

theorem Followed.readTail (h : Followed c p q) (u) : Continues c True u p.readTail q.readTail := by
  rintro e ⟨tokens, stop⟩
  cases tokens with
  | nil =>
    refine congr (f := pure e) (g := pure (woven c.toWeaving e)) (.pure rfl rfl) rfl ?_
    rintro ⟨tokens', stop'⟩ _ woven
    cases woven
    exact readTail_end h.ends.head _ stop'
  | cons t tokens =>
    by_cases template : ∃ bodies, t.kind = .template bodies
    · obtain ⟨bodies, kind⟩ := template
      refine congr (f := do p.chain (.template (some e) (← p.readTemplate)))
        (g := do q.chain (.template (some (woven c.toWeaving e)) (← q.readTemplate))) ?_
        (readTail_template kind e tokens stop) ?_
      · refine bind (h.readTemplate.begun.within _ 0) (fun a => ?_) _
        exact Continues.go (e := .template (some e) a) h.chain (Uses.spots_and _ _)
      · rintro ⟨tokens', stop'⟩ _ woven
        obtain ⟨t', rest', bodies', rfl, kind'⟩ := woven.template_head kind
        exact readTail_template kind' _ rest' stop'
    · have plain : ∀ bodies, t.kind ≠ .template bodies := fun bodies kind => template ⟨bodies, kind⟩
      by_cases assertion : isAssertion (t :: tokens) = true
      · have bang : t.kind = .punctuator ∧ t.text = "!" := by
          simp only [isAssertion, head?_cons, Option.any_some, isPunctuator,
            Bool.and_eq_true, beq_iff_eq] at assertion
          exact assertion.1.1
        refine .step plain ?_ ?_ ?_ ((h.chain e).relax _)
        · apply moves_plain <;> simp [isOpening, isClosing, bang]
        · rw [readTail_other plain, if_pos assertion]
        · intro t' tokens' stop' same rest
          rw [readTail_other (by rwa [same.kind]),
            if_pos ((isAssertion_cons same rest h.ends).trans assertion)]
      · refine congr (f := pure e) (g := pure (woven c.toWeaving e)) (.pure rfl rfl) ?_ ?_
        · rw [readTail_other plain, if_neg assertion]
          rfl
        · rintro ⟨tokens', stop'⟩ _ woven
          obtain ⟨t', rest', rfl, ⟨same, rest⟩ | word⟩ := woven.plain_head plain
          · rw [readTail_other (by rwa [same.kind]), isAssertion_cons same rest h.ends,
              if_neg assertion]
            rfl
          · rw [readTail_other (by simp [word]), isAssertion_of_word word]
            rfl

theorem Followed.readChain (h : Followed c p q) (u) :
    Continues c True u p.readChain q.readChain := by
  intro e
  have index : Follows c True ⟨spots e, 2, true⟩
      (do let property ← p.expression; Reader.expect "]"; p.chain (.index e property))
      (do let property ← q.expression; Reader.expect "]"
          q.chain (.index (woven c.toWeaving e) property)) fun a => ⟨spots a, 1, u⟩ := by
    refine (h.expression.within _ _).bindBefore (fun a => ?_) fun _ => .of fun _ => rfl
    refine (expect (closing (by simp) 1)).bind fun _ => ?_
    exact Continues.go (e := .index e a) h.chain (Uses.spots_and _ _)
  have call : Follows c True ⟨spots e, 2, true⟩ (do p.chain (.call e (← p.arguments)))
      (do q.chain (.call (woven c.toWeaving e) (← q.arguments))) fun a => ⟨spots a, 1, u⟩ := by
    refine (h.arguments.within _ _).bind fun a => ?_
    exact Continues.go (e := .call e a) h.chain (Uses.spots_and _ _)
  refine .ifEatEither h.ends (by simp) (by simp) ?_ ?_
  · refine .ifOpen h.ends (by simp) call (.ifOpen h.ends (by simp) index ?_)
    exact (readPropertyName h.ends).bind fun _ => Continues.go (e := .member e) h.chain rfl
  · exact .ifOpen h.ends (by simp) index (.ifOpen h.ends (by simp) call (h.readTail u e))

/-- The property that is accessed by a name. -/
theorem readPropertyName_word (kind : name.kind = .word) (rest stop) :
    readPropertyName ⟨name :: rest, stop⟩ = .ok ((), ⟨rest, stop⟩) := by
  have noHash : name.isPunctuator "#" = false := isPunctuator_of_ne (by simp [kind])
  rw [readPropertyName, bind_run (eat_of_not noHash rest stop)]
  show (if _ then _ else _ : Reader Unit) _ = _
  rw [if_pos (by simp [kind])]
  rfl

section

variable {dot : Token} {text : String} (isDot : dot.Is .punctuator "." false)
  (isName : name.Is .word text false) (e : Expr) (rest : List Token)
include isDot isName

theorem readAccesses_dot (stop) :
    q.readAccesses e ⟨dot :: name :: rest, stop⟩ = q.accesses (.member e) ⟨rest, stop⟩ := by
  rw [readAccesses, bind_run (eat_of_is isDot _ _), if_pos rfl,
    bind_run (readPropertyName_word isName.kind rest stop)]

theorem readChain_dot (stop) :
    q.readChain e ⟨dot :: name :: rest, stop⟩ = q.chain (.member e) ⟨rest, stop⟩ := by
  have word : ∀ text, name.isPunctuator text = false := fun text =>
    isPunctuator_of_ne (by simp [isName.kind])
  have either : Reader.eatEither "." "?." ⟨dot :: name :: rest, stop⟩ =
      .ok (true, ⟨name :: rest, stop⟩) := by
    rw [Reader.eatEither, bind_run (eat_of_is isDot _ _)]
    rfl
  rw [readChain, bind_run either, if_pos rfl,
    bind_run (eat_of_not (word "(") rest stop), if_neg (by simp),
    bind_run (eat_of_not (word "[") rest stop), if_neg (by simp),
    bind_run (readPropertyName_word isName.kind rest stop)]

end

/-- A construction after the first operand of its callee. The accesses to the operand may be read at
    another depth. -/
def readNew (p callee : Phrases) (e : Expr) : Reader Expr := do
  let callee ← callee.readAccesses e
  let args ← if ← Reader.eat "(" then p.arguments else pure []
  p.readChain (.new callee args)

theorem readPostfix_followed
    (ih : ∀ c : Copy, Ends c.tail → Followed c (phrases n) (phrases c.fuel)) (stop : Ends c.tail) :
    Begins c True 1 (phrases n).readPostfix (phrases c.fuel).readPostfix := by
  have h := ih c stop
  refine .ifEatWord stop (by simp) (.ifEat stop (by simp) ?_ (.begun ?_)) ?_
  · exact ident.bind fun _ => h.readChain true .literal
  · have rest : ∀ callee, Follows c True ⟨spots callee, 1, true⟩
        (do let args ← if ← Reader.eat "(" then (phrases n).arguments else pure []
            (phrases n).readChain (.new callee args))
        (do let args ← if ← Reader.eat "(" then (phrases c.fuel).arguments else pure []
            (phrases c.fuel).readChain (.new (woven c.toWeaving callee) args))
        fun a => ⟨spots a, 1, true⟩ := by
      intro callee
      have args : Follows c True ⟨spots callee, 1, true⟩
          (do if ← Reader.eat "(" then (phrases n).arguments else pure [])
          (do if ← Reader.eat "(" then (phrases c.fuel).arguments else pure [])
          fun args => ⟨spots callee ++ spots args, 1, true⟩ := by
        refine .ifOpen stop (by simp) (h.arguments.within _ _) (.pure rfl ?_)
        simp [show spots ([] : List Expr) = [] from rfl]
      refine .join (args.bind fun args => ?_)
      exact Continues.go (e := .new callee args) (h.readChain true) (Uses.spots_and _ _)
    refine h.operand (f := (phrases n).readNew (phrases n))
      (fun e => bind (h.readAccesses true e) rest) fun fuel deeper => ?_
    refine ⟨(phrases c.fuel).readNew (phrases fuel), fun e => ?_,
      fun e dot name text tokens stop isDot isName => ?_⟩
    · refine bind ((ih { c with fuel } stop).readAccesses false e) fun callee => ?_
      exact (rest callee).refuel (by simp [deeper]) (by simp [deeper])
    · rw [deeper]
      exact Reader.bind_congr (readAccesses_dot isDot isName e tokens stop)
  · refine h.operand (h.readChain true) fun fuel deeper => ?_
    refine ⟨(phrases fuel).readChain, (ih { c with fuel } stop).readChain false, ?_⟩
    intro e dot name text tokens stop isDot isName
    rw [deeper]
    exact readChain_dot isDot isName e tokens stop

end Stencil.Script.Phrases
