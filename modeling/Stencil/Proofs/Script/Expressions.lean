import Stencil.Proofs.Script.Arrows

/-! # Operators, functions and statements

The readers built on top of operands, and the induction on the depth that closes the circle: at every
depth, all readers are followed.
-/

namespace Stencil.Script.Phrases

open List Text Token Reader Result Declarator FollowsTo Phrases Nat

variable {p q : Phrases}

theorem tests_prefixOperator : Tests isPrefixOperator :=
  .of (fun _ => rfl) (fun _ _ _ => rfl) fun _ => rfl

theorem moves_prefixOperator (h : isPrefixOperator t = true) (d) : Moves [t] (d + 1) (d + 1) := by
  cases kind : t.kind with
  | punctuator =>
    simp only [isPrefixOperator, kind, contains_eq_mem, decide_eq_true_eq, mem_cons,
      not_mem_nil, or_false] at h
    apply moves_plain <;> rcases h with h | h | h | h | h | h <;>
      simp [isOpening, isClosing, h]
  | _ => exact moves_of_kind (by simp [kind]) d

theorem Followed.readUnary (h : Followed c p q)
    (operand : Begins c True 1 p.readPostfix q.readPostfix) :
    Begins c True 1 p.readUnary q.readUnary := by
  refine .ifSkip tests_prefixOperator (.inr (.of fun _ => rfl))
    (fun t passes => moves_prefixOperator passes 0) ?_ ?_
  · exact h.unary.bind fun a => .pure rfl rfl
  · refine operand.bind fun a => .ifSkip (.of (fun _ => rfl) (fun _ _ _ => rfl) fun _ => rfl)
      (.inl fun _ => h.ends.head_any fun t stops => ?_) (fun t passes => ?_) (.pure rfl rfl)
      (.pure rfl rfl)
    · simp [isPunctuator_of_isEnd, stops]
    · simp only [isPunctuator, Bool.and_eq_true, Bool.or_eq_true, beq_iff_eq] at passes
      apply moves_plain <;> rcases passes.1 with h | h <;> simp [isOpening, isClosing, h]

theorem tests_bindsAtLeast (least) : Tests (bindsAtLeast least) :=
  .of (fun _ => rfl) (fun _ _ _ => rfl) fun _ => rfl

theorem moves_bindsAtLeast (h : bindsAtLeast least t = true) (d) : Moves [t] (d + 1) (d + 1) := by
  have noBracket : ∀ text ∈ ["(", "[", "\x7b", ")", "]", "\x7d"], precedence? text = none := by decide
  cases kind : t.kind with
  | punctuator =>
    have other : t.text ∉ ["(", "[", "\x7b", ")", "]", "\x7d"] := by
      intro bracket
      simp [bindsAtLeast, operator?, kind, noBracket _ bracket] at h
    exact plain other d t (by simp [isPunctuator, kind])
  | _ => exact moves_of_kind (by simp [kind]) d

def readRight (p : Phrases) (least : Nat) (left : Expr) (t : Token) : Reader Expr := do
  let precedence := (operator? t).getD 0
  let right ← p.binary (if t.text == "**" then precedence else precedence + 1)
  p.operators least (.binary left right)

def readOperator (p : Phrases) (least : Nat) (left : Expr) (t : Token) : Option Nat → Reader Expr
  | none => return left
  | some precedence =>
    if precedence < least then return left
    else do
      skip
      let right ← p.binary (if t.text == "**" then precedence else precedence + 1)
      p.operators least (.binary left right)

theorem readOperators_run (least left t tokens stop) :
    p.readOperators least left ⟨t :: tokens, stop⟩ =
      if bindsAtLeast least t then p.readRight least left t ⟨tokens, stop⟩
      else .ok (left, ⟨t :: tokens, stop⟩) := by
  show p.readOperator least left t (operator? t) ⟨t :: tokens, stop⟩ = _
  unfold readOperator
  cases found : operator? t with
  | none => simp [bindsAtLeast, found]; rfl
  | some precedence =>
    by_cases low : precedence < least
    · simp [bindsAtLeast, found, low, not_le.mpr low]; rfl
    · simp [bindsAtLeast, found, low, not_lt.mp low, readRight]; rfl

theorem readOperators_end (stops : tokens.head?.any (bindsAtLeast least) = false) (e stop) :
    p.readOperators least e ⟨tokens, stop⟩ = .ok (e, ⟨tokens, stop⟩) := by
  cases tokens with
  | nil => rfl
  | cons t tokens =>
    have other : bindsAtLeast least t = false := stops
    rw [readOperators_run, other]
    rfl

theorem Followed.readRight (h : Followed c p q) (binds : bindsAtLeast least t = true) (e) :
    Follows c (c.EndsOperand least) ⟨spots e, 1, true⟩ (p.readRight least e t)
      (q.readRight least (woven c.toWeaving e) t) fun a => ⟨spots a, 1, u⟩ := by
  refine ((h.binary _).within _ 0).bindWith (fun a => ?_) (.inl fun inside => (inside rfl).mono ?_)
  · exact Continues.go (e := .binary e a) (h.operators least) (Uses.spots_and _ _)
  · cases found : operator? t with
    | none => simp [bindsAtLeast, found] at binds
    | some precedence =>
      have le : least ≤ precedence := by simpa [bindsAtLeast, found] using binds
      simp only [Option.getD_some]
      split <;> omega

theorem Followed.readOperators (h : Followed c p q) (u least) :
    Continues c (c.EndsOperand least) u (p.readOperators least) (q.readOperators least) := by
  rintro e ⟨tokens, stop⟩
  have tests := tests_bindsAtLeast least
  cases binds : tokens.head?.any (bindsAtLeast least) with
  | false =>
    refine FollowsAt.congr (f := pure e) (g := pure (woven c.toWeaving e)) (.pure rfl rfl)
      (readOperators_end binds e stop) fun s' ended woven => readOperators_end ?_ _ _
    by_contra other
    simp only [Bool.not_eq_false] at other
    have passes := woven.any_head tests (fun empty => ended empty rfl) other
    exact absurd (passes.symm.trans binds) (by simp)
  | true =>
    cases tokens with
    | nil => cases binds
    | cons t tokens =>
      have binds : bindsAtLeast least t = true := binds
      refine .step (fun bodies kind => ?_) (moves_bindsAtLeast binds 0) ?_ ?_ (h.readRight binds e _)
      · rw [tests.template t bodies kind] at binds
        cases binds
      · rw [readOperators_run, if_pos binds]
      · intro t' tokens' stop' same _
        rw [readOperators_run, if_pos ((tests.kept same).trans binds), Phrases.readRight,
          Phrases.readRight, show operator? t' = operator? t by simp [operator?, same.kind, same.text],
          same.text]

section

variable (h : Followed c p q) (operand : Begins c True 1 p.readPostfix q.readPostfix)
include h operand

theorem Followed.readBinary (least) :
    Begins c (c.EndsOperand least) 1 (p.readBinary least) (q.readBinary least) :=
  (h.readUnary operand).bind (h.readOperators true least)

theorem Followed.readConditional :
    Begins c (c.EndsOperand 0) 1 p.readConditional q.readConditional := by
  refine (h.readBinary operand 0).bindInside fun a => .ifEat h.ends (by simp) ?_ (.pure rfl rfl)
  refine (h.assignment.within _ 0).bindBefore (fun b => ?_) fun _ => .of fun _ => rfl
  refine (expect (plain (by simp) 0)).bind fun _ => ?_
  refine (h.assignment.within _ 0).bindInside fun d => .pure rfl ?_
  simp [spots, Expr.uses]

end

theorem moves_assignmentOperator (h : isAssignmentOperator t = true) (d) :
    Moves [t] (d + 1) (d + 1) := by
  have noBracket : ∀ text ∈ ["=", "+=", "-=", "*=", "/=", "%=", "**=", "<<=", ">>=", ">>>=", "&=",
      "|=", "^=", "&&=", "||=", "??="], text ∉ ["(", "[", "\x7b", ")", "]", "\x7d"] := by decide
  simp only [isAssignmentOperator, Bool.and_eq_true, beq_iff_eq, contains_eq_mem,
    decide_eq_true_eq] at h
  exact plain (noBracket _ h.2) d t (by simp [isPunctuator, h.1])

theorem Followed.readAssignment (h : Followed c p q)
    (operand : Begins c True 1 p.readPostfix q.readPostfix) :
    Begins c (c.EndsOperand 0) 1 p.readAssignment q.readAssignment := by
  refine h.readArrow?.bindInside fun f => ?_
  cases f with
  | some f => exact .pure rfl rfl
  | none =>
    refine (h.readConditional operand).bindInside fun a => ?_
    refine .ifSkip (tests_punctuators _) (.inl fun _ => h.ends.head_any fun t stops => ?_)
      (fun t passes => moves_assignmentOperator passes 0) ?_ (.pure rfl rfl)
    · rcases (cases_of_isEnd stops).2 with text | text | text | text | text <;>
        simp [isAssignmentOperator, text]
    · refine (h.assignment.within _ 0).bindInside fun b => .pure rfl ?_
      simp [spots, Expr.uses]

section Items

variable (h : Followed c p q)
  (assignment : Begins c (c.EndsOperand 0) 1 p.readAssignment q.readAssignment)

include h assignment

theorem Followed.readItem : Begins c (c.EndsOperand 0) 1 p.readItem q.readItem :=
  .ifEat h.ends (by simp) (h.assignment.bindInside fun a => .pure rfl rfl) assignment

theorem Followed.readItems : Begins c True 0 p.readItems q.readItems := by
  refine .ifClose (.of fun _ => rfl) (by simp) (.pure rfl rfl)
    (.ifComma (.inr (.of fun _ => rfl)) h.items ?_)
  refine (h.readItem assignment).bindBefore (fun a => ?_) fun _ => .of fun _ => rfl
  refine (FollowsTo.separated (h.items.within _ _)).bind fun b => ?_
  exact .pure rfl (by simp [Expr.spots_cons])

theorem Followed.readArguments : Begins c True 0 p.readArguments q.readArguments := by
  refine .ifClose (.of fun _ => rfl) (by simp) (.pure rfl rfl) ?_
  refine (h.readItem assignment).bindBefore (fun a => ?_) fun _ => .of fun _ => rfl
  refine (FollowsTo.separated (h.arguments.within _ _)).bind fun b => ?_
  exact .pure rfl (by simp [Expr.spots_cons])

theorem Followed.readSequence (u) :
    Follows c c.EndsExpression ⟨[], 1, u⟩ p.readSequence q.readSequence
      fun a => ⟨spots a, 1, u⟩ := by
  refine .ifComma (.inl fun inside => (inside rfl).2) (.relax ?_) (.pure rfl rfl)
  refine assignment.begun.bindWith (fun a => ?_) (.inl fun inside => (inside rfl).1)
  refine (h.sequence.within _ 0).bindInside fun b => ?_
  exact .pure rfl (by simp [Expr.spots_cons])

theorem Followed.readExpression : Begins c c.EndsExpression 1 p.readExpression q.readExpression := by
  refine assignment.bindWith (fun a => ?_) (.inl fun inside => (inside rfl).1)
  refine ((h.readSequence assignment true).within _ 0).bindInside fun more => ?_
  cases more with
  | nil => exact .pure rfl (congrArg (Stage.mk · 1 true) (append_nil _).symm)
  | cons b more => exact .pure rfl (congrArg (Stage.mk · 1 true) (Uses.spots_and _ _))

end Items

theorem Followed.readDeclarators (h : Followed c p q) :
    Begins c c.EndsExpression 1 p.readDeclarators q.readDeclarators := by
  refine h.readTarget.bind fun a => ?_
  have value : Follows c (c.EndsOperand 0) ⟨spots a, 1, true⟩
      (do if ← eat "=" then some <$> p.assignment else pure none)
      (do if ← eat "=" then some <$> q.assignment else pure none)
      fun v => ⟨spots a ++ spots v, 1, true⟩ := by
    refine .ifEat h.ends (by simp) (.map (h.assignment.within _ 0) (fun _ => rfl) fun _ => rfl) ?_
    exact .pure rfl (congrArg (Stage.mk · 1 true) (append_nil _))
  refine .join (value.bindWith (fun v => ?_) (.inl fun inside => (inside rfl).1))
  refine .ifComma (.inl fun inside => (inside rfl).2) ?_ ?_
  · refine (h.declarators.within _ 0).bindInside fun b => .pure ?_ ?_
    · exact congrArg (· :: _) (woven_mk a v).symm
    · simp [spots_cons, spots_eq]
  · refine .pure (congrArg (fun d => [d]) (woven_mk a v).symm) ?_
    rw [spots_cons, spots_eq]
    exact congrArg (Stage.mk · 1 true) (append_nil _)

theorem tests_declarationWord : Tests isDeclarationWord :=
  .of (fun _ => rfl) (fun _ _ _ => rfl) fun _ => rfl

theorem Followed.ended {ends : List Token → Prop} (stop : Ends c.tail) {a a' : Stmt}
    (same : a' = woven c.toWeaving a) (spots : spots a = x) :
    FollowsTo ends c ⟨x, 1, true⟩ (do let _ ← eat ";"; return a)
      (do let _ ← eat ";"; return a') fun a => ⟨Result.spots a, 1, true⟩ :=
  (optional stop (by simp)).bind fun _ => .pure same (congrArg (Stage.mk · 1 true) spots)

theorem Followed.readStatement (h : Followed c p q)
    (expression : Begins c c.EndsExpression 1 p.readExpression q.readExpression) :
    Begins c c.EndsStatement 1 p.readStatement q.readStatement := by
  refine .ifEat h.ends (by simp) (.pure rfl rfl) ?_
  refine .ifOpen h.ends (by simp) ?_ ?_
  · exact (h.block.within _ _).bind fun a => .pure rfl (by simp [Stmt.spots_block])
  refine .ifEatWord h.ends (by simp) (.ifPeek (fun t tokens tokens' woven => ?_) ?_ ?_ ?_) ?_
  · exact woven.endsReturn
  · intro inside
    have stops : c.EndsStatement := inside rfl
    unfold Copy.EndsStatement at stops
    cases head : c.tail.head? with
    | none => rfl
    | some t =>
      have stops : t.isPunctuator "\x7d" = true := by simpa [head] using stops
      simp [endsReturn, stops]
  · exact ended h.ends (Stmt.woven_ret none).symm rfl
  · rw [bind_map_left, bind_map_left]
    refine h.expression.bindWith (fun a => ?_) (.inl fun inside => (inside rfl).endsExpression)
    exact ended h.ends (Stmt.woven_ret (some a)).symm rfl
  refine .ifSkip (b := 1) tests_declarationWord (.inl fun _ => h.ends.head_any fun t stops => ?_)
    (fun t passes => ?_) ?_ ?_
  · simp [isDeclarationWord, (cases_of_isEnd stops).1]
  · refine moves_word ?_ 0
    simp only [isDeclarationWord, Bool.and_eq_true, beq_iff_eq] at passes
    exact passes.1
  · refine h.declarators.bindWith (fun a => ?_) (.inl fun inside => (inside rfl).endsExpression)
    exact ended (a := .declare a) h.ends rfl rfl
  refine .ifEatWord h.ends (by simp) ?_ ?_
  · refine (expect (opening (by simp) 0)).bind fun _ => ?_
    refine (h.expression.within _ 1).bindBefore (fun a => ?_) fun _ => .of fun _ => rfl
    refine (expect (closing (by simp) 1)).bind fun _ => ?_
    refine (h.statement.within _ 0).bindInside fun b => ?_
    refine .ifEatWord h.ends (by simp) ?_ ?_
    · rw [bind_map_left, bind_map_left]
      refine (h.statement.within _ 0).bindInside fun d => ?_
      exact .pure (Stmt.woven_branch a b (some d)).symm
        (congrArg (Stage.mk · 1 true) (Stmt.spots_branch a b (some d)))
    · refine .pure (Stmt.woven_branch a b none).symm ?_
      exact congrArg (Stage.mk · 1 true) ((Stmt.spots_branch a b none).trans (append_nil _))
  · refine expression.bindWith (fun a => ?_) (.inl fun inside => (inside rfl).endsExpression)
    exact ended (a := .expr a) h.ends rfl rfl

theorem Followed.readBlock (h : Followed c p q) (more : Starved p.block)
    (statement : Begins c c.EndsStatement 1 p.readStatement q.readStatement) :
    Begins c True 0 p.readBlock q.readBlock := by
  refine .ifClose (.of fun _ => rfl) (by simp) (.pure rfl rfl) ?_
  refine .ifAtEnd (.inr (.of fun _ => rfl))
    (.fail fun s a s₁ => unexpected_run _ s s₁ a) ?_
  refine statement.bindBefore (fun a => ?_) fun a => more.bind
  exact (h.block.within _ 0).bind fun b => .pure rfl (by simp [Stmt.spots_cons])

theorem Followed.readProgram (h : Followed c p q)
    (statement : Begins c c.EndsStatement 1 p.readStatement q.readStatement) :
    Follows c (c.tail = []) ⟨[], 1, false⟩ p.readProgram q.readProgram
      fun a => ⟨spots a, 1, false⟩ := by
  refine .ifAtEnd (.inl fun inside => inside rfl) (.pure rfl rfl) (.relax ?_)
  refine statement.bindWith (fun a => ?_) (.inl fun inside => Copy.endsStatement_of_nil (inside rfl))
  exact (h.program.within _ 0).bindInside fun b => .pure rfl (by simp [Stmt.spots_cons])

theorem finish_ok : finish s = .ok (u, s₁) ↔ s.tokens = [] ∧ s₁ = s := by
  obtain ⟨tokens, stop⟩ := s
  cases tokens with
  | nil =>
    constructor
    · intro run
      cases run
      exact ⟨rfl, rfl⟩
    · rintro ⟨_, rfl⟩
      rfl
  | cons t tokens => exact ⟨by rintro ⟨⟩, by rintro ⟨⟨⟩, _⟩⟩

theorem readAll_ok {α : Type} {r} {a : α} :
    readAll r offset script = .ok a ↔ ∃ tokens s, tokenize offset script = .ok tokens ∧
      r ⟨tokens, offset + bytes script⟩ = .ok (a, s) ∧ s.tokens = [] := by
  constructor
  · intro run
    obtain ⟨tokens, lexed, run⟩ := ok_of_bind run
    obtain ⟨⟨result, s₂⟩, run, last⟩ := ok_of_bind run
    cases last
    obtain ⟨a, s, read, rest⟩ := bind_ok.mp run
    obtain ⟨u, s₃, ended, last⟩ := bind_ok.mp rest
    cases last
    obtain ⟨empty, _⟩ := finish_ok.mp ended
    exact ⟨tokens, s, lexed, read, empty⟩
  · rintro ⟨tokens, s, lexed, read, empty⟩
    have all : (do let a ← r; finish; return a : Reader α) ⟨tokens, offset + bytes script⟩ =
        .ok (a, s) :=
      bind_ok.mpr ⟨a, s, read, bind_ok.mpr ⟨(), s, finish_ok.mpr ⟨empty, rfl⟩, rfl⟩⟩
    rw [readAll, lexed]
    show ((do let a ← r; finish; return a : Reader α) ⟨tokens, offset + bytes script⟩ >>= _) = _
    rw [all]
    rfl

theorem Reads.readAll {α : Type} [Result α] {Q r r'} (h : Reads c Q 1 r r') (alone : c.tail = [])
    (inside : Q) {offset : Nat} {a : α} (run : readAll r offset script = .ok a) :
    ∃ tokens, tokenize offset script = .ok tokens ∧ Covers tokens (spots a) ∧
      ∀ offset', c.Places offset offset' script →
        (weave c.marks offset script).length + 1 ≤ c.fuel → Clear c.marks tokens →
        OwnedIn c.marks offset (offset + bytes script) (spots a) →
        readAll r' offset' (weave c.marks offset script) = .ok (woven c.toWeaving a) := by
  obtain ⟨tokens, s, lexed, read, empty⟩ := readAll_ok.mp run
  have lexes := tokenize_eq_ok.mp lexed
  obtain ⟨front, new, split, spots, covers, _, follows⟩ := h _ a s lexes.tidy read fun _ => inside
  obtain rfl : tokens = front := by simpa [empty] using split
  obtain rfl : Result.spots a = new := spots
  refine ⟨tokens, lexed, covers, fun offset' places length clear owned => ?_⟩
  obtain ⟨tokens', lexed', woven⟩ :=
    tokenize_weave lexed (owned.onWords covers) clear places
  have ownedTokens : Owned c.marks tokens (spots a) := by
    intro t member p k low high mark
    have bounds := (lexes.piece member).bounds
    have stop : t.stop = t.start + bytes t.text.toList := rfl
    exact owned p k (by omega) (by omega) mark
  have light := (tokenize_eq_ok.mp lexed').weight_le
  obtain ⟨rest', run', rest, _⟩ :=
    follows ⟨tokens', offset' + bytes (weave c.marks offset script)⟩ ownedTokens (alone ▸ woven)
      (le_trans (succ_le_succ light) length)
  refine readAll_ok.mpr ⟨tokens', _, lexed', run', ?_⟩
  rw [empty, alone] at rest
  cases rest
  rfl

end Stencil.Script.Phrases

namespace Stencil.Script

variable {c : Copy} {p q : Phrases} {tokens : List Token}

theorem Reader.eat_end {text : String} (stops : tokens.head?.all Token.isEnd = true)
    (other : text ∉ [",", ")", "]", "\x7d", "+"]) (stop : Nat) :
    eat text ⟨tokens, stop⟩ = .ok (false, ⟨tokens, stop⟩) := by
  cases tokens with
  | nil => rfl
  | cons t tokens => exact eat_of_not (Token.isPunctuator_of_isEnd other stops) tokens stop

theorem Phrases.readChain_end (stops : tokens.head?.all Token.isEnd = true) (e stop) :
    p.readChain e ⟨tokens, stop⟩ = .ok (e, ⟨tokens, stop⟩) := by
  have either : Reader.eatEither "." "?." ⟨tokens, stop⟩ = .ok (false, ⟨tokens, stop⟩) := by
    rw [Reader.eatEither, Reader.bind_run (Reader.eat_end stops (by simp) stop)]
    exact Reader.eat_end stops (by simp) stop
  rw [readChain, Reader.bind_run either, if_neg (by simp),
    Reader.bind_run (Reader.eat_end stops (by simp) stop), if_neg (by simp),
    Reader.bind_run (Reader.eat_end stops (by simp) stop), if_neg (by simp)]
  exact readTail_end stops e stop

theorem head_any_of_endsAccess (quiet : tokens.head?.all Token.endsAccess = true) {q : Token → Bool}
    (other : ∀ t : Token, t.kind = .punctuator → t.text = "," ∨ t.text = "\x7d" → q t = false) :
    tokens.head?.any q = false := by
  cases tokens with
  | nil => rfl
  | cons t tokens =>
    have passes : t.endsAccess = true := quiet
    simp only [Token.endsAccess, Token.isPunctuator, Bool.or_eq_true, Bool.and_eq_true,
      beq_iff_eq] at passes
    rcases passes with ⟨kind, text⟩ | ⟨kind, text⟩
    · exact other t kind (.inl text)
    · exact other t kind (.inr text)

theorem all_isEnd_of_endsAccess (quiet : tokens.head?.all Token.endsAccess = true) :
    tokens.head?.all Token.isEnd = true := by
  have none := head_any_of_endsAccess quiet (q := fun t => !t.isEnd) fun t kind text => by
    rcases text with text | text <;> simp [Token.isEnd, kind, text]
  cases tokens with
  | nil => rfl
  | cons t tokens => simpa using none

namespace Phrases

/-- The access that is written for a name, up to where it ends. -/
theorem readUnary_context {ctx dot name : Token} (isCtx : ctx.Is .word "_ctx" newline)
    (isDot : dot.Is .punctuator "." false) (isName : name.Is .word text false)
    (quiet : tokens.head?.all Token.endsAccess = true) (stop) :
    (phrases (n + 1)).readUnary ⟨ctx :: dot :: name :: tokens, stop⟩ =
      .ok (.member (.ident ctx.ident), ⟨tokens, stop⟩) := by
  have names : NamesOperand ctx (dot :: name :: tokens) := by
    simp [NamesOperand, isCtx.text]
    decide
  have operand : (phrases (n + 1)).readPostfix ⟨ctx :: dot :: name :: tokens, stop⟩ =
      .ok (.member (.ident ctx.ident), ⟨tokens, stop⟩) := by
    rw [readPostfix_name isCtx.kind names, readChain_dot isDot isName]
    exact readChain_end (p := phrases n) (all_isEnd_of_endsAccess quiet) _ stop
  have noStep := head_any_of_endsAccess quiet
    (q := fun t => (t.isPunctuator "++" || t.isPunctuator "--") && !t.newlineBefore)
    fun t _ same => by rcases same with same | same <;> simp [Token.isPunctuator, same]
  rw [readUnary, Reader.peek_bind, if_neg (by simp [isPrefixOperator, isCtx.kind, isCtx.text]),
    Reader.bind_run operand, Reader.peek_bind, if_neg (by simp [noStep])]
  rfl

theorem readsContext (n) : (phrases (n + 2)).ReadsContext := by
  intro ctx dot name newline text rest stop isCtx isDot isName quiet
  rw [contextAt_start isCtx]
  show (phrases (n + 1)).readAssignment _ = _
  have noArrow : (phrases (n + 1)).readArrow? ⟨ctx :: dot :: name :: rest, stop⟩ =
      .ok (none, ⟨ctx :: dot :: name :: rest, stop⟩) := by
    rw [readArrow?_run, arrowTokens_of_not (isAsyncHead_of_not (by simp [Token.isWord, isCtx.text])),
      readArrowHere, arrowHead?_of_word isCtx.kind (by simp [Token.isPunctuator, isDot.text])]
  have binary : (phrases (n + 1)).readBinary 0 ⟨ctx :: dot :: name :: rest, stop⟩ =
      .ok (.member (.ident ctx.ident), ⟨rest, stop⟩) := by
    rw [readBinary, Reader.bind_run (readUnary_context isCtx isDot isName quiet stop)]
    refine readOperators_end (head_any_of_endsAccess quiet fun t kind same => ?_) _ stop
    rcases same with same | same <;> simp [bindsAtLeast, operator?, precedence?, kind, same]
  have conditional : (phrases (n + 1)).readConditional ⟨ctx :: dot :: name :: rest, stop⟩ =
      .ok (.member (.ident ctx.ident), ⟨rest, stop⟩) := by
    rw [readConditional, Reader.bind_run binary,
      Reader.bind_run (Reader.eat_end (all_isEnd_of_endsAccess quiet) (by simp) stop)]
    rfl
  have noAssignment := head_any_of_endsAccess quiet (q := isAssignmentOperator) fun t kind same => by
    rcases same with same | same <;> simp [isAssignmentOperator, same]
  rw [readAssignment, Reader.bind_run noArrow]
  show ((phrases (n + 1)).readConditional >>= _) _ = _
  rw [Reader.bind_run conditional, Reader.peek_bind, if_neg (by simp [noAssignment])]
  rfl

theorem starved_block (n) : Starved (phrases n).block := by
  cases n <;> exact .of fun _ => rfl

/-- Without fuel, what the readers of the copy do is of no account. -/
theorem Followed.spent (h : Followed c p q) : Followed { c with fuel := 0 } p q' where
  ends := h.ends
  expression := h.expression.spent
  sequence := h.sequence.spent
  assignment := h.assignment.spent
  binary least := (h.binary least).spent
  operators least e := (h.operators least e).spent
  unary := h.unary.spent
  chain e := (h.chain e).spent
  accesses e := (h.accesses e).spent
  arguments := h.arguments.spent
  items := h.items.spent
  properties := h.properties.spent
  params := h.params.spent
  paramList := h.paramList.spent
  target := h.target.spent
  pattern := h.pattern.spent
  patternProps := h.patternProps.spent
  patternItems := h.patternItems.spent
  declarators := h.declarators.spent
  statement := h.statement.spent
  block := h.block.spent
  program := h.program.spent
  placeholder b e run := by
    obtain ⟨tokens, lexed, covers, _⟩ := h.placeholder b e run
    exact ⟨tokens, lexed, covers, fun b' _ light => absurd light (by simp)⟩

/-- One level deeper, with fuel for one more token. -/
theorem followed_succ {n : Nat}
    (ih : ∀ c : Copy, Ends c.tail → Followed c (phrases n) (phrases c.fuel)) (ends : Ends c.tail) :
    Followed { c with fuel := c.fuel + 1 } (phrases (n + 1)) (phrases (c.fuel + 1)) := by
  have h := ih c ends
  have operand := readPostfix_followed ih ends
  have assignment := h.readAssignment operand
  have expression := h.readExpression assignment
  have statement := h.readStatement expression
  have context : 2 ≤ c.fuel → (phrases c.fuel).ReadsContext := by
    intro deep
    obtain ⟨j, eq⟩ : ∃ j, c.fuel = j + 2 := ⟨c.fuel - 2, by omega⟩
    rw [eq]
    exact readsContext j
  exact
    { ends
      expression := expression.deeper
      sequence := (h.readSequence assignment false).deeper
      assignment := assignment.deeper
      binary := fun least => (h.readBinary operand least).deeper
      operators := fun least e => (h.readOperators false least e).deeper
      unary := (h.readUnary operand).deeper
      chain := fun e => (h.readChain false e).deeper
      accesses := fun e => (h.readAccesses false e).deeper
      arguments := (h.readArguments assignment).deeper
      items := (h.readItems assignment).deeper
      properties := (h.readProperties context).deeper
      params := h.readParams.deeper
      paramList := h.readParamList.deeper
      target := h.readTarget.deeper
      pattern := h.readPattern.deeper
      patternProps := h.readPatternProps.deeper
      patternItems := h.readPatternItems.deeper
      declarators := h.readDeclarators.deeper
      statement := statement.deeper
      block := (h.readBlock (starved_block n) statement).deeper
      program := (h.readProgram statement).deeper
      placeholder := by
        intro b e run
        -- nothing stands behind the script in a placeholder
        have alone := ih { c with tail := [] } .nil
        obtain ⟨tokens, lexed, covers, follows⟩ :=
          Reads.readAll alone.expression rfl (Copy.endsStatement_of_nil rfl).endsExpression run
        refine ⟨tokens, lexed, covers, fun b' woven light clear owned => ?_⟩
        rw [← woven.text] at follows
        exact follows b'.offset woven.places (Nat.le_of_succ_le_succ light) clear owned }

/-- All readers are followed, whatever their depth, by readers that are as deep as there is fuel. -/
theorem followed (n) : ∀ c : Copy, Ends c.tail → Followed c (phrases n) (phrases c.fuel) := by
  induction n with
  | zero =>
    -- readers of depth zero never succeed
    intro c ends
    have none : ∀ {α : Type} [Result α] {Q : Prop} {pre : Stage} {r : Reader α} {post : α → Stage},
        Follows c Q pre shallowest.tooDeep r post := .fail (by rintro _ _ _ ⟨⟩)
    exact
      { ends, expression := none, sequence := none, assignment := none, binary := fun _ => none
        operators := fun _ _ => none, unary := none, chain := fun _ => none
        accesses := fun _ => none, arguments := none, items := none, properties := none
        params := none, paramList := none, target := none, pattern := none, patternProps := none
        patternItems := none, declarators := none, statement := none, block := none
        program := none, placeholder := by rintro _ _ ⟨⟩ }
  | succ n ih =>
    rintro ⟨weaving, tail, fuel⟩ ends
    cases fuel with
    | zero => exact (followed_succ (c := ⟨weaving, tail, 0⟩) ih ends).spent
    | succ fuel => exact followed_succ (c := ⟨weaving, tail, fuel⟩) ih ends

end Phrases

end Stencil.Script
