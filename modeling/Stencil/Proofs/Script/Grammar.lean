import Stencil.Proofs.Script.Reading

/-! # Every phrase follows

The reader of each phrase, read at some depth, is followed by the reader of the same phrase at a
greater depth in a script that was written into. The induction is on the depth; each reader is
followed as soon as the readers nested in it are.
-/

namespace Stencil.Script

open List Reader Text Token Result Phrases FollowsTo Pattern Except Nat

variable {tokens tokens' tail : List Token} {es : List Expr} {c : Copy}

section Results

theorem Func.spots_eq (name params body) :
    spots (⟨name, params, body⟩ : Func) = spots params ++ spots body := by
  show (uses [] _).spots = _
  rw [uses, Uses.spots_and, spots_usesAll _ [], FuncBody.spots_uses _ []]
  rfl

theorem FuncBody.spots_block (stmts) : spots (block stmts) = spots stmts := by
  show (uses [] _).spots = _
  rw [uses, Stmt.spots_usesAll _ []]
  rfl

theorem Stmt.spots_block (stmts) : spots (block stmts) = spots stmts := by
  show (uses [] _).spots = _
  rw [uses, spots_usesAll _ []]
  rfl

theorem Pattern.spots_cons (a) (as : List Pattern) : spots (a :: as) = spots a ++ spots as :=
  Uses.spots_and _ _

theorem Expr.spots_cons (a) (as : List Expr) : spots (a :: as) = spots a ++ spots as :=
  Uses.spots_and _ _

theorem Expr.mem_spots : x ∈ spots es ↔ ∃ e ∈ es, x ∈ spots e := by
  induction es with
  | nil => exact ⟨by rintro ⟨⟩, by rintro ⟨_, ⟨⟩, _⟩⟩
  | cons e es ih => simp [spots_cons, ih]

theorem Declarator.spots_eq (target v) :
    spots (⟨target, v⟩ : Declarator) = spots target ++ spots v := by
  cases v with
  | none => exact (append_nil _).symm
  | some e => exact Uses.spots_and _ _

theorem Declarator.spots_cons (a) (as : List Declarator) : spots (a :: as) = spots a ++ spots as :=
  Uses.spots_and _ _

theorem Declarator.woven_mk (target v) :
    woven w ⟨target, v⟩ = ⟨target.woven w, Result.woven w v⟩ := by
  cases v <;> rfl

theorem Stmt.woven_ret (v) : woven w (.ret v) = .ret (Result.woven w v) := by
  cases v <;> rfl

theorem Stmt.woven_branch (test s v) :
    woven w (.branch test s v) = .branch (test.woven w) (s.woven w) (Result.woven w v) := by
  cases v <;> rfl

theorem Stmt.spots_branch (test s v) :
    spots (branch test s v) = spots test ++ spots s ++ spots v := by
  cases v with
  | none => simp [spots, uses]
  | some s => simp [spots, uses]

theorem Stmt.spots_cons (a) (as : List Stmt) : spots (a :: as) = spots a ++ spots as :=
  Uses.spots_and _ _

theorem PatternProp.woven_shorthand (id v) :
    woven w (.shorthand id v) = .shorthand (id.woven w) (Result.woven w v) := by
  cases v <;> rfl

end Results

theorem Woven.any_word (h : Woven w tail (t :: tokens) tokens') :
    tokens'.head?.any (·.kind == .word) = (t.kind == .word) := by
  cases h with
  | keep same =>
    rcases same.inv with ⟨kept, _⟩ | ⟨_, _, kind, kind', _⟩
    · simp [kept.kind]
    · simp [kind, kind']
  | context mark kind free isCtx => simp [kind, isCtx.kind]
  | property mark kind free isKey => simp [kind, isKey.kind]

theorem Woven.endsReturn (h : Woven w tail (t :: tokens) tokens') :
    endsReturn tokens'.head? = endsReturn (some t) := by
  cases h with
  | keep same =>
    rcases same.inv with ⟨kept, _⟩ | ⟨_, _, kind, kind', _⟩
    · simp [endsReturn, isPunctuator, kept.kind, kept.text, kept.newline]
    · simp [endsReturn, isPunctuator_of_ne, kind, kind', same.newline]
  | context mark kind free isCtx =>
    simp [endsReturn, isPunctuator_of_ne, kind, isCtx.kind, isCtx.newline]
  | property mark kind free isKey =>
    simp [endsReturn, isPunctuator_of_ne, kind, isKey.kind, isKey.newline]

theorem Reader.lift_ok {x : Except SyntaxError Expr} :
    (liftM x : Reader Expr) s = .ok (e, s₁) ↔ x = .ok e ∧ s₁ = s := by
  cases x with
  | error fault => exact ⟨by rintro ⟨⟩, by rintro ⟨⟨⟩, _⟩⟩
  | ok e' =>
    constructor
    · intro run
      cases run
      exact ⟨rfl, rfl⟩
    · rintro ⟨⟨⟩, rfl⟩
      rfl

theorem Reader.mapM_ok {f : Body → Except SyntaxError Expr} :
    (bodies.mapM fun b => f b : Reader (List Expr)) s = .ok (es, s₁) ↔
      s₁ = s ∧ List.Forall₂ (fun b e => f b = .ok e) bodies es := by
  induction bodies generalizing es with
  | nil =>
    constructor
    · intro run
      cases run
      exact ⟨rfl, .nil⟩
    · rintro ⟨rfl, ⟨⟩⟩
      rfl
  | cons b bodies ih =>
    rw [mapM_cons]
    constructor
    · intro run
      obtain ⟨e, s₂, first, others⟩ := bind_ok.mp run
      obtain ⟨read, rfl⟩ := lift_ok.mp first
      obtain ⟨more, s₃, others, last⟩ := bind_ok.mp others
      cases last
      obtain ⟨same, each⟩ := ih.mp others
      exact ⟨same, .cons read each⟩
    · rintro ⟨rfl, each⟩
      obtain ⟨e, more, first, others, rfl⟩ := forall₂_cons_left_iff.mp each
      refine bind_ok.mpr ⟨e, s₁, lift_ok.mpr ⟨first, rfl⟩, ?_⟩
      exact bind_ok.mpr ⟨more, s₁, ih.mpr ⟨rfl, others⟩, rfl⟩

/-- Expressions read one by one from the placeholders that were written into. -/
theorem forall₂_woven {R Q : Body → Expr → Prop} {W : Body → Body → Prop}
    (each : List.Forall₂ R bodies es) (grown : List.Forall₂ W bodies bodies')
    (one : ∀ b ∈ bodies, ∀ e, ∀ b' ∈ bodies', R b e → W b b' → Q b' (e.woven w)) :
    List.Forall₂ Q bodies' (Expr.wovenAll w es) := by
  induction each generalizing bodies' with
  | nil =>
    cases grown
    exact .nil
  | @cons b e bodies es read others ih =>
    obtain ⟨b', more, first, rest, rfl⟩ := forall₂_cons_left_iff.mp grown
    refine .cons (one b (by simp) e b' (by simp) read first) (ih rest fun a member e a' member' => ?_)
    exact one a (by simp [member]) e a' (by simp [member'])

theorem exists_of_forall₂ {R : Body → Expr → Prop} (each : List.Forall₂ R bodies es)
    (member : e ∈ es) : ∃ b ∈ bodies, R b e := by
  induction each with
  | nil => cases member
  | cons read others ih =>
    rcases mem_cons.mp member with rfl | later
    · exact ⟨_, by simp, read⟩
    · obtain ⟨b, inside, read⟩ := ih later
      exact ⟨b, by simp [inside], read⟩

/-- The marks between two offsets stand on the given places. -/
def OwnedIn (m : Marks) (lo hi : Nat) (spots : List Spot) : Prop :=
  ∀ p k, lo ≤ p → p < hi → m p = some k → ∃ x ∈ spots, x.ident.start = p ∧ x.mark = k

theorem OwnedIn.onWords {lo hi spots} (owned : OwnedIn m lo hi spots)
    (covers : Covers tokens spots) : OnWords m lo hi tokens := by
  intro p k low high mark
  obtain ⟨x, member, start, rfl⟩ := owned p k low high mark
  refine ⟨x.ident, covers.words x member, start, ?_⟩
  unfold Spot.mark
  split
  · exact .inr rfl
  · exact .inl rfl

/-- Whether the token is an operator that binds at least so tightly. -/
def Phrases.bindsAtLeast (least : Nat) (t : Token) : Bool :=
  (operator? t).any fun precedence => decide (least ≤ precedence)

/-- What stands behind the script is no operator that binds at least so tightly. -/
def Copy.EndsOperand (c : Copy) (least : Nat) : Prop :=
  c.tail.head?.any (bindsAtLeast least) = false

/-- What stands behind the script goes on with no expression. -/
def Copy.EndsExpression (c : Copy) : Prop :=
  c.EndsOperand 0 ∧ c.tail.head?.any (·.isPunctuator ",") = false

/-- Nothing stands behind the script, or the end of a block. -/
def Copy.EndsStatement (c : Copy) : Prop :=
  c.tail.head?.all (·.isPunctuator "\x7d") = true

theorem Copy.EndsOperand.mono (h : c.EndsOperand low) (le : low ≤ high) : c.EndsOperand high := by
  unfold EndsOperand at h ⊢
  cases head : c.tail.head? with
  | none => rfl
  | some t =>
    simp only [head, Option.any_some, bindsAtLeast] at h ⊢
    cases precedence : operator? t with
    | none => rfl
    | some found =>
      simp only [precedence, Option.any_some, decide_eq_false_iff_not] at h ⊢
      omega

theorem Copy.EndsStatement.endsExpression (h : c.EndsStatement) : c.EndsExpression := by
  unfold EndsStatement at h
  unfold EndsExpression EndsOperand
  cases head : c.tail.head? with
  | none => exact ⟨rfl, rfl⟩
  | some t =>
    simp only [head, Option.all_some, isPunctuator, Bool.and_eq_true, beq_iff_eq] at h
    simp [bindsAtLeast, operator?, precedence?, isPunctuator, h]

theorem Copy.endsStatement_of_nil (alone : c.tail = []) : c.EndsStatement := by
  simp [EndsStatement, alone]

/-- More of a phrase that began with an expression. -/
abbrev Continues (c : Copy) (Q : Prop) (used : Bool) (r r' : Expr → Reader Expr) : Prop :=
  ∀ e, Follows c Q ⟨spots e, 1, used⟩ (r e) (r' (woven c.toWeaving e))
    fun a => ⟨spots a, 1, used⟩

/-- More of a phrase, where the names so far are those of the expression it goes on with. -/
theorem Continues.go {r r' : Expr → Reader Expr} (h : Continues c Q true r r')
    (spots : spots e = x) :
    Follows c Q ⟨x, 1, true⟩ (r e) (r' (woven c.toWeaving e)) fun a => ⟨Result.spots a, 1, u⟩ := by
  subst spots
  exact .relax (h e)

/-- The readers `q` follow the readers `p`. -/
structure Phrases.Followed (c : Copy) (p q : Phrases) : Prop where
  ends : Ends c.tail
  expression : Reads c c.EndsExpression 1 p.expression q.expression
  sequence : Reads c c.EndsExpression 1 p.sequence q.sequence
  assignment : Reads c (c.EndsOperand 0) 1 p.assignment q.assignment
  binary : ∀ least, Reads c (c.EndsOperand least) 1 (p.binary least) (q.binary least)
  operators : ∀ least,
    Continues c (c.EndsOperand least) true (p.operators least) (q.operators least)
  unary : Reads c True 1 p.unary q.unary
  chain : Continues c True true p.chain q.chain
  accesses : Continues c True true p.accesses q.accesses
  arguments : Reads c True 0 p.arguments q.arguments
  items : Reads c True 0 p.items q.items
  properties : Reads c True 0 p.properties q.properties
  params : Reads c True 0 p.params q.params
  paramList : Reads c (c.tail = []) 1 p.paramList q.paramList
  target : Reads c True 1 p.target q.target
  pattern : Reads c (c.EndsOperand 0) 1 p.pattern q.pattern
  patternProps : Reads c True 0 p.patternProps q.patternProps
  patternItems : Reads c True 0 p.patternItems q.patternItems
  declarators : Reads c c.EndsExpression 1 p.declarators q.declarators
  statement : Reads c c.EndsStatement 1 p.statement q.statement
  block : Reads c True 0 p.block q.block
  program : Reads c (c.tail = []) 1 p.program q.program
  placeholder : ∀ b e, p.placeholder b = .ok e →
    ∃ tokens, tokenize b.offset b.text = .ok tokens ∧ Covers tokens (spots e) ∧
      ∀ b', b.Woven c.toWeaving b' → b'.text.length + 2 ≤ c.fuel → Clear c.marks tokens →
        OwnedIn c.marks b.offset (b.offset + bytes b.text) (spots e) →
        q.placeholder b' = .ok (e.woven c.toWeaving)

namespace Phrases.Followed

variable (h : Followed c p q)
include h

theorem readTarget : Begins c True 1 p.readTarget q.readTarget := by
  refine .ifOpen h.ends (by simp) ?_ (.ifOpen h.ends (by simp) ?_ ?_)
  · exact (h.patternProps.within _ _).bind fun a => .pure rfl rfl
  · exact (h.patternItems.within _ _).bind fun a => .pure rfl rfl
  · exact ident.bind fun a => .pure rfl rfl

theorem readPattern :
    Begins c (c.EndsOperand 0) 1 p.readPattern q.readPattern := by
  refine h.readTarget.bind fun a => .ifEat h.ends (by simp) ?_ (.pure rfl rfl)
  refine (h.assignment.within _ _).bindInside fun b => ?_
  exact .pure rfl (by simp [spots, uses])

theorem readParam : Begins c (c.EndsOperand 0) 1 p.readParam q.readParam :=
  .ifEat h.ends (by simp) (h.target.bind fun a => .pure rfl rfl) h.readPattern

theorem readParams : Begins c True 0 p.readParams q.readParams := by
  refine .ifClose (.of fun _ => rfl) (by simp) (.pure rfl rfl) ?_
  refine h.readParam.bindBefore (fun a => ?_) fun _ => .of fun _ => rfl
  refine (FollowsTo.separated (h.params.within _ _)).bind fun b => ?_
  exact .pure rfl (by simp [spots_cons])

theorem readParamList :
    Follows c (c.tail = []) ⟨[], 1, false⟩ p.readParamList q.readParamList
      fun a => ⟨spots a, 1, false⟩ := by
  refine .ifAtEnd (.inl fun inside => inside rfl) (.pure rfl rfl) (.relax ?_)
  refine h.readParam.bindWith (fun a => .ifComma (.inl fun inside => by simp [inside rfl]) ?_ ?_)
    (.inl fun inside => (Copy.endsStatement_of_nil (inside rfl)).endsExpression.1)
  · refine (h.paramList.within _ _).bindInside fun b => ?_
    exact .pure rfl (by simp [spots_cons])
  · exact .pure rfl (by simp [spots_cons]; rfl)

theorem readKey : Begins c True 1 p.readKey q.readKey := by
  refine .ofCons (.of fun _ => rfl) fun t tokens stop => ?_
  by_cases name : (t.kind == .word || t.kind == .string || t.kind == .number) = true
  · have kind : t.kind = .word ∨ t.kind = .string ∨ t.kind = .number := by simp_all [or_assoc]
    refine .step (f := pure .named) (g := pure .named) (fun bodies template => ?_) ?_ ?_ ?_
      (.pure rfl rfl)
    · simp [template] at kind
    · apply moves_plain <;> rcases kind with kind | kind | kind <;>
        simp [isOpening, isClosing, kind]
    · show (if _ then _ else _ : Reader PropKey) _ = _
      rw [if_pos name]
      rfl
    · intro t' tokens' stop' same _
      show (if _ then _ else _ : Reader PropKey) _ = _
      rw [if_pos (by rwa [same.kind])]
      rfl
  · by_cases bracket : t.isPunctuator "[" = true
    · have computed : FollowsTo (fun rest => rest = [] → True) c ⟨[], 2, true⟩
          (do let key ← p.assignment; Reader.expect "]"; return .computed key : Reader PropKey)
          (do let key ← q.assignment; Reader.expect "]"; return .computed key : Reader PropKey)
          fun a => ⟨spots a, 1, true⟩ := by
        refine (h.assignment.within _ _).bindBefore (fun a => ?_) fun _ => .of fun _ => rfl
        exact (expect (closing (by simp) 1)).bind fun _ => .pure rfl rfl
      have kind : t.kind = .punctuator := by simp_all [isPunctuator]
      refine .step (by simp [kind]) (opening (by simp) 0 t bracket) ?_ ?_ (computed _)
      · show (if _ then _ else _ : Reader PropKey) _ = _
        rw [if_neg name, if_pos bracket]
        rfl
      · intro t' tokens' stop' same _
        show (if _ then _ else _ : Reader PropKey) _ = _
        rw [if_neg (by rwa [same.kind]), if_pos (((tests_isPunctuator "[").kept same).trans bracket)]
        rfl
    · intro a s₁ _ run
      have run : (if _ then _ else _ : Reader PropKey) _ = _ := run
      rw [if_neg name, if_neg bracket] at run
      exact absurd run (unexpected_run _ _ _ _)

theorem keyed {α : Type} [Result α] {ends : List Token → Prop}
    {F F' : Option Token → PropKey → Reader α} {post stop} (kind : t.kind ≠ .word)
    (uniform : ∀ t' key, t'.kind ≠ .word → F' (some t') key = F' (some t) key)
    (rest : ∀ key, FollowsTo ends c ⟨spots key, 1, true⟩ (F (some t) key)
      (F' (some t) (woven c.toWeaving key)) post) :
    FollowsAt ends c ⟨[], 1, false⟩ (do let token ← Reader.peek; let key ← p.readKey; F token key)
      (do let token ← Reader.peek; let key ← q.readKey; F' token key) post ⟨t :: tokens, stop⟩ := by
  refine (h.readKey.bind rest ⟨t :: tokens, stop⟩).congr rfl fun s' _ woven => ?_
  obtain ⟨tokens', stop'⟩ := s'
  have word := woven.any_word
  obtain ⟨t', rest', rfl⟩ : ∃ t' rest', tokens' = t' :: rest' := by
    cases woven <;> exact ⟨_, _, rfl⟩
  have kind' : t'.kind ≠ .word := by simpa [kind] using word
  rw [peek_bind, head?_cons, funext fun key => uniform t' key kind']

end Phrases.Followed

theorem Phrases.shorthandName?_word (kind : t.kind = .word) :
    shorthandName? (some t) .named = some t := by
  simp [shorthandName?, kind]

theorem Phrases.shorthandName?_none (kind : t.kind ≠ .word) (key) :
    shorthandName? (some t) key = none := by
  cases key <;> simp [shorthandName?, kind]

theorem Phrases.readKey_word {p : Phrases} (kind : t.kind = .word) (tokens stop) :
    p.readKey ⟨t :: tokens, stop⟩ = .ok (.named, ⟨tokens, stop⟩) := by
  show (if _ then _ else _ : Reader PropKey) _ = _
  rw [if_pos (by simp [kind])]
  rfl

namespace Phrases.Followed

theorem readPatternProp (h : Followed c p q) :
    Begins c (c.EndsOperand 0) 1 p.readPatternProp q.readPatternProp := by
  refine .ifEat h.ends (by simp) (h.target.bind fun a => .pure rfl rfl) ?_
  refine .ofCons (.of fun _ => rfl) fun t tokens stop => ?_
  by_cases kind : t.kind = .word
  · have rest : Follows c (c.EndsOperand 0) ⟨[], 1, true⟩
        (do
          if ← Reader.eat ":" then return .keyValue .named (← p.pattern)
          else
            let value ← if ← Reader.eat "=" then some <$> p.assignment else pure none
            return .shorthand t.ident value : Reader PatternProp)
        (do
          if ← Reader.eat ":" then return .keyValue .named (← q.pattern)
          else
            let value ← if ← Reader.eat "=" then some <$> q.assignment else pure none
            return .shorthand (t.ident.woven c.toWeaving) value : Reader PatternProp)
        fun a => ⟨spots a, 1, true⟩ := by
      refine .ifEat h.ends (by simp) (h.pattern.bindInside fun a => .pure rfl rfl) ?_
      have value : Reads c (c.EndsOperand 0) 1
          (do if ← Reader.eat "=" then some <$> p.assignment else pure none)
          (do if ← Reader.eat "=" then some <$> q.assignment else pure none) :=
        .ifEat h.ends (by simp) (h.assignment.map (fun _ => rfl) fun _ => rfl) (.pure rfl rfl)
      refine .join (value.bindInside fun v => .pure (PatternProp.woven_shorthand _ _).symm ?_)
      cases v <;> rfl
    refine .step (by simp [kind]) (moves_word kind 0) ?_ ?_ (rest _)
    · rw [peek_bind, bind_run (readKey_word kind tokens stop), head?_cons, shorthandName?_word kind]
      rfl
    · intro t' tokens' stop' same _
      have kind' := same.kind.trans kind
      rw [peek_bind, bind_run (readKey_word kind' tokens' stop'), head?_cons,
        shorthandName?_word kind', ← same.ident]
      rfl
  · refine h.keyed kind (fun t' key kind' => ?_) fun key => ?_
    · rw [shorthandName?_none kind', shorthandName?_none kind]
    rw [shorthandName?_none kind]
    refine .ifEat h.ends (by simp) ((h.pattern.within _ _).bindInside fun a => ?_) ?_
    · exact .pure rfl (by simp [spots, PatternProp.uses])
    · exact .fail fun s a s₁ => unexpected_run _ _ _ _

theorem readPatternProps (h : Followed c p q) :
    Begins c True 0 p.readPatternProps q.readPatternProps := by
  refine .ifClose (.of fun _ => rfl) (by simp) (.pure rfl rfl) ?_
  refine h.readPatternProp.bindBefore (fun a => ?_) fun _ => .of fun _ => rfl
  refine (FollowsTo.separated (h.patternProps.within _ _)).bind fun b => ?_
  exact .pure rfl (by simp [spots, PatternProp.usesAll])

theorem readPatternItems (h : Followed c p q) :
    Begins c True 0 p.readPatternItems q.readPatternItems := by
  refine .ifClose (.of fun _ => rfl) (by simp) (.pure rfl rfl) ?_
  refine .ifComma (.inr (.of fun _ => rfl)) (h.patternItems.bind fun a => .pure rfl rfl) ?_
  have first : Begins c (c.EndsOperand 0) 1
      (do if ← Reader.eat "..." then .rest <$> p.target else p.readPattern)
      (do if ← Reader.eat "..." then .rest <$> q.target else q.readPattern) := by
    refine .ifEat h.ends (by simp) (.map (h.target.weaken fun _ => trivial) ?_ ?_) h.readPattern
    · exact fun _ => rfl
    · exact fun _ => rfl
  refine .join (first.bindBefore (fun a => ?_) fun _ => .of fun _ => rfl)
  refine (FollowsTo.separated (h.patternItems.within _ _)).bind fun b => ?_
  exact .pure rfl (by simp [spots_cons])

theorem readPropertyName (stop : Ends c.tail) :
    Follows c True ⟨x, d + 1, true⟩ readPropertyName readPropertyName fun _ => ⟨x, d + 1, true⟩ := by
  refine (optional stop (by simp)).bind fun _ => ?_
  refine .ofCons (.of fun _ => rfl) fun t tokens stop => ?_
  by_cases word : t.kind = .word
  · refine .step (f := pure ()) (g := pure ()) (by simp [word]) (moves_word word d) ?_ ?_
      (.pure rfl rfl)
    · show (if _ then _ else _ : Reader Unit) _ = _
      rw [if_pos (by simp [word])]
      rfl
    · intro t' tokens' stop' same _
      show (if _ then _ else _ : Reader Unit) _ = _
      rw [if_pos (by simp [same.kind, word])]
      rfl
  · intro u s₁ _ run
    have run : (if _ then _ else _ : Reader Unit) _ = _ := run
    rw [if_neg (by simp [word])] at run
    exact absurd run (unexpected_run _ _ _ _)

theorem readTemplate_run (kind : t.kind = .template bodies) (tokens stop) (p : Phrases) :
    p.readTemplate ⟨t :: tokens, stop⟩ =
      (bodies.mapM fun b => p.placeholder b : Reader (List Expr)) ⟨tokens, stop⟩ := by
  obtain ⟨_, text, start, newline⟩ := t
  cases kind
  rfl

variable (h : Followed c p q)
include h

/-- The names in the placeholders of a template literal are words of it. -/
theorem covers_placeholders {t : Token} (kind : t.kind = .template bodies)
    (each : List.Forall₂ (fun b e => p.placeholder b = .ok e) bodies es) :
    Covers [t] (spots es) := by
  constructor
  · intro x member
    obtain ⟨e, inEs, inE⟩ := Expr.mem_spots.mp member
    obtain ⟨b, inside, read⟩ := exists_of_forall₂ each inEs
    obtain ⟨inner, lexed, covers, _⟩ := h.placeholder b e read
    exact .inBody ⟨by simp, bodies, kind, inside⟩ lexed (covers.words x inE)
  · intro tidy
    have sound := (tidy.sound t (by simp)).kind
    rw [kind] at sound
    have inOrder := sound.inOrder
    clear kind sound
    induction each with
    | nil => exact .nil
    | @cons b e bodies es read others ih =>
      obtain ⟨first, rest⟩ := pairwise_cons.mp inOrder
      obtain ⟨inner, lexed, covers, _⟩ := h.placeholder b e read
      have lexes := tokenize_eq_ok.mp lexed
      rw [Expr.spots_cons]
      refine pairwise_append.mpr ⟨covers.inOrder lexes.tidy, ih rest, fun x inE y later => ?_⟩
      obtain ⟨e', inEs, inE'⟩ := Expr.mem_spots.mp later
      obtain ⟨b', inside, read'⟩ := exists_of_forall₂ others inEs
      obtain ⟨inner', lexed', covers', _⟩ := h.placeholder b' e' read'
      have range := (covers.words x inE).inRange lexes
      have nonempty := (covers.words x inE).nonempty lexes.tidy
      have range' := (covers'.words y inE').inRange (tokenize_eq_ok.mp lexed')
      have between := first b' inside
      omega

/-- Every mark in a placeholder stands on a name of its expression. -/
theorem ownedIn (kind : t.kind = .template bodies) (tidy : Tidy [t])
    (each : List.Forall₂ (fun b e => p.placeholder b = .ok e) bodies es)
    (owned : Owned c.marks [t] (spots es)) (inside : b ∈ bodies) (read : p.placeholder b = .ok e) :
    OwnedIn c.marks b.offset (b.offset + bytes b.text) (spots e) := by
  have body : ∀ b ∈ bodies, BodyOf [t] t b := fun b inside => ⟨by simp, bodies, kind, inside⟩
  intro p k low high mark
  have bounds := ((body b inside).piece tidy).bounds
  obtain ⟨x, member, rfl, same⟩ := owned t (by simp) p k (by omega)
    (by simp only [Token.stop]; omega) mark
  obtain ⟨e', inEs, inE⟩ := Expr.mem_spots.mp member
  obtain ⟨b', inside', read'⟩ := exists_of_forall₂ each inEs
  obtain ⟨inner, lexed, covers, _⟩ := h.placeholder b' e' read'
  have lexes := tokenize_eq_ok.mp lexed
  have range := (covers.words x inE).inRange lexes
  have nonempty := (covers.words x inE).nonempty lexes.tidy
  rcases (body b inside).apart (body b' inside') tidy with rfl | before | behind
  · rw [read] at read'
    obtain rfl := ok.inj read'
    exact ⟨x, inE, rfl, same⟩
  · omega
  · omega

theorem readTemplate : Begins c True 1 p.readTemplate q.readTemplate := by
  refine .ofCons (.of fun _ => rfl) fun t tokens stop => ?_
  cases kind : t.kind with
  | template bodies =>
    intro es s₁ tidy run _
    rw [readTemplate_run kind] at run
    obtain ⟨rfl, each⟩ := mapM_ok.mp run
    have tidyHead : Tidy [t] := tidy.head
    refine ⟨[t], spots es, rfl, rfl, h.covers_placeholders kind each,
      moves_plain (by simp [isOpening, kind]) (by simp [isClosing, kind]) 0, ?_⟩
    rintro ⟨tokens', stop'⟩ owned woven light
    cases woven with
    | context mark word => rw [kind] at word; cases word
    | property mark word => rw [kind] at word; cases word
    | @keep _ t' _ rest' same rest =>
      rcases same.inv with ⟨_, other⟩ | ⟨bodies₀, bodies', kind₀, kind', grown⟩
      · exact absurd kind (other bodies)
      · obtain rfl : bodies = bodies₀ := by
          rw [kind] at kind₀
          injection kind₀
        have lighter := weight_lt_cons t' rest'
        refine ⟨rest', ?_, rest, le_trans lighter light⟩
        rw [readTemplate_run kind']
        refine mapM_ok.mpr
          ⟨rfl, forall₂_woven each grown fun b inside e b' inside' read woven => ?_⟩
        obtain ⟨inner, lexed, covers, follows⟩ := h.placeholder b e read
        have body : BodyOf [t] t b := ⟨by simp, bodies, kind, inside⟩
        have heavy := (weight_le_iff.mp (le_refl _)).2 _ kind' _ inside'
        have light : t'.weight + weight rest' ≤ c.fuel := light
        exact follows b' woven (by omega) (same.clear.inBody body lexed)
          (h.ownedIn kind tidyHead each owned inside read)
  | _ =>
    obtain ⟨_, text, start, newline⟩ := t
    cases kind
    exact fun a s₁ _ run => absurd run (unexpected_run _ _ _ _)

theorem readFunction : Reads c True 1 p.readFunction q.readFunction := by
  refine (optional h.ends (by simp)).bind fun _ => ?_
  have rest : ∀ name : Option String, Reads c True 1
      (do Reader.expect "("; let params ← p.params; Reader.expect "\x7b";
          return ⟨name, params, .block (← p.block)⟩ : Reader Func)
      (do Reader.expect "("; let params ← q.params; Reader.expect "\x7b";
          return ⟨name, params, .block (← q.block)⟩ : Reader Func) := by
    intro name
    refine (expect (opening (by simp) 0)).bind fun _ => ?_
    refine (h.params.within _ _).bind fun a => ?_
    refine (expect (opening (by simp) 0)).bind fun _ => ?_
    refine (h.block.within _ _).bind fun b => ?_
    exact .pure rfl (by simp [Func.spots_eq, FuncBody.spots_block])
  refine .ifPeek (fun t tokens tokens' woven => ?_) ?_ ?_ ?_
  · exact woven.any_word
  · exact fun _ => h.ends.head_any fun t stops => by simp [(cases_of_isEnd stops).1]
  · rw [bind_map_left, bind_map_left]
    exact ident.bind fun id => rest (some id.name)
  · exact rest none

end Phrases.Followed

/-- Whether the value of a property ends before the token. -/
def Token.endsAccess (t : Token) : Bool :=
  t.isPunctuator "," || t.isPunctuator "\x7d"

def EndsAccess (tokens : List Token) : Prop :=
  tokens.head?.any endsAccess = true

theorem EndsAccess.all (h : EndsAccess tokens) : tokens.head?.all endsAccess = true := by
  cases tokens with
  | nil => rfl
  | cons t tokens => exact h

theorem EndsAccess.woven (h : EndsAccess tokens) (woven : Woven w tail tokens tokens') :
    EndsAccess tokens' := by
  refine woven.head_any (.of (fun _ => rfl) (fun _ _ _ => rfl) fun _ => rfl)
    (fun t passes word => ?_) h
  simp [endsAccess, isPunctuator, word] at passes

/-- Whether a value or the parameters of a method begin with the token, after a key. -/
def Token.startsValue (t : Token) : Bool :=
  t.isPunctuator ":" || t.isPunctuator "("

theorem Woven.startsValue (h : Woven w tail tokens tokens') (stop : Ends tail) :
    tokens'.head?.any startsValue = tokens.head?.any startsValue := by
  refine h.any_head_eq (.of (fun _ => rfl) (fun _ _ _ => rfl) fun _ => rfl)
    (fun t passes word => ?_)
    fun _ => stop.head_any fun t stops => ?_
  · simp [Token.startsValue, Token.isPunctuator, word] at passes
  · simp [Token.startsValue, Token.isPunctuator_of_isEnd, stops]

/-- The access that is written for a name is read as one. -/
def Phrases.ReadsContext (q : Phrases) : Prop :=
  ∀ (ctx dot name : Token) (newline : Bool) (text : String) (rest : List Token) (stop : Nat),
    ctx.Is .word "_ctx" newline → dot.Is .punctuator "." false → name.Is .word text false →
    rest.head?.all endsAccess = true →
    q.assignment ⟨ctx :: dot :: name :: rest, stop⟩ = .ok (contextAt ctx.start, ⟨rest, stop⟩)

namespace Phrases

variable {p q : Phrases} {ends : List Token → Prop}

def readValue (p : Phrases) (key : PropKey) (other : Reader ObjectProp) : Reader ObjectProp := do
  if ← Reader.eat ":" then return .keyValue key (← p.assignment)
  else if ← Reader.eat "(" then
    let params ← p.params
    Reader.expect "\x7b"
    return .method key ⟨none, params, .block (← p.block)⟩
  else other

def readBare (name : Option Token) : Reader ObjectProp :=
  match name with
  | some t =>
    if isReservedWord t.text then throw ⟨.unexpectedKeyword t.text, t.start⟩
    else return .shorthand ⟨t.text, t.start, t.stop⟩
  | none => Reader.unexpected "':'"

/-- A property without what may stand before its key. -/
def readKeyed (p : Phrases) : Reader ObjectProp := do
  let token ← Reader.peek
  let key ← p.readKey
  p.readValue key (readBare (shorthandName? token key))

/-- Whether the next token belongs to the property after it. -/
def isAccessorHead (tokens : List Token) : Bool :=
  tokens.head?.any (fun t => t.kind == .word && ["get", "set", "async"].contains t.text) &&
    !tokens[1]?.any (fun t => t.kind == .punctuator && [",", ":", "(", "\x7d"].contains t.text)

theorem isAccessorHead_cons (same : t.Kept w t') (rest : Woven w tail (u :: tokens) tokens') :
    isAccessorHead (t' :: tokens') = isAccessorHead (t :: u :: tokens) := by
  have next := rest.any_head_eq (tests_punctuators [",", ":", "(", "\x7d"])
    (fun t passes word => by simp [word] at passes) (by simp)
  simp only [isAccessorHead, head?_cons, Option.any_some, getElem?_cons_succ,
    ← head?_eq_getElem?, next, same.kind, same.text]

theorem isAccessorHead_of_woven (h : Woven w tail tokens tokens') (stop : Ends tail)
    (accessor : isAccessorHead tokens' = true) : isAccessorHead tokens = true := by
  simp only [isAccessorHead, Bool.and_eq_true, Bool.not_eq_true', ← Bool.not_eq_true] at accessor ⊢
  cases h with
  | nil =>
    obtain ⟨word, _⟩ := accessor
    rw [stop.head_any fun t stops => by simp [(cases_of_isEnd stops).1]] at word
    cases word
  | keep same rest =>
    rcases same.inv with ⟨kept, _⟩ | ⟨_, _, _, kind, _⟩
    · refine ⟨by simpa [kept.kind, kept.text] using accessor.1, fun next => accessor.2 ?_⟩
      rw [getElem?_cons_succ, ← head?_eq_getElem?] at next ⊢
      exact rest.head_any (tests_punctuators _) (fun t passes word => by simp [word] at passes) next
    · simp [kind] at accessor
  | context mark kind free isCtx => simp [isCtx.text] at accessor
  | property mark kind free isKey isColon => simp [isColon.kind, isColon.text] at accessor

/-- A property that is not spread. -/
def readMember (p : Phrases) : Reader ObjectProp := fun s =>
  (do let _ ← Reader.eat "*"; p.readKeyed : Reader ObjectProp)
    (if isAccessorHead s.tokens then { s with tokens := s.tokens.tail } else s)

theorem readProperty_eq (p : Phrases) :
    p.readProperty = (do
      if ← Reader.eat "..." then return .spread (← p.assignment)
      else p.readMember) := by
  unfold readProperty
  congr 1
  funext eaten
  cases eaten with
  | true => rfl
  | false =>
    funext s
    show (if isAccessorHead s.tokens = true then (Reader.skip >>= fun _ => _) else _ :
      Reader ObjectProp) s = p.readMember s
    unfold readMember
    by_cases accessor : isAccessorHead s.tokens = true
    · rw [if_pos accessor, if_pos accessor]
      rfl
    · rw [if_neg accessor, if_neg accessor]
      rfl

/-- With a value or parameters next, it does not matter what else there might be. -/
theorem readValue_congr (next : s.tokens.head?.any startsValue = true) :
    p.readValue key other s = p.readValue key other' s := by
  obtain ⟨tokens, stop⟩ := s
  cases tokens with
  | nil => cases next
  | cons t tokens =>
    have next : (t.isPunctuator ":" || t.isPunctuator "(") = true := next
    unfold readValue
    by_cases colon : t.isPunctuator ":" = true
    · rw [bind_run (eat_of colon ..), bind_run (eat_of colon ..)]
      rfl
    · have paren : t.isPunctuator "(" = true := by simp_all
      have run := eat_of_not (Bool.not_eq_true _ ▸ colon) tokens stop
      rw [bind_run run, bind_run run, if_neg (by simp), if_neg (by simp),
        bind_run (eat_of paren ..), bind_run (eat_of paren ..)]
      rfl

theorem readKeyed_word (kind : t.kind = .word) (tokens stop) :
    p.readKeyed ⟨t :: tokens, stop⟩ = p.readValue .named (readBare (some t)) ⟨tokens, stop⟩ := by
  show (p.readKey >>= fun key => p.readValue key (readBare (shorthandName? (some t) key))) _ = _
  rw [bind_run (readKey_word kind tokens stop), shorthandName?_word kind]

theorem readValue_other (next : s.tokens.head?.any startsValue = false) :
    p.readValue key other s = other s := by
  have noColon : ¬s.tokens.head?.any (·.isPunctuator ":") = true := by
    cases head : s.tokens.head? <;> simp_all [startsValue]
  have noParen : ¬s.tokens.head?.any (·.isPunctuator "(") = true := by
    cases head : s.tokens.head? <;> simp_all [startsValue]
  have run : Reader.eat ":" s = .ok (false, s) := by rw [eat_run, if_neg noColon]
  have run' : Reader.eat "(" s = .ok (false, s) := by rw [eat_run, if_neg noParen]
  unfold readValue
  rw [bind_run run, if_neg (by simp), bind_run run']
  rfl

theorem endsAccess_of_separated {α : Type} {r} {a : α} (run : separated "\x7d" r s = .ok (a, s₁)) :
    EndsAccess s.tokens := by
  obtain ⟨tokens, stop⟩ := s
  cases tokens with
  | nil => cases run
  | cons t tokens =>
    by_cases close : t.isPunctuator "\x7d" = true
    · simp [EndsAccess, endsAccess, close]
    · by_cases comma : t.isPunctuator "," = true
      · simp [EndsAccess, endsAccess, comma]
      · have none := eat_of_not (Bool.not_eq_true _ ▸ comma) tokens stop
        rw [separated, bind_run (isAt_run _ _), head?_cons, Option.any_some, if_neg close] at run
        obtain ⟨_, _, failed, _⟩ := bind_ok.mp run
        rw [Reader.expect, bind_run none] at failed
        exact absurd failed (unexpected_run _ _ _ _)

namespace Followed

/-- A property that has only a key, which may be marked. -/
theorem readKeyed_bare (h : Ends c.tail) (context : 2 ≤ c.fuel → q.ReadsContext) {stop}
    (word : t.kind = .word) (next : tokens.head?.any startsValue = false) :
    FollowsAt EndsAccess c ⟨[], 1, false⟩ p.readKeyed q.readKeyed (fun a => ⟨spots a, 1, true⟩)
      ⟨t :: tokens, stop⟩ := by
  intro a s₁ tidy run ended
  rw [readKeyed_word word, readValue_other next] at run
  by_cases reserved : isReservedWord t.text = true
  · simp only [readBare, reserved] at run
    cases run
  · simp only [readBare, reserved] at run
    cases run
    have free : isReservedWord t.text = false := by simpa using reserved
    refine ⟨[t], [⟨t.ident, true⟩], rfl, rfl, .word word free true, moves_word word 0, ?_⟩
    rintro ⟨tokens', stop'⟩ owned woven light
    have mark : ∀ k, c.marks t.start = some k → k = .property t.text := by
      intro k mark
      obtain ⟨x, member, _, rfl⟩ := owned t (by simp) t.start k (le_refl _)
        (tidy.sound t (by simp)).nonempty mark
      obtain rfl := mem_singleton.mp member
      rfl
    cases woven with
    | @keep _ t' _ rest' same rest =>
      rcases same.inv with ⟨kept, _⟩ | ⟨_, _, template, _⟩
      · refine ⟨rest', ?_, rest, le_trans (weight_lt_cons t' rest') light⟩
        have bare : woven c.toWeaving (ObjectProp.shorthand t.ident) =
            .shorthand (t.ident.woven c.toWeaving) :=
          if_neg (by simp [show c.marks t.ident.start = none from same.unmarked])
        rw [readKeyed_word (kept.kind.trans word), readValue_other ((rest.startsValue h).trans next)]
        simp only [readBare]
        rw [if_neg (by rwa [kept.text])]
        exact congrArg (fun a => ok (a, _)) (kept.ident ▸ bare).symm
      · rw [word] at template
        cases template
    | context marked => cases mark _ marked
    | @property _ key colon ctx dot name _ rest' marked _ _ isKey isColon isCtx place isDot isName
        rest =>
      have lighter : weight rest' + 5 ≤ c.fuel := by
        have := key.weight_pos
        have := colon.weight_pos
        have := ctx.weight_pos
        have := dot.weight_pos
        have := name.weight_pos
        simp only [weight] at light
        omega
      have read := context (by omega) ctx dot name _ _ rest' stop' isCtx isDot isName
        (ended.woven rest).all
      refine ⟨rest', ?_, rest, by dsimp only [Bool.toNat_true]; omega⟩
      have access : woven c.toWeaving (ObjectProp.shorthand t.ident) =
          .keyValue .named (contextAt ctx.start) := by
        rw [place]
        exact if_pos (by simp [show c.marks t.ident.start = _ from marked])
      rw [readKeyed_word isKey.kind, readValue,
        bind_run (eat_of_is isColon _ stop'), if_pos rfl, bind_run read]
      exact congrArg (fun a => ok (a, _)) access.symm

theorem readValue (h : Followed c p q) (inside : ¬ends []) (key)
    (rest : FollowsTo ends c ⟨spots key, 1, true⟩ other other' fun a => ⟨spots a, 1, true⟩) :
    FollowsTo ends c ⟨spots key, 1, true⟩ (p.readValue key other)
      (q.readValue (woven c.toWeaving key) other') fun a => ⟨spots a, 1, true⟩ := by
  refine .ifEat h.ends (by simp) ?_ (.ifOpen h.ends (by simp) ?_ rest)
  · refine (h.assignment.within _ _).bindWith (fun a => ?_) (.inl fun ended => absurd ended inside)
    exact .pure rfl (by simp [spots, ObjectProp.uses])
  · refine (h.params.within _ _).bind fun a => ?_
    refine (expect (opening (by simp) 0)).bind fun _ => ?_
    refine (h.block.within _ _).bind fun b => .pure rfl ?_
    have spots := Func.spots_eq none a (.block b)
    rw [FuncBody.spots_block] at spots
    refine congrArg (Stage.mk · 1 true) ?_
    rw [append_assoc, ← spots]
    exact Uses.spots_and _ _

theorem readBare_none : FollowsTo ends c pre (readBare none) other post :=
  .fail fun s a s₁ => unexpected_run "':'" s s₁ a

variable (h : Followed c p q) (context : 2 ≤ c.fuel → q.ReadsContext)
include h context

theorem readKeyed :
    FollowsTo EndsAccess c ⟨[], 1, false⟩ p.readKeyed q.readKeyed fun a => ⟨spots a, 1, true⟩
    := by
  have value : ∀ key : PropKey, FollowsTo EndsAccess c ⟨spots key, 1, true⟩
      (p.readValue key (readBare none)) (q.readValue (woven c.toWeaving key) (readBare none))
      fun a => ⟨spots a, 1, true⟩ := fun key => h.readValue (by simp [EndsAccess]) key
    readBare_none
  refine .ofCons (.of fun _ => rfl) fun t tokens stop => ?_
  by_cases word : t.kind = .word
  · cases next : tokens.head?.any startsValue with
    | false => exact readKeyed_bare h.ends context word next
    | true =>
      refine .step (by simp [word]) (moves_word word 0) ?_ ?_ (value .named ⟨tokens, stop⟩)
      · rw [readKeyed_word word, readValue_congr next]
      · intro t' tokens' stop' same rest
        rw [readKeyed_word (same.kind.trans word)]
        exact readValue_congr ((rest.startsValue h.ends).trans next)
  · refine h.keyed word (fun t' key kind => ?_) fun key => ?_
    · rw [shorthandName?_none kind, shorthandName?_none word]
    · rw [shorthandName?_none word, shorthandName?_none word]
      exact value key

theorem readMember :
    FollowsTo EndsAccess c ⟨[], 1, false⟩ p.readMember q.readMember
      fun a => ⟨spots a, 1, true⟩ := by
  have keyed : FollowsTo EndsAccess c ⟨[], 1, false⟩
      (do let _ ← Reader.eat "*"; p.readKeyed : Reader ObjectProp)
      (do let _ ← Reader.eat "*"; q.readKeyed : Reader ObjectProp) fun a =>
    ⟨spots a, 1, true⟩ :=
    (optional h.ends (by simp)).bind fun _ => h.readKeyed context
  rintro ⟨tokens, stop⟩
  by_cases accessor : isAccessorHead tokens = true
  · cases tokens with
    | nil => cases accessor
    | cons t tokens =>
      have word : t.kind = .word := by
        simp only [isAccessorHead, head?_cons, Option.any_some, Bool.and_eq_true,
          beq_iff_eq] at accessor
        exact accessor.1.1
      have skip : ∀ (p : Phrases) (tokens : List Token) (stop : Nat), isAccessorHead tokens = true →
          p.readMember ⟨tokens, stop⟩ =
            (do let _ ← Reader.eat "*"; p.readKeyed : Reader ObjectProp) ⟨tokens.tail, stop⟩ := by
        intro p tokens stop accessor
        rw [Phrases.readMember, if_pos accessor]
      cases tokens with
      | nil =>
        intro a s₁ _ run
        rw [skip _ _ _ accessor] at run
        cases run
      | cons u tokens =>
        refine .step (by simp [word]) (moves_word word 0) (skip _ _ _ accessor) ?_ (keyed.begun _)
        intro t' tokens' stop' same rest
        exact skip _ _ _ ((isAccessorHead_cons same rest).trans accessor)
  · refine (keyed _).congr ?_ fun s' _ woven => ?_
    · rw [Phrases.readMember, if_neg accessor]
    · rw [Phrases.readMember,
        if_neg fun accessor' => accessor (isAccessorHead_of_woven woven h.ends accessor')]

theorem readProperty :
    FollowsTo EndsAccess c ⟨[], 1, false⟩ p.readProperty q.readProperty
      fun a => ⟨spots a, 1, true⟩ := by
  rw [readProperty_eq, readProperty_eq]
  refine .ifEat h.ends (by simp) ?_ (h.readMember context)
  exact h.assignment.bindWith (fun a => .pure rfl rfl) (.inl (by simp [EndsAccess]))

theorem readProperties :
    Begins c True 0 p.readProperties q.readProperties := by
  refine .ifClose (.of fun _ => rfl) (by simp) (.pure rfl rfl) fun s => ?_
  refine (h.readProperty context s).bind (fun a s₁ _ => ?_) fun a s₁ b s₂ _ _ run _ => ?_
  · refine (FollowsTo.separated (h.properties.within _ _)).bind (fun b => ?_) _
    exact .pure rfl (by simp [spots, ObjectProp.usesAll])
  · obtain ⟨more, s₃, run, _⟩ := bind_ok.mp run
    exact endsAccess_of_separated run

end Followed

theorem readPrimary_literal (kind : t.kind = .number ∨ t.kind = .string ∨ t.kind = .regex)
    (tokens stop) :
    p.readPrimary ⟨t :: tokens, stop⟩ = (pure .literal : Reader Expr) ⟨tokens, stop⟩ := by
  obtain ⟨_, text, start, newline⟩ := t
  rcases kind with kind | kind | kind <;> cases kind <;> rfl

theorem readPrimary_template (kind : t.kind = .template bodies) (tokens stop) :
    p.readPrimary ⟨t :: tokens, stop⟩ =
      (do return .template none (← p.readTemplate) : Reader Expr) ⟨t :: tokens, stop⟩ := by
  obtain ⟨_, text, start, newline⟩ := t
  cases kind
  rfl

/-- What is read after a bracket that an operand begins with. -/
def readBracketed (p : Phrases) (text : String) : Reader Expr :=
  if text == "(" then do
    let inner ← p.expression
    Reader.expect ")"
    return .paren inner
  else if text == "[" then do return .array (← p.items)
  else do return .object (← p.properties)

theorem readPrimary_bracket (bracket : t.isOpening = true) (tokens stop) :
    p.readPrimary ⟨t :: tokens, stop⟩ = p.readBracketed t.text ⟨tokens, stop⟩ := by
  obtain ⟨kind, text, start, newline⟩ := t
  simp only [isOpening, Bool.and_eq_true, beq_iff_eq, contains_eq_mem,
    decide_eq_true_eq, mem_cons, not_mem_nil, or_false] at bracket
  obtain ⟨rfl, rfl | rfl | rfl⟩ := bracket <;> rfl

theorem readPrimary_punctuator (kind : t.kind = .punctuator) (other : t.isOpening = false)
    (tokens stop) :
    p.readPrimary ⟨t :: tokens, stop⟩ = Reader.unexpected "expression" ⟨t :: tokens, stop⟩ := by
  obtain ⟨_, text, start, newline⟩ := t
  cases kind
  simp only [isOpening, beq_self_eq_true, Bool.true_and, contains_eq_mem,
    decide_eq_false_iff_not, mem_cons, not_mem_nil, or_false, not_or] at other
  show (if _ then _ else _ : Reader Expr) _ = _
  rw [if_neg (by simpa using other.1), if_neg (by simpa using other.2.1),
    if_neg (by simpa using other.2.2)]

end Phrases

end Stencil.Script
