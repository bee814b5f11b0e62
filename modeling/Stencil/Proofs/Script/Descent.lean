import Mathlib
import Stencil.Proofs.Script.Expressions

/-! # Reading a script ends

A reader goes one level deeper only after it has read a token. So the weight of the tokens that are
left bounds how deep readers must be: on lighter tokens they never fail for lack of depth. What a
reader leaves is a tail of the tokens, and all but the readers of further operators, accesses and
list items leave a proper one.
-/

namespace Stencil.Script

open List Token Reader Phrases Std.Do

set_option mvcgen.warning false

variable {α β : Type} {n : Nat} {r : Reader α}

/-- A tail of the tokens is left, a proper one if `used`. -/
@[grind]
def Below (s₀ : Stream) (used : Bool) (s : Stream) : Prop :=
  s.tokens <:+ s₀.tokens ∧ weight s.tokens + used.toNat ≤ weight s₀.tokens

attribute [local grind →] IsSuffix.trans

theorem tail_below (tokens : List Token) : tokens.tail <:+ tokens ∧
    weight tokens.tail ≤ weight tokens ∧
    (tokens.head? = none ∨ weight tokens.tail < weight tokens) := by
  cases tokens with
  | nil => exact ⟨suffix_refl _, Nat.le_refl _, .inl rfl⟩
  | cons t tokens =>
    have lt := weight_lt_cons t tokens
    exact ⟨suffix_cons .., Nat.le_of_lt lt, .inr lt⟩

grind_pattern tail_below => tokens.tail

abbrev Leaves (light : Prop) (s₀ : Stream) (r : Reader α) (used : α → Bool) : Prop :=
  ⦃fun s => ⌜s = s₀ ∧ light⌝⦄ r
  ⦃post⟨fun a s => ⌜Below s₀ (used a) s⌝, fun e => ⌜e.fault ≠ .tooDeep⌝⟩⦄

/-- The reader is deep enough for tokens that weigh less than `n`. -/
abbrev Descends (n : Nat) (s₀ : Stream) (r : Reader α) (used : Bool) : Prop :=
  Leaves (weight s₀.tokens < n) s₀ r fun _ => used

-- with the postcondition unknown, a specification is applied at the stream that the reader is at
theorem Leaves.of {light s₀ used} (h : ∀ Q : α → Stream → Prop,
    (∀ a s, Below s₀ (used a) s → Q a s) → ⦃fun s => ⌜s = s₀ ∧ light⌝⦄ r
    ⦃post⟨fun a s => ⌜Q a s⌝, fun e => ⌜e.fault ≠ .tooDeep⌝⟩⦄) : Leaves light s₀ r used :=
  h _ fun _ _ => id

/-- Whatever fails does not fail for lack of depth. -/
def DeepEnough (x : Except SyntaxError α) : Prop :=
  ∀ e, x = .error e → e.fault ≠ .tooDeep

/-- Readers of the depth `n` are deep enough for tokens that weigh less. -/
structure Deep (n : Nat) : Prop where
  expression {s₀ : Stream} : Descends n s₀ (phrases n).expression true
  sequence {s₀ : Stream} : Descends n s₀ (phrases n).sequence false
  assignment {s₀ : Stream} : Descends n s₀ (phrases n).assignment true
  binary {s₀ : Stream} (least) : Descends n s₀ ((phrases n).binary least) true
  operators {s₀ : Stream} (least e) : Descends n s₀ ((phrases n).operators least e) false
  unary {s₀ : Stream} : Descends n s₀ (phrases n).unary true
  chain {s₀ : Stream} (e) : Descends n s₀ ((phrases n).chain e) false
  accesses {s₀ : Stream} (e) : Descends n s₀ ((phrases n).accesses e) false
  arguments {s₀ : Stream} : Descends n s₀ (phrases n).arguments true
  items {s₀ : Stream} : Descends n s₀ (phrases n).items true
  properties {s₀ : Stream} : Descends n s₀ (phrases n).properties true
  params {s₀ : Stream} : Descends n s₀ (phrases n).params true
  paramList {s₀ : Stream} : Descends n s₀ (phrases n).paramList false
  target {s₀ : Stream} : Descends n s₀ (phrases n).target true
  pattern {s₀ : Stream} : Descends n s₀ (phrases n).pattern true
  patternProps {s₀ : Stream} : Descends n s₀ (phrases n).patternProps true
  patternItems {s₀ : Stream} : Descends n s₀ (phrases n).patternItems true
  declarators {s₀ : Stream} : Descends n s₀ (phrases n).declarators true
  statement {s₀ : Stream} : Descends n s₀ (phrases n).statement true
  block {s₀ : Stream} : Descends n s₀ (phrases n).block true
  program {s₀ : Stream} : Descends n s₀ (phrases n).program false
  placeholder (b : Body) (short : b.text.length + 1 < n) : DeepEnough ((phrases n).placeholder b)

variable {s₀ : Stream}

/-! ## Tokens -/

attribute [spec] peek skip ahead isAt isAtWord Reader.atEnd eatEither unexpected expect

@[spec high]
theorem throw_spec {e : SyntaxError} : ⦃fun _ => ⌜e.fault ≠ .tooDeep⌝⦄ (throw e : Reader α)
    ⦃post⟨fun _ _ => ⌜False⌝, fun e => ⌜e.fault ≠ .tooDeep⌝⟩⦄ :=
  fun _ other => other

@[spec]
theorem eat_spec {p} : Leaves True s₀ (eat p) id := by
  mvcgen [eat] with grind

@[spec]
theorem eatWord_spec {w} : Leaves True s₀ (eatWord w) id := by
  mvcgen [eatWord] with grind

@[spec]
theorem ident_spec : Leaves True s₀ Reader.ident fun _ => true := by
  refine .of fun Q done => ?_
  mvcgen [Reader.ident] with grind

@[spec]
theorem readPropertyName_spec : Leaves True s₀ readPropertyName fun _ => true := by
  refine .of fun Q done => ?_
  mvcgen [readPropertyName] with grind

/-! ## Phrases -/

theorem placeholders_wp {f : Body → Except SyntaxError Expr} {bodies : List Body} {s}
    {Q : PostCond (List Expr) (.arg Stream (.except SyntaxError .pure))}
    (each : ∀ b ∈ bodies, DeepEnough (f b)) (done : ∀ es, (Q.1 es s).down)
    (fails : ∀ e, e.fault ≠ .tooDeep → (Q.2.1 e).down) :
    (wp⟦(bodies.mapM fun b => f b : Reader (List Expr))⟧ Q s).down := by
  induction bodies generalizing Q with
  | nil => exact done []
  | cons b bodies ih =>
    obtain ⟨first, others⟩ := forall_mem_cons.mp each
    rw [mapM_cons]
    cases run : f b with
    | error e => exact fails e (first e run)
    | ok a =>
      simp only [WPMonad.wp_bind, WPMonad.wp_pure]
      exact ih (Q := (fun es => Q.1 (a :: es), Q.2)) others (fun es => done (a :: es)) fails

namespace Deep

attribute [spec] expression sequence assignment binary operators unary chain accesses arguments
  items properties params paramList target pattern patternProps patternItems declarators statement
  block program

variable (h : Deep n)
include h

@[spec]
theorem readTarget : Descends (n + 1) s₀ (phrases n).readTarget true := by
  refine .of fun Q done => ?_
  mvcgen [Phrases.readTarget] with grind

@[spec]
theorem readKey : Descends (n + 1) s₀ (phrases n).readKey true := by
  refine .of fun Q done => ?_
  mvcgen [Phrases.readKey] with grind

@[spec]
theorem readPattern : Descends (n + 1) s₀ (phrases n).readPattern true := by
  refine .of fun Q done => ?_
  mvcgen [Phrases.readPattern] with grind

@[spec]
theorem readParam : Descends (n + 1) s₀ (phrases n).readParam true := by
  refine .of fun Q done => ?_
  mvcgen [Phrases.readParam] with grind

@[spec]
theorem readParams : Descends (n + 1) s₀ (phrases n).readParams true := by
  refine .of fun Q done => ?_
  mvcgen [Phrases.readParams, separated] with grind

@[spec]
theorem readPatternProp : Descends (n + 1) s₀ (phrases n).readPatternProp true := by
  refine .of fun Q done => ?_
  mvcgen [Phrases.readPatternProp] with grind

@[spec]
theorem readFunction : Descends n s₀ (phrases n).readFunction true := by
  refine .of fun Q done => ?_
  mvcgen [Phrases.readFunction] with grind

@[spec]
theorem readProperty : Descends (n + 1) s₀ (phrases n).readProperty true := by
  refine .of fun Q done => ?_
  mvcgen [Phrases.readProperty] with grind

@[spec]
theorem readTemplate : Descends (n + 1) s₀ (phrases n).readTemplate true := by
  refine .of fun Q done => ?_
  mvcgen [Phrases.readTemplate]
  case vc1 s here t first _ bodies kind =>
    obtain ⟨rfl, light⟩ := here
    refine placeholders_wp (fun b member => ?_) (fun es => done es _ (by grind)) fun _ => id
    have heavy := (weight_le_iff.mp (Nat.le_refl t.weight)).2 bodies kind b member
    have least : t.weight ≤ weight s.tokens := by
      obtain ⟨_ | ⟨u, tokens⟩, stop⟩ := s <;> cases first
      exact Nat.le_add_right ..
    exact h.placeholder b (by omega)
  all_goals grind

@[spec]
theorem readPrimary : Descends (n + 1) s₀ (phrases n).readPrimary true := by
  refine .of fun Q done => ?_
  mvcgen [Phrases.readPrimary] with grind

@[spec]
theorem readAccesses (e) : Descends (n + 1) s₀ ((phrases n).readAccesses e) false := by
  refine .of fun Q done => ?_
  mvcgen [Phrases.readAccesses] with grind

@[spec]
theorem readChain (e) : Descends (n + 1) s₀ ((phrases n).readChain e) false := by
  refine .of fun Q done => ?_
  mvcgen [Phrases.readChain] with grind

@[spec]
theorem readPostfix : Descends (n + 1) s₀ (phrases n).readPostfix true := by
  refine .of fun Q done => ?_
  mvcgen [Phrases.readPostfix] with grind

@[spec]
theorem readUnary : Descends (n + 1) s₀ (phrases n).readUnary true := by
  refine .of fun Q done => ?_
  mvcgen [Phrases.readUnary] with grind

@[spec]
theorem readOperators (least e) : Descends (n + 1) s₀ ((phrases n).readOperators least e) false := by
  refine .of fun Q done => ?_
  mvcgen [Phrases.readOperators] with grind

@[spec]
theorem readBinary (least) : Descends (n + 1) s₀ ((phrases n).readBinary least) true := by
  refine .of fun Q done => ?_
  mvcgen [Phrases.readBinary] with grind

@[spec]
theorem readConditional : Descends (n + 1) s₀ (phrases n).readConditional true := by
  refine .of fun Q done => ?_
  mvcgen [Phrases.readConditional] with grind

@[spec]
theorem readArrow? : Leaves (weight s₀.tokens < n + 1) s₀ (phrases n).readArrow? Option.isSome := by
  refine .of fun Q done => ?_
  mvcgen [Phrases.readArrow?] with grind

@[spec]
theorem readAssignment : Descends (n + 1) s₀ (phrases n).readAssignment true := by
  refine .of fun Q done => ?_
  mvcgen [Phrases.readAssignment] with grind

@[spec]
theorem readItem : Descends (n + 1) s₀ (phrases n).readItem true := by
  refine .of fun Q done => ?_
  mvcgen [Phrases.readItem] with grind

@[spec]
theorem readSequence : Descends (n + 1) s₀ (phrases n).readSequence false := by
  refine .of fun Q done => ?_
  mvcgen [Phrases.readSequence] with grind

@[spec]
theorem readExpression : Descends (n + 1) s₀ (phrases n).readExpression true := by
  refine .of fun Q done => ?_
  mvcgen [Phrases.readExpression] with grind

@[spec]
theorem readStatement : Descends (n + 1) s₀ (phrases n).readStatement true := by
  refine .of fun Q done => ?_
  mvcgen [Phrases.readStatement] with grind

end Deep

/-! ## Scripts -/

theorem Leaves.run {light used} (h : Leaves light s₀ r used) (here : light) :
    (∀ a s, r s₀ = .ok (a, s) → Below s₀ (used a) s) ∧ DeepEnough (r s₀) := by
  have h : (wp⟦r s₀⟧ (fun p => ⌜Below s₀ (used p.1) p.2⌝, fun e => ⌜e.fault ≠ .tooDeep⌝, ())).down :=
    h s₀ ⟨rfl, here⟩
  constructor
  · intro a s run
    rwa [run] at h
  · intro e run
    rwa [run] at h

namespace DeepEnough

theorem ok (a : α) : DeepEnough (.ok a) := by
  rintro _ ⟨⟩

theorem throw {e : SyntaxError} (other : e.fault ≠ .tooDeep) :
    DeepEnough (MonadExcept.throw e : Except SyntaxError α) := by
  rintro _ ⟨⟩
  exact other

theorem bind {g : α → Except SyntaxError β} (first : DeepEnough x)
    (second : ∀ a, DeepEnough (g a)) : DeepEnough (x >>= g) := by
  cases x with
  | error e => exact fun e' same => first e' (by cases same; rfl)
  | ok a => exact second a

end DeepEnough

theorem deepEnough_skipTrivia (pos mode cs) : DeepEnough (skipTrivia pos mode cs) := by
  fun_induction skipTrivia pos mode cs
  all_goals first
    | exact .ok _
    | exact .throw (by rintro ⟨⟩)
    | exact .bind ‹_› fun _ => .ok _

theorem deepEnough_scanTemplate (pos top outer cs) : DeepEnough (scanTemplate pos top outer cs) := by
  have unclosed : ∀ top : TemplateFrame, top.unterminated.fault ≠ .tooDeep := by
    rintro (_ | _ | _) ⟨⟩
  fun_induction scanTemplate pos top outer cs
  all_goals first
    | exact .throw (unclosed _)
    | exact .ok _
    | exact .bind ‹_› fun _ => .ok _
    | rw [if_pos ‹_›]; exact .bind ‹_› fun _ => .ok _
    | rw [if_neg ‹_›]; exact .bind ‹_› fun _ => .ok _

theorem deepEnough_tokensFrom (signs previous pos cs) :
    DeepEnough (tokensFrom signs previous pos cs) := by
  fun_induction tokensFrom signs previous pos cs with
  | case1 previous pos cs ih =>
    refine .bind (deepEnough_skipTrivia _ _ _) fun trivia => ?_
    split
    · exact .ok _
    next c rest eq =>
      refine .bind ?_ fun found => .bind (ih trivia c rest eq found.1 found.2) fun _ => .ok _
      unfold scanToken
      repeat' split
      all_goals first
        | exact .ok _
        | exact .throw (by rintro ⟨⟩)
        | exact .bind (deepEnough_scanTemplate _ _ _ _) fun _ => .ok _

theorem DeepEnough.readAll {used offset} {script : List Char} (h : ∀ {s₀}, Descends n s₀ r used)
    (short : script.length < n) : DeepEnough (readAll r offset script) := by
  have whole {s₀} : Descends n s₀ (do let a ← r; finish; return a) false := by
    refine .of fun Q done => ?_
    mvcgen [finish, h] with grind
  unfold Phrases.readAll
  cases lexed : tokenize offset script with
  | error e =>
    rintro _ ⟨⟩
    exact deepEnough_tokensFrom _ _ _ _ _ lexed
  | ok tokens =>
    have light := Nat.lt_of_le_of_lt (tokenize_eq_ok.mp lexed).weight_le short
    have run := (Leaves.run (@whole ⟨tokens, offset + Text.bytes script⟩) light).2
    exact .bind (x := StateT.run _ _) run fun _ => .ok _

theorem Deep.succ (h : Deep n) : Deep (n + 1) := by
  constructor
  case placeholder => exact fun _ short => .readAll h.expression (Nat.lt_of_succ_lt_succ short)
  all_goals
    intros
    refine .of fun Q done => ?_
    simp only [phrases, deeper]
    mvcgen [readArguments, readItems, readProperties, readParamList, readPatternProps,
      readPatternItems, readDeclarators, readBlock, readProgram, separated] with grind

theorem deep (n) : Deep n := by
  induction n with
  | zero =>
    constructor
    case placeholder => exact fun b short => absurd short (Nat.not_lt_zero _)
    all_goals
      intros
      exact fun _ here => absurd here.2 (Nat.not_lt_zero _)
  | succ n ih => exact ih.succ

/-- What reads a token does not succeed at the end. -/
theorem Starved.taking (h : ∀ {s₀}, Descends (n + 1) s₀ r true) : Starved r := by
  intro stop a s run
  exact absurd ((Leaves.run (@h ⟨[], stop⟩) (Nat.succ_pos n)).1 a s run).2 (Nat.not_succ_le_zero _)

theorem BodyOf.length_lt (h : BodyOf tokens t b) (tidy : Tidy tokens) :
    b.text.length < t.text.toList.length := by
  obtain ⟨member, bodies, kind, inside⟩ := h
  have sound := (tidy.sound t member).kind
  rw [kind] at sound
  obtain ⟨front, after, split, _, _, two⟩ := sound.piece b inside
  rw [split, length_append, length_append]
  omega

/-- Reading a script is a recursion that ends: readers of the depth that is used never fail for lack
    of depth. For a phrase is read inside another only after a token, every phrase takes a token or
    ends, and the bodies of a template literal are shorter than it. No list is read to its end where
    the tokens end, and the look-ahead for an arrow leaves a tail of the tokens that it began with. -/
theorem reading_ends (script : String) :
    DeepEnough (parseExpression script) ∧ DeepEnough (parseStatements script) ∧
    DeepEnough (parseParams script) ∧
    (∀ n, Deep n ∧ ∀ s₀, Leaves (weight s₀.tokens < n + 1) s₀ (phrases n).readArrow? Option.isSome) ∧
    (∀ n, Starved (phrases (n + 1)).arguments ∧ Starved (phrases (n + 1)).items ∧
      Starved (phrases (n + 1)).properties ∧ Starved (phrases (n + 1)).params ∧
      Starved (phrases (n + 1)).patternProps ∧ Starved (phrases (n + 1)).patternItems ∧
      Starved (phrases (n + 1)).block) ∧
    ∀ offset text tokens t b, tokenize offset text = .ok tokens → BodyOf tokens t b →
      b.text.length < t.text.toList.length := by
  have own := deep (script.toList.length + 2)
  have short : script.toList.length < script.toList.length + 2 := by omega
  refine ⟨.readAll own.expression short, .readAll own.program short, .readAll own.paramList short,
    fun n => ⟨deep n, fun _ => (deep n).readArrow?⟩, fun n => ?_,
    fun _ _ _ _ _ lexed body => body.length_lt (tokenize_eq_ok.mp lexed).tidy⟩
  have h := deep (n + 1)
  exact ⟨.taking h.arguments, .taking h.items, .taking h.properties, .taking h.params,
    .taking h.patternProps, .taking h.patternItems, .taking h.block⟩

end Stencil.Script
