import Stencil.Proofs.Script.Behind

/-! # Operands in a list

A script that is one operand stays one where it stands between brackets, before a comma or the
closing bracket: the list that it stands in is read item by item.
-/

namespace Stencil.Script

open List Phrases Reader Text Token Nat Weaving

/-! ## Tokens behind an operand -/

/-- No arrow comes next, nor behind the brackets that close here. -/
def Quiet (tokens : List Token) : Prop :=
  ∀ depth, (look depth tokens).any (·.head?.any (·.isPunctuator "=>")) = false

variable {n stop : Nat} {tail : List Token} {α : Type}

theorem Ends.quiet (h : Ends tail) : Quiet tail
  | 0 => h.head_any fun _ isEnd => isPunctuator_of_isEnd (by simp) isEnd
  | depth + 1 => h.noArrow depth

variable {t : Token}

theorem Quiet.behind {front b} (quiet : Quiet tail) (moves : Moves (t :: front) 1 b)
    (other : t.isPunctuator "=>" = false) : Quiet (t :: (front ++ tail)) := by
  intro depth
  cases depth with
  | zero => exact other
  | succ depth =>
    rw [← cons_append, moves depth tail]
    exact quiet _

/-- What comes behind an item. -/
structure EndsItem (tail : List Token) : Prop extends Ends tail where
  noOperator : tail.head?.any (bindsAtLeast 0) = false

theorem EndsItem.nil : EndsItem [] :=
  ⟨.nil, rfl⟩

theorem Quiet.ends {front : List Token} {b : Nat} (quiet : Quiet tail)
    (moves : Moves (t :: front) 1 b) (h : t.isPunctuator p = true)
    (isEnd : p ∈ [",", ")", "]", "\x7d"]) : EndsItem (t :: (front ++ tail)) := by
  rw [isPunctuator_iff] at h
  have noOperator : ∀ p ∈ [",", ")", "]", "\x7d"], precedence? p = none := by decide
  have ends : t.isEnd = true := by
    have isEnd := mem_append_left ["+"] isEnd
    simpa [Token.isEnd, h] using isEnd
  refine ⟨⟨ends, fun depth => ?_⟩, ?_⟩
  · exact quiet.behind moves (isPunctuator_of_isEnd (by simp) ends) (depth + 1)
  · simp [bindsAtLeast, operator?, h, noOperator _ isEnd]

theorem Token.isPunctuator_other (h : t.isPunctuator p = true) (other : p ≠ q) :
    t.isPunctuator q = false := by
  simp only [isPunctuator, Bool.and_eq_true, beq_iff_eq] at h
  simp [isPunctuator, h, other]

theorem Reader.expect_of (h : t.isPunctuator p = true) (tokens stop) :
    expect p ⟨t :: tokens, stop⟩ = .ok ((), ⟨tokens, stop⟩) := by
  rw [expect, bind_run (eat_of h ..)]
  rfl

/-! ## Operands -/

def endsInLineComment (script : List Char) : Bool :=
  match tokenize 0 script with
  | .ok tokens => opensLine .blank (gapBehind 0 tokens script)
  | .error _ => false

/-- Whether an expression is a sequence of operands with commas between them. -/
def Expr.isSequence : Expr → Bool
  | .sequence _ => true
  | _ => false

structure Operand (script : String) (e : Expr) : Prop where
  reads : parseExpression script = .ok e
  single : e.isSequence = false
  closed : endsInLineComment script.toList = false
  /-- It is cut the same whether or not its numbers may have signed exponents. -/
  steady : tokensFrom true none 0 script.toList = tokenize 0 script.toList

theorem Reader.eat_false (run : eat p s = .ok (false, s₁)) : s₁ = s := by
  rw [eat_run] at run
  split at run
  · cases run
  · cases run
    rfl

theorem readAssignment_of_readExpression {p : Phrases} (run : p.readExpression s = .ok (e, s₂))
    (single : e.isSequence = false) : p.readAssignment s = .ok (e, s₂) := by
  obtain ⟨first, s₁, read, rest⟩ := bind_ok.mp run
  obtain ⟨more, s₃, sequence, last⟩ := bind_ok.mp rest
  cases more with
  | cons item more =>
    cases last
    cases single
  | nil =>
    cases last
    have same : s₁ = s₂ := by
      obtain ⟨eaten, s₄, comma, others⟩ := bind_ok.mp sequence
      cases eaten with
      | true =>
        obtain ⟨_, _, _, others⟩ := bind_ok.mp others
        obtain ⟨_, _, _, last⟩ := bind_ok.mp others
        cases last
      | false =>
        cases others
        exact (eat_false comma).symm
    rw [read, same]

theorem Operand.tokens (h : Operand script e) :
    ∃ tokens m stop s, Lexes true none 0 script.toList tokens ∧
      opensLine .blank (gapBehind 0 tokens script.toList) = false ∧
      (phrases m).readAssignment ⟨tokens, stop⟩ = .ok (e, s) ∧ s.tokens = [] := by
  obtain ⟨tokens, s, lexed, read, ended⟩ := readAll_ok.mp h.reads
  have closed := h.closed
  rw [endsInLineComment, lexed] at closed
  have lexes := lexes_of_tokensFrom (h.steady.trans lexed)
  exact ⟨tokens, script.toList.length + 1, _, s, lexes, closed,
    readAssignment_of_readExpression read h.single, ended⟩

/-- A punctuator that begins an operand opens a bracket or is an operator before its operand. -/
theorem not_readAssignment {p : Phrases} (kind : t.kind = .punctuator)
    (other : t.isOpening = false) (other' : isPrefixOperator t = false) :
    p.readAssignment ⟨t :: tokens, stop⟩ ≠ .ok (e, s) := by
  intro run
  have noParen : t.isPunctuator "(" = false := by
    cases paren : t.isPunctuator "(" with
    | false => rfl
    | true =>
      rw [isPunctuator_iff] at paren
      simp [isOpening, paren] at other
  have noArrow : p.readArrow? ⟨t :: tokens, stop⟩ = .ok (none, ⟨t :: tokens, stop⟩) := by
    rw [readArrow?_run, arrowTokens_of_not
      (isAsyncHead_of_not (by simp [isWord, kind])), readArrowHere, arrowHead?_other noParen, kind]
    rfl
  rw [readAssignment, bind_run noArrow] at run
  obtain ⟨_, _, run, _⟩ := bind_ok.mp run
  obtain ⟨_, _, run, _⟩ := bind_ok.mp run
  obtain ⟨_, _, run, _⟩ := bind_ok.mp run
  rw [readUnary, peek_bind, if_neg (by simp [other'])] at run
  obtain ⟨_, _, run, _⟩ := bind_ok.mp run
  rw [readPostfix_run (by simp [isWord, kind])] at run
  obtain ⟨_, _, run, _⟩ := bind_ok.mp run
  rw [readPrimary_punctuator kind other] at run
  exact unexpected_run _ _ _ _ run

/-! ## Items -/

/-- Tokens that a reader takes as one item, whatever ends the item. -/
structure Entry {α : Type} (read : Phrases → Reader α) (tokens : List Token) (a : α) : Prop where
  opens : ∃ t rest, tokens = t :: rest ∧ t.isClosing = false ∧ t.isPunctuator "..." = false
  moves : Moves tokens 1 1
  reads : ∀ tail n stop, EndsItem tail → weight (tokens ++ tail) < n + 1 →
    read (phrases n) ⟨tokens ++ tail, stop⟩ = .ok (a, ⟨tail, stop⟩)

theorem weight_append (front tokens) : weight (front ++ tokens) = weight front + weight tokens := by
  induction front with
  | nil => rw [nil_append, weight, Nat.zero_add]
  | cons t front ih => rw [cons_append, weight, weight, ih, Nat.add_assoc]

/-- What a reader takes as a whole, it takes at another place and before other tokens. -/
theorem Reads.embed [Result α] {a : α} (h : Reads { shift d with tail, fuel := n + 1 } Q 1 r r')
    (inside : Q) (tidy : Tidy tokens) (run : r ⟨tokens, m⟩ = .ok (a, s)) (ended : s.tokens = [])
    (light : weight (tokens.map (Token.moved d) ++ tail) < n + 1) :
    r' ⟨tokens.map (Token.moved d) ++ tail, stop⟩ =
      .ok (woven (.shift d) a, ⟨tail, stop⟩) := by
  obtain ⟨_, _, _, _, _, _, follows⟩ := h _ a s tidy run fun _ => inside
  obtain ⟨rest, run', woven, _⟩ := follows ⟨_, stop⟩ (by rintro _ _ _ _ _ _ ⟨⟩)
    (woven_moved d tail tokens) light
  rw [ended] at woven
  cases woven
  exact run'

theorem Reads.moves [Result α] {a : α} (h : Reads c Q 1 r r') (inside : Q) (tidy : Tidy tokens)
    (run : r ⟨tokens, m⟩ = .ok (a, ⟨[], stop⟩)) : Moves tokens 1 1 := by
  obtain ⟨front, _, split, _, _, moves, _⟩ := h _ a _ tidy run fun _ => inside
  rw [append_nil] at split
  rwa [← show tokens = front from split] at moves

/-- An operand at another place is an item. -/
theorem entry_of_readAssignment {signs : Bool} {script : List Char} {m : Nat}
    (lexes : Lexes signs none 0 script tokens)
    (run : (phrases m).readAssignment ⟨tokens, stop⟩ = .ok (e, s)) (ended : s.tokens = []) (d) :
    Entry readAssignment (tokens.map (Token.moved d)) (moved d e) := by
  have reads : ∀ tail n stop, EndsItem tail → weight (tokens.map (Token.moved d) ++ tail) < n + 1 →
      (phrases n).readAssignment ⟨tokens.map (Token.moved d) ++ tail, stop⟩ =
        .ok (moved d e, ⟨tail, stop⟩) := by
    intro tail n stop' ends light
    have follows := (followed (m + 1) { shift d with tail, fuel := n + 1 }
      ends.toEnds).assignment
    exact follows.embed ends.noOperator lexes.tidy run ended light
  have light := lt_succ_self (weight (tokens.map (Token.moved d) ++ []))
  have alone := reads [] _ stop .nil light
  rw [append_nil] at alone
  refine ⟨?_, ?_, reads⟩
  · cases split : tokens.map (Token.moved d) with
    | nil => rw [split] at alone; cases alone
    | cons t rest =>
      rw [split] at alone
      refine ⟨t, rest, rfl, ?_, ?_⟩
      · cases closes : t.isClosing with
        | false => rfl
        | true =>
          simp only [isClosing, Bool.and_eq_true, beq_iff_eq, contains_eq_mem,
            decide_eq_true_eq, mem_cons, not_mem_nil, or_false] at closes
          obtain ⟨kind, text⟩ := closes
          refine absurd alone (not_readAssignment kind ?_ ?_) <;>
            rcases text with text | text | text <;>
            simp [isOpening, isPrefixOperator, kind, text]
      · cases dots : t.isPunctuator "..." with
        | false => rfl
        | true =>
          rw [isPunctuator_iff] at dots
          exact absurd alone (not_readAssignment dots.1 (by simp [isOpening, dots])
            (by simp [isPrefixOperator, dots]))
  · have follows := (followed (weight (tokens.map (Token.moved d)) + 1)
      { shift 0 with tail := [], fuel := 0 } .nil).assignment
    exact follows.moves rfl (lexes.moved d none rfl).tidy alone

theorem Entry.weight_pos {read : Phrases → Reader α} (h : Entry read tokens a) : 0 < weight tokens := by
  obtain ⟨t, rest, rfl, _⟩ := h.opens
  exact lt_of_lt_of_le t.weight_pos (Nat.le_add_right ..)

theorem Entry.item {a} (h : Entry readAssignment tokens a) : Entry readItem tokens a := by
  refine ⟨h.opens, h.moves, fun tail n stop ends light => ?_⟩
  have read := h.reads tail n stop ends light
  obtain ⟨t, rest, rfl, _, noDots⟩ := h.opens
  rw [readItem, cons_append, bind_run (eat_of_not noDots ..),
    if_neg (by simp)]
  exact read

/-! ## Properties -/

/-- The tokens of a key. -/
inductive KeyTokens : List Token → PropKey → Prop where
  | named {t : Token} (kind : t.kind = .word ∨ t.kind = .string) : KeyTokens [t] .named
  | computed {left right tokens a}
      (opens : left.isPunctuator "[" = true) (entry : Entry readAssignment tokens a)
      (closes : right.isPunctuator "]" = true) :
      KeyTokens (left :: (tokens ++ [right])) (.computed a)

namespace KeyTokens

variable (h : KeyTokens tokens key)
include h

theorem moves : Moves tokens 1 1 := by
  cases h with
  | named kind =>
    rcases kind with kind | kind <;>
      exact moves_plain (by simp [isOpening, kind]) (by simp [isClosing, kind]) 0
  | computed opens entry closes =>
    exact Moves.append (opening (by simp) 0 _ opens)
      ((entry.moves.shift 1).append (closing (by simp) 1 _ closes))

theorem opens :
    ∃ t rest, tokens = t :: rest ∧ t.isClosing = false ∧ t.isPunctuator "..." = false ∧
      t.isPunctuator "*" = false := by
  cases h with
  | @named t kind =>
    rcases kind with kind | kind <;> simp [isClosing, isPunctuator, kind]
  | @computed left right inner a opens entry closes =>
    rw [isPunctuator_iff] at opens
    simp [isClosing, isPunctuator, opens]

/-- A key before a colon is not the word before an accessor. -/
theorem noAccessor {colon : Token} (isColon : colon.isPunctuator ":" = true) :
    isAccessorHead (tokens ++ colon :: tail) = false := by
  cases h with
  | named kind =>
    rw [isPunctuator_iff] at isColon
    simp [isAccessorHead, isColon]
  | computed opens entry closes =>
    rw [isPunctuator_iff] at opens
    simp [isAccessorHead, opens]

theorem reads (n stop) (quiet : Quiet tail) (light : weight (tokens ++ tail) < n + 1) :
    (phrases n).readKey ⟨tokens ++ tail, stop⟩ = .ok (key, ⟨tail, stop⟩) := by
  cases h with
  | @named t kind =>
    obtain ⟨_, text, start, newline⟩ := t
    rcases kind with kind | kind <;> cases kind <;> rfl
  | @computed left right inner a opens entry closes =>
    have ends : EndsItem (right :: tail) :=
      quiet.ends (closing (by simp) 0 right closes) closes (by simp)
    have heavy := left.weight_pos
    simp only [weight_append, weight] at light
    obtain ⟨n, rfl⟩ : ∃ m, n = m + 1 := ⟨n - 1, by omega⟩
    have read : (phrases (n + 1)).assignment ⟨inner ++ right :: tail, stop⟩ = _ :=
      entry.reads _ n stop ends (by simp only [weight_append, weight]; omega)
    rw [isPunctuator_iff] at opens
    have skipped : (phrases (n + 1)).readKey ⟨left :: (inner ++ right :: tail), stop⟩ =
        (do let key ← (phrases (n + 1)).assignment; Reader.expect "]"; return .computed key :
          Reader PropKey) ⟨inner ++ right :: tail, stop⟩ := by
      obtain ⟨_, text, start, newline⟩ := left
      obtain ⟨rfl, rfl⟩ := opens
      rfl
    rw [cons_append, append_assoc, singleton_append, skipped,
      bind_run read, bind_run (expect_of closes ..)]
    rfl

theorem entry {colon : Token} (isColon : colon.isPunctuator ":" = true)
    (valued : Entry readAssignment value a) :
    Entry readProperty (tokens ++ colon :: value) (.keyValue key a) := by
  obtain ⟨t, rest, head, open', noDots, noStar⟩ := h.opens
  have moves : Moves (colon :: value) 1 1 :=
    Moves.append (plain (by simp) 0 colon isColon) valued.moves
  refine ⟨⟨t, rest ++ colon :: value, by rw [head]; rfl, open', noDots⟩, h.moves.append moves,
    fun tail n stop ends light => ?_⟩
  have heavy' := colon.weight_pos
  simp only [weight_append, weight] at light
  obtain ⟨n, rfl⟩ : ∃ m, n = m + 1 := ⟨n - 1, by omega⟩
  have quiet : Quiet (colon :: (value ++ tail)) :=
    ends.quiet.behind moves (isPunctuator_other isColon (by simp))
  have readKey := h.reads (n + 1) stop quiet (by simp only [weight_append, weight]; omega)
  have readValue : (phrases (n + 1)).assignment ⟨value ++ tail, stop⟩ = .ok (a, ⟨tail, stop⟩) :=
    valued.reads tail n stop ends (by simp only [weight_append]; omega)
  have noAccessor : isAccessorHead (tokens ++ colon :: (value ++ tail)) = false :=
    h.noAccessor isColon
  rw [append_assoc, cons_append]
  rw [head, cons_append] at readKey noAccessor ⊢
  rw [readProperty_eq, bind_run (eat_of_not noDots ..), if_neg (by simp), readMember, noAccessor]
  simp only [Bool.false_eq_true, if_false]
  rw [bind_run (eat_of_not noStar ..), readKeyed, peek_bind,
    bind_run readKey, Phrases.readValue, bind_run (eat_of isColon ..),
    if_pos rfl, bind_run readValue]
  rfl

end KeyTokens

/-! ## Lists -/

/-- How a list in brackets is read. -/
structure ListReader (α : Type) where
  close : String
  isClosing : close ∈ [")", "]", "\x7d"]
  item : Phrases → Reader α
  list : Phrases → Reader (List α)
  /-- The rest of the list, nested in it. -/
  rest : Phrases → Reader (List α)
  list_eq : ∀ p, list p = (do
    if ← Reader.eat close then return []
    else
      let first ← item p
      return first :: (← separated close (rest p)))
  rest_eq : ∀ n, rest (phrases (n + 1)) = list (phrases n)

def argumentReader : ListReader Expr :=
  { close := ")", isClosing := by simp, item := readItem, list := readArguments,
    rest := arguments, list_eq := fun _ => rfl, rest_eq := fun _ => rfl }

def propertyReader : ListReader ObjectProp :=
  { close := "\x7d", isClosing := by simp, item := readProperty,
    list := readProperties, rest := properties, list_eq := fun _ => rfl,
    rest_eq := fun _ => rfl }

theorem Phrases.separated_run (close r t tokens stop) : separated close r ⟨t :: tokens, stop⟩ =
      if t.isPunctuator close then r ⟨t :: tokens, stop⟩
      else (do Reader.expect ","; r : Reader α) ⟨t :: tokens, stop⟩ := by
  show (if t.isPunctuator close = true then _ else _ : Reader α) _ = _
  split <;> rfl

theorem ListReader.list_item (l : ListReader α) (entry : Entry l.item tokens a)
    (ends : EndsItem tail) (light : weight (tokens ++ tail) < n + 1) :
    l.list (phrases n) ⟨tokens ++ tail, stop⟩ =
      (do return a :: (← separated l.close (l.rest (phrases n))) : Reader (List α))
        ⟨tail, stop⟩ := by
  have read := entry.reads tail n stop ends light
  obtain ⟨t, rest, rfl, open', _⟩ := entry.opens
  have noClose : t.isPunctuator l.close = false := by
    cases closes : t.isPunctuator l.close with
    | false => rfl
    | true =>
      rw [isPunctuator_iff] at closes
      simp [Token.isClosing, closes, l.isClosing] at open'
  rw [cons_append] at read ⊢
  rw [l.list_eq, bind_run (eat_of_not noClose ..), if_neg (by simp), bind_run read]

/-- Tokens of a list up to the closing bracket. -/
inductive Listed {α : Type} (l : ListReader α) : List Token → List α → Prop where
  | last {tokens a t} (entry : Entry l.item tokens a) (closes : t.isPunctuator l.close = true) :
      Listed l (tokens ++ [t]) [a]
  | next {tokens a t rest as} (entry : Entry l.item tokens a) (comma : t.isPunctuator "," = true)
      (others : Listed l rest as) : Listed l (tokens ++ t :: rest) (a :: as)

namespace Listed

variable {as : List α}

theorem moves (h : Listed l tokens as) : Moves tokens 1 0 := by
  induction h with
  | last entry closes => exact entry.moves.append (closing l.isClosing 0 _ closes)
  | next entry comma others ih =>
    exact entry.moves.append (Moves.append (plain (by simp) 0 _ comma) ih)

theorem reads (h : Listed l tokens as) : ∀ tail n stop, Quiet tail → weight (tokens ++ tail) < n + 1 →
    l.list (phrases n) ⟨tokens ++ tail, stop⟩ = .ok (as, ⟨tail, stop⟩) := by
  induction h with
  | @last tokens a t entry closes =>
    intro tail n stop quiet light
    have ends : EndsItem (t :: tail) :=
      quiet.ends (closing l.isClosing 0 t closes) closes (mem_cons_of_mem _ l.isClosing)
    have heavy := entry.weight_pos
    simp only [weight_append, weight] at light
    obtain ⟨n, rfl⟩ : ∃ m, n = m + 1 := ⟨n - 1, by omega⟩
    have ended : l.list (phrases n) ⟨t :: tail, stop⟩ = .ok ([], ⟨tail, stop⟩) := by
      rw [l.list_eq, bind_run (eat_of closes ..)]
      rfl
    rw [append_assoc, singleton_append,
      l.list_item entry ends (by simp only [weight_append, weight]; omega),
      bind_run ((separated_run ..).trans (if_pos closes |>.trans
        (by rw [l.rest_eq, ended])))]
    rfl
  | @next tokens a t rest as entry comma others ih =>
    intro tail n stop quiet light
    have ends : EndsItem (t :: (rest ++ tail)) :=
      quiet.ends (Moves.append (plain (by simp) 0 t comma) others.moves) comma (by simp)
    have noClose : t.isPunctuator l.close = false :=
      isPunctuator_other comma fun same => by simpa [← same] using l.isClosing
    have heavy := entry.weight_pos
    simp only [weight_append, weight] at light
    obtain ⟨n, rfl⟩ : ∃ m, n = m + 1 := ⟨n - 1, by omega⟩
    have read := ih tail n stop quiet (by simp only [weight_append]; omega)
    rw [← l.rest_eq] at read
    have separated : separated l.close (l.rest (phrases (n + 1)))
        ⟨t :: (rest ++ tail), stop⟩ = .ok (as, ⟨tail, stop⟩) := by
      rw [separated_run, if_neg (by simp [noClose]), bind_run (expect_of comma ..), read]
    rw [append_assoc, cons_append,
      l.list_item entry ends (by simp only [weight_append, weight]; omega), bind_run separated]
    rfl

theorem alone (h : Listed l tokens as) (light : weight tokens < n + 1) :
    l.rest (phrases (n + 1)) ⟨tokens, stop⟩ = .ok (as, ⟨[], stop⟩) := by
  have read := h.reads [] n stop Ends.nil.quiet (by rwa [append_nil])
  rwa [append_nil, ← l.rest_eq] at read

end Listed

/-! ## Whole scripts -/

/-- An operand that no arrow, operator or comma stands by. -/
theorem readExpression_of_readPostfix {p : Phrases} (noAsync : isAsyncHead (t :: tokens) = false)
    (noArrow : arrowHead? (t :: tokens) = none) (noPrefix : isPrefixOperator t = false)
    (run : p.readPostfix ⟨t :: tokens, stop⟩ = .ok (e, ⟨[], stop'⟩)) :
    p.readExpression ⟨t :: tokens, stop⟩ = .ok (e, ⟨[], stop'⟩) := by
  have noArrow : p.readArrow? ⟨t :: tokens, stop⟩ = .ok (none, ⟨t :: tokens, stop⟩) := by
    rw [readArrow?_run, arrowTokens_of_not noAsync, readArrowHere, noArrow]
  have unary : p.readUnary ⟨t :: tokens, stop⟩ = .ok (e, ⟨[], stop'⟩) := by
    rw [readUnary, peek_bind, if_neg (by simp [noPrefix]), bind_run run]
    rfl
  have conditional : p.readConditional ⟨t :: tokens, stop⟩ = .ok (e, ⟨[], stop'⟩) := by
    have binary : p.readBinary 0 ⟨t :: tokens, stop⟩ = .ok (e, ⟨[], stop'⟩) := by
      rw [readBinary, bind_run unary]
      exact readOperators_end rfl e stop'
    rw [readConditional, bind_run binary]
    rfl
  have assignment : p.readAssignment ⟨t :: tokens, stop⟩ = .ok (e, ⟨[], stop'⟩) := by
    rw [readAssignment, bind_run noArrow]
    exact (bind_run conditional).trans rfl
  rw [readExpression, bind_run assignment]
  rfl

theorem not_contains_of_head {words : List String}
    (other : words.all (fun w => w.toList.head? != some c) = true) :
    words.contains (String.ofList (c :: cs)) = false := by
  rw [contains_eq_mem, decide_eq_false_iff_not]
  intro member
  simpa using all_eq_true.mp other _ member

theorem readExpression_call {left : Token} {as : List Expr} {cs : List Char}
    (kind : t.kind = .word) (text : t.text = String.ofList ('_' :: cs))
    (opens : left.isPunctuator "(" = true) (listed : Listed argumentReader tokens as)
    (light : weight tokens < n + 1) : (phrases (n + 1)).readExpression ⟨t :: left :: tokens, stop⟩ =
      .ok (.call (.ident ⟨t.text, t.start, t.stop⟩) as, ⟨[], stop⟩) := by
  have other : ∀ words : List String, words.all (fun w => w.toList.head? != some '_') = true →
      words.contains t.text = false := fun words h => text ▸ not_contains_of_head h
  have noWord : ∀ w : String, (w.toList.head? != some '_') = true → t.isWord w = false := by
    intro w h
    have absent := other [w] (by simpa using h)
    simp only [contains_cons, contains_nil, Bool.or_false] at absent
    rw [isWord, absent, Bool.and_false]
  have names : Phrases.NamesOperand t (left :: tokens) :=
    ⟨other _ (by decide), fun async => by
      simpa [isWord, kind, async.1] using noWord "async" (by decide)⟩
  have noDot : Reader.eatEither "." "?." ⟨left :: tokens, stop⟩ =
      .ok (false, ⟨left :: tokens, stop⟩) := by
    rw [Reader.eatEither, bind_run
      (eat_of_not (isPunctuator_other opens (by simp)) ..)]
    exact eat_of_not (isPunctuator_other opens (by simp)) ..
  refine readExpression_of_readPostfix (isAsyncHead_of_not (noWord "async" (by decide)))
    (arrowHead?_of_word kind (isPunctuator_other opens (by simp))) ?_ ?_
  · rw [isPrefixOperator, kind]
    exact other _ (by decide)
  · rw [readPostfix_name kind names, readChain, bind_run noDot, if_neg (by simp),
      bind_run (eat_of_not (isPunctuator_other opens (by simp)) ..), if_neg (by simp),
      bind_run (eat_of opens ..), if_pos rfl]
    exact (bind_run (listed.alone light)).trans (readChain_end rfl _ stop)

theorem readExpression_object {left : Token} (opens : left.isPunctuator "\x7b" = true)
    (listed : Listed propertyReader tokens props) (light : weight tokens < n + 1) :
    (phrases (n + 1)).readExpression ⟨left :: tokens, stop⟩ = .ok (.object props, ⟨[], stop⟩) := by
  have shape := opens
  rw [isPunctuator_iff] at shape
  have bracketed : (phrases (n + 1)).readPrimary ⟨left :: tokens, stop⟩ =
      .ok (.object props, ⟨[], stop⟩) := by
    rw [readPrimary_bracket (by simp [isOpening, shape]), shape.2]
    exact (bind_run (listed.alone light)).trans rfl
  refine readExpression_of_readPostfix
    (isAsyncHead_of_not (by simp [isWord, shape])) ?_
    (by simp [isPrefixOperator, shape]) ?_
  · rw [arrowHead?_other (isPunctuator_other opens (by simp)), shape.1]
    rfl
  · rw [readPostfix_run (by simp [isWord, shape]), bind_run bracketed]
    exact readChain_end rfl _ stop

end Stencil.Script
