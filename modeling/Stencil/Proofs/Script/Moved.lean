import Stencil.Proofs.Script.Grammar

/-! # A script at another place

Where a script stands shows only in the places of its names. A script that begins `d` bytes later
has the same tokens and the same tree with all places `d` bytes later. So has a script behind `d`
spaces, unless it begins as a hexadecimal number and signs come to belong to its numbers.
-/

namespace Stencil.Script

open List Text

/-- An expression with all places later by a number of bytes. -/
def moved (d : Nat) (e : Expr) : Expr :=
  e.woven (.shift d)

def Body.moved (d : Nat) (b : Body) : Body :=
  ⟨b.offset + d, b.text⟩

def TokenKind.moved (d : Nat) : TokenKind → TokenKind
  | .template bodies => .template (bodies.map (Body.moved d))
  | kind => kind

def Token.moved (d : Nat) (t : Token) : Token :=
  { t with kind := t.kind.moved d, start := t.start + d }

/-! ## Tokens -/

namespace Token

variable (d : Nat) (t : Token)

@[simp] theorem stop_moved : (t.moved d).stop = t.stop + d :=
  Nat.add_right_comm ..

@[simp] theorem regexAllowed_moved : regexAllowed (some (t.moved d)) = regexAllowed (some t) := by
  obtain ⟨kind, _⟩ := t
  cases kind <;> rfl

theorem woven_shift (t : Token) : t.Woven (.shift d) (t.moved d) := by
  refine ⟨rfl, ?_, rfl, fun _ => congrArg (Ident.mk t.text (t.start + d)) (t.stop_moved d),
    fun _ _ => rfl⟩
  obtain ⟨kind, _⟩ := t
  cases kind with
  | template bodies =>
    refine .template (forall₂_map_right_iff.mpr (forall₂_same.mpr fun b _ => ?_))
    exact ⟨(weave_unmarked fun _ _ _ => rfl).symm, Weaving.places_shift d _ _⟩
  | _ => exact .same (by simp)

end Token

/-- The tokens `d` bytes later, with others behind them. -/
theorem woven_moved (d tail tokens) :
    Woven (.shift d) tail tokens (tokens.map (Token.moved d) ++ tail) := by
  induction tokens with
  | nil => exact .nil
  | cons t tokens ih => exact .keep (t.woven_shift d) ih

/-! ## Lexing -/

theorem Scans.moved (h : Scans signs previous pos c cs kind n)
    (regex : regexAllowed previous' = regexAllowed previous) (d) :
    Scans signs previous' (pos + d) c cs (kind.moved d) n := by
  cases h with
  | word start => exact .word start
  | number noWord digit => exact .number noWord digit
  | string quote found => exact .string quote found
  | @template more after part cuts tick split read =>
    have bodies : (cuts.map (Cut.body (pos + 1))).map (Body.moved d) =
        cuts.map (Cut.body (pos + d + 1)) := by
      rw [map_map]
      apply map_congr_left
      simp only [Cut.body, Function.comp_apply, Body.moved, Body.mk.injEq, and_true]
      omega
    rw [TokenKind.moved, bodies]
    exact .template tick split read
  | regex slash allowed found => exact .regex slash (regex.trans allowed) found
  | punctuator noWord noDigit noQuote noRegex found =>
    exact .punctuator noWord noDigit noQuote (by rwa [regex]) found

theorem Lexes.moved (h : Lexes signs previous pos cs tokens) (d) :
    ∀ previous', regexAllowed previous' = regexAllowed previous →
      Lexes signs previous' (pos + d) cs (tokens.map (Token.moved d)) := by
  induction h with
  | done trivia => exact fun _ _ => .done (skipTrivia_at trivia _)
  | @next previous pos gap newline c more after kind rest trivia scan others ih =>
    intro previous' regex
    have place : pos + d + bytes gap = pos + bytes gap + d := by omega
    have behind : pos + d + bytes gap + bytes (c :: more) =
        pos + bytes gap + bytes (c :: more) + d := by
      omega
    have scan' := ((scans_of_scanToken scan).moved regex d).scanToken
    have others' := ih _
      (Token.regexAllowed_moved d ⟨kind, String.ofList (c :: more), _, newline⟩)
    rw [← place] at scan'
    rw [← behind] at others'
    have token : Token.moved d ⟨kind, String.ofList (c :: more), pos + bytes gap, newline⟩ =
        ⟨kind.moved d, String.ofList (c :: more), pos + d + bytes gap, newline⟩ := by
      simp only [Token.moved, place]
    rw [map_cons, token]
    rw [token] at others'
    exact .next (skipTrivia_at trivia _) scan' others'

/-! ## Blanks before tokens -/

theorem Lexes.nil : Lexes signs previous pos [] [] :=
  @done signs previous pos [] false rfl

/-- What stands before a token matters only for a slash. -/
theorem Lexes.after (h : Lexes signs previous pos cs tokens)
    (same : regexAllowed previous' = regexAllowed previous) :
    Lexes signs previous' pos cs tokens := by
  cases h with
  | done trivia => exact .done trivia
  | next trivia scan others =>
    refine .next trivia ?_ others
    rw [scanToken, same]
    exact scan

/-- Tokens where a line may break before the first. -/
def breakBefore (newline : Bool) : List Token → List Token
  | [] => []
  | t :: tokens => { t with newlineBefore := t.newlineBefore || newline } :: tokens

theorem breakBefore_false (tokens) : breakBefore false tokens = tokens := by
  cases tokens with
  | nil => rfl
  | cons t tokens => simp [breakBefore]

theorem Lexes.gap {gap} (isBlank : ∀ d ∈ gap, d = ' ' ∨ d = '\n')
    (h : Lexes signs previous (pos + bytes gap) cs tokens) :
    Lexes signs previous pos (gap ++ cs) (breakBefore (gap.any (· == '\n')) tokens) := by
  have front : Gap False gap := .of_blank fun d member => by
    rcases isBlank d member with rfl | rfl <;> rfl
  cases h with
  | done trivia =>
    exact .done (skipTrivia_end_eq_ok.mpr ⟨front.append (skipTrivia_end_eq_ok.mp trivia).1, rfl⟩)
  | @next _ _ inner newline c more after kind rest trivia scan others =>
    obtain ⟨more', solid, rfl⟩ := skipTrivia_eq_ok.mp trivia
    have place : pos + bytes gap + bytes inner = pos + bytes (gap ++ inner) := by
      rw [bytes_append, Nat.add_assoc]
    rw [place] at scan others ⊢
    have breaks : (gap ++ inner).any (· == '\n') =
        (inner.any (· == '\n') || gap.any (· == '\n')) := by rw [any_append, Bool.or_comm]
    rw [← append_assoc]
    exact .next (skipTrivia_eq_ok.mpr ⟨front.append more', solid, breaks.symm⟩) scan
      (others.after rfl)

theorem Lexes.lead {gap} (isSpace : ∀ d ∈ gap, d = ' ')
    (h : Lexes signs previous (pos + bytes gap) cs tokens) :
    Lexes signs previous pos (gap ++ cs) tokens := by
  have oneLine : gap.any (· == '\n') = false := by
    rw [any_eq_false]
    intro d member
    simp [isSpace d member]
  have lexes := h.gap fun d member => .inl (isSpace d member)
  rwa [oneLine, breakBefore_false] at lexes

/-! ## Spaces in front -/

theorem bytes_spaces (n) : bytes (replicate n ' ') = n := by
  induction n with
  | zero => rfl
  | succ n ih =>
    rw [replicate_succ, ← singleton_append, bytes_append, ih]
    exact Nat.add_comm ..

def isExponent (c : Char) : Bool :=
  c == 'e' || c == 'E'

/-- No number among the tokens of a script at `pos` ends with an `e` right before a sign. -/
def Detached (pos : Nat) (cs : List Char) (tokens : List Token) : Prop :=
  ∀ t ∈ tokens, t.kind = .number → ∀ front after, cs = front ++ (t.text.toList ++ after) →
    t.start = pos + bytes front → t.text.toList.getLast?.any isExponent = true →
      after.head?.any (fun c => c == '+' || c == '-') = false

/-- A number that no sign follows ends at the same place if signs may belong to numbers. -/
theorem numberLength_signed {b more after}
    (length : numberLength false b (more ++ after) = more.length)
    (detached : (c :: more).getLast?.any isExponent = true →
      after.head?.any (fun c => c == '+' || c == '-') = false) :
    numberLength true (isExponent c) (more ++ after) = more.length := by
  induction more generalizing b c with
  | nil =>
    cases after with
    | nil => rfl
    | cons d after =>
      have apart : (isExponent c && (d == '+' || d == '-')) = false := by simpa using detached
      simp only [nil_append, numberLength] at length ⊢
      rw [Bool.true_and, apart]
      simpa using length
  | cons x more ih =>
    simp only [cons_append, numberLength, Bool.false_and, Bool.or_false] at length ⊢
    split at length
    next belongs =>
      rw [if_pos (by simp [belongs])]
      exact congrArg (· + 1) (ih (Nat.succ.inj length) detached)
    · cases length

theorem isExponent_digit (digit : (isAsciiDigit c || c == '.' && b) = true) :
    isExponent c = false := by
  rw [isExponent, Bool.or_eq_false_iff, beq_eq_false_iff_ne, beq_eq_false_iff_ne]
  constructor <;> rintro rfl <;> cases digit

theorem Lexes.signed (h : Lexes false previous pos cs tokens) (detached : Detached pos cs tokens) :
    Lexes true previous pos cs tokens := by
  induction h with
  | done trivia => exact .done trivia
  | @next previous pos gap newline c more after kind rest trivia scan others ih =>
    refine .next trivia ?_ (ih fun t member number front after' split start => ?_)
    · unfold scanToken at scan ⊢
      split at scan
      next start => rw [if_pos start, scan]
      next noWord =>
        rw [if_neg noWord]
        split at scan
        next digit =>
          obtain ⟨rfl, length⟩ := Prod.mk.inj (Except.ok.inj scan)
          have same := @numberLength_signed c _ _ _ length fun last =>
            detached _ mem_cons_self rfl gap after (by simp) rfl (by simpa using last)
          rw [if_pos digit, ← isExponent_digit digit, same]
          rfl
        next noDigit => rw [if_neg noDigit, scan]
    · have split' : gap ++ c :: (more ++ after) =
          gap ++ (c :: more ++ front) ++ (t.text.toList ++ after') := by
        simp [split]
      refine detached t (mem_cons_of_mem _ member) number _ after' split' ?_
      simp only [bytes_append, start, Nat.add_assoc]

/-- Tokens do not depend on where a script stands, and spaces before a script only move them. If the
    script begins with `0x`, this takes that no number ends with an `e` right before a sign. -/
theorem tokenize_spaces {offset : Nat} {script : List Char}
    (lexed : tokenize offset script = .ok tokens) (n : Nat) :
    tokenize (offset + n) script = .ok (tokens.map (Token.moved n)) ∧
      ((beginsWith ['0', 'x'] script = true → Detached offset script tokens) →
        tokenize offset (replicate n ' ' ++ script) = .ok (tokens.map (Token.moved n))) := by
  have lexes := tokenize_eq_ok.mp lexed
  have moved := tokenize_eq_ok.mpr (lexes.moved n none rfl)
  refine ⟨moved, fun detached => ?_⟩
  have signed : Lexes true none offset script tokens := by
    cases hex : beginsWith ['0', 'x'] script with
    | false => rwa [hex] at lexes
    | true =>
      rw [hex] at lexes
      exact lexes.signed (detached hex)
  cases n with
  | zero => exact moved
  | succ n =>
    have behind := signed.moved (n + 1) none rfl
    rw [← bytes_spaces (n + 1)] at behind
    have spaced := behind.lead fun d => eq_of_mem_replicate
    rw [bytes_spaces] at spaced
    exact tokenize_eq_ok.mpr spaced

/-- The tokens of `0x1+e`. -/
def hexSum : List Token :=
  [⟨.number, "0x1", 0, false⟩, ⟨.punctuator, "+", 3, false⟩, ⟨.word, "e", 4, false⟩]

theorem tokenize_spaces_hexSum :
    tokenize 0 (replicate 2 ' ' ++ "0x1+e".toList) = .ok (hexSum.map (Token.moved 2)) := by
  have lexed : tokenize 0 "0x1+e".toList = .ok hexSum := by decide +kernel
  refine (tokenize_spaces lexed 2).2 fun _ t member kind front after split start => ?_
  have number : t = ⟨.number, "0x1", 0, false⟩ := by
    simp only [hexSum, mem_cons, not_mem_nil, or_false] at member
    rcases member with rfl | rfl | rfl
    · rfl
    all_goals cases kind
  subst number
  exact fun exponent => absurd exponent (by decide)

/-- Behind a space, a number at the beginning that ends with an `e` takes the sign after it. -/
theorem hexSum_not_moved : ∃ tokens, tokenize 0 "0x1e+a".toList = .ok tokens ∧
    tokenize 0 (replicate 1 ' ' ++ "0x1e+a".toList) ≠ .ok (tokens.map (Token.moved 1)) := by
  refine ⟨[⟨.number, "0x1e", 0, false⟩, ⟨.punctuator, "+", 4, false⟩, ⟨.word, "a", 5, false⟩],
    ?_, ?_⟩ <;> decide +kernel

end Stencil.Script
