import Stencil.Proofs.Script.Bracketed

/-! # Two scripts with a plus sign between them

The text `x + y` reads as the sum of `x` and `y` if no operator of `x` binds looser than the sign,
and every operator of `y` binds tighter.
-/

namespace Stencil.Script

open List Phrases Reader Text Weaving Option Nat

/-- A script that reads as one operand, of which every operator binds at least so tightly. -/
structure Term (least : Nat) (script : String) (e : Expr) : Prop extends Operand script e where
  noFunction : ∀ f, e ≠ .function f
  binds : readAll ((phrasesFor script).binary least) 0 script.toList = .ok e

variable {c : Copy} {p : Phrases}

/-- Where no arrow function begins, nothing is read. -/
theorem Phrases.readArrow?_none (run : p.readArrow? s = .ok (none, s₁)) : s₁ = s := by
  have rest : ∀ {params s'}, p.readArrowRest s params s' = .ok (none, s₁) → s₁ = s := by
    intro params s' run
    obtain ⟨eaten, _, _, run⟩ := bind_ok.mp run
    cases eaten with
    | true =>
      obtain ⟨braced, _, _, run⟩ := bind_ok.mp run
      cases braced <;>
        · obtain ⟨_, _, _, run⟩ := bind_ok.mp run
          cases run
    | false =>
      cases run
      rfl
  rw [readArrow?_run, readArrowHere] at run
  split at run
  · cases run
    rfl
  · obtain ⟨_, _, _, run⟩ := bind_ok.mp run
    exact rest run
  · obtain ⟨_, _, _, run⟩ := bind_ok.mp run
    obtain ⟨_, _, _, run⟩ := bind_ok.mp run
    exact rest run

/-- Whether the expression has no operator between operands at its top, nor an arrow. -/
def Expr.isFactor : Expr → Bool
  | .function _ | .binary .. | .assign .. | .conditional .. | .sequence _ => false
  | _ => true

/-- Operators leave the operand as it is, or make it part of a binary expression. -/
theorem operators_ok (run : (phrases n).operators least e s = .ok (a, s₁)) :
    a = e ∧ s₁ = s ∨ ∃ x y, a = .binary x y := by
  induction n generalizing e s with
  | zero => cases run
  | succ n ih =>
    obtain ⟨tokens, stop⟩ := s
    change (phrases n).readOperators least e _ = _ at run
    cases tokens with
    | nil =>
      cases run
      exact .inl ⟨rfl, rfl⟩
    | cons t tokens =>
      rw [readOperators_run] at run
      split at run
      · obtain ⟨right, _, _, run⟩ := bind_ok.mp run
        rcases ih run with ⟨rfl, _⟩ | binary
        · exact .inr ⟨_, _, rfl⟩
        · exact .inr binary
      · cases run
        exact .inl ⟨rfl, rfl⟩

/-- A script without operators at its top binds as tightly as one likes. -/
theorem Operand.term (h : Operand script e) (factor : e.isFactor = true) (least) :
    Term least script e := by
  have noFunction : ∀ f, e ≠ .function f := by
    rintro f rfl
    cases factor
  refine ⟨h, noFunction, ?_⟩
  obtain ⟨tokens, s, lexed, read, ended⟩ := readAll_ok.mp h.reads
  refine readAll_ok.mpr ⟨tokens, s, lexed, ?_, ended⟩
  obtain ⟨f, _, arrow, rest⟩ :=
    bind_ok.mp (readAssignment_of_readExpression read h.single)
  cases f with
  | some f =>
    cases rest
    exact absurd rfl (noFunction f)
  | none =>
    obtain rfl := readArrow?_none arrow
    obtain ⟨target, s₁, conditional, rest⟩ := bind_ok.mp rest
    rw [peek_bind] at rest
    split at rest
    · obtain ⟨_, _, _, rest⟩ := bind_ok.mp rest
      obtain ⟨_, _, _, rest⟩ := bind_ok.mp rest
      cases rest
      cases factor
    · cases rest
      obtain ⟨test, s₂, binary, rest⟩ := bind_ok.mp conditional
      obtain ⟨eaten, _, question, rest⟩ := bind_ok.mp rest
      cases eaten with
      | true =>
        obtain ⟨_, _, _, rest⟩ := bind_ok.mp rest
        obtain ⟨_, _, _, rest⟩ := bind_ok.mp rest
        obtain ⟨_, _, _, rest⟩ := bind_ok.mp rest
        cases rest
        cases factor
      | false =>
        cases rest
        obtain rfl := eat_false question
        obtain ⟨u, s₃, unary, operators⟩ := bind_ok.mp binary
        rcases operators_ok (n := script.toList.length + 2) operators with ⟨rfl, rfl⟩ | ⟨_, _, rfl⟩
        · refine (bind_run unary).trans (readOperators_end ?_ _ _)
          rw [ended]
          rfl
        · cases factor

/-- The right operand of an operator that binds at least as a sign does, binds tighter than one. -/
theorem right_binds (tight : bindsAtLeast 10 t = true) :
    11 ≤ if t.text == "**" then (operator? t).getD 0
      else (operator? t).getD 0 + 1 := by
  cases found : operator? t with
  | none => simp [bindsAtLeast, found] at tight
  | some precedence =>
    have high : 10 ≤ precedence := by simpa [bindsAtLeast, found] using tight
    simp only [getD_some]
    split
    next power =>
      simp only [operator?, eq_of_beq power] at found
      cases kind : t.kind <;> simp [kind, precedence?] at found
      omega
    · omega

/-- The operators of a sum go on with what stands behind it, whatever binds looser than they do. -/
theorem operators_before (ends : Ends c.tail) (free : ∀ p, c.marks p = none)
    (binds : c.EndsOperand 11) (n) {e a} {s s₂ s' : Stream} {k} (tidy : Tidy s.tokens)
    (run : (phrases n).operators 10 e s = .ok (a, s₂)) (ended : s₂.tokens = [])
    (copied : Woven c.toWeaving c.tail s.tokens s'.tokens) (light : weight s'.tokens < k) :
    ∃ m, weight c.tail < m ∧ (phrases k).operators 0 (woven c.toWeaving e) s' =
      (phrases m).operators 0 (woven c.toWeaving a) ⟨c.tail, s'.stop⟩ := by
  induction n generalizing e s s' k with
  | zero => cases run
  | succ n ih =>
    obtain ⟨tokens, stop⟩ := s
    obtain ⟨tokens', stop'⟩ := s'
    change (phrases n).readOperators 10 e _ = _ at run
    cases tokens with
    | nil =>
      cases run
      cases copied
      exact ⟨k, light, rfl⟩
    | cons t tokens =>
      rw [readOperators_run] at run
      split at run
      next tight =>
        have tests := tests_bindsAtLeast 0
        have loose : bindsAtLeast 0 t = true := by
          simp only [bindsAtLeast, any_eq_true_iff_get] at tight ⊢
          exact tight.imp fun _ _ => by simp
        obtain ⟨t', rest, rfl, same, copied⟩ := Woven.kept copied (free t.start)
          fun bodies kind => by simp [tests.template t bodies kind] at loose
        obtain ⟨k, rfl⟩ : ∃ j, k = j + 1 := ⟨k - 1, by omega⟩
        have heavy := t'.weight_pos
        simp only [weight] at light
        obtain ⟨right, s₁, read, run⟩ := bind_ok.mp run
        have behind : Tidy tokens := @Tidy.suffix [t] tokens tidy
        obtain ⟨front, new, split, _, _, _, follows⟩ :=
          (followed n { c with fuel := k } ends).binary _ ⟨tokens, stop⟩ right s₁ behind read
            fun _ => binds.mono (right_binds tight)
        obtain ⟨rest', read', copied', light'⟩ := follows ⟨rest, stop'⟩
          (fun _ _ p k _ _ mark => by rw [free p] at mark; cases mark) copied (by simp; omega)
        rw [show tokens = front ++ s₁.tokens from split] at behind
        have light'' : weight rest' < k := light'
        obtain ⟨m, deep, same'⟩ := @ih _ _ ⟨rest', stop'⟩ k behind.suffix run copied' light''
        refine ⟨m, deep, Eq.trans ?_ same'⟩
        show (phrases k).readOperators 0 _ _ = _
        rw [readOperators_run, if_pos ((tests.kept same).trans loose), readRight,
          show operator? t' = operator? t by
            simp [operator?, same.kind, same.text], same.text]
        exact bind_run read'
      · cases run
        cases ended

theorem standsAlone_plus (more) : StandsAlone '+' (' ' :: more) := by
  refine ⟨fun _ => rfl, fun signs previous pos => ?_, rfl⟩
  have found : (punctuators.find? fun p => beginsWith p.toList ('+' :: ' ' :: more)) =
      some "+" := find?_punctuator (x := ['+']) (.inr rfl)
  exact (Scans.punctuator (by decide) (by simp [isAsciiDigit]) (by simp) (by simp)
    found).scanToken

theorem beginsWith_hexadecimal (cs more) :
    beginsWith ['0', 'x'] (cs ++ ([' '] ++ more)) = beginsWith ['0', 'x'] cs := by
  rcases cs with _ | ⟨c, _ | ⟨c', rest⟩⟩
  · rfl
  · simp [beginsWith, after?]
  · simp only [beginsWith, after?, cons_append]
    split <;> [split <;> rfl; rfl]

/-- A script before a sign and what binds tighter is read up to its end, and then the sign. -/
theorem readAssignment_sum (left : Term 10 x a) {plus : Token}
    (lexed : tokenize 0 x.toList = .ok tokens) (sign : plus.isPunctuator "+" = true)
    (ends : Ends (plus :: others))
    (light : weight (tokens.map (Token.moved 0) ++ plus :: others) ≤ n) (stop)
    (right : ∀ n, weight others ≤ n →
      (phrases (n + 1)).binary 11 ⟨others, stop⟩ = .ok (b, ⟨[], stop⟩)) :
    (phrases (n + 1)).readAssignment ⟨tokens.map (Token.moved 0) ++ plus :: others, stop⟩ =
      .ok (.binary (moved 0 a) b, ⟨[], stop⟩) := by
  obtain ⟨_, s, lexed', read, ended⟩ := readAll_ok.mp left.reads
  cases lexed.symm.trans lexed'
  obtain ⟨_, s₁, lexed', sum, ended₁⟩ := readAll_ok.mp left.binds
  cases lexed.symm.trans lexed'
  have tidy := (lexes_of_tokensFrom lexed).tidy
  have owned : ∀ (front : List Token) (new : List Spot), Owned (shift 0).marks front new :=
    fun _ _ _ _ _ _ _ _ mark => by cases mark
  have copied := woven_moved 0 (plus :: others) tokens
  rw [Token.isPunctuator_iff] at sign
  have binds : operator? plus = some 10 := by
    rw [operator?, sign.1, sign.2]
    rfl
  -- no arrow function begins here, since none begins with `x` alone
  have arrow : (phrases (n + 1)).readArrow? ⟨tokens.map (Token.moved 0) ++ plus :: others, stop⟩ =
      .ok (none, ⟨tokens.map (Token.moved 0) ++ plus :: others, stop⟩) := by
    obtain ⟨f, _, arrow, rest⟩ :=
      bind_ok.mp (readAssignment_of_readExpression read left.single)
    cases f with
    | some f =>
      cases rest
      exact absurd rfl (left.noFunction f)
    | none =>
      obtain rfl := readArrow?_none arrow
      obtain ⟨_, _, _, _, _, _, follows⟩ :=
        (followed _ { shift 0 with tail := plus :: others, fuel := n + 1 }
          ends).readArrow? _ none _ tidy arrow fun empty => by
            cases (show tokens = [] from empty)
            cases sum
      obtain ⟨rest', arrow', _⟩ := follows ⟨_, stop⟩ (owned _ _) copied (le_succ_of_le light)
      exact arrow'.trans (by rw [readArrow?_none arrow']; rfl)
  have binary : (phrases (n + 1)).readBinary 0
      ⟨tokens.map (Token.moved 0) ++ plus :: others, stop⟩ =
        .ok (.binary (moved 0 a) b, ⟨[], stop⟩) := by
    obtain ⟨u, su, unary, loop⟩ := bind_ok.mp sum
    obtain ⟨front, _, split, _, _, _, follows⟩ := (followed (x.toList.length + 2)
      { shift 0 with tail := plus :: others, fuel := n + 2 } ends).unary ⟨tokens, _⟩ u su
        tidy unary fun _ => trivial
    obtain ⟨rest', unary', copied', light'⟩ := follows ⟨_, stop⟩ (owned _ _) copied
      (succ_le_succ (le_succ_of_le light))
    rw [show tokens = front ++ su.tokens from split] at tidy
    have ends' : ({ shift 0 with tail := plus :: others, fuel := 0 } : Copy).EndsOperand
        11 := by
      simp [Copy.EndsOperand, bindsAtLeast, binds]
    obtain ⟨m, deep, same⟩ := @operators_before
      { shift 0 with tail := plus :: others, fuel := 0 } ends (fun _ => rfl) ends'
      (x.toList.length + 2) u a su s₁ ⟨rest', stop⟩ (n + 2) tidy.suffix loop ended₁ copied' light'
    have heavy := plus.weight_pos
    simp only [weight] at deep
    obtain ⟨m, rfl⟩ : ∃ j, m = j + 2 := ⟨m - 2, by omega⟩
    refine (bind_run unary').trans (same.trans ?_)
    show (phrases (m + 1)).readOperators 0 _ ⟨plus :: others, stop⟩ = _
    rw [readOperators_run, if_pos (by simp [bindsAtLeast, binds]), readRight, binds, sign.2]
    refine (bind_run (right m (by omega))).trans ?_
    rfl
  exact (bind_run arrow).trans
    ((bind_run ((bind_run binary).trans rfl)).trans rfl)

/-- The text `x + y` reads as the sum of what `x` and `y` read as, wherever they stand in it. -/
theorem parseExpression_sum (left : Term 10 x a) (right : Term 11 y b)
    (steady : tokensFrom (!beginsWith ['0', 'x'] x.toList) none 0 y.toList = tokenize 0 y.toList) :
    ∃ o o', parseExpression (x ++ " + " ++ y) = .ok (.binary (moved o a) (moved o' b)) := by
  obtain ⟨tokens, _, lexed, _⟩ := readAll_ok.mp left.reads
  obtain ⟨others, s₂, lexed₂, factor, ended₂⟩ := readAll_ok.mp right.binds
  have closed := left.closed
  rw [endsInLineComment, lexed] at closed
  change opensLine .blank (gapBehind 0 tokens x.toList) = false at closed
  rw [← gapBehind_moved 0] at closed
  -- the tokens of `x`, the sign, and the tokens of `y`
  let d := bytes x.toList + 3
  let plus := singleToken '+' (0 + 0 + bytes (x.toList ++ [' ']))
  have behind := (lexes_of_tokensFrom (steady.trans lexed₂)).moved d
  have place : 0 + 0 + bytes (x.toList ++ [' ']) + 1 + bytes [' '] = 0 + d := by
    rw [bytes_append]
    show _ + (_ + 1) + 1 + 1 = _
    omega
  have blank : ∀ d ∈ [' '], d = ' ' ∨ d = '\n' := by simp
  have sign : ∀ newline, Lexes (!beginsWith ['0', 'x'] x.toList)
      (some (plus newline))
      (0 + 0 + bytes (x.toList ++ [' ']) + 1) ([' '] ++ y.toList) (others.map (Token.moved d)) :=
    fun newline => .lead (by simp) (by rw [place]; exact behind _ rfl)
  obtain ⟨newline, whole⟩ := ((lexes_of_tokensFrom lexed).moved 0 none rfl).close
    (append_nil _).symm (by simp) closed blank (standsAlone_plus y.toList) rfl sign
  have alone : ∀ stop n, weight (others.map (Token.moved d)) ≤ n →
      (phrases (n + 1)).binary 11 ⟨others.map (Token.moved d), stop⟩ =
        .ok (moved d b, ⟨[], stop⟩) := by
    intro stop n light
    have read := (followed (y.toList.length + 2)
      { shift d with tail := [], fuel := n + 1 } .nil).binary 11
    rw [← append_nil (others.map (Token.moved d))] at light ⊢
    exact read.embed rfl (lexes_of_tokensFrom lexed₂).tidy factor ended₂ (lt_succ_of_le light)
  have moves := ((followed _ { shift 0 with tail := [], fuel := 0 } .nil).binary 11).moves rfl
    (behind none rfl).tidy (alone 0 _ le_rfl)
  have ends : Ends (plus newline ::
      others.map (Token.moved d)) := by
    refine ⟨rfl, fun depth => ?_⟩
    have quiet := @Quiet.behind _ (plus newline) _ _
      Ends.nil.quiet (Moves.append (moves_plain rfl rfl 0) moves) rfl (depth + 1)
    rwa [append_nil] at quiet
  have same : (x ++ " + " ++ y).toList = x.toList ++ ([' '] ++ '+' :: ' ' :: y.toList) := by simp
  refine ⟨0, d, readAll_ok.mpr ⟨tokens.map (Token.moved 0) ++
    plus newline :: others.map (Token.moved d), ⟨[], 0 + bytes (x ++ " + " ++ y).toList⟩, ?_, ?_, rfl⟩⟩
  · rw [tokenize, same, beginsWith_hexadecimal]
    exact tokensFrom_of_lexes whole
  · have sum := readAssignment_sum left lexed rfl ends whole.weight_le
      (0 + bytes (x ++ " + " ++ y).toList) (alone _)
    rw [phrasesFor, same]
    rw [same] at sum
    exact (bind_run sum).trans rfl

theorem closed_of_last {cs front t} (lexed : tokenize 0 cs = .ok (front ++ [t]))
    (last : t.stop = bytes cs) : endsInLineComment cs = false := by
  have gap := dropBytes?_append cs []
  rw [append_nil] at gap
  rw [endsInLineComment, lexed]
  simp only [gapBehind, getLast?_concat, map_some, getD_some, last, Nat.sub_zero, gap]
  rfl

theorem operand_call {name} (isName : ∀ c ∈ name, isNamePart c = true) {script a}
    (h : Operand script a) :
    ∃ o, Operand (String.ofList ('_' :: (name ++ '(' :: (script.toList ++ [')']))))
      (.call (.ident ⟨String.ofList ('_' :: name), 0, bytes ('_' :: name)⟩) [moved o a]) := by
  have item := h.isItem.argument
  obtain ⟨args, parsed, all⟩ := @parseExpression_call _ id _ isName (fun _ b => ∃ o, b = moved o a)
    [script.toList] (by simp) (by simpa using item)
  cases all with
  | cons found none =>
    cases none
    obtain ⟨o, rfl⟩ := found
    refine ⟨o, parsed, rfl, ?_, by rw [String.toList_ofList]; rfl⟩
    -- the closing bracket is the last token
    obtain ⟨tokens, newline, _, lexes, _⟩ := @item
      (some (singleToken '(' (bytes ('_' :: name)) false)) (bytes ('_' :: name) + 1) _ []
      script.toList [] [] [] ')' [] rfl (by simp) (by simp) (by simp) (by simp) rfl rfl
      fun _ => .nil
    have paren := @Lexes.single _ _ _ _ _ (some ⟨.word, String.ofList ('_' :: name), 0, false⟩)
      (by simp [singles]) lexes
    rw [← Nat.zero_add (bytes ('_' :: name))] at paren
    have whole := @Lexes.name _ true 0 none _ ('_' :: name) ⟨_, _, rfl, by decide, isName⟩
      (by rw [head?_cons]; decide) paren
    rw [String.toList_ofList]
    refine @closed_of_last _ (_ :: _ :: tokens) _ (tokensFrom_of_lexes whole) ?_
    have one : Char.utf8Size '(' = 1 ∧ Char.utf8Size ')' = 1 := ⟨rfl, rfl⟩
    simp only [Token.stop, singleToken, String.toList_ofList, nil_append, append_nil,
      bytes, bytes_append, one]
    omega
end Stencil.Script
