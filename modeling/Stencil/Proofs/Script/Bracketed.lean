import Stencil.Naming
import Stencil.Proofs.Script.Listing

/-! # Lists between brackets

The text of a list is cut item by item and read back, for arguments and for the properties of an
object. Items are operands; a property has its key and a colon before the operand.
-/

namespace Stencil.Script

open List Text Phrases Bool Token

variable {c : Char}

/-! ## Items -/

/-- A text that is cut as one item, up to the punctuator behind it. Spaces at its end may have been
    dropped; lines may break before it if `breaks`. -/
def IsItem {α : Type} (read : Phrases → Reader α) (breaks : Bool) (x : List Char)
    (P : α → Prop) : Prop :=
  ∀ ⦃previous : Option Token⦄ ⦃pos start : Nat⦄ ⦃gap cut spaces blanks more : List Char⦄ ⦃c : Char⦄
    ⦃rest : List Token⦄, regexAllowed previous = true →
    (∀ d ∈ gap, d = ' ' ∨ breaks = true ∧ d = '\n') →
    x = cut ++ spaces → (∀ d ∈ spaces, d = ' ') →
    (∀ d ∈ blanks, d = ' ' ∨ d = '\n') → isStop c = true →
    start = pos + bytes (gap ++ (cut ++ blanks)) →
    (∀ newline, Lexes true (some (singleToken c start newline)) (start + 1) more rest) →
    ∃ tokens newline a,
      Lexes true previous pos (gap ++ (cut ++ (blanks ++ c :: more)))
        (tokens ++ singleToken c start newline :: rest) ∧
      Entry read tokens a ∧ P a

theorem gapBehind_moved (d) (tokens : List Token) (cs) :
    gapBehind (0 + d) (tokens.map (Token.moved d)) cs = gapBehind 0 tokens cs := by
  rw [gapBehind, gapBehind, getLast?_map]
  cases tokens.getLast? with
  | none => simp
  | some t => simp [stop_moved]

/-- An operand is an item, with its names where it stands. -/
theorem Operand.isItem (h : Operand script e) :
    IsItem readAssignment false script.toList (fun a => ∃ o, a = moved o e) := by
  intro previous pos start gap cut spaces blanks more c rest regex isGap split trailing isBlank stop
    place behind
  obtain ⟨tokens, m, stop', s, lexes, closed, run, ended⟩ := h.tokens
  have here := lexes.moved (pos + bytes gap) previous regex
  rw [← gapBehind_moved (pos + bytes gap)] at closed
  have same : 0 + (pos + bytes gap) + bytes (cut ++ blanks) = start := by
    rw [place, bytes_append gap]
    omega
  obtain ⟨newline, closes⟩ := here.close split trailing closed isBlank
    (standsAlone_of_single (single_of_isStop stop) more) (apart_of_stop isBlank stop) (by rwa [same])
  rw [same, Nat.zero_add] at closes
  exact ⟨_, newline, _, closes.lead fun d member => by simpa using isGap d member,
    entry_of_readAssignment lexes run ended _, _, rfl⟩

theorem IsItem.argument (h : IsItem readAssignment breaks x P) : IsItem readItem breaks x P := by
  intro _ _ _ _ _ _ _ _ _ _ regex isGap split trailing isBlank stop place behind
  obtain ⟨tokens, newline, a, lexes, entry, holds⟩ :=
    h regex isGap split trailing isBlank stop place behind
  exact ⟨tokens, newline, a, lexes, entry.item, holds⟩

theorem Operand.visible (h : Operand script e) : ∃ d ∈ script.toList, d ≠ ' ' := by
  by_contra blank
  have isSpace : ∀ d ∈ script.toList, d = ' ' := by simpa using blank
  obtain ⟨tokens, m, stop, s, lexes, _, run, _⟩ := h.tokens
  have none : Lexes true none 0 (script.toList ++ []) [] := .lead isSpace .nil
  rw [append_nil] at none
  obtain rfl : [] = tokens := by
    simpa using (tokensFrom_of_lexes none).symm.trans (tokensFrom_of_lexes lexes)
  cases run

/-! ## Keys -/

/-- A text that is cut as the key before a colon. -/
def IsKey (x : List Char) (P : PropKey → Prop) : Prop :=
  ∀ ⦃previous : Option Token⦄ ⦃pos : Nat⦄ ⦃more : List Char⦄ ⦃rest : List Token⦄,
    (∀ previous, Lexes true previous (pos + bytes x) (':' :: more) rest) →
    ∃ tokens key, Lexes true previous pos (x ++ ':' :: more) (tokens ++ rest) ∧
      KeyTokens tokens key ∧ P key

theorem isKey_plain (plain : isPlainKey name = true) :
    IsKey name.toList (fun key => key = .named) := by
  have letter : ∀ c, isAsciiLetter c = true → isAlphabetic c = true := by
    intro c letter
    rw [isAlphabetic, letter, if_pos]
    simp only [isAsciiLetter, or_eq_true, and_eq_true, decide_eq_true_eq,
      Char.le_def, UInt32.le_iff_toNat_le] at letter
    show c.val.toNat < 128
    have lower : 'z'.val.toNat = 122 := rfl
    have upper : 'Z'.val.toNat = 90 := rfl
    omega
  have digit : ∀ c, isAsciiDigit c = true → isNumeric c = true := by
    intro c digit
    rw [isNumeric, digit, if_pos]
    simp only [isAsciiDigit, and_eq_true, decide_eq_true_eq, Char.le_def,
      UInt32.le_iff_toNat_le] at digit
    show c.val.toNat < 128
    have nine : '9'.val.toNat = 57 := rfl
    omega
  rw [isPlainKey] at plain
  split at plain
  · cases plain
  next c cs split =>
  rw [and_eq_true] at plain
  obtain ⟨first, others⟩ := plain
  have start : isNameStart c = true := by
    simp only [isNameStart, or_eq_true] at first ⊢
    exact first.imp_left (Or.imp_left (letter c))
  have parts : ∀ d ∈ cs, isNamePart d = true := by
    intro d member
    have other := all_eq_true.mp others d member
    simp only [isAsciiAlphanumeric, isNamePart, isAlphanumeric, or_eq_true]
      at other ⊢
    exact other.imp_left (Or.imp_left (Or.imp (letter d) (digit d)))
  rw [split]
  intro previous pos more rest behind
  exact ⟨[_], .named, @Lexes.name (':' :: more) true pos previous rest (c :: cs)
    ⟨c, cs, rfl, start, parts⟩ (by rw [head?_cons]; decide) (behind _), .named (.inl rfl), rfl⟩

theorem isKey_computed (item : IsItem readAssignment false x P) :
    IsKey ('[' :: (x ++ [']'])) (fun key => ∃ a, key = .computed a ∧ P a) := by
  intro previous pos more rest behind
  have place : pos + bytes ('[' :: (x ++ [']'])) = pos + 1 + bytes x + 1 := by
    rw [← singleton_append, bytes_append, bytes_append]
    show pos + (1 + (bytes x + 1)) = _
    omega
  rw [place] at behind
  obtain ⟨tokens, newline, a, lexes, entry, holds⟩ :=
    @item (some (singleToken '[' pos false)) (pos + 1) (pos + 1 + bytes x) [] x [] [] (':' :: more)
      ']' rest rfl (by simp) (append_nil x).symm (by simp) (by simp) rfl
      (by rw [nil_append, append_nil]) fun newline => behind _
  refine ⟨singleToken '[' pos false :: (tokens ++ [singleToken ']' (pos + 1 + bytes x) newline]),
    .computed a, ?_, .computed rfl entry rfl, a, rfl, holds⟩
  have single : Lexes true previous _ _ _ := .single (by simp [singles]) lexes
  simpa using single

/-! ## Quoted texts -/

theorem stringLength?_plain (noQuote : c ≠ '"') (noEscape : c ≠ '\\') (tail) :
    stringLength? '"' (c :: tail) = (stringLength? '"' tail).map (· + 1) := by
  rw [stringLength?, if_neg noQuote]
  rintro _ _ rfl
  exact absurd rfl noEscape

theorem stringLength?_escape (c tail) :
    stringLength? '"' (escape c ++ tail) =
      (stringLength? '"' tail).map (· + (escape c).length) := by
  have two : ∀ d, stringLength? '"' ('\\' :: d :: tail) = (stringLength? '"' tail).map (· + 2) :=
    fun d => rfl
  have hex : ∀ n < 16, hexDigit n ≠ '"' ∧ hexDigit n ≠ '\\' := by decide
  unfold escape
  split_ifs with quote escape newline ret tab back feed control
  iterate 7 exact two _
  · have high := hex (c.toNat / 16) (by omega)
    have low := hex (c.toNat % 16) (by omega)
    show stringLength? '"' ('\\' :: 'u' :: '0' :: '0' :: hexDigit (c.toNat / 16) ::
      hexDigit (c.toNat % 16) :: tail) = _
    rw [stringLength?, stringLength?_plain (by decide) (by decide),
      stringLength?_plain (by decide) (by decide), stringLength?_plain high.1 high.2,
      stringLength?_plain low.1 low.2]
    simp only [Option.map_map]
    rfl
  · exact stringLength?_plain quote escape tail

theorem stringLength?_quoted (cs tail : List Char) :
    stringLength? '"' (cs.flatMap escape ++ '"' :: tail) =
      some ((cs.flatMap escape).length + 1) := by
  induction cs with
  | nil => rfl
  | cons c cs ih =>
    rw [flatMap_cons, append_assoc, stringLength?_escape, ih, Option.map_some, length_append]
    congr 1
    omega

theorem scanToken_quoted (cs tail : List Char) :
    scanToken signs previous pos '"' (cs.flatMap escape ++ ['"'] ++ tail) =
      .ok (.string, (cs.flatMap escape ++ ['"']).length) := by
  rw [append_assoc, length_append]
  exact (Scans.string (.inl rfl) (stringLength?_quoted cs tail)).scanToken

theorem Lexes.quoted {s post rest}
    (behind : ∀ previous, Lexes signs previous (pos + bytes (quote s).toList) post rest) :
    Lexes signs previous pos ((quote s).toList ++ post)
      (⟨.string, quote s, pos, false⟩ :: rest) := by
  rw [quote, String.toList_ofList] at behind ⊢
  exact @next signs previous pos [] false '"' (s.toList.flatMap escape ++ ['"']) post
    .string rest (skipTrivia_solid pos rfl (by simp)) (scanToken_quoted _ post) (behind _)

theorem isKey_quoted (name) : IsKey (quote name).toList (fun key => key = .named) :=
  fun _ _ _ _ behind => ⟨[_], .named, .quoted behind, .named (.inr rfl), rfl⟩

theorem lexes_quote (signs s) :
    Lexes signs none 0 (quote s).toList [⟨.string, quote s, 0, false⟩] := by
  have lexes : Lexes signs none 0 ((quote s).toList ++ []) _ := .quoted fun _ => .nil
  rwa [append_nil] at lexes

theorem readQuoted_backslash {cs rest} (read : readEscape cs = some (c, rest)) :
    readQuoted ('\\' :: cs) = (readQuoted rest).map fun (text, after) => (c :: text, after) := by
  rw [readQuoted]
  split
  next none => cases read.symm.trans none
  next found =>
    cases read.symm.trans found
    rfl

theorem readQuoted_escape (c tail) : readQuoted (escape c ++ tail) =
    (readQuoted tail).map fun (text, after) => (c :: text, after) := by
  have digit : ∀ n < 16, hexValue? (hexDigit n) = some n := by decide
  unfold escape
  split_ifs with quote escape newline ret tab back feed control
  iterate 7
    subst c
    exact readQuoted_backslash rfl
  · have unit : hexUnit? ('0' :: '0' :: hexDigit (c.toNat / 16) :: hexDigit (c.toNat % 16) ::
        tail) = some (c.toNat, tail) := by
      have zero : hexValue? '0' = some 0 := rfl
      simp only [hexUnit?, zero, digit (c.toNat / 16) (by omega), digit (c.toNat % 16) (by omega)]
      congr 2
      omega
    refine @readQuoted_backslash c ('u' :: '0' :: '0' :: _ :: _ :: tail) tail ?_
    rw [readEscape, unit]
    dsimp only
    rw [if_neg (by simp; omega), if_neg (by simp; omega), Char.ofNat_toNat]
  · rw [singleton_append, readQuoted, if_neg control]
    · simpa using quote
    · simpa using escape

theorem readQuoted_quoted (cs tail : List Char) :
    readQuoted (cs.flatMap escape ++ '"' :: tail) = some (cs, tail) := by
  induction cs with
  | nil => simp [readQuoted]
  | cons c cs ih => rw [flatMap_cons, append_assoc, readQuoted_escape, ih, Option.map_some]

theorem printable_escape (c) : ∀ d ∈ escape c, 0x20 ≤ d.toNat := by
  have hex : ∀ n < 16, 0x20 ≤ (hexDigit n).toNat := by decide
  unfold escape
  split_ifs with quote escape newline ret tab back feed control
  iterate 7 exact forall_of_all (by decide)
  · simp [hex (c.toNat / 16) (by omega), hex (c.toNat % 16) (by omega)]
  · simpa using control

/-- A quoted text is one token however the script goes on, has no control character and is read
    back as the text. -/
theorem tokenize_quote (s : String) :
    tokenize 0 (quote s).toList = .ok [⟨.string, quote s, 0, false⟩] ∧
      (∀ c ∈ (quote s).toList, 0x20 ≤ c.toNat) ∧
      ∃ body, (quote s).toList = '"' :: body ∧ readQuoted body = some (s.toList, []) ∧
        ∀ signs previous pos tail, scanToken signs previous pos '"' (body ++ tail) =
          .ok (.string, body.length) := by
  have split : (quote s).toList = '"' :: (s.toList.flatMap escape ++ ['"']) := by
    simp [quote, quoteChars]
  refine ⟨tokenize_eq_ok.mpr (lexes_quote _ s), ?_, _, split, readQuoted_quoted s.toList [], ?_⟩
  · rw [split]
    simp only [forall_mem_cons, forall_mem_append, forall_mem_flatMap]
    exact ⟨by decide, fun c _ => printable_escape c, by decide, by simp⟩
  · exact fun signs previous pos tail => scanToken_quoted s.toList tail

theorem operand_quote (s) : Operand (quote s) .literal := by
  have tokenized := tokensFrom_of_lexes
    (lexes_quote (!beginsWith ['0', 'x'] (quote s).toList) s)
  have read : ∀ (p : Phrases) stop, p.readExpression ⟨[⟨.string, quote s, 0, false⟩], stop⟩ =
      .ok (.literal, ⟨[], stop⟩) :=
    fun p stop => readExpression_of_readPostfix rfl rfl rfl rfl
  refine ⟨?_, rfl, ?_, ?_⟩
  · exact readAll_ok.mpr ⟨_, _, tokenized, read _ _, rfl⟩
  · have gap := dropBytes?_append (quote s).toList []
    rw [endsInLineComment, tokenize, tokenized]
    rw [append_nil] at gap
    show opensLine .blank
      ((dropBytes? (0 + bytes (quote s).toList - 0) _).getD []) = false
    rw [Nat.zero_add, Nat.sub_zero, gap]
    rfl
  · rw [tokenize, tokenized]
    exact tokensFrom_of_lexes (lexes_quote true s)

/-! ## Properties -/

theorem breakBefore_append (newline rest) (nonempty : tokens ≠ []) :
    breakBefore newline (tokens ++ rest) = breakBefore newline tokens ++ rest := by
  cases tokens with
  | nil => exact absurd rfl nonempty
  | cons t tokens => rfl

theorem KeyTokens.breakBefore (h : KeyTokens tokens key) (newline) :
    KeyTokens (breakBefore newline tokens) key := by
  cases h with
  | named kind => exact .named kind
  | computed opens entry closes => exact .computed opens entry closes

/-- What is left of a property without the spaces at its end. -/
theorem cut_value {front value cut spaces : List Char} (split : front ++ value = cut ++ spaces)
    (trailing : ∀ d ∈ spaces, d = ' ') (visible : ∃ d ∈ value, d ≠ ' ') :
    ∃ rest, cut = front ++ rest ∧ value = rest ++ spaces := by
  rcases append_eq_append_iff.mp split with ⟨rest, same, rfl⟩ | ⟨rest, rfl, rfl⟩
  · exact ⟨rest, same, rfl⟩
  · obtain ⟨d, member, other⟩ := visible
    exact absurd (trailing d (mem_append_right rest member)) other

theorem IsKey.property {key value : List Char} {K : PropKey → Prop} (isKey : IsKey key K)
    (item : IsItem readAssignment false value P) (visible : ∃ d ∈ value, d ≠ ' ') :
    IsItem readProperty true (key ++ [':', ' '] ++ value)
      (fun prop => ∃ k a, prop = .keyValue k a ∧ K k ∧ P a) := by
  intro previous pos start gap cut spaces blanks more c rest regex isGap split trailing isBlank stop
    place behind
  obtain ⟨front, rfl, rfl⟩ := cut_value split trailing visible
  have colonPlace :
      pos + bytes gap + bytes key + 1 + bytes ([' '] ++ (front ++ blanks)) = start := by
    have two : bytes [':', ' '] = 2 := rfl
    have one : bytes [' '] = 1 := rfl
    simp only [place, bytes_append]
    omega
  obtain ⟨tokens, newline, a, lexes, entry, holds⟩ :=
    @item (some (singleToken ':' (pos + bytes gap + bytes key) false))
      (pos + bytes gap + bytes key + 1) start [' '] front spaces blanks more c rest rfl (by simp)
      rfl trailing isBlank stop colonPlace.symm behind
  have colon : ∀ previous, Lexes true previous (pos + bytes gap + bytes key)
      (':' :: ' ' :: (front ++ (blanks ++ c :: more)))
      (singleToken ':' (pos + bytes gap + bytes key) false ::
        (tokens ++ singleToken c start newline :: rest)) :=
    fun previous => .single (by simp [singles]) lexes
  obtain ⟨keyTokens, k, keyed, isKeyTokens, holdsKey⟩ := @isKey previous _ _ _ colon
  have nonempty : keyTokens ≠ [] := by
    rintro rfl
    obtain ⟨_, _, absurd, _⟩ := isKeyTokens.opens
    cases absurd
  have whole := keyed.gap fun d member => (isGap d member).imp_right And.right
  rw [breakBefore_append _ _ nonempty] at whole
  have isColon : (singleToken ':' (pos + bytes gap + bytes key) false).isPunctuator ":" = true :=
    rfl
  refine ⟨_, newline, .keyValue k a, ?_,
    (isKeyTokens.breakBefore (gap.any (· == '\n'))).entry isColon entry, k, a, rfl, holdsKey, holds⟩
  simpa using whole

/-! ## Lists -/

/-- The text of items with a comma and `gap` between them. The last one is cut before `close`. -/
def listText (gap : List Char) (cut : List Char → List Char) (close : List Char) :
    List (List Char) → List Char
  | [] => close
  | [x] => cut x ++ close
  | x :: y :: rest => x ++ ',' :: (gap ++ listText gap cut close (y :: rest))

/-- A cut that drops spaces at the end. -/
def Trims (cut : List Char → List Char) : Prop :=
  ∀ x, ∃ spaces, x = cut x ++ spaces ∧ ∀ d ∈ spaces, d = ' '

theorem trims_id : Trims id :=
  fun x => ⟨[], (append_nil x).symm, by simp⟩

theorem isPunctuator_singleToken (c start newline) :
    (singleToken c start newline).isPunctuator (String.ofList [c]) = true := by
  simp [isPunctuator, singleToken]

section Lists

variable {α β : Type} {breaks : Bool} {gap blanks : List Char} {cut : List Char → List Char}
  {text : β → List Char} {P : β → α → Prop}

theorem lexes_list (l : ListReader α) (close : String.ofList [c] = l.close) (stop : isStop c = true)
    (isGap : ∀ d ∈ gap, d = ' ' ∨ breaks = true ∧ d = '\n')
    (isBlank : ∀ d ∈ blanks, d = ' ' ∨ d = '\n') (trims : Trims cut) (xs) (nonempty : xs ≠ [])
    (items : ∀ x ∈ xs, IsItem l.item breaks (text x) (P x)) :
    ∀ (previous : Option Token) (pos : Nat) (lead : List Char), regexAllowed previous = true →
      (∀ d ∈ lead, d = ' ' ∨ breaks = true ∧ d = '\n') →
      ∃ tokens as, Lexes true previous pos
        (lead ++ listText gap cut (blanks ++ [c]) (xs.map text)) tokens ∧ Listed l tokens as ∧
        List.Forall₂ P xs as := by
  induction xs with
  | nil => exact absurd rfl nonempty
  | cons x xs ih =>
    intro previous pos lead regex isLead
    have item := items x mem_cons_self
    cases xs with
    | nil =>
      obtain ⟨spaces, split, trailing⟩ := trims (text x)
      obtain ⟨tokens, newline, a, lexes, entry, holds⟩ :=
        @item previous pos _ lead (cut (text x)) spaces blanks [] c [] regex isLead split
          trailing isBlank stop rfl fun _ => .nil
      exact ⟨_, [a], lexes, .last entry (close ▸ isPunctuator_singleToken ..), .cons holds .nil⟩
    | cons y xs =>
      obtain ⟨others, as, behind, listed, all⟩ := ih (by simp)
        (fun z member => items z (mem_cons_of_mem x member))
        (some (singleToken ',' (pos + bytes (lead ++ (text x ++ []))) false))
        (pos + bytes (lead ++ (text x ++ [])) + 1) gap rfl isGap
      obtain ⟨tokens, newline, a, lexes, entry, holds⟩ :=
        @item previous pos _ lead (text x) [] [] _ ',' others regex isLead
          (append_nil _).symm (by simp) (by simp) rfl rfl fun _ => behind.after rfl
      exact ⟨_, a :: as, lexes, .next entry (isPunctuator_singleToken ..) listed,
        .cons holds all⟩

/-- A call whose arguments are items is read as a call with these arguments. -/
theorem parseExpression_call {name} (isName : ∀ c ∈ name, isNamePart c = true) {P : β → Expr → Prop}
    {xs} (nonempty : xs ≠ []) (items : ∀ x ∈ xs, IsItem readItem false (text x) (P x)) :
    ∃ args, parseExpression (String.ofList
        ('_' :: (name ++ '(' :: listText [' '] id [')'] (xs.map text)))) =
      .ok (.call (.ident ⟨String.ofList ('_' :: name), 0, bytes ('_' :: name)⟩) args) ∧
      List.Forall₂ P xs args := by
  obtain ⟨tokens, args, lexes, listed, all⟩ := @lexes_list ')' _ _ false [' '] [] id text P
    argumentReader rfl rfl (by simp) (by simp) trims_id xs nonempty items
    (some (singleToken '(' (bytes ('_' :: name)) false)) (bytes ('_' :: name) + 1) [] rfl (by simp)
  refine ⟨args, ?_, all⟩
  have light := lexes.weight_le
  have opens : (singleToken '(' (bytes ('_' :: name)) false).isPunctuator "(" = true := rfl
  have paren : Lexes true (some ⟨.word, String.ofList ('_' :: name), 0, false⟩)
      (0 + bytes ('_' :: name)) ('(' :: listText [' '] id [')'] (xs.map text))
      (singleToken '(' (bytes ('_' :: name)) false :: tokens) := by
    rw [Nat.zero_add]
    exact .single (by simp [singles]) lexes
  have whole := @Lexes.name _ true 0 none _ ('_' :: name) ⟨_, _, rfl, by decide, isName⟩
    (by rw [head?_cons]; decide) paren
  have stop : (⟨.word, String.ofList ('_' :: name), 0, false⟩ : Token).stop =
      bytes ('_' :: name) := by
    rw [stop, String.toList_ofList, Nat.zero_add]
  refine readAll_ok.mpr ⟨_, _, ?_, stop ▸ readExpression_call rfl rfl opens listed ?_, rfl⟩
  · rw [String.toList_ofList]
    exact tokensFrom_of_lexes whole
  · rw [String.toList_ofList, length_cons, length_append, length_cons]
    simp only [nil_append] at light
    omega

/-- An object whose properties are items is read as an object with these properties. -/
theorem parseExpression_object {P : β → ObjectProp → Prop} (nonempty : xs ≠ [])
    (isLead : ∀ d ∈ lead, d = ' ' ∨ d = '\n') (isGap : ∀ d ∈ gap, d = ' ' ∨ d = '\n')
    (isBlank : ∀ d ∈ blanks, d = ' ' ∨ d = '\n') (trims : Trims cut)
    (items : ∀ x ∈ xs, IsItem readProperty true (text x) (P x)) :
    ∃ props, parseExpression (String.ofList
        ('\x7b' :: (lead ++ listText gap cut (blanks ++ ['\x7d']) (xs.map text)))) =
      .ok (.object props) ∧ List.Forall₂ P xs props := by
  obtain ⟨tokens, props, lexes, listed, all⟩ := lexes_list propertyReader rfl rfl
    (by simpa using isGap) isBlank trims xs nonempty items (some (singleToken '\x7b' 0 false)) 1
    lead rfl (by simpa using isLead)
  refine ⟨props, ?_, all⟩
  have light := lexes.weight_le
  have whole : Lexes true none 0 _ _ := .single (by simp [singles]) lexes
  have opens : (singleToken '\x7b' 0 false).isPunctuator "\x7b" = true := rfl
  refine readAll_ok.mpr ⟨_, _, ?_, readExpression_object opens listed ?_, rfl⟩
  · rw [String.toList_ofList]
    exact tokensFrom_of_lexes whole
  · rw [String.toList_ofList, length_cons]
    omega

end Lists

end Stencil.Script
