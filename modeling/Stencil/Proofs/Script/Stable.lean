import Stencil.Proofs.Script.Rewriting

/-! # Qualifying twice

The code of a qualified script can be read again, and it has no sites if `_ctx` is in scope. A site
right behind a number is the exception, because the number takes what is written there.
-/

namespace Stencil

open List Snippet Option

theorem Part.codes_append (a b) : codes (a ++ b) = codes a ++ codes b := by
  induction a with
  | nil => simp [codes]
  | cons p a ih => simp only [cons_append, codes, ih, String.append_assoc]

theorem Script.codes_splice_nil (base pos cs) :
    Part.codes (splice base pos cs []) = String.ofList cs := by
  rw [splice]
  split
  next empty =>
    rw [List.isEmpty_iff.mp empty]
    rfl
  · simp [Part.codes, Part.code]

variable {back : List Char} {r : Ref} {u : Uses}

namespace Script

open Text

/-- What is written at each site. -/
def siteMarks (sites : List Ref) : Marks :=
  fun p => (sites.find? (·.ident.start == p)).map (·.spot.mark)

theorem siteMarks_eq_some (mark : siteMarks sites p = some k) :
    ∃ r ∈ sites, r.ident.start = p ∧ r.spot.mark = k := by
  obtain ⟨r, found, same⟩ := map_eq_some_iff.mp mark
  exact ⟨r, mem_of_find?_eq_some found, by simpa using find?_some found, same⟩

theorem siteMarks_of_mem (member : r ∈ sites) : siteMarks sites r.ident.start ≠ none := by
  intro unmarked
  have none := find?_eq_none.mp (map_eq_none_iff.mp unmarked) r member
  simp at none

theorem weave_congr (cs) (same : ∀ p, pos ≤ p → m p = m' p) : weave m pos cs = weave m' pos cs := by
  induction cs generalizing pos with
  | nil => rfl
  | cons c cs ih =>
    rw [weave_cons, weave_cons, same pos (Nat.le_refl _),
      ih fun p le => same p (Nat.le_trans (Nat.le_add_right _ _) le)]

/-- The code of a name at a site. -/
theorem Fragment.codes_name (base) (r : Ref) :
    (Part.codes (parts (.name r.spot (siteSnippet base r)))).toList =
      r.spot.mark.text ++ r.ident.name.toList := by
  cases shorthand : r.shorthand <;>
    simp [parts, Ref.spot, Spot.mark, shorthand, Part.codes, Part.code, Expression.code,
      code, siteSnippet, new, inContext, Mark.text]

theorem Fragment.codes_text (cs : List Char) :
    (Part.codes ((if cs.isEmpty then [] else [.text cs] : List Fragment).flatMap
      parts)).toList = cs := by
  split
  next empty => simp [List.isEmpty_iff.mp empty, Part.codes]
  · simp [parts, Part.codes, Part.code]

theorem Sited.starts (h : Sited pos cs sites) : ∀ r ∈ sites, pos ≤ r.ident.start := by
  induction h with
  | nil => simp
  | @cons pos front back r rest start stop name others ih =>
    intro s member
    rcases mem_cons.mp member with rfl | later
    · omega
    · have := ih s later
      omega

/-- Cut at its sites, a script has the code of the script with the sites written into. -/
theorem Sited.codes (h : Sited pos cs sites) :
    (Part.codes ((fragments base pos cs sites).flatMap Fragment.parts)).toList =
      weave (siteMarks sites) pos cs := by
  induction h with
  | @nil pos cs =>
    have unmarked : weave (siteMarks []) pos cs = cs := weave_unmarked fun p _ _ => rfl
    rw [unmarked, fragments, Fragment.codes_text]
  | @cons pos front back r rest start stop name others ih =>
    obtain ⟨c, more, cons, _⟩ := name
    have size := c.utf8Size_pos
    have later := others.starts
    have stop' : r.ident.stop = r.ident.start + c.utf8Size + bytes more := by
      rw [stop, cons, bytes, Nat.add_assoc]
    -- the first site is the only one before the rest of the text
    have only : ∀ p, p < r.ident.stop → p ≠ r.ident.start → siteMarks (r :: rest) p = none := by
      intro p before other
      refine map_eq_none_iff.mpr (find?_eq_none.mpr fun s member => ?_)
      rcases mem_cons.mp member with rfl | inRest
      · simpa using other.symm
      · have := later s inRest
        simp only [beq_iff_eq]
        omega
    have here : siteMarks (r :: rest) r.ident.start = some r.spot.mark := by
      simp [siteMarks]
    have behind : ∀ p, r.ident.stop ≤ p → siteMarks (r :: rest) p = siteMarks rest p := by
      intro p le
      have other : (r.ident.start == p) = false := by
        rw [beq_eq_false_iff_ne]
        omega
      simp only [siteMarks, find?_cons, other]
    have first : weave (siteMarks (r :: rest)) pos front = front :=
      weave_unmarked fun p low high => only p (by omega) (by omega)
    have second : weave (siteMarks (r :: rest)) r.ident.start r.ident.name.toList =
        r.spot.mark.text ++ r.ident.name.toList := by
      rw [cons, weave_cons, here, elim_some,
        weave_unmarked fun p low high => only p (by omega) (by omega)]
    have third := weave_congr back behind
    rw [weave_append, weave_append, ← start, first, second, ← stop, third, ← ih,
      fragments_cons rest start stop]
    rw [flatMap_append, flatMap_cons, Part.codes_append, Part.codes_append,
      String.toList_append, String.toList_append, Fragment.codes_text, Fragment.codes_name]

/-! ## Scripts without sites -/

/-- The names in scope, and the context itself. -/
def withContext (known : String → Bool) (name : String) : Bool :=
  known name || name == "_ctx"

/-- A script that can be read and has no sites if the context is in scope. -/
def Settled (known : String → Bool) (mode : Mode) (script : String) : Prop :=
  ∃ u, uses mode script = .ok u ∧ u.sites (withContext known) = []

theorem isContext_withContext :
    r.isContext (withContext known) = (r.isContext known && r.ident.name != "_ctx") := by
  simp only [Ref.isContext, Ref.isLocal, withContext, bne]
  cases r.bound <;> cases known r.ident.name <;> cases r.ident.name == "_ctx" <;> simp

theorem sites_withContext (h : ∀ r ∈ u.refs, r.ident.name = "_ctx" ∨ r.isContext known = false) :
    u.sites (withContext known) = [] := by
  refine Uses.sites_eq_nil_iff.mpr fun r member => ?_
  rw [isContext_withContext]
  rcases h r member with name | local_
  · simp [name]
  · simp [local_]

/-- Where a site stands right behind a number. -/
def SiteBehindNumber (known : String → Bool) (mode : Mode) (script : String) : Prop :=
  ∃ u tokens, uses mode script = .ok u ∧ tokenize 0 script.toList = .ok tokens ∧
    ∃ r ∈ u.sites known, AfterNumber tokens r.ident.start

theorem clear_siteMarks (used : uses mode script = .ok u)
    (lexed : tokenize 0 script.toList = .ok tokens) (clear : ¬ SiteBehindNumber known mode script) :
    Clear (siteMarks (u.sites known)) tokens := by
  intro p after
  cases mark : siteMarks (u.sites known) p with
  | none => rfl
  | some k =>
    obtain ⟨r, member, rfl, _⟩ := siteMarks_eq_some mark
    exact absurd ⟨u, tokens, used, lexed, r, member, after⟩ clear

theorem owned_siteMarks (u : Uses) (known : String → Bool) (lo hi) :
    OwnedIn (siteMarks (u.sites known)) lo hi u.spots := by
  intro p k _ _ mark
  obtain ⟨r, member, start, same⟩ := siteMarks_eq_some mark
  exact ⟨r.spot, mem_map_of_mem (Uses.of_mem_sites member).1, start, same⟩

theorem settled_splice (used : uses mode script = .ok u)
    (clear : ¬ SiteBehindNumber known mode script) (base) :
    Settled known mode (Part.codes (splice base 0 script.toList (u.sites known))) := by
  obtain ⟨-, -, -, sited⟩ := sites_words used known
  obtain ⟨tokens, lexed, -, follows⟩ := uses_weave (siteMarks (u.sites known)) used
  rw [splice_eq, ← String.ofList_toList (s := Part.codes _), sited.codes]
  obtain ⟨u', used', like⟩ := follows (clear_siteMarks used lexed clear) (owned_siteMarks u known _ _)
  refine ⟨u', used', sites_withContext fun r' member => ?_⟩
  rcases like r' member with name | ⟨r, inside, unmarked, name, bound⟩
  · exact .inl name
  · refine .inr ?_
    have same : r'.isContext known = r.isContext known := by
      simp only [Ref.isContext, Ref.isLocal, name, bound]
    rw [same]
    cases context : r.isContext known with
    | false => rfl
    | true =>
      obtain ⟨s, site, start⟩ := Uses.exists_site inside context
      rw [← start] at unmarked
      exact absurd unmarked (siteMarks_of_mem site)

/-! ## A name with its context -/

theorem tokenize_inContext (isName : IsName name.toList) :
    ∃ ctx dot id, tokenize 0 (inContext name).toList = .ok [ctx, dot, id] ∧
      ctx.Is .word "_ctx" false ∧ dot.Is .punctuator "." false ∧ id.Is .word name false := by
  have text : (inContext name).toList = [] ++ (Mark.context.text ++ (name.toList ++ [])) := by
    simp [inContext, Mark.text]
  have trivia : skipTrivia 0 .blank ([] ++ (Mark.context.text ++ (name.toList ++ []))) =
      .ok ⟨0, false⟩ := skipTrivia_solid 0 (by decide) (by simp)
  obtain ⟨ctx, dot, id, lexes, isCtx, _, isDot, isId⟩ := @Lexes.context [] false
    (!beginsWith ['0', 'x'] (inContext name).toList) 0 none [] [] _ isName trivia rfl (.done rfl)
  rw [← text] at lexes
  rw [String.ofList_toList] at isId
  exact ⟨ctx, dot, id, tokenize_eq_ok.mpr lexes, isCtx, isDot, isId⟩

namespace Phrases

variable {ctx dot id : Token}

theorem readExpression_context (n) (isCtx : ctx.Is .word "_ctx" false)
    (isDot : dot.Is .punctuator "." false) (isId : id.Is .word text false) (stop) :
    (phrases (n + 1)).readExpression ⟨[ctx, dot, id], stop⟩ =
      .ok (contextAt ctx.start, ⟨[], stop⟩) := by
  have read : (phrases (n + 1)).readAssignment ⟨[ctx, dot, id], stop⟩ =
      .ok (contextAt ctx.start, ⟨[], stop⟩) :=
    readsContext n ctx dot id false text [] stop isCtx isDot isId rfl
  rw [readExpression, Reader.bind_run read]
  rfl

/-- A statement that begins with no keyword, brace or semicolon is an expression. -/
theorem readStatement_expression {p : Phrases} {t : Token} (noEmpty : t.isPunctuator ";" = false)
    (noBlock : t.isPunctuator "\x7b" = false)
    (noWord : ∀ word ∈ ["return", "const", "let", "var", "if"], t.isWord word = false)
    (tokens stop) : p.readStatement ⟨t :: tokens, stop⟩ =
      (do let e ← p.readExpression; let _ ← Reader.eat ";"; return .expr e : Reader Stmt)
        ⟨t :: tokens, stop⟩ := by
  have noDeclaration : isDeclarationWord t = false := by
    simp only [Token.isWord] at noWord
    simp_all [isDeclarationWord]
  have skip : ∀ word ∈ ["return", "const", "let", "var", "if"],
      Reader.eatWord word ⟨t :: tokens, stop⟩ = .ok (false, ⟨t :: tokens, stop⟩) := by
    intro word member
    rw [Reader.eatWord_run, if_neg (by simp [noWord word member])]
  rw [readStatement, Reader.bind_run (Reader.eat_of_not noEmpty ..), if_neg (by simp),
    Reader.bind_run (Reader.eat_of_not noBlock ..), if_neg (by simp),
    Reader.bind_run (skip "return" (by simp)), if_neg (by simp), Reader.peek_bind,
    if_neg (by simp [noDeclaration]), Reader.bind_run (skip "if" (by simp)), if_neg (by simp)]

theorem readProgram_context (n) (isCtx : ctx.Is .word "_ctx" false)
    (isDot : dot.Is .punctuator "." false) (isId : id.Is .word text false) (stop) :
    (phrases (n + 1)).readProgram ⟨[ctx, dot, id], stop⟩ =
      .ok ([.expr (contextAt ctx.start)], ⟨[], stop⟩) := by
  have statement : (phrases (n + 1)).readStatement ⟨[ctx, dot, id], stop⟩ =
      .ok (.expr (contextAt ctx.start), ⟨[], stop⟩) := by
    rw [readStatement_expression (by simp [Token.isPunctuator, isCtx.kind])
      (by simp [Token.isPunctuator, isCtx.kind]) (by simp [Token.isWord, isCtx.text]),
      Reader.bind_run (readExpression_context n isCtx isDot isId stop)]
    rfl
  have atEnd : Reader.atEnd ⟨[ctx, dot, id], stop⟩ = .ok (false, ⟨[ctx, dot, id], stop⟩) := rfl
  rw [readProgram, Reader.bind_run atEnd, if_neg (by simp), Reader.bind_run statement]
  rfl

end Phrases

theorem uses_inContext (isName : IsName name.toList) (kind : mode ≠ .params) :
    ∃ u, uses mode (inContext name) = .ok u ∧ ∀ r ∈ u.refs, r.ident.name = "_ctx" := by
  obtain ⟨ctx, dot, id, lexed, isCtx, isDot, isId⟩ := tokenize_inContext isName
  cases mode with
  | expression =>
    have parsed : parseExpression (inContext name) = .ok (contextAt ctx.start) :=
      Phrases.readAll_ok.mpr
        ⟨_, _, lexed, Phrases.readExpression_context _ isCtx isDot isId _, rfl⟩
    refine ⟨(contextAt ctx.start).uses [], by rw [uses, parsed]; rfl, fun r member => ?_⟩
    obtain rfl := mem_singleton.mp member
    rfl
  | statements =>
    have parsed : parseStatements (inContext name) = .ok [.expr (contextAt ctx.start)] :=
      Phrases.readAll_ok.mpr ⟨_, _, lexed, Phrases.readProgram_context _ isCtx isDot isId _, rfl⟩
    refine ⟨programUses [.expr (contextAt ctx.start)], by rw [uses, parsed]; rfl, fun r member => ?_⟩
    obtain rfl := mem_singleton.mp member
    rfl
  | params => exact absurd rfl kind

/-! ## A site that covers its script -/

theorem coversAll_blank {front name} (covers : coversAll (front ++ (name ++ back)) r = true)
    (start : r.ident.start = bytes front) (stop : r.ident.stop = bytes front + bytes name) :
    (∀ c ∈ front, isBlank c = true) ∧ ∀ c ∈ back, isBlank c = true := by
  obtain ⟨⟨_, atStart⟩, atStop⟩ :
      (_ ∧ r.ident.start =
          bytes (front ++ (name ++ back)) - bytes (trimStart (front ++ (name ++ back)))) ∧
        r.ident.stop = bytes (trimEnd (front ++ (name ++ back))) := by
    simpa [coversAll] using covers
  generalize whole : front ++ (name ++ back) = cs at atStart atStop
  have leading : front ++ (name ++ back) = cs.takeWhile isBlank ++ trimStart cs := by
    rw [whole, trimStart, takeWhile_append_dropWhile]
  have trailing : (front ++ name) ++ back =
      trimEnd cs ++ (cs.reverse.takeWhile isBlank).reverse := by
    rw [append_assoc, whole, trimEnd_eq]
  have size := congrArg bytes leading
  rw [whole, bytes_append] at size
  obtain ⟨rfl, _⟩ := append_inj_of_bytes leading (by omega)
  obtain ⟨_, rfl⟩ := append_inj_of_bytes trailing (by rw [bytes_append]; omega)
  constructor
  · intro c member
    exact mem_takeWhile_imp member
  · intro c member
    exact mem_takeWhile_imp (mem_reverse.mp member)

theorem stops_of_blank (blank : ∀ c ∈ back, isBlank c = true) :
    back.head?.any isNamePart = false := by
  cases back with
  | nil => rfl
  | cons d back => exact isNamePart_of_isBlank (blank d mem_cons_self)

theorem tokenize_name (isName : IsName name.toList) (before : ∀ c ∈ front, isBlank c = true)
    (after : ∀ c ∈ back, isBlank c = true) :
    ∃ t, tokenize 0 (front ++ (name.toList ++ back)) = .ok [t] ∧ t.kind = .word ∧ t.text = name := by
  have leading := (Gap.of_blank before).skipTrivia (isName.solid back) 0
  exact ⟨_, tokenize_eq_ok.mpr (.word isName leading (stops_of_blank after)
    (.done (skipTrivia_end_eq_ok.mpr ⟨.of_blank after, rfl⟩))), rfl, String.ofList_toList⟩

section Name

variable {p : Phrases} {t : Token} (kind : t.kind = .word)
include kind

theorem eat_name (mark) : Reader.eat mark ⟨t :: rest, stop⟩ = .ok (false, ⟨t :: rest, stop⟩) :=
  Reader.eat_of_not (by simp [Token.isPunctuator, kind]) ..

theorem readTarget_name (free : isReservedWord t.text = false) :
    p.readTarget ⟨t :: rest, stop⟩ = .ok (.ident ⟨t.text, t.start, t.stop⟩, ⟨rest, stop⟩) := by
  have ident : Reader.ident ⟨t :: rest, stop⟩ = .ok (⟨t.text, t.start, t.stop⟩, ⟨rest, stop⟩) := by
    rw [Reader.ident_run, if_pos (by simp [kind, free])]
  rw [Phrases.readTarget, Reader.bind_run (eat_name kind _), if_neg (by simp),
    Reader.bind_run (eat_name kind _), if_neg (by simp), Reader.bind_run ident]
  rfl

theorem readParamList_single (read : p.readPattern ⟨t :: rest, stop⟩ = .ok (pattern, ⟨[], stop⟩)) :
    p.readParamList ⟨t :: rest, stop⟩ = .ok ([pattern], ⟨[], stop⟩) := by
  have param : p.readParam ⟨t :: rest, stop⟩ = .ok (pattern, ⟨[], stop⟩) := by
    rw [Phrases.readParam, Reader.bind_run (eat_name kind _), if_neg (by simp), read]
  have atEnd : Reader.atEnd ⟨t :: rest, stop⟩ = .ok (false, ⟨t :: rest, stop⟩) := rfl
  rw [Phrases.readParamList, Reader.bind_run atEnd, if_neg (by simp), Reader.bind_run param]
  rfl

theorem readParamList_name (free : isReservedWord t.text = false) :
    p.readParamList ⟨[t], stop⟩ = .ok ([.ident ⟨t.text, t.start, t.stop⟩], ⟨[], stop⟩) := by
  refine readParamList_single kind ?_
  rw [Phrases.readPattern, Reader.bind_run (readTarget_name kind free)]
  rfl

end Name

theorem not_coversAll_params {script} (used : uses .params script = .ok u)
    (sites : u.sites known = [r]) : coversAll script.toList r = false := by
  obtain ⟨tokens, -, words, sited⟩ := sites_words used known
  rw [sites] at sited words
  have free := (words r mem_cons_self).notReserved
  generalize split : script.toList = cs at sited
  cases sited with
  | @cons _ front back _ _ start stop name others =>
    cases whole : coversAll (front ++ (r.ident.name.toList ++ back)) r with
    | false => rfl
    | true =>
      obtain ⟨before, after⟩ := coversAll_blank whole (by omega) (by omega)
      obtain ⟨t, single, kind, text⟩ := tokenize_name name before after
      obtain ⟨params, parsed, ok⟩ := ok_of_bind used
      obtain ⟨tokens', s, lexed', read, _⟩ := Phrases.readAll_ok.mp parsed
      rw [split, single] at lexed'
      obtain rfl := Except.ok.inj lexed'
      have named : (phrasesFor script).paramList ⟨[t], 0 + bytes script.toList⟩ = _ :=
        readParamList_name kind (text ▸ free)
      cases named.symm.trans read
      cases ok
      cases sites

/-! ## Qualifying the code of a qualified script -/

section

variable (dynamic : e.isStatic = false) (run : process e known true mode = .ok result)
include dynamic run

/-- The code of a qualified script is the context of its only name, or is put together at its
    sites. Blank scripts stay as they are. -/
theorem process_code :
    isBlankString e.content = true ∧ result.code = e.content ∨ ∃ u, uses mode e.content = .ok u ∧
      (∀ r ∈ u.sites known, IsName r.ident.name.toList) ∧
      ((∃ r, u.sites known = [r] ∧ coversAll e.content.toList r = true ∧
        result.code = inContext r.ident.name) ∨
      result.code = Part.codes (splice e.span.start 0 e.content.toList (u.sites known))) := by
  rcases process_cases run with ⟨kept, rfl⟩ | ⟨_, u, used, outcome⟩
  · simp only [dynamic] at kept
    exact .inl ⟨kept, by simp [Expression.code, code, dynamic]⟩
  · obtain ⟨tokens, lexed, words, -⟩ := sites_words used known
    have tidy := (tokenize_eq_ok.mp lexed).tidy
    refine .inr ⟨u, used, fun r member => ((words r member).isName tidy).1, ?_⟩
    rcases outcome with ⟨none, rfl⟩ | ⟨r, sole, whole, rfl⟩ | rfl
    · rw [none, codes_splice_nil]
      simp [Expression.code, code, withLevel, dynamic]
    · exact .inl ⟨r, sole, whole, rfl⟩
    · exact .inr rfl

theorem settled_process (clear : ¬ SiteBehindNumber known mode e.content) :
    isBlankString result.code = true ∨ Settled known mode result.code := by
  rcases process_code dynamic run with ⟨blank, code⟩ |
    ⟨u, used, names, ⟨r, sole, whole, code⟩ | code⟩
  · exact .inl (code ▸ blank)
  · have kind : mode ≠ .params := by
      rintro rfl
      simp [not_coversAll_params used sole] at whole
    obtain ⟨u', used', contexts⟩ := uses_inContext (names r (by simp [sole])) kind
    exact .inr (code ▸ ⟨u', used', sites_withContext fun r' member => .inl (contexts r' member)⟩)
  · exact .inr (code ▸ settled_splice used clear _)

end

theorem process_of_settled {f : Snippet} (settled : Settled known mode f.content) :
    ∃ level, process f (withContext known) true mode = .ok (.simple (f.withLevel level)) := by
  obtain ⟨u, used, none⟩ := settled
  rw [process]
  split
  · exact ⟨f.level, rfl⟩
  · refine ⟨u.level (withContext known), ?_⟩
    simp only [used, bind, Except.bind, none]
    rfl

/-- Qualifying is complete and stable. The code of a qualified script can be read again in the same
    mode and has no site once the context is in scope, and qualifying it changes nothing. Blank code
    is not read at all. Sites right behind a number are the exception. -/
theorem process_stable {e f : Snippet} {known : String → Bool} {mode : Mode} {result : Expression}
    (dynamic : e.isStatic = false) (run : process e known true mode = .ok result)
    (clear : ¬ SiteBehindNumber known mode e.content) (text : f.content = result.code) :
    (isBlankString result.code = true ∨
      ∃ u, uses mode result.code = .ok u ∧ u.sites (withContext known) = []) ∧
      ∃ level, process f (withContext known) true mode = .ok (.simple (f.withLevel level)) := by
  refine ⟨settled_process dynamic run clear, ?_⟩
  rcases settled_process dynamic run clear with blank | settled
  · refine ⟨f.level, ?_⟩
    rw [process, text, blank, Bool.or_true]
    rfl
  · rw [← text] at settled
    exact process_of_settled settled

/-- Whether a token is no number that ends at an offset, and no template literal. -/
def Token.endsElsewhere (p : Nat) (t : Token) : Bool :=
  match t.kind with
  | .template _ => false
  | .number => t.stop != p
  | _ => true

theorem not_afterNumber {tokens : List Token} (h : tokens.all (Token.endsElsewhere p) = true) :
    ¬ AfterNumber tokens p := by
  rintro (⟨member, kind⟩ | ⟨⟨member, bodies, kind, _⟩, _, _⟩)
  · simpa [Token.endsElsewhere, kind] using all_eq_true.mp h _ member
  · simpa [Token.endsElsewhere, kind] using all_eq_true.mp h _ member

theorem not_siteBehindNumber (places)
    (sites : (uses mode script).toOption.map (fun u => (u.sites known).map (·.ident.start)) =
      some places) (numbers : (tokenize 0 script.toList).toOption.map
      (fun tokens => places.all fun p => tokens.all (Token.endsElsewhere p)) = some true) :
    ¬ SiteBehindNumber known mode script := by
  rintro ⟨u, tokens, used, lexed, r, member, after⟩
  rw [used] at sites
  rw [lexed] at numbers
  have place : r.ident.start ∈ places := some.inj sites ▸ mem_map_of_mem member
  exact not_afterNumber (all_eq_true.mp (some.inj numbers) _ place) after

/-- A number before a name, a shorthand property and a parameter. -/
def arrowScript : Snippet :=
  new "\x7b a, b: c => 3 * a + c \x7d" false ⟨0, 25⟩

theorem arrowScript_stable :
    ∃ result, process arrowScript (fun _ => false) true .expression = .ok result ∧
      result.code = "\x7b a: _ctx.a, b: c => 3 * _ctx.a + c \x7d" ∧
      ¬ SiteBehindNumber (fun _ => false) .expression arrowScript.content ∧
      (isBlankString result.code = true ∨ ∃ u, uses .expression result.code = .ok u ∧
        u.sites (withContext fun _ => false) = []) ∧
      ∃ level, process (.new result.code false ⟨0, 37⟩) (withContext fun _ => false) true .expression =
        .ok (.simple ((Snippet.new result.code false ⟨0, 37⟩).withLevel level)) := by
  have clear : ¬ SiteBehindNumber (fun _ => false) .expression arrowScript.content :=
    not_siteBehindNumber [2, 17] (by decide +kernel) (by decide +kernel)
  have made : (process arrowScript (fun _ => false) true .expression).toOption.map Expression.code =
      some "\x7b a: _ctx.a, b: c => 3 * _ctx.a + c \x7d" := by
    decide +kernel
  obtain ⟨result, run, code⟩ := ok_of_toOption made
  exact ⟨result, run, code, clear, process_stable rfl run clear rfl⟩

/-- A statement that ends in a number, and one that begins with a name right behind it. -/
def numberThenName : Snippet :=
  new "3$x" false ⟨0, 3⟩

/-- The number takes the context that is written behind it, and the name gets another one. -/
theorem numberThenName_not_stable :
    ∃ result again, process numberThenName (fun _ => false) true .statements = .ok result ∧
      result.code = "3_ctx.$x" ∧
      process (.new result.code false ⟨0, 8⟩) (withContext fun _ => false) true .statements =
        .ok again ∧ again.code = "3_ctx._ctx.$x" := by
  have made : (process numberThenName (fun _ => false) true .statements).toOption.map
      Expression.code = some "3_ctx.$x" := by
    decide +kernel
  have remade : (process (.new "3_ctx.$x" false ⟨0, 8⟩) (withContext fun _ => false) true
      .statements).toOption.map Expression.code = some "3_ctx._ctx.$x" := by
    decide +kernel
  obtain ⟨result, run, code⟩ := ok_of_toOption made
  obtain ⟨again, rerun, recode⟩ := ok_of_toOption remade
  exact ⟨result, again, run, code, code ▸ rerun, recode⟩

end Script

end Stencil
