import Stencil.Proofs.Script.Expressions
import Stencil.Proofs.Script.Sites

/-! # Qualified scripts

The sites of a script are words of it that do not overlap. So qualifying a script cuts it at its
sites and only writes into it: without what was written, the parts are the script again.
-/

namespace Stencil.Script

open List Text Phrases Except Weaving Snippet

/-- The names of a phrase are words of its script; and the phrase after the script was written
    into. -/
theorem readAll_weave {α : Type} [Result α] (pick : Phrases → Reader α)
    (reads : ∀ {c p q}, Phrases.Followed c p q → c.tail = [] → Reads c True 1 (pick p) (pick q)) (m)
    {script a} (run : readAll (pick (phrasesFor script)) 0 script.toList = .ok a) :
    ∃ tokens, tokenize 0 script.toList = .ok tokens ∧ Covers tokens (Result.spots a) ∧
      (Clear m tokens → OwnedIn m 0 (bytes script.toList) (Result.spots a) →
        let script' := String.ofList (weave m 0 script.toList)
        readAll (pick (phrasesFor script')) 0 script'.toList =
          .ok (woven (.placing m 0 0 script.toList) a)) := by
  let fuel := (weave m 0 script.toList).length + 2
  let c : Copy := { placing m 0 0 script.toList with tail := [], fuel }
  obtain ⟨tokens, lexed, covers, follows⟩ :=
    Phrases.Reads.readAll (reads (followed _ c .nil) rfl) rfl trivial run
  refine ⟨tokens, lexed, covers, fun clear owned => ?_⟩
  rw [← Nat.zero_add (bytes script.toList)] at owned
  have read := follows 0 (places_placing m 0 0 _) (Nat.le_succ _) clear owned
  simp only [phrasesFor, String.toList_ofList]
  exact read

/-- What a script uses are words of it; and what it uses after it was written into. -/
theorem uses_weave (m) {mode script u} (run : uses mode script = .ok u) :
    ∃ tokens, tokenize 0 script.toList = .ok tokens ∧ Covers tokens u.spots ∧
      (Clear m tokens → OwnedIn m 0 (bytes script.toList) u.spots →
        ∃ u', uses mode (String.ofList (weave m 0 script.toList)) = .ok u' ∧
          RefsLike m u.refs u'.refs) := by
  let w := placing m 0 0 script.toList
  have tracked := (tracks_refs w).tracked
  cases mode with
  | expression =>
    obtain ⟨e, read, ok⟩ := ok_of_bind run
    cases ok
    obtain ⟨tokens, lexed, covers, follows⟩ := readAll_weave expression
      (fun h alone => h.expression.weaken fun _ => (Copy.endsStatement_of_nil alone).endsExpression) m
      read
    refine ⟨tokens, lexed, covers, fun clear owned => ⟨_, ?_, tracked.1 e _ _ rfl⟩⟩
    rw [uses, parseExpression, follows clear owned]
    rfl
  | statements =>
    obtain ⟨stmts, read, ok⟩ := ok_of_bind run
    cases ok
    obtain ⟨tokens, lexed, covers, follows⟩ :=
      readAll_weave program (fun h alone => h.program.weaken fun _ => alone) m read
    rw [programUses, Stmt.spots_usesAll _ []]
    refine ⟨tokens, lexed, covers, fun clear owned => ⟨_, ?_, tracked.2.2.2.1 stmts _ _ rfl⟩⟩
    rw [uses, parseStatements, follows clear owned, ← Stmt.declared_wovenAll w]
    rfl
  | params =>
    obtain ⟨params, read, ok⟩ := ok_of_bind run
    cases ok
    obtain ⟨tokens, lexed, covers, follows⟩ :=
      readAll_weave paramList (fun h alone => h.paramList.weaken fun _ => alone) m read
    rw [paramsUses, Pattern.spots_usesAll _ []]
    refine ⟨tokens, lexed, covers, fun clear owned => ⟨_, ?_, tracked.2.2.2.2.2.2.2.2.1 params _ _ rfl⟩⟩
    rw [uses, parseParams, follows clear owned, ← (names_woven w).2.1]
    rfl

/-! ## Sites as pieces of the script -/

/-- The sites stand in a text that begins at `pos`, each behind the one before. -/
inductive Sited : Nat → List Char → List Ref → Prop where
  | nil {pos cs} : Sited pos cs []
  | cons {pos front back r rest} (start : r.ident.start = pos + bytes front)
      (stop : r.ident.stop = r.ident.start + bytes r.ident.name.toList)
      (name : IsName r.ident.name.toList) (others : Sited r.ident.stop back rest) :
      Sited pos (front ++ (r.ident.name.toList ++ back)) (r :: rest)

theorem Piece.beyond (h : Piece pos (front ++ cs) start piece) (le : pos + bytes front ≤ start) :
    Piece (pos + bytes front) cs start piece := by
  obtain ⟨before, after, split, rfl⟩ := h
  rcases append_eq_append_iff.mp split with ⟨gap, rfl, eq⟩ | ⟨gap, rfl, eq⟩
  · exact ⟨gap, after, eq, by simp [Nat.add_assoc]⟩
  · have size := length_le_bytes gap
    obtain rfl : gap = [] := by
      rw [← length_eq_zero_iff]
      simp only [bytes_append] at le
      omega
    exact ⟨[], after, by simpa using eq.symm, by simp [bytes]⟩

theorem sited_of_pieces (pieces : ∀ r ∈ sites, Piece pos cs r.ident.start r.ident.name.toList)
    (names : ∀ r ∈ sites, IsName r.ident.name.toList ∧
      r.ident.stop = r.ident.start + bytes r.ident.name.toList)
    (order : sites.Pairwise fun a b => a.ident.stop ≤ b.ident.start) : Sited pos cs sites := by
  induction sites generalizing pos cs with
  | nil => exact .nil
  | cons r rest ih =>
    obtain ⟨behind, order⟩ := pairwise_cons.mp order
    obtain ⟨name, stop⟩ := names r mem_cons_self
    obtain ⟨front, back, rfl, start⟩ := pieces r mem_cons_self
    refine .cons start stop name (ih (fun s member => ?_) (fun s member => ?_) order)
    · have piece := pieces s (mem_cons_of_mem r member)
      have le := behind s member
      rw [← append_assoc] at piece
      have place : r.ident.stop = pos + bytes (front ++ r.ident.name.toList) := by
        rw [stop, start, bytes_append, Nat.add_assoc]
      rw [place] at le ⊢
      exact piece.beyond le
    · exact names s (mem_cons_of_mem r member)

/-- The sites of a script are words of it, in order and apart. -/
theorem sites_words (used : uses mode script = .ok u) (known : String → Bool) :
    ∃ tokens, tokenize 0 script.toList = .ok tokens ∧
      (∀ r ∈ u.sites known, Word tokens r.ident) ∧ Sited 0 script.toList (u.sites known) := by
  obtain ⟨tokens, lexed, covers, -⟩ := uses_weave (fun _ => none) used
  have lexes := tokenize_eq_ok.mp lexed
  have words : ∀ r ∈ u.sites known, Word tokens r.ident := fun r member =>
    covers.words r.spot (mem_map_of_mem (Uses.of_mem_sites member).1)
  have order := (u.sites_increasing known).imp_of_mem fun first second before =>
    (words _ first).apart (words _ second) lexes.tidy before
  exact ⟨tokens, lexed, words, sited_of_pieces (fun r member => (words r member).inText lexes)
    (fun r member => (words r member).isName lexes.tidy) order⟩

/-! ## The parts of a qualified script -/

/-- A stretch of a qualified script: text as it was written, or a name with its context. -/
inductive Fragment where
  | text (cs : List Char)
  | name (x : Spot) (s : Snippet)

namespace Fragment

/-- A shorthand property gets its name as a key. -/
def parts : Fragment → List Part
  | text cs => [.raw (String.ofList cs)]
  | name x s => (if x.shorthand then [.raw (x.ident.name ++ ": ")] else []) ++ [.expr (.simple s)]

/-- What the script has here: no key, and no context before the name. -/
def source : Fragment → List Char
  | text cs => cs
  | name _ s => s.content.toList.drop "_ctx.".length

def spot? : Fragment → Option Spot
  | text _ => none
  | name x _ => some x

end Fragment

/-- The name at offset `pos` of a snippet, with its context. -/
structure Qualified (e : Snippet) (pos : Nat) (x : Spot) (s : Snippet) : Prop where
  start : x.ident.start = pos
  nonempty : x.ident.start < x.ident.stop
  name : x.ident.name = s.source
  content : s.content = "_ctx." ++ s.source
  source : s.source.toList = slice x.ident.start x.ident.stop e.content.toList
  span : s.span = ⟨e.span.start + x.ident.start, e.span.start + x.ident.stop⟩
  outside : ∀ lo hi, Nameless 0 e.content.toList lo hi → x.ident.stop ≤ lo ∨ hi ≤ x.ident.start

/-- The fragments of a snippet from offset `pos` on. -/
inductive Laid (e : Snippet) : Nat → List Fragment → Prop where
  | nil {pos} : Laid e pos []
  | text {pos cs rest} (others : Laid e (pos + bytes cs) rest) : Laid e pos (.text cs :: rest)
  | name {pos x s rest} (qualified : Qualified e pos x s) (others : Laid e x.ident.stop rest) :
      Laid e pos (.name x s :: rest)

theorem Laid.apart (h : Laid e pos fragments) :
    (∀ x ∈ fragments.filterMap Fragment.spot?, pos ≤ x.ident.start) ∧
      (fragments.filterMap Fragment.spot?).Pairwise fun x y => x.ident.stop ≤ y.ident.start := by
  induction h with
  | nil => exact ⟨by simp, .nil⟩
  | text _ ih => exact ⟨fun x member => Nat.le_trans (Nat.le_add_right _ _) (ih.1 x member), ih.2⟩
  | @name pos x s rest qualified _ ih =>
    have start := qualified.start
    have nonempty := qualified.nonempty
    constructor
    · intro y member
      rcases mem_cons.mp member with rfl | later
      · exact start.ge
      · have := ih.1 y later
        omega
    · exact pairwise_cons.mpr ih

/-- The name at a site, with its context. -/
def siteSnippet (base : Nat) (r : Ref) : Snippet :=
  { new (inContext r.ident.name) false
      ⟨base + r.ident.start, base + r.ident.stop⟩ with source := r.ident.name }

/-- The fragments that a text at offset `pos` is cut into. -/
def fragments (base pos : Nat) (cs : List Char) : List Ref → List Fragment
  | [] => if cs.isEmpty then [] else [.text cs]
  | r :: rest =>
    let front := (takeBytes? (r.ident.start - pos) cs).getD []
    let back := (dropBytes? (r.ident.stop - pos) cs).getD []
    (if front.isEmpty then [] else [.text front]) ++
      .name r.spot (siteSnippet base r) :: fragments base r.ident.stop back rest

section

variable (base pos : Nat) (cs : List Char) (sites : List Ref)

theorem splice_eq :
    splice base pos cs sites = (fragments base pos cs sites).flatMap Fragment.parts := by
  induction sites generalizing pos cs with
  | nil =>
    rw [splice, fragments]
    split <;> rfl
  | cons r rest ih =>
    simp only [splice, fragments, ih, flatMap_append, flatMap_cons, Fragment.parts, append_assoc]
    split <;> rfl

theorem fragments_spots :
    (fragments base pos cs sites).filterMap Fragment.spot? = sites.map Ref.spot := by
  induction sites generalizing pos cs with
  | nil =>
    rw [fragments]
    split <;> rfl
  | cons r rest ih =>
    simp only [fragments, filterMap_append, filterMap_cons, ih]
    split <;> rfl

end

theorem fragments_cons {r : Ref} (rest) (start : r.ident.start = pos + bytes front)
    (stop : r.ident.stop = r.ident.start + bytes r.ident.name.toList) :
    fragments base pos (front ++ (r.ident.name.toList ++ back)) (r :: rest) =
      (if front.isEmpty then [] else [.text front]) ++
        .name r.spot (siteSnippet base r) :: fragments base r.ident.stop back rest := by
  have first : r.ident.start - pos = bytes front := by omega
  have second : r.ident.stop - pos = bytes (front ++ r.ident.name.toList) := by
    rw [bytes_append]
    omega
  simp only [fragments, first, second, takeBytes?_append]
  rw [← append_assoc, dropBytes?_append]
  rfl

theorem Sited.source (h : Sited pos cs sites) :
    (fragments base pos cs sites).flatMap Fragment.source = cs := by
  induction h with
  | @nil pos cs =>
    rw [fragments]
    split
    next empty => exact (List.isEmpty_iff.mp empty).symm
    · simp [Fragment.source]
  | @cons pos front back r rest start stop name others ih =>
    have bare : Fragment.source (.name r.spot (siteSnippet base r)) = r.ident.name.toList := by
      have five : "_ctx.".length = 5 := by decide
      simp [Fragment.source, siteSnippet, new, inContext, five]
    rw [fragments_cons rest start stop, flatMap_append, flatMap_cons, bare, ih]
    split
    next empty => rw [List.isEmpty_iff.mp empty, flatMap_nil]
    · simp [Fragment.source]

theorem Sited.laid {e : Snippet} (h : Sited pos cs sites) (before)
    (split : e.content.toList = before ++ cs) (place : pos = bytes before)
    (outside : ∀ r ∈ sites, ∀ lo hi, Nameless 0 e.content.toList lo hi →
      r.ident.stop ≤ lo ∨ hi ≤ r.ident.start) :
    Laid e pos (fragments e.span.start pos cs sites) := by
  induction h generalizing before with
  | nil =>
    rw [fragments]
    split
    · exact .nil
    · exact .text .nil
  | @cons pos front back r rest start stop name others ih =>
    have rest' : Laid e r.ident.stop (fragments e.span.start r.ident.stop back rest) := by
      refine ih (before ++ front ++ r.ident.name.toList) ?_ ?_ fun s member =>
        outside s (mem_cons_of_mem r member)
      · simp [split]
      · simp only [bytes_append]
        omega
    obtain ⟨c, more, cons, _⟩ := name
    have qualified : Qualified e (pos + bytes front) r.spot (siteSnippet e.span.start r) :=
      { start
        nonempty := by
          have := c.utf8Size_pos
          show r.ident.start < r.ident.stop
          rw [stop, cons, bytes]
          omega
        name := rfl
        content := rfl
        source := by
          have sliced := slice_append (before ++ front) r.ident.name.toList back
          rw [bytes_append, ← place, ← start, ← stop, append_assoc, ← split] at sliced
          exact sliced.symm
        span := rfl
        outside := outside r mem_cons_self }
    rw [fragments_cons rest start stop]
    split
    next empty =>
      obtain rfl := List.isEmpty_iff.mp empty
      exact .name (by simpa [bytes] using qualified) rest'
    · exact .text (.name qualified rest')

/-- The parts of a script that is cut at its sites are text as it was written, and its sites. -/
theorem sites_laid {e : Snippet} (used : uses mode e.content = .ok u) (known : String → Bool) :
    ∃ fragments, splice e.span.start 0 e.content.toList (u.sites known) =
        fragments.flatMap Fragment.parts ∧
      fragments.flatMap Fragment.source = e.content.toList ∧ Laid e 0 fragments ∧
      fragments.filterMap Fragment.spot? = (u.sites known).map Ref.spot := by
  obtain ⟨tokens, lexed, words, sited⟩ := sites_words used known
  have laid := sited.laid (e := e) [] rfl rfl fun r member lo hi nameless =>
    (words r member).not_nameless nameless lexed
  exact ⟨_, splice_eq .., sited.source, laid, fragments_spots ..⟩

/-- What comes of a snippet that is read: the snippet if it has no sites, the name at a site that
    covers it, or parts that are cut at the sites. -/
theorem process_cases {known : String → Bool} (run : process e known true mode = .ok result) :
    (e.isStatic || isBlankString e.content) = true ∧ result = .simple e ∨
      (e.isStatic || isBlankString e.content) = false ∧ ∃ u, uses mode e.content = .ok u ∧
        (u.sites known = [] ∧ result = .simple (e.withLevel (u.level known)) ∨
          (∃ r, u.sites known = [r] ∧ coversAll e.content.toList r = true ∧
            result = .simple { e with
              content := inContext r.ident.name, isStatic := false, level := u.level known }) ∨
          result = .compound ⟨splice e.span.start 0 e.content.toList (u.sites known),
            u.level known, e.source, e.span⟩) := by
  rw [process] at run
  split at run
  next kept => exact .inl ⟨kept, (ok.inj run).symm⟩
  next read =>
    obtain ⟨u, used, rest⟩ := ok_of_bind run
    refine .inr ⟨by simpa using read, u, used, ?_⟩
    cases sites : u.sites known with
    | nil =>
      simp only [sites] at rest
      exact .inl ⟨rfl, (ok.inj rest).symm⟩
    | cons r more =>
      simp only [sites] at rest
      split at rest
      next sole =>
        cases more with
        | cons => cases sole
        | nil =>
          simp only [soleSite?] at sole
          split at sole
          next covers =>
            obtain rfl := Option.some.inj sole
            exact .inr (.inl ⟨r, rfl, covers, (ok.inj rest).symm⟩)
          · cases sole
      · exact .inr (.inr (ok.inj rest).symm)

/-- Qualifying a script only writes into it: without the keys of shorthand properties and the
    contexts of names, the parts are the script. The names stand at the sites, in order and apart,
    and in no literal, comment or template text. -/
theorem process_only_inserts {e : Snippet} {known : String → Bool} {mode : Mode} {c : Compound}
    (run : process e known true mode = .ok (.compound c)) :
    ∃ u fragments, uses mode e.content = .ok u ∧ c.parts = fragments.flatMap Fragment.parts ∧
      fragments.flatMap Fragment.source = e.content.toList ∧ Laid e 0 fragments ∧
      fragments.filterMap Fragment.spot? = (u.sites known).map Ref.spot ∧
      (fragments.filterMap Fragment.spot?).Pairwise fun x y => x.ident.stop ≤ y.ident.start := by
  obtain ⟨u, used, parts⟩ : ∃ u, uses mode e.content = .ok u ∧
      c.parts = splice e.span.start 0 e.content.toList (u.sites known) := by
    rcases process_cases run with ⟨_, simple⟩ | ⟨_, u, used, outcome⟩
    · cases simple
    · rcases outcome with ⟨_, simple⟩ | ⟨_, _, _, simple⟩ | compound
      · cases simple
      · cases simple
      · cases compound
        exact ⟨u, used, rfl⟩
  obtain ⟨fragments, spliced, source, laid, spots⟩ := sites_laid used known
  exact ⟨u, fragments, used, parts.trans spliced, source, laid, spots, laid.apart.2⟩

def compound? : Expression → Option Compound
  | .compound c => some c
  | .simple _ => none

/-- A shorthand property, a template literal with a name in it, and a loop variable. -/
def shorthandScript : Snippet :=
  new "\x7b a, b: \x60a$\x7ba\x7d\x60 + i \x7d" false ⟨10, 29⟩

theorem shorthandScript_only_inserts :
    ∃ c, process shorthandScript (· == "i") true .expression = .ok (.compound c) ∧
      c.code = "\x7b a: _ctx.a, b: \x60a$\x7b_ctx.a\x7d\x60 + i \x7d" ∧
      ∃ u fragments, uses .expression shorthandScript.content = .ok u ∧
        c.parts = fragments.flatMap Fragment.parts ∧
        fragments.flatMap Fragment.source = shorthandScript.content.toList ∧
        Laid shorthandScript 0 fragments ∧
        fragments.filterMap Fragment.spot? = (u.sites (· == "i")).map Ref.spot ∧
        (fragments.filterMap Fragment.spot?).Pairwise fun x y => x.ident.stop ≤ y.ident.start := by
  have made : (process shorthandScript (· == "i") true .expression).toOption.map
      (fun e => (compound? e).map Compound.code) =
        some (some "\x7b a: _ctx.a, b: \x60a$\x7b_ctx.a\x7d\x60 + i \x7d") := by
    decide +kernel
  obtain ⟨result, run, code⟩ := ok_of_toOption made
  cases result with
  | simple s => cases code
  | compound c => exact ⟨c, run, Option.some.inj code, process_only_inserts run⟩

end Stencil.Script
