import Mathlib.Data.List.DropRight
import Stencil.Proofs.Script.Bracketed
import Stencil.Render.Print

/-! # Expressions where they are printed

An expression of a template is printed as it stands, without brackets of its own: as an argument of
a helper, or behind a key in an object. The printed list is read back item by item, so that every
expression is one argument or one value, unless its code has more than one operand or ends in a
comment.
-/

namespace Stencil

open List Script Text RenderNode Snippet

/-! ## The text of pieces -/

/-- Pieces that write a text, whatever stands before them. -/
def Spells (pieces : List Piece) (text : List Char) : Prop :=
  ∀ before, pieces.foldl Piece.write before = text.reverse ++ before

namespace Spells

theorem code (s) : Spells [.code s] s.toList :=
  fun _ => rfl

theorem helper (h) : Spells [.helper h] h.localName.toList :=
  fun _ => rfl

variable (h : Spells a x)
include h

theorem append (h' : Spells b y) : Spells (a ++ b) (x ++ y) := by
  intro before
  rw [foldl_append, h, h', reverse_append, append_assoc]

/-- A line break takes the spaces before it. -/
theorem newline (visible : ∃ d ∈ x, d ≠ ' ') (depth) :
    Spells (a ++ [.newline depth])
      (x.rdropWhile (· == ' ') ++ '\n' :: List.replicate (2 * depth) ' ') := by
  intro before
  have solid : (x.reverse.dropWhile (· == ' ')).isEmpty = false := by
    obtain ⟨d, member, other⟩ := visible
    rw [Bool.eq_false_iff, ne_eq, List.isEmpty_iff, dropWhile_eq_nil_iff]
    intro all
    simpa [other] using all d (mem_reverse.mpr member)
  rw [foldl_append, h]
  show List.replicate (2 * depth) ' ' ++ '\n' :: (x.reverse ++ before).dropWhile (· == ' ') = _
  rw [dropWhile_append, solid, if_neg (by simp), reverse_append, reverse_cons,
    reverse_replicate, List.rdropWhile, reverse_reverse]
  simp

theorem text_eq : Piece.text a = String.ofList x := by
  rw [Piece.text, h, append_nil, reverse_reverse]

theorem call (callee) :
    Spells (Piece.call callee a) (callee.localName.toList ++ '(' :: (x ++ [')'])) :=
  (helper callee).append ((code "(").append (h.append (code ")")))

end Spells

mutual
theorem Expression.spells : ∀ e : Expression, Spells e.layout e.code.toList
  | .simple s => .code s.code
  | .compound ⟨parts, _, _, _⟩ => Part.spells_all parts
theorem Part.spells : ∀ p : Part, Spells p.layout p.code.toList
  | .raw code => .code code
  | .expr e => e.spells
  | .text t => .code (quote t.content)
  | .interpolation content _ => by
      have call := content.spells.call .toDisplayString
      rw [Part.code]
      simpa [Part.layout] using call
  | .helper h => .helper h
theorem Part.spells_all : ∀ parts : List Part, Spells (Part.layouts parts) (Part.codes parts).toList
  | [] => fun _ => rfl
  | p :: ps => by
      rw [Part.codes, String.toList_append]
      exact p.spells.append (Part.spells_all ps)
end

section Join

variable {β : Type} {text : β → List Char}

theorem spells_join {gap} (glue : Spells separator (',' :: gap)) (nonempty : xs ≠ [])
    (each : ∀ x ∈ xs, Spells (f x) (text x))
    (last : ∀ x ∈ xs, Spells (f x ++ close) (cut (text x) ++ closeText)) :
    Spells (Piece.join separator (xs.map f) ++ close)
      (listText gap cut closeText (xs.map text)) := by
  induction xs with
  | nil => exact absurd rfl nonempty
  | cons x xs ih =>
    cases xs with
    | nil => exact last x mem_cons_self
    | cons y xs =>
      have others := ih (by simp) (fun z member => each z (mem_cons_of_mem x member))
        fun z member => last z (mem_cons_of_mem x member)
      have all := (each x mem_cons_self).append (glue.append others)
      simpa [Piece.join, listText] using all

end Join

theorem trims_rdropWhile : Trims (List.rdropWhile (· == ' ')) := by
  intro x
  refine ⟨x.rtakeWhile (· == ' '), (rdropWhile_append_rtakeWhile ..).symm, fun d member => ?_⟩
  simpa using mem_rtakeWhile_imp member

/-! ## Arguments -/

/-- The code of an expression, read alone, is the operand that stands in its place. -/
def Expression.ReadsAs (e : Expression) (operand : Expr) : Prop :=
  ∃ a o, parseExpression e.code = .ok a ∧ operand = moved o a

/-- The code of an expression is one operand. -/
def Expression.IsOperand (e : Expression) : Prop :=
  ∃ a, Operand e.code a

variable {e : Expression}

theorem Expression.IsOperand.isItem (h : e.IsOperand) :
    IsItem Phrases.readAssignment false e.code.toList e.ReadsAs := by
  obtain ⟨a, operand⟩ := h
  intro _ _ _ _ _ _ _ _ _ _ regex isGap split trailing isBlank stop place behind
  obtain ⟨tokens, newline, b, lexes, entry, o, moved⟩ :=
    operand.isItem regex isGap split trailing isBlank stop place behind
  exact ⟨tokens, newline, b, lexes, entry, a, o, operand.reads, moved⟩

theorem RenderNode.layouts_expr (depth) (es : List Expression) :
    layouts depth (es.map .expr) = es.map Expression.layout := by
  induction es with
  | nil => rfl
  | cons e es ih => rw [map_cons, layouts, layout, ih, map_cons]

/-- The arguments of a helper are read as the operands that they are. -/
theorem parseExpression_layout_call {callee : Helper} {args}
    (isName : ∀ c ∈ callee.name.toList, isNamePart c = true) (nonempty : args ≠ [])
    (operands : ∀ e ∈ args, e.IsOperand) (depth) :
    ∃ read, parseExpression (Piece.text ((call callee (args.map .expr)).layout depth)) =
      .ok (.call (.ident ⟨callee.localName, 0, bytes callee.localName.toList⟩) read) ∧
      List.Forall₂ Expression.ReadsAs args read := by
  have listed : Spells (Piece.join [.code ", "] (args.map Expression.layout) ++ [.code ")"])
      (listText [' '] id [')'] (args.map (·.code.toList))) :=
    spells_join (.code ", ") nonempty (fun e _ => e.spells) fun e _ => e.spells.append (.code ")")
  have spells := (Spells.helper callee).append ((Spells.code "(").append listed)
  have name : callee.localName.toList = '_' :: callee.name.toList := by
    rw [Helper.localName, String.toList_append]
    rfl
  obtain ⟨read, parsed, all⟩ := parseExpression_call isName nonempty
    fun e member => (operands e member).isItem.argument
  refine ⟨read, ?_, all⟩
  rw [← name, String.ofList_toList] at parsed
  rw [layout, layouts_expr]
  exact (congrArg parseExpression (spells.text_eq.trans (by rw [name]; rfl))).trans parsed

/-! ## Properties -/

def Expression.keyCode (key : Expression) : String :=
  match key.static? with
  | some name => if isPlainKey name then name else quote name
  | none => "[" ++ key.code ++ "]"

theorem Expression.spells_key (key) : Spells (layoutKey key) key.keyCode.toList := by
  rw [layoutKey, Expression.keyCode]
  cases key.static? with
  | some name => exact .code _
  | none =>
    have spells := (Spells.code "[").append (key.spells.append (.code "]"))
    simpa using spells

/-- A static key is read as a name, any other as the operand that it is. -/
def Expression.ReadsAsKey (key : Expression) (read : PropKey) : Prop :=
  match key.static? with
  | some _ => read = .named
  | none => ∃ operand, read = .computed operand ∧ key.ReadsAs operand

/-- Whether an expression can be a key. -/
def Expression.IsKey (key : Expression) : Prop :=
  key.isStatic = true ∨ key.IsOperand

theorem Expression.IsKey.isKey {key : Expression} (h : key.IsKey) :
    Script.IsKey key.keyCode.toList key.ReadsAsKey := by
  unfold Expression.keyCode Expression.ReadsAsKey
  cases static : key.static? with
  | some name =>
    show Script.IsKey (String.toList (if isPlainKey name then name else quote name)) _
    split
    next plain => exact isKey_plain plain
    · exact isKey_quoted name
  | none =>
    have operand : key.IsOperand := h.resolve_left fun isStatic => by
      cases key with
      | simple s => simp_all [Expression.static?, Expression.isStatic]
      | compound c => cases isStatic
    have computed := isKey_computed operand.isItem
    simpa using computed

def keyed (p : Expression × Expression) : Property :=
  ⟨p.1, .expr p.2⟩

/-- A property is read as a key and the operand that its value is. -/
def ReadsAsProperty (p : Expression × Expression) (read : ObjectProp) : Prop :=
  ∃ key operand, read = .keyValue key operand ∧ p.1.ReadsAsKey key ∧ p.2.ReadsAs operand

def propertyText (p : Expression × Expression) : List Char :=
  p.1.keyCode.toList ++ [':', ' '] ++ p.2.code.toList

def propertyPieces (p : Expression × Expression) : List Piece :=
  layoutKey p.1 ++ .code ": " :: p.2.layout

theorem layoutProperties_keyed (depth) (ps : List (Expression × Expression)) :
    layoutProperties depth (ps.map keyed) = ps.map propertyPieces := by
  induction ps with
  | nil => rfl
  | cons p ps ih =>
    rw [map_cons, keyed, layoutProperties, layout, ih, map_cons, propertyPieces]

theorem spells_property (p) : Spells (propertyPieces p) (propertyText p) := by
  have spells := p.1.spells_key.append ((Spells.code ": ").append p.2.spells)
  simpa [propertyPieces, propertyText] using spells

theorem visible_property : ∃ d ∈ propertyText p, d ≠ ' ' :=
  ⟨':', by simp [propertyText], by decide⟩

theorem isItem_property {p : Expression × Expression} (key : p.1.IsKey) (value : p.2.IsOperand) :
    IsItem Phrases.readProperty true (propertyText p) (ReadsAsProperty p) := by
  obtain ⟨a, operand⟩ := value
  exact key.isKey.property (Expression.IsOperand.isItem ⟨a, operand⟩) operand.visible

/-- A line break and the spaces at the begin of the next line. -/
def lineBreak (depth : Nat) : List Char :=
  '\n' :: List.replicate (2 * depth) ' '

theorem isBlank_lineBreak (depth) : ∀ d ∈ lineBreak depth, d = ' ' ∨ d = '\n' := by
  intro d member
  rcases mem_cons.mp member with rfl | member
  · exact .inr rfl
  · exact .inl (eq_of_mem_replicate member)

theorem spells_break {s : String} (depth) (solid : s.toList.rdropWhile (· == ' ') = s.toList)
    (visible : ∃ d ∈ s.toList, d ≠ ' ') :
    Spells [.code s, .newline depth] (s.toList ++ lineBreak depth) := by
  have spells := (Spells.code s).newline visible depth
  rwa [solid] at spells

section

variable {ps : List (Expression × Expression)} (nonempty : ps ≠ [])
include nonempty

/-- An object is printed on one line or with a line for each property. -/
theorem spells_object (depth) :
    ∃ lead gap cut blanks, Spells ((object (ps.map keyed)).layout depth)
        ('\x7b' :: (lead ++ listText gap cut (blanks ++ ['\x7d']) (ps.map propertyText))) ∧
      (∀ d ∈ lead, d = ' ' ∨ d = '\n') ∧ (∀ d ∈ gap, d = ' ' ∨ d = '\n') ∧
      (∀ d ∈ blanks, d = ' ' ∨ d = '\n') ∧ Trims cut := by
  have some : (ps.map keyed).isEmpty = false := by simpa using nonempty
  rw [layout, some, if_neg (by simp)]
  split
  · refine ⟨lineBreak (depth + 1), lineBreak (depth + 1), List.rdropWhile (· == ' '),
      lineBreak depth, ?_, isBlank_lineBreak _, isBlank_lineBreak _, isBlank_lineBreak _,
      trims_rdropWhile⟩
    have listed : Spells (Piece.join [.code ",", .newline (depth + 1)] (ps.map propertyPieces) ++
        [.newline depth, .code "\x7d"]) (listText (lineBreak (depth + 1))
          (List.rdropWhile (· == ' ')) (lineBreak depth ++ ['\x7d']) (ps.map propertyText)) := by
      refine spells_join (spells_break (depth + 1) rfl ⟨',', by simp⟩) nonempty
        (fun p _ => spells_property p) fun p _ => ?_
      have spells := ((spells_property p).newline visible_property depth).append (.code "\x7d")
      simpa [lineBreak] using spells
    rw [layoutProperties_keyed]
    exact (spells_break (depth + 1) rfl ⟨'\x7b', by simp⟩).append listed
  · refine ⟨[' '], [' '], id, [' '], ?_, by simp, by simp, by simp, trims_id⟩
    have listed : Spells (Piece.join [.code ", "] (ps.map propertyPieces) ++ [.code " \x7d"])
        (listText [' '] id [' ', '\x7d'] (ps.map propertyText)) :=
      spells_join (.code ", ") nonempty (fun p _ => spells_property p) fun p _ =>
        (spells_property p).append (.code " \x7d")
    rw [layoutProperties_keyed]
    exact (Spells.code "\x7b ").append listed

/-- The properties of an object are read as the operands that their values are. -/
theorem parseExpression_layout_object (keys : ∀ p ∈ ps, p.1.IsKey)
    (values : ∀ p ∈ ps, p.2.IsOperand) (depth) :
    ∃ read, parseExpression (Piece.text ((object (ps.map keyed)).layout depth)) =
      .ok (.object read) ∧ List.Forall₂ ReadsAsProperty ps read := by
  obtain ⟨lead, gap, cut, blanks, spells, isLead, isGap, isBlank, trims⟩ :=
    spells_object nonempty depth
  rw [spells.text_eq]
  exact parseExpression_object nonempty isLead isGap isBlank trims
    fun p member => isItem_property (keys p member) (values p member)

end

/-! ## Expressions of a template -/

theorem forall₂_split {α β : Type} {R : α → β → Prop} {before after x ys}
    (h : List.Forall₂ R (before ++ x :: after) ys) :
    ∃ earlier y later, ys = earlier ++ y :: later ∧ List.Forall₂ R before earlier ∧ R x y ∧
      List.Forall₂ R after later := by
  induction before generalizing ys with
  | nil =>
    cases h with
    | cons first others => exact ⟨[], _, _, rfl, .nil, first, others⟩
  | cons z before ih =>
    cases h with
    | cons first others =>
      obtain ⟨earlier, y, later, rfl, front, here, back⟩ := ih others
      exact ⟨_ :: earlier, y, later, rfl, .cons first front, here, back⟩

/-- Wherever the expression is printed among others, it is read as the operand `a`, and what stands
    before and behind it as what it is. -/
structure Expression.StandsAs (e : Expression) (a : Expr) : Prop where
  reads : parseExpression e.code = .ok a
  interpolated : ∀ depth span, ∃ o,
    parseExpression (Piece.text ((interpolation e span).layout depth)) =
      .ok (.call (.ident ⟨"_toDisplayString", 0, 16⟩) [moved o a])
  argument : ∀ depth (callee : Helper) (before after : List Expression),
    (∀ c ∈ callee.name.toList, isNamePart c = true) → (∀ x ∈ before ++ after, x.IsOperand) →
    ∃ earlier o later,
      parseExpression (Piece.text
          ((call callee ((before ++ e :: after).map .expr)).layout depth)) =
        .ok (.call (.ident ⟨callee.localName, 0, bytes callee.localName.toList⟩)
          (earlier ++ moved o a :: later)) ∧
      List.Forall₂ Expression.ReadsAs before earlier ∧ List.Forall₂ Expression.ReadsAs after later
  value : ∀ depth (key : Expression) (before after : List (Expression × Expression)), key.IsKey →
    (∀ p ∈ before ++ after, p.1.IsKey ∧ p.2.IsOperand) →
    ∃ earlier k o later,
      parseExpression (Piece.text
          ((object ((before ++ (key, e) :: after).map keyed)).layout depth)) =
        .ok (.object (earlier ++ .keyValue k (moved o a) :: later)) ∧
      key.ReadsAsKey k ∧ List.Forall₂ ReadsAsProperty before earlier ∧
      List.Forall₂ ReadsAsProperty after later

theorem Expression.ReadsAs.eq_moved (h : e.ReadsAs operand)
    (reads : parseExpression e.code = .ok a) : ∃ o, operand = moved o a := by
  obtain ⟨b, o, reads', same⟩ := h
  rw [reads] at reads'
  cases reads'
  exact ⟨o, same⟩

theorem Expression.standsAs {a} (h : Operand e.code a) : e.StandsAs a := by
  have operand : e.IsOperand := ⟨a, h⟩
  refine ⟨h.reads, fun depth span => ?_, fun depth callee before after isName others => ?_,
    fun depth key before after isKey others => ?_⟩
  · obtain ⟨read, parsed, all⟩ := @parseExpression_layout_call .toDisplayString [e]
      (forall_of_all (by decide)) (by simp) (by simpa using operand) depth
    obtain ⟨_, _, here, none, rfl⟩ := forall₂_cons_left_iff.mp all
    cases none
    obtain ⟨o, rfl⟩ := here.eq_moved h.reads
    exact ⟨o, parsed⟩
  · obtain ⟨read, parsed, all⟩ :=
      @parseExpression_layout_call callee (before ++ e :: after) isName (by simp) (by grind) depth
    obtain ⟨earlier, y, later, rfl, front, here, back⟩ := forall₂_split all
    obtain ⟨o, rfl⟩ := here.eq_moved h.reads
    exact ⟨earlier, o, later, parsed, front, back⟩
  · have keyed : ∀ p ∈ before ++ (key, e) :: after, p.1.IsKey ∧ p.2.IsOperand := by
      rintro p member
      rcases mem_append.mp member with _ | _ | _ <;> grind
    obtain ⟨read, parsed, all⟩ := parseExpression_layout_object (by simp)
      (fun p member => (keyed p member).1) (fun p member => (keyed p member).2) depth
    obtain ⟨earlier, y, later, rfl, front, ⟨k, v, rfl, readsKey, here⟩, back⟩ := forall₂_split all
    obtain ⟨o, rfl⟩ := here.eq_moved h.reads
    exact ⟨earlier, k, o, later, parsed, readsKey, front, back⟩

/-- The code of a processed script can be read, unless it is blank. It reads as the script did, or
    has no site left. -/
theorem reads_process {known : String → Bool} (run : process s known qualify .expression = .ok e)
    (clear : qualify = true → ¬ SiteBehindNumber known .expression s.content)
    (visible : isBlankString e.code = false) : ∃ a, parseExpression e.code = .ok a ∧
      (s.isStatic = false → qualify = false → parseExpression s.content = .ok a) ∧
      (s.isStatic = false → qualify = true → (a.uses []).sites (withContext known) = []) := by
  have read : ∀ {script : String} {u : Uses}, uses .expression script = .ok u →
      ∃ a, parseExpression script = .ok a ∧ a.uses [] = u := by
    intro script u used
    obtain ⟨a, parsed, same⟩ := ok_of_bind used
    exact ⟨a, parsed, Except.ok.inj same⟩
  cases static : s.isStatic with
  | true =>
    rw [process, static] at run
    cases run
    rw [Expression.code, code, if_pos static]
    exact ⟨_, (operand_quote s.content).reads, by simp, by simp⟩
  | false =>
    cases qualify with
    | true =>
      rcases settled_process static run (clear rfl) with blank | ⟨u, used, none⟩
      · rw [blank] at visible
        cases visible
      · obtain ⟨a, parsed, rfl⟩ := read used
        exact ⟨a, parsed, by simp, fun _ _ => none⟩
    | false =>
      rw [process] at run
      split at run
      next kept =>
        cases run
        rw [static, Bool.false_or] at kept
        rw [Expression.code, code, static, if_neg (by simp), kept] at visible
        cases visible
      · obtain ⟨u, used, rest⟩ := ok_of_bind run
        cases rest
        obtain ⟨a, parsed, _⟩ := read used
        rw [withLevel, static]
        exact ⟨a, parsed, fun _ _ => parsed, by simp⟩

/-- An expression of a template is one operand wherever it is printed: between the brackets of an
    interpolation, among the arguments of a helper and behind the key of a property. The operand is
    the expression itself, with its names taken from the context if they are qualified. The code
    must not be blank, be a sequence or end in a line comment, and numbers in it must end where they
    do alone: no site stands right behind one, and no sign behind an `e` of a script that begins
    with `0x`. -/
theorem process_standsAs {s : Snippet} {known : String → Bool} {qualify : Bool} {e : Expression}
    (run : process s known qualify .expression = .ok e)
    (clear : qualify = true → ¬ SiteBehindNumber known .expression s.content)
    (visible : isBlankString e.code = false)
    (single : ∀ a, parseExpression e.code = .ok a → a.isSequence = false)
    (closed : endsInLineComment e.code.toList = false)
    (steady : tokensFrom true none 0 e.code.toList = tokenize 0 e.code.toList) : ∃ a, e.StandsAs a ∧
      (s.isStatic = false → qualify = false → parseExpression s.content = .ok a) ∧
      (s.isStatic = false → qualify = true → (a.uses []).sites (withContext known) = []) := by
  obtain ⟨a, reads, source, settled⟩ := reads_process run clear visible
  exact ⟨a, Expression.standsAs ⟨reads, single a reads, closed, steady⟩, source, settled⟩

/-- An arrow function between the parts of a conditional. -/
def branchScript : Snippet :=
  new "a ? b => b + 1 : c" false ⟨0, 18⟩

theorem branchScript_standsAs :
    ∃ e a, process branchScript (fun _ => false) true .expression = .ok e ∧
      e.code = "_ctx.a ? b => b + 1 : _ctx.c" ∧
      ¬ SiteBehindNumber (fun _ => false) .expression branchScript.content ∧
      isBlankString e.code = false ∧ a.isSequence = false ∧
      endsInLineComment e.code.toList = false ∧
      tokensFrom true none 0 e.code.toList = tokenize 0 e.code.toList ∧ e.StandsAs a ∧
      (a.uses []).sites (withContext fun _ => false) = [] := by
  have clear : ¬ SiteBehindNumber (fun _ => false) .expression branchScript.content :=
    not_siteBehindNumber [0, 17] (by decide +kernel) (by decide +kernel)
  have made : (process branchScript (fun _ => false) true .expression).toOption.map
      Expression.code = some "_ctx.a ? b => b + 1 : _ctx.c" := by
    decide +kernel
  have parsed : (parseExpression "_ctx.a ? b => b + 1 : _ctx.c").toOption.map Expr.isSequence =
      some false := by
    decide +kernel
  have closed : endsInLineComment "_ctx.a ? b => b + 1 : _ctx.c".toList = false := by
    decide +kernel
  obtain ⟨e, run, code⟩ := ok_of_toOption made
  have single : ∀ a, parseExpression e.code = .ok a → a.isSequence = false := by
    intro a reads
    rw [code] at reads
    rw [reads] at parsed
    exact Option.some.inj parsed
  have visible : isBlankString e.code = false := by rw [code]; decide +kernel
  rw [← code] at closed
  have steady : tokensFrom true none 0 e.code.toList = tokenize 0 e.code.toList := by rw [code]; rfl
  obtain ⟨a, stands, _, settled⟩ :=
    process_standsAs run (fun _ => clear) visible single closed steady
  exact ⟨e, a, run, code, clear, visible, single a stands.reads, closed, steady, stands,
    settled rfl rfl⟩

def commaScript : Snippet :=
  new "a, b" false ⟨0, 4⟩

def argumentCount : Expr → Nat
  | .call _ args => args.length
  | _ => 0

/-- A sequence is printed without brackets of its own, and so its operands are two arguments. -/
theorem commaScript_not_standsAs :
    ∃ e call, process commaScript (fun _ => false) true .expression = .ok e ∧
      e.code = "_ctx.a, _ctx.b" ∧
      parseExpression (Piece.text ((RenderNode.interpolation e ⟨0, 0⟩).layout 0)) = .ok call ∧
      argumentCount call = 2 ∧ ¬ ∃ a, e.StandsAs a := by
  have made : (process commaScript (fun _ => false) true .expression).toOption.map Expression.code =
      some "_ctx.a, _ctx.b" := by
    decide +kernel
  have parsed : (parseExpression "_toDisplayString(_ctx.a, _ctx.b)").toOption.map argumentCount =
      some 2 := by
    decide +kernel
  obtain ⟨e, run, code⟩ := ok_of_toOption made
  have printed : Piece.text ((RenderNode.interpolation e ⟨0, 0⟩).layout 0) =
      "_toDisplayString(_ctx.a, _ctx.b)" := by
    rw [RenderNode.layout, (e.spells.call .toDisplayString).text_eq, code]
    rfl
  rw [← printed] at parsed
  obtain ⟨call, reads, two⟩ := ok_of_toOption parsed
  refine ⟨e, call, run, code, reads, two, ?_⟩
  rintro ⟨a, stands⟩
  obtain ⟨o, one⟩ := stands.interpolated 0 ⟨0, 0⟩
  rw [reads] at one
  cases one
  cases two

end Stencil
