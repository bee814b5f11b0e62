import Stencil.Proofs.Lower.Compiled
import Stencil.Proofs.Script.Rewriting

/-! # Where the names of the render context stand

A script keeps the span that it has in the template, and the names that are qualified in it get spans
of their own. These cover the names in the template, provided that the reader took the script as it
stands there.
-/

namespace Stencil

open List Text Expression Snippet Nat

/-- A name that was qualified stands at its span. -/
def Snippet.Located (source : String) (s : Snippet) : Prop :=
  s.isStatic = false → s.content ≠ s.source → s.span.slice source = s.source

theorem Expression.PieceOf.covers (whole : Script.Piece 0 text start cs)
    (inside : Script.Piece 0 cs offset piece) :
    Span.Covers 0 text piece ⟨start + offset, start + offset + bytes piece⟩ := by
  obtain ⟨front, after, split, rfl⟩ := inside
  exact ⟨whole.trans ⟨front, after, split, by simp⟩, rfl⟩

namespace Script

theorem snippets_splice :
    ∀ part ∈ splice base pos cs sites, ∀ s ∈ part.snippets, ∃ r ∈ sites, s = siteSnippet base r := by
  induction sites generalizing pos cs with
  | nil =>
    rw [splice]
    split <;> simp [Part.snippets]
  | cons r rest ih =>
    simp only [splice, forall_mem_append, forall_mem_cons]
    refine ⟨⟨?_, ?_⟩, ?_, fun part member s inside => ?_⟩
    · split <;> simp [Part.snippets]
    · split <;> simp [Part.snippets]
    · simp [sitePart, siteSnippet, Part.snippets, snippets]
    · obtain ⟨r', member', same⟩ := ih part member s inside
      exact ⟨r', mem_cons_of_mem r member', same⟩

/-- The names in a script that is read stand at their spans. -/
theorem located_process {source : String} {known : String → Bool}
    (verbatim : (simple s).PieceOf 0 source.toList) (run : process s known qualify mode = .ok e) :
    ∀ t ∈ e.snippets, t.Located source := by
  obtain ⟨start, cs, same, whole⟩ := verbatim
  obtain rfl := simple.inj same
  have kept : ∀ level, ∀ t ∈ (simple ((new (String.ofList cs) false
      ⟨start, start + bytes cs⟩).withLevel level)).snippets, t.Located source := by
    rintro level _ (_ | ⟨_, ⟨⟩⟩)
    exact fun _ other => absurd rfl other
  cases qualify with
  | false =>
    rw [process] at run
    split at run
    · cases run
      exact kept .dynamic
    · obtain ⟨u, -, rest⟩ := ok_of_bind run
      cases rest
      exact kept _
  | true =>
    rcases process_cases run with ⟨_, rfl⟩ | ⟨_, u, used, ⟨_, rfl⟩ | ⟨r, _, _, rfl⟩ | rfl⟩
    · exact kept .dynamic
    · exact kept _
    · rintro _ (_ | ⟨_, ⟨⟩⟩) - -
      simpa [new] using (Span.Covers.mk whole rfl).slice
    · obtain ⟨tokens, lexed, words, -⟩ := sites_words used known
      have lexes := tokenize_eq_ok.mp lexed
      rw [snippets_compound, forall_mem_flatMap]
      rintro part member t inside - -
      obtain ⟨r, isSite, rfl⟩ := snippets_splice part member t inside
      have piece := (words r isSite).inText lexes
      have stop := ((words r isSite).isName lexes.tidy).2
      simp only [new, String.toList_ofList] at piece
      have covers := Expression.PieceOf.covers whole piece
      rw [add_assoc, ← stop] at covers
      simpa [siteSnippet, new] using covers.slice

end Script

/-- The parts of a loop stand in the script of the loop. -/
theorem LoopHead.verbatim {text} {e : Expression} {head} (verbatim : e.PieceOf 0 text)
    (read : read? e = some head) : ∀ part ∈ head.source :: head.aliases, part.PieceOf 0 text := by
  intro part isPart
  obtain ⟨start, cs, rfl, whole⟩ := verbatim
  obtain ⟨start', cs', rfl, inside⟩ := pieceOf_read? read part isPart
  exact ⟨start', cs', rfl, whole.trans (by simpa [Expression.source, Expression.span, snippet, new] using inside)⟩

/-! ## Templates -/

theorem verbatim_scripts {o source} (plain : ∀ e ∈ (readTemplate o source).1.scripts,
      decode (e.span.slice source).toList = (e.span.slice source).toList) :
    ∀ e ∈ (readTemplate o source).1.scripts, e.PieceOf 0 source.toList := by
  intro e member
  obtain ⟨s, rfl, new, raw, covers, content⟩ := stands_readTemplate o source e member
  have content : s.content.toList = raw := by
    have plain := plain _ member
    simp only [Expression.span, covers.slice, String.toList_ofList] at plain
    rcases content with same | same
    · exact same
    · rw [same, plain]
  refine ⟨s.span.start, raw, ?_, covers.start⟩
  rw [← content, String.ofList_toList, content, ← covers.stop, snippet, ← new]

def Root.locatedSources (root : Root) (o : Options) (source : String) : Sources where
  options := o
  elements := root.elements
  Written e := e.PieceOf 0 source.toList
  snippet s := s.Located source

theorem Root.sound_locatedSources (root : Root) {o : Options} (source)
    (handlers : ∀ name rule, o.rule? name = some rule → rule.handles → name = "on") :
    (root.locatedSources o source).Sound where
  static isStatic dynamic := by simp [isStatic] at dynamic
  plain same _ other := absurd same other
  written := by
    rintro _ ⟨start, cs, rfl, -⟩ _ (_ | ⟨_, ⟨⟩⟩) _ other
    exact absurd rfl other
  read verbatim run := Script.located_process verbatim run
  unread := by
    rintro s ⟨start, cs, same, -⟩ _ other
    obtain rfl := simple.inj same
    exact absurd rfl other
  loop verbatim read := LoopHead.verbatim verbatim read _ mem_cons_self
  handlers found handles := .inl (handlers _ _ found handles)

/-- If no script of a template has a character reference that is replaced, every name that lowering
    qualifies stands at its span in the template: in the code, and in all that a script of the
    template or a part of a loop can be read as. -/
theorem lower_readTemplate_located (o o' : Options) (source : String)
    (plain : ∀ e ∈ (readTemplate o source).1.scripts,
      decode (e.span.slice source).toList = (e.span.slice source).toList)
    (handlers : ∀ name rule, o'.rule? name = some rule → rule.handles → name = "on") :
    (∀ code ∈ ((readTemplate o source).1.lower o').1.code, ∀ e ∈ code.collect RenderNode.exprs,
      ∀ s ∈ e.snippets, s.Located source) ∧
    ∀ e ∈ (readTemplate o source).1.scripts, ∀ s,
      (e = .simple s ∨ ∃ head, LoopHead.read? e = some head ∧ .simple s ∈ head.source :: head.aliases) →
      ∀ known qualify mode result, Script.process s known qualify mode = .ok result →
        ∀ t ∈ result.snippets, t.Located source := by
  have verbatim := verbatim_scripts plain
  constructor
  · intro code isCode e inside s member
    obtain ⟨c, -, -, held⟩ := Sources.held_lower
      ((readTemplate o source).1.sound_locatedSources source handlers)
      (Sources.given_readTemplate o source (fun _ => id) verbatim)
    change Sources.Held _ c (RenderNode.sum ((readTemplate o source).1.lower o').1.code.toList) at held
    rw [isCode] at held
    obtain ⟨node, within, isExpr⟩ := (RenderNode.mem_collect code).mp inside
    have own : .snippet s ∈ node.ownAtoms := by
      simp only [RenderNode.ownAtoms, mem_append, mem_flatMap, mem_map]
      exact .inr ⟨e, isExpr, s, member, rfl⟩
    exact held.allows (.snippet s) (by simpa [RenderNode.atoms, RenderNode.mem_collect] using
      ⟨node, within, own⟩)
  · rintro e member s (rfl | ⟨head, read, part⟩) known qualify mode result run
    · exact Script.located_process (verbatim _ member) run
    · exact Script.located_process (LoopHead.verbatim (verbatim e member) read _ part) run

/-- A loop, a handler and a binding with scripts of several names. -/
def namedTemplate : String :=
  "<p v-for=\"(x, i) in a.b\" @click=\"f(x); g\" :[k]=\" i + c \">\x7b\x7b d \x7d\x7d</p>"

theorem namedTemplate_located :
    (∀ e ∈ (readTemplate {} namedTemplate).1.scripts,
      decode (e.span.slice namedTemplate).toList = (e.span.slice namedTemplate).toList) ∧
    ∀ code ∈ ((readTemplate {} namedTemplate).1.lower {}).1.code,
      ∀ e ∈ code.collect RenderNode.exprs, ∀ s ∈ e.snippets, s.Located namedTemplate := by
  refine ⟨by decide +kernel, (lower_readTemplate_located {} {} namedTemplate ?_ ?_).1⟩
  · decide +kernel
  · simp [Options.rule?]

/-- A script with a character reference. -/
def encodedTemplate : String :=
  "<p :a=\"x &amp;&amp; y\"></p>"

/-- The reference is longer than what it stands for, so the name behind it is looked for too early. -/
theorem encodedTemplate_not_located :
    ∃ code ∈ ((readTemplate {} encodedTemplate).1.lower {}).1.code,
      ∃ e ∈ code.collect RenderNode.exprs, ∃ s ∈ e.snippets, s.content = "_ctx.y" ∧
        s.source = "y" ∧ s.span.slice encodedTemplate = "p" := by
  decide +kernel

end Stencil
