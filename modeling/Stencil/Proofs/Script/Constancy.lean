import Stencil.Proofs.Script.Sites
import Stencil.Proofs.Script.Scanning

/-! # Constant scripts

A script that is constant enough to be hoisted refers to allowed globals only. So it is left as it
was written, and a scope that leaves the allowed globals alone does not change what it is.
-/

namespace Stencil.Script

open Ref

section

variable {u : Uses} (constant : (u.level known).canHoist = true)
include constant

theorem Uses.of_canHoist :
    u.computes = false ∧ ∀ r ∈ u.refs, r.bound = false ∧ known r.ident.name = false ∧
      isAllowedGlobal r.ident.name = true := by
  unfold level at constant
  split at constant
  · cases constant
  next steady =>
    simp only [Bool.or_eq_true, List.any_eq_true, not_or, not_exists, not_and] at steady
    refine ⟨by simpa using steady.1, fun r member => ?_⟩
    obtain ⟨notLocal, notContext⟩ := steady.2 r member
    simp only [isLocal, Bool.or_eq_true, not_or] at notLocal
    simpa [isContext, isLocal, notLocal] using notContext

theorem Uses.sites_of_canHoist :
    u.sites known = [] := by
  apply sites_eq_nil_iff.mpr
  intro r member
  obtain ⟨-, -, isGlobal⟩ := (of_canHoist constant).2 r member
  simp [isContext, isGlobal]

/-- The level of a constant script is the same in every scope that has no allowed global. -/
theorem Uses.level_of_canHoist
    {known' : String → Bool} (sparing : ∀ name, isAllowedGlobal name = true → known' name = false) :
    u.level known' = u.level known := by
  obtain ⟨still, globals⟩ := of_canHoist constant
  have steady : ∀ scope : String → Bool, (∀ r ∈ u.refs, scope r.ident.name = false) →
      u.refs.any (fun r => r.isLocal scope || r.isContext scope) = false := by
    intro scope unknown
    rw [List.any_eq_false]
    intro r member
    obtain ⟨free, -, isGlobal⟩ := globals r member
    simp [isContext, isLocal, free, unknown r member, isGlobal]
  rw [level, level, steady known fun r member => (globals r member).2.1,
    steady known' fun r member => sparing _ (globals r member).2.2]

end

section

variable {e : Snippet} (visible : (e.isStatic || isBlankString e.content) = false)
include visible

theorem process_of_level (read : uses mode e.content = .ok u)
    (constant : (u.level known).canHoist = true) :
    process e known qualify mode = .ok (.simple (e.withLevel (u.level known))) := by
  simp only [process, visible, read, Uses.sites_of_canHoist constant, bind, Except.bind,
    Bool.false_eq_true, if_false]
  cases qualify <;> rfl

theorem level_of_process (run : process e known qualify mode = .ok result) :
    ∃ u, uses mode e.content = .ok u ∧ result.level = u.level known := by
  simp only [process, visible] at run
  obtain ⟨u, read, rest⟩ := ok_of_bind run
  refine ⟨u, read, ?_⟩
  split at rest
  · cases rest; rfl
  · cases rest; rfl
  · split at rest <;> cases rest <;> rfl

end

/-- A constant script is left as it was written, and is the same in every scope that has no allowed
    global, qualified or not. -/
theorem process_constant {e : Snippet} (script : e.isStatic = false) {qualify : Bool}
    {result : Expression} (run : process e known qualify mode = .ok result)
    (constant : result.level.canHoist = true) :
    result.code = e.content ∧ ∀ (known' : String → Bool) (qualify' : Bool),
      (∀ name, isAllowedGlobal name = true → known' name = false) →
      process e known' qualify' mode = .ok result := by
  have same : ∀ level, (Expression.simple (e.withLevel level)).code = e.content := fun level => by
    simp [Expression.code, Snippet.code, Snippet.withLevel, script]
  cases visible : e.isStatic || isBlankString e.content with
  | true =>
    have kept : ∀ (scope : String → Bool) (qualify : Bool),
        process e scope qualify mode = .ok (.simple e) := fun scope qualify => by
      rw [process, visible]
      rfl
    rw [kept] at run
    cases run
    exact ⟨same e.level, fun _ _ _ => kept _ _⟩
  | false =>
    obtain ⟨u, read, level⟩ := level_of_process visible run
    rw [level] at constant
    rw [process_of_level visible read constant] at run
    cases run
    refine ⟨same _, fun known' qualify' sparing => ?_⟩
    have level' := Uses.level_of_canHoist constant sparing
    rw [process_of_level visible read (level' ▸ constant), level']

/-- A script of literals and allowed globals. -/
def globalScript : Snippet := .new "[Infinity, isNaN ? 1 : 'a']" false ⟨5, 32⟩

theorem globalScript_constant :
    ∃ result, process globalScript (· == "item") true .expression = .ok result ∧
      result.level = .hoistable ∧ result.code = globalScript.content ∧
      ∀ (known' : String → Bool) (qualify' : Bool),
        (∀ name, isAllowedGlobal name = true → known' name = false) →
        process globalScript known' qualify' .expression = .ok result := by
  have made : (process globalScript (· == "item") true .expression).toOption.map
      Expression.level = some .hoistable := by
    decide +kernel
  obtain ⟨result, run, level⟩ := ok_of_toOption made
  exact ⟨result, run, level, process_constant rfl run (by rw [level]; rfl)⟩

end Stencil.Script
