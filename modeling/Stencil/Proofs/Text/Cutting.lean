import Stencil.Text.Basic

/-! # Cutting texts

A text that is put together from others is cut where they meet, by an offset in bytes or by a mark.
-/

namespace Stencil.Text

open List Option

variable {cs : List Char}

/-- What can be computed for each character of a text holds for all of them. -/
theorem forall_of_all [DecidablePred p] (all : cs.all (fun c => decide (p c)) = true) :
    ∀ c ∈ cs, p c := by
  simpa using all

@[simp] theorem bytes_append (a b) : bytes (a ++ b) = bytes a + bytes b := by
  induction a with
  | nil => simp [bytes]
  | cons c a ih => simp only [cons_append, bytes, ih, Nat.add_assoc]

theorem length_le_bytes (a : List Char) : a.length ≤ bytes a := by
  induction a with
  | nil => simp [bytes]
  | cons c a ih =>
    have := c.utf8Size_pos
    simp only [length_cons, bytes]
    omega

theorem takeBytes?_append (a b) : takeBytes? (bytes a) (a ++ b) = some a := by
  induction a with
  | nil => simp [bytes, takeBytes?]
  | cons c a ih =>
    obtain ⟨n, size⟩ := Nat.exists_eq_add_of_lt c.utf8Size_pos
    have split : bytes (c :: a) = (n + bytes a) + 1 := by simp only [bytes]; omega
    have rest : n + bytes a + 1 - c.utf8Size = bytes a := by omega
    rw [split, cons_append, takeBytes?, if_pos (by omega), rest, ih, map_some]

theorem dropBytes?_add (a n b) : dropBytes? (bytes a + n) (a ++ b) = dropBytes? n b := by
  induction a with
  | nil => simp [bytes]
  | cons c a ih =>
    obtain ⟨k, size⟩ := Nat.exists_eq_add_of_lt c.utf8Size_pos
    have split : bytes (c :: a) + n = (k + bytes a + n) + 1 := by simp only [bytes]; omega
    have rest : k + bytes a + n + 1 - c.utf8Size = bytes a + n := by omega
    rw [split, cons_append, dropBytes?, if_pos (by omega), rest, ih]

theorem dropBytes?_append (a b) : dropBytes? (bytes a) (a ++ b) = some b := by
  simpa [dropBytes?] using dropBytes?_add a 0 b

theorem slice?_append (a b c) : slice? (bytes a) (bytes a + bytes b) (a ++ (b ++ c)) = some b := by
  simp [slice?, dropBytes?_append, takeBytes?_append]

theorem slice_append (a b c) : slice (bytes a) (bytes a + bytes b) (a ++ (b ++ c)) = b := by
  rw [slice, slice?_append, getD_some]

theorem beginsWith_iff : beginsWith front cs = true ↔ front <+: cs := by
  induction front generalizing cs with
  | nil => simp [beginsWith, after?]
  | cons p ps ih =>
    cases cs with
    | nil => simp [beginsWith, after?]
    | cons c cs =>
      by_cases same : p = c
      · subst same
        simpa [beginsWith, after?] using @ih cs
      · simp [beginsWith, after?, same]

theorem after?_eq_some (found : after? front cs = some rest) : cs = front ++ rest := by
  fun_induction after? front cs with
  | case1 cs => exact some.inj found
  | case2 => cases found
  | case3 p ps cs ih => rw [ih found, cons_append]
  | case4 => cases found

theorem after?_append (front rest) : after? front (front ++ rest) = some rest := by
  induction front with
  | nil => rfl
  | cons c front ih => simpa [after?] using ih

theorem before?_eq_some (found : before? back cs = some front) : cs = front ++ back := by
  obtain ⟨rest, after, rfl⟩ := map_eq_some_iff.mp found
  have reversed := after?_eq_some after
  rw [← cs.reverse_reverse, reversed]
  simp

theorem pieces_ne_nil (mark cs) : pieces mark cs ≠ [] := by
  fun_induction pieces mark cs with
  | case1 => simp
  | case2 => simp
  | case3 => simp
  | case4 => simp

/-- The pieces of a text, each after the mark, are the text after the mark. -/
theorem flatMap_pieces (mark cs) : (pieces mark cs).flatMap (mark :: ·) = mark :: cs := by
  fun_induction pieces mark cs with
  | case1 => rfl
  | case2 cs ih => rw [flatMap_cons, ih]; rfl
  | case3 c cs other none => exact absurd none (pieces_ne_nil mark cs)
  | case4 c cs other first rest some ih =>
    rw [some] at ih
    simpa using ih

theorem pieces_append (mark front back) :
    pieces mark (front ++ mark :: back) = pieces mark front ++ pieces mark back := by
  induction front with
  | nil => simp [pieces]
  | cons c front ih =>
    simp only [cons_append, pieces, ih]
    split
    · rfl
    · obtain ⟨first, rest, same⟩ := exists_cons_of_ne_nil (pieces_ne_nil mark front)
      rw [same]
      rfl

theorem pieces_eq_singleton (plain : mark ∉ cs) : pieces mark cs = [cs] := by
  induction cs with
  | nil => rfl
  | cons c cs ih =>
    obtain ⟨other, plain⟩ := not_or.mp (fun h => plain (mem_cons.mpr h))
    rw [pieces, if_neg (Ne.symm other), ih plain]

theorem cut?_eq_some (found : cut? mark cs = some (front, rest)) :
    cs = front ++ (mark ++ rest) := by
  fun_induction cut? mark cs generalizing front with
  | case1 empty =>
    obtain ⟨rfl, rfl⟩ := Prod.mk.inj (some.inj found)
    simpa using empty
  | case2 => cases found
  | case3 c cs after here =>
    obtain ⟨rfl, rfl⟩ := Prod.mk.inj (some.inj found)
    rw [nil_append]
    exact after?_eq_some here
  | case4 c cs _ ih =>
    obtain ⟨⟨front, rest⟩, later, same⟩ := map_eq_some_iff.mp found
    obtain ⟨rfl, rfl⟩ := Prod.mk.inj same
    rw [ih later]
    rfl

/-- A text is cut at a mark whose first character is not before it. -/
theorem cut?_append {m mark} (absent : m ∉ front) (rest) :
    cut? (m :: mark) (front ++ m :: (mark ++ rest)) = some (front, rest) := by
  induction front with
  | nil =>
    have here : after? (m :: mark) (m :: (mark ++ rest)) = some rest :=
      after?_append (m :: mark) rest
    rw [nil_append, cut?, here]
  | cons c front ih =>
    simp only [mem_cons, not_or] at absent
    simp [cut?, after?, absent.1, ih absent.2]

theorem trimEnd_eq (cs) : trimEnd cs ++ (cs.reverse.takeWhile isBlank).reverse = cs := by
  rw [trimEnd, ← reverse_append, takeWhile_append_dropWhile, reverse_reverse]

theorem trim_eq (cs) : ∃ before after, cs = before ++ (trim cs ++ after) ∧
    bytes cs - bytes (trimStart cs) = bytes before ∧ (∀ c ∈ before, isBlank c = true) ∧
    ∀ c ∈ after, isBlank c = true := by
  have front : cs.takeWhile isBlank ++ trimStart cs = cs := takeWhile_append_dropWhile
  refine ⟨cs.takeWhile isBlank, ((trimStart cs).reverse.takeWhile isBlank).reverse, ?_, ?_, ?_, ?_⟩
  · rw [trim, trimEnd_eq, front]
  · have sizes := congrArg bytes front
    rw [bytes_append] at sizes
    omega
  · intro c member
    exact all_eq_true.mp all_takeWhile c member
  · intro c member
    exact all_eq_true.mp all_takeWhile c (mem_reverse.mp member)

theorem dropWhile_around {p : Char → Bool} (skipped : ∀ c ∈ front, p c = true)
    (stops : ∀ c ∈ cs.head?, p c = false) : (front ++ cs).dropWhile p = cs := by
  rw [dropWhile_append_of_pos skipped]
  cases cs with
  | nil => rfl
  | cons c cs => exact dropWhile_cons_of_neg (by simp [stops c rfl])

theorem trimEnd_append (last : ∀ c ∈ cs.getLast?, isBlank c = false)
    (blank : ∀ c ∈ back, isBlank c = true) : trimEnd (cs ++ back) = cs := by
  rw [trimEnd, reverse_append, dropWhile_around (by simpa using blank) (by simpa using last),
    reverse_reverse]

/-- A text that neither begins nor ends with a blank. -/
abbrev Trimmed (cs : List Char) : Prop :=
  (∀ c ∈ cs.head?, isBlank c = false) ∧ ∀ c ∈ cs.getLast?, isBlank c = false

/-- Blanks around a trimmed text are trimmed away. -/
theorem trimmed_of_all (front : cs.head?.all (!isBlank ·) = true)
    (back : cs.getLast?.all (!isBlank ·) = true) : Trimmed cs := by
  simpa [Trimmed, Option.all_eq_true] using And.intro front back

theorem Trimmed.trim_around (h : Trimmed cs) (leading : ∀ c ∈ front, isBlank c = true)
    (trailing : ∀ c ∈ back, isBlank c = true) : trim (front ++ (cs ++ back)) = cs := by
  cases cs with
  | nil =>
    have blank := @dropWhile_around [] _ isBlank
      (forall_mem_append.mpr ⟨leading, trailing⟩) (by simp)
    rw [append_nil] at blank
    rw [trim, trimStart, nil_append, blank]
    rfl
  | cons c cs =>
    have first : ∀ d ∈ (c :: cs ++ back).head?, isBlank d = false := h.1
    rw [trim, trimStart, dropWhile_around leading first, trimEnd_append h.2 trailing]

end Stencil.Text
