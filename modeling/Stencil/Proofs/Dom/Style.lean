import Mathlib.Data.List.Chain
import Mathlib.Data.List.Induction
import Stencil.Dom.Style
import Stencil.Proofs.Text.Cutting

/-! # Styles that are written and read

Declarations written one after another are read back. Names and values may hold whatever does not
end them; of a name that is written twice, the first place and the last value count.
-/

namespace Stencil

open List Text Prod

namespace Dom

/-- Whether a text closes the `depth` parentheses that are open before it and all its own, and has
    no semicolon where none is open. -/
def closes (depth : Nat) : List Char → Bool
  | [] => depth == 0
  | c :: cs =>
    if c = '(' then closes (depth + 1) cs
    else if c = ')' then depth != 0 && closes (depth - 1) cs
    else (c != ';' || depth != 0) && closes depth cs

/-- A text in which no comment is opened. -/
abbrev Uncommented (cs : List Char) : Prop :=
  cs.IsChain fun c d => c = '/' → d ≠ '*'

/-- A name and a value that can be written as a declaration. -/
structure Writable (d : String × String) : Prop where
  trimmed : Trimmed d.1.toList ∧ Trimmed d.2.toList
  uncommented : Uncommented d.1.toList ∧ Uncommented d.2.toList
  plain : ∀ c ∈ d.1.toList, c ∉ [':', ';', '(', ')']
  closes : closes 0 d.2.toList = true

/-- `name: value;` for every declaration, each behind the blanks `gap`. -/
def Declarations.write (gap : List Char) (ds : Declarations) : List Char :=
  ds.flatMap fun d => gap ++ (d.1.toList ++ ':' :: ' ' :: (d.2.toList ++ [';']))

/-! ## Comments -/

theorem dropComments_eq (h : Uncommented cs) : dropComments cs = cs := by
  rw [dropComments]
  induction cs with
  | nil => rfl
  | cons c cs ih =>
    obtain ⟨next, rest⟩ := isChain_cons.mp h
    have opens : ¬ (c = '/' && cs.head? = some '*') := by
      simpa using fun slash star => next '*' star slash rfl
    rw [dropCommentsFrom, if_neg opens, ih rest]

theorem Uncommented.behind {front cs} (noSlash : '/' ∉ front) (h : Uncommented cs) :
    Uncommented (front ++ cs) := by
  induction front with
  | nil => exact h
  | cons c front ih =>
    obtain ⟨other, noSlash⟩ := not_or.mp (mt mem_cons.mpr noSlash)
    exact isChain_cons.mpr ⟨fun _ _ same => absurd same.symm other, ih noSlash⟩

theorem Uncommented.append (h : Uncommented cs) (h' : Uncommented ds) (head : ds.head? ≠ some '*') :
    Uncommented (cs ++ ds) :=
  isChain_append.mpr ⟨h, h', fun _ _ _ first _ same => head (same ▸ first)⟩

/-! ## Cutting -/

theorem splitDeclarations_ne_nil (depth cs) : splitDeclarations depth cs ≠ [] := by
  fun_induction splitDeclarations depth cs <;> simp

theorem splitDeclarations_cons (stays : c = ';' → depth ≠ 0) (cs) :
    splitDeclarations depth (c :: cs) =
      (splitDeclarations (if c = '(' then depth + 1 else if c = ')' then depth - 1 else depth)
        cs).modifyHead (c :: ·) := by
  rw [splitDeclarations, if_neg (by simpa using stays)]
  dsimp only
  split
  next none => exact absurd none (splitDeclarations_ne_nil _ _)
  next some => rw [some, modifyHead_cons]

/-- No declaration ends in a text that closes its parentheses. -/
theorem splitDeclarations_append (h : closes depth cs = true) (rest) :
    splitDeclarations depth (cs ++ rest) = (splitDeclarations 0 rest).modifyHead (cs ++ ·) := by
  have step {depth depth' : Nat} {c : Char} {cs : List Char} (stays : c = ';' → depth ≠ 0)
      (next : (if c = '(' then depth + 1 else if c = ')' then depth - 1 else depth) = depth')
      (ih : splitDeclarations depth' (cs ++ rest) =
        (splitDeclarations 0 rest).modifyHead (cs ++ ·)) :
      splitDeclarations depth (c :: cs ++ rest) =
        (splitDeclarations 0 rest).modifyHead (c :: cs ++ ·) := by
    rw [cons_append, splitDeclarations_cons stays, next, ih, modifyHead_modifyHead]
    rfl
  fun_induction closes depth cs with
  | case1 depth =>
    rw [beq_iff_eq.mp h]
    exact (congrFun modifyHead_id _).symm
  | case2 depth cs ih => exact step (by simp) (if_pos rfl) (ih h)
  | case3 depth cs _ ih =>
    simp only [Bool.and_eq_true] at h
    exact step (by simp) rfl (ih h.2)
  | case4 depth c cs notOpen notClose ih =>
    simp only [Bool.and_eq_true, Bool.or_eq_true, bne_iff_ne] at h
    refine step (fun same => h.1.resolve_left (absurd same)) ?_ (ih h.2)
    rw [if_neg notOpen, if_neg notClose]

theorem closes_append (plain : ∀ c ∈ front, c ∉ [';', '(', ')']) (h : closes 0 cs = true) :
    closes 0 (front ++ cs) = true := by
  induction front with
  | nil => exact h
  | cons c front ih =>
    obtain ⟨here, later⟩ := forall_mem_cons.mp plain
    simp only [mem_cons, not_or] at here
    simp [closes, here, ih later]

/-! ## Setting -/

namespace Declarations

variable (ds : Declarations) (name value : String)

theorem set_of_not_mem (absent : name ∉ ds.map fst) :
    ds.set name value = ds ++ [(name, value)] := by
  fun_induction set name value ds <;> simp_all

theorem names_set : (ds.set name value).map fst =
    if name ∈ ds.map fst then ds.map fst else ds.map fst ++ [name] := by
  fun_induction set name value ds with
  | case1 => simp
  | case2 => simp
  | case3 n v rest other ih =>
    simp only [map_cons, mem_cons, Ne.symm other, false_or, ih]
    split <;> rfl

theorem lookup_set (n) :
    (ds.set name value).lookup n = if n = name then some value else ds.lookup n := by
  fun_induction set name value ds <;> grind

/-- Declarations set one after another. -/
def setAll (ds : Declarations) : Declarations :=
  ds.foldl (fun all d => all.set d.1 d.2) []

theorem setAll_append (d) : setAll (ds ++ [d]) = (setAll ds).set d.1 d.2 := by
  simp [setAll]

theorem names_setAll : (setAll ds).map fst = (ds.map fst).eraseDups := by
  induction ds using reverseRecOn with
  | nil => rfl
  | append_singleton ds d ih =>
    rw [setAll_append, names_set, ih, map_append, eraseDups_append]
    by_cases known : d.1 ∈ ds.map fst <;>
      simp [removeAll, known, eraseDups_cons]

theorem lookup_setAll (name) : (setAll ds).lookup name = ds.reverse.lookup name := by
  induction ds using reverseRecOn with
  | nil => rfl
  | append_singleton ds d ih =>
    rw [setAll_append, lookup_set]
    grind

theorem setAll_eq (distinct : (ds.map fst).Nodup) : setAll ds = ds := by
  induction ds using reverseRecOn with
  | nil => rfl
  | append_singleton ds d ih =>
    rw [map_append, nodup_append] at distinct
    rw [setAll_append, ih distinct.1, set_of_not_mem]
    exact fun known => distinct.2.2 d.1 known d.1 (by simp) rfl

end Declarations

/-! ## Reading -/

variable {gap : List Char} {ds : Declarations} (blank : ∀ c ∈ gap, isBlank c = true)
  (writable : ∀ d ∈ ds, Writable d)

include blank

theorem Writable.read (ds : Declarations) {d} (h : Writable d) :
    ds.read (gap ++ (d.1.toList ++ ':' :: ' ' :: d.2.toList)) = ds.set d.1 d.2 := by
  have noColon : ':' ∉ gap ++ d.1.toList := by
    simp only [mem_append, not_or]
    exact ⟨fun inside => absurd (blank _ inside) (by decide),
      fun inside => h.plain _ inside (by simp)⟩
  have cut := @cut?_append _ ':' [] noColon (' ' :: d.2.toList)
  have name := @Trimmed.trim_around _ _ [] h.trimmed.1 blank (by simp)
  have value := @Trimmed.trim_around _ [' '] [] h.trimmed.2 (forall_of_all (by decide)) (by simp)
  rw [append_nil] at name value
  rw [nil_append] at cut
  rw [singleton_append] at value
  rw [← append_assoc, Declarations.read, cut]
  simp [name, value]

include writable

theorem dropComments_write :
    dropComments (Declarations.write gap ds) = Declarations.write gap ds := by
  apply dropComments_eq
  induction ds with
  | nil => exact .nil
  | cons d ds ih =>
    obtain ⟨here, later⟩ := forall_mem_cons.mp writable
    have noSlash : '/' ∉ gap := fun inside => absurd (blank _ inside) (by decide)
    have value : Uncommented (d.2.toList ++ ([';'] ++ Declarations.write gap ds)) :=
      here.uncommented.2.append (.behind (by simp) (ih later)) (by simp)
    have all : Uncommented (gap ++ (d.1.toList ++ ([':', ' '] ++ _))) :=
      .behind noSlash (here.uncommented.1.append (.behind (by simp) value) (by simp))
    simpa [Declarations.write] using all

theorem splitDeclarations_write : splitDeclarations 0 (Declarations.write gap ds) =
    ds.map (fun d => gap ++ (d.1.toList ++ ':' :: ' ' :: d.2.toList)) ++ [[]] := by
  have solid : ∀ c ∈ [';', '(', ')'], isBlank c = false := forall_of_all (by decide)
  induction ds with
  | nil => rfl
  | cons d ds ih =>
    obtain ⟨here, later⟩ := forall_mem_cons.mp writable
    have whole : closes 0 (gap ++ (d.1.toList ++ ([':', ' '] ++ d.2.toList))) = true := by
      refine closes_append (fun c inside mark => ?_)
        (closes_append (fun c inside mark => ?_) (closes_append (by simp) here.closes))
      · exact absurd (blank c inside) (by simp [solid c mark])
      · exact here.plain c inside (mem_cons_of_mem _ mark)
    have split := splitDeclarations_append whole (';' :: Declarations.write gap ds)
    have ends : splitDeclarations 0 (';' :: Declarations.write gap ds) =
      [] :: splitDeclarations 0 (Declarations.write gap ds) := rfl
    rw [ends, ih later] at split
    simpa [Declarations.write] using split

theorem readStyle_eq :
    readStyle (String.ofList (Declarations.write gap ds)) = Declarations.setAll ds := by
  rw [readStyle, String.toList_ofList, dropComments_write blank writable,
    splitDeclarations_write blank writable, foldl_append, foldl_map]
  exact foldl_ext _ _ _ fun all d member => (writable d member).read blank all

/-- Declarations that are written are read back in their order. A name that was written twice has
    its first place and its last value. -/
theorem readStyle_write :
    let read := readStyle (String.ofList (Declarations.write gap ds))
    read.map Prod.fst = (ds.map Prod.fst).eraseDups ∧
      (∀ name, read.lookup name = ds.reverse.lookup name) ∧
      ((ds.map Prod.fst).Nodup → read = ds) := by
  simp only [readStyle_eq blank writable]
  exact ⟨ds.names_setAll, ds.lookup_setAll, ds.setAll_eq⟩

omit blank writable

/-- Semicolons in parentheses, and a name that is written twice. -/
theorem repeatedName_read : (readStyle (String.ofList (Declarations.write [' ']
      [("x", "a"), ("y", "u(;:)"), ("x", "b")]))).map Prod.fst = ["x", "y"] := by
  have writable : ∀ d ∈ [("x", "a"), ("y", "u(;:)"), ("x", "b")], Writable d := by
    simp only [forall_mem_cons, not_mem_nil, false_imp_iff, implies_true, and_true]
    refine ⟨?_, ?_, ?_⟩ <;>
      exact ⟨⟨trimmed_of_all (by decide) (by decide), trimmed_of_all (by decide) (by decide)⟩,
        by decide +kernel, forall_of_all (by decide), by decide⟩
  exact (readStyle_write (forall_of_all (by decide)) writable).1

end Dom

end Stencil
