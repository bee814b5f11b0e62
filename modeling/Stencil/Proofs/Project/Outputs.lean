import Stencil.Project.Run
import Stencil.Proofs.Script.Scanning

/-! # Where outputs meet

The code of a template is written under the name of the template with another ending. So it meets
the code of every template that differs in nothing but the ending, and every template that has the
ending of code already.
-/

namespace Stencil.Project

open List Text

namespace Path

/-- The names a path goes through. Paths are compared by these. -/
def names (p : Path) : List Name :=
  p.parts.filter (!Entry.isStill ·)

def stem (p : Path) : List Name × Option Name :=
  match p.fileName? with
  | none => (p.names, none)
  | some name => (p.names.dropLast, some (splitName name).1)

/-! ## Names and endings -/

theorem splitName_append {front ending : Name} (nonempty : front ≠ []) (plain : '.' ∉ ending) :
    splitName (front ++ '.' :: ending) = (front, some ending) := by
  have short : ∀ c ∈ ending.reverse, (c != '.') = true := fun c member => by
    simpa using fun same : c = '.' => plain (same ▸ mem_reverse.mp member)
  obtain ⟨c, rest, back⟩ := exists_cons_of_ne_nil (reverse_ne_nil_iff.mpr nonempty)
  simp only [splitName, reverse_append, reverse_cons, append_assoc,
    singleton_append, dropWhile_append_of_pos short, takeWhile_append_of_pos short]
  simp [reverse_eq_iff.mp back]

/-- A name has no ending, or is cut at its last dot. -/
theorem splitName_cases (name) :
    splitName name = (name, none) ∨ ∃ front ending, front ≠ [] ∧
      name = front ++ '.' :: ending ∧ splitName name = (front, some ending) := by
  have whole := takeWhile_append_dropWhile (p := (· != '.')) (l := name.reverse)
  have front := head?_dropWhile_not (· != '.') name.reverse
  cases behind : name.reverse.dropWhile (· != '.') with
  | nil => exact .inl (by simp [splitName, behind])
  | cons dot rest =>
    cases rest with
    | nil => exact .inl (by simp [splitName, behind])
    | cons c rest =>
      rw [behind] at whole front
      obtain rfl : dot = '.' := by simpa using front
      exact .inr ⟨(c :: rest).reverse, (name.reverse.takeWhile (· != '.')).reverse, by simp,
        by simpa using (congrArg List.reverse whole).symm, by simp [splitName, behind]⟩

theorem splitName_inj : splitName name = splitName other ↔ name = other := by
  refine ⟨fun same => ?_, congrArg _⟩
  rcases splitName_cases name with here | ⟨front, ending, -, eq, here⟩ <;>
    rcases splitName_cases other with there | ⟨front', ending', -, eq', there⟩ <;>
    simp_all

theorem splitName_fst {name : Name} (nonempty : name ≠ []) :
    (splitName name).1 ≠ [] ∧ (splitName name).1 ⊆ name := by
  rcases splitName_cases name with same | ⟨front, ending, front_ne, rfl, same⟩ <;> rw [same]
  · exact ⟨nonempty, fun _ member => member⟩
  · exact ⟨front_ne, subset_append_left _ _⟩

/-! ## The last name of a path -/

/-- What is settled goes through the same names, and ends in one unless it goes through none. -/
theorem names_settle (back) :
    names ⟨(settle back).reverse⟩ = names ⟨back.reverse⟩ ∧ (settle back ∈ [[], ['/'], ['.']] ∨
        Entry.isStill ((settle back).takeWhile (· != '/')).reverse = false) := by
  have slash : ∀ rest : List Char, names ⟨('/' :: rest).reverse⟩ = names ⟨rest.reverse⟩ := by
    simp [names, parts, pieces_append, pieces, Entry.isStill]
  fun_induction settle back with
  | case1 => exact ⟨rfl, .inl (by simp)⟩
  | case2 rest _ ih => exact ⟨ih.1.trans (slash rest).symm, ih.2⟩
  | case3 rest ih =>
    refine ⟨ih.1.trans ?_, ih.2⟩
    simp [names, parts, pieces_append, pieces, Entry.isStill]
  | case4 back _ noSlash noDot =>
    refine ⟨rfl, ?_⟩
    cases back with
    | nil => simp
    | cons c rest =>
      have front : (c != '/') = true := by simpa using fun same => noSlash rest (by rw [same])
      cases rest with
      | nil => by_cases dot : c = '.' <;> simp [front, dot, Entry.isStill]
      | cons d rest =>
        by_cases slash : d = '/'
        · have other : c ≠ '.' := fun same => noDot rest (by rw [same, slash])
          simp [front, slash, other, Entry.isStill]
        · have long : (rest.takeWhile (· != '/')).reverse ++ [d, c] ≠ ['.'] := fun same => by
            simpa using congrArg List.length same
          simp [front, slash, long, Entry.isStill]

theorem names_append (slash : back = [] ∨ ∃ front, back = '/' :: front) :
    ∃ above, ∀ name, '/' ∉ name → Entry.isStill name = false →
      names ⟨back.reverse ++ name⟩ = above ++ [name] := by
  rcases slash with rfl | ⟨front, rfl⟩
  · exact ⟨[], fun name plain moves => by simp [names, parts, pieces_eq_singleton plain, moves]⟩
  · exact ⟨names ⟨front.reverse⟩, fun name plain moves => by
      simp [names, parts, pieces_append, pieces_eq_singleton plain, moves]⟩

/-- A path that has no file name goes through no names or ends by going up, and no ending changes it.
    The name of any other is the last that it goes through, and takes the ending. -/
theorem fileName?_cases (p : Path) :
    p.fileName? = none ∧ (∀ name ∈ p.names.getLast?, name = ['.', '.']) ∧
        (∀ ending, p.withEnding ending = p) ∨
      ∃ name above, p.fileName? = some name ∧ name ≠ [] ∧ name ≠ ['.', '.'] ∧
        p.names = above ++ [name] ∧ ∀ ending, '/' ∉ ending → ending ≠ [] →
          (p.withEnding ending).names = above ++ [(splitName name).1 ++ '.' :: ending] := by
  obtain ⟨same, shape⟩ := names_settle p.text.reverse
  rw [reverse_reverse] at same
  have whole := takeWhile_append_dropWhile (p := (· != '/')) (l := settle p.text.reverse)
  have plain : '/' ∉ ((settle p.text.reverse).takeWhile (· != '/')).reverse := fun member => by
    simpa using mem_takeWhile_imp (mem_reverse.mp member)
  have slash : (settle p.text.reverse).dropWhile (· != '/') = [] ∨
      ∃ front, (settle p.text.reverse).dropWhile (· != '/') = '/' :: front := by
    have head := head?_dropWhile_not (· != '/') (settle p.text.reverse)
    cases behind : (settle p.text.reverse).dropWhile (· != '/') with
    | nil => exact .inl rfl
    | cons c front =>
      rw [behind] at head
      exact .inr ⟨front, by simpa using head⟩
  obtain ⟨above, named⟩ := names_append slash
  generalize fileName : ((settle p.text.reverse).takeWhile (· != '/')).reverse = name at plain shape
  have split : (settle p.text.reverse).reverse =
      ((settle p.text.reverse).dropWhile (· != '/')).reverse ++ name := by
    rw [← fileName, ← reverse_append, whole]
  have unchanged : p.fileName? = none → ∀ ending, p.withEnding ending = p := fun isNone ending => by
    rw [withEnding, isNone]
  rcases shape with short | moves
  · simp only [mem_cons, not_mem_nil, or_false] at short
    have isNone : p.fileName? = none := by
      unfold Path.fileName?
      rcases short with h | h | h <;> simp [h]
    have empty : p.names = [] := same.symm.trans <| by
      rcases short with h | h | h <;> rw [h] <;> rfl
    exact .inl ⟨isNone, by simp [empty], unchanged isNone⟩
  · have names : p.names = above ++ [name] := by rw [← named name plain moves, ← split, same]
    by_cases up : name = ['.', '.']
    · have isNone : p.fileName? = none := by simp [Path.fileName?, fileName, up]
      exact .inl ⟨isNone, by simp [names, up], unchanged isNone⟩
    · have still : name ≠ [] ∧ name ≠ ['.'] := by simpa [Entry.isStill] using moves
      have isSome : p.fileName? = some name := by simp [Path.fileName?, fileName, still, up]
      refine .inr ⟨name, above, isSome, still.1, up, names, fun ending noSlash nonempty => ?_⟩
      rw [withEnding, isSome]
      dsimp only
      rw [append_assoc]
      obtain ⟨front_ne, front_sub⟩ := splitName_fst still.1
      have plain : '/' ∉ (splitName name).1 := fun member => plain (front_sub member)
      refine named _ (by simp [noSlash, plain]) ?_
      simp [Entry.isStill, append_eq_cons_iff, front_ne]

theorem names_eq_iff {p q : Path} : p.names = q.names ↔ p.stem = q.stem ∧ p.ending? = q.ending? := by
  have last : ∀ {above below : List Name} {name other : Name},
      above ++ [name] = below ++ [other] ↔ above = below ∧ name = other := by
    exact ⟨fun same => by simpa using append_inj' same rfl, by rintro ⟨rfl, rfl⟩; rfl⟩
  rcases p.fileName?_cases with ⟨none, up, -⟩ | ⟨name, above, isName, -, notUp, names, -⟩ <;>
    rcases q.fileName?_cases with ⟨none', up', -⟩ | ⟨name', above', isName', -, notUp', names', -⟩
  · simp [stem, ending?, none, none']
  · refine iff_of_false (fun same => notUp' (up name' ?_)) (by simp [stem, none, isName'])
    simp [same, names']
  · refine iff_of_false (fun same => notUp (up' name ?_)) (by simp [stem, none', isName])
    simp [← same, names]
  · rw [names, names', last, ← splitName_inj, Prod.ext_iff]
    simp [stem, ending?, isName, isName', names, names', and_assoc]

theorem stem_withEnding (p : Path) {ending : Name} (some : ending ≠ []) (plain : '/' ∉ ending)
    (noDot : '.' ∉ ending) : (p.withEnding ending).stem = p.stem ∧
      (p.withEnding ending).ending? = p.fileName?.map fun _ => ending := by
  rcases p.fileName?_cases with ⟨none, -, same⟩ | ⟨name, above, isName, nonempty, -, names, changed⟩
  · simp [same, ending?, none]
  · have changed := changed ending plain some
    rcases (p.withEnding ending).fileName?_cases with ⟨-, up, -⟩ | ⟨other, below, isOther, -, -, names', -⟩
    · have same := congrArg List.length (up ((splitName name).1 ++ '.' :: ending) (by simp [changed]))
      have := length_pos_iff.mpr (splitName_fst nonempty).1
      have := length_pos_iff.mpr some
      simp only [length_append, length_cons, length_nil] at same
      omega
    · obtain ⟨-, last⟩ := append_inj' (names'.symm.trans changed) rfl
      obtain rfl := (List.cons.inj last).1
      simp [stem, ending?, isName, isOther, names, changed,
        splitName_append (splitName_fst nonempty).1 noDot]

end Path

/-- Where the code of a template would go if it had the ending of the template. -/
def target (cwd : Path) (s : Settings) (file : SourceFile) : Path :=
  match s.outDir with
  | none => file.path
  | some dir => (cwd.join dir).join file.relative

theorem outputPath_eq (cwd s file) :
    outputPath cwd s file = (target cwd s file).withEnding ['j', 's'] := by
  unfold outputPath target
  cases s.outDir <;> rfl

/-- Two outputs are the same path exactly if their targets are the same up to the ending; so outputs
    of different targets with one ending are different. An output is the path of a template exactly
    if the template is its target up to the ending and has the ending of code. -/
theorem outputPath_names_iff (cwd : Path) (s : Settings) (file other : SourceFile) :
    ((outputPath cwd s file).names = (outputPath cwd s other).names ↔
        (target cwd s file).stem = (target cwd s other).stem) ∧
      ((target cwd s file).ending? = (target cwd s other).ending? →
        ((outputPath cwd s file).names = (outputPath cwd s other).names ↔
          (target cwd s file).names = (target cwd s other).names)) ∧
      ((outputPath cwd s file).names = other.path.names ↔
        (target cwd s file).stem = other.path.stem ∧
          other.path.ending? = other.path.fileName?.map fun _ => ['j', 's']) := by
  have code (p : Path) := p.stem_withEnding (show ['j', 's'] ≠ [] by simp) (by simp) (by simp)
  have named {p q : Path} (same : p.stem = q.stem) :
      (p.fileName?.map fun _ => ['j', 's']) = q.fileName?.map fun _ => ['j', 's'] := by
    unfold Path.stem at same
    split at same <;> split at same <;> simp_all
  simp only [outputPath_eq, Path.names_eq_iff, code]
  refine ⟨and_iff_left_of_imp named, fun endings => ?_, and_congr_right fun same => ?_⟩
  · exact and_congr_right fun same => iff_of_true (named same) endings
  · rw [named same, eq_comm]

/-- Two templates that differ in their endings. -/
def twoEndings : Entry :=
  .folder [("a.html".toList, .file .empty), ("a.tpl".toList, .file .empty)]

/-- Without settings of its own, a run writes the code of both to one file. -/
theorem twoEndings_meet :
    ∃ s files, Settings.load twoEndings ⟨['/']⟩ {} = .ok s ∧
      findTemplates twoEndings ⟨['/']⟩ s {} = .ok files ∧ (files.map (·.path.names)).Nodup ∧
      ¬ (files.map fun file => (outputPath ⟨['/']⟩ s file).names).Nodup := by
  have made : (Settings.load twoEndings ⟨['/']⟩ {}).toOption.map (fun s =>
      (findTemplates twoEndings ⟨['/']⟩ s {}).toOption.map fun files =>
        decide ((files.map (·.path.names)).Nodup ∧
          ¬ (files.map fun file => (outputPath ⟨['/']⟩ s file).names).Nodup)) =
        some (some true) := by
    decide +kernel
  obtain ⟨s, loaded, found⟩ := Script.ok_of_toOption made
  obtain ⟨files, found, holds⟩ := Script.ok_of_toOption found
  exact ⟨s, files, loaded, found, of_decide_eq_true holds⟩

end Stencil.Project
