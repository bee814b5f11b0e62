import Mathlib.Data.List.TakeWhile
import Stencil.Proofs.Script.Weave

/-! # Scanners on a script that was written into

Each scanner takes a front of the text. What it takes is fixed by that front alone, or by the front
and the first character behind it, so it takes the same front of a script that was written into.
-/

namespace Stencil.Script

open List Text Option

theorem ok_of_bind {ε α β : Type} {x} {f : α → Except ε β} {b} (run : x >>= f = .ok b) :
    ∃ a, x = .ok a ∧ f a = .ok b := by
  cases x with
  | error e => cases run
  | ok a => exact ⟨a, rfl, run⟩

theorem ok_of_toOption {ε α β : Type} {x : Except ε α} {f} {b : β} (h : x.toOption.map f = some b) :
    ∃ a, x = .ok a ∧ f a = b := by
  cases x with
  | error e => cases h
  | ok a => exact ⟨a, rfl, some.inj h⟩

theorem takeWhile_split (p : Char → Bool) (cs : List Char) :
    ∃ word after, cs = word ++ after ∧ cs.takeWhile p = word ∧ (∀ c ∈ word, p c = true) ∧
      after.head?.any p = false := by
  refine ⟨cs.takeWhile p, cs.dropWhile p, (takeWhile_append_dropWhile).symm, rfl,
    fun c => mem_takeWhile_imp, ?_⟩
  cases rest : cs.dropWhile p with
  | nil => rfl
  | cons c after =>
    have := head?_dropWhile_not p cs
    simpa [rest] using this

theorem takeWhile_append {p : Char → Bool} {word after : List Char} (all : ∀ c ∈ word, p c = true)
    (stops : after.head?.any p = false) : (word ++ after).takeWhile p = word := by
  rw [takeWhile_append_of_pos all]
  cases after with
  | nil => simp
  | cons c after => simp [show p c = false by simpa using stops]

/-- A scanner takes `n` characters of a text, the last of them `last`, whatever stands behind. -/
def TakesFront (scan : List Char → Option Nat) (last : Char) (cs : List Char) (n : Nat) : Prop :=
  ∃ front after, cs = front ++ after ∧ front.length = n ∧ front.getLast? = some last ∧
    ∀ rest, scan (front ++ rest) = some n

theorem TakesFront.step {scan inner : List Char → Option Nat} (x : List Char)
    (run : (inner cs).map (· + x.length) = some n)
    (ih : ∀ {n}, inner cs = some n → TakesFront inner last cs n)
    (step : cs ≠ [] → ∀ rest, scan (x ++ rest) = (inner rest).map (· + x.length)) :
    TakesFront scan last (x ++ cs) n := by
  obtain ⟨k, found, rfl⟩ := map_eq_some_iff.mp run
  obtain ⟨front, after, rfl, rfl, ends, same⟩ := ih found
  have nonempty : front ++ after ≠ [] := by
    rintro empty
    simp [(append_eq_nil_iff.mp empty).1] at ends
  refine ⟨x ++ front, after, by simp, by simp [Nat.add_comm], by simp [ends], fun rest => ?_⟩
  rw [append_assoc, step nonempty, same, map_some]

theorem stringLength?_front {quote} (plain : quote ≠ '\\') (scan : stringLength? quote cs = some n) :
    TakesFront (stringLength? quote) quote cs n := by
  fun_induction stringLength? quote cs generalizing n with
  | case1 => cases scan
  | case2 d cs ih => exact .step ['\\', d] scan ih fun _ rest => rfl
  | case3 cs escaped =>
    cases scan
    refine ⟨[quote], cs, rfl, rfl, rfl, fun rest => ?_⟩
    rw [singleton_append, stringLength?, if_pos rfl]
    exact fun _ _ eq => absurd eq plain
  | case4 c cs escaped other ih =>
    refine .step [c] scan ih fun nonempty rest => ?_
    obtain ⟨d, ds, rfl⟩ := exists_cons_of_ne_nil nonempty
    rw [singleton_append, stringLength?, if_neg other]
    · rfl
    · exact fun _ _ eq => (escaped d ds eq rfl).elim

theorem regexLength?_front (scan : regexLength? inClass cs = some n) :
    TakesFront (regexLength? inClass) '/' cs n := by
  fun_induction regexLength? inClass cs generalizing n with
  | case1 => cases scan
  | case2 inClass d cs ih => exact .step ['\\', d] scan ih fun _ rest => rfl
  | case3 => cases scan
  | case4 inClass c cs escaped noBreak closes =>
    cases scan
    obtain ⟨rfl, outside⟩ : c = '/' ∧ inClass = false := by simpa using closes
    subst outside
    exact ⟨['/'], cs, rfl, rfl, rfl, fun rest => by simp [regexLength?]⟩
  | case5 inClass c cs escaped noBreak more next =>
    rename_i ih
    refine .step [c] scan ih fun nonempty rest => ?_
    obtain ⟨d, ds, rfl⟩ := exists_cons_of_ne_nil nonempty
    rw [singleton_append, regexLength?, if_neg noBreak, if_neg more]
    · rfl
    · exact fun _ _ eq => (escaped d ds eq rfl).elim

theorem numberLength_front (signs afterE cs) :
    ∃ front after, cs = front ++ after ∧ front.length = numberLength signs afterE cs ∧
      '\\' ∉ front ∧
      ∀ rest : List Char, rest.head? = after.head? →
        numberLength signs afterE (front ++ rest) = front.length := by
  fun_induction numberLength signs afterE cs with
  | case1 afterE =>
    refine ⟨[], [], rfl, rfl, by simp, fun rest same => ?_⟩
    have : rest = [] := by simpa using same
    simp [this, numberLength]
  | case2 afterE c cs belongs ih =>
    obtain ⟨front, after, rfl, length, plain, local'⟩ := ih
    refine ⟨c :: front, after, rfl, by simp [length], ?_, fun rest same => ?_⟩
    · intro member
      rcases mem_cons.mp member with rfl | later
      · revert belongs
        cases signs <;> cases afterE <;> decide
      · exact plain later
    · simp only [cons_append, numberLength, belongs, if_true, local' rest same, length_cons]
  | case3 afterE c cs stops =>
    refine ⟨[], c :: cs, rfl, rfl, by simp, fun rest same => ?_⟩
    cases rest with
    | nil => rfl
    | cons d rest =>
      obtain rfl : d = c := by simpa using same
      rw [nil_append, numberLength, if_neg stops]
      rfl

theorem isNamePart_of_isBlank (blank : isBlank c = true) : isNamePart c = false := by
  have table : ∀ n ∈ [9, 10, 11, 12, 13, 0x20, 0x85, 0xA0, 0x1680, 0x2000, 0x2001, 0x2002, 0x2003,
      0x2004, 0x2005, 0x2006, 0x2007, 0x2008, 0x2009, 0x200A, 0x2028, 0x2029, 0x202F, 0x205F,
      0x3000], isNamePart (Char.ofNat n) = false := by
    decide +kernel
  have listed : isNamePart (Char.ofNat c.toNat) = false := by
    apply table
    simp only [isBlank, Bool.or_eq_true, Bool.and_eq_true, decide_eq_true_eq, beq_iff_eq] at blank
    simp only [mem_cons, not_mem_nil, or_false]
    omega
  rwa [Char.ofNat_toNat] at listed

theorem solid_of_isNameStart (start : isNameStart c = true) : isBlank c = false ∧ c ≠ '/' := by
  constructor
  · cases blank : isBlank c with
    | false => rfl
    | true => simpa [isNamePart_of_isNameStart start] using isNamePart_of_isBlank blank
  · rintro rfl
    revert start
    decide

end Stencil.Script
