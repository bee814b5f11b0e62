/-! # Quoted text

A text between double quotes. The quote, the backslash and the control characters below U+0020 are
escaped; every other character stands for itself. A reader accepts every escape there is, also for
characters that need none.
-/

namespace Stencil.Text

def hexDigit (n : Nat) : Char :=
  if n < 10 then Char.ofNat (48 + n) else Char.ofNat (87 + n)

def escape (c : Char) : List Char :=
  if c = '"' then ['\\', '"']
  else if c = '\\' then ['\\', '\\']
  else if c = '\n' then ['\\', 'n']
  else if c = '\r' then ['\\', 'r']
  else if c = '\t' then ['\\', 't']
  else if c = '\x08' then ['\\', 'b']
  else if c = '\x0c' then ['\\', 'f']
  else if c.toNat < 0x20 then
    ['\\', 'u', '0', '0', hexDigit (c.toNat / 16), hexDigit (c.toNat % 16)]
  else [c]

def quoteChars (cs : List Char) : List Char :=
  '"' :: cs.flatMap escape ++ ['"']

def quote (s : String) : String :=
  String.ofList (quoteChars s.toList)

/-! ## Reading -/

def hexValue? (c : Char) : Option Nat :=
  if '0' ≤ c && c ≤ '9' then some (c.toNat - 48)
  else if 'a' ≤ c && c ≤ 'f' then some (c.toNat - 87)
  else if 'A' ≤ c && c ≤ 'F' then some (c.toNat - 55)
  else none

def hexUnit? : List Char → Option (Nat × List Char)
  | a :: b :: c :: d :: rest =>
    match hexValue? a, hexValue? b, hexValue? c, hexValue? d with
    | some a, some b, some c, some d => some (((a * 16 + b) * 16 + c) * 16 + d, rest)
    | _, _, _, _ => none
  | _ => none

theorem length_hexUnit? {cs rest : List Char} {n : Nat} (h : hexUnit? cs = some (n, rest)) :
    rest.length < cs.length := by
  rw [hexUnit?.eq_def] at h
  split at h
  · split at h
    · simp only [Option.some.injEq, Prod.mk.injEq] at h
      simp only [← h.2, List.length_cons]
      omega
    · simp at h
  · simp at h

/-- The second half of a pair of units, the first of which is `high`. -/
def readLowUnit (high : Nat) : List Char → Option (Char × List Char)
  | '\\' :: 'u' :: cs =>
    match hexUnit? cs with
    | some (low, rest) =>
      if 0xDC00 ≤ low && low < 0xE000 then
        some (Char.ofNat (0x10000 + (high - 0xD800) * 0x400 + (low - 0xDC00)), rest)
      else none
    | none => none
  | _ => none

def escaped? (c : Char) : Option Char :=
  match c with
  | '"' => some '"'
  | '\\' => some '\\'
  | '/' => some '/'
  | 'b' => some '\x08'
  | 'f' => some '\x0c'
  | 'n' => some '\n'
  | 'r' => some '\r'
  | 't' => some '\t'
  | _ => none

/-- Read an escape from after its backslash. Characters above U+FFFF are pairs of units; half of a
    pair is refused. -/
def readEscape : List Char → Option (Char × List Char)
  | 'u' :: cs =>
    match hexUnit? cs with
    | none => none
    | some (unit, rest) =>
      if 0xD800 ≤ unit && unit < 0xDC00 then readLowUnit unit rest
      else if 0xDC00 ≤ unit && unit < 0xE000 then none
      else some (Char.ofNat unit, rest)
  | c :: rest => (escaped? c).map (·, rest)
  | [] => none

theorem length_readLowUnit {high : Nat} {cs rest : List Char} {c : Char}
    (h : readLowUnit high cs = some (c, rest)) : rest.length < cs.length := by
  rw [readLowUnit.eq_def] at h
  split at h
  · split at h
    · next hu =>
      have := length_hexUnit? hu
      split at h
      · simp only [Option.some.injEq, Prod.mk.injEq] at h
        simp only [← h.2, List.length_cons]
        omega
      · simp at h
    · simp at h
  · simp at h

theorem length_readEscape {cs rest : List Char} {c : Char} (h : readEscape cs = some (c, rest)) :
    rest.length < cs.length := by
  rw [readEscape.eq_def] at h
  split at h
  · split at h
    · simp at h
    · next hu =>
      have := length_hexUnit? hu
      split at h
      · have := length_readLowUnit h
        simp only [List.length_cons]
        omega
      · split at h
        · simp at h
        · simp only [Option.some.injEq, Prod.mk.injEq] at h
          simp only [← h.2, List.length_cons]
          omega
  · obtain ⟨_, _, h⟩ := Option.map_eq_some_iff.1 h
    simp only [Prod.mk.injEq] at h
    simp [h.2]
  · simp at h

/-- Read a quoted text from after its opening quote; gives the text after the closing one. -/
def readQuoted (cs : List Char) : Option (List Char × List Char) :=
  match cs with
  | [] => none
  | '"' :: rest => some ([], rest)
  | '\\' :: cs =>
    match h : readEscape cs with
    | none => none
    | some (c, rest) =>
      have := length_readEscape h
      (readQuoted rest).map fun (text, after) => (c :: text, after)
  | c :: rest =>
    if c.toNat < 0x20 then none
    else (readQuoted rest).map fun (text, after) => (c :: text, after)
termination_by cs.length
decreasing_by all_goals (simp only [List.length_cons] at *; omega)

end Stencil.Text
