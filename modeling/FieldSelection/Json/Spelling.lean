/-!
# The spelling of JSON strings

What stands between the quotation marks of a JSON string is a run of pieces, each a character or a
16-bit code unit given by four hexadecimal digits. `decode?` joins pairs of surrogate code units
and refuses a surrogate that has no partner. `escape` is the way back to text: quotation mark,
backslash and the characters below U+0020 are escaped, and every other character stands for
itself. `decode?_spell` says that decoding the pieces of an escaped string returns the string.
-/

namespace FieldSelection.Json

/-- One piece of a spelled string. -/
inductive Piece where
  /-- A character that stands for itself or is named by a one-letter escape. -/
  | char (c : Char)
  /-- A code unit named by its hexadecimal digits. -/
  | unit (value : Nat)
deriving DecidableEq

/-- The pieces between two quotation marks. -/
abbrev Spelling := List Piece

/-- Whether a code unit is the first half of a surrogate pair. -/
def isLeadingSurrogate (unit : Nat) : Bool :=
  0xD800 ≤ unit && unit < 0xDC00

/-- Whether a code unit is the second half of a surrogate pair. -/
def isTrailingSurrogate (unit : Nat) : Bool :=
  0xDC00 ≤ unit && unit < 0xE000

/-- The character that a surrogate pair stands for. -/
def ofSurrogates (leading trailing : Nat) : Char :=
  Char.ofNat (0x10000 + (leading - 0xD800) * 0x400 + (trailing - 0xDC00))

/-- The character that a one-letter escape names. -/
def namedEscape? : Char → Option Char
  | '"' => some '"'
  | '\\' => some '\\'
  | '/' => some '/'
  | 'b' => some '\x08'
  | 'f' => some '\x0c'
  | 'n' => some '\n'
  | 'r' => some '\r'
  | 't' => some '\t'
  | _ => none

/-- The value of a hexadecimal digit in either case. -/
def hexDigit? (c : Char) : Option Nat :=
  if '0' ≤ c ∧ c ≤ '9' then some (c.toNat - '0'.toNat)
  else if 'a' ≤ c ∧ c ≤ 'f' then some (c.toNat - 'a'.toNat + 10)
  else if 'A' ≤ c ∧ c ≤ 'F' then some (c.toNat - 'A'.toNat + 10)
  else none

namespace Spelling

/-- The characters that a spelling stands for after the first half of a surrogate pair, if one has
been read, unless a surrogate lacks its partner. -/
def decodeAfter? : Option Nat → Spelling → Option (List Char)
  | none, [] => some []
  | some _, [] => none
  | none, .char c :: rest => (decodeAfter? none rest).map (c :: ·)
  | some _, .char _ :: _ => none
  | none, .unit u :: rest =>
      if isLeadingSurrogate u then decodeAfter? (some u) rest
      else if isTrailingSurrogate u then none
      else (decodeAfter? none rest).map (Char.ofNat u :: ·)
  | some u, .unit v :: rest =>
      if isTrailingSurrogate v then (decodeAfter? none rest).map (ofSurrogates u v :: ·)
      else none

/-- The string that a spelling stands for, unless a surrogate lacks its partner. -/
def decode? (spelling : Spelling) : Option String :=
  (decodeAfter? none spelling).map String.ofList

end Spelling

/-- The characters below U+0020 that have a one-letter escape, the quotation mark and the
backslash, each with its letter. -/
def shortEscape? : Char → Option Char
  | '"' => some '"'
  | '\\' => some '\\'
  | '\x08' => some 'b'
  | '\x0c' => some 'f'
  | '\n' => some 'n'
  | '\r' => some 'r'
  | '\t' => some 't'
  | _ => none

/-- The escaped form of one character. -/
def escape (c : Char) : List Char :=
  match shortEscape? c with
  | some letter => ['\\', letter]
  | none =>
      if c.toNat < 0x20 then
        ['\\', 'u', '0', '0', (c.toNat / 16).digitChar, (c.toNat % 16).digitChar]
      else [c]

/-- The piece that the escaped form of a character is read as. -/
def spell (c : Char) : Piece :=
  if (shortEscape? c).isNone && c.toNat < 0x20 then .unit c.toNat else .char c

theorem decodeAfter?_spell (cs : List Char) :
    Spelling.decodeAfter? none (cs.map spell) = some cs := by
  induction cs with
  | nil => rfl
  | cons c rest ih =>
    by_cases h : ((shortEscape? c).isNone && c.toNat < 0x20) = true
    · have hlt : c.toNat < 0x20 := by
        simp only [Bool.and_eq_true, decide_eq_true_eq] at h
        exact h.2
      have hlead : isLeadingSurrogate c.toNat = false := by
        simp [isLeadingSurrogate]; omega
      have htrail : isTrailingSurrogate c.toNat = false := by
        simp [isTrailingSurrogate]; omega
      simp [spell, h, Spelling.decodeAfter?, hlead, htrail, ih]
    · simp [spell, h, Spelling.decodeAfter?, ih]

theorem decode?_spell (text : String) : Spelling.decode? (text.toList.map spell) = some text := by
  simp [Spelling.decode?, decodeAfter?_spell]

end FieldSelection.Json
