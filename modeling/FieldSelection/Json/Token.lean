import FieldSelection.Json.Numeral
import FieldSelection.Json.Spelling

/-!
# JSON tokens

A JSON document is a run of tokens with white space between them. `Token.write` gives the text of
a token. `Token.scan?` splits a text into tokens, one character at a time, and keeps the strings in
it as they are spelled. `Token.scan?_flatMap_write` says that it recovers the tokens of a written
text that holds no numbers.
-/

namespace FieldSelection.Json

/-- A token whose strings have type `τ`. -/
inductive Token (τ : Type) where
  | openArray
  | closeArray
  | openObject
  | closeObject
  | comma
  | colon
  | null
  | bool (value : Bool)
  | number (literal : String)
  | string (text : τ)

namespace Token

/-- The text of a token. -/
def write : Token String → List Char
  | openArray => ['[']
  | closeArray => [']']
  | openObject => ['{']
  | closeObject => ['}']
  | comma => [',']
  | colon => [':']
  | null => ['n', 'u', 'l', 'l']
  | bool true => ['t', 'r', 'u', 'e']
  | bool false => ['f', 'a', 'l', 's', 'e']
  | number literal => literal.toList
  | string text => '"' :: (text.toList.flatMap escape ++ ['"'])

/-- What the characters read since the last complete token are part of. -/
inductive Reading where
  /-- No token. -/
  | between
  /-- A word, of which these letters are still to come. -/
  | word (letters : List Char) (token : Token Spelling)
  /-- A number, with its characters so far, latest first. -/
  | numeral (stage : Numeral.Stage) (literal : List Char)
  /-- A string, with its pieces so far, latest first. -/
  | string (pieces : Spelling)
  /-- A string, after a backslash. -/
  | escape (pieces : Spelling)
  /-- A string, within a code unit of the value so far; after the next digit `more` are missing. -/
  | unit (pieces : Spelling) (value more : Nat)

/-- The complete tokens of a text, latest first, and what the characters after them are part of. -/
structure Scanner where
  tokens : List (Token Spelling)
  reading : Reading

namespace Scanner

/-- The token that is complete with its first character. -/
def punctuation? : Char → Option (Token Spelling)
  | '[' => some openArray
  | ']' => some closeArray
  | '{' => some openObject
  | '}' => some closeObject
  | ',' => some comma
  | ':' => some colon
  | _ => none

/-- What a token is part of after its first character, if there are more. -/
def opening? : Char → Option Reading
  | '"' => some (.string [])
  | 'n' => some (.word ['u', 'l', 'l'] null)
  | 't' => some (.word ['r', 'u', 'e'] (bool true))
  | 'f' => some (.word ['a', 'l', 's', 'e'] (bool false))
  | c => (Numeral.Stage.start? c).map (.numeral · [c])

/-- Whether a character may stand between tokens. -/
def isBlank (c : Char) : Bool :=
  c = ' ' || c = '\t' || c = '\n' || c = '\r'

/-- Reads a character after complete tokens. -/
def start? (tokens : List (Token Spelling)) (c : Char) : Option Scanner :=
  if isBlank c then some ⟨tokens, .between⟩
  else match punctuation? c with
    | some token => some ⟨token :: tokens, .between⟩
    | none => (opening? c).map (⟨tokens, ·⟩)

/-- The tokens with a number added to them. -/
def withNumeral (tokens : List (Token Spelling)) (literal : List Char) : List (Token Spelling) :=
  number (String.ofList literal.reverse) :: tokens

/-- Reads one character. A number ends where a character cannot continue it. -/
def feed? (scanner : Scanner) (c : Char) : Option Scanner :=
  let tokens := scanner.tokens
  match scanner.reading with
  | .between => start? tokens c
  | .word [] _ => none
  | .word [letter] token => if c = letter then some ⟨token :: tokens, .between⟩ else none
  | .word (letter :: letters) token =>
      if c = letter then some ⟨tokens, .word letters token⟩ else none
  | .numeral stage literal =>
      match stage.next? c with
      | some next => some ⟨tokens, .numeral next (c :: literal)⟩
      | none => if stage.isComplete then start? (withNumeral tokens literal) c else none
  | .string pieces =>
      if c = '"' then some ⟨string pieces.reverse :: tokens, .between⟩
      else if c = '\\' then some ⟨tokens, .escape pieces⟩
      else if c.toNat < 0x20 then none
      else some ⟨tokens, .string (.char c :: pieces)⟩
  | .escape pieces =>
      if c = 'u' then some ⟨tokens, .unit pieces 0 3⟩
      else (namedEscape? c).map fun named => ⟨tokens, .string (.char named :: pieces)⟩
  | .unit pieces value more =>
      (hexDigit? c).map fun digit =>
        match more with
        | 0 => ⟨tokens, .string (.unit (value * 16 + digit) :: pieces)⟩
        | more + 1 => ⟨tokens, .unit pieces (value * 16 + digit) more⟩

/-- Reads several characters. -/
def run? (scanner : Scanner) (text : List Char) : Option Scanner :=
  text.foldlM feed? scanner

/-- The tokens of a text that ends here, unless it ends within a token. -/
def finish? (scanner : Scanner) : Option (List (Token Spelling)) :=
  match scanner.reading with
  | .between => some scanner.tokens.reverse
  | .numeral stage literal =>
      if stage.isComplete then some (withNumeral scanner.tokens literal).reverse else none
  | _ => none

end Scanner

/-- The tokens of a text, if it consists of tokens and white space. -/
def scan? (text : List Char) : Option (List (Token Spelling)) :=
  (Scanner.run? ⟨[], .between⟩ text).bind Scanner.finish?

/-- A token with its string turned into another. -/
def map {σ τ : Type} (f : σ → τ) : Token σ → Token τ
  | openArray => openArray
  | closeArray => closeArray
  | openObject => openObject
  | closeObject => closeObject
  | comma => comma
  | colon => colon
  | null => null
  | bool value => bool value
  | number literal => number literal
  | string text => string (f text)

theorem Scanner.run?_nil (scanner : Scanner) : scanner.run? [] = some scanner := rfl

theorem Scanner.run?_cons (scanner : Scanner) (c : Char) (rest : List Char) :
    scanner.run? (c :: rest) = (scanner.feed? c).bind (·.run? rest) := rfl

theorem namedEscape?_of_shortEscape? {c letter : Char} (h : shortEscape? c = some letter) :
    namedEscape? letter = some c ∧ letter ≠ 'u' := by
  unfold shortEscape? at h
  split at h <;> first | (cases h; exact ⟨rfl, by decide⟩) | contradiction

theorem shortEscape?_eq_none {c : Char} (h : shortEscape? c = none) : c ≠ '"' ∧ c ≠ '\\' :=
  ⟨by rintro rfl; contradiction, by rintro rfl; contradiction⟩

theorem hexDigit?_digitChar {n : Nat} (h : n < 16) : hexDigit? n.digitChar = some n := by
  match n with
  | 0 | 1 | 2 | 3 | 4 | 5 | 6 | 7 | 8 | 9 | 10 | 11 | 12 | 13 | 14 | 15 => decide
  | n + 16 => omega

/-- Within a string, the escaped form of a character is read as its piece. -/
theorem Scanner.run?_escape (tokens : List (Token Spelling)) (pieces : Spelling) (c : Char)
    (rest : List Char) :
    Scanner.run? ⟨tokens, .string pieces⟩ (Json.escape c ++ rest) =
      Scanner.run? ⟨tokens, .string (spell c :: pieces)⟩ rest := by
  unfold Json.escape spell
  cases h : shortEscape? c with
  | some letter =>
    obtain ⟨hnamed, hu⟩ := namedEscape?_of_shortEscape? h
    simp [run?_cons, feed?, hnamed, hu]
  | none =>
    obtain ⟨hquote, hbackslash⟩ := shortEscape?_eq_none h
    by_cases hc : c.toNat < 0x20
    · have hzero : hexDigit? '0' = some 0 := by decide
      have hhigh := hexDigit?_digitChar (n := c.toNat / 16) (by omega)
      have hlow := hexDigit?_digitChar (n := c.toNat % 16) (by omega)
      simp [run?_cons, feed?, hc, hzero, hhigh, hlow, Nat.div_add_mod']
    · simp [run?_cons, feed?, hc, hquote, hbackslash]

theorem Scanner.run?_flatMap_escape (tokens : List (Token Spelling)) (pieces : Spelling)
    (cs rest : List Char) :
    Scanner.run? ⟨tokens, .string pieces⟩ (cs.flatMap Json.escape ++ rest) =
      Scanner.run? ⟨tokens, .string ((cs.map spell).reverse ++ pieces)⟩ rest := by
  induction cs generalizing pieces with
  | nil => rfl
  | cons c cs ih =>
    rw [List.flatMap_cons, List.append_assoc, run?_escape, ih]
    simp

/-- Reading the text of a token that is not a number completes the token. -/
theorem Scanner.run?_write (tokens : List (Token Spelling)) {token : Token String}
    (h : ∀ literal, token ≠ number literal) (rest : List Char) :
    Scanner.run? ⟨tokens, .between⟩ (token.write ++ rest) =
      Scanner.run? ⟨token.map (fun text => text.toList.map spell) :: tokens, .between⟩ rest := by
  cases token with
  | number literal => exact absurd rfl (h literal)
  | bool value => cases value <;> rfl
  | string text =>
    rw [write, List.cons_append, run?_cons]
    refine Eq.trans ?_ ((run?_flatMap_escape tokens [] text.toList ('"' :: rest)).trans ?_)
    · rw [List.append_assoc]
      rfl
    · rw [run?_cons, List.append_nil]
      simp [feed?, map]
  | _ => rfl

/-- Scanning the texts of tokens that are not numbers returns the tokens, with their strings as they
are spelled. -/
theorem scan?_flatMap_write {tokens : List (Token String)}
    (h : ∀ token ∈ tokens, ∀ literal, token ≠ number literal) :
    scan? (tokens.flatMap write) =
      some (tokens.map (map fun text => text.toList.map spell)) := by
  have run?_tokens (before : List (Token Spelling)) :
      Scanner.run? ⟨before, .between⟩ (tokens.flatMap write) =
        some ⟨(tokens.map (map fun text => text.toList.map spell)).reverse ++ before,
          .between⟩ := by
    induction tokens generalizing before with
    | nil => rfl
    | cons token rest ih =>
      obtain ⟨htoken, hrest⟩ := List.forall_mem_cons.mp h
      rw [List.flatMap_cons, Scanner.run?_write before htoken, ih hrest]
      simp
  simp [scan?, run?_tokens, Scanner.finish?]

end Token

end FieldSelection.Json
