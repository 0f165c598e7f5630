import FieldSelection.Entries

/-!
# JSON values

A JSON value whose texts have type `τ`: the spelling between the quotation marks while a document
is being read, and decoded strings afterwards. Objects keep their entries in document order,
repeated keys included. `dedup` gives every key the place of its first entry and the value of its
last, and `nesting` counts how deep arrays and objects lie inside one another.
-/

namespace FieldSelection

/-- A JSON value with its object entries in document order. -/
inductive Json (τ : Type) where
  | null
  | bool (value : Bool)
  /-- A number, as it is written. -/
  | number (literal : String)
  | string (text : τ)
  | array (items : List (Json τ))
  | object (entries : List (τ × Json τ))
deriving Inhabited

namespace Json

/-- The six kinds of JSON value. -/
inductive Kind where
  | null
  | boolean
  | number
  | string
  | array
  | object
deriving DecidableEq

/-- The word by which an error names a kind. -/
def Kind.word : Kind → String
  | .null => "null"
  | .boolean => "boolean"
  | .number => "number"
  | .string => "string"
  | .array => "array"
  | .object => "object"

variable {τ : Type}

/-- The kind of a value. -/
def kind : Json τ → Kind
  | .null => .null
  | .bool _ => .boolean
  | .number _ => .number
  | .string _ => .string
  | .array _ => .array
  | .object _ => .object

mutual
/-- How many arrays and objects enclose the innermost place of a value. -/
def nesting : Json τ → Nat
  | .null => 0
  | .bool _ => 0
  | .number _ => 0
  | .string _ => 0
  | .array items => nestingItems items + 1
  | .object entries => nestingEntries entries + 1

/-- The deepest nesting among the items of an array. -/
def nestingItems : List (Json τ) → Nat
  | [] => 0
  | item :: rest => max (nesting item) (nestingItems rest)

/-- The deepest nesting among the values of an object. -/
def nestingEntries : List (τ × Json τ) → Nat
  | [] => 0
  | (_, value) :: rest => max (nesting value) (nestingEntries rest)
end

mutual
/-- Removes repeated keys at every depth: a key keeps its first position and its last value. -/
def dedup [DecidableEq τ] : Json τ → Json τ
  | .null => .null
  | .bool value => .bool value
  | .number literal => .number literal
  | .string text => .string text
  | .array items => .array (dedupItems items)
  | .object entries => .object (Entries.ofList (dedupEntries entries))

/-- Removes repeated keys inside each item. -/
def dedupItems [DecidableEq τ] : List (Json τ) → List (Json τ)
  | [] => []
  | item :: rest => dedup item :: dedupItems rest

/-- Removes repeated keys inside each value, keeping every entry. -/
def dedupEntries [DecidableEq τ] : List (τ × Json τ) → List (τ × Json τ)
  | [] => []
  | (key, value) :: rest => (key, dedup value) :: dedupEntries rest
end

end Json

end FieldSelection
