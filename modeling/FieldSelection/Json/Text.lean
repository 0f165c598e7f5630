import FieldSelection.Json.Document

/-!
# The text of a JSON value

`toText` writes a value without white space. `ofText?` reads a text: it must be a document whose
arrays and objects nest at most `maxNesting` deep, whose strings decode and whose numbers are in
range.
-/

namespace FieldSelection.Json

mutual
/-- The value with its strings decoded, if they all decode and every number is in range. -/
def decode? : Json Spelling → Option (Json String)
  | .null => some .null
  | .bool value => some (.bool value)
  | .number literal => if Numeral.inRange literal.toList then some (.number literal) else none
  | .string spelling => spelling.decode?.map .string
  | .array items => (decodeItems? items).map .array
  | .object entries => (decodeEntries? entries).map .object

/-- The items with their strings decoded. -/
def decodeItems? : List (Json Spelling) → Option (List (Json String))
  | [] => some []
  | item :: rest => do return (← decode? item) :: (← decodeItems? rest)

/-- The entries with their keys and values decoded. -/
def decodeEntries? : List (Spelling × Json Spelling) → Option (List (String × Json String))
  | [] => some []
  | (key, value) :: rest => do
      return (← key.decode?, ← decode? value) :: (← decodeEntries? rest)
end

/-- How deep the arrays and objects of a text may nest. -/
def maxNesting : Nat := 127

/-- The value that a text spells. -/
def ofText? (text : String) : Option (Json String) := do
  let document ← Document.ofText? text
  if document.nesting ≤ maxNesting then document.decode? else none

/-- The characters of a value written without white space. -/
def write (json : Json String) : List Char :=
  json.tokens.flatMap Token.write

/-- The text of a value, without white space. -/
def toText (json : Json String) : String :=
  String.ofList json.write

end FieldSelection.Json
