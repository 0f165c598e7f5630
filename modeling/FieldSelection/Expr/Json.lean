import FieldSelection.Expr.Basic
import FieldSelection.Json.Text

/-!
# Expressions as JSON

`null` is the empty expression, a string a name, an array a list and an object a selection; booleans
and numbers mean nothing. `Expr.parse` judges a text after repeated keys are resolved, so that only
what is left of it must have a meaning. `Expr.parseStrict?` wants every value of the text to have
one. `Expr.render` writes an expression without white space.
-/

namespace FieldSelection

namespace Expr

/-- Why a text is not an expression. -/
inductive ReadError where
  /-- The text is not JSON. -/
  | malformed
  /-- A value of the given kind stands where an expression is wanted. -/
  | invalidShape (found : Json.Kind)
deriving DecidableEq

/-- The wording of an error about a value. What is wrong with malformed text is not put in words. -/
def ReadError.message? : ReadError → Option String
  | .malformed => none
  | .invalidShape found =>
      some ("invalid facet: expected name, list or selection, found " ++ found.word)

mutual
/-- The expression that a value without repeated keys stands for, or the first value in document
order that has no meaning. -/
def ofJson : Json String → Except ReadError Expr
  | .null => .ok .empty
  | .bool _ => .error (.invalidShape .boolean)
  | .number _ => .error (.invalidShape .number)
  | .string text => .ok (.name ⟨text⟩)
  | .array items => (ofJsonItems items).map .list
  | .object entries => (ofJsonEntries entries).map .selection

/-- The expressions that the items of an array stand for. -/
def ofJsonItems : List (Json String) → Except ReadError (List Expr)
  | [] => .ok []
  | item :: rest => do return (← ofJson item) :: (← ofJsonItems rest)

/-- The entries that the entries of an object stand for. -/
def ofJsonEntries : List (String × Json String) → Except ReadError (List (Name × Expr))
  | [] => .ok []
  | (key, value) :: rest => do return (⟨key⟩, ← ofJson value) :: (← ofJsonEntries rest)
end

/-- The expression that a text stands for once repeated keys are resolved. -/
def parse (text : String) : Except ReadError Expr :=
  match Json.ofText? text with
  | none => .error .malformed
  | some json => ofJson json.dedup

mutual
/-- The expression that a value stands for, if every value within it has a meaning, those under
repeated keys included. -/
def ofJsonStrict? : Json String → Option Expr
  | .null => some .empty
  | .bool _ => none
  | .number _ => none
  | .string text => some (.name ⟨text⟩)
  | .array items => (ofJsonStrictItems? items).map .list
  | .object entries => (ofJsonStrictEntries? entries).map select

/-- The expressions that the items of an array stand for. -/
def ofJsonStrictItems? : List (Json String) → Option (List Expr)
  | [] => some []
  | item :: rest => do return (← ofJsonStrict? item) :: (← ofJsonStrictItems? rest)

/-- The entries that the entries of an object stand for, repeated keys included. -/
def ofJsonStrictEntries? : List (String × Json String) → Option (List (Name × Expr))
  | [] => some []
  | (key, value) :: rest => do
      return (⟨key⟩, ← ofJsonStrict? value) :: (← ofJsonStrictEntries? rest)
end

/-- The expression that a text stands for, if every value within it has a meaning. -/
def parseStrict? (text : String) : Option Expr :=
  (Json.ofText? text).bind ofJsonStrict?

mutual
/-- The JSON value of an expression. -/
def toJson : Expr → Json String
  | .empty => .null
  | .name n => .string n.text
  | .list items => .array (itemsToJson items)
  | .selection entries => .object (entriesToJson entries)

/-- The JSON values of the items of a list. -/
def itemsToJson : List Expr → List (Json String)
  | [] => []
  | item :: rest => toJson item :: itemsToJson rest

/-- The JSON entries of a selection. -/
def entriesToJson : List (Name × Expr) → List (String × Json String)
  | [] => []
  | (key, value) :: rest => (key.text, toJson value) :: entriesToJson rest
end

/-- The text of an expression, without white space. -/
def render (expr : Expr) : String :=
  expr.toJson.toText

/-- The key under which the facet of a request is remembered. A name is its own key and so shares
the facet of the alias it names; any other request is known by its text. -/
def cacheKey : Expr → String
  | .name n => n.text
  | expr => expr.render

end Expr

end FieldSelection
