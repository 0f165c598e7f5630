import FieldSelection.Json.Text
import FieldSelection.Tree.Basic

/-!
# Trees as JSON

A tree is an object whose values are the trees beneath its fields, so that a terminal field has an
empty object. In a text that repeats a key, the last tree under it replaces the earlier ones.
-/

namespace FieldSelection.Tree

/-- The entries of the object that stands for a tree. -/
def toJsonEntries : Tree → List (String × Json String)
  | .empty => []
  | .field name nested rest => (name.text, .object nested.toJsonEntries) :: rest.toJsonEntries

/-- The JSON value of a tree. -/
def toJson (tree : Tree) : Json String :=
  .object tree.toJsonEntries

/-- The text of a tree, without white space. -/
def render (tree : Tree) : String :=
  tree.toJson.toText

mutual
/-- The tree that a value stands for, if it is made of objects only. -/
def ofJson? : Json String → Option Tree
  | .object entries => putEntries? .empty entries
  | _ => none

/-- The tree after putting the fields that the entries stand for. -/
def putEntries? (tree : Tree) : List (String × Json String) → Option Tree
  | [] => some tree
  | (key, value) :: rest => do putEntries? (tree.put ⟨key⟩ (← ofJson? value)) rest
end

/-- The tree that a text stands for. -/
def parse? (text : String) : Option Tree :=
  (Json.ofText? text).bind ofJson?

end FieldSelection.Tree
