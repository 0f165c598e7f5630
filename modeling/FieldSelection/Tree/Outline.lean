import FieldSelection.Tree.Basic

/-!
# The outline of a tree

An outline shows a tree to a reader: one field a line, the fields beneath it on the lines that
follow, two spaces further in.
-/

namespace FieldSelection.Tree

/-- The lines of a tree that stands at the given depth. -/
def lines (depth : Nat) : Tree → List (List Char)
  | .empty => []
  | .field name nested rest =>
      (List.replicate (2 * depth) ' ' ++ name.text.toList) ::
        (nested.lines (depth + 1) ++ rest.lines depth)

/-- The outline of a tree, without a line break at its end. -/
def outline (tree : Tree) : String :=
  String.ofList (['\n'].intercalate (tree.lines 0))

end FieldSelection.Tree
