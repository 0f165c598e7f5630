import FieldSelection.Expr.Basic
import FieldSelection.Tree.Basic

/-!
# Between expressions and trees

`Expr.normalize` takes every name in an expression for a field and unites what the expression
selects into a tree. `Tree.toExpr` is the selection that lists the fields of a tree; terminal fields
have the empty expression as their value. `Expr.distinct_normalize` says that the tree of an
expression lists no field twice.
-/

namespace FieldSelection

namespace Expr

mutual
/-- The tree of the fields that an expression selects. -/
def normalize : Expr → Tree
  | .empty => .empty
  | .name n => .leaf n
  | .list items => .union (normalizeItems items)
  | .selection entries => .ofList (normalizeEntries entries)

/-- The trees of the items of a list. -/
def normalizeItems : List Expr → List Tree
  | [] => []
  | item :: rest => normalize item :: normalizeItems rest

/-- The keys of a selection, each with the tree of its value. -/
def normalizeEntries : List (Name × Expr) → List (Name × Tree)
  | [] => []
  | (key, value) :: rest => (key, normalize value) :: normalizeEntries rest
end

theorem normalizeItems_eq_map (items : List Expr) : normalizeItems items = items.map normalize := by
  induction items with
  | nil => rfl
  | cons item rest ih => rw [normalizeItems, ih, List.map_cons]

theorem normalizeEntries_eq_map (entries : List (Name × Expr)) :
    normalizeEntries entries = entries.map fun entry => (entry.1, entry.2.normalize) := by
  induction entries with
  | nil => rfl
  | cons entry rest ih => rw [normalizeEntries, ih, List.map_cons]

/-- Normalization lists no field twice, whatever the expression repeats. -/
theorem distinct_normalize (expr : Expr) : expr.normalize.Distinct := by
  induction expr using induct with
  | empty => trivial
  | name n => exact ⟨List.not_mem_nil, trivial, trivial⟩
  | list items h =>
    rw [normalize, normalizeItems_eq_map]
    exact Tree.distinct_union (List.forall_mem_map.mpr h)
  | selection entries h =>
    rw [normalize, normalizeEntries_eq_map]
    exact Tree.distinct_ofList (List.forall_mem_map.mpr h)

end Expr

namespace Tree

mutual
/-- The expression that selects the fields of a tree. -/
def toExpr : Tree → Expr
  | .empty => .empty
  | .field name nested rest => .selection ((name, toExpr nested) :: toEntries rest)

/-- The fields of a tree, each with the expression that selects what lies beneath it. -/
def toEntries : Tree → List (Name × Expr)
  | .empty => []
  | .field name nested rest => (name, toExpr nested) :: toEntries rest
end

end Tree

end FieldSelection
