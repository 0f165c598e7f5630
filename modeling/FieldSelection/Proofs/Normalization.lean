import FieldSelection.Normalization
import FieldSelection.Proofs.Tree.Paths

/-!
# Paths of normalized expressions

`Expr.selects_normalize_list` and `Expr.selects_normalize_selection` describe the tree of an
expression by its paths. `Tree.normalize_toExpr` says that the expression of a tree normalizes to
that tree, with the order of its fields.
-/

namespace FieldSelection

namespace Expr

@[simp]
theorem normalize_empty : normalize .empty = .empty := rfl

@[simp]
theorem normalize_name (name : Name) : normalize (.name name) = .leaf name := rfl

theorem selects_normalize_list {items : List Expr} {first : Name} {path : List Name} :
    (normalize (.list items)).Selects (first :: path) ↔
      ∃ item ∈ items, item.normalize.Selects (first :: path) := by
  simp [normalize, normalizeItems_eq_map, Tree.selects_union]

theorem selects_normalize_selection {entries : List (Name × Expr)} {first : Name}
    {path : List Name} :
    (normalize (.selection entries)).Selects (first :: path) ↔
      ∃ value, (first, value) ∈ entries ∧ value.normalize.Selects path := by
  rw [normalize, normalizeEntries_eq_map, Tree.selects_ofList]
  constructor
  · intro hexists
    obtain ⟨nested, hmem, hpath⟩ := hexists
    obtain ⟨⟨key, value⟩, hentry, heq⟩ := List.mem_map.mp hmem
    cases heq
    exact ⟨value, hentry, hpath⟩
  · intro hexists
    obtain ⟨value, hmem, hpath⟩ := hexists
    exact ⟨value.normalize, List.mem_map.mpr ⟨_, hmem, rfl⟩, hpath⟩

theorem selects_normalize_selection_nil {path : List Name} :
    (normalize (.selection [])).Selects path ↔ path = [] :=
  Tree.selects_empty

theorem selects_normalize_selection_cons {key first : Name} {value : Expr}
    {entries : List (Name × Expr)} {path : List Name} :
    (normalize (.selection ((key, value) :: entries))).Selects (first :: path) ↔
      key = first ∧ value.normalize.Selects path ∨
        (normalize (.selection entries)).Selects (first :: path) := by
  simp only [selects_normalize_selection, List.mem_cons, Prod.mk.injEq, or_and_right, exists_or,
    and_assoc, exists_and_left, exists_eq_left, eq_comm (a := first)]

/-- An expression without members selects nothing. -/
theorem normalize_of_isEmpty {expr : Expr} (h : expr.isEmpty) : expr.normalize = .empty := by
  cases expr with
  | empty => rfl
  | name n => cases h
  | list items =>
      rw [List.isEmpty_iff.mp h]
      rfl
  | selection entries =>
      rw [List.isEmpty_iff.mp h]
      rfl

end Expr

namespace Tree

theorem toEntries_eq_map (tree : Tree) :
    tree.toEntries = tree.toList.map fun field => (field.1, field.2.toExpr) := by
  induction tree with
  | empty => rfl
  | field name nested rest _ ih => rw [toEntries, ih, toList, List.map_cons]

theorem keys_toEntries (tree : Tree) : Entries.keys tree.toEntries = tree.names := by
  rw [toEntries_eq_map, Entries.keys, List.map_map]
  rfl

/-- A selection of the fields of a tree, each with an expression that normalizes to what lies
beneath it, normalizes to that tree, with the order of its fields. -/
theorem normalize_selection_of_fields {tree : Tree} {value : Tree → Expr} (h : tree.Distinct)
    (hvalue : ∀ name nested, (name, nested) ∈ tree.toList → (value nested).normalize = nested) :
    (Expr.selection (tree.toList.map fun field => (field.1, value field.2))).normalize = tree := by
  have hmap : tree.toList.map (fun field => (field.1, (value field.2).normalize)) =
      tree.toList := by
    refine (List.map_congr_left fun field hmem => ?_).trans (List.map_id _)
    rw [hvalue field.1 field.2 hmem]
    rfl
  rw [Expr.normalize, Expr.normalizeEntries_eq_map, List.map_map]
  exact (congrArg ofList hmap).trans (ofList_toList h)

theorem normalize_toExpr_eq_selection (tree : Tree) :
    tree.toExpr.normalize = (Expr.selection tree.toEntries).normalize := by
  cases tree <;> rfl

/-- The expression of a tree selects the fields of that tree, in their order. -/
theorem normalize_toExpr {tree : Tree} (h : tree.Distinct) : tree.toExpr.normalize = tree := by
  induction tree using nested_induct with
  | step tree ih =>
      rw [normalize_toExpr_eq_selection, toEntries_eq_map]
      exact normalize_selection_of_fields h fun name nested hmem =>
        ih name nested hmem (h.of_mem hmem)

end Tree

end FieldSelection
