import FieldSelection.Proofs.Expr.RoundTrip
import FieldSelection.Proofs.Normalization
import FieldSelection.Tree.Json

/-!
# Reading back the text of a tree

A tree has three forms from which it can be read back. Its own text is read as a tree
(`parse?_render_eq`). The same text is also that of an expression, in which every field has a
selection, empty beneath a terminal field (`parse_render_tree_eq`). The expression that lists the
fields of the tree has a text of its own, which nests one level less. Whichever way it takes, the
tree comes back with the order of its fields at every depth (`normalize_reads_back`).
-/

namespace FieldSelection.Tree

variable {tree : Tree}

/-! ## The text as a tree -/

theorem toJsonEntries_eq_map (tree : Tree) :
    tree.toJsonEntries = tree.toList.map fun field => (field.1.text, field.2.toJson) := by
  induction tree with
  | empty => rfl
  | field name nested rest _ ih =>
      rw [toJsonEntries, ih, toList, List.map_cons]
      rfl

theorem noNumber_toJson (tree : Tree) : tree.toJson.NoNumber := by
  induction tree using nested_induct with
  | step tree ih =>
      rw [toJson, toJsonEntries_eq_map]
      exact Json.noNumber_object_iff.mpr (List.forall_mem_map.mpr fun field => ih field.1 field.2)

/-- To put a field is to put an entry among the fields listed. -/
theorem toList_put (tree : Tree) (name : Name) (nested : Tree) :
    (tree.put name nested).toList = Entries.put name nested tree.toList := by
  rw [put, Entries.put]
  induction tree with
  | empty => rfl
  | field n beneath rest _ ih =>
      by_cases h : n = name
      · simp [alter, toList, Entries.insertWith, h]
      · simp [alter, toList, Entries.insertWith, h, ih]

/-- To put several fields into the empty tree is to list them. -/
theorem toList_foldl_put (fields : List (Name × Tree)) :
    (fields.foldl (fun tree field => put tree field.1 field.2) empty).toList =
      Entries.ofList fields :=
  (List.foldl_hom toList fun tree field => (toList_put tree field.1 field.2).symm).symm

theorem putEntries?_map {fields : List (Name × Tree)} (tree : Tree)
    (h : ∀ field ∈ fields, ofJson? field.2.toJson = some field.2) :
    putEntries? tree (fields.map fun field => (field.1.text, field.2.toJson)) =
      some (fields.foldl (fun tree field => put tree field.1 field.2) tree) := by
  induction fields generalizing tree with
  | nil => rfl
  | cons field rest ih =>
      obtain ⟨hfield, hrest⟩ := List.forall_mem_cons.mp h
      rw [List.map_cons, putEntries?, hfield]
      exact ih _ hrest

/-- The JSON value of a tree stands for that tree. -/
theorem ofJson?_toJson (h : tree.Distinct) : ofJson? tree.toJson = some tree := by
  induction tree using nested_induct with
  | step tree ih =>
      have hfields (field : Name × Tree) (hmem : field ∈ tree.toList) :
          ofJson? field.2.toJson = some field.2 :=
        ih field.1 field.2 hmem (h.of_mem hmem)
      rw [toJson, ofJson?, toJsonEntries_eq_map, putEntries?_map .empty hfields]
      refine congrArg some (toList_injective ?_)
      rw [toList_foldl_put]
      exact Entries.ofList_eq_self h.nodup_names

/-- The text of a tree is read back as that tree, unless it nests too deep. -/
theorem parse?_render_eq (h : tree.Distinct) :
    parse? tree.render = if tree.toJson.nesting ≤ Json.maxNesting then some tree else none := by
  rw [parse?, render, Json.ofText?_toText (noNumber_toJson tree)]
  by_cases hle : tree.toJson.nesting ≤ Json.maxNesting
  · rw [if_pos hle, if_pos hle]
    exact ofJson?_toJson h
  · rw [if_neg hle, if_neg hle]
    rfl

/-! ## The text as an expression -/

/-- The fields of a tree, each with the selection of the fields beneath it. -/
def selectionEntries : Tree → List (Name × Expr)
  | .empty => []
  | .field name nested rest =>
      (name, .selection nested.selectionEntries) :: rest.selectionEntries

/-- The expression as which the text of a tree is read. -/
def toSelection (tree : Tree) : Expr :=
  .selection tree.selectionEntries

theorem selectionEntries_eq_map (tree : Tree) :
    tree.selectionEntries = tree.toList.map fun field => (field.1, field.2.toSelection) := by
  induction tree with
  | empty => rfl
  | field name nested rest _ ih =>
      rw [selectionEntries, ih, toList, List.map_cons]
      rfl

theorem entriesToJson_selectionEntries (tree : Tree) :
    Expr.entriesToJson tree.selectionEntries = tree.toJsonEntries := by
  induction tree with
  | empty => rfl
  | field name nested rest ihNested ihRest =>
      rw [selectionEntries, Expr.entriesToJson, Expr.toJson, ihNested, ihRest, toJsonEntries]

theorem render_toSelection (tree : Tree) : tree.toSelection.render = tree.render :=
  congrArg (fun entries => (Json.object entries).toText) (entriesToJson_selectionEntries tree)

theorem nesting_toSelection (tree : Tree) : tree.toSelection.nesting = tree.toJson.nesting := by
  rw [← Expr.nesting_toJson]
  exact congrArg (fun entries => (Json.object entries).nesting) (entriesToJson_selectionEntries tree)

/-- A selection of the fields of a tree repeats no key if what it gives them does not. -/
theorem distinct_selection_of_fields {value : Tree → Expr} (h : tree.Distinct)
    (hvalue : ∀ name nested, (name, nested) ∈ tree.toList → (value nested).Distinct) :
    (Expr.selection (tree.toList.map fun field => (field.1, value field.2))).Distinct := by
  refine ⟨?_, Expr.distinctEntries_iff.mpr (List.forall_mem_map.mpr fun field => ?_)⟩
  · rw [Entries.keys, List.map_map]
    exact h.nodup_names
  · exact hvalue field.1 field.2

theorem distinct_toSelection (h : tree.Distinct) : tree.toSelection.Distinct := by
  induction tree using nested_induct with
  | step tree ih =>
      rw [toSelection, selectionEntries_eq_map]
      exact distinct_selection_of_fields h fun name nested hmem =>
        ih name nested hmem (h.of_mem hmem)

theorem normalize_toSelection (h : tree.Distinct) : tree.toSelection.normalize = tree := by
  induction tree using nested_induct with
  | step tree ih =>
      rw [toSelection, selectionEntries_eq_map]
      exact normalize_selection_of_fields h fun name nested hmem =>
        ih name nested hmem (h.of_mem hmem)

/-- The text of a tree is also read as an expression, which selects the fields of the tree in their
order. -/
theorem parse_render_tree_eq (h : tree.Distinct) :
    (Expr.parse tree.render).map Expr.normalize =
      if tree.toJson.nesting ≤ Json.maxNesting then .ok tree else .error .malformed := by
  rw [← render_toSelection, Expr.parse_render_eq (distinct_toSelection h), nesting_toSelection]
  split
  · exact congrArg Except.ok (normalize_toSelection h)
  · rfl

/-! ## The text of the expression of a tree -/

theorem distinct_toExpr (h : tree.Distinct) : tree.toExpr.Distinct := by
  induction tree using nested_induct with
  | step tree ih =>
      have hselection : (Expr.selection tree.toEntries).Distinct := by
        rw [toEntries_eq_map]
        exact distinct_selection_of_fields h fun name nested hmem =>
          ih name nested hmem (h.of_mem hmem)
      cases tree with
      | empty => trivial
      | field => exact hselection

/-- The expression of a tree nests one level less than its text, because it ends in terminal fields
where the text has empty objects. -/
theorem nesting_toExpr (tree : Tree) : tree.toExpr.nesting + 1 = tree.toJson.nesting := by
  rw [toJson, Json.nesting, Nat.add_right_cancel_iff]
  induction tree with
  | empty => rfl
  | field name nested rest ihNested ihRest =>
      have hrest : max (nested.toExpr.nesting + 1) rest.toExpr.nesting =
          max nested.toExpr.nesting (Expr.nestingEntries rest.toEntries) + 1 := by
        cases rest with
        | empty => simp [toExpr, toEntries, Expr.nesting, Expr.nestingEntries]
        | field => simp [toExpr, toEntries, Expr.nesting, Nat.add_max_add_right]
      rw [toJsonEntries, Json.nestingEntries, Json.nesting, ← ihNested, ← ihRest, hrest, toExpr,
        Expr.nesting, Expr.nestingEntries]

theorem parse_render_toExpr_eq (h : tree.Distinct) :
    (Expr.parse tree.toExpr.render).map Expr.normalize =
      if tree.toJson.nesting ≤ Json.maxNesting + 1 then .ok tree else .error .malformed := by
  rw [Expr.parse_render_eq (distinct_toExpr h), ← nesting_toExpr]
  simp only [Nat.add_le_add_iff_right]
  split
  · exact congrArg Except.ok (normalize_toExpr h)
  · rfl

/-- Normalization takes the expression of a tree back to the tree, so that to normalize again what
has been normalized changes nothing. A tree whose text nests at most 127 objects is read back from
that text, both as a tree and as an expression, and from the text of its expression. The text of one
that nests deeper is refused. The order of fields is the same at every depth. -/
theorem normalize_reads_back :
    (∀ tree : Tree, tree.Distinct → tree.toExpr.normalize = tree) ∧
    (∀ expr : Expr, expr.normalize.toExpr.normalize = expr.normalize) ∧
    ∀ tree : Tree, tree.Distinct →
      (tree.toJson.nesting ≤ 127 →
        parse? tree.render = some tree ∧
        (Expr.parse tree.render).map Expr.normalize = .ok tree ∧
        (Expr.parse tree.toExpr.render).map Expr.normalize = .ok tree) ∧
      (127 < tree.toJson.nesting →
        parse? tree.render = none ∧
        (Expr.parse tree.render).map Expr.normalize = .error .malformed) := by
  refine ⟨fun tree => normalize_toExpr, fun expr => normalize_toExpr expr.distinct_normalize,
    fun tree h => ⟨fun hle => ?_, fun hlt => ?_⟩⟩
  · have hfits : tree.toJson.nesting ≤ Json.maxNesting := hle
    rw [parse?_render_eq h, parse_render_tree_eq h, parse_render_toExpr_eq h, if_pos hfits,
      if_pos hfits, if_pos (Nat.le_succ_of_le hfits)]
    exact ⟨rfl, rfl, rfl⟩
  · have hdeep : ¬ tree.toJson.nesting ≤ Json.maxNesting := Nat.not_le_of_lt hlt
    rw [parse?_render_eq h, parse_render_tree_eq h, if_neg hdeep, if_neg hdeep]
    exact ⟨rfl, rfl⟩

/-- A quotation mark, a backslash, a null character and the empty text as names of fields. -/
def escaped : Tree :=
  .field ⟨"\"\\"⟩ (.field ⟨"\x00"⟩ .empty (.leaf ⟨""⟩)) (.leaf ⟨"é"⟩)

/-- A field beneath a field, so many times. -/
def tower : Nat → Tree
  | 0 => .empty
  | levels + 1 => .field ⟨"parent"⟩ (tower levels) .empty

theorem distinct_tower (levels : Nat) : (tower levels).Distinct := by
  induction levels with
  | zero => trivial
  | succ levels ih => exact ⟨List.not_mem_nil, ih, trivial⟩

theorem nesting_tower (levels : Nat) : (tower levels).toJson.nesting = levels + 1 := by
  induction levels with
  | zero => rfl
  | succ levels ih =>
      show max (tower levels).toJson.nesting 0 + 1 = _
      rw [ih, Nat.max_zero]

theorem normalize_reads_back_escaped :
    escaped.Distinct ∧ escaped.toExpr.normalize = escaped ∧
      parse? escaped.render = some escaped ∧
      (Expr.parse escaped.toExpr.render).map Expr.normalize = .ok escaped ∧
      (Expr.parse (tower 126).render).map Expr.normalize = .ok (tower 126) ∧
      parse? (tower 127).render = none := by
  have hescaped : escaped.Distinct := by decide
  obtain ⟨hnormalize, -, hread⟩ := normalize_reads_back
  obtain ⟨htree, -, hexpr⟩ := (hread _ hescaped).1 (by decide)
  obtain ⟨-, hfits, -⟩ := (hread _ (distinct_tower 126)).1 (Nat.le_of_eq (nesting_tower 126))
  obtain ⟨hdeep, -⟩ := (hread _ (distinct_tower 127)).2 (Nat.le_of_eq (nesting_tower 127).symm)
  exact ⟨hescaped, hnormalize _ hescaped, htree, hexpr, hfits, hdeep⟩

end FieldSelection.Tree
