import FieldSelection.Expansion.Selection
import FieldSelection.Proofs.Normalization

/-!
# The fields of an expanded selection

`Tree.mergeBeneath` hands a tree to every field of another. `Expr.selects_assemble` says that an
assembled selection selects what its keys come to, each with its value handed to every field, and
nothing else. The order in which keys contribute and the place where their contributions are kept
leave no trace in the paths of the result.
-/

namespace FieldSelection

namespace Tree

/-- A tree with `below` merged into what lies beneath each of its fields. -/
def mergeBeneath : Tree → Tree → Tree
  | .empty, _ => .empty
  | .field name nested rest, below => .field name (nested.merge below) (rest.mergeBeneath below)

theorem mergeBeneath_empty (tree : Tree) : tree.mergeBeneath .empty = tree := by
  induction tree with
  | empty => rfl
  | field name nested rest _ ih => rw [mergeBeneath, merge_empty, ih]

/-- A path of the result is a path of the tree, or leads from one of its fields into `below`. -/
theorem selects_mergeBeneath {tree below : Tree} {first : Name} {path : List Name} :
    (tree.mergeBeneath below).Selects (first :: path) ↔
      tree.Selects (first :: path) ∨ first ∈ tree.names ∧ below.Selects path := by
  induction tree with
  | empty => simp [mergeBeneath, names, toList]
  | field name nested rest _ ih =>
      rw [mergeBeneath, selects_field, selects_merge, ih, selects_field, names_field, List.mem_cons,
        eq_comm (a := first), and_or_left, or_and_right]
      exact or_or_or_comm

theorem names_mergeBeneath (tree below : Tree) : (tree.mergeBeneath below).names = tree.names := by
  induction tree with
  | empty => rfl
  | field name nested rest _ ih => rw [mergeBeneath, names_field, ih, names_field]

theorem distinct_mergeBeneath {tree below : Tree} (htree : tree.Distinct)
    (hbelow : below.Distinct) : (tree.mergeBeneath below).Distinct := by
  induction tree with
  | empty => trivial
  | field name nested rest _ ih =>
      obtain ⟨hname, hnested, hrest⟩ := htree
      exact ⟨by rwa [names_mergeBeneath], distinct_merge hnested hbelow, ih hrest⟩

end Tree

namespace Expr

/-- Joined values select what either of them selects. -/
theorem selects_normalize_join {a b : Expr} {path : List Name} :
    (join a b).normalize.Selects path ↔ a.normalize.Selects path ∨ b.normalize.Selects path := by
  cases path with
  | nil => simp
  | cons first path =>
      unfold join
      by_cases ha : a.isEmpty
      · simp [ha, normalize_of_isEmpty ha]
      · by_cases hb : b.isEmpty
        · simp [ha, hb, normalize_of_isEmpty hb]
        · simp [ha, hb, selects_normalize_list]

theorem selects_insertWith_join {fields : List (Name × Expr)} {field first : Name} {value : Expr}
    {path : List Name} :
    (normalize (.selection (Entries.insertWith join field value fields))).Selects (first :: path) ↔
      (normalize (.selection fields)).Selects (first :: path) ∨
        field = first ∧ value.normalize.Selects path := by
  induction fields with
  | nil => simp [Entries.insertWith, selects_normalize_selection_cons,
      selects_normalize_selection_nil]
  | cons entry rest ih =>
      obtain ⟨key, old⟩ := entry
      by_cases h : key = field
      · subst h
        rw [Entries.insertWith, if_pos rfl, selects_normalize_selection_cons,
          selects_normalize_selection_cons, selects_normalize_join]
        tauto
      · rw [Entries.insertWith, if_neg h, selects_normalize_selection_cons, ih,
          selects_normalize_selection_cons, or_assoc]

/-- The fields collected from pairs select what the pairs select, whether or not they repeat a
field. -/
theorem selects_foldl_insertWith_join (pairs fields : List (Name × Expr)) (first : Name)
    (path : List Name) :
    (normalize (.selection (pairs.foldl
      (fun fields (field, value) => Entries.insertWith join field value fields)
      fields))).Selects (first :: path) ↔
      (normalize (.selection fields)).Selects (first :: path) ∨
        (normalize (.selection pairs)).Selects (first :: path) := by
  induction pairs generalizing fields with
  | nil => simp [selects_normalize_selection_nil]
  | cons pair rest ih =>
      rw [List.foldl_cons, ih, selects_insertWith_join, selects_normalize_selection_cons, or_assoc]

/-- What a field receives selects what the expansion selects beneath it and what the value
selects. -/
theorem selects_normalize_received {beneath : Tree} (h : beneath.Distinct) {value : Expr}
    {path : List Name} :
    (if beneath.isEmpty then value else .list [beneath.toExpr, value]).normalize.Selects path ↔
      beneath.Selects path ∨ value.normalize.Selects path := by
  cases path with
  | nil => simp
  | cons first path =>
      cases beneath with
      | empty => simp [Tree.isEmpty]
      | field name nested rest =>
          simp [Tree.isEmpty, selects_normalize_list, Tree.normalize_toExpr h]

/-- A key with a value hands it to every field of its expansion. -/
theorem selects_contribution_of_value {expanded value : Expr} (h : ¬ value.isEmpty) {first : Name}
    {path : List Name} :
    (normalize (.selection (contribution expanded value))).Selects (first :: path) ↔
      (expanded.normalize.mergeBeneath value.normalize).Selects (first :: path) := by
  have hdistinct := distinct_normalize expanded
  simp only [selects_normalize_selection, contribution, if_neg h, Tree.selects_mergeBeneath]
  rw [Tree.selects_cons_iff]
  constructor
  · intro hexists
    obtain ⟨received, hmem, hpath⟩ := hexists
    obtain ⟨⟨field, beneath⟩, hfield, heq⟩ := List.mem_map.mp hmem
    cases heq
    rcases (selects_normalize_received (hdistinct.of_mem hfield)).mp hpath with hpath | hpath
    · exact Or.inl ⟨beneath, hfield, hpath⟩
    · exact Or.inr ⟨List.mem_map.mpr ⟨_, hfield, rfl⟩, hpath⟩
  · intro heither
    rcases heither with ⟨beneath, hfield, hpath⟩ | ⟨hname, hpath⟩
    · exact ⟨_, List.mem_map.mpr ⟨_, hfield, rfl⟩,
        (selects_normalize_received (hdistinct.of_mem hfield)).mpr (Or.inl hpath)⟩
    · obtain ⟨⟨_, beneath⟩, hfield, rfl⟩ := List.mem_map.mp hname
      exact ⟨_, List.mem_map.mpr ⟨_, hfield, rfl⟩,
        (selects_normalize_received (hdistinct.of_mem hfield)).mpr (Or.inr hpath)⟩

/-- A key contributes what its expansion selects, with the value handed to every field of it. -/
theorem selects_contribution {expanded value : Expr} {first : Name} {path : List Name} :
    (normalize (.selection (contribution expanded value))).Selects (first :: path) ∨
        (∃ other, remainder? expanded value = some other ∧
          other.normalize.Selects (first :: path)) ↔
      (expanded.normalize.mergeBeneath value.normalize).Selects (first :: path) := by
  by_cases h : value.isEmpty
  · rw [normalize_of_isEmpty h, Tree.mergeBeneath_empty]
    cases expanded with
    | name field =>
        simp [contribution, remainder?, h, selects_normalize_selection_cons,
          selects_normalize_selection_nil]
    | _ => simp [contribution, remainder?, h, selects_normalize_selection_nil]
  · simp [selects_contribution_of_value h, remainder?, h]

/-- An assembled selection selects what its keys contribute and what stands beside it. -/
theorem selects_assemble_parts {entries : List (Expr × Expr)} {first : Name} {path : List Name} :
    (assemble entries).normalize.Selects (first :: path) ↔
      (normalize (.selection (entries.flatMap fun (expanded, value) =>
          contribution expanded value))).Selects (first :: path) ∨
        ∃ other ∈ entries.filterMap fun (expanded, value) => remainder? expanded value,
          other.normalize.Selects (first :: path) := by
  have hfields := selects_foldl_insertWith_join
    (entries.flatMap fun (expanded, value) => contribution expanded value) [] first path
  rw [selects_normalize_selection_nil, or_iff_right (List.cons_ne_nil _ _)] at hfields
  rw [← hfields]
  unfold assemble
  dsimp only
  generalize (entries.flatMap fun (expanded, value) => contribution expanded value).foldl _ [] =
    fields
  split
  · next hnil => simp [hnil]
  · rw [selects_normalize_list]
    cases fields with
    | nil => simp [selects_normalize_selection_nil]
    | cons => simp

/-- An assembled selection selects what its keys come to, each with its value handed to every
field. -/
theorem selects_assemble {entries : List (Expr × Expr)} {first : Name} {path : List Name} :
    (assemble entries).normalize.Selects (first :: path) ↔
      ∃ entry ∈ entries,
        (entry.1.normalize.mergeBeneath entry.2.normalize).Selects (first :: path) := by
  simp only [← selects_contribution, and_or_left, exists_or]
  rw [selects_assemble_parts, selects_normalize_selection]
  refine or_congr ?_ ?_
  · simp only [selects_normalize_selection, List.mem_flatMap]
    constructor
    · intro hexists
      obtain ⟨value, ⟨entry, hentry, hmem⟩, hpath⟩ := hexists
      exact ⟨entry, hentry, value, hmem, hpath⟩
    · intro hexists
      obtain ⟨entry, hentry, value, hmem, hpath⟩ := hexists
      exact ⟨value, ⟨entry, hentry, hmem⟩, hpath⟩
  · simp only [List.mem_filterMap]
    constructor
    · intro hexists
      obtain ⟨other, ⟨entry, hentry, hother⟩, hpath⟩ := hexists
      exact ⟨entry, hentry, other, hother, hpath⟩
    · intro hexists
      obtain ⟨entry, hentry, other, hother, hpath⟩ := hexists
      exact ⟨other, ⟨entry, hentry, hother⟩, hpath⟩

end Expr

end FieldSelection
