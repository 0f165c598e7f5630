import FieldSelection.Proofs.Tree.Merge
import Mathlib.Data.Set.Lattice

/-!
# Union of selections

`Tree.paths` is the set of the paths from the root of a tree to its other nodes. Merging, inserting
a field and collecting fields into a tree all amount to unions of such sets, and two trees are the
same selection when their sets are equal (`merge_unites_paths`). Therefore nothing that either of two
trees selects is lost when they are merged, whichever comes first.
-/

namespace FieldSelection.Tree

/-- The paths from the root of a tree to its other nodes. -/
def paths (tree : Tree) : Set (List Name) :=
  {path | path ≠ [] ∧ tree.Selects path}

/-- The path to a field, and those that lead on from it into the tree beneath. -/
def through (name : Name) (nested : Tree) : Set (List Name) :=
  {[name]} ∪ List.cons name '' nested.paths

variable {a b tree nested : Tree} {name first : Name} {path : List Name}

theorem nil_not_mem_paths : [] ∉ tree.paths := fun h => h.1 rfl

@[simp]
theorem cons_mem_paths : first :: path ∈ tree.paths ↔ tree.Selects (first :: path) :=
  and_iff_right (List.cons_ne_nil first path)

theorem nil_not_mem_through : [] ∉ through name nested := by
  simp [through]

@[simp]
theorem cons_mem_through :
    first :: path ∈ through name nested ↔ name = first ∧ nested.Selects path := by
  cases path with
  | nil => simp [through, nil_not_mem_paths, eq_comm]
  | cons second path => simp [through, and_comm]

/-- Sets of paths that do not hold the empty path are equal when they hold the same other paths. -/
theorem ext_paths {s t : Set (List Name)} (hs : [] ∉ s) (ht : [] ∉ t)
    (h : ∀ first path, first :: path ∈ s ↔ first :: path ∈ t) : s = t := by
  ext path
  cases path with
  | nil => exact iff_of_false hs ht
  | cons first path => exact h first path

theorem paths_merge (a b : Tree) : (a.merge b).paths = a.paths ∪ b.paths := by
  refine ext_paths nil_not_mem_paths ?_ fun first path => ?_
  · simp [nil_not_mem_paths]
  · simp [selects_merge]

theorem paths_insert (tree : Tree) (name : Name) (nested : Tree) :
    (tree.insert name nested).paths = tree.paths ∪ through name nested := by
  refine ext_paths nil_not_mem_paths ?_ fun first path => ?_
  · simp [nil_not_mem_paths, nil_not_mem_through]
  · simp [selects_insert]

theorem paths_ofList (pairs : List (Name × Tree)) :
    (ofList pairs).paths = ⋃ pair ∈ pairs, through pair.1 pair.2 := by
  refine ext_paths nil_not_mem_paths ?_ fun first path => ?_
  · simp [nil_not_mem_through]
  · simp [selects_ofList]

theorem same_iff_paths (ha : a.Distinct) (hb : b.Distinct) : a.same b ↔ a.paths = b.paths := by
  rw [same_iff ha hb]
  constructor
  · intro h
    exact ext_paths nil_not_mem_paths nil_not_mem_paths fun _ _ => by simp [h]
  · intro heq path
    cases path with
    | nil => simp
    | cons first path => rw [← cons_mem_paths, heq, cons_mem_paths]

/-- The order of two trees makes no difference to what is selected when they are merged. -/
theorem same_merge_comm (ha : a.Distinct) (hb : b.Distinct) : (a.merge b).same (b.merge a) := by
  rw [same_iff_paths (distinct_merge ha hb) (distinct_merge hb ha), paths_merge, paths_merge]
  exact Set.union_comm _ _

/-- A terminal field leaves alone what another tree selects beneath it, whichever tree comes
first. -/
theorem get?_merge_terminal (ha : a.Distinct) (hb : b.Distinct)
    (hget : a.get? name = some nested) (hterminal : b.get? name = some .empty) :
    (a.merge b).get? name = some nested ∧ (b.merge a).get? name = some nested := by
  rw [get?_merge a hb, get?_merge b ha, hget, hterminal, Option.merge_some_some,
    Option.merge_some_some, merge_empty, empty_merge (ha.of_get? hget)]
  exact ⟨rfl, rfl⟩

/-- Two trees are the same selection exactly when they have the same paths. Merging unites the paths
of two trees, whether it is done at once or by inserting the fields of the second one by one.
Inserting a field adds the path to it and those through it, and fields that are collected into a
tree contribute the same, repeated or not. Hence the order of two trees does not matter to what they
select when merged, nothing that either selects is lost, and a terminal field never stands in the way
of a deeper selection. -/
theorem merge_unites_paths :
    (∀ a b : Tree, a.Distinct → b.Distinct → (a.same b ↔ a.paths = b.paths)) ∧
    (∀ a b : Tree, (a.merge b).paths = a.paths ∪ b.paths ∧
      (b.toList.foldl (fun tree field => tree.insert field.1 field.2) a).paths =
        a.paths ∪ b.paths) ∧
    (∀ (a : Tree) (name : Name) (nested : Tree),
      (a.insert name nested).paths = a.paths ∪ ({[name]} ∪ List.cons name '' nested.paths)) ∧
    (∀ pairs : List (Name × Tree),
      (ofList pairs).paths = ⋃ pair ∈ pairs, {[pair.1]} ∪ List.cons pair.1 '' pair.2.paths) ∧
    ∀ a b : Tree, a.Distinct → b.Distinct →
      (a.merge b).same (b.merge a) ∧
      a.paths ⊆ (a.merge b).paths ∧ b.paths ⊆ (a.merge b).paths ∧
      ∀ name nested, a.get? name = some nested → b.get? name = some .empty →
        (a.merge b).get? name = some nested ∧ (b.merge a).get? name = some nested := by
  refine ⟨fun a b => same_iff_paths, fun a b => ⟨paths_merge a b, ?_⟩, paths_insert, paths_ofList,
    fun a b ha hb => ⟨same_merge_comm ha hb, ?_, ?_, fun _ _ => get?_merge_terminal ha hb⟩⟩
  · rw [← merge_eq_foldl, paths_merge]
  · exact paths_merge a b ▸ Set.subset_union_left
  · exact paths_merge a b ▸ Set.subset_union_right

/-- The terminal field of a visitor and what a badge selects beneath it. -/
theorem merge_unites_paths_visitor :
    visitor.Distinct ∧ badge.Distinct ∧
      (visitor.merge badge).same (badge.merge visitor) ∧
      (visitor.merge badge).paths = (badge.merge visitor).paths ∧
      [⟨"owner"⟩, ⟨"team"⟩] ∈ (visitor.merge badge).paths ∧
      (visitor.merge badge).get? ⟨"owner"⟩ = badge.get? ⟨"owner"⟩ := by
  have hvisitor : visitor.Distinct := by decide
  have hbadge : badge.Distinct := by decide
  obtain ⟨hsame, -, -, -, hboth⟩ := merge_unites_paths
  obtain ⟨hcomm, -, hlost, -⟩ := hboth visitor badge hvisitor hbadge
  obtain ⟨-, -, -, hterminal⟩ := hboth badge visitor hbadge hvisitor
  have hteam : [⟨"owner"⟩, ⟨"team"⟩] ∈ badge.paths :=
    cons_mem_paths.mpr (Or.inl ⟨rfl, Or.inl ⟨rfl, trivial⟩⟩)
  refine ⟨hvisitor, hbadge, hcomm, ?_, hlost hteam, (hterminal _ _ rfl rfl).2⟩
  exact (hsame _ _ (distinct_merge hvisitor hbadge) (distinct_merge hbadge hvisitor)).mp hcomm

end FieldSelection.Tree
