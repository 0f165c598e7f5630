import FieldSelection.Tree.Basic
import Mathlib.Data.List.Perm.Subperm
import Mathlib.Tactic.Tauto

/-!
# The paths of a tree

`Tree.Selects` holds of the paths of names that lead from the root of a tree to one of its nodes.
Every operation on trees is described by its paths: `selects_merge` says that merging unites them,
and `same_iff` that two trees are the same selection exactly when they have the same paths.
`empty_merge` and `ofList_toList` concern the order of fields as well.
-/

namespace FieldSelection.Tree

/-- Whether the names of a path lead from the root of a tree to one of its nodes. -/
def Selects : Tree → List Name → Prop
  | _, [] => True
  | .empty, _ :: _ => False
  | .field name nested rest, first :: path =>
      name = first ∧ nested.Selects path ∨ rest.Selects (first :: path)

@[simp]
theorem selects_nil (tree : Tree) : tree.Selects [] := by
  cases tree <;> trivial

@[simp]
theorem selects_empty {path : List Name} : Tree.empty.Selects path ↔ path = [] := by
  cases path <;> simp [Selects]

theorem selects_field {name first : Name} {nested rest : Tree} {path : List Name} :
    (field name nested rest).Selects (first :: path) ↔
      name = first ∧ nested.Selects path ∨ rest.Selects (first :: path) := Iff.rfl

@[simp]
theorem selects_leaf {name first : Name} {path : List Name} :
    (leaf name).Selects (first :: path) ↔ name = first ∧ path = [] := by
  simp [leaf, selects_field]

/-- A path leads through one of the fields at top level. -/
theorem selects_cons_iff {tree : Tree} {first : Name} {path : List Name} :
    tree.Selects (first :: path) ↔
      ∃ nested, (first, nested) ∈ tree.toList ∧ nested.Selects path := by
  induction tree with
  | empty => simp [toList]
  | field name nested rest _ ih =>
      rw [selects_field, ih, toList]
      constructor
      · intro heither
        rcases heither with ⟨rfl, h⟩ | ⟨other, hmem, h⟩
        · exact ⟨nested, List.mem_cons_self, h⟩
        · exact ⟨other, List.mem_cons_of_mem _ hmem, h⟩
      · intro hexists
        obtain ⟨other, hmem, h⟩ := hexists
        rcases List.mem_cons.mp hmem with heq | hmem
        · cases heq
          exact Or.inl ⟨rfl, h⟩
        · exact Or.inr ⟨other, hmem, h⟩

theorem selects_singleton_iff {tree : Tree} {name : Name} :
    tree.Selects [name] ↔ name ∈ tree.names := by
  simp [selects_cons_iff, names]

/-! ## Paths of the operations -/

/-- If `update` adds the paths of `fresh`, then altering a field by it adds the paths of `fresh`
beneath that field. -/
theorem selects_alter {name : Name} {update : Tree → Tree} {fresh tree : Tree}
    (hupdate : ∀ old path, (update old).Selects path ↔ old.Selects path ∨ fresh.Selects path)
    {first : Name} {path : List Name} :
    (alter name update fresh tree).Selects (first :: path) ↔
      tree.Selects (first :: path) ∨ name = first ∧ fresh.Selects path := by
  induction tree with
  | empty => simp [alter, selects_field]
  | field n nested rest _ ih =>
      by_cases h : n = name
      · subst h
        simp only [alter, if_true, selects_field, hupdate, and_or_left]
        exact or_right_comm
      · rw [alter, if_neg h, selects_field, ih, selects_field, or_assoc]

/-- Merging unites the paths of two trees. -/
theorem selects_merge {a b : Tree} {path : List Name} :
    (a.merge b).Selects path ↔ a.Selects path ∨ b.Selects path := by
  induction b generalizing a path with
  | empty => cases path <;> simp [selects_empty]
  | field name nested rest ihNested ihRest =>
      cases path with
      | nil => simp
      | cons first path =>
          rw [merge_field, ihRest, insert, selects_alter (fun _ _ => ihNested), selects_field,
            or_assoc]

theorem selects_insert {tree nested : Tree} {name first : Name} {path : List Name} :
    (tree.insert name nested).Selects (first :: path) ↔
      tree.Selects (first :: path) ∨ name = first ∧ nested.Selects path :=
  selects_alter fun _ _ => selects_merge

theorem selects_foldl_merge {tree : Tree} {trees : List Tree} {path : List Name} :
    (trees.foldl merge tree).Selects path ↔
      tree.Selects path ∨ ∃ other ∈ trees, other.Selects path := by
  induction trees generalizing tree with
  | nil => simp
  | cons other rest ih =>
      simp only [List.foldl_cons, ih, selects_merge, List.mem_cons, exists_eq_or_imp, or_assoc]

/-- The union of trees has the paths of each of them. -/
theorem selects_union {trees : List Tree} {first : Name} {path : List Name} :
    (union trees).Selects (first :: path) ↔ ∃ tree ∈ trees, tree.Selects (first :: path) := by
  simp [union, selects_foldl_merge]

/-- The union of trees has the fields of each of them. -/
theorem mem_names_union {trees : List Tree} {name : Name} :
    name ∈ (union trees).names ↔ ∃ tree ∈ trees, name ∈ tree.names := by
  simp only [← selects_singleton_iff, selects_union]

theorem selects_foldl_insert {tree : Tree} {pairs : List (Name × Tree)} {first : Name}
    {path : List Name} :
    (pairs.foldl (fun tree pair => tree.insert pair.1 pair.2) tree).Selects (first :: path) ↔
      tree.Selects (first :: path) ∨ ∃ nested, (first, nested) ∈ pairs ∧ nested.Selects path := by
  induction pairs generalizing tree with
  | nil => simp
  | cons pair rest ih =>
      rw [List.foldl_cons, ih, selects_insert, or_assoc]
      refine or_congr_right ?_
      constructor
      · intro heither
        rcases heither with ⟨rfl, h⟩ | ⟨nested, hmem, h⟩
        · exact ⟨pair.2, List.mem_cons_self, h⟩
        · exact ⟨nested, List.mem_cons_of_mem _ hmem, h⟩
      · intro hexists
        obtain ⟨nested, hmem, h⟩ := hexists
        rcases List.mem_cons.mp hmem with rfl | hmem
        · exact Or.inl ⟨rfl, h⟩
        · exact Or.inr ⟨nested, hmem, h⟩

/-- A tree made of pairs has the paths that the pairs contribute, whether or not they repeat a
name. -/
theorem selects_ofList {pairs : List (Name × Tree)} {first : Name} {path : List Name} :
    (ofList pairs).Selects (first :: path) ↔
      ∃ nested, (first, nested) ∈ pairs ∧ nested.Selects path := by
  simp [ofList, selects_foldl_insert]

/-- The fields that are kept stay in their order, each over the tree that it had. -/
theorem toList_filter (keep : Name → Bool) (tree : Tree) :
    (tree.filter keep).toList = tree.toList.filter fun field => keep field.1 := by
  induction tree with
  | empty => rfl
  | field name nested rest _ ih => by_cases h : keep name <;> simp [filter, toList, h, ih]

/-- Filtering keeps the paths through the fields that are kept. -/
theorem selects_filter {keep : Name → Bool} {tree : Tree} {first : Name} {path : List Name} :
    (tree.filter keep).Selects (first :: path) ↔ keep first ∧ tree.Selects (first :: path) := by
  rw [selects_cons_iff, selects_cons_iff, toList_filter]
  constructor
  · intro hexists
    obtain ⟨nested, hmem, hpath⟩ := hexists
    obtain ⟨hmem, hkeep⟩ := List.mem_filter.mp hmem
    exact ⟨hkeep, nested, hmem, hpath⟩
  · intro hboth
    obtain ⟨hkeep, nested, hmem, hpath⟩ := hboth
    exact ⟨nested, List.mem_filter.mpr ⟨hmem, hkeep⟩, hpath⟩

theorem distinct_filter {tree : Tree} (h : tree.Distinct) (keep : Name → Bool) :
    (tree.filter keep).Distinct := by
  induction tree with
  | empty => trivial
  | field name nested rest _ ih =>
      obtain ⟨hname, hnested, hrest⟩ := h
      by_cases hkeep : keep name
      · rw [filter, if_pos hkeep]
        refine ⟨fun hmem => hname ?_, hnested, ih hrest⟩
        rw [← selects_singleton_iff] at hmem ⊢
        exact (selects_filter.mp hmem).2
      · rw [filter, if_neg hkeep]
        exact ih hrest

/-! ## Equality up to order -/

/-- Induction on trees with a hypothesis for what lies beneath each field. -/
@[elab_as_elim]
theorem nested_induct {motive : Tree → Prop}
    (step : ∀ tree, (∀ name nested, (name, nested) ∈ tree.toList → motive nested) → motive tree)
    (tree : Tree) : motive tree := by
  have both : motive tree ∧ ∀ name nested, (name, nested) ∈ tree.toList → motive nested := by
    induction tree with
    | empty => exact ⟨step _ (by simp [toList]), by simp [toList]⟩
    | field name nested rest ihNested ihRest =>
        have hmem : ∀ n t, (n, t) ∈ (field name nested rest).toList → motive t := by
          intro n t h
          rcases List.mem_cons.mp h with heq | h
          · cases heq
            exact ihNested.1
          · exact ihRest.2 n t h
        exact ⟨step _ hmem, hmem⟩
  exact both.1

theorem size_eq_length_names (tree : Tree) : tree.size = tree.names.length := by
  induction tree with
  | empty => rfl
  | field name nested rest _ ih => rw [size, ih, names_field, List.length_cons]

theorem Distinct.nodup_names {tree : Tree} (h : tree.Distinct) : tree.names.Nodup := by
  induction tree with
  | empty => exact List.nodup_nil
  | field name nested rest _ ih => exact List.nodup_cons.mpr ⟨h.1, ih h.2.2⟩

theorem Distinct.of_mem {tree nested : Tree} {name : Name} (h : tree.Distinct)
    (hmem : (name, nested) ∈ tree.toList) : nested.Distinct := by
  induction tree with
  | empty => simp [toList] at hmem
  | field n t rest _ ih =>
      rcases List.mem_cons.mp hmem with heq | hmem
      · cases heq
        exact h.2.1
      · exact ih h.2.2 hmem

/-- In a tree that lists no field twice, looking a field up finds every field listed. -/
theorem Distinct.get?_eq_some_iff {tree nested : Tree} {name : Name} (h : tree.Distinct) :
    tree.get? name = some nested ↔ (name, nested) ∈ tree.toList := by
  induction tree with
  | empty => simp [get?, toList]
  | field n t rest _ ih =>
      obtain ⟨hname, _, hrest⟩ := h
      by_cases hn : n = name
      · subst hn
        have hnot : (n, nested) ∉ rest.toList := fun hmem =>
          hname (List.mem_map.mpr ⟨_, hmem, rfl⟩)
        simp [get?, toList, hnot, eq_comm]
      · simp [get?, toList, hn, Ne.symm hn, ih hrest]

theorem Distinct.selects_cons_iff {tree : Tree} {first : Name} {path : List Name}
    (h : tree.Distinct) :
    tree.Selects (first :: path) ↔
      ∃ nested, tree.get? first = some nested ∧ nested.Selects path := by
  simp [Tree.selects_cons_iff, h.get?_eq_some_iff]

theorem agrees_iff {a b : Tree} :
    a.agrees b ↔ ∀ name nested, (name, nested) ∈ a.toList →
      ∃ other, b.get? name = some other ∧ nested.same other := by
  induction a with
  | empty => simp [agrees, toList]
  | field name nested rest _ ih =>
      cases hget : b.get? name with
      | none =>
          simp only [agrees, hget, toList]
          simpa using ⟨name, nested, Or.inl ⟨rfl, rfl⟩, by simp [hget]⟩
      | some other =>
          simp only [agrees, hget, toList, Bool.and_eq_true, ih, List.mem_cons]
          constructor
          · intro hboth n t heither
            obtain ⟨hsame, hrest⟩ := hboth
            rcases heither with heq | hmem
            · cases heq
              exact ⟨other, hget, by simpa [same] using hsame⟩
            · exact hrest n t hmem
          · intro h
            obtain ⟨found, hfound, hsame⟩ := h name nested (Or.inl rfl)
            rw [hget] at hfound
            cases hfound
            exact ⟨by simpa [same] using hsame, fun n t hmem => h n t (Or.inr hmem)⟩

theorem exists_get?_iff {tree : Tree} (h : tree.Distinct) {name : Name} :
    (∃ nested, tree.get? name = some nested) ↔ name ∈ tree.names := by
  simp [h.get?_eq_some_iff, names]

/-- Two trees are the same selection when they have the same fields at top level and the same
selection beneath each of them. -/
theorem same_iff_get? {a b : Tree} (ha : a.Distinct) (hb : b.Distinct) :
    a.same b ↔ a.names.Perm b.names ∧ ∀ name nested other,
      a.get? name = some nested → b.get? name = some other → nested.same other := by
  rw [same, Bool.and_eq_true, beq_iff_eq, agrees_iff, size_eq_length_names, size_eq_length_names]
  constructor
  · intro hboth
    obtain ⟨hsize, hagrees⟩ := hboth
    have hsubset : a.names ⊆ b.names := by
      intro name hname
      obtain ⟨⟨_, nested⟩, hmem, rfl⟩ := List.mem_map.mp hname
      obtain ⟨other, hother, _⟩ := hagrees _ nested hmem
      exact (exists_get?_iff hb).mp ⟨other, hother⟩
    refine ⟨(List.subperm_of_subset ha.nodup_names hsubset).perm_of_length_le
      (Nat.le_of_eq hsize.symm), ?_⟩
    intro name nested other hget hother
    obtain ⟨found, hfound, hsame⟩ := hagrees name nested (ha.get?_eq_some_iff.mp hget)
    rw [hother] at hfound
    cases hfound
    exact hsame
  · intro hboth
    obtain ⟨hperm, hsame⟩ := hboth
    refine ⟨hperm.length_eq, fun name nested hmem => ?_⟩
    have hget := ha.get?_eq_some_iff.mpr hmem
    obtain ⟨other, hother⟩ := (exists_get?_iff hb).mpr
      (hperm.mem_iff.mp ((exists_get?_iff ha).mp ⟨nested, hget⟩))
    exact ⟨other, hother, hsame name nested other hget hother⟩

/-- Two trees have the same paths when they have the same fields at top level and the same paths
beneath each of them. -/
theorem selects_congr_iff {a b : Tree} (ha : a.Distinct) (hb : b.Distinct) :
    (∀ path, a.Selects path ↔ b.Selects path) ↔
      a.names.Perm b.names ∧ ∀ name nested other,
        a.get? name = some nested → b.get? name = some other →
          ∀ path, nested.Selects path ↔ other.Selects path := by
  constructor
  · intro hpaths
    refine ⟨(List.perm_ext_iff_of_nodup ha.nodup_names hb.nodup_names).mpr fun name => ?_, ?_⟩
    · rw [← selects_singleton_iff, ← selects_singleton_iff, hpaths]
    · intro name nested other hget hother path
      have hpath := hpaths (name :: path)
      rw [ha.selects_cons_iff, hb.selects_cons_iff, hget, hother] at hpath
      simpa using hpath
  · intro hboth path
    obtain ⟨hperm, hinner⟩ := hboth
    cases path with
    | nil => simp
    | cons first path =>
        rw [ha.selects_cons_iff, hb.selects_cons_iff]
        constructor
        · intro hexists
          obtain ⟨nested, hget, hpath⟩ := hexists
          obtain ⟨other, hother⟩ := (exists_get?_iff hb).mpr
            (hperm.mem_iff.mp ((exists_get?_iff ha).mp ⟨nested, hget⟩))
          exact ⟨other, hother, (hinner first nested other hget hother path).mp hpath⟩
        · intro hexists
          obtain ⟨other, hother, hpath⟩ := hexists
          obtain ⟨nested, hget⟩ := (exists_get?_iff ha).mpr
            (hperm.mem_iff.mpr ((exists_get?_iff hb).mp ⟨other, hother⟩))
          exact ⟨nested, hget, (hinner first nested other hget hother path).mpr hpath⟩

/-- Two trees without repeated fields are the same selection exactly when they have the same
paths. -/
theorem same_iff {a b : Tree} (ha : a.Distinct) (hb : b.Distinct) :
    a.same b ↔ ∀ path, a.Selects path ↔ b.Selects path := by
  induction a using nested_induct generalizing b with
  | step a ih =>
      rw [same_iff_get? ha hb, selects_congr_iff ha hb]
      refine and_congr_right fun _ => forall_congr' fun name => forall_congr' fun nested =>
        forall_congr' fun other => forall_congr' fun hget => forall_congr' fun hother => ?_
      have hmem := ha.get?_eq_some_iff.mp hget
      exact ih name nested hmem (ha.of_mem hmem) (hb.of_mem (hb.get?_eq_some_iff.mp hother))

/-! ## Order -/

theorem merge_eq_foldl (a b : Tree) :
    a.merge b = b.toList.foldl (fun tree pair => tree.insert pair.1 pair.2) a := by
  induction b generalizing a with
  | empty => rfl
  | field name nested rest _ ih =>
      rw [merge_field, ih]
      rfl

theorem toList_alter_of_not_mem {name : Name} {update : Tree → Tree} {fresh tree : Tree}
    (h : name ∉ tree.names) :
    (alter name update fresh tree).toList = tree.toList ++ [(name, fresh)] := by
  induction tree with
  | empty => rfl
  | field n nested rest _ ih =>
      obtain ⟨hne, hrest⟩ : name ≠ n ∧ name ∉ rest.names := by simpa using h
      rw [alter, if_neg (Ne.symm hne), toList, ih hrest, toList, List.cons_append]

/-- A tree merged into one that shares no field with it at top level is appended to it. -/
theorem toList_merge_of_disjoint {a b : Tree} (hb : b.Distinct)
    (h : ∀ name ∈ b.names, name ∉ a.names) : (a.merge b).toList = a.toList ++ b.toList := by
  induction b generalizing a with
  | empty => simp [toList]
  | field name nested rest _ ih =>
      obtain ⟨hname, _, hrest⟩ := hb
      obtain ⟨hnew, hothers⟩ : name ∉ a.names ∧ ∀ n ∈ rest.names, n ∉ a.names := by simpa using h
      have hnames : (a.insert name nested).names = a.names ++ [name] := by
        rw [insert, names_alter, if_neg hnew]
      rw [merge_field, ih hrest, insert, toList_alter_of_not_mem hnew, toList, List.append_assoc,
        List.singleton_append]
      intro n hn
      rw [hnames, List.mem_append, List.mem_singleton]
      intro heither
      rcases heither with hold | rfl
      · exact hothers n hn hold
      · exact hname hn

theorem toList_injective {a b : Tree} (h : a.toList = b.toList) : a = b := by
  induction a generalizing b with
  | empty => cases b with
    | empty => rfl
    | field => cases h
  | field name nested rest _ ih => cases b with
    | empty => cases h
    | field n t r =>
        obtain ⟨⟨rfl, rfl⟩, hrest⟩ : (name = n ∧ nested = t) ∧ rest.toList = r.toList := by
          simpa [toList] using h
        rw [ih hrest]

/-- Merging a tree into the empty tree gives back the tree, with the order of its fields. -/
theorem empty_merge {tree : Tree} (h : tree.Distinct) : Tree.empty.merge tree = tree :=
  toList_injective (toList_merge_of_disjoint h fun _ _ => List.not_mem_nil)

/-- A tree is made of its own fields. -/
theorem ofList_toList {tree : Tree} (h : tree.Distinct) : ofList tree.toList = tree := by
  rw [ofList, ← merge_eq_foldl, empty_merge h]

end FieldSelection.Tree
