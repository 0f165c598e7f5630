import FieldSelection.Name

/-!
# Field trees

A tree says which fields of a resource are selected and, for each, which fields beneath it. It is
a run of fields in the order they were first selected, each with a tree of its own; a field over
the empty tree is a terminal field. `merge` is the deep union: it keeps the order of the first tree
and never gives up a deeper selection for a terminal one. Two trees are the same selection when
`same` holds, which leaves the order of fields aside. `get?_alter` and `names_alter` describe the
operation from which writing and merging are made, and `distinct_merge` says that merging lists no
field twice.
-/

namespace FieldSelection

/-- A run of named fields, each with the tree selected beneath it. -/
inductive Tree where
  | empty
  | field (name : Name) (nested rest : Tree)
deriving DecidableEq, Inhabited

namespace Tree

/-- The tree of a single terminal field. -/
def leaf (name : Name) : Tree :=
  .field name .empty .empty

/-- Whether a tree has no fields. -/
def isEmpty : Tree → Bool
  | .empty => true
  | .field .. => false

/-- The number of fields at top level. -/
def size : Tree → Nat
  | .empty => 0
  | .field _ _ rest => rest.size + 1

/-- The fields at top level, each with the tree beneath it. -/
def toList : Tree → List (Name × Tree)
  | .empty => []
  | .field name nested rest => (name, nested) :: rest.toList

/-- The names of the fields at top level. -/
def names (tree : Tree) : List Name :=
  tree.toList.map Prod.fst

/-- The tree beneath a field. -/
def get? (name : Name) : Tree → Option Tree
  | .empty => none
  | .field n nested rest => if n = name then some nested else rest.get? name

/-- Whether a field is selected at top level. -/
def contains (name : Name) (tree : Tree) : Bool :=
  (tree.get? name).isSome

/-- Changes the tree beneath `name` by `update`, or appends the field `name` over `fresh` when it is
new. -/
def alter (name : Name) (update : Tree → Tree) (fresh : Tree) : Tree → Tree
  | .empty => .field name fresh .empty
  | .field n nested rest =>
      if n = name then .field n (update nested) rest
      else .field n nested (alter name update fresh rest)

/-- Makes `nested` the tree beneath `name`, whatever was there. -/
def put (tree : Tree) (name : Name) (nested : Tree) : Tree :=
  alter name (fun _ => nested) nested tree

/-- The deep union of two trees: the fields of the second are inserted into the first, in order. -/
def merge (a : Tree) : Tree → Tree
  | .empty => a
  | .field name nested rest => merge (alter name (fun old => merge old nested) nested a) rest

/-- Selects `nested` beneath `name`, in addition to what is there. -/
def insert (tree : Tree) (name : Name) (nested : Tree) : Tree :=
  alter name (fun old => merge old nested) nested tree

/-- The tree made by inserting the given pairs in turn. -/
def ofList (pairs : List (Name × Tree)) : Tree :=
  pairs.foldl (fun tree pair => tree.insert pair.1 pair.2) .empty

/-- The deep union of trees, from left to right. -/
def union (trees : List Tree) : Tree :=
  trees.foldl merge .empty

/-- The fields at top level whose name satisfies `keep`, with all that is beneath them. -/
def filter (keep : Name → Bool) : Tree → Tree
  | .empty => .empty
  | .field name nested rest =>
      if keep name then .field name nested (rest.filter keep) else rest.filter keep

/-- A tree without the fields at top level that are associations. -/
def withoutAssociations (isAssociation : Name → Bool) (tree : Tree) : Tree :=
  tree.filter (!isAssociation ·)

/-- Whether every field at top level of the first tree is in the second, over the same selection. -/
def agrees : Tree → Tree → Bool
  | .empty, _ => true
  | .field name nested rest, b =>
      (match b.get? name with
        | some other => nested.size == other.size && agrees nested other
        | none => false) && agrees rest b

/-- Equality up to the order of fields at every depth. -/
def same (a b : Tree) : Bool :=
  a.size == b.size && agrees a b

/-- Whether no field is listed twice, at any depth. -/
def Distinct : Tree → Prop
  | .empty => True
  | .field name nested rest => name ∉ rest.names ∧ nested.Distinct ∧ rest.Distinct

instance decidableDistinct : (tree : Tree) → Decidable tree.Distinct
  | .empty => inferInstanceAs (Decidable True)
  | .field name nested rest =>
      have := decidableDistinct nested
      have := decidableDistinct rest
      inferInstanceAs (Decidable (name ∉ rest.names ∧ nested.Distinct ∧ rest.Distinct))

theorem insert_eq_merge (tree : Tree) (name : Name) (nested : Tree) :
    tree.insert name nested = tree.merge (.field name nested .empty) := rfl

@[simp]
theorem merge_empty (a : Tree) : merge a .empty = a := rfl

theorem merge_field (a : Tree) (name : Name) (nested rest : Tree) :
    merge a (.field name nested rest) = merge (a.insert name nested) rest := rfl

theorem get?_alter (name other : Name) (update : Tree → Tree) (fresh tree : Tree) :
    (alter name update fresh tree).get? other =
      if other = name then some ((tree.get? name).elim fresh update) else tree.get? other := by
  induction tree with
  | empty =>
    by_cases h : other = name
    · simp [alter, get?, h]
    · simp [alter, get?, h, Ne.symm h]
  | field n nested rest _ ih =>
    by_cases h : n = name
    · subst h
      by_cases ho : other = n
      · simp [alter, get?, ho]
      · simp [alter, get?, ho, Ne.symm ho]
    · by_cases ho : other = name
      · subst ho
        simp [alter, get?, h, ih]
      · by_cases hn : n = other
        · simp [alter, get?, ho, hn]
        · simp [alter, get?, h, ho, hn, ih]

@[simp]
theorem names_field (name : Name) (nested rest : Tree) :
    (field name nested rest).names = name :: rest.names := rfl

theorem names_alter (name : Name) (update : Tree → Tree) (fresh tree : Tree) :
    (alter name update fresh tree).names =
      if name ∈ tree.names then tree.names else tree.names ++ [name] := by
  induction tree with
  | empty => simp [alter, names, toList]
  | field n nested rest _ ih =>
    by_cases h : n = name
    · simp [alter, names_field, h]
    · rw [alter, if_neg h, names_field, names_field, ih]
      by_cases hm : name ∈ rest.names <;> simp [hm, Ne.symm h]

/-- Altering one field keeps the fields distinct. -/
theorem distinct_alter {name : Name} {update : Tree → Tree} {fresh tree : Tree}
    (htree : tree.Distinct) (hfresh : fresh.Distinct)
    (hupdate : ∀ nested : Tree, nested.Distinct → (update nested).Distinct) :
    (alter name update fresh tree).Distinct := by
  induction tree with
  | empty => exact ⟨by simp [names, toList], hfresh, trivial⟩
  | field n nested rest _ ih =>
    obtain ⟨hname, hnested, hrest⟩ := htree
    by_cases h : n = name
    · simpa [alter, h] using ⟨h ▸ hname, hupdate nested hnested, hrest⟩
    · rw [alter, if_neg h]
      refine ⟨?_, hnested, ih hrest⟩
      rw [names_alter]
      split
      · exact hname
      · simp [hname, h]

/-- The union of two trees has distinct fields if both have. -/
theorem distinct_merge {a b : Tree} (ha : a.Distinct) (hb : b.Distinct) :
    (a.merge b).Distinct := by
  induction b generalizing a with
  | empty => exact ha
  | field name nested rest ihNested ihRest =>
    obtain ⟨-, hnested, hrest⟩ := hb
    exact ihRest (distinct_alter ha hnested fun _ h => ihNested h hnested) hrest

theorem distinct_insert {tree nested : Tree} (name : Name) (htree : tree.Distinct)
    (hnested : nested.Distinct) : (tree.insert name nested).Distinct :=
  distinct_alter htree hnested fun _ h => distinct_merge h hnested

theorem distinct_put {tree nested : Tree} (name : Name) (htree : tree.Distinct)
    (hnested : nested.Distinct) : (tree.put name nested).Distinct :=
  distinct_alter htree hnested fun _ _ => hnested

theorem distinct_ofList {pairs : List (Name × Tree)} (h : ∀ pair ∈ pairs, pair.2.Distinct) :
    (ofList pairs).Distinct :=
  List.foldlRecOn pairs _ (motive := Distinct) trivial
    fun _ htree pair hpair => distinct_insert pair.1 htree (h pair hpair)

theorem distinct_union {trees : List Tree} (h : ∀ tree ∈ trees, tree.Distinct) :
    (union trees).Distinct :=
  List.foldlRecOn trees _ (motive := Distinct) trivial
    fun _ htree other hother => distinct_merge htree (h other hother)

end Tree

end FieldSelection
