import FieldSelection.Tree.Basic

/-!
# Facets

A facet is what an alias or a request comes to: the tree of every field it selects, and the same
tree without the fields that are associations. Which names are associations is for the owner of a
resource to say, by a test on names or by listing them in an `AssociationSet`.
-/

namespace FieldSelection

/-- The fields that a request selects. -/
structure Facet where
  /-- Every selected field. -/
  fields : Tree
  /-- The selected fields that are not associations. -/
  attributes : Tree
deriving DecidableEq, Inhabited

/-- The facet that selects the given fields. -/
def Facet.ofFields (isAssociation : Name → Bool) (fields : Tree) : Facet where
  fields := fields
  attributes := fields.withoutAssociations isAssociation

/-- The names of a resource's associations, each once. -/
structure AssociationSet where
  names : List Name := []
  distinct : names.Nodup := by exact List.nodup_nil

namespace AssociationSet

instance : Inhabited AssociationSet := ⟨{}⟩

/-- Whether a name is that of an association. -/
def contains (set : AssociationSet) (name : Name) : Bool :=
  set.names.contains name

/-- The number of associations. -/
def size (set : AssociationSet) : Nat :=
  set.names.length

/-- Adds a name to the associations. -/
def insert (set : AssociationSet) (name : Name) : AssociationSet :=
  if h : name ∈ set.names then set
  else
    { names := set.names ++ [name]
      distinct := by
        rw [List.nodup_append]
        refine ⟨set.distinct, by simp, ?_⟩
        intro a ha b hb e
        rw [List.mem_singleton] at hb
        exact h (hb ▸ e ▸ ha) }

/-- The set of the given names. -/
def ofList (names : List Name) : AssociationSet :=
  names.foldl insert {}

end AssociationSet

end FieldSelection
