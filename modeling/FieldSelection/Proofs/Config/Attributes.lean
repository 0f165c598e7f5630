import FieldSelection.Proofs.Config.Coherence
import FieldSelection.Proofs.Tree.Merge

/-!
# Attributes of a union

Leaving out associations looks at the names at top level only, and merging does not change names. So
it makes no difference whether associations are left out of a union or of the trees that it is made
of (`Tree.filter_merge`, `Tree.filter_union`). What lies beneath a field that is kept stays as it is
(`Tree.toList_filter`). `History.attributes_of_union` applies this to the union of all aliases.
-/

namespace FieldSelection

namespace Tree

/-- Altering a field shows after filtering only if the field is kept. -/
theorem filter_alter (keep : Name → Bool) (name : Name) (update : Tree → Tree)
    (fresh tree : Tree) :
    (alter name update fresh tree).filter keep =
      if keep name then alter name update fresh (tree.filter keep) else tree.filter keep := by
  induction tree with
  | empty => by_cases h : keep name <;> simp [alter, filter, h]
  | field other nested rest _ ih =>
      by_cases hother : other = name
      · subst hother
        by_cases h : keep other <;> simp [alter, filter, h]
      · by_cases h : keep name <;> by_cases hkeep : keep other <;>
          simp [alter, filter, hother, h, hkeep, ih]

/-- Filtering a union comes to the union of the filtered trees, with the order of fields at every
depth. -/
theorem filter_merge (keep : Name → Bool) (a b : Tree) :
    (a.merge b).filter keep = (a.filter keep).merge (b.filter keep) := by
  induction b generalizing a with
  | empty => rfl
  | field name nested rest _ ih =>
      rw [merge_field, ih, insert, filter_alter, filter]
      by_cases h : keep name
      · rw [if_pos h, if_pos h, merge_field, insert]
      · rw [if_neg h, if_neg h]

/-- Filtering may be done before trees are merged into a first one, or after. -/
theorem filter_foldl_merge (keep : Name → Bool) (tree : Tree) (trees : List Tree) :
    (trees.foldl merge tree).filter keep =
      (trees.map (filter keep)).foldl merge (tree.filter keep) := by
  induction trees generalizing tree with
  | nil => rfl
  | cons other rest ih => rw [List.foldl_cons, ih, filter_merge, List.map_cons, List.foldl_cons]

/-- Filtering the union of several trees comes to the union of the filtered trees. -/
theorem filter_union (keep : Name → Bool) (trees : List Tree) :
    (union trees).filter keep = union (trees.map (filter keep)) :=
  filter_foldl_merge keep .empty trees

end Tree

namespace History

/-- Leaving out associations commutes with merging, be it of two trees or of several, with the order
of fields at every depth. It removes fields at top level only, and nothing beneath those that it
keeps. Hence the attributes that a compiled configuration has for `all`, which are what is left of
the union of its aliases, are the union of what is left of each alias. -/
theorem attributes_of_union :
    (∀ (isAssociation : Name → Bool) (a b : Tree),
      (a.merge b).withoutAssociations isAssociation =
        (a.withoutAssociations isAssociation).merge (b.withoutAssociations isAssociation)) ∧
    (∀ (isAssociation : Name → Bool) (trees : List Tree),
      (Facet.ofFields isAssociation (.union trees)).attributes =
        .union (trees.map fun tree => (Facet.ofFields isAssociation tree).attributes)) ∧
    (∀ (isAssociation : Name → Bool) (tree : Tree),
      (tree.withoutAssociations isAssociation).toList =
        tree.toList.filter fun field => !isAssociation field.1) ∧
    ∀ history : History, history.config.compiled →
      ∃ trees, List.Forall₂ (fun name tree => ∃ expanded,
            ((history.config.context none).expand (.name name)).outcome = .ok expanded ∧
              tree = expanded.normalize)
          history.config.aliases.names trees ∧
        history.config.allFields = .ok (.union trees) ∧
        history.config.allAttributes = .ok (.union (trees.map fun tree =>
          (Facet.ofFields history.isAssociation tree).attributes)) := by
  refine ⟨fun _ => Tree.filter_merge _, fun _ => Tree.filter_union _,
    fun _ => Tree.toList_filter _, fun history h => ?_⟩
  have hcoherent := history.coherent h
  obtain ⟨all, trees, hall, htrees, hunion⟩ := hcoherent.union
  have hattributes : all.attributes = .union (trees.map fun tree =>
      (Facet.ofFields history.isAssociation tree).attributes) := by
    rw [hcoherent.attributes_aggregate hall, hunion, history.config_isAssociation]
    exact Tree.filter_union _ trees
  refine ⟨trees, htrees, ?_, ?_⟩
  · rw [Config.allFields, Config.aggregate_eq_ok h hall, ← hunion]
    rfl
  · rw [Config.allAttributes, Config.aggregate_eq_ok h hall, ← hattributes]
    rfl

/-- Fields left out of a union, a field that is not at top level, and the aliases of `contact`, one
of which selects an association. -/
theorem attributes_of_union_contact :
    (Tree.profile.merge Tree.badge).withoutAssociations (· == ⟨"owner"⟩) =
        (Tree.field ⟨"phone"⟩ .empty (.leaf ⟨"email"⟩)).merge .empty ∧
      (Tree.profile.withoutAssociations (· == ⟨"name"⟩)).toList = Tree.profile.toList ∧
      contact.config.compiled ∧
      contact.config.allFields = .ok (.union [contactFacet.fields, .empty]) ∧
      contact.config.allAttributes =
        .ok (.union ([contactFacet.fields, .empty].map fun tree =>
          tree.withoutAssociations (· == ⟨"owner"⟩))) := by
  have hcompiled : contact.config.compiled := rfl
  obtain ⟨hmerge, -, hkept, hhistory⟩ := attributes_of_union
  obtain ⟨trees, htrees, hfields, hattributes⟩ := hhistory contact hcompiled
  obtain rfl := eq_trees_of_contact htrees
  exact ⟨hmerge _ _ _, hkept _ _, hcompiled, hfields, hattributes⟩

end History

end FieldSelection
