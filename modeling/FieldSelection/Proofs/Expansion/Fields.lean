import FieldSelection.Proofs.Expansion.Meaning
import FieldSelection.Proofs.Expr.Alike

/-!
# The fields of an expansion

`AliasTable.IsField` holds of the names that expansion leaves alone. If the views have no others,
then nor has the meaning of any expression (`Means.isField`). The expression of a tree with such
fields is its own expansion, whatever the limit (`expand_toExpr`). `Means.exists_mentioned` says
from which of the names in an expression a field of its meaning comes.
-/

namespace FieldSelection

namespace Expr

/-- The name of a field contributes that field with its value. -/
theorem contribution_name (field : Name) {value : Expr} (h : value.isEmpty → value = .empty) :
    contribution (.name field) value = [(field, value)] := by
  by_cases hempty : value.isEmpty
  · rw [contribution, if_pos hempty, h hempty]
  · rw [contribution, if_neg hempty]
    rfl

theorem remainder?_name (field : Name) (value : Expr) : remainder? (.name field) value = none := by
  unfold remainder?
  split <;> rfl

theorem flatMap_contribution_names {entries : List (Name × Expr)}
    (hvalues : ∀ entry ∈ entries, entry.2.isEmpty → entry.2 = .empty) :
    (entries.map fun entry => (name entry.1, entry.2)).flatMap
      (fun (expanded, value) => contribution expanded value) = entries := by
  rw [List.flatMap_map, List.flatMap_congr fun entry hmem =>
    contribution_name entry.1 (hvalues entry hmem)]
  exact List.flatMap_singleton' entries

theorem filterMap_remainder?_names (entries : List (Name × Expr)) :
    (entries.map fun entry => (name entry.1, entry.2)).filterMap
      (fun (expanded, value) => remainder? expanded value) = [] := by
  simp [remainder?_name]

/-- A selection whose keys are expanded to themselves is assembled as it was. -/
theorem assemble_names {entries : List (Name × Expr)} (hdistinct : (Entries.keys entries).Nodup)
    (hvalues : ∀ entry ∈ entries, entry.2.isEmpty → entry.2 = .empty) :
    assemble (entries.map fun entry => (name entry.1, entry.2)) = selection entries := by
  have hkept := Entries.foldl_insertWith_eq_append join (List.nil_append entries ▸ hdistinct)
  unfold assemble
  simp only [flatMap_contribution_names hvalues, filterMap_remainder?_names]
  exact congrArg selection hkept

end Expr

namespace Tree

theorem toExpr_of_isEmpty {tree : Tree} (h : tree.toExpr.isEmpty) : tree.toExpr = .empty := by
  cases tree with
  | empty => rfl
  | field => cases h

end Tree

/-- Whether expansion leaves a name alone: it denotes no view, and there is no definition to put in
its place. -/
def AliasTable.IsField (aliases : AliasTable) (name : Name) : Prop :=
  ¬ name.isReserved ∧ aliases.reference? name = none

namespace Expansion.Context

variable {context : Context} {expr : Expr} {tree : Tree} {name : Name}

/-- If the fields of the views are left alone by expansion, then so are those of every meaning. -/
theorem Means.isField
    (hviews : ∀ view, ∀ name ∈ (context.view view).names, context.aliases.IsField name)
    (h : context.Means expr tree) : ∀ name ∈ tree.names, context.aliases.IsField name := by
  induction h with
  | empty => exact nofun
  | view => exact hviews _
  | reference _ _ _ ih => exact ih
  | field hreserved hnone => exact List.forall_mem_singleton.mpr ⟨hreserved, hnone⟩
  | list tree _ ih =>
      intro name hname
      obtain ⟨_, hmem, hname⟩ := Tree.mem_names_union.mp hname
      obtain ⟨item, hitem, rfl⟩ := List.mem_map.mp hmem
      exact ih item hitem name hname
  | selection tree _ ih =>
      intro name hname
      obtain ⟨_, hmem, hname⟩ := Tree.mem_names_union.mp hname
      obtain ⟨entry, hentry, rfl⟩ := List.mem_map.mp hmem
      rw [Tree.names_mergeBeneath] at hname
      exact ih entry hentry name hname

/-- A field that an expression selects is selected by one of the names it mentions. -/
theorem Means.exists_mentioned (h : context.Means expr tree) (hname : name ∈ tree.names) :
    ∃ mentioned part, expr.mentions mentioned ∧ context.Means (.name mentioned) part ∧
      name ∈ part.names := by
  induction h with
  | empty => cases hname
  | view hreserved => exact ⟨_, _, beq_self_eq_true _, .view hreserved, hname⟩
  | reference hreserved hreference hmeans =>
      exact ⟨_, _, beq_self_eq_true _, .reference hreserved hreference hmeans, hname⟩
  | field hreserved hnone => exact ⟨_, _, beq_self_eq_true _, .field hreserved hnone, hname⟩
  | list tree _ ih =>
      obtain ⟨_, hmem, hname⟩ := Tree.mem_names_union.mp hname
      obtain ⟨item, hitem, rfl⟩ := List.mem_map.mp hmem
      obtain ⟨mentioned, part, hmentions, hpart⟩ := ih item hitem hname
      exact ⟨mentioned, part, Expr.mentions_list.mpr ⟨item, hitem, hmentions⟩, hpart⟩
  | selection tree hkeys =>
      obtain ⟨_, hmem, hname⟩ := Tree.mem_names_union.mp hname
      obtain ⟨entry, hentry, rfl⟩ := List.mem_map.mp hmem
      rw [Tree.names_mergeBeneath] at hname
      exact ⟨entry.1, _, Expr.mentions_selection.mpr (List.mem_map.mpr ⟨entry, hentry, rfl⟩),
        hkeys entry hentry, hname⟩

/-- The expression of a tree is its own expansion, if expansion leaves its fields alone. -/
theorem expand_toExpr (hdistinct : tree.Distinct)
    (h : ∀ name ∈ tree.names, context.aliases.IsField name) :
    (context.expand tree.toExpr).outcome = .ok tree.toExpr := by
  cases tree with
  | empty => rfl
  | field name nested rest =>
      rw [Tree.toExpr, ← Tree.toEntries.eq_2, expand, expandWithin_selection]
      generalize Tree.field name nested rest = tree at hdistinct h ⊢
      have hvalues : ∀ entry ∈ tree.toEntries, entry.2.isEmpty → entry.2 = .empty := by
        rw [Tree.toEntries_eq_map]
        exact List.forall_mem_map.mpr fun _ _ => Tree.toExpr_of_isEmpty
      refine outcome_bind_pure_eq_ok.mpr ⟨_, outcome_each_eq_ok.mpr ?_,
        Expr.assemble_names (tree.keys_toEntries ▸ hdistinct.nodup_names) hvalues⟩
      rw [List.forall₂_map_right_iff, List.forall₂_same]
      intro entry hmem
      obtain ⟨hreserved, hnone⟩ := h entry.1 (tree.keys_toEntries ▸ List.mem_map.mpr ⟨_, hmem, rfl⟩)
      exact outcome_bind_pure_eq_ok.mpr ⟨_, by rw [expandName_field hreserved hnone]; rfl, rfl⟩

end Expansion.Context

end FieldSelection
