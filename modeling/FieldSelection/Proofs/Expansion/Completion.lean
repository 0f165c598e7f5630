import FieldSelection.Proofs.Expansion.Success
import FieldSelection.Proofs.Expr.Completion

/-!
# What completed requests mean

Including a name adds to an expression what the name means (`Means.selects_including_iff`), and
makes it go at least as deep as before and as the name (`Depth.exists_le_of_including`). So a
completed request selects exactly what the request and the default facet select, unless it mentions
the minimal facet (`expand_withDefault`).
-/

namespace FieldSelection

/-- Neither an expression nor a name goes deeper than the expression that includes the name. -/
theorem AliasTable.Depth.exists_le_of_including {aliases : AliasTable} {expr : Expr} {name : Name}
    {depth : Nat} (h : aliases.Depth (expr.including name) depth) :
    (∃ less ≤ depth, aliases.Depth expr less) ∧
      ∃ less ≤ depth, aliases.Depth (.name name) less := by
  refine ⟨?_, h.exists_le_of_mentions (expr.mentions_including name)⟩
  cases expr with
  | empty => exact ⟨0, Nat.zero_le _, .empty⟩
  | name n =>
      obtain ⟨items, hitems, hmem⟩ := Expr.exists_including_name n name
      exact (hitems ▸ h).exists_le_of_mem ((hmem _).mpr (Or.inl rfl))
  | list items =>
      obtain ⟨others, hothers, hmem⟩ := Expr.exists_including_list items name
      exact (hothers ▸ h).exists_le_of_items_subset fun item hitem => (hmem item).mpr (Or.inl hitem)
  | selection entries =>
      obtain ⟨others, hothers, hmem⟩ := Expr.exists_including_selection entries name
      exact (hothers ▸ h).exists_le_of_entries_subset fun entry hentry =>
        (hmem entry).mpr (Or.inl hentry)

namespace Expansion.Context

variable {context : Context} {defaults : Defaults} {expr completed : Expr} {name : Name}
  {tree part extra : Tree} {path : List Name}

/-- Including a name adds what the name means, whether or not the expression mentions it already. -/
theorem Means.selects_including_iff (h : context.Means (expr.including name) tree)
    (hexpr : context.Means expr part) (hname : context.Means (.name name) extra) :
    tree.Selects path ↔ part.Selects path ∨ extra.Selects path := by
  cases path with
  | nil => simp
  | cons first path =>
      cases expr with
      | empty =>
          cases hexpr
          simp [h.unique hname]
      | name n =>
          obtain ⟨items, hitems, hmem⟩ := Expr.exists_including_name n name
          rw [hitems] at h
          simp only [h.selects_list_iff, hmem, exists_eq_or_imp, exists_eq_left,
            hexpr.exists_and_iff, hname.exists_and_iff]
      | list items =>
          obtain ⟨others, hothers, hmem⟩ := Expr.exists_including_list items name
          rw [hothers] at h
          simp only [h.selects_list_iff, hexpr.selects_list_iff, hmem, or_and_right, exists_or,
            exists_eq_left, hname.exists_and_iff]
      | selection entries =>
          obtain ⟨others, hothers, hmem⟩ := Expr.exists_including_selection entries name
          rw [hothers] at h
          by_cases hkey : name ∈ Entries.keys entries
          · -- The key is there already, and its value only adds to what it means.
            have hsame : tree.Selects (first :: path) ↔ part.Selects (first :: path) := by
              simp only [h.selects_selection_iff, hexpr.selects_selection_iff, hmem, hkey,
                not_true, false_and, or_false]
            rw [hsame]
            refine (or_iff_left_of_imp fun hpath => ?_).symm
            obtain ⟨entry, hentry, rfl⟩ := List.mem_map.mp hkey
            exact hexpr.selects_selection_iff.mpr
              ⟨entry, hentry, _, hname, Tree.selects_mergeBeneath.mpr (Or.inl hpath)⟩
          · simp only [h.selects_selection_iff, hexpr.selects_selection_iff, hmem, hkey,
              not_false_eq_true, true_and, or_and_right, exists_or, exists_eq_left,
              hname.exists_and_iff, Expr.normalize_empty, Tree.mergeBeneath_empty]

/-- An expression that includes a name is expanded only if both parts are, and then to their
union. -/
theorem exists_expand_of_including (hunion : ∀ facet ∈ context.aggregate, facet.Distinct)
    (h : (context.expand (expr.including name)).outcome = .ok completed) :
    ∃ expanded included, (context.expand expr).outcome = .ok expanded ∧
      (context.expand (.name name)).outcome = .ok included ∧
      completed.normalize.same (expanded.normalize.merge included.normalize) := by
  obtain ⟨depth, hle, hdepth⟩ := exists_depth_of_expand h
  obtain ⟨⟨less, hless, hexpr⟩, lessName, hlessName, hname⟩ := hdepth.exists_le_of_including
  obtain ⟨expanded, hexpanded⟩ := (succeedsIff_expand hexpr).succeeds (hless.trans hle)
  obtain ⟨included, hincluded⟩ := (succeedsIff_expand hname).succeeds (hlessName.trans hle)
  refine ⟨expanded, included, hexpanded, hincluded, ?_⟩
  obtain ⟨_, hmeans, hpaths⟩ := expresses_of_expandWithin hunion h
  obtain ⟨_, hexprMeans, hexprPaths⟩ := expresses_of_expandWithin hunion hexpanded
  obtain ⟨_, hnameMeans, hnamePaths⟩ := expresses_of_expandWithin hunion hincluded
  refine (Tree.same_iff completed.distinct_normalize (Tree.distinct_merge
    expanded.distinct_normalize included.distinct_normalize)).mpr fun path => ?_
  rw [hpaths, hmeans.selects_including_iff hexprMeans hnameMeans, Tree.selects_merge, hexprPaths,
    hnamePaths]

/-- A request that mentions the minimal facet is expanded as it is. When any other completed request
is expanded, then so are the request and the default facet, and it selects the union of what they
select, up to the order of fields. -/
theorem expand_withDefault (hunion : ∀ facet ∈ context.aggregate, facet.Distinct)
    (h : (context.expand (expr.withDefault defaults)).outcome = .ok completed) :
    (expr.mentions defaults.minimal → (context.expand expr).outcome = .ok completed) ∧
      (¬ expr.mentions defaults.minimal →
        ∃ expanded included, (context.expand expr).outcome = .ok expanded ∧
          (context.expand (.name defaults.default)).outcome = .ok included ∧
          completed.normalize.same (expanded.normalize.merge included.normalize)) := by
  rw [Expr.withDefault] at h
  constructor
  · intro hmentions
    rwa [if_pos hmentions] at h
  · intro hmentions
    rw [if_neg hmentions] at h
    exact exists_expand_of_including hunion h

/-- A request may name the default facet itself, as a key with a value. -/
theorem expand_withDefault_directory :
    ∃ completed expanded included,
      (directory.expand (Expr.withDefault ⟨⟨"contact"⟩, .minimal⟩
        (.selection [(⟨"contact"⟩, .name ⟨"kind"⟩)]))).outcome = .ok completed ∧
      (directory.expand (.selection [(⟨"contact"⟩, .name ⟨"kind"⟩)])).outcome = .ok expanded ∧
      (directory.expand (.name ⟨"contact"⟩)).outcome = .ok included ∧
      completed.normalize.same (expanded.normalize.merge included.normalize) := by
  have hcompleted : (directory.expand (Expr.withDefault ⟨⟨"contact"⟩, .minimal⟩
      (.selection [(⟨"contact"⟩, .name ⟨"kind"⟩)]))).outcome = .ok _ := rfl
  obtain ⟨_, hunion⟩ := expand_withDefault distinct_directory hcompleted
  obtain ⟨expanded, included, hexpanded, hincluded, hsame⟩ := hunion nofun
  exact ⟨_, expanded, included, hcompleted, hexpanded, hincluded, hsame⟩

end Expansion.Context

end FieldSelection
