import FieldSelection.Proofs.Expansion.Success

/-!
# Expansion under alike tables

Contexts are alike when their tables are, and when each view selects the same in both. Alike
expressions then mean the same selection (`Means.selects_iff_of_alike`), although the order in which
fields are listed may differ. If no alias leads back to itself, then either both are expanded or
both are too deep (`expand_of_alike`).
-/

namespace FieldSelection.Expansion.Context

open AliasTable

/-- Whether two contexts agree on what names are expanded to and on what the views select. -/
structure Alike (context other : Context) : Prop where
  aliases : context.aliases.Alike other.aliases
  view : ∀ name path, (context.view name).Selects path ↔ (other.view name).Selects path

variable {context other : Context} {expr otherExpr : Expr} {tree otherTree : Tree}
  {path : List Name}

theorem Alike.refl (context : Context) : context.Alike context :=
  ⟨.refl _, fun _ _ => Iff.rfl⟩

theorem Alike.symm (h : context.Alike other) : other.Alike context :=
  ⟨h.aliases.symm, fun name path => (h.view name path).symm⟩

theorem Means.selects_of_alike (h : context.Means expr tree) (hcontext : context.Alike other)
    (hother : other.Means otherExpr otherTree) (hexpr : expr.Alike otherExpr)
    (hpath : tree.Selects path) : otherTree.Selects path := by
  cases path with
  | nil => simp
  | cons first path =>
      induction h generalizing otherExpr otherTree first path with
      | empty => cases hpath
      | view hreserved =>
          cases hexpr
          cases hother with
          | view => exact (hcontext.view _ _).mp hpath
          | reference hnot | field hnot => exact absurd hreserved hnot
      | reference hnot hreference _ ih =>
          cases hexpr
          obtain ⟨definition, htarget, hdefinition⟩ :=
            hcontext.aliases.exists_target? (target?_eq_some_iff.mpr ⟨hnot, hreference⟩)
          have hfound := (target?_eq_some_iff.mp htarget).2
          cases hother with
          | view hreserved => exact absurd hreserved hnot
          | reference _ hsame hother =>
              obtain rfl := Option.some.inj (hfound.symm.trans hsame)
              exact ih hother hdefinition _ _ hpath
          | field _ hnone => exact absurd (hnone.symm.trans hfound) nofun
      | field hnot hnone =>
          cases hexpr
          have hmissing := hcontext.aliases.target?_eq_none (target?_eq_none_iff.mpr (Or.inr hnone))
          cases hother with
          | view hreserved => exact absurd hreserved hnot
          | reference _ hreference =>
              have htarget := target?_eq_some_iff.mpr ⟨hnot, hreference⟩
              exact absurd (hmissing.symm.trans htarget) nofun
          | field => exact hpath
      | list tree _ ih =>
          cases hexpr with
          | list there _ hthere hitem _ _ =>
              cases hother with
              | list otherTree hothers =>
                  obtain ⟨_, htree, hpath⟩ := Tree.selects_union.mp hpath
                  obtain ⟨item, hmem, rfl⟩ := List.mem_map.mp htree
                  have hpath := ih item hmem (hothers _ (hthere item hmem)) (hitem item hmem)
                    first path hpath
                  exact Tree.selects_union.mpr
                    ⟨_, List.mem_map.mpr ⟨there item, hthere item hmem, rfl⟩, hpath⟩
      | selection tree _ ih =>
          cases hexpr with
          | selection there _ hthere hvalue _ _ =>
              cases hother with
              | selection otherTree hothers =>
                  obtain ⟨_, htree, hpath⟩ := Tree.selects_union.mp hpath
                  obtain ⟨entry, hmem, rfl⟩ := List.mem_map.mp htree
                  refine Tree.selects_union.mpr
                    ⟨_, List.mem_map.mpr ⟨_, hthere entry hmem, rfl⟩, ?_⟩
                  -- Besides its own paths, a key passes on the fields that get the value.
                  have hkey (rest : List Name) (hpath : (tree entry.1).Selects (first :: rest)) :
                      (otherTree entry.1).Selects (first :: rest) :=
                    ih entry hmem (hothers _ (hthere entry hmem)) (.refl _) first rest hpath
                  rw [Tree.selects_mergeBeneath, ← Tree.selects_singleton_iff] at hpath ⊢
                  rw [← (hvalue entry hmem).selects_normalize_iff]
                  exact hpath.imp (hkey path) fun hboth => ⟨hkey [] hboth.1, hboth.2⟩

/-- In contexts that are alike, expressions that are alike mean the same selection. -/
theorem Means.selects_iff_of_alike (h : context.Means expr tree) (hcontext : context.Alike other)
    (hother : other.Means otherExpr otherTree) (hexpr : expr.Alike otherExpr) :
    tree.Selects path ↔ otherTree.Selects path :=
  ⟨h.selects_of_alike hcontext hother hexpr, hother.selects_of_alike hcontext.symm h hexpr.symm⟩

/-- In contexts that are alike, expressions that are alike are both too deep, or both are expanded
and come to the same selection. -/
theorem expand_of_alike (hcontext : context.Alike other) (hlimit : context.limit = other.limit)
    (hacyclic : context.aliases.Acyclic) (hunion : ∀ facet ∈ context.aggregate, facet.Distinct)
    (hotherUnion : ∀ facet ∈ other.aggregate, facet.Distinct) (hexpr : expr.Alike otherExpr) :
    ((context.expand expr).outcome = .error (.tooDeep context.limit) ∧
      (other.expand otherExpr).outcome = .error (.tooDeep context.limit)) ∨
    ∃ expanded otherExpanded, (context.expand expr).outcome = .ok expanded ∧
      (other.expand otherExpr).outcome = .ok otherExpanded ∧
      ∀ path, expanded.normalize.Selects path ↔ otherExpanded.normalize.Selects path := by
  obtain ⟨depth, hdepth⟩ := hacyclic.exists_depth expr
  obtain ⟨otherDepth, hotherDepth⟩ := (hacyclic.of_alike hcontext.aliases).exists_depth otherExpr
  obtain rfl := hdepth.eq_of_alike hcontext.aliases hotherDepth hexpr
  have hsucceeds := succeedsIff_expand hdepth
  have hotherSucceeds := succeedsIff_expand hotherDepth
  rw [← hlimit] at hotherSucceeds
  by_cases hle : depth ≤ context.limit
  · obtain ⟨expanded, hexpanded⟩ := hsucceeds.succeeds hle
    obtain ⟨otherExpanded, hotherExpanded⟩ := hotherSucceeds.succeeds hle
    obtain ⟨_, hmeans, hpaths⟩ := expresses_of_expandWithin hunion hexpanded
    obtain ⟨_, hotherMeans, hotherPaths⟩ := expresses_of_expandWithin hotherUnion hotherExpanded
    refine Or.inr ⟨expanded, otherExpanded, hexpanded, hotherExpanded, fun path => ?_⟩
    rw [hpaths, hotherPaths, hmeans.selects_iff_of_alike hcontext hotherMeans hexpr]
  · exact Or.inl ⟨hsucceeds.fails hle, hotherSucceeds.fails hle⟩

end FieldSelection.Expansion.Context
