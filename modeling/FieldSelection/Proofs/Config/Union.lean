import FieldSelection.Proofs.Config.Coherence
import FieldSelection.Proofs.Expansion.Views

/-!
# When `all` is the union of the aliases

The union is made before there is one to read, and aliases that read it are expanded again under it.
What they select then need not be in the union: `same_union_iff` says that the compiled union and
that of the compiled aliases are the same selection exactly when the union already has every path
that leads from a field of a view into a value handed to the view.
-/

namespace FieldSelection

open Expansion

namespace Expansion.Context

variable {context : Context} {expr expanded bare : Expr} {first : Name} {path : List Name}

/-- Under the union an expression comes to what it comes to without one, and to what the union
adds. -/
theorem selects_expand_iff (hunion : ∀ facet ∈ context.aggregate, facet.Distinct)
    (h : (context.expand expr).outcome = .ok expanded)
    (hbare : ((context.withAggregate none).expand expr).outcome = .ok bare) :
    expanded.normalize.Selects (first :: path) ↔
      bare.normalize.Selects (first :: path) ∨ context.Adds expr first path := by
  obtain ⟨meaning, hmeans, hpaths⟩ := expresses_of_expandWithin hunion h
  obtain ⟨without, hwithout, hbarePaths⟩ :=
    expresses_of_expandWithin (distinct_of_aggregate_eq_none rfl) hbare
  rw [hpaths, hbarePaths, hmeans.selects_iff hwithout]

end Expansion.Context

namespace Config

variable {config : Config} {all : Facet} {facets : List Facet} {first : Name} {path : List Name}

/-- The fields of a view are among those of the union. -/
theorem Coherent.selects_of_view (h : config.Coherent) (hall : config.aggregate? = some all)
    {view : Name} (hpath : ((config.context (some all)).view view).Selects (first :: path)) :
    all.fields.Selects (first :: path) := by
  unfold Context.view at hpath
  change (if view = Name.allAttributes then all.attributes else all.fields).Selects _ at hpath
  split at hpath
  · rw [h.attributes_aggregate hall] at hpath
    exact (Tree.selects_filter.mp hpath).2
  · exact hpath

/-- An alias has a meaning before there is a union. -/
theorem Coherent.exists_means (h : config.Coherent) {name : Name}
    (hname : name ∈ config.aliases.names) :
    ∃ meaning, (config.context none).Means (.name name) meaning := by
  obtain ⟨_, _, _, htrees, _⟩ := h.union
  obtain ⟨_, _, _, hexpanded, _⟩ := exists_right_of_forall₂ htrees hname
  obtain ⟨meaning, hmeans, _⟩ :=
    Context.expresses_of_expandWithin (Context.distinct_of_aggregate_eq_none rfl) hexpanded
  exact ⟨meaning, hmeans⟩

/-- The union selects what the aliases mean before there is a union. -/
theorem Coherent.selects_all_iff (h : config.Coherent) (hall : config.aggregate? = some all) :
    all.fields.Selects (first :: path) ↔
      ∃ name ∈ config.aliases.names, ∃ meaning,
        (config.context none).Means (.name name) meaning ∧ meaning.Selects (first :: path) := by
  obtain ⟨trees, htrees, hunion⟩ := h.union_of_aggregate hall
  rw [hunion, Tree.selects_union]
  constructor
  · intro hexists
    obtain ⟨tree, hmem, hpath⟩ := hexists
    obtain ⟨name, hname, _, hexpanded, rfl⟩ := exists_left_of_forall₂ htrees hmem
    obtain ⟨meaning, hmeans, hpaths⟩ :=
      Context.expresses_of_expandWithin (Context.distinct_of_aggregate_eq_none rfl) hexpanded
    exact ⟨name, hname, meaning, hmeans, (hpaths _).mp hpath⟩
  · intro hexists
    obtain ⟨name, hname, meaning, hmeans, hpath⟩ := hexists
    obtain ⟨_, hmem, _, hexpanded, rfl⟩ := exists_right_of_forall₂ htrees hname
    obtain ⟨_, hsame, hpaths⟩ :=
      Context.expresses_of_expandWithin (Context.distinct_of_aggregate_eq_none rfl) hexpanded
    obtain rfl := hmeans.unique hsame
    exact ⟨_, hmem, (hpaths _).mpr hpath⟩

/-- The compiled aliases select together what the union selects, and what the union adds to them. -/
theorem Coherent.selects_facets_iff (h : config.Coherent) (hall : config.aggregate? = some all)
    (hfacets : List.Forall₂ (fun name facet => config.facets.lookup name.text = some facet)
      config.aliases.names facets) :
    (Tree.union (facets.map Facet.fields)).Selects (first :: path) ↔
      all.fields.Selects (first :: path) ∨
        ∃ name ∈ config.aliases.names,
          (config.context (some all)).Adds (.name name) first path := by
  obtain ⟨trees, htrees, hunion⟩ := h.union_of_aggregate hall
  have hiff {name : Name} {facet : Facet} {bare : Expr} (hname : name ∈ config.aliases.names)
      (hfacet : config.facets.lookup name.text = some facet)
      (hbare : ((config.context none).expand (.name name)).outcome = .ok bare) :
      facet.fields.Selects (first :: path) ↔ bare.normalize.Selects (first :: path) ∨
        (config.context (some all)).Adds (.name name) first path := by
    obtain ⟨expanded, hexpanded, hfields⟩ :=
      h.expansions name hname facet (Entries.mem_of_lookup hfacet)
    rw [hall] at hexpanded
    rw [hfields]
    exact Context.selects_expand_iff (hall ▸ h.distinct_aggregate) hexpanded hbare
  rw [hunion]
  simp only [Tree.selects_union, List.mem_map, exists_exists_and_eq_and]
  constructor
  · intro hexists
    obtain ⟨facet, hmem, hpath⟩ := hexists
    obtain ⟨name, hname, hfacet⟩ := exists_left_of_forall₂ hfacets hmem
    obtain ⟨_, hbareMem, _, hbare, rfl⟩ := exists_right_of_forall₂ htrees hname
    rcases (hiff hname hfacet hbare).mp hpath with hpath | hadds
    · exact Or.inl ⟨_, hbareMem, hpath⟩
    · exact Or.inr ⟨name, hname, hadds⟩
  · intro heither
    rcases heither with ⟨bare, hmem, hpath⟩ | ⟨name, hname, hadds⟩
    · obtain ⟨name, hname, _, hbare, rfl⟩ := exists_left_of_forall₂ htrees hmem
      obtain ⟨facet, hfacetMem, hfacet⟩ := exists_right_of_forall₂ hfacets hname
      exact ⟨facet, hfacetMem, (hiff hname hfacet hbare).mpr (Or.inl hpath)⟩
    · obtain ⟨facet, hfacetMem, hfacet⟩ := exists_right_of_forall₂ hfacets hname
      obtain ⟨_, _, _, hbare, _⟩ := exists_right_of_forall₂ htrees hname
      exact ⟨facet, hfacetMem, (hiff hname hfacet hbare).mpr (Or.inr hadds)⟩

/-- The compiled facets list no field twice. -/
theorem Coherent.distinct_union_facets (h : config.Coherent)
    (hfacets : List.Forall₂ (fun name facet => config.facets.lookup name.text = some facet)
      config.aliases.names facets) : (Tree.union (facets.map Facet.fields)).Distinct := by
  refine Tree.distinct_union (List.forall_mem_map.mpr fun facet hmem => ?_)
  obtain ⟨name, hname, hfacet⟩ := exists_left_of_forall₂ hfacets hmem
  obtain ⟨expanded, _, hfields⟩ :=
    h.expansions name hname facet (Entries.mem_of_lookup hfacet)
  rw [hfields]
  exact expanded.distinct_normalize

/-- The union and the compiled aliases are the same selection exactly when the union has every path
into a value that is handed to a view. -/
theorem Coherent.same_union_iff (h : config.Coherent) (hall : config.aggregate? = some all)
    (hfacets : List.Forall₂ (fun name facet => config.facets.lookup name.text = some facet)
      config.aliases.names facets) :
    all.fields.same (.union (facets.map Facet.fields)) ↔
      ∀ name ∈ config.aliases.names, ∀ view value, config.aliases.Hands (.name name) view value →
        ∀ field ∈ ((config.context (some all)).view view).names, ∀ path,
          value.normalize.Selects path → all.fields.Selects (field :: path) := by
  rw [Tree.same_iff (h.distinct_aggregate all hall).1 (h.distinct_union_facets hfacets)]
  constructor
  · intro hpaths name hname view value hhands field hfield path hpath
    rw [hpaths, h.selects_facets_iff hall hfacets]
    exact Or.inr ⟨name, hname, Or.inr ⟨view, value, hhands, hfield, hpath⟩⟩
  · intro hhanded path
    cases path with
    | nil => simp
    | cons first path =>
        rw [h.selects_facets_iff hall hfacets]
        refine (or_iff_left_of_imp ?_).symm
        -- Of what the union adds, views are in the union anyhow.
        intro hexists
        rcases hexists with ⟨name, hname, ⟨view, _, hpath⟩ | ⟨view, value, hhands, hfirst, hpath⟩⟩
        · exact h.selects_of_view hall hpath
        · exact hhanded name hname view value hhands first hfirst path hpath

end Config

namespace History

/-- At the end of every history that ends compiled, there is a union of all aliases, and each alias
has a facet. They are the same selection exactly when, for every value that an alias hands to a view
by way of a key, the union has the paths of the value beneath every field of the view. -/
theorem all_fields_same_iff (history : History) {config : Config}
    (hconfig : history.config = config) (h : config.compiled) :
    ∃ all facets, config.allFields = .ok all ∧
      List.Forall₂ (fun name facet => config.facet? name = .ok (some facet)) config.aliases.names
        facets ∧
      (all.same (.union (facets.map Facet.fields)) ↔
        ∀ name ∈ config.aliases.names, ∀ view value,
          config.aliases.Hands (.name name) view value →
            ∀ field ∈ ((config.context config.aggregate?).view view).names, ∀ path,
              value.normalize.Selects path → all.Selects (field :: path)) := by
  subst hconfig
  have hcoherent := history.coherent h
  obtain ⟨all, _, hall, _, _⟩ := hcoherent.union
  obtain ⟨facets, hfacets⟩ := exists_forall₂ fun _ => hcoherent.exists_facet
  refine ⟨all.fields, facets, ?_, ?_, ?_⟩
  · have haggregate : history.config.facet? .all = .ok (some all) := by
      rw [Config.facet?, if_pos h]
      exact congrArg Except.ok hall
    rw [Config.allFields, Config.aggregate, haggregate]
    rfl
  · refine hfacets.imp fun name facet hfacet => ?_
    rw [Config.facet?, if_pos h, hfacet]
  · rw [hall]
    exact hcoherent.same_union_iff hall hfacets

/-- A history in which a value is handed to the union, whose only field has it already. -/
def covered : History :=
  .perform
    (.build (.ofList [(⟨"a"⟩, .selection [(⟨"id"⟩, .name ⟨"x"⟩)]),
      (⟨"b"⟩, .selection [(.all, .name ⟨"x"⟩)])]) 256 .standard _ rfl)
    (.compile fun _ => false)

theorem all_fields_same_covered :
    covered.config.compiled ∧
      ∃ all facets, covered.config.allFields = .ok all ∧
        List.Forall₂ (fun name facet => covered.config.facet? name = .ok (some facet))
          [⟨"a"⟩, ⟨"b"⟩] facets ∧
        all.same (.union (facets.map Facet.fields)) := by
  have hcompiled : covered.config.compiled := rfl
  obtain ⟨all, facets, hall, hfacets, hiff⟩ := all_fields_same_iff covered rfl hcompiled
  refine ⟨hcompiled, all, facets, hall, hfacets, hiff.mpr ?_⟩
  obtain rfl : .field ⟨"id"⟩ (.leaf ⟨"x"⟩) .empty = all := Except.ok.inj hall
  have hid (view : Name) : ¬ covered.config.aliases.Reads (.name ⟨"id"⟩) view :=
    AliasTable.not_reads_field (by decide) rfl
  have ha : covered.config.aliases.reference? ⟨"a"⟩ =
    some (.selection [(⟨"id"⟩, .name ⟨"x"⟩)]) := rfl
  have hb : covered.config.aliases.reference? ⟨"b"⟩ =
    some (.selection [(.all, .name ⟨"x"⟩)]) := rfl
  intro name hname view value hhands field hfield path hpath
  rcases List.mem_cons.mp hname with rfl | hname
  · -- The key of the first alias is a field.
    rw [AliasTable.hands_reference (by decide) ha] at hhands
    cases hhands with
    | value hmem hreads =>
        obtain rfl := List.mem_singleton.mp hmem
        exact absurd hreads (hid _)
    | key hmem hhands =>
        obtain rfl := List.mem_singleton.mp hmem
        exact absurd hhands.reads (hid _)
  · obtain rfl := List.mem_singleton.mp hname
    rw [AliasTable.hands_reference (by decide) hb] at hhands
    cases hhands with
    | value hmem hreads =>
        obtain rfl := List.mem_singleton.mp hmem
        obtain rfl := (AliasTable.reads_reserved (by decide)).mp hreads
        obtain rfl : field = ⟨"id"⟩ := List.mem_singleton.mp hfield
        exact Or.inl ⟨rfl, hpath⟩
    | key hmem hhands =>
        obtain rfl := List.mem_singleton.mp hmem
        exact absurd hhands (AliasTable.not_hands_reserved (by decide))

/-- A history in which a value is handed to the union, whose only field does not have it. -/
def uncovered : History :=
  .perform
    (.build (.ofList [(⟨"a"⟩, .name ⟨"id"⟩), (⟨"b"⟩, .selection [(.all, .name ⟨"x"⟩)])]) 256
      .standard _ rfl)
    (.compile fun _ => false)

/-- The facet of an alias selects a path that the union does not have. -/
theorem all_fields_uncovered :
    uncovered.config.compiled ∧
      uncovered.config.allFields = .ok (.leaf ⟨"id"⟩) ∧
      (∃ a b, uncovered.config.facet? ⟨"a"⟩ = .ok (some a) ∧
        uncovered.config.facet? ⟨"b"⟩ = .ok (some b) ∧
        a.fields = .leaf ⟨"id"⟩ ∧ b.fields = .field ⟨"id"⟩ (.leaf ⟨"x"⟩) .empty ∧
        ¬ (Tree.leaf ⟨"id"⟩).same (.union [a.fields, b.fields])) :=
  ⟨rfl, rfl, _, _, rfl, rfl, rfl, rfl, by decide +kernel⟩

end History

end FieldSelection
