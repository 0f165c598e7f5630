import FieldSelection.Proofs.Config.Union
import FieldSelection.Proofs.Expansion.Fields

/-!
# The fields that answers consist of

While a configuration is compiled, expansion leaves every field of every answer alone, so that an
answer that is asked for again comes to itself (`History.answered_fields`). The exposed fields are
those of the aliases, and no request made of aliases and views selects others
(`History.exposed_fields`).
-/

namespace FieldSelection

namespace Config

open Expansion

variable {config : Config} {all facet : Facet} {name : Name}

/-- Expansion leaves the fields of the union alone. -/
theorem Coherent.isField_of_mem_all (h : config.Coherent) (hall : config.aggregate? = some all)
    (hname : name ∈ all.fields.names) : config.aliases.IsField name := by
  rw [← Tree.selects_singleton_iff, h.selects_all_iff hall] at hname
  obtain ⟨_, _, meaning, hmeans, hname⟩ := hname
  -- There is no union yet, and so there are no views to take fields from.
  exact hmeans.isField (fun _ _ hview => absurd hview List.not_mem_nil) name
    (Tree.selects_singleton_iff.mp hname)

/-- The fields of a view are among those of the union. -/
theorem Coherent.mem_names_of_view (h : config.Coherent) (hall : config.aggregate? = some all)
    {view : Name} (hname : name ∈ ((config.context (some all)).view view).names) :
    name ∈ all.fields.names := by
  rw [← Tree.selects_singleton_iff] at hname ⊢
  exact h.selects_of_view hall hname

/-- Expansion leaves the fields of every facet alone that is computed afresh. -/
theorem Coherent.isField_of_afresh (h : config.Coherent) {expr : Expr}
    (hfacet : config.afresh config.isAssociation expr = .ok facet) :
    ∀ name ∈ facet.fields.names, config.aliases.IsField name := by
  obtain ⟨all, _, hall, _, _⟩ := h.union
  obtain ⟨expanded, hexpanded, rfl⟩ := afresh_eq_ok_iff.mp hfacet
  obtain ⟨meaning, hmeans, hpaths⟩ :=
    Context.expresses_of_expandWithin h.distinct_aggregate hexpanded
  rw [hall] at hmeans
  intro name hname
  rw [← Tree.selects_singleton_iff] at hname
  refine hmeans.isField (fun view name hview => ?_) name
    (Tree.selects_singleton_iff.mp ((hpaths [name]).mp hname))
  exact h.isField_of_mem_all hall (h.mem_names_of_view hall hview)

/-- Whatever answers a request is what some expression comes to when it is computed afresh. -/
theorem Coherent.exists_afresh_of_resolve (h : config.Coherent) (hcompiled : config.compiled)
    {request : Expr} (hfacet : (config.resolve request).answer = .ok facet) :
    ∃ expr, config.afresh config.isAssociation expr = .ok facet := by
  cases hfound : config.found? request with
  | none =>
      rw [answer_resolve_of_missing hcompiled hfound] at hfacet
      exact ⟨_, hfacet⟩
  | some found =>
      rw [resolve_of_found hcompiled hfound] at hfacet
      obtain rfl := Except.ok.inj hfacet
      rcases Option.or_eq_some_iff.mp hfound with hlookup | ⟨_, hlookup⟩
      · obtain ⟨name, _, _, hafresh⟩ := h.exists_name_of_lookup hlookup
        exact ⟨_, hafresh⟩
      · obtain ⟨_, other, _, hafresh⟩ := h.requests _ (Entries.mem_of_lookup hlookup)
        exact ⟨_, hafresh⟩

/-- The union and the compiled aliases have the same fields at top level. -/
theorem Coherent.mem_names_all_iff (h : config.Coherent) (hall : config.aggregate? = some all) :
    name ∈ all.fields.names ↔
      ∃ key ∈ config.aliases.names, ∃ facet, config.facets.lookup key.text = some facet ∧
        name ∈ facet.fields.names := by
  obtain ⟨facets, hfacets⟩ := exists_forall₂ fun _ => h.exists_facet
  have hunion : (∃ tree ∈ facets.map Facet.fields, name ∈ tree.names) ↔
      name ∈ all.fields.names ∨ ∃ key ∈ config.aliases.names, ∃ view,
        config.aliases.Reads (.name key) view ∧
          name ∈ ((config.context (some all)).view view).names := by
    rw [← Tree.mem_names_union, ← Tree.selects_singleton_iff, h.selects_facets_iff hall hfacets,
      Tree.selects_singleton_iff]
    simp only [Context.adds_nil]
    rfl
  constructor
  · intro hname
    obtain ⟨_, hmem, hname⟩ := hunion.mpr (Or.inl hname)
    obtain ⟨facet, hfacet, rfl⟩ := List.mem_map.mp hmem
    obtain ⟨key, hkey, hlookup⟩ := exists_left_of_forall₂ hfacets hfacet
    exact ⟨key, hkey, facet, hlookup, hname⟩
  · intro hexists
    obtain ⟨key, hkey, facet, hlookup, hname⟩ := hexists
    obtain ⟨found, hmem, hfound⟩ := exists_right_of_forall₂ hfacets hkey
    obtain rfl := Option.some.inj (hlookup.symm.trans hfound)
    -- What the second pass adds at top level comes from a view, and so from the union.
    rcases hunion.mp ⟨_, List.mem_map.mpr ⟨facet, hmem, rfl⟩, hname⟩ with hname | hadds
    · exact hname
    · obtain ⟨_, _, view, _, hview⟩ := hadds
      exact h.mem_names_of_view hall hview

/-- A request made of aliases and views selects fields of the union only. -/
theorem Coherent.mem_names_all_of_expand (h : config.Coherent) (hall : config.aggregate? = some all)
    {request expanded : Expr}
    (hmentions : ∀ mentioned, request.mentions mentioned →
      mentioned ∈ config.aliases.names ∨ mentioned.isReserved)
    (hexpanded : ((config.context config.aggregate?).expand request).outcome = .ok expanded)
    (hname : name ∈ expanded.normalize.names) : name ∈ all.fields.names := by
  obtain ⟨meaning, hmeans, hpaths⟩ :=
    Context.expresses_of_expandWithin h.distinct_aggregate hexpanded
  rw [← Tree.selects_singleton_iff, hpaths, Tree.selects_singleton_iff] at hname
  obtain ⟨mentioned, part, hmentioned, hpart, hname⟩ := hmeans.exists_mentioned hname
  by_cases hreserved : mentioned.isReserved
  · obtain rfl := hpart.unique (.view hreserved)
    rw [hall] at hname
    exact h.mem_names_of_view hall hname
  · have hmem := (hmentions mentioned hmentioned).resolve_right hreserved
    obtain ⟨facet, hfacet⟩ := h.exists_facet hmem
    obtain ⟨_, hdefinition, hfields⟩ :=
      h.expansions mentioned hmem facet (Entries.mem_of_lookup hfacet)
    obtain ⟨tree, htree, hsame⟩ :=
      Context.expresses_of_expandWithin h.distinct_aggregate hdefinition
    obtain rfl := hpart.unique htree
    rw [← Tree.selects_singleton_iff, ← hsame, Tree.selects_singleton_iff, ← hfields] at hname
    exact (h.mem_names_all_iff hall).mpr ⟨mentioned, hmem, facet, hfacet, hname⟩

end Config

namespace History

/-- While a configuration is compiled, the fields of an answer and those of a compiled facet are
neither views nor expanded any further. The expression of these fields is expanded to itself by the
same aliases and under the same union, whatever the limit. -/
theorem answered_fields (history : History) {config : Config} (hconfig : history.config = config)
    (h : config.compiled) {tree : Tree}
    (htree : (∃ request facet, (config.resolve request).answer = .ok facet ∧ facet.fields = tree) ∨
      ∃ entry ∈ config.facets, entry.2.fields = tree) :
    (∀ name ∈ tree.names, ¬ name.isReserved ∧ ¬ config.aliases.isReference name) ∧
      ∀ limit, ∃ expanded,
        (Expansion.Context.expand ⟨config.aliases, config.aggregate?, limit⟩ tree.toExpr).outcome =
          .ok expanded ∧
        expanded.normalize = tree := by
  subst hconfig
  have hcoherent := history.coherent h
  obtain ⟨expr, facet, hfacet, rfl⟩ : ∃ expr facet,
      history.config.afresh history.config.isAssociation expr = .ok facet ∧
        facet.fields = tree := by
    rcases htree with ⟨request, facet, hanswer, rfl⟩ | ⟨entry, hmem, rfl⟩
    · obtain ⟨expr, hfacet⟩ := hcoherent.exists_afresh_of_resolve h hanswer
      exact ⟨expr, facet, hfacet, rfl⟩
    · have hlookup := (Entries.lookup_eq_some_iff hcoherent.distinct).mpr hmem
      obtain ⟨name, _, _, hfacet⟩ := hcoherent.exists_name_of_lookup hlookup
      exact ⟨_, entry.2, hfacet, rfl⟩
  have hfields := hcoherent.isField_of_afresh hfacet
  have hdistinct : facet.fields.Distinct := by
    obtain ⟨expanded, _, rfl⟩ := Config.afresh_eq_ok_iff.mp hfacet
    exact expanded.distinct_normalize
  refine ⟨fun name hname => ?_, fun limit => ?_⟩
  · obtain ⟨hreserved, hnone⟩ := hfields name hname
    exact ⟨hreserved, by simp [AliasTable.isReference, hnone]⟩
  · exact ⟨_, Expansion.Context.expand_toExpr hdistinct hfields, Tree.normalize_toExpr hdistinct⟩

theorem answered_fields_contact :
    contact.config.compiled ∧
      ∃ facet, contact.config.facets.lookup "everything" = some facet ∧
        (∀ name ∈ facet.fields.names,
          ¬ name.isReserved ∧ ¬ contact.config.aliases.isReference name) ∧
        ∃ expanded,
          (Expansion.Context.expand ⟨contact.config.aliases, contact.config.aggregate?, 0⟩
            facet.fields.toExpr).outcome = .ok expanded ∧
          expanded.normalize = facet.fields := by
  have hcompiled : contact.config.compiled := rfl
  obtain ⟨facet, hfacet⟩ : ∃ facet, contact.config.facets.lookup "everything" = some facet :=
    ⟨_, rfl⟩
  obtain ⟨hnames, hexpanded⟩ := answered_fields contact rfl hcompiled
    (Or.inr ⟨_, Entries.mem_of_lookup hfacet, rfl⟩)
  exact ⟨hcompiled, facet, hfacet, hnames, hexpanded 0⟩

/-- While a configuration is compiled, the exposed fields are those of the compiled aliases, each
once. A request that mentions nothing but aliases and views selects no others, if its expansion
succeeds. -/
theorem exposed_fields (history : History) {config : Config} (hconfig : history.config = config)
    (h : config.compiled) :
    ∃ exposed, config.exposedFields = .ok exposed ∧ exposed.Nodup ∧
      (∀ name, name ∈ exposed ↔ ∃ key ∈ config.aliases.names, ∃ facet,
        config.facet? key = .ok (some facet) ∧ name ∈ facet.fields.names) ∧
      ∀ (request : Expr) expanded,
        (∀ mentioned, (request.withDefault config.defaults).mentions mentioned →
          mentioned ∈ config.aliases.names ∨ mentioned.isReserved) →
        ((config.context config.aggregate?).expand
          (request.withDefault config.defaults)).outcome = .ok expanded →
        ∀ name ∈ expanded.normalize.names, name ∈ exposed := by
  subst hconfig
  have hcoherent := history.coherent h
  obtain ⟨all, _, hall, _, _⟩ := hcoherent.union
  refine ⟨all.fields.names, ?_, (hcoherent.distinct_aggregate all hall).1.nodup_names, ?_, ?_⟩
  · rw [Config.exposedFields, Config.allFields, Config.aggregate_eq_ok h hall]
    rfl
  · intro name
    simp only [hcoherent.mem_names_all_iff hall, Config.facet?, if_pos h, Except.ok.injEq]
  · intro request expanded hmentions hexpanded name hname
    exact hcoherent.mem_names_all_of_expand hall hmentions hexpanded hname

/-- A history with an alias that hands a value to the fields of the default facet. -/
def verified : History :=
  .perform
    (.build (.ofList [(.basic, .list [.name ⟨"email"⟩, .name ⟨"phone"⟩]),
      (⟨"verified"⟩, .selection [(.all, .name ⟨"since"⟩), (⟨"badge"⟩, .empty)])]) 256 .standard _
      rfl)
    (.compile fun _ => false)

theorem exposed_fields_verified :
    verified.config.compiled ∧
      ∃ exposed, verified.config.exposedFields = .ok exposed ∧ exposed.Nodup ∧
        (⟨"badge"⟩ : Name) ∈ exposed ∧
        ∃ expanded,
          ((verified.config.context verified.config.aggregate?).expand
            (.list [.name ⟨"verified"⟩, .name .basic])).outcome = .ok expanded ∧
          ∀ name ∈ expanded.normalize.names, name ∈ exposed := by
  have hcompiled : verified.config.compiled := rfl
  obtain ⟨exposed, hexposed, hnodup, hiff, hrequests⟩ := exposed_fields verified rfl hcompiled
  refine ⟨hcompiled, exposed, hexposed, hnodup, ?_, _, rfl, ?_⟩
  · exact (hiff _).mpr ⟨⟨"verified"⟩, by decide +kernel, _, rfl, by decide +kernel⟩
  · refine hrequests (.name ⟨"verified"⟩) _ (fun mentioned hmentioned => Or.inl ?_) rfl
    obtain ⟨item, hmem, hitem⟩ := Expr.mentions_list.mp hmentioned
    rcases List.mem_pair.mp hmem with rfl | rfl
    · obtain rfl := beq_iff_eq.mp hitem
      decide +kernel
    · obtain rfl := beq_iff_eq.mp hitem
      decide +kernel

end History

end FieldSelection
