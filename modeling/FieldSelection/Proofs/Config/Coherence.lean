import FieldSelection.Proofs.Config.History
import FieldSelection.Proofs.Expansion.Meaning
import FieldSelection.Proofs.Expr.CacheKey

/-!
# Compiled facets reflect the aliases

`Config.Coherent` says of a configuration that its facets, those compiled and those remembered, are
what its present aliases come to. Compilation establishes it (`coherent_compile`), every other
operation keeps it or makes the configuration stale (`Coherent.of_change`), and so it holds at the
end of every history that ends compiled (`History.coherent`).
-/

namespace FieldSelection

namespace Config

open Expansion

/-- Whether the facets of a configuration are what its aliases come to. -/
structure Coherent (config : Config) : Prop where
  /-- There is a facet for `all` and one for each alias, in registration order. -/
  keys : Entries.keys config.facets = (Name.all :: config.aliases.names).map Name.text
  distinct : (Entries.keys config.facets).Nodup
  /-- The facet of `all` unites what the aliases expand to without a union, in normal form. -/
  union : ∃ aggregate trees, config.aggregate? = some aggregate ∧
    List.Forall₂ (fun name tree => ∃ expanded,
        ((config.context none).expand (.name name)).outcome = .ok expanded ∧
          tree = expanded.normalize)
      config.aliases.names trees ∧
    aggregate.fields = .union trees
  /-- The facet of an alias has what the alias expands to under the union, in normal form. -/
  expansions : ∀ name ∈ config.aliases.names, ∀ facet, (name.text, facet) ∈ config.facets →
    ∃ expanded, ((config.context config.aggregate?).expand (.name name)).outcome = .ok expanded ∧
      facet.fields = expanded.normalize
  attributes : ∀ entry ∈ config.facets,
    entry.2 = .ofFields config.isAssociation entry.2.fields
  /-- What is remembered under a key is the facet of a request with that key. -/
  requests : ∀ entry ∈ config.requests, entry.1 ∉ Entries.keys config.facets ∧
    ∃ request : Expr, (request.withDefault config.defaults).cacheKey = entry.1 ∧
      config.afresh config.isAssociation (request.withDefault config.defaults) = .ok entry.2

variable {config next : Config}

/-- The keys of compiled facets are distinct, because no alias is called `all`. -/
theorem nodup_facet_keys (hnames : ∀ name ∈ config.aliases.names, ¬ name.isReserved) :
    ((Name.all :: config.aliases.names).map Name.text).Nodup := by
  have hnew : Name.all ∉ config.aliases.names := fun hall => hnames _ hall rfl
  exact List.Pairwise.map _ (fun _ _ hne heq => hne (Name.text_injective heq))
    (List.nodup_cons.mpr ⟨hnew, config.aliases.distinct⟩)

/-- Compiled facets have the keys of `all` and of the aliases. -/
theorem keys_facets_of_passes {isAssociation : Name → Bool} {aggregate : Facet}
    {trees : List (Name × Tree)}
    (h : (config.passes isAssociation).outcome = .ok (aggregate, trees)) :
    Entries.keys ((Name.all.text, aggregate) ::
      trees.map fun entry => (entry.1.text, Facet.ofFields isAssociation entry.2)) =
        (Name.all :: config.aliases.names).map Name.text := by
  rw [← keys_of_passes h, Entries.keys, Entries.keys, List.map_cons, List.map_cons, List.map_map,
    List.map_map]
  rfl

/-- Compilation of aliases without reserved names makes a configuration coherent. -/
theorem coherent_compile (hnames : ∀ name ∈ config.aliases.names, ¬ name.isReserved)
    (isAssociation : Name → Bool) (h : (config.compile isAssociation).config.compiled) :
    (config.compile isAssociation).config.Coherent := by
  rcases config.compile_cases isAssociation with
    ⟨_, _, hconfig⟩ | ⟨aggregate, trees, hpasses, _, hconfig⟩
  · rw [hconfig] at h
    cases h
  · have hkeys := keys_facets_of_passes hpasses
    have hdistinct := hkeys ▸ nodup_facet_keys hnames
    obtain ⟨first, hfirst, hunion⟩ := union_of_passes hpasses
    -- No entry overwrites another, so that the facets are those listed, in their order.
    rw [hconfig, Entries.ofList_eq_self hdistinct]
    constructor
    case keys => exact hkeys
    case distinct => exact hdistinct
    case union =>
      have htrees := hfirst.imp fun _ _ => Context.outcome_treeOf_eq_ok.mp
      exact ⟨aggregate, first, List.lookup_cons_self, htrees, hunion ▸ rfl⟩
    case expansions =>
      intro name hname facet hmem
      rw [aggregate?, List.lookup_cons_self]
      rcases List.mem_cons.mp hmem with heq | hmem
      · cases Name.text_injective (Prod.mk.inj heq).1
        exact absurd rfl (hnames _ hname)
      · obtain ⟨⟨key, tree⟩, htree, heq⟩ := List.mem_map.mp hmem
        obtain ⟨hkey, rfl⟩ := Prod.mk.inj heq
        obtain rfl := Name.text_injective hkey
        exact Context.outcome_treeOf_eq_ok.mp (tree_of_passes hpasses htree)
    case attributes =>
      intro entry hmem
      rcases List.mem_cons.mp hmem with rfl | hmem
      · exact hunion ▸ rfl
      · obtain ⟨_, _, rfl⟩ := List.mem_map.mp hmem
        rfl
    case requests => exact fun entry hmem => absurd hmem List.not_mem_nil

/-- Every alias has a facet. -/
theorem Coherent.exists_facet (h : config.Coherent) {name : Name}
    (hname : name ∈ config.aliases.names) :
    ∃ facet, config.facets.lookup name.text = some facet := by
  rw [Entries.exists_lookup_eq_some_iff, h.keys]
  exact List.mem_map.mpr ⟨name, List.mem_cons_of_mem _ hname, rfl⟩

/-- The facet of an alias is what the alias comes to when it is computed afresh. -/
theorem Coherent.afresh_alias (h : config.Coherent) {name : Name}
    (hname : name ∈ config.aliases.names) {facet : Facet}
    (hmem : (name.text, facet) ∈ config.facets) :
    config.afresh config.isAssociation (.name name) = .ok facet := by
  obtain ⟨expanded, hexpanded, hfields⟩ := h.expansions name hname facet hmem
  refine afresh_eq_ok_iff.mpr ⟨expanded, hexpanded, ?_⟩
  rw [← hfields]
  exact h.attributes _ hmem

theorem Coherent.aggregate_eq_ofFields (h : config.Coherent) {all : Facet}
    (hall : config.aggregate? = some all) :
    all = .ofFields config.isAssociation all.fields :=
  h.attributes _ (Entries.mem_of_lookup hall)

theorem Coherent.attributes_aggregate (h : config.Coherent) {all : Facet}
    (hall : config.aggregate? = some all) :
    all.attributes = all.fields.withoutAssociations config.isAssociation :=
  congrArg Facet.attributes (h.aggregate_eq_ofFields hall)

theorem Coherent.union_of_aggregate (h : config.Coherent) {all : Facet}
    (hall : config.aggregate? = some all) :
    ∃ trees, List.Forall₂ (fun name tree => ∃ expanded,
          ((config.context none).expand (.name name)).outcome = .ok expanded ∧
            tree = expanded.normalize)
        config.aliases.names trees ∧
      all.fields = .union trees := by
  obtain ⟨_, trees, hsame, hunion⟩ := h.union
  obtain rfl := Option.some.inj (hall.symm.trans hsame)
  exact ⟨trees, hunion⟩

/-- The facet of `all` lists no field twice. -/
theorem Coherent.distinct_aggregate (h : config.Coherent) :
    ∀ all ∈ config.aggregate?, all.Distinct := by
  intro all hall
  obtain ⟨trees, htrees, hunion⟩ := h.union_of_aggregate hall
  have hfields : all.fields.Distinct := by
    rw [hunion]
    refine Tree.distinct_union fun tree hmem => ?_
    obtain ⟨_, _, expanded, _, rfl⟩ := exists_left_of_forall₂ htrees hmem
    exact expanded.distinct_normalize
  refine ⟨hfields, ?_⟩
  rw [h.attributes_aggregate hall]
  exact Tree.distinct_filter hfields _

/-- The facet of `all` is what its name comes to when it is computed afresh. -/
theorem Coherent.afresh_all (h : config.Coherent) {all : Facet}
    (hall : config.aggregate? = some all) :
    config.afresh config.isAssociation (.name .all) = .ok all := by
  obtain ⟨hfields, _⟩ := h.distinct_aggregate all hall
  refine afresh_eq_ok_iff.mpr ⟨all.fields.toExpr, ?_, ?_⟩
  · rw [hall]
    rfl
  · rw [Tree.normalize_toExpr hfields]
    exact h.aggregate_eq_ofFields hall

/-- A compiled facet belongs to a name, and is what the name comes to when it is computed afresh. -/
theorem Coherent.exists_name_of_lookup (h : config.Coherent) {key : String} {facet : Facet}
    (hfacet : config.facets.lookup key = some facet) :
    ∃ name ∈ Name.all :: config.aliases.names, name.text = key ∧
      config.afresh config.isAssociation (.name name) = .ok facet := by
  have hkey := Entries.exists_lookup_eq_some_iff.mp ⟨facet, hfacet⟩
  rw [h.keys, List.mem_map] at hkey
  obtain ⟨name, hname, rfl⟩ := hkey
  refine ⟨name, hname, rfl, ?_⟩
  rcases List.mem_cons.mp hname with rfl | hname
  · exact h.afresh_all hfacet
  · exact h.afresh_alias hname (Entries.mem_of_lookup hfacet)

/-- No facet is compiled for a field that is not an alias. -/
theorem Coherent.lookup_facets_eq_none (h : config.Coherent) {name : Name}
    (hreserved : ¬ name.isReserved) (hname : name ∉ config.aliases.names) :
    config.facets.lookup name.text = none := by
  rw [Entries.lookup_eq_none_iff, h.keys, List.mem_map]
  intro hexists
  obtain ⟨found, hmem, htext⟩ := hexists
  obtain rfl := Name.text_injective htext
  rcases List.mem_cons.mp hmem with rfl | hmem
  · exact hreserved rfl
  · exact hname hmem

/-- A change keeps facets coherent, unless it makes them stale. -/
theorem Coherent.of_change (h : config.Coherent) (hchange : config.Change next)
    (hcompiled : next.compiled) : next.Coherent := by
  cases hchange with
  | none => exact h
  | registration => cases hcompiled
  | @request request facet hmissing hfacet =>
      -- A request is remembered only if nothing is compiled under its key.
      refine { h with requests := Entries.forall_mem_put h.requests ⟨?_, request, rfl, hfacet⟩ }
      exact Entries.lookup_eq_none_iff.mp (Option.or_eq_none_iff.mp hmissing).1
  | clearing => exact { h with requests := fun entry hmem => absurd hmem List.not_mem_nil }

/-- Only a compilation makes a stale configuration answer. -/
theorem Change.compiled (hchange : config.Change next) (hcompiled : next.compiled) :
    config.compiled := by
  cases hchange with
  | registration => cases hcompiled
  | none | request | clearing => exact hcompiled

/-- Whatever the operation, it keeps facets coherent or makes them stale. -/
theorem coherent_perform (hnames : ∀ name ∈ config.aliases.names, ¬ name.isReserved)
    (h : config.compiled → config.Coherent) (operation : Operation)
    (hcompiled : (config.perform operation).compiled) : (config.perform operation).Coherent := by
  by_cases hcompile : ∃ isAssociation, operation = .compile isAssociation
  · obtain ⟨isAssociation, rfl⟩ := hcompile
    exact coherent_compile hnames isAssociation hcompiled
  · have hchange := config.change_of_perform fun isAssociation heq => hcompile ⟨isAssociation, heq⟩
    exact (h (hchange.compiled hcompiled)).of_change hchange hcompiled

end Config

namespace History

/-- At the end of a history that ends compiled, the facets are what the aliases come to. -/
theorem coherent (history : History) (h : history.config.compiled) : history.config.Coherent := by
  induction history with
  | build aliases limit defaults config built =>
      exact absurd ((Config.compiled_of_build built).symm.trans h) nofun
  | perform before operation ih =>
      exact Config.coherent_perform (fun _ => before.not_isReserved) ih operation h
  | inherit before parent => cases h

/-- The whole content of a compiled configuration, whatever its history. The keys of the compiled
facets are `all` and the aliases in registration order. The facet of `all` merges, from left to
right, the normal forms of what the aliases expand to without a union, and the facet of an alias has
the normal form of what it expands to under that facet, whether it was expanded once or twice. What
is remembered under a key, which is never that of a compiled facet, has the normal form of what the
request with that key expands to; there is only one such request among those that are names and one
among the others. Attributes are always the fields without the associations. -/
theorem compiled_facets (history : History) {config : Config} (hconfig : history.config = config)
    (h : config.compiled) :
    ∃ all, config.aggregate? = some all ∧
      Entries.keys config.facets = (Name.all :: config.aliases.names).map Name.text ∧
      (Entries.keys config.facets).Nodup ∧
      (∃ trees,
        List.Forall₂ (fun name tree => ∃ expanded,
            ((config.context none).expand (.name name)).outcome = .ok expanded ∧
              tree = expanded.normalize)
          config.aliases.names trees ∧
        all.fields = trees.foldl Tree.merge .empty) ∧
      (∀ name ∈ config.aliases.names, ∃ facet, config.facets.lookup name.text = some facet ∧
        ∃ expanded, ((config.context (some all)).expand (.name name)).outcome = .ok expanded ∧
          facet.fields = expanded.normalize) ∧
      (∀ entry ∈ config.facets,
        entry.2.attributes = entry.2.fields.withoutAssociations history.isAssociation) ∧
      ∀ entry ∈ config.requests, entry.1 ∉ Entries.keys config.facets ∧
        ∃ request : Expr, request.cacheKey = entry.1 ∧
          (∃ expr : Expr, request = expr.withDefault config.defaults) ∧
          (∃ expanded, ((config.context (some all)).expand request).outcome = .ok expanded ∧
            entry.2.fields = expanded.normalize ∧
            entry.2.attributes = entry.2.fields.withoutAssociations history.isAssociation) ∧
          ∀ other : Expr, other.cacheKey = entry.1 →
            (other.asName? = none ↔ request.asName? = none) → other = request := by
  subst hconfig
  have hcoherent := history.coherent h
  obtain ⟨all, trees, hall, htrees, hunion⟩ := hcoherent.union
  refine ⟨all, hall, hcoherent.keys, hcoherent.distinct, ⟨trees, htrees, hunion⟩, ?_, ?_, ?_⟩
  · intro name hname
    obtain ⟨facet, hfacet⟩ := hcoherent.exists_facet hname
    have hexpansion := hcoherent.expansions name hname facet (Entries.mem_of_lookup hfacet)
    exact ⟨facet, hfacet, hall ▸ hexpansion⟩
  · intro entry hmem
    rw [← history.config_isAssociation]
    exact congrArg Facet.attributes (hcoherent.attributes entry hmem)
  · intro entry hmem
    obtain ⟨hkey, expr, hcacheKey, hfacet⟩ := hcoherent.requests entry hmem
    obtain ⟨expanded, hexpanded, hentry⟩ := Config.afresh_eq_ok_iff.mp hfacet
    rw [hall] at hexpanded
    refine ⟨hkey, _, hcacheKey, ⟨expr, rfl⟩, ⟨expanded, hexpanded, ?_⟩, ?_⟩
    · rw [hentry, history.config_isAssociation]
      exact ⟨rfl, rfl⟩
    · intro other hother hname
      exact Expr.cacheKey_injective (hother.trans hcacheKey.symm) hname

/-- A history with two aliases, the second of which reads the union, and one request. -/
def contact : History :=
  .perform
    (.perform
      (.build (.ofList [(⟨"contact"⟩, .list [.name ⟨"email"⟩, .name ⟨"owner"⟩]),
        (⟨"everything"⟩, .name .all)]) 256 .standard _ rfl)
      (.compile (· == ⟨"owner"⟩)))
    (.resolve (.name ⟨"contact"⟩))

/-- The facet of either alias of `contact`, and so of `all`. -/
def contactFacet : Facet where
  fields := .field ⟨"email"⟩ .empty (.leaf ⟨"owner"⟩)
  attributes := .leaf ⟨"email"⟩

/-- The facet of the request of `contact`, which is completed by the default one. -/
def contactRequestFacet : Facet where
  fields := .field ⟨"email"⟩ .empty (.field ⟨"owner"⟩ .empty (.leaf ⟨"basic"⟩))
  attributes := .field ⟨"email"⟩ .empty (.leaf ⟨"basic"⟩)

/-- Without the union the first alias of `contact` comes to its fields, the second to nothing. -/
theorem eq_trees_of_contact {trees : List Tree}
    (h : List.Forall₂ (fun name tree => ∃ expanded,
        ((contact.config.context none).expand (.name name)).outcome = .ok expanded ∧
          tree = expanded.normalize)
      contact.config.aliases.names trees) : trees = [contactFacet.fields, .empty] := by
  have hexpansions : List.Forall₂ (fun name expanded =>
      ((contact.config.context none).expand (.name name)).outcome = .ok expanded)
      contact.config.aliases.names [.list [.name ⟨"email"⟩, .name ⟨"owner"⟩], .empty] :=
    .cons rfl (.cons rfl .nil)
  exact Expansion.Context.eq_map_normalize hexpansions h

/-- The second alias of `contact` comes to nothing without the union, and under it to the fields of
the first. -/
theorem compiled_facets_contact :
    contact.config.compiled ∧
      contact.config.facets =
        [("all", contactFacet), ("contact", contactFacet), ("everything", contactFacet)] ∧
      contact.config.requests = [("[\"contact\",\"basic\"]", contactRequestFacet)] ∧
      List.Forall₂ (fun name tree => ∃ expanded,
          ((contact.config.context none).expand (.name name)).outcome = .ok expanded ∧
            tree = expanded.normalize)
        [⟨"contact"⟩, ⟨"everything"⟩] [contactFacet.fields, .empty] ∧
      contactFacet.fields = [contactFacet.fields, .empty].foldl Tree.merge .empty ∧
      (∃ expanded, ((contact.config.context (some contactFacet)).expand
          (.name ⟨"everything"⟩)).outcome = .ok expanded ∧
        contactFacet.fields = expanded.normalize) ∧
      (∀ entry ∈ contact.config.facets,
        entry.2.attributes = entry.2.fields.withoutAssociations (· == ⟨"owner"⟩)) ∧
      "[\"contact\",\"basic\"]" ∉ Entries.keys contact.config.facets ∧
      ∃ request : Expr, request.cacheKey = "[\"contact\",\"basic\"]" ∧
        (∃ expr : Expr, request = expr.withDefault .standard) ∧
        (request.asName? = none → .list [.name ⟨"contact"⟩, .name .basic] = request) ∧
        ∃ expanded, ((contact.config.context (some contactFacet)).expand request).outcome =
            .ok expanded ∧
          contactRequestFacet.fields = expanded.normalize ∧
          contactRequestFacet.attributes =
            contactRequestFacet.fields.withoutAssociations (· == ⟨"owner"⟩) := by
  have hcompiled : contact.config.compiled := rfl
  have hfacets : contact.config.facets =
      [("all", contactFacet), ("contact", contactFacet), ("everything", contactFacet)] := by
    decide +kernel
  have hrequests : contact.config.requests =
      [("[\"contact\",\"basic\"]", contactRequestFacet)] := by
    decide +kernel
  obtain ⟨all, hall, -, -, ⟨trees, htrees, hunion⟩, haliases, hattributes, hremembered⟩ :=
    compiled_facets contact rfl hcompiled
  rw [Config.aggregate?, hfacets] at hall
  obtain rfl : contactFacet = all := Option.some.inj hall
  obtain rfl := eq_trees_of_contact htrees
  obtain ⟨facet, hfacet, heverything⟩ := haliases ⟨"everything"⟩ (by decide +kernel)
  rw [hfacets] at hfacet
  obtain rfl : contactFacet = facet := Option.some.inj hfacet
  obtain ⟨hkey, request, hcacheKey, hcompleted, hexpansion, honly⟩ :=
    hremembered _ (hrequests ▸ List.mem_cons_self)
  refine ⟨hcompiled, hfacets, hrequests, htrees, hunion, heverything, hattributes, hkey, request,
    hcacheKey, hcompleted, ?_, hexpansion⟩
  exact fun hname => honly _ (by decide +kernel) ⟨fun _ => hname, fun _ => rfl⟩

end History

end FieldSelection
