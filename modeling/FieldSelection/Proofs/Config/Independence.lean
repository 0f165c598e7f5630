import FieldSelection.Proofs.Config.Distinct
import FieldSelection.Proofs.Config.Union
import FieldSelection.Proofs.Config.Validation
import FieldSelection.Proofs.Expansion.Alike

/-!
# Compilation depends on the aliases alone

Two configurations are alike when their aliases are, and their limits and default names are equal.
However they came about, alike configurations can be compiled or not together, and once they are
compiled with the same associations they give the same answers, up to the order of fields
(`History.compile_independent`).
-/

namespace FieldSelection

namespace Facet

/-- Equality up to the order of fields. -/
def Same (a b : Facet) : Prop :=
  a.fields.same b.fields ∧ a.attributes.same b.attributes

theorem same_ofFields {a b : Tree} (ha : a.Distinct) (hb : b.Distinct)
    (hpaths : ∀ path, a.Selects path ↔ b.Selects path) (isAssociation : Name → Bool) :
    (ofFields isAssociation a).Same (ofFields isAssociation b) := by
  refine ⟨(Tree.same_iff ha hb).mpr hpaths,
    (Tree.same_iff (Tree.distinct_filter ha _) (Tree.distinct_filter hb _)).mpr fun path => ?_⟩
  cases path with
  | nil => simp
  | cons first path => rw [Tree.selects_filter, Tree.selects_filter, hpaths]

end Facet

namespace Config

open Expansion

/-- Whether two answers are facets that are the same up to the order of fields, or the same
error. -/
inductive SameAnswer : Except ConfigError Facet → Except ConfigError Facet → Prop where
  | facet {a b : Facet} : a.Same b → SameAnswer (.ok a) (.ok b)
  | error (error : ConfigError) : SameAnswer (.error error) (.error error)

/-- Whether two configurations agree on their aliases and settings, whatever is compiled or
remembered in either. -/
structure Alike (config other : Config) : Prop where
  aliases : config.aliases.Alike other.aliases
  names : config.aliases.names.Perm other.aliases.names
  limit : config.limit = other.limit
  defaults : config.defaults = other.defaults

/-- Whether two configurations that are alike are also compiled as their aliases demand, with the
same associations. -/
structure Twins (config other : Config) : Prop where
  alike : config.Alike other
  coherent : config.Coherent
  otherCoherent : other.Coherent
  isAssociation : config.isAssociation = other.isAssociation

variable {config other : Config}

theorem Alike.symm (h : config.Alike other) : other.Alike config :=
  ⟨h.aliases.symm, h.names.symm, h.limit.symm, h.defaults.symm⟩

theorem Twins.symm (h : config.Twins other) : other.Twins config :=
  ⟨h.alike.symm, h.otherCoherent, h.coherent, h.isAssociation.symm⟩

/-- Aliases that fit in one configuration fit in any that is alike. -/
theorem Alike.fits (h : config.Alike other) (hfits : config.Fits) : other.Fits := by
  refine fits_iff.mpr ⟨hfits.acyclic.of_alike h.aliases, fun name hname depth hdepth => ?_⟩
  obtain ⟨same, hle, hsame⟩ := hfits name (h.names.mem_iff.mpr hname)
  obtain rfl := hsame.eq_of_alike h.aliases hdepth (.refl _)
  exact h.limit ▸ hle

/-- Compilation keeps configurations alike. -/
theorem Alike.compile (h : config.Alike other) (isAssociation otherIsAssociation : Name → Bool) :
    (config.compile isAssociation).config.Alike (other.compile otherIsAssociation).config := by
  obtain ⟨hlimit, hdefaults⟩ := config.settings_compile isAssociation
  obtain ⟨hotherLimit, hotherDefaults⟩ := other.settings_compile otherIsAssociation
  constructor
  case aliases => rw [aliases_compile, aliases_compile]; exact h.aliases
  case names => rw [aliases_compile, aliases_compile]; exact h.names
  case limit => rw [hlimit, hotherLimit]; exact h.limit
  case defaults => rw [hdefaults, hotherDefaults]; exact h.defaults

/-! ## What is compiled -/

variable {all otherAll : Facet} {path : List Name}

theorem Twins.selects_all (h : config.Twins other) (hall : config.aggregate? = some all)
    (hotherAll : other.aggregate? = some otherAll) (hpath : all.fields.Selects path) :
    otherAll.fields.Selects path := by
  cases path with
  | nil => simp
  | cons first path =>
      obtain ⟨name, hname, _, hmeans, hpath⟩ := (h.coherent.selects_all_iff hall).mp hpath
      have hname := h.alike.names.mem_iff.mp hname
      obtain ⟨_, hotherMeans⟩ := h.otherCoherent.exists_means hname
      have hcontext : (config.context none).Alike (other.context none) :=
        ⟨h.alike.aliases, fun _ _ => Iff.rfl⟩
      exact (h.otherCoherent.selects_all_iff hotherAll).mpr
        ⟨name, hname, _, hotherMeans, hmeans.selects_of_alike hcontext hotherMeans (.refl _) hpath⟩

theorem Twins.selects_all_iff (h : config.Twins other) (hall : config.aggregate? = some all)
    (hotherAll : other.aggregate? = some otherAll) :
    all.fields.Selects path ↔ otherAll.fields.Selects path :=
  ⟨h.selects_all hall hotherAll, h.symm.selects_all hotherAll hall⟩

/-- The union is the same selection in both configurations. -/
theorem Twins.same_all (h : config.Twins other) (hall : config.aggregate? = some all)
    (hotherAll : other.aggregate? = some otherAll) : all.Same otherAll := by
  rw [h.coherent.aggregate_eq_ofFields hall, h.otherCoherent.aggregate_eq_ofFields hotherAll,
    h.isAssociation]
  exact Facet.same_ofFields (h.coherent.distinct_aggregate all hall).1
    (h.otherCoherent.distinct_aggregate otherAll hotherAll).1
    (fun _ => h.selects_all_iff hall hotherAll) _

/-- Expansion under the union depends on what the two configurations have in common. -/
theorem Twins.context (h : config.Twins other) :
    (config.context config.aggregate?).Alike (other.context other.aggregate?) := by
  obtain ⟨all, _, hall, _⟩ := h.coherent.union
  obtain ⟨otherAll, _, hotherAll, _⟩ := h.otherCoherent.union
  obtain ⟨hfields, hattributes⟩ := h.same_all hall hotherAll
  obtain ⟨hdistinct, hdistinctAttributes⟩ := h.coherent.distinct_aggregate all hall
  obtain ⟨hotherDistinct, hotherAttributes⟩ := h.otherCoherent.distinct_aggregate otherAll hotherAll
  refine ⟨h.alike.aliases, fun name => ?_⟩
  rw [hall, hotherAll]
  by_cases hname : name = Name.allAttributes
  · simpa [Context.view, Config.context, hname] using
      (Tree.same_iff hdistinctAttributes hotherAttributes).mp hattributes
  · simpa [Context.view, Config.context, hname] using
      (Tree.same_iff hdistinct hotherDistinct).mp hfields

/-- Requests that are computed afresh come to the same. -/
theorem Twins.sameAnswer_afresh (h : config.Twins other) (request : Expr) :
    SameAnswer (config.afresh config.isAssociation request)
      (other.afresh other.isAssociation request) := by
  unfold afresh
  rcases Context.expand_of_alike h.context h.alike.limit h.coherent.fits.acyclic
    h.coherent.distinct_aggregate h.otherCoherent.distinct_aggregate (.refl request) with
    ⟨hfails, hotherFails⟩ | ⟨expanded, otherExpanded, hexpanded, hotherExpanded, hpaths⟩
  · rw [hfails, hotherFails]
    exact .error _
  · rw [hexpanded, hotherExpanded, h.isAssociation]
    exact .facet (Facet.same_ofFields expanded.distinct_normalize otherExpanded.distinct_normalize
      hpaths _)

/-- Facets are compiled for the same keys, and they are the same. -/
theorem Twins.lookup_facets (h : config.Twins other) (key : String) :
    Option.Rel Facet.Same (config.facets.lookup key) (other.facets.lookup key) := by
  have hkeys : (Entries.keys config.facets).Perm (Entries.keys other.facets) := by
    rw [h.coherent.keys, h.otherCoherent.keys]
    exact (h.alike.names.cons _).map _
  cases hlookup : config.facets.lookup key with
  | none =>
      have hnot := hkeys.mem_iff.not.mp (Entries.lookup_eq_none_iff.mp hlookup)
      rw [Entries.lookup_eq_none_iff.mpr hnot]
      exact .none
  | some facet =>
      obtain ⟨found, hfound⟩ := Entries.exists_lookup_eq_some_iff.mpr
        (hkeys.mem_iff.mp (Entries.exists_lookup_eq_some_iff.mp ⟨facet, hlookup⟩))
      obtain ⟨name, _, htext, hafresh⟩ := h.coherent.exists_name_of_lookup hlookup
      obtain ⟨otherName, _, hotherText, hotherAfresh⟩ :=
        h.otherCoherent.exists_name_of_lookup hfound
      obtain rfl := Name.text_injective (htext.trans hotherText.symm)
      have hanswer := h.sameAnswer_afresh (.name name)
      rw [hafresh, hotherAfresh] at hanswer
      cases hanswer with
      | facet hsame => exact hfound ▸ .some hsame

/-- While no request is remembered, requests are answered alike. -/
theorem Twins.sameAnswer_resolve (h : config.Twins other) (hcompiled : config.compiled)
    (hotherCompiled : other.compiled) (hrequests : config.requests = [])
    (hotherRequests : other.requests = []) (request : Expr) :
    SameAnswer (config.resolve request).answer (other.resolve request).answer := by
  have hfound : Option.Rel Facet.Same (config.found? request) (other.found? request) := by
    rw [found?, found?, hrequests, hotherRequests, h.alike.defaults]
    simpa using h.lookup_facets _
  cases hhere : config.found? request with
  | none =>
      cases hthere : other.found? request with
      | none =>
          rw [answer_resolve_of_missing hcompiled hhere,
            answer_resolve_of_missing hotherCompiled hthere, h.alike.defaults]
          exact h.sameAnswer_afresh _
      | some => rw [hhere, hthere] at hfound; cases hfound
  | some facet =>
      cases hthere : other.found? request with
      | none => rw [hhere, hthere] at hfound; cases hfound
      | some otherFacet =>
          rw [hhere, hthere] at hfound
          rw [resolve_of_found hcompiled hhere, resolve_of_found hotherCompiled hthere]
          cases hfound with
          | some hsame => exact .facet hsame

/-- Whether two configurations have the same compiled facets and answer the next request alike. -/
structure Interchangeable (config other : Config) : Prop where
  facet : ∀ name, ∃ found otherFound, config.facet? name = .ok found ∧
    other.facet? name = .ok otherFound ∧ Option.Rel Facet.Same found otherFound
  allFields : ∃ fields otherFields, config.allFields = .ok fields ∧
    other.allFields = .ok otherFields ∧ fields.same otherFields
  allAttributes : ∃ attributes otherAttributes, config.allAttributes = .ok attributes ∧
    other.allAttributes = .ok otherAttributes ∧ attributes.same otherAttributes
  resolve : ∀ request, SameAnswer (config.resolve request).answer (other.resolve request).answer

theorem Twins.interchangeable (h : config.Twins other) (hcompiled : config.compiled)
    (hotherCompiled : other.compiled) (hrequests : config.requests = [])
    (hotherRequests : other.requests = []) : config.Interchangeable other := by
  obtain ⟨all, _, hall, _⟩ := h.coherent.union
  obtain ⟨otherAll, _, hotherAll, _⟩ := h.otherCoherent.union
  obtain ⟨hfields, hattributes⟩ := h.same_all hall hotherAll
  have haggregate := aggregate_eq_ok hcompiled hall
  have hotherAggregate := aggregate_eq_ok hotherCompiled hotherAll
  constructor
  case facet =>
    intro name
    rw [facet?, facet?, if_pos hcompiled, if_pos hotherCompiled]
    exact ⟨_, _, rfl, rfl, h.lookup_facets name.text⟩
  case allFields =>
    rw [allFields, allFields, haggregate, hotherAggregate]
    exact ⟨_, _, rfl, rfl, hfields⟩
  case allAttributes =>
    rw [allAttributes, allAttributes, haggregate, hotherAggregate]
    exact ⟨_, _, rfl, rfl, hattributes⟩
  case resolve =>
    exact h.sameAnswer_resolve hcompiled hotherCompiled hrequests hotherRequests

end Config

namespace History

/-- Whatever the histories of two configurations, if their aliases are equal up to order and their
limits and default names are equal, then a compilation with the same associations succeeds on both
or on neither, and if it does, they are interchangeable from then on. Equality up to order is meant
for selections that hold each key once. -/
theorem compile_independent (history other : History)
    (isAssociation otherIsAssociation : Name → Bool) (hdistinct : history.Distinct)
    (haliases : history.config.aliases.same other.config.aliases)
    (hlimit : history.config.limit = other.config.limit)
    (hdefaults : history.config.defaults = other.config.defaults)
    (hassociations : ∀ name, isAssociation name = otherIsAssociation name) :
    ((history.config.compile isAssociation).answer = .ok () ↔
      (other.config.compile otherIsAssociation).answer = .ok ()) ∧
    ((history.config.compile isAssociation).answer = .ok () →
      (history.config.compile isAssociation).config.Interchangeable
        (other.config.compile otherIsAssociation).config) := by
  have halike : history.config.Alike other.config :=
    ⟨AliasTable.alike_of_same hdistinct.definitions haliases,
      AliasTable.perm_names_of_same haliases, hlimit, hdefaults⟩
  have hiff : (history.config.compile isAssociation).answer = .ok () ↔
      (other.config.compile otherIsAssociation).answer = .ok () := by
    rw [Config.answer_compile_eq_ok_iff, Config.answer_compile_eq_ok_iff]
    exact ⟨halike.fits, halike.symm.fits⟩
  refine ⟨hiff, fun hanswer => ?_⟩
  obtain ⟨hcompiled, hrequests, htest⟩ := Config.compiled_of_answer_compile hanswer
  obtain ⟨hotherCompiled, hotherRequests, hotherTest⟩ :=
    Config.compiled_of_answer_compile (hiff.mp hanswer)
  have htwins : (history.config.compile isAssociation).config.Twins
      (other.config.compile otherIsAssociation).config := by
    constructor
    case alike => exact halike.compile _ _
    case coherent => exact Config.coherent_compile (fun _ => history.not_isReserved) _ hcompiled
    case otherCoherent =>
      exact Config.coherent_compile (fun _ => other.not_isReserved) _ hotherCompiled
    case isAssociation => rw [htest, hotherTest, funext hassociations]
  exact htwins.interchangeable hcompiled hotherCompiled hrequests hotherRequests

/-- A history that leads to the aliases of `contact` in another order. One replaces an earlier
definition by inheritance, and the other is registered after a compilation. -/
def reordered : History :=
  .perform
    (.perform
      (.inherit
        (.build (.ofList [(⟨"everything"⟩, .name ⟨"email"⟩)]) 256 .standard _ rfl)
        (.build (.ofList [(⟨"everything"⟩, .name .all)]) 1 .standard _ rfl))
      (.compile fun _ => false))
    (.register ⟨"contact"⟩ (.list [.name ⟨"email"⟩, .name ⟨"owner"⟩]))

theorem compile_independent_reordered :
    contact.config.aliases.names ≠ reordered.config.aliases.names ∧
      (contact.config.compile (· == ⟨"owner"⟩)).config.Interchangeable
        (reordered.config.compile (· == ⟨"owner"⟩)).config := by
  have hdistinct : contact.Distinct :=
    ⟨⟨Entries.forall_mem_ofList (by simp [Expr.Distinct, Expr.DistinctItems]), trivial⟩, trivial⟩
  obtain ⟨_, hsame⟩ := compile_independent contact reordered (· == ⟨"owner"⟩) (· == ⟨"owner"⟩)
    hdistinct (by decide +kernel) rfl rfl fun _ => rfl
  exact ⟨by decide +kernel, hsame rfl⟩

end History

end FieldSelection
