import FieldSelection.Proofs.Config.Coherence
import FieldSelection.Proofs.Expansion.Success

/-!
# Compilation validates the aliases

Compilation succeeds exactly when every alias fits, that is, has a depth within the limit
(`answer_compile_eq_ok_iff`). It takes only the first pass to find out. Once the aliases fit, a
request fails only by being too deep itself (`History.compile_validates`).
-/

namespace FieldSelection

namespace Config

open Expansion AliasTable

variable {config : Config} {isAssociation : Name → Bool} {name : Name}

/-- Whether every alias has a depth within the limit. -/
def Fits (config : Config) : Prop :=
  ∀ name ∈ config.aliases.names, ∃ depth ≤ config.limit, config.aliases.Depth (.name name) depth

/-- Aliases that have a depth do not lead back to themselves. -/
theorem Fits.acyclic (h : config.Fits) : config.aliases.Acyclic := by
  refine acyclic_of_exists_depth fun name hname => ?_
  obtain ⟨depth, _, hdepth⟩ := h name hname
  exact ⟨depth, hdepth⟩

theorem fits_iff : config.Fits ↔ config.aliases.Acyclic ∧
    ∀ name ∈ config.aliases.names, ∀ depth, config.aliases.Depth (.name name) depth →
      depth ≤ config.limit := by
  constructor
  · intro hfits
    refine ⟨hfits.acyclic, fun name hname depth hdepth => ?_⟩
    obtain ⟨other, hle, hother⟩ := hfits name hname
    rwa [hdepth.unique hother]
  · intro hboth name hname
    obtain ⟨hacyclic, hle⟩ := hboth
    obtain ⟨depth, hdepth⟩ := hacyclic.exists_depth (.name name)
    exact ⟨depth, hle name hname depth hdepth, hdepth⟩

/-- Whether or not there is a union, an expression is expanded if it is no deeper than the limit. -/
theorem succeedsIff_expand_of_depth {expr : Expr} {depth : Nat}
    (h : config.aliases.Depth expr depth) (aggregate : Option Facet) :
    ((config.context aggregate).expand expr).SucceedsIff config.limit (depth ≤ config.limit) :=
  Context.succeedsIff_expand h

/-- An alias that is expanded has a depth within the limit. -/
theorem exists_depth_of_treeOf {aggregate : Option Facet} {tree : Tree}
    (h : ((config.context aggregate).treeOf name).outcome = .ok tree) :
    ∃ depth ≤ config.limit, config.aliases.Depth (.name name) depth := by
  obtain ⟨_, hexpanded, -⟩ := Context.outcome_treeOf_eq_ok.mp h
  exact Context.exists_depth_of_expand hexpanded

theorem fits_of_firstPass {first : List (Name × Tree × Bool)}
    (h : config.firstPass.outcome = .ok first) : config.Fits := by
  intro name hname
  obtain ⟨_, _, hresult⟩ := exists_result_of_each h hname
  exact exists_depth_of_treeOf (outcome_firstPass_step.mp hresult).2.1

/-- Whether there is a union makes no difference to the success of an alias. -/
theorem Fits.exists_treeOf (h : config.Fits) (aggregate : Option Facet)
    (hname : name ∈ config.aliases.names) :
    ∃ tree, ((config.context aggregate).treeOf name).outcome = .ok tree := by
  obtain ⟨depth, hle, hdepth⟩ := h name hname
  exact ((succeedsIff_expand_of_depth hdepth aggregate).map Expr.normalize).succeeds hle

theorem Fits.exists_firstPass (h : config.Fits) :
    ∃ first, config.firstPass.outcome = .ok first := by
  refine exists_outcome_each fun name hname => ?_
  obtain ⟨tree, htree⟩ := h.exists_treeOf none hname
  exact ⟨(name, tree, _), outcome_firstPass_step.mpr ⟨rfl, htree, rfl⟩⟩

theorem Fits.exists_secondPass (h : config.Fits) (aggregate : Facet) {names : List Name}
    (hnames : names ⊆ config.aliases.names) :
    ∃ second, (config.secondPass aggregate names).outcome = .ok second := by
  refine exists_outcome_each fun name hname => ?_
  obtain ⟨tree, htree⟩ := h.exists_treeOf (some aggregate) (hnames hname)
  exact ⟨(name, tree), outcome_secondPass_step.mpr ⟨rfl, htree⟩⟩

/-- If every alias fits, then neither pass fails. -/
theorem Fits.exists_passes (h : config.Fits) (isAssociation : Name → Bool) :
    ∃ result, (config.passes isAssociation).outcome = .ok result := by
  refine exists_outcome_bind h.exists_firstPass fun first hfirst => ?_
  exact exists_outcome_bind (h.exists_secondPass _ (deferred_subset_names hfirst))
    fun second _ => ⟨_, rfl⟩

/-- Compilation succeeds exactly when every alias has a depth within the limit. -/
theorem answer_compile_eq_ok_iff :
    (config.compile isAssociation).answer = .ok () ↔ config.Fits := by
  constructor
  · intro hanswer
    rcases config.compile_cases isAssociation with ⟨_, herror, _⟩ | ⟨_, _, hpasses, _, _⟩
    · exact absurd (herror.symm.trans hanswer) nofun
    · obtain ⟨_, _, hfirst, _⟩ := outcome_passes hpasses
      exact fits_of_firstPass hfirst
  · intro hfits
    obtain ⟨_, hpasses⟩ := hfits.exists_passes isAssociation
    rw [compile, hpasses]

/-- While a configuration is compiled, every alias has a depth within the limit. -/
theorem Coherent.fits (h : config.Coherent) : config.Fits := by
  intro name hname
  obtain ⟨facet, hfacet⟩ := h.exists_facet hname
  obtain ⟨_, hexpanded, _⟩ := h.expansions name hname facet (Entries.mem_of_lookup hfacet)
  exact Context.exists_depth_of_expand hexpanded

/-- A request that is computed afresh while the aliases fit fails only by being too deep. -/
theorem Fits.error_afresh (h : config.Fits) {request : Expr} {error : ConfigError}
    (herror : config.afresh isAssociation request = .error error) :
    error = .expansion (.tooDeep config.limit) ∧
      ∃ depth > config.limit, config.aliases.Depth request depth := by
  obtain ⟨depth, hdepth⟩ := h.acyclic.exists_depth request
  have hsucceeds := succeedsIff_expand_of_depth hdepth config.aggregate?
  unfold afresh at herror
  by_cases hle : depth ≤ config.limit
  · obtain ⟨expanded, hexpanded⟩ := hsucceeds.succeeds hle
    rw [hexpanded] at herror
    cases herror
  · rw [hsucceeds.fails hle] at herror
    cases herror
    exact ⟨rfl, depth, Nat.lt_of_not_le hle, hdepth⟩

/-- A request fails only if it is computed afresh. -/
theorem afresh_of_error_resolve (hcompiled : config.compiled) {request : Expr} {error : ConfigError}
    (h : (config.resolve request).answer = .error error) :
    config.afresh config.isAssociation (request.withDefault config.defaults) = .error error := by
  cases hfound : config.found? request with
  | some facet =>
      rw [resolve_of_found hcompiled hfound] at h
      cases h
  | none => rwa [answer_resolve_of_missing hcompiled hfound] at h

end Config

namespace History

/-- Along every history, the names that are expanded are the aliases that are not defined as their
own name, because none of them is reserved. -/
theorem target?_eq_some_iff_get? (history : History) {name : Name} {definition : Expr} :
    history.config.aliases.target? name = some definition ↔
      history.config.aliases.get? name = some definition ∧ definition.asName? ≠ some name := by
  rw [AliasTable.target?_eq_some_iff, AliasTable.reference?_eq_some_iff]
  refine and_iff_right_of_imp fun halias => ?_
  exact history.not_isReserved (Entries.exists_lookup_eq_some_iff.mp ⟨_, halias.1⟩)

/-- Along every history, compilation succeeds exactly when no alias leads back to itself and no
alias is deeper than the limit; if the first pass succeeds, the second does as well. Without cycles
every expression has exactly one depth. While the configuration is compiled, a request fails only if
its completed form is deeper than the limit, and then with the error that says so. -/
theorem compile_validates (history : History) {config : Config}
    (hconfig : history.config = config) :
    (∀ isAssociation,
      ((config.compile isAssociation).answer = .ok () ↔
        config.aliases.Acyclic ∧ ∀ name ∈ config.aliases.names, ∀ depth,
          config.aliases.Depth (.name name) depth → depth ≤ config.limit) ∧
      ((config.compile isAssociation).answer = .ok () ↔
        ∃ first, config.firstPass.outcome = .ok first)) ∧
    (config.aliases.Acyclic → ∀ expr, ∃! depth, config.aliases.Depth expr depth) ∧
    (config.compiled → ∀ request error, (config.resolve request).answer = .error error →
      error = .expansion (.tooDeep config.limit) ∧
        ∃ depth > config.limit,
          config.aliases.Depth (request.withDefault config.defaults) depth) := by
  refine ⟨fun isAssociation => ⟨?_, ?_⟩, ?_, ?_⟩
  · rw [Config.answer_compile_eq_ok_iff, Config.fits_iff]
  · rw [Config.answer_compile_eq_ok_iff]
    constructor
    · exact Config.Fits.exists_firstPass
    · intro hexists
      obtain ⟨first, hfirst⟩ := hexists
      exact Config.fits_of_firstPass hfirst
  · intro hacyclic expr
    obtain ⟨depth, hdepth⟩ := hacyclic.exists_depth expr
    exact ⟨depth, hdepth, fun _ hother => hother.unique hdepth⟩
  · intro hcompiled request error herror
    subst hconfig
    exact (history.coherent hcompiled).fits.error_afresh
      (Config.afresh_of_error_resolve hcompiled herror)

/-- A history with a limit that leaves no room for a list around its only alias. -/
def narrow : History :=
  .perform
    (.build (.ofList [(⟨"contact"⟩, .list [.name ⟨"email"⟩, .name ⟨"phone"⟩])]) 2 .standard _ rfl)
    (.compile fun _ => false)

theorem compile_validates_narrow :
    narrow.config.compiled ∧ narrow.config.aliases.Acyclic ∧
      (narrow.config.resolve (.list [.name ⟨"contact"⟩, .name .minimal])).answer =
        .error (.expansion (.tooDeep 2)) ∧
      ∃ depth > 2, narrow.config.aliases.Depth (.list [.name ⟨"contact"⟩, .name .minimal])
        depth := by
  have hcompiled : narrow.config.compiled := rfl
  obtain ⟨hcompile, _, hrequests⟩ := compile_validates narrow rfl
  have hacyclic := ((hcompile fun _ => false).1.mp rfl).1
  obtain ⟨_, hdepth⟩ :=
    hrequests hcompiled (.list [.name ⟨"contact"⟩, .name .minimal]) _ rfl
  exact ⟨hcompiled, hacyclic, rfl, hdepth⟩

end History

end FieldSelection
