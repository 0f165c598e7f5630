import FieldSelection.Config.Compile
import FieldSelection.Proofs.Entries
import FieldSelection.Proofs.Expansion.Aggregate

/-!
# What compilation computes

`tree_of_passes` says that after both passes every alias has the tree it comes to under the final
union, although only the aliases that missed the union were expanded under it. `compile_cases` lists
the two ways in which a compilation ends.
-/

namespace FieldSelection

namespace Expansion

/-- The tree of an alias is its expansion in normal form. -/
theorem Context.outcome_treeOf_eq_ok {context : Context} {name : Name} {tree : Tree} :
    (context.treeOf name).outcome = .ok tree ↔
      ∃ expanded, (context.expand (.name name)).outcome = .ok expanded ∧
        tree = expanded.normalize := by
  rw [treeOf, outcome_bind_pure_eq_ok]
  exact exists_congr fun _ => and_congr_right fun _ => eq_comm

/-- Several aliases come to the normal forms of their expansions, and to nothing else. -/
theorem Context.eq_map_normalize {context : Context} {names : List Name} {expansions : List Expr}
    {trees : List Tree}
    (h : List.Forall₂ (fun name expanded =>
      (context.expand (.name name)).outcome = .ok expanded) names expansions)
    (htrees : List.Forall₂ (fun name tree => ∃ expanded,
      (context.expand (.name name)).outcome = .ok expanded ∧ tree = expanded.normalize)
      names trees) :
    trees = expansions.map Expr.normalize := by
  refine Relator.RightUnique.forall₂ ?_ htrees ?_
  · intro name tree other htree hother
    obtain ⟨_, hexpanded, rfl⟩ := htree
    obtain ⟨_, hsame, rfl⟩ := hother
    rw [Except.ok.inj (hexpanded.symm.trans hsame)]
  · rw [List.forall₂_map_right_iff]
    exact h.imp fun _ expanded hexpanded => ⟨expanded, hexpanded, rfl⟩

/-- An alias that missed no union comes to the same tree under every union. -/
theorem Context.treeOf_unless_missed {context : Context} (hnone : context.aggregate = none)
    (aggregate : Option Facet) (name : Name) :
    (context.treeOf name).SameUnlessMissed ((context.withAggregate aggregate).treeOf name) :=
  (expand_unless_missed hnone _).bind fun _ => .refl _

end Expansion

namespace Config

open Expansion

variable {config : Config} {isAssociation : Name → Bool} {aggregate : Facet}
  {trees : List (Name × Tree)}

/-- What the first pass finds out about an alias. -/
theorem outcome_firstPass_step {name : Name} {result : Name × Tree × Bool} :
    (do return (name, ← observe ((config.context none).treeOf name)) :
      Expansion (Name × Tree × Bool)).outcome = .ok result ↔
      result.1 = name ∧ ((config.context none).treeOf name).outcome = .ok result.2.1 ∧
        ((config.context none).treeOf name).missed = result.2.2 := by
  obtain ⟨key, tree, missed⟩ := result
  rw [outcome_bind_pure_eq_ok]
  constructor
  · intro hexists
    obtain ⟨⟨_, _⟩, hobserve, heq⟩ := hexists
    cases heq
    exact ⟨rfl, outcome_observe_eq_ok.mp hobserve⟩
  · intro hboth
    obtain ⟨rfl, hobserve⟩ := hboth
    exact ⟨(tree, missed), outcome_observe_eq_ok.mpr hobserve, rfl⟩

/-- What the second pass finds out about an alias. -/
theorem outcome_secondPass_step {name : Name} {result : Name × Tree} :
    (do
      let tree ← (config.context (some aggregate)).treeOf name
      report (.recompiled name)
      return (name, tree) : Expansion (Name × Tree)).outcome = .ok result ↔
      result.1 = name ∧ ((config.context (some aggregate)).treeOf name).outcome = .ok result.2 := by
  obtain ⟨key, tree⟩ := result
  rw [outcome_bind_eq_ok]
  constructor
  · intro hexists
    obtain ⟨_, htree, heq⟩ := hexists
    cases heq
    exact ⟨rfl, htree⟩
  · intro hboth
    obtain ⟨rfl, htree⟩ := hboth
    exact ⟨tree, htree, rfl⟩

/-- The passes succeed when both do, and what they come to is put together from both. -/
theorem outcome_passes (h : (config.passes isAssociation).outcome = .ok (aggregate, trees)) :
    ∃ first second, config.firstPass.outcome = .ok first ∧
      aggregate = .ofFields isAssociation (.union (first.map fun (_, tree, _) => tree)) ∧
      (config.secondPass aggregate
        ((first.filter fun (_, _, missed) => missed).map Prod.fst)).outcome = .ok second ∧
      trees = Entries.extend (first.map fun (name, tree, _) => (name, tree)) second := by
  obtain ⟨first, hfirst, h⟩ := outcome_bind_eq_ok.mp h
  obtain ⟨second, hsecond, heq⟩ := outcome_bind_pure_eq_ok.mp h
  cases heq
  exact ⟨first, second, hfirst, rfl, hsecond, rfl⟩

/-- The union is made of the trees that the aliases come to without one, in registration order. -/
theorem union_of_passes (h : (config.passes isAssociation).outcome = .ok (aggregate, trees)) :
    ∃ first, List.Forall₂ (fun name tree =>
        ((config.context none).treeOf name).outcome = .ok tree) config.aliases.names first ∧
      aggregate = .ofFields isAssociation (.union first) := by
  obtain ⟨first, _, hfirst, haggregate, -, -⟩ := outcome_passes h
  refine ⟨first.map fun (_, tree, _) => tree, ?_, haggregate⟩
  rw [List.forall₂_map_right_iff]
  refine (outcome_each_eq_ok.mp hfirst).imp fun name result hresult => ?_
  exact (outcome_firstPass_step.mp hresult).2.1

theorem keys_of_first {first : List (Name × Tree × Bool)}
    (h : config.firstPass.outcome = .ok first) :
    Entries.keys (first.map fun (name, tree, _) => (name, tree)) = config.aliases.names := by
  rw [Entries.keys, List.map_map]
  exact map_eq_of_each (fun _ _ hresult => (outcome_firstPass_step.mp hresult).1) h

/-- Only aliases are put off to the second pass. -/
theorem deferred_subset_names {first : List (Name × Tree × Bool)}
    (h : config.firstPass.outcome = .ok first) :
    (first.filter fun (_, _, missed) => missed).map Prod.fst ⊆ config.aliases.names := by
  rw [← keys_of_first h, Entries.keys, List.map_map]
  exact List.map_subset _ (List.filter_subset_self _)

theorem keys_of_second {names : List Name} {second : List (Name × Tree)}
    (h : (config.secondPass aggregate names).outcome = .ok second) : Entries.keys second = names :=
  map_eq_of_each (fun _ _ hresult => (outcome_secondPass_step.mp hresult).1) h

/-- The passes give a tree to every alias, in registration order. -/
theorem keys_of_passes (h : (config.passes isAssociation).outcome = .ok (aggregate, trees)) :
    Entries.keys trees = config.aliases.names := by
  obtain ⟨first, second, hfirst, -, hsecond, rfl⟩ := outcome_passes h
  rw [Entries.keys_extend, keys_of_first hfirst]
  rw [keys_of_first hfirst, keys_of_second hsecond]
  exact deferred_subset_names hfirst

/-- An alias that missed nothing in the first pass comes to the same tree under every union. -/
theorem treeOf_of_firstPass {first : List (Name × Tree × Bool)} {name : Name} {tree : Tree}
    (h : config.firstPass.outcome = .ok first) (hmem : (name, tree, false) ∈ first)
    (aggregate : Option Facet) : ((config.context aggregate).treeOf name).outcome = .ok tree := by
  obtain ⟨_, _, hresult⟩ := exists_member_of_each h hmem
  obtain ⟨rfl, htree, hmissed⟩ := outcome_firstPass_step.mp hresult
  have hsame := Context.treeOf_unless_missed rfl aggregate _ hmissed
  exact hsame.trans htree

/-- The tree of every alias is the one it comes to under the union, whether or not it was expanded
again. -/
theorem tree_of_passes (h : (config.passes isAssociation).outcome = .ok (aggregate, trees))
    {entry : Name × Tree} (hmem : entry ∈ trees) :
    ((config.context (some aggregate)).treeOf entry.1).outcome = .ok entry.2 := by
  obtain ⟨first, second, hfirst, -, hsecond, rfl⟩ := outcome_passes h
  have hdistinct : (Entries.keys (first.map fun (name, tree, _) => (name, tree))).Nodup :=
    keys_of_first hfirst ▸ config.aliases.distinct
  rcases Entries.mem_of_mem_extend hdistinct hmem with hagain | ⟨honce, hnot⟩
  · obtain ⟨name, _, hresult⟩ := exists_member_of_each hsecond hagain
    obtain ⟨rfl, htree⟩ := outcome_secondPass_step.mp hresult
    exact htree
  · -- An alias that was not expanded again missed nothing the first time.
    obtain ⟨⟨name, tree, missed⟩, hresult, rfl⟩ := List.mem_map.mp honce
    obtain rfl : missed = false := by
      rw [keys_of_second hsecond, List.mem_map] at hnot
      rw [← Bool.not_eq_true]
      exact fun htrue => hnot ⟨_, List.mem_filter.mpr ⟨hresult, htrue⟩, rfl⟩
    exact treeOf_of_firstPass hfirst hresult (some aggregate)

/-- To go over every alias again would change nothing. -/
theorem secondPass_names (h : (config.passes isAssociation).outcome = .ok (aggregate, trees)) :
    (config.secondPass aggregate config.aliases.names).outcome = .ok trees := by
  rw [← keys_of_passes h, secondPass, outcome_each_eq_ok, Entries.keys, List.forall₂_map_left_iff,
    List.forall₂_same]
  exact fun entry hmem => outcome_secondPass_step.mpr ⟨rfl, tree_of_passes h hmem⟩

/-- A compilation fails and leaves no facets, or it succeeds with those that the passes come to. -/
theorem compile_cases (config : Config) (isAssociation : Name → Bool) :
    (∃ error, (config.compile isAssociation).answer = .error error ∧
      (config.compile isAssociation).config =
        { config with compiled := false, facets := [], requests := [] }) ∨
    ∃ aggregate trees, (config.passes isAssociation).outcome = .ok (aggregate, trees) ∧
      (config.compile isAssociation).answer = .ok () ∧
      (config.compile isAssociation).config =
        { config with
          compiled := true
          facets := Entries.ofList ((Name.all.text, aggregate) ::
            trees.map fun entry => (entry.1.text, Facet.ofFields isAssociation entry.2))
          requests := []
          isAssociation := isAssociation } := by
  cases houtcome : (config.passes isAssociation).outcome with
  | error error =>
      refine Or.inl ⟨.expansion error, ?_, ?_⟩ <;> simp only [compile, houtcome]
  | ok result =>
      obtain ⟨aggregate, trees⟩ := result
      refine Or.inr ⟨aggregate, trees, rfl, ?_, ?_⟩ <;> simp only [compile, houtcome]

/-- A compilation that fails leaves nothing compiled and forgets the requests remembered. -/
theorem config_compile_of_error {error : ConfigError}
    (h : (config.compile isAssociation).answer = .error error) :
    (config.compile isAssociation).config =
      { config with compiled := false, facets := [], requests := [] } := by
  rcases config.compile_cases isAssociation with ⟨_, _, hconfig⟩ | ⟨_, _, _, hanswer, _⟩
  · exact hconfig
  · exact absurd (hanswer.symm.trans h) nofun

theorem aliases_compile (config : Config) (isAssociation : Name → Bool) :
    (config.compile isAssociation).config.aliases = config.aliases := by
  rcases config.compile_cases isAssociation with ⟨_, _, hconfig⟩ | ⟨_, _, _, _, hconfig⟩ <;>
    rw [hconfig]

theorem settings_compile (config : Config) (isAssociation : Name → Bool) :
    (config.compile isAssociation).config.limit = config.limit ∧
      (config.compile isAssociation).config.defaults = config.defaults := by
  rcases config.compile_cases isAssociation with ⟨_, _, hconfig⟩ | ⟨_, _, _, _, hconfig⟩ <;>
    rw [hconfig] <;> exact ⟨rfl, rfl⟩

/-- A compilation that succeeds leaves no request remembered, and sets the test for associations. -/
theorem compiled_of_answer_compile (h : (config.compile isAssociation).answer = .ok ()) :
    (config.compile isAssociation).config.compiled ∧
      (config.compile isAssociation).config.requests = [] ∧
      (config.compile isAssociation).config.isAssociation = isAssociation := by
  rcases config.compile_cases isAssociation with ⟨_, herror, _⟩ | ⟨_, _, _, _, hconfig⟩
  · exact absurd (herror.symm.trans h) nofun
  · rw [hconfig]
    exact ⟨rfl, rfl, rfl⟩

end Config

end FieldSelection
