import FieldSelection.Config.Basic

/-!
# Compilation

Compilation expands every alias twice over at most. In the first pass there is no union of all
aliases yet, so that the reserved names select nothing; the union is made from the results. The
second pass expands again those aliases that missed the union in the first. A failure in either pass
leaves the configuration uncompiled and without any facets.
-/

namespace FieldSelection

namespace Expansion.Context

/-- The tree of fields that an alias comes to. -/
def treeOf (context : Context) (name : Name) : Expansion Tree := do
  return (← context.expand (.name name)).normalize

end Expansion.Context

namespace Config

open Expansion

/-- Expands every alias without the union, and tells which of them missed it. -/
def firstPass (config : Config) : Expansion (List (Name × Tree × Bool)) :=
  each (fun name => do return (name, ← observe ((config.context none).treeOf name)))
    config.aliases.names

/-- Expands the given aliases against the union. -/
def secondPass (config : Config) (aggregate : Facet) (names : List Name) :
    Expansion (List (Name × Tree)) :=
  each (fun name => do
    let tree ← (config.context (some aggregate)).treeOf name
    report (.recompiled name)
    return (name, tree)) names

/-- Expands every alias as far as needed, and returns the union and the tree of each alias. -/
def passes (config : Config) (isAssociation : Name → Bool) :
    Expansion (Facet × List (Name × Tree)) := do
  let first ← config.firstPass
  let aggregate := Facet.ofFields isAssociation (.union (first.map fun (_, tree, _) => tree))
  let deferred := (first.filter fun (_, _, missed) => missed).map Prod.fst
  let second ← config.secondPass aggregate deferred
  return (aggregate, Entries.extend (first.map fun (name, tree, _) => (name, tree)) second)

/-- Compiles every alias and the union of all, and forgets the requests remembered so far. On
success the names that satisfy `isAssociation` are associations from now on. On failure no facet is
compiled, and associations are what they were before. -/
def compile (config : Config) (isAssociation : Name → Bool) : Step Unit :=
  let cleared := { config with compiled := false, facets := [], requests := [] }
  let started := Event.compiling config.aliases.size
  let run := config.passes isAssociation
  match run.outcome with
  | .error error => ⟨.error (.expansion error), cleared, started :: run.events⟩
  | .ok (aggregate, trees) =>
      let facets := Entries.ofList ((Name.all.text, aggregate) ::
        trees.map fun (name, tree) => (name.text, Facet.ofFields isAssociation tree))
      ⟨.ok (), { cleared with compiled := true, facets := facets, isAssociation := isAssociation },
        started :: (run.events ++ [.compiled facets.length aggregate.fields.size])⟩

end Config

end FieldSelection
