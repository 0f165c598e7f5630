import FieldSelection.Config.Basic

/-!
# Requests

A compiled configuration resolves requests: it completes them by the default facet, expands their
aliases and remembers the facet they come to. Whoever wants the fields one by one hands a visitor
to `iterate` or `tryIterate`. Nothing is answered while the configuration is not compiled.
-/

namespace FieldSelection.Config

/-- The facet compiled for the union of all aliases. -/
def aggregate? (config : Config) : Option Facet :=
  config.facets.lookup Name.all.text

/-- Computes the facet of a request that has been completed, without looking at what is
remembered. -/
def evaluate (config : Config) (request : Expr) : Expansion Facet := do
  let expanded ← (config.context config.aggregate?).expand request
  return .ofFields config.isAssociation expanded.normalize

/-- The facet of a request. The request is completed first. Its facet is then looked up among those
compiled and those remembered; if it is in neither, it is computed and remembered. -/
def resolve (config : Config) (expr : Expr) : Step Facet :=
  if !config.compiled then ⟨.error .notCompiled, config, []⟩
  else
    let request := expr.withDefault config.defaults
    let key := request.cacheKey
    match (config.facets.lookup key).or (config.requests.lookup key) with
    | some facet => ⟨.ok facet, config, []⟩
    | none =>
        let run := config.evaluate request
        match run.outcome with
        | .error error => ⟨.error (.expansion error), config, run.events⟩
        | .ok facet =>
            ⟨.ok facet, { config with requests := Entries.put key facet config.requests },
              run.events ++ [.cached key facet.fields.size]⟩

/-- Hands every field of a request at top level to `visit`, together with the tree beneath it and
the state that the visits before have reached. -/
def iterate {σ : Type} (config : Config) (expr : Expr) (visit : σ → Name → Tree → σ) (start : σ) :
    Step σ :=
  let resolved := config.resolve expr
  { resolved with
    answer := resolved.answer.map fun facet =>
      facet.fields.toList.foldl (fun state (name, nested) => visit state name nested) start }

/-- Visits fields in order until a visit fails. The result is the state that the successful visits
have reached, and the failure if there was one. -/
def visitWhile {σ ε : Type} (visit : σ → Name → Tree → Except ε σ) (state : σ) :
    List (Name × Tree) → σ × Option ε
  | [] => (state, none)
  | (name, nested) :: rest =>
      match visit state name nested with
      | .error error => (state, some error)
      | .ok next => visitWhile visit next rest

/-- Hands the fields of a request at top level to `visit`, as `iterate` does, until a visit
fails. -/
def tryIterate {σ ε : Type} (config : Config) (expr : Expr) (visit : σ → Name → Tree → Except ε σ)
    (start : σ) : Step (σ × Option ε) :=
  let resolved := config.resolve expr
  { resolved with
    answer := resolved.answer.map fun facet => visitWhile visit start facet.fields.toList }

/-- The facet compiled for an alias or for `all`. -/
def facet? (config : Config) (name : Name) : Except ConfigError (Option Facet) :=
  if config.compiled then .ok (config.facets.lookup name.text) else .error .notCompiled

/-- The facet of the union of all aliases. -/
def aggregate (config : Config) : Except ConfigError Facet :=
  match config.facet? .all with
  | .ok (some facet) => .ok facet
  | .ok none => .error .notCompiled
  | .error error => .error error

/-- Every field that some alias selects. -/
def allFields (config : Config) : Except ConfigError Tree :=
  config.aggregate.map Facet.fields

/-- Every field that some alias selects and that is not an association. -/
def allAttributes (config : Config) : Except ConfigError Tree :=
  config.aggregate.map Facet.attributes

/-- The names of the fields that some alias selects. -/
def exposedFields (config : Config) : Except ConfigError (List Name) :=
  config.allFields.map Tree.names

/-- Forgets the facets of requests. Those of aliases are kept. -/
def clearCache (config : Config) : Step Unit :=
  ⟨.ok (), { config with requests := [] }, [.clearing config.cachedCount]⟩

end FieldSelection.Config
