import FieldSelection.Defaults
import FieldSelection.Expansion

/-!
# Facet configurations

A configuration holds the aliases of one resource and the facets compiled from them. Registering an
alias makes what was compiled stale, and stale facets answer no request until the aliases are
compiled again. Operations that may fail or report events are steps: a step consists of the answer,
the configuration it leaves behind and the events reported on the way.
-/

namespace FieldSelection

/-- Why an operation on a configuration fails. -/
inductive ConfigError where
  /-- The definition of an alias cannot be read. -/
  | invalidFacet (error : Expr.ReadError)
  /-- The aliases have not been compiled since the last registration. -/
  | notCompiled
  /-- An alias or a request cannot be expanded. -/
  | expansion (error : ExpansionError)
  /-- A reserved name was to become an alias. -/
  | reserved (name : Name)
deriving DecidableEq

/-- The wording of an error, if it has one. -/
def ConfigError.message? : ConfigError → Option String
  | invalidFacet error => error.message?
  | notCompiled => some "facet configuration not compiled"
  | expansion error => some error.message
  | reserved name => some ("expose facet (:" ++ name.text ++ ") reserved")

/-- The alias table that a text describes. -/
def AliasTable.load (text : String) : Except ConfigError AliasTable :=
  (AliasTable.parse text).mapError .invalidFacet

/-- The aliases of a resource and what is compiled from them. -/
structure Config where
  aliases : AliasTable := {}
  defaults : Defaults := Defaults.standard
  /-- How deep an expression may be when it is expanded. -/
  limit : Nat := Expansion.Context.standardLimit
  /-- Whether the compiled facets reflect every registered alias. -/
  compiled : Bool := false
  /-- The compiled facets: first that of `all`, then one for each alias. -/
  facets : List (String × Facet) := []
  /-- The facets of requests that are not aliases, as far as they are remembered. -/
  requests : List (String × Facet) := []
  /-- Which names are associations, according to the last successful compilation. -/
  isAssociation : Name → Bool := fun _ => false

/-- One operation on a configuration: its answer, the configuration it leaves and the events it
reported, in order. -/
structure Step (α : Type) where
  answer : Except ConfigError α
  config : Config
  events : List Event := []

namespace Config

/-- The number of requests remembered. -/
def cachedCount (config : Config) : Nat :=
  config.requests.length

/-- Registers an alias, which makes the compiled facets stale. Reserved names are refused. -/
def register (config : Config) (name : Name) (definition : Expr) : Except ConfigError Config :=
  if name.isReserved then .error (.reserved name)
  else .ok { config with compiled := false, aliases := config.aliases.insert name definition }

/-- Registers an alias whose definition is given as text. -/
def registerText (config : Config) (name : Name) (text : String) : Except ConfigError Config :=
  match Expr.parse text with
  | .error error => .error (.invalidFacet error)
  | .ok definition => config.register name definition

/-- Declares a name as a plain field, by making it an alias of itself. -/
def expose (config : Config) (name : Name) : Except ConfigError Config :=
  config.register name (.name name)

/-- Registers every alias of another configuration, which makes the compiled facets stale. -/
def inherit (config parent : Config) : Config :=
  { config with compiled := false, aliases := config.aliases.extend parent.aliases }

/-- The configuration with the given settings in which the given aliases are registered in order.
The first reserved name among them is an error. -/
def build (aliases : AliasTable) (limit : Nat) (defaults : Defaults) : Except ConfigError Config :=
  aliases.entries.foldlM (fun config (name, definition) => config.register name definition)
    { limit := limit, defaults := defaults }

/-- What expansion depends on, given the union of all aliases. -/
def context (config : Config) (aggregate : Option Facet) : Expansion.Context where
  aliases := config.aliases
  aggregate := aggregate
  limit := config.limit

end Config

end FieldSelection
