import FieldSelection.Name

/-!
# Events

Expansion and compilation report what they do as events. Each has a level, and its text consists of
the level, a message and the values that belong to it.
-/

namespace FieldSelection

/-- How much attention an event deserves. -/
inductive Level where
  | warn
  | debug
  | trace
deriving DecidableEq

/-- The word for a level. -/
def Level.word : Level → String
  | .warn => "WARN"
  | .debug => "DEBUG"
  | .trace => "TRACE"

/-- Something that happened while facets were compiled or expanded. -/
inductive Event where
  /-- Compilation starts on a number of aliases. -/
  | compiling (aliases : Nat)
  /-- Compilation succeeded, with a number of facets and of fields in their union. -/
  | compiled (facets fields : Nat)
  /-- An alias that reads the union was expanded again. -/
  | recompiled (name : Name)
  /-- The facet of a request, with a number of fields, is remembered under a key. -/
  | cached (key : String) (fields : Nat)
  /-- The facets of a number of requests are forgotten. -/
  | clearing (facets : Nat)
  /-- The definition of an alias is expanded in the place of its name. -/
  | expanding (name : Name) (depth : Nat)
  /-- An alias was met within its own expansion. -/
  | selfReference (name : Name)
  /-- Expansion went deeper than the limit. -/
  | tooDeep (limit : Nat)
deriving DecidableEq

namespace Event

/-- The level of an event. -/
def level : Event → Level
  | compiling _ => .debug
  | compiled .. => .debug
  | recompiled _ => .trace
  | cached .. => .trace
  | clearing _ => .debug
  | expanding .. => .trace
  | selfReference _ => .warn
  | tooDeep _ => .warn

/-- What an event says. -/
def message : Event → String
  | compiling _ => "compiling facet configuration"
  | compiled .. => "compiled facet configuration"
  | recompiled _ => "recompiled facet against aggregate"
  | cached .. => "cached facet"
  | clearing _ => "clearing facet cache"
  | expanding .. => "expanding facet alias"
  | selfReference _ => "self referencing facet declaration"
  | tooDeep _ => "facet expansion exceeded recursion limit"

/-- The values that belong to an event, each with its label. -/
def values : Event → List (String × String)
  | compiling aliases => [("aliases", toString aliases)]
  | compiled facets fields => [("entries", toString facets), ("fields", toString fields)]
  | recompiled name => [("alias", name.text)]
  | cached key fields => [("facet", key), ("fields", toString fields)]
  | clearing facets => [("entries", toString facets)]
  | expanding name depth => [("alias", name.text), ("depth", toString depth)]
  | selfReference name => [("alias", name.text)]
  | tooDeep limit => [("limit", toString limit)]

/-- The text of an event. -/
def render (event : Event) : String :=
  " ".intercalate (event.level.word :: event.message ::
    event.values.map fun (label, value) => label ++ "=" ++ value)

end Event

end FieldSelection
