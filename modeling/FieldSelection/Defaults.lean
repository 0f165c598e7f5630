import FieldSelection.Expr.Basic

/-!
# The default facet

Every request includes a default facet unless it mentions, at top level, the name that asks for the
minimum. `Expr.withDefault` completes a request accordingly. It concerns what a caller asks for and
never the definition of an alias.
-/

namespace FieldSelection

/-- The names that govern the completion of requests. -/
structure Defaults where
  /-- The facet that is part of every request. -/
  default : Name
  /-- The name whose mention keeps the default facet out. -/
  minimal : Name
deriving DecidableEq

namespace Defaults

/-- The names in use unless others are given. -/
def standard : Defaults where
  default := Name.basic
  minimal := Name.minimal

instance : Inhabited Defaults := ⟨standard⟩

end Defaults

namespace Expr

/-- An expression that selects a name at top level in addition to what it selects already. A list
has the name added unless one of its items is that name, whatever lies deeper inside them. -/
def including (name : Name) : Expr → Expr
  | .empty => .name name
  | .name n => if n = name then .list [.name n] else .list [.name n, .name name]
  | .list items =>
      if items.any (fun item => item.asName? == some name) then .list items
      else .list (items ++ [.name name])
  | .selection entries =>
      if Entries.contains name entries then .selection entries
      else .selection (entries ++ [(name, .empty)])

/-- A request completed by the default facet, unless it mentions the minimal one. -/
def withDefault (defaults : Defaults) (expr : Expr) : Expr :=
  if expr.mentions defaults.minimal then expr else expr.including defaults.default

end Expr

end FieldSelection
