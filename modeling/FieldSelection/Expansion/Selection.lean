import FieldSelection.Normalization

/-!
# Expanded selections

When the keys of a selection are expanded, each key comes to an expression of its own. `assemble`
makes one expression of them. A key with a value hands the value to every field that its expansion
selects; a key without one is replaced by its expansion, which stands beside the selection unless it
is the name of a field.
-/

namespace FieldSelection.Expr

/-- Two values for one field of a selection, joined into one. -/
def join (a b : Expr) : Expr :=
  if a.isEmpty then b else if b.isEmpty then a else .list [a, b]

/-- The entries that a key contributes to a selection once it is expanded, given its value. A value
goes to every field of the expansion, together with what the expansion selects beneath that field;
without a value, only an expansion that is a name contributes. -/
def contribution (expanded value : Expr) : List (Name × Expr) :=
  if value.isEmpty then
    match expanded with
    | .name field => [(field, .empty)]
    | _ => []
  else
    expanded.normalize.toList.map fun (field, beneath) =>
      (field, if beneath.isEmpty then value else .list [beneath.toExpr, value])

/-- The expansion of a key that stands beside the selection as a whole: one without a value that is
more than a name. -/
def remainder? (expanded value : Expr) : Option Expr :=
  if value.isEmpty then
    match expanded with
    | .name _ => none
    | .empty => none
    | other => some other
  else none

/-- The expansion of a selection, given the expansion of each key and its value. -/
def assemble (entries : List (Expr × Expr)) : Expr :=
  let fields := (entries.flatMap fun (expanded, value) => contribution expanded value).foldl
    (fun fields (field, value) => Entries.insertWith join field value fields) []
  match entries.filterMap fun (expanded, value) => remainder? expanded value with
  | [] => .selection fields
  | remainders => .list (if fields.isEmpty then remainders else .selection fields :: remainders)

end FieldSelection.Expr
