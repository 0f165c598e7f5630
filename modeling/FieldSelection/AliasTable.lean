import FieldSelection.Expr.Json

/-!
# Alias tables

An alias gives an expression a name. A table keeps aliases in the order of their first registration,
and a later definition of the same name replaces the earlier one in its place. An alias that is
defined as its own name declares a plain field: it stands in the table, but there is nothing to
expand.
-/

namespace FieldSelection

/-- Aliases with their definitions, in registration order. -/
structure AliasTable where
  entries : List (Name × Expr) := []
  distinct : (Entries.keys entries).Nodup := by exact List.nodup_nil

namespace AliasTable

instance : Inhabited AliasTable := ⟨{}⟩

/-- The table with the given definitions; of two for one name, the later. -/
def ofList (pairs : List (Name × Expr)) : AliasTable where
  entries := Entries.ofList pairs
  distinct := Entries.nodup_ofList pairs

/-- Defines an alias, replacing its earlier definition if there is one. -/
def insert (table : AliasTable) (name : Name) (definition : Expr) : AliasTable where
  entries := Entries.put name definition table.entries
  distinct := Entries.nodup_insertWith table.distinct

/-- Defines every alias of `other`. -/
def extend (table other : AliasTable) : AliasTable where
  entries := Entries.extend table.entries other.entries
  distinct := Entries.nodup_extend other.entries table.distinct

/-- The number of aliases. -/
def size (table : AliasTable) : Nat :=
  table.entries.length

/-- The names of the aliases. -/
def names (table : AliasTable) : List Name :=
  Entries.keys table.entries

/-- The definition of an alias. -/
def get? (table : AliasTable) (name : Name) : Option Expr :=
  table.entries.lookup name

/-- Whether a name is defined as an alias. -/
def contains (table : AliasTable) (name : Name) : Bool :=
  Entries.contains name table.entries

/-- The definition to put in the place of a name. There is none for a name that is not an alias,
nor for an alias that is defined as its own name. -/
def reference? (table : AliasTable) (name : Name) : Option Expr :=
  (table.get? name).filter fun definition => definition.asName? != some name

/-- Whether a name is to be expanded. -/
def isReference (table : AliasTable) (name : Name) : Bool :=
  (table.reference? name).isSome

/-- Equality up to the order of the aliases. -/
def same (a b : AliasTable) : Bool :=
  a.size == b.size && Expr.sameEntries a.entries b.entries

/-- Defines the aliases that the entries of an object describe, one after the other, up to the first
definition that has no meaning. -/
def define (table : AliasTable) (entries : List (String × Json String)) :
    Except Expr.ReadError AliasTable :=
  entries.foldlM (fun table (key, value) => return table.insert ⟨key⟩ (← Expr.ofJson value)) table

/-- The table that a text describes: an object whose entries are the definitions. -/
def parse (text : String) : Except Expr.ReadError AliasTable :=
  match Json.ofText? text with
  | none => .error .malformed
  | some json =>
      match json.dedup with
      | .object entries => define {} entries
      | other => .error (.invalidShape other.kind)

end AliasTable

end FieldSelection
