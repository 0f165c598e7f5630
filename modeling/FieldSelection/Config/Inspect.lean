import FieldSelection.Config.Basic

/-!
# Inspecting a configuration

The text by which a configuration is shown to a developer: its settings and aliases in full, of the
compiled facets the keys, and of the remembered requests their number.
-/

namespace FieldSelection

namespace Inspect

/-- Items between an opening and a closing text, with commas between them. -/
def enclose (opening : String) (items : List String) (closing : String) : String :=
  opening ++ ", ".intercalate items ++ closing

/-- A label and a value. -/
def labelled (label value : String) : String :=
  label ++ ": " ++ value

/-- The form of an ASCII character in a quoted text. Any other character stands for itself. -/
def quoteChar (c : Char) : List Char :=
  match c with
  | '"' => ['\\', '"']
  | '\\' => ['\\', '\\']
  | '\n' => ['\\', 'n']
  | '\r' => ['\\', 'r']
  | '\t' => ['\\', 't']
  | '\x00' => ['\\', '0']
  | c =>
      if c.toNat < 0x20 ∨ c.toNat = 0x7F then
        ['\\', 'u', '{'] ++ Nat.toDigits 16 c.toNat ++ ['}']
      else [c]

/-- A text between quotation marks. -/
def quote (text : String) : String :=
  String.ofList ('"' :: (text.toList.flatMap quoteChar ++ ['"']))

end Inspect

open Inspect

namespace Expr

mutual
/-- How an expression is shown to a developer. -/
def inspect : Expr → String
  | .empty => "Empty"
  | .name n => "Name(" ++ n.inspect ++ ")"
  | .list items => enclose "List([" (inspectItems items) "])"
  | .selection entries => enclose "Selection(\x7b" (inspectEntries entries) "\x7d)"

/-- The items of a list, as they are shown to a developer. -/
def inspectItems : List Expr → List String
  | [] => []
  | item :: rest => inspect item :: inspectItems rest

/-- The entries of a selection, as they are shown to a developer. -/
def inspectEntries : List (Name × Expr) → List String
  | [] => []
  | (key, value) :: rest => labelled key.inspect (inspect value) :: inspectEntries rest
end

end Expr

/-- How an alias table is shown to a developer. -/
def AliasTable.inspect (table : AliasTable) : String :=
  enclose "AliasTable \x7b "
    [labelled "table" (enclose "\x7b" (Expr.inspectEntries table.entries) "\x7d")] " \x7d"

/-- How default names are shown to a developer. -/
def Defaults.inspect (defaults : Defaults) : String :=
  enclose "DefaultFacets \x7b "
    [labelled "default" defaults.default.inspect, labelled "minimal" defaults.minimal.inspect]
    " \x7d"

/-- How a configuration is shown to a developer. -/
def Config.inspect (config : Config) : String :=
  enclose "FacetConfig \x7b "
    [labelled "aliases" config.aliases.inspect,
      labelled "defaults" config.defaults.inspect,
      labelled "recursion_limit" (toString config.limit),
      labelled "compiled" (toString config.compiled),
      labelled "normalized" (enclose "[" ((Entries.keys config.facets).map quote) "]"),
      labelled "adhoc" (toString config.cachedCount)]
    ", .. \x7d"

end FieldSelection
