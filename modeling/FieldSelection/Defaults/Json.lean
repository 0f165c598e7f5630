import FieldSelection.Defaults
import FieldSelection.Json.Text

/-!
# Default names as JSON

The default names are written as an object with the keys `default` and `minimal`. They are read from
such an object, in which either key may be missing but not repeated and other keys are ignored, or
from an array that lists the two names in this order and may end early. What stands under an ignored
key need only be JSON: its strings need not decode, its numbers may be out of range, and it may nest
to any depth.
-/

namespace FieldSelection.Defaults

open Json (Spelling)

/-- The name that a string value spells. -/
def nameOf? : Json Spelling → Option Name
  | .string spelling => spelling.decode?.map Name.mk
  | _ => none

/-- The names found so far in an object. -/
structure Found where
  default : Option Name
  minimal : Option Name

/-- Takes one entry of the object into account. -/
def Found.entry? (found : Found) (entry : Spelling × Json Spelling) : Option Found := do
  match ← entry.1.decode?, found with
  | "default", ⟨none, minimal⟩ => return ⟨some (← nameOf? entry.2), minimal⟩
  | "default", ⟨some _, _⟩ => none
  | "minimal", ⟨default, none⟩ => return ⟨default, some (← nameOf? entry.2)⟩
  | "minimal", ⟨_, some _⟩ => none
  | _, found => return found

/-- The default names that a document stands for. -/
def ofDocument? : Json Spelling → Option Defaults
  | .object entries => do
      let found ← entries.foldlM Found.entry? ⟨none, none⟩
      return ⟨found.default.getD standard.default, found.minimal.getD standard.minimal⟩
  | .array [] => some standard
  | .array [first] => do return ⟨← nameOf? first, standard.minimal⟩
  | .array [first, second] => do return ⟨← nameOf? first, ← nameOf? second⟩
  | _ => none

/-- The default names that a text stands for. -/
def parse? (text : String) : Option Defaults :=
  (Json.Document.ofText? text).bind ofDocument?

/-- The JSON value of default names. -/
def toJson (defaults : Defaults) : Json String :=
  .object [("default", .string defaults.default.text), ("minimal", .string defaults.minimal.text)]

/-- The text of default names, without white space. -/
def render (defaults : Defaults) : String :=
  defaults.toJson.toText

end FieldSelection.Defaults
