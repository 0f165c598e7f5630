/-!
# Names

A name identifies a field of a resource, or an alias declared for it. Names are compared code
point by code point, so letter case and Unicode normal form matter. Two names are reserved: they
denote views of everything a resource exposes and never stand for an alias.
-/

namespace FieldSelection

/-- A field or alias identifier. Any text is a name, the empty text included. -/
structure Name where
  text : String
deriving DecidableEq, Inhabited

namespace Name

/-- The reserved name of the union of every alias's fields. -/
def all : Name := ⟨"all"⟩

/-- The reserved name of that union without its associations. -/
def allAttributes : Name := ⟨"all_attributes"⟩

/-- The usual name of the alias that is part of every request. -/
def basic : Name := ⟨"basic"⟩

/-- The usual name whose mention keeps `basic` out of a request. -/
def minimal : Name := ⟨"minimal"⟩

/-- Whether a name denotes a view, so that no alias may carry it. -/
def isReserved (name : Name) : Bool :=
  name == all || name == allAttributes

instance : LE Name where
  le a b := a.text ≤ b.text

instance (a b : Name) : Decidable (a ≤ b) :=
  inferInstanceAs (Decidable (a.text ≤ b.text))

/-- The names in ascending order. -/
def sort (names : List Name) : List Name :=
  names.mergeSort (fun a b => decide (a ≤ b))

/-- How a name is shown to a developer: its text after a colon. -/
def inspect (name : Name) : String :=
  ":" ++ name.text

theorem text_injective {a b : Name} (h : a.text = b.text) : a = b := by
  cases a
  cases b
  cases h
  rfl

theorem isReserved_iff {name : Name} : name.isReserved ↔ name = all ∨ name = allAttributes := by
  simp [isReserved]

end Name

end FieldSelection
