import FieldSelection.Event

/-!
# Computations that expand aliases

An expansion either comes to a value or fails. On the way it reports events, and it notes whether it
read the union of all aliases while there was none. A failure ends the computation: what follows it
reports nothing.
-/

namespace FieldSelection

/-- Why an expression cannot be expanded. -/
inductive ExpansionError where
  /-- The expansion of an alias leads back to it by way of the given aliases. -/
  | cycle (chain : List Name)
  /-- The expression is deeper than the limit. -/
  | tooDeep (limit : Nat)
deriving DecidableEq

/-- The wording of an expansion error. -/
def ExpansionError.message : ExpansionError → String
  | cycle chain =>
      "self referencing facet declaration: " ++ " -> ".intercalate (chain.map Name.text)
  | tooDeep limit =>
      "self referencing facet declaration: expansion exceeded depth " ++ toString limit

/-- A computation of a value of type `α` that may fail: its outcome, the events it reports in order,
and whether it read the union of all aliases while there was none. -/
structure Expansion (α : Type) where
  outcome : Except ExpansionError α
  events : List Event
  missed : Bool

namespace Expansion

variable {α β : Type}

/-- The computation that comes to a value without reporting anything. -/
protected def pure (a : α) : Expansion α :=
  ⟨.ok a, [], false⟩

/-- One computation after another. The second does not take place if the first fails. -/
protected def bind (x : Expansion α) (f : α → Expansion β) : Expansion β :=
  match x.outcome with
  | .error error => ⟨.error error, x.events, x.missed⟩
  | .ok a =>
      let next := f a
      ⟨next.outcome, x.events ++ next.events, x.missed || next.missed⟩

instance : Monad Expansion where
  pure := Expansion.pure
  bind := Expansion.bind

/-- The computation that fails with the given error. -/
def fail (error : ExpansionError) : Expansion α :=
  ⟨.error error, [], false⟩

/-- The computation that reports an event. -/
def report (event : Event) : Expansion Unit :=
  ⟨.ok (), [event], false⟩

/-- The computation that notes a reading of the union while there is none. -/
def miss : Expansion Unit :=
  ⟨.ok (), [], true⟩

/-- The same computation, with its flag as part of its value. -/
def observe (x : Expansion α) : Expansion (α × Bool) :=
  ⟨x.outcome.map (·, x.missed), x.events, x.missed⟩

/-- Runs a computation for each member of a list, in order, until one fails. -/
def each (f : α → Expansion β) : List α → Expansion (List β)
  | [] => pure []
  | a :: rest => do return (← f a) :: (← each f rest)

end Expansion

end FieldSelection
