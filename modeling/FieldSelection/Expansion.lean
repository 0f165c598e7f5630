import FieldSelection.AliasTable
import FieldSelection.Expansion.Basic
import FieldSelection.Expansion.Selection
import FieldSelection.Facet

/-!
# Expansion of aliases

Expanding an expression puts the definition of every alias it mentions in the place of the alias,
until only names of fields are left at top level. The values of a selection concern other resources
and are not expanded; a key that stands for several fields hands its value to each of them.

The reserved names are views of the union of all aliases. While that union is still being computed
they select nothing, and the expansion reports that it missed them.

An alias met within its own expansion is an error, as is an expression or definition deeper than
the limit. Items of a list and the definition of a name lie one level deeper than what they belong
to, and the definition of a key two levels deeper.
-/

namespace FieldSelection.Expansion

/-- What expansion depends on. -/
structure Context where
  aliases : AliasTable
  /-- The union of all aliases, once it is known. -/
  aggregate : Option Facet
  /-- How deep an expression may be. -/
  limit : Nat

namespace Context

/-- The limit in use unless another is given. -/
def standardLimit : Nat := 256

/-- Expands a reserved name to the fields of its view. -/
def expandView (context : Context) (name : Name) : Expansion Expr :=
  match context.aggregate with
  | none => do
      miss
      return .empty
  | some facet =>
      return (if name = Name.allAttributes then facet.attributes else facet.fields).toExpr

/-- Expands a name at some depth within the expansion of the aliases on the stack, outermost first.
`enter` is the expansion of definitions, which takes the stack they are expanded within. -/
def expandName (context : Context) (enter : List Name → Expr → Expansion Expr) (depth : Nat)
    (stack : List Name) (name : Name) : Expansion Expr :=
  if name.isReserved then context.expandView name
  else match context.aliases.reference? name with
    | none => return .name name
    | some definition =>
        if name ∈ stack then do
          report (.selfReference name)
          fail (.cycle (stack.dropWhile (· ≠ name) ++ [name]))
        else do
          report (.expanding name depth)
          enter (stack ++ [name]) definition

/-- Fails because the limit is exceeded, after a warning. -/
def refuse (context : Context) : Expansion Expr := do
  report (.tooDeep context.limit)
  fail (.tooDeep context.limit)

/-- Expands the keys of a selection at some depth. -/
def expandEntries (context : Context) (enter : List Name → Expr → Expansion Expr) (depth : Nat)
    (stack : List Name) (entries : List (Name × Expr)) : Expansion Expr := do
  let expanded ← each (fun (key, value) => do
    return (← context.expandName enter depth stack key, value)) entries
  return Expr.assemble expanded

/-- Expands an expression that lies at depth `limit + 1 - room` within the expansion of the aliases
on the stack. -/
def expandWithin (context : Context) : (room : Nat) → List Name → Expr → Expansion Expr
  | 0, _, _ => context.refuse
  | _ + 1, _, .empty => return .empty
  | room + 1, stack, .name name =>
      context.expandName (context.expandWithin room) (context.limit - room) stack name
  | room + 1, stack, .list items => do
      return .list (← each (context.expandWithin room stack) items)
  | 1, stack, .selection entries =>
      context.expandEntries (fun _ _ => context.refuse) (context.limit + 1) stack entries
  | room + 2, stack, .selection entries =>
      context.expandEntries (context.expandWithin room) (context.limit - room) stack entries

/-- Expands an expression. -/
def expand (context : Context) (expr : Expr) : Expansion Expr :=
  context.expandWithin (context.limit + 1) [] expr

end Context

/-- Expands several expressions, one after the other, and remembers whether any of them missed the
union. -/
structure Expander where
  context : Context
  missed : Bool := false

/-- Expands the next expression. The result is its outcome, the events reported, and the expander
for the expressions that follow. -/
def Expander.expand (expander : Expander) (expr : Expr) :
    Except ExpansionError Expr × List Event × Expander :=
  let expansion := expander.context.expand expr
  (expansion.outcome, expansion.events,
    { expander with missed := expander.missed || expansion.missed })

end FieldSelection.Expansion
