import FieldSelection.Proofs.AliasTable
import FieldSelection.Proofs.Expansion.Computation

/-!
# Expansions side by side

Two contexts that share the limit and the definitions of the names in question go through the same
steps. `Context.Alongside` says so for the expressions that some condition is carried along to, and
`Alongside.expandWithin` that the expansions of such an expression are then related by every
relation that is kept by the ways in which computations are put together (`Compatible`). With a
single context on both sides, it shows what all expansions have in common.
-/

namespace FieldSelection

/-- Whether what holds of an expression, with the room and the stack for its expansion, also holds
of the expressions with which the expansion goes on. -/
structure AliasTable.Carries (aliases : AliasTable) (r : Nat → List Name → Expr → Prop) :
    Prop where
  name {room : Nat} {stack : List Name} {name : Name} {definition : Expr} :
    r (room + 1) stack (.name name) → aliases.target? name = some definition → name ∉ stack →
      r room (stack ++ [name]) definition
  list {room : Nat} {stack : List Name} {items : List Expr} {item : Expr} :
    r (room + 1) stack (.list items) → item ∈ items → r room stack item
  selection {room : Nat} {stack : List Name} {entries : List (Name × Expr)} {entry : Name × Expr}
    {definition : Expr} :
    r (room + 1) stack (.selection entries) → entry ∈ entries →
      aliases.target? entry.1 = some definition → entry.1 ∉ stack →
      r (room - 1) (stack ++ [entry.1]) definition

theorem AliasTable.carries_true (aliases : AliasTable) : aliases.Carries fun _ _ _ => True where
  name _ _ _ := trivial
  list _ _ := trivial
  selection _ _ _ _ := trivial

namespace Expansion

variable {α β : Type} {r : (α : Type) → Expansion α → Expansion α → Prop}

/-- Whether a relation between computations is kept when they are continued alike. -/
structure Compatible (r : (α : Type) → Expansion α → Expansion α → Prop) : Prop where
  value {α : Type} (a : α) : r α (pure a) (pure a)
  report {α : Type} {x y : Expansion α} (event : Event) :
    r α x y → r α (do report event; x) (do report event; y)
  map {α β : Type} {x y : Expansion α} (f : α → β) :
    r α x y → r β (x >>= fun a => pure (f a)) (y >>= fun a => pure (f a))
  cons {α : Type} {x y : Expansion α} {xs ys : Expansion (List α)} :
    r α x y → r (List α) xs ys →
      r (List α) (do return (← x) :: (← xs)) (do return (← y) :: (← ys))

theorem Compatible.each (hr : Compatible r) {f g : α → Expansion β} {as : List α}
    (h : ∀ a ∈ as, r β (f a) (g a)) : r (List β) (each f as) (each g as) := by
  induction as with
  | nil => exact hr.value []
  | cons a rest ih =>
      obtain ⟨hfirst, hrest⟩ := List.forall_mem_cons.mp h
      exact hr.cons hfirst (ih hrest)

namespace Context

open AliasTable

variable {context other : Context} {enter enter' : List Name → Expr → Expansion Expr}
  {depth room : Nat} {stack : List Name} {name : Name} {expr : Expr}

/-- Expansions of a name that stands for the same in both contexts are related as soon as they are
in each of the ways in which it may be expanded. -/
theorem expandName_related {p : Expansion Expr → Expansion Expr → Prop}
    (hsame : other.aliases.target? name = context.aliases.target? name)
    (hview : name.isReserved → p (context.expandView name) (other.expandView name))
    (hfield : p (pure (.name name)) (pure (.name name)))
    (hcycle : ∀ definition, context.aliases.target? name = some definition → name ∈ stack →
      p (do report (.selfReference name); fail (.cycle (stack.dropWhile (· ≠ name) ++ [name])))
        (do report (.selfReference name); fail (.cycle (stack.dropWhile (· ≠ name) ++ [name]))))
    (henter : ∀ definition, context.aliases.target? name = some definition → name ∉ stack →
      p (do report (.expanding name depth); enter (stack ++ [name]) definition)
        (do report (.expanding name depth); enter' (stack ++ [name]) definition)) :
    p (context.expandName enter depth stack name) (other.expandName enter' depth stack name) := by
  by_cases hreserved : name.isReserved
  · rw [expandName_reserved hreserved, expandName_reserved hreserved]
    exact hview hreserved
  · cases htarget : context.aliases.target? name with
    | none =>
        have hnone := (target?_eq_none_iff.mp htarget).resolve_left hreserved
        have hother := (target?_eq_none_iff.mp (hsame.trans htarget)).resolve_left hreserved
        rw [expandName_field hreserved hnone, expandName_field hreserved hother]
        exact hfield
    | some definition =>
        have hreference := (target?_eq_some_iff.mp htarget).2
        have hother := (target?_eq_some_iff.mp (hsame.trans htarget)).2
        by_cases hstack : name ∈ stack
        · rw [expandName_cycle hreserved hreference hstack,
            expandName_cycle hreserved hother hstack]
          exact hcycle definition htarget hstack
        · rw [expandName_alias hreserved hreference hstack,
            expandName_alias hreserved hother hstack]
          exact henter definition htarget hstack

/-- Whether two contexts agree on every name that is mentioned where `c` holds, and whether what
they do with a view and where they fail is related. -/
structure Alongside (r : (α : Type) → Expansion α → Expansion α → Prop)
    (c : Nat → List Name → Expr → Prop) (context other : Context) : Prop where
  limit : other.limit = context.limit
  carries : context.aliases.Carries c
  target {room : Nat} {stack : List Name} {expr : Expr} {name : Name} :
    c (room + 1) stack expr → expr.mentions name →
      other.aliases.target? name = context.aliases.target? name
  view {name : Name} :
    name.isReserved → r Expr (context.expandView name) (other.expandView name)
  refuse {stack : List Name} {expr : Expr} : c 0 stack expr → r Expr context.refuse other.refuse
  cycle {room : Nat} {stack : List Name} {expr definition : Expr} {name : Name} :
    c (room + 1) stack expr → expr.mentions name →
      context.aliases.target? name = some definition → name ∈ stack →
      r Expr (fail (.cycle (stack.dropWhile (· ≠ name) ++ [name])))
        (fail (.cycle (stack.dropWhile (· ≠ name) ++ [name])))

variable {c : Nat → List Name → Expr → Prop}

theorem Alongside.expandName (h : Alongside r c context other) (hr : Compatible r)
    (hc : c (room + 1) stack expr) (hmentions : expr.mentions name)
    (henter : ∀ definition, context.aliases.target? name = some definition → name ∉ stack →
      r Expr (enter (stack ++ [name]) definition) (enter' (stack ++ [name]) definition)) :
    r Expr (context.expandName enter depth stack name)
      (other.expandName enter' depth stack name) :=
  expandName_related (h.target hc hmentions) h.view (hr.value _)
    (fun _ htarget hstack => hr.report _ (h.cycle hc hmentions htarget hstack))
    fun definition htarget hstack => hr.report _ (henter definition htarget hstack)

/-- Where contexts go alongside each other, so do the expansions of every expression. -/
theorem Alongside.expandWithin (h : Alongside r c context other) (hr : Compatible r)
    (hc : c room stack expr) :
    r Expr (context.expandWithin room stack expr) (other.expandWithin room stack expr) := by
  -- Definitions of keys are expanded with two units of room less, hence strong induction.
  induction room using Nat.strongRecOn generalizing stack expr with
  | ind room ih =>
      cases room with
      | zero => cases expr <;> exact h.refuse hc
      | succ room =>
          cases expr with
          | empty => exact hr.value Expr.empty
          | name name =>
              rw [expandWithin, expandWithin, h.limit]
              refine h.expandName hr hc (beq_self_eq_true name) fun definition htarget hstack => ?_
              exact ih room (Nat.lt_succ_self room) (h.carries.name hc htarget hstack)
          | list items =>
              refine hr.map _ (hr.each fun item hmem => ?_)
              exact ih room (Nat.lt_succ_self room) (h.carries.list hc hmem)
          | selection entries =>
              rw [expandWithin_selection, expandWithin_selection, h.limit]
              refine hr.map _ (hr.each fun entry hmem => hr.map _ ?_)
              have hmentions := Expr.mentions_selection.mpr (List.mem_map_of_mem hmem)
              refine h.expandName hr hc hmentions fun definition htarget hstack => ?_
              exact ih (room - 1) (by omega) (h.carries.selection hc hmem htarget hstack)

end Context

end Expansion

end FieldSelection
