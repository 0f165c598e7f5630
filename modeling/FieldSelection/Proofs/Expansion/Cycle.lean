import FieldSelection.Proofs.Expansion.Limit
import Mathlib.Data.List.Chain

/-!
# The cycles that expansions report

The stack of an expansion is a trail through the aliases: the expression mentions the first name on
it, and each name leads to the next (`AliasTable.Trail`). So an alias that is met while it is on the
stack closes a loop, whose members are the names on the stack from that alias on
(`IsStack.isLoop`). `expand_cycle_isLoop` says that the chain which an expansion reports is such a
loop, reached from a name that the expression mentions. Where the limit is out of the way, a chain
is reported exactly if there is a loop to be reached (`exists_cycle_iff`).
-/

namespace FieldSelection

namespace AliasTable

variable {aliases : AliasTable} {expr inner definition : Expr} {names stack : List Name}
  {name next : Name}

/-- Whether an expansion may come by some names, one after the other: the expression mentions the
first, and each leads to the next. -/
structure Trail (aliases : AliasTable) (expr : Expr) (names : List Name) : Prop where
  start : ∀ first ∈ names.head?, expr.mentions first
  steps : names.IsChain aliases.Leads

/-- Whether a chain goes around once: it ends where it starts and visits no alias twice on the way,
and the definition of each alias mentions the next. -/
structure IsLoop (aliases : AliasTable) (chain : List Name) : Prop where
  length : 2 ≤ chain.length
  closed : chain.head? = chain.getLast?
  nodup : chain.dropLast.Nodup
  expanded : ∀ name ∈ chain, ∃ definition, aliases.target? name = some definition
  steps : chain.IsChain aliases.Leads

/-- A trail goes on with a name to which its last one leads. -/
theorem Trail.push (h : aliases.Trail expr (stack ++ [name])) (hleads : aliases.Leads name next) :
    aliases.Trail expr (stack ++ [name] ++ [next]) where
  start := by
    rw [List.head?_append_of_ne_nil _ (List.append_ne_nil_of_right_ne_nil _ (List.cons_ne_nil _ _))]
    exact h.start
  steps := by
    refine h.steps.append (.singleton next) fun last hlast first hfirst => ?_
    rw [List.getLast?_concat] at hlast
    obtain rfl := Option.some.inj hlast
    obtain rfl := Option.some.inj hfirst
    exact hleads

/-- Every name on a trail is reached from one that the expression mentions. -/
theorem Trail.exists_reflTransGen (h : aliases.Trail expr names) (hmem : name ∈ names) :
    ∃ first, expr.mentions first ∧ Relation.ReflTransGen aliases.Leads first name := by
  cases names with
  | nil => cases hmem
  | cons first rest =>
      refine ⟨first, h.start first rfl, ?_⟩
      exact h.steps.induction (Relation.ReflTransGen aliases.Leads first ·) _
        (fun _ _ hleads hreach => hreach.tail hleads) (fun _ => .refl) name hmem

/-- A name that occurs in a list is where the list goes on after all that differ from it. -/
theorem exists_dropWhile_ne (hmem : name ∈ names) :
    ∃ before after, names = before ++ name :: after ∧
      names.dropWhile (· ≠ name) = name :: after := by
  obtain ⟨before, after, rfl, hbefore⟩ := List.eq_append_cons_of_mem hmem
  refine ⟨before, after, rfl, ?_⟩
  rw [List.dropWhile_append_of_pos, List.dropWhile_cons_of_neg (by simp)]
  intro other hother
  exact decide_eq_true fun heq => hbefore (heq ▸ hother)

/-- An alias that is met while it is on the stack closes a loop. -/
theorem IsStack.isLoop (hstack : aliases.IsStack stack)
    (hsteps : (stack ++ [name]).IsChain aliases.Leads) (hmem : name ∈ stack) :
    aliases.IsLoop (stack.dropWhile (· ≠ name) ++ [name]) := by
  obtain ⟨before, after, rfl, hafter⟩ := exists_dropWhile_ne hmem
  rw [List.append_assoc] at hsteps
  rw [hafter]
  constructor
  case length => simp
  case closed => rw [List.getLast?_concat, List.cons_append, List.head?_cons]
  case nodup =>
    rw [List.dropLast_concat]
    exact (List.nodup_append.mp hstack.nodup).2.1
  case expanded =>
    intro other hother
    refine hstack.expanded other (List.mem_append_right _ ?_)
    rw [List.mem_append, List.mem_singleton] at hother
    exact hother.elim id fun heq => heq ▸ List.mem_cons_self
  case steps => exact hsteps.right_of_append

/-- Whether the expansion of `expr` may come upon `inner` with some names on the stack: each alias
that `inner` mentions continues the trail. -/
structure OnTrail (aliases : AliasTable) (expr : Expr) (stack : List Name) (inner : Expr) :
    Prop where
  isStack : aliases.IsStack stack
  trail : ∀ name definition, inner.mentions name → aliases.target? name = some definition →
    aliases.Trail expr (stack ++ [name])

theorem onTrail_nil (expr : Expr) : aliases.OnTrail expr [] expr where
  isStack := isStack_nil
  trail := by
    intro name definition hmentions _
    refine ⟨fun first hfirst => ?_, .singleton name⟩
    obtain rfl := Option.some.inj hfirst
    exact hmentions

/-- Putting an alias on the stack before its definition is expanded continues the trail. -/
theorem OnTrail.enter (h : aliases.OnTrail expr stack inner) (hmentions : inner.mentions name)
    (htarget : aliases.target? name = some definition) (hstack : name ∉ stack) :
    aliases.OnTrail expr (stack ++ [name]) definition where
  isStack := h.isStack.push htarget hstack
  trail := by
    intro next nextDefinition hnext hnextTarget
    exact (h.trail name definition hmentions htarget).push
      ⟨⟨definition, htarget, hnext⟩, nextDefinition, hnextTarget⟩

theorem carries_onTrail (expr : Expr) :
    aliases.Carries fun _ stack inner => aliases.OnTrail expr stack inner where
  name h htarget hstack := h.enter (beq_self_eq_true _) htarget hstack
  list h hmem := ⟨h.isStack, fun name definition hmentions =>
    h.trail name definition (Expr.mentions_list.mpr ⟨_, hmem, hmentions⟩)⟩
  selection h hmem htarget hstack :=
    h.enter (Expr.mentions_selection.mpr (List.mem_map_of_mem hmem)) htarget hstack

end AliasTable

namespace Expansion.Context

open AliasTable

variable {context : Context} {expr : Expr} {chain : List Name}

/-- The chain that an expansion reports is a loop. Its first alias is reached from a name that the
expression mentions, and the aliases on the way there are not part of the chain. -/
theorem expand_cycle_isLoop (h : (context.expand expr).outcome = .error (.cycle chain)) :
    context.aliases.IsLoop chain ∧
      ∃ first looping, expr.mentions first ∧
        Relation.ReflTransGen context.aliases.Leads first looping ∧
        chain.head? = some looping := by
  have hfails : (context.expand expr).FailsOnly fun error => ∀ chain, error = .cycle chain →
      context.aliases.IsLoop chain ∧ ∃ first looping, expr.mentions first ∧
        Relation.ReflTransGen context.aliases.Leads first looping ∧
        chain.head? = some looping := by
    refine expandWithin_failsOnly (carries_onTrail expr) (fun _ _ _ => nofun) ?_ (onTrail_nil expr)
    intro room stack inner name definition honTrail hmentions htarget hmem chain heq
    obtain rfl := ExpansionError.cycle.inj heq
    have htrail := honTrail.trail name definition hmentions htarget
    obtain ⟨first, hfirst, hreach⟩ :=
      htrail.exists_reflTransGen (List.mem_append_right stack List.mem_cons_self)
    obtain ⟨_, _, -, hafter⟩ := exists_dropWhile_ne hmem
    refine ⟨honTrail.isStack.isLoop htrail.steps hmem, first, name, hfirst, hreach, ?_⟩
    rw [hafter, List.cons_append, List.head?_cons]
  exact hfails _ h chain rfl

/-- An alias among whose keys there is one that leads to a loop. -/
def detour : AliasTable :=
  .ofList [(⟨"entry"⟩, .list [.name ⟨"id"⟩, .selection [(⟨"owner"⟩, .empty)]]),
    (⟨"owner"⟩, .name ⟨"contact"⟩),
    (⟨"contact"⟩, .selection [(⟨"note"⟩, .name ⟨"text"⟩), (⟨"owner"⟩, .name ⟨"name"⟩)])]

theorem expand_cycle_isLoop_detour :
    (expand ⟨detour, none, standardLimit⟩ (.list [.name ⟨"entry"⟩])).outcome =
        .error (.cycle [⟨"owner"⟩, ⟨"contact"⟩, ⟨"owner"⟩]) ∧
      detour.IsLoop [⟨"owner"⟩, ⟨"contact"⟩, ⟨"owner"⟩] := by
  have houtcome : (expand ⟨detour, none, standardLimit⟩ (.list [.name ⟨"entry"⟩])).outcome =
      .error (.cycle [⟨"owner"⟩, ⟨"contact"⟩, ⟨"owner"⟩]) := rfl
  exact ⟨houtcome, (expand_cycle_isLoop houtcome).1⟩

/-- If the limit leaves room for every alias once, then a chain is reported exactly when an alias
that leads back to itself is reached. -/
theorem exists_cycle_iff
    (hroom : expr.nesting + context.aliases.headroom [] ≤ context.limit) :
    (∃ chain, (context.expand expr).outcome = .error (.cycle chain)) ↔
      context.aliases.ReachesCycle expr := by
  constructor
  · intro hexists
    obtain ⟨chain, hchain⟩ := hexists
    by_contra hnot
    obtain ⟨depth, hdepth⟩ := exists_depth_iff.mpr hnot
    have hsucceeds := succeedsIff_expand hdepth
    by_cases hle : depth ≤ context.limit
    · obtain ⟨expanded, hok⟩ := hsucceeds.succeeds hle
      cases hchain.symm.trans hok
    · cases hchain.symm.trans (hsucceeds.fails hle)
  · intro hreaches
    cases houtcome : (context.expand expr).outcome with
    | ok expanded =>
        obtain ⟨_, _, hdepth⟩ := exists_depth_of_expand houtcome
        exact absurd hreaches hdepth.not_reachesCycle
    | error error =>
        rcases context.expand_failsOnly expr error houtcome with rfl | ⟨chain, rfl⟩
        · exact absurd ⟨_, houtcome⟩ (not_refused_of_le hroom)
        · exact ⟨chain, rfl⟩

end Expansion.Context

end FieldSelection
