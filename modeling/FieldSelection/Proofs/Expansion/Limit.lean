import FieldSelection.Proofs.Expansion.Failure
import FieldSelection.Proofs.Expansion.InPlace
import FieldSelection.Proofs.Expr.RoundTrip

/-!
# The limit of expansions

An expansion that the limit does not refuse is the same under every higher limit
(`expand_relaxed`). A limit that leaves room for every alias once is never exceeded
(`not_refused_of_le`), since an alias is not entered while it is on the stack. So the limit is
not needed for expansions to end (`expand_limit`).
-/

namespace FieldSelection

namespace Expansion

variable {α β : Type} {x y : Expansion α}

/-- Whether a computation fails because the limit is exceeded. -/
def Refused (x : Expansion α) : Prop :=
  ∃ limit, x.outcome = .error (.tooDeep limit)

/-- Whether `y` is `x`, unless `x` is refused. -/
def KeptBy (x y : Expansion α) : Prop :=
  ¬ x.Refused → y = x

theorem Refused.bind (h : x.Refused) (f : α → Expansion β) : (x >>= f).Refused := by
  obtain ⟨limit, hlimit⟩ := h
  exact ⟨limit, by rw [bind_of_error hlimit]⟩

theorem refused_bind_of_ok {f : α → Expansion β} {a : α} (h : x.outcome = .ok a)
    (hnext : (f a).Refused) : (x >>= f).Refused := by
  obtain ⟨limit, hlimit⟩ := hnext
  exact ⟨limit, by rw [bind_of_ok h, hlimit]⟩

theorem KeptBy.refl (x : Expansion α) : x.KeptBy x := fun _ => rfl

theorem keptBy_of_refused (h : x.Refused) : x.KeptBy y := fun hnot => absurd h hnot

theorem KeptBy.bind {f g : α → Expansion β} (hfirst : x.KeptBy y)
    (hnext : ∀ a, (f a).KeptBy (g a)) : (x >>= f).KeptBy (y >>= g) := by
  intro hnot
  rw [hfirst fun hrefused => hnot (hrefused.bind f)]
  cases houtcome : x.outcome with
  | error error => rw [bind_of_error houtcome, bind_of_error houtcome]
  | ok a =>
      have hkept := hnext a fun hrefused => hnot (refused_bind_of_ok houtcome hrefused)
      rw [bind_of_ok houtcome, bind_of_ok houtcome, hkept]

theorem KeptBy.map (h : x.KeptBy y) (f : α → β) :
    (x >>= fun a => pure (f a)).KeptBy (y >>= fun a => pure (f a)) :=
  h.bind fun _ => .refl _

theorem KeptBy.each {f g : α → Expansion β} (h : ∀ a, (f a).KeptBy (g a)) (as : List α) :
    (each f as).KeptBy (each g as) := by
  induction as with
  | nil => exact .refl _
  | cons a rest ih => exact (h a).bind fun b => ih.map (b :: ·)

namespace Context

open AliasTable

variable {context : Context} {enter enter' : List Name → Expr → Expansion Expr} {depth : Nat}
  {stack : List Name}

/-- The same context with a higher limit. -/
def relaxed (context : Context) (extra : Nat) : Context :=
  { context with limit := context.limit + extra }

theorem refused_expandWithin_zero (stack : List Name) (expr : Expr) :
    (context.expandWithin 0 stack expr).Refused :=
  ⟨context.limit, by cases expr <;> rfl⟩

theorem expandName_relaxed (extra : Nat)
    (henter : ∀ stack definition, (enter stack definition).KeptBy (enter' stack definition))
    (name : Name) :
    (context.expandName enter depth stack name).KeptBy
      ((context.relaxed extra).expandName enter' depth stack name) :=
  expandName_related rfl (fun _ => .refl _) (.refl _) (fun _ _ _ => .refl _) fun definition _ _ =>
    (KeptBy.refl _).bind fun _ => henter _ definition

theorem expandEntries_relaxed (extra : Nat)
    (henter : ∀ stack definition, (enter stack definition).KeptBy (enter' stack definition))
    (entries : List (Name × Expr)) :
    (context.expandEntries enter depth stack entries).KeptBy
      ((context.relaxed extra).expandEntries enter' depth stack entries) := by
  refine (KeptBy.each (fun entry => ?_) entries).map _
  exact (expandName_relaxed extra henter entry.1).map _

/-- Where room is left under the limit there is as much more under the higher one, so that every
level stays as deep as it was. -/
theorem expandWithin_relaxed (extra room : Nat) (stack : List Name) (expr : Expr) :
    (context.expandWithin room stack expr).KeptBy
      ((context.relaxed extra).expandWithin (room + extra) stack expr) := by
  induction room using Nat.strongRecOn generalizing stack expr with
  | ind room ih =>
      cases room with
      | zero => exact keptBy_of_refused (refused_expandWithin_zero stack expr)
      | succ room =>
          have hless := ih room (Nat.lt_succ_self room)
          rw [Nat.add_right_comm]
          cases expr with
          | empty => exact .refl _
          | name name =>
              have hdepth : (context.relaxed extra).limit - (room + extra) = context.limit - room :=
                Nat.add_sub_add_right context.limit extra room
              rw [expandWithin, expandWithin, hdepth]
              exact expandName_relaxed extra hless name
          | list items => exact (KeptBy.each (hless stack) items).map _
          | selection entries =>
              have hdepth : (context.relaxed extra).limit + 1 - (room + extra) =
                  context.limit + 1 - room := by
                show context.limit + extra + 1 - (room + extra) = _
                omega
              rw [expandWithin_selection, expandWithin_selection, hdepth]
              refine expandEntries_relaxed extra (fun stack definition => ?_) entries
              cases room with
              | zero =>
                  -- There may be room under the higher limit, but under this one there is none.
                  exact keptBy_of_refused (refused_expandWithin_zero stack definition)
              | succ room =>
                  rw [Nat.add_right_comm]
                  exact ih room (by omega) stack definition

/-- An expansion that is not refused is the same under a higher limit. -/
theorem expand_relaxed (context : Context) (extra : Nat) (expr : Expr) :
    (context.expand expr).KeptBy ((context.relaxed extra).expand expr) := by
  have hkept := context.expandWithin_relaxed extra (context.limit + 1) [] expr
  rwa [Nat.add_right_comm] at hkept

end Context

end Expansion

namespace AliasTable

variable {aliases : AliasTable} {stack : List Name} {name : Name} {definition : Expr}

/-- The deepest nesting among the definitions of a table. -/
def nesting (aliases : AliasTable) : Nat :=
  greatest (aliases.entries.map fun entry => entry.2.nesting)

/-- How much deeper the aliases that are not on a stack can lead. Each of them counts once, with its
definition and the two levels that it takes at most from a name to its definition. -/
def headroom (aliases : AliasTable) (stack : List Name) : Nat :=
  (aliases.size - stack.length) * (aliases.nesting + 2)

theorem nesting_le_of_target? (h : aliases.target? name = some definition) :
    definition.nesting ≤ aliases.nesting :=
  le_greatest (List.mem_map.mpr ⟨_, mem_entries_of_target? h, rfl⟩)

/-- What a definition takes is gained by putting its alias on the stack. -/
theorem IsStack.headroom_push (h : aliases.IsStack stack)
    (htarget : aliases.target? name = some definition) (hstack : name ∉ stack) :
    definition.nesting + aliases.headroom (stack ++ [name]) + 2 ≤ aliases.headroom stack := by
  have hlength := (h.push htarget hstack).length_le
  have hnesting := nesting_le_of_target? htarget
  rw [List.length_append, List.length_singleton] at hlength
  obtain ⟨rest, hrest⟩ : ∃ rest, aliases.size - stack.length = rest + 1 :=
    ⟨aliases.size - stack.length - 1, by omega⟩
  have hpushed : aliases.size - (stack ++ [name]).length = rest := by
    rw [List.length_append, List.length_singleton]
    omega
  rw [headroom, headroom, hrest, hpushed, Nat.succ_mul]
  omega

/-- The room that is enough for an expression is enough for what its expansion goes on with. -/
theorem carries_headroom : aliases.Carries fun room stack expr =>
    aliases.IsStack stack ∧ expr.nesting + aliases.headroom stack < room where
  name := by
    intro room stack name definition h htarget hstack
    have hpush := h.1.headroom_push htarget hstack
    exact ⟨h.1.push htarget hstack, by omega⟩
  list := by
    intro room stack items item h hmem
    have hnesting : item.nesting < (Expr.list items).nesting :=
      Nat.lt_succ_of_le (Expr.nestingItems_le_iff.mp (Nat.le_refl _) item hmem)
    exact ⟨h.1, by omega⟩
  selection := by
    intro room stack entries entry definition h _ htarget hstack
    have hpush := h.1.headroom_push htarget hstack
    exact ⟨h.1.push htarget hstack, by omega⟩

end AliasTable

namespace Expansion.Context

variable {context : Context} {expr : Expr}

/-- Under a limit that leaves room for every alias once, no expansion is refused. -/
theorem not_refused_of_le
    (h : expr.nesting + context.aliases.headroom [] ≤ context.limit) :
    ¬ (context.expand expr).Refused := by
  have hfails : (context.expand expr).FailsOnly fun error => ∀ limit, error ≠ .tooDeep limit := by
    refine expandWithin_failsOnly AliasTable.carries_headroom ?_ ?_
      ⟨AliasTable.isStack_nil, Nat.lt_succ_of_le h⟩
    · exact fun stack expr hless => absurd hless.2 (Nat.not_lt_zero _)
    · exact fun _ _ _ _ _ _ _ _ _ _ => nofun
  intro hrefused
  obtain ⟨limit, hlimit⟩ := hrefused
  exact hfails _ hlimit limit rfl

/-- The limit changes no expansion that it does not refuse, and from some limit on, which only
depends on the table and the expression, it refuses none. For an expansion in place comes to the
same and has on its stack, at every moment, aliases to be expanded, each of them once. -/
theorem expand_limit (aliases : AliasTable) (expr : Expr) :
    (∀ aggregate limit more, limit ≤ more →
      ¬ (expand ⟨aliases, aggregate, limit⟩ expr).Refused →
        expand ⟨aliases, aggregate, more⟩ expr = expand ⟨aliases, aggregate, limit⟩ expr) ∧
      (∃ bound, ∀ aggregate limit, bound ≤ limit →
        ¬ (expand ⟨aliases, aggregate, limit⟩ expr).Refused) ∧
      ∀ aggregate limit,
        InPlace.ComesTo aliases (InPlace.expand ⟨aliases, aggregate, limit⟩ expr) {}
          (expand ⟨aliases, aggregate, limit⟩ expr) := by
  refine ⟨fun aggregate limit more hle hnot => ?_,
    ⟨expr.nesting + aliases.headroom [], fun aggregate limit hle => not_refused_of_le hle⟩,
    fun aggregate limit => ?_⟩
  · obtain ⟨extra, rfl⟩ := Nat.exists_eq_add_of_le hle
    exact expand_relaxed ⟨aliases, aggregate, limit⟩ extra expr hnot
  · exact InPlace.follows_expand ⟨aliases, aggregate, limit⟩ expr {} AliasTable.isStack_nil

/-- The chain that three levels are enough to find stays the same under every higher limit. -/
theorem expand_limit_tangled :
    ¬ (expand ⟨tangled, none, 3⟩ (.name ⟨"me"⟩)).Refused ∧ ∀ more, 3 ≤ more →
      (expand ⟨tangled, none, more⟩ (.name ⟨"me"⟩)).outcome =
        .error (.cycle [⟨"me"⟩, ⟨"myself"⟩, ⟨"me"⟩]) := by
  have houtcome : (expand ⟨tangled, none, 3⟩ (.name ⟨"me"⟩)).outcome =
      .error (.cycle [⟨"me"⟩, ⟨"myself"⟩, ⟨"me"⟩]) := rfl
  have hnot : ¬ (expand ⟨tangled, none, 3⟩ (.name ⟨"me"⟩)).Refused := by
    intro hrefused
    obtain ⟨limit, hlimit⟩ := hrefused
    cases houtcome.symm.trans hlimit
  refine ⟨hnot, fun more hle => ?_⟩
  rw [(expand_limit tangled (.name ⟨"me"⟩)).1 none 3 more hle hnot, houtcome]

end Expansion.Context

end FieldSelection
