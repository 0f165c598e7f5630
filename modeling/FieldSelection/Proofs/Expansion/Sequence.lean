import FieldSelection.Proofs.Expansion.Failure
import FieldSelection.Proofs.Expansion.InPlace

/-!
# Expansions one after the other

Several expressions may be expanded with one stack and one flag, whatever comes of each of them. By
`expand_in_turn` every result is that of the expression alone, and the flag is set once one of the
expressions so far sets it alone. Nothing else is carried over, since every part of an expansion
leaves the stack as it finds it.
-/

namespace FieldSelection.Expansion

namespace InPlace

/-- The result of an expression that is the first to be expanded, and the track that it leaves. -/
def alone (context : Context) (expr : Expr) : Except ExpansionError Expr × Track :=
  (expand context expr).runOn {}

/-- Expands expressions one after the other, also after an error. For each of them there is its
result, and the track that it leaves to the next one. -/
def expandInTurn (context : Context) :
    Track → List Expr → List (Except ExpansionError Expr × Track)
  | _, [] => []
  | track, expr :: rest =>
      let turn := (expand context expr).runOn track
      turn :: expandInTurn context turn.2 rest

end InPlace

/-- Expands expressions one after the other. For each of them there is its outcome, and whether it
or one before it missed the union. -/
def Expander.expandInTurn (expander : Expander) :
    List Expr → List (Except ExpansionError Expr × Bool)
  | [] => []
  | expr :: rest =>
      let result := expander.expand expr
      (result.1, result.2.2.missed) :: result.2.2.expandInTurn rest

namespace InPlace

variable {track : Track}

/-- Where the stack is empty, an expansion comes to what the expression expands to, and the stack is
empty again. -/
theorem runOn_expand (context : Context) (hempty : track.stack = []) (expr : Expr) :
    ∃ past, (expand context expr).runOn track =
      ((context.expand expr).outcome, track.after past (context.expand expr)) := by
  have hstack : context.aliases.IsStack track.stack := hempty ▸ AliasTable.isStack_nil
  obtain ⟨past, -, hrun⟩ := follows_expand context expr track hstack
  rw [hempty] at hrun
  exact ⟨past, hrun⟩

/-- An expression that follows others has the result that it has alone, and the stack is empty
again. -/
theorem runOn_expand_eq_alone (context : Context) (hempty : track.stack = []) (expr : Expr) :
    ∃ next, (expand context expr).runOn track = ((alone context expr).1, next) ∧
      next.stack = [] ∧ next.missed = (track.missed || (alone context expr).2.missed) := by
  obtain ⟨past, hrun⟩ := runOn_expand context hempty expr
  obtain ⟨_, halone⟩ := runOn_expand context (rfl : ({} : Track).stack = []) expr
  rw [alone, halone]
  exact ⟨_, hrun, hempty, congrArg (track.missed || ·) (Bool.false_or _).symm⟩

/-- All expressions have the results that they have alone. The flag is set from the first one on
that sets it. -/
theorem expandInTurn_eq_alone (context : Context) (hempty : track.stack = []) (exprs : List Expr) :
    (expandInTurn context track exprs).map (fun turn => (turn.1, turn.2.stack, turn.2.missed)) =
      exprs.mapIdx fun k expr =>
        ((alone context expr).1, [],
          track.missed || (exprs.take (k + 1)).any fun earlier =>
            (alone context earlier).2.missed) := by
  induction exprs generalizing track with
  | nil => rfl
  | cons expr rest ih =>
      obtain ⟨next, hrun, hstack, hmissed⟩ := runOn_expand_eq_alone context hempty expr
      simp only [expandInTurn, hrun, List.map_cons, ih hstack, hstack, hmissed, List.mapIdx_cons,
        List.take_succ_cons, List.any_cons, Bool.or_assoc, List.take_zero, List.any_nil,
        Bool.or_false]

/-- An expander with the flag of a track does in turn what is done in place. -/
theorem expander_expandInTurn (context : Context) (hempty : track.stack = []) (exprs : List Expr) :
    (Expander.mk context track.missed).expandInTurn exprs =
      (expandInTurn context track exprs).map fun turn => (turn.1, turn.2.missed) := by
  induction exprs generalizing track with
  | nil => rfl
  | cons expr rest ih =>
      obtain ⟨past, hrun⟩ := runOn_expand context hempty expr
      have hafter : (track.after past (context.expand expr)).stack = [] := hempty
      simp only [expandInTurn, hrun, List.map_cons, ← ih hafter]
      rfl

/-- Every part of an expansion leaves the stack as it finds it, also when it fails. -/
theorem Follows.stack_eq {α : Type} {aliases : AliasTable} {p : InPlace α}
    {x : List Name → Expansion α} (h : Follows aliases p x)
    (hstack : aliases.IsStack track.stack) : (p.runOn track).2.stack = track.stack := by
  obtain ⟨past, -, hrun⟩ := h track hstack
  rw [hrun]
  rfl

end InPlace

open InPlace

/-- Of several expressions that are expanded in turn with one stack and one flag, each has the
result that it has alone, be it an expression or an error. The flag is set afterwards exactly if the
expression itself or one before it sets it alone, and the stack is empty. An expander does the same.
Indeed the expansion of an expression, of a name and of the keys of a selection, at any depth,
leaves the stack that it finds. -/
theorem expand_in_turn (context : Context) (exprs : List Expr) :
    ((InPlace.expandInTurn context {} exprs).map fun turn =>
        (turn.1, turn.2.stack, turn.2.missed)) =
      (exprs.mapIdx fun k expr =>
        ((alone context expr).1, [],
          (exprs.take (k + 1)).any fun earlier => (alone context earlier).2.missed)) ∧
    (Expander.mk context false).expandInTurn exprs =
      ((InPlace.expandInTurn context {} exprs).map fun turn => (turn.1, turn.2.missed)) ∧
    ∀ (room : Nat) (track : Track), context.aliases.IsStack track.stack →
      (∀ expr, ((InPlace.expandWithin context room expr).runOn track).2.stack = track.stack) ∧
      (∀ depth name, ((InPlace.expandName context (InPlace.expandWithin context room) depth
        name).runOn track).2.stack = track.stack) ∧
      ∀ depth entries, ((InPlace.expandEntries context (InPlace.expandWithin context room) depth
        entries).runOn track).2.stack = track.stack := by
  have hempty : ({} : Track).stack = [] := rfl
  refine ⟨?_, expander_expandInTurn context hempty exprs, fun room track hstack => ?_⟩
  · exact (expandInTurn_eq_alone context hempty exprs).trans (by simp only [Bool.false_or])
  · have hwithin (expr : Expr) : Follows context.aliases (InPlace.expandWithin context room expr)
        (context.expandWithin room · expr) := follows_expandWithin room expr
    exact ⟨fun expr => (hwithin expr).stack_eq hstack,
      fun depth name => (follows_expandName hwithin depth name).stack_eq hstack,
      fun depth entries => (follows_expandEntries hwithin depth entries).stack_eq hstack⟩

/-- An expansion that fails within that of another alias. -/
theorem expand_in_turn_tangled :
    AliasTable.IsStack Context.tangled [⟨"me"⟩] ∧
      ((InPlace.expandWithin ⟨Context.tangled, none, 3⟩ 2 (.name ⟨"myself"⟩)).runOn
        { stack := [⟨"me"⟩] }).1 = .error (.cycle [⟨"me"⟩, ⟨"myself"⟩, ⟨"me"⟩]) ∧
      ((InPlace.expandWithin ⟨Context.tangled, none, 3⟩ 2 (.name ⟨"myself"⟩)).runOn
        { stack := [⟨"me"⟩] }).2.stack = [⟨"me"⟩] := by
  have hstack : AliasTable.IsStack Context.tangled [⟨"me"⟩] :=
    ⟨List.nodup_singleton _, List.forall_mem_singleton.mpr ⟨_, rfl⟩⟩
  have hturns := expand_in_turn ⟨Context.tangled, none, 3⟩ [.name ⟨"me"⟩, .name ⟨"contact"⟩]
  exact ⟨hstack, rfl, (hturns.2.2 2 { stack := [⟨"me"⟩] } hstack).1 (.name ⟨"myself"⟩)⟩

end FieldSelection.Expansion
