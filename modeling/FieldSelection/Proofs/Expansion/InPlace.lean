import FieldSelection.Proofs.AliasTable
import FieldSelection.Proofs.Expansion.Computation

/-!
# Expansions in place

An expansion as a procedure with a single stack, on which an alias is put before its definition is
expanded and from which it is taken afterwards, also when the expansion of the definition fails.
`InPlace.follows_expand` says that this comes to the same as the expansion that hands the stack
down. It leaves the stack that it finds, and whatever stands on the stack in between are aliases to
be expanded, each of them once.
-/

namespace FieldSelection

section Procedures

variable {ε σ α β : Type} {x : ExceptT ε (StateM σ) α} {f : α → ExceptT ε (StateM σ) β}
  {state next : σ}

/-- What follows a procedure takes place in the state where the procedure stops. -/
theorem exceptT_run_bind_of_ok {a : α} (h : x.run.run state = (.ok a, next)) :
    (x >>= f).run.run state = (f a).run.run next := by
  rw [ExceptT.run_bind, StateT.run_bind, h]
  rfl

/-- Nothing follows a procedure that stops with an error. -/
theorem exceptT_run_bind_of_error {error : ε} (h : x.run.run state = (.error error, next)) :
    (x >>= f).run.run state = (.error error, next) := by
  rw [ExceptT.run_bind, StateT.run_bind, h]
  rfl

/-- What is done finally takes place in the state where the procedure stops, also after an error. -/
theorem exceptT_run_finally {result : Except ε α} (change : σ → σ)
    (h : x.run.run state = (result, next)) :
    (try x finally modify change : ExceptT ε (StateM σ) α).run.run state =
      (result, change next) := by
  simp only [tryFinally, tryFinally', ExceptT.run_map, ExceptT.run_mk, StateT.run_map,
    StateT.run_bind]
  simp only [StateT.run]
  rw [show x state = (result, next) from h]
  cases result <;> rfl

end Procedures

namespace Expansion

/-- The stack of an expansion in place, with what is known of the way to it. -/
structure Track where
  /-- The aliases that are being expanded, outermost first. -/
  stack : List Name := []
  /-- The stacks there were before, the latest first. -/
  past : List (List Name) := []
  events : List Event := []
  missed : Bool := false

/-- Puts a name on the stack. -/
def Track.push (track : Track) (name : Name) : Track :=
  { track with stack := track.stack ++ [name], past := track.stack :: track.past }

/-- Takes the last name off the stack. -/
def Track.pop (track : Track) : Track :=
  { track with stack := track.stack.dropLast, past := track.stack :: track.past }

/-- A computation that changes the stack as it goes. -/
abbrev InPlace (α : Type) : Type := ExceptT ExpansionError (StateM Track) α

namespace InPlace

variable {α β : Type}

/-- The result of a computation and the track that it leaves. -/
def runOn (p : InPlace α) (track : Track) : Except ExpansionError α × Track :=
  p.run.run track

/-- A computation that does not touch the stack. -/
def perform (x : Expansion α) : InPlace α := do
  modify fun track =>
    { track with events := track.events ++ x.events, missed := track.missed || x.missed }
  ofExcept x.outcome

/-- A computation with a name on the stack, which is taken off again also after an error. -/
def within (name : Name) (p : InPlace α) : InPlace α := do
  modify fun track => track.push name
  try p finally modify Track.pop

/-- Expands a name at some depth. `enter` is the expansion of definitions. -/
def expandName (context : Context) (enter : Expr → InPlace Expr) (depth : Nat) (name : Name) :
    InPlace Expr := do
  if name.isReserved then perform (context.expandView name)
  else match context.aliases.reference? name with
    | none => return .name name
    | some definition =>
        let track ← get
        if name ∈ track.stack then
          perform (report (.selfReference name))
          throw (.cycle (track.stack.dropWhile (· ≠ name) ++ [name]))
        else
          within name do
            perform (report (.expanding name depth))
            enter definition

/-- Expands the keys of a selection at some depth. -/
def expandEntries (context : Context) (enter : Expr → InPlace Expr) (depth : Nat)
    (entries : List (Name × Expr)) : InPlace Expr := do
  let expanded ← entries.mapM fun entry => do
    let expanded ← expandName context enter depth entry.1
    return (expanded, entry.2)
  return Expr.assemble expanded

/-- Expands an expression that lies at depth `limit + 1 - room`. -/
def expandWithin (context : Context) : (room : Nat) → Expr → InPlace Expr
  | 0, _ => perform context.refuse
  | _ + 1, .empty => return .empty
  | room + 1, .name name =>
      expandName context (expandWithin context room) (context.limit - room) name
  | room + 1, .list items => do
      return .list (← items.mapM (expandWithin context room))
  | 1, .selection entries =>
      expandEntries context (fun _ => perform context.refuse) (context.limit + 1) entries
  | room + 2, .selection entries =>
      expandEntries context (expandWithin context room) (context.limit - room) entries

/-- Expands an expression. -/
def expand (context : Context) (expr : Expr) : InPlace Expr :=
  expandWithin context (context.limit + 1) expr

end InPlace

/-- The track after an expansion that is back at the stack where it started, by way of some other
stacks. -/
def Track.after {α : Type} (track : Track) (past : List (List Name)) (x : Expansion α) : Track :=
  { track with
    past := past ++ track.past
    events := track.events ++ x.events
    missed := track.missed || x.missed }

namespace InPlace

open AliasTable

variable {α β : Type} {aliases : AliasTable} {context : Context} {name : Name} {p : InPlace α}
  {x : List Name → Expansion α}

/-- Whether a computation that starts on a track comes to what `x` is and is back at its stack in
the end. In between there are only stacks of aliases to be expanded, each of them once. -/
def ComesTo (aliases : AliasTable) (p : InPlace α) (track : Track) (x : Expansion α) : Prop :=
  ∃ past, (∀ stack ∈ past, aliases.IsStack stack) ∧
    p.runOn track = (x.outcome, track.after past x)

theorem comesTo_of_runOn {track : Track} {x : Expansion α}
    (h : p.runOn track = (x.outcome, track.after [] x)) : ComesTo aliases p track x :=
  ⟨[], fun _ hmem => absurd hmem List.not_mem_nil, h⟩

/-- A computation that does not touch the stack only adds its events and its flag. -/
theorem runOn_perform (track : Track) (x : Expansion α) :
    (perform x).runOn track = (x.outcome, track.after [] x) := by
  obtain ⟨outcome, events, missed⟩ := x
  cases outcome <;> rfl

theorem comesTo_perform (track : Track) (x : Expansion α) :
    ComesTo aliases (perform x) track x :=
  comesTo_of_runOn (runOn_perform track x)

theorem comesTo_pure (track : Track) (a : α) : ComesTo aliases (pure a) track (pure a) := by
  refine comesTo_of_runOn ?_
  show (Except.ok a, track) =
    (.ok a, { track with events := track.events ++ [], missed := track.missed || false })
  rw [List.append_nil, Bool.or_false]

/-- A computation may start by looking at its track. -/
theorem comesTo_of_get {track : Track} {x : Expansion α} {f : Track → InPlace α}
    (h : ComesTo aliases (f track) track x) : ComesTo aliases (get >>= f) track x :=
  h

theorem ComesTo.bind {track : Track} {x : Expansion α} {f : α → InPlace β} {g : α → Expansion β}
    (h : ComesTo aliases p track x)
    (hnext : ∀ a past, ComesTo aliases (f a) (track.after past x) (g a)) :
    ComesTo aliases (p >>= f) track (x >>= g) := by
  obtain ⟨past, hpast, hrun⟩ := h
  cases houtcome : x.outcome with
  | error error =>
      rw [houtcome] at hrun
      refine ⟨past, hpast, ?_⟩
      rw [runOn, exceptT_run_bind_of_error hrun, bind_of_error houtcome]
      rfl
  | ok a =>
      rw [houtcome] at hrun
      -- The second part starts from the stack where the first did, since that is where it ended.
      obtain ⟨more, hmore, hmoreRun⟩ := hnext a past
      refine ⟨more ++ past, List.forall_mem_append.mpr ⟨hmore, hpast⟩, ?_⟩
      rw [runOn, exceptT_run_bind_of_ok hrun, bind_of_ok houtcome]
      refine hmoreRun.trans ?_
      simp only [Track.after, List.append_assoc, Bool.or_assoc]

/-- Whether a computation comes to what `x` is under the stack it finds, whatever stack that is. -/
def Follows (aliases : AliasTable) (p : InPlace α) (x : List Name → Expansion α) : Prop :=
  ∀ track : Track, aliases.IsStack track.stack → ComesTo aliases p track (x track.stack)

theorem Follows.bind {f : α → InPlace β} {g : α → List Name → Expansion β}
    (h : Follows aliases p x) (hnext : ∀ a, Follows aliases (f a) (g a)) :
    Follows aliases (p >>= f) fun stack => x stack >>= fun a => g a stack :=
  fun track hstack => (h track hstack).bind fun a past =>
    hnext a (track.after past (x track.stack)) hstack

theorem Follows.map (h : Follows aliases p x) (f : α → β) :
    Follows aliases (p >>= fun a => pure (f a)) fun stack => x stack >>= fun a => pure (f a) :=
  h.bind fun a track _ => comesTo_pure track (f a)

theorem Follows.mapM {f : α → InPlace β} {g : List Name → α → Expansion β}
    (h : ∀ a, Follows aliases (f a) (g · a)) (as : List α) :
    Follows aliases (as.mapM f) fun stack => each (g stack) as := by
  induction as with
  | nil => exact fun track _ => comesTo_pure track []
  | cons a rest ih =>
      rw [List.mapM_cons]
      exact (h a).bind fun b => ih.map (b :: ·)

/-- The name is taken off the stack whatever comes of the computation. -/
theorem runOn_within {track next : Track} {result : Except ExpansionError α}
    (h : p.runOn (track.push name) = (result, next)) :
    (within name p).runOn track = (result, next.pop) :=
  exceptT_run_finally Track.pop h

theorem Follows.within (h : Follows aliases p x) {definition : Expr} {track : Track}
    (hstack : aliases.IsStack track.stack) (htarget : aliases.target? name = some definition)
    (hnot : name ∉ track.stack) :
    ComesTo aliases (within name p) track (x (track.stack ++ [name])) := by
  have hpushed := hstack.push htarget hnot
  obtain ⟨past, hpast, hrun⟩ := h (track.push name) hpushed
  refine ⟨(track.stack ++ [name]) :: past ++ [track.stack], ?_, ?_⟩
  · exact List.forall_mem_cons.mpr
      ⟨hpushed, List.forall_mem_append.mpr ⟨hpast, List.forall_mem_singleton.mpr hstack⟩⟩
  · rw [runOn_within hrun]
    simp [Track.push, Track.pop, Track.after]

/-- Names are expanded alike if definitions are. -/
theorem follows_expandName {enter : Expr → InPlace Expr}
    {handed : List Name → Expr → Expansion Expr}
    (henter : ∀ definition, Follows context.aliases (enter definition) (handed · definition))
    (depth : Nat) (name : Name) :
    Follows context.aliases (expandName context enter depth name)
      (context.expandName handed depth · name) := by
  intro track hstack
  show ComesTo _ _ track (context.expandName handed depth track.stack name)
  by_cases hreserved : name.isReserved
  · rw [expandName, if_pos hreserved, Context.expandName_reserved hreserved]
    exact comesTo_perform track (context.expandView name)
  · cases hreference : context.aliases.reference? name with
    | none =>
        rw [Context.expandName_field hreserved hreference]
        simp only [expandName, if_neg hreserved, hreference]
        exact comesTo_pure track (Expr.name name)
    | some definition =>
        simp only [expandName, if_neg hreserved, hreference]
        refine comesTo_of_get ?_
        by_cases hmem : name ∈ track.stack
        · rw [if_pos hmem, Context.expandName_cycle hreserved hreference hmem]
          exact comesTo_of_runOn rfl
        · rw [if_neg hmem, Context.expandName_alias hreserved hreference hmem]
          have htarget := target?_eq_some_iff.mpr ⟨hreserved, hreference⟩
          have hevent : Follows context.aliases (perform (report (.expanding name depth)))
              fun _ => report (.expanding name depth) := fun track _ => comesTo_perform track _
          exact (hevent.bind fun _ => henter definition).within hstack htarget hmem

theorem follows_expandEntries {enter : Expr → InPlace Expr}
    {handed : List Name → Expr → Expansion Expr}
    (henter : ∀ definition, Follows context.aliases (enter definition) (handed · definition))
    (depth : Nat) (entries : List (Name × Expr)) :
    Follows context.aliases (expandEntries context enter depth entries)
      (context.expandEntries handed depth · entries) := by
  have hentry (entry : Name × Expr) := (follows_expandName henter depth entry.1).map
    fun expanded => (expanded, entry.2)
  exact (Follows.mapM hentry entries).map Expr.assemble

theorem follows_expandWithin (room : Nat) (expr : Expr) :
    Follows context.aliases (expandWithin context room expr)
      (context.expandWithin room · expr) := by
  induction room using Nat.strongRecOn generalizing expr with
  | ind room ih =>
      cases room with
      | zero => cases expr <;> exact fun track _ => comesTo_perform track context.refuse
      | succ room =>
          have hless := ih room (Nat.lt_succ_self room)
          cases expr with
          | empty => exact fun track _ => comesTo_pure track Expr.empty
          | name name => exact follows_expandName hless _ name
          | list items => exact (Follows.mapM hless items).map Expr.list
          | selection entries =>
              cases room with
              | zero =>
                  -- On the last level there is no room for definitions of keys.
                  exact follows_expandEntries
                    (fun _ track _ => comesTo_perform track context.refuse) _ entries
              | succ room => exact follows_expandEntries (ih room (by omega)) _ entries

/-- An expansion in place comes to what the expansion under the stack it finds is, and leaves that
stack behind. -/
theorem follows_expand (context : Context) (expr : Expr) :
    Follows context.aliases (expand context expr)
      (context.expandWithin (context.limit + 1) · expr) :=
  follows_expandWithin (context.limit + 1) expr

end InPlace

end Expansion

end FieldSelection
