import FieldSelection.Proofs.Expansion.Events
import FieldSelection.Proofs.Expansion.Sequence

/-!
# What the events of an expansion tell of its end

The events of an expansion announce the aliases whose definitions are expanded, each of them once.
In place, those are the aliases that are put on the stack, and `Track.InStep` says that the events
name them in that order. Every part of an expansion keeps it (`InPlace.keeps_expandWithin`). How an
expansion ended can be read off its last event (`Context.events_tell_ending`), since an expansion
that fails gives one warning and reports nothing after it.
-/

namespace FieldSelection

/-- The alias whose expansion an event announces. -/
def Event.entered? : Event → Option Name
  | expanding name _ => some name
  | _ => none

/-- A warning announces nothing. -/
theorem Event.entered?_of_level {event : Event} (h : event.level = .warn) :
    event.entered? = none := by
  cases event with
  | expanding => cases h
  | compiling | compiled | recompiled | cached | clearing | selfReference | tooDeep => rfl

namespace Expansion

/-- What each stack has beyond the one before it, in order. The latest stack comes first. -/
def pushed : List (List Name) → List Name
  | stack :: before :: past => pushed (before :: past) ++ stack.drop before.length
  | _ => []

/-- The aliases that were put on the stack so far, in order. -/
def Track.entered (track : Track) : List Name :=
  pushed (track.stack :: track.past)

/-- Whether the events so far announce the aliases that were put on the stack, in order. -/
def Track.InStep (track : Track) : Prop :=
  track.events.filterMap Event.entered? = track.entered

theorem Track.entered_push (track : Track) (name : Name) :
    (track.push name).entered = track.entered ++ [name] := by
  simp [entered, push, pushed]

theorem Track.entered_pop (track : Track) : track.pop.entered = track.entered := by
  simp [entered, pop, pushed]

namespace InPlace

variable {α β : Type} {context : Context} {p : InPlace α} {x : Expansion α}

/-- Whether a computation keeps the events in step with the stack. -/
def Keeps (p : InPlace α) : Prop :=
  ∀ track : Track, track.InStep → (p.runOn track).2.InStep

theorem keeps_pure (a : α) : (pure a : InPlace α).Keeps := fun _ h => h

theorem keeps_throw (error : ExpansionError) : (throw error : InPlace α).Keeps := fun _ h => h

/-- A computation that does not touch the stack must not announce anything. -/
theorem keeps_perform (hevents : x.events.filterMap Event.entered? = []) : (perform x).Keeps := by
  intro track h
  rw [runOn_perform]
  show (track.events ++ x.events).filterMap Event.entered? = track.entered
  rw [List.filterMap_append, hevents, List.append_nil, h]

theorem Keeps.bind {f : α → InPlace β} (h : p.Keeps) (hnext : ∀ a, (f a).Keeps) :
    (p >>= f).Keeps := by
  intro track htrack
  have hfirst := h track htrack
  cases hrun : p.runOn track with
  | mk result next =>
      rw [hrun] at hfirst
      cases result with
      | error error =>
          rw [runOn, exceptT_run_bind_of_error hrun]
          exact hfirst
      | ok a =>
          rw [runOn, exceptT_run_bind_of_ok hrun]
          exact hnext a next hfirst

theorem Keeps.map (h : p.Keeps) (f : α → β) : (p >>= fun a => pure (f a)).Keeps :=
  h.bind fun a => keeps_pure (f a)

theorem Keeps.mapM {f : α → InPlace β} (h : ∀ a, (f a).Keeps) (as : List α) :
    (as.mapM f).Keeps := by
  induction as with
  | nil => exact keeps_pure []
  | cons a rest ih =>
      rw [List.mapM_cons]
      exact (h a).bind fun b => ih.map (b :: ·)

/-- An alias is announced once it is on the stack, before its definition is expanded. -/
theorem Keeps.within (h : p.Keeps) (name : Name) (depth : Nat) :
    (within name do perform (report (.expanding name depth)); p).Keeps := by
  intro track htrack
  -- Between the push and the announcement the two are out of step, hence the first two at once.
  have hannounced : ((track.push name).after [] (report (.expanding name depth))).InStep := by
    show (track.events ++ [Event.expanding name depth]).filterMap Event.entered? =
      (track.push name).entered
    rw [List.filterMap_append, htrack, Track.entered_push]
    rfl
  have hinner := h _ hannounced
  cases hrun : p.runOn ((track.push name).after [] (report (.expanding name depth))) with
  | mk result next =>
      rw [hrun] at hinner
      have hwithin : (do perform (report (.expanding name depth)); p : InPlace α).runOn
          (track.push name) = (result, next) := hrun
      rw [runOn_within hwithin]
      exact hinner.trans next.entered_pop.symm

theorem keeps_expandName {enter : Expr → InPlace Expr}
    (henter : ∀ definition, (enter definition).Keeps) (depth : Nat) (name : Name) :
    (expandName context enter depth name).Keeps := by
  rw [expandName]
  split
  · refine keeps_perform ?_
    rw [Context.expandView]
    cases context.aggregate <;> rfl
  · split
    · exact keeps_pure _
    · refine Keeps.bind (fun _ h => h) fun track => ?_
      split
      · exact (keeps_perform rfl).bind fun _ => keeps_throw _
      · exact (henter _).within name depth

theorem keeps_expandEntries {enter : Expr → InPlace Expr}
    (henter : ∀ definition, (enter definition).Keeps) (depth : Nat) (entries : List (Name × Expr)) :
    (expandEntries context enter depth entries).Keeps :=
  (Keeps.mapM (fun _ => (keeps_expandName henter depth _).map _) entries).map Expr.assemble

/-- What is expanded is announced, in order, at any depth. -/
theorem keeps_expandWithin (context : Context) (room : Nat) (expr : Expr) :
    (expandWithin context room expr).Keeps := by
  -- As for `narrates_expandWithin`, the definition of a key has two units of room less.
  induction room using Nat.strongRecOn generalizing expr with
  | ind room ih =>
      cases room with
      | zero => cases expr <;> exact keeps_perform rfl
      | succ room =>
          have hless := ih room (Nat.lt_succ_self room)
          cases expr with
          | empty => exact keeps_pure Expr.empty
          | name name => exact keeps_expandName hless _ name
          | list items => exact (Keeps.mapM hless items).map Expr.list
          | selection entries =>
              cases room with
              | zero => exact keeps_expandEntries (fun _ => keeps_perform rfl) _ entries
              | succ room => exact keeps_expandEntries (ih room (by omega)) _ entries

/-- An expansion that is the first to take place announces what it puts on the stack. -/
theorem exists_track_of_expand (context : Context) (expr : Expr) :
    ∃ track, (expand context expr).runOn {} = ((context.expand expr).outcome, track) ∧
      track.events = (context.expand expr).events ∧
      track.entered = (context.expand expr).events.filterMap Event.entered? := by
  obtain ⟨past, hrun⟩ := runOn_expand context (rfl : ({} : Track).stack = []) expr
  have hstart : ({} : Track).InStep := rfl
  have hkept := keeps_expandWithin context (context.limit + 1) expr {} hstart
  rw [← expand, hrun] at hkept
  exact ⟨_, hrun, rfl, hkept.symm⟩

end InPlace

section Closes

variable {α : Type} {limit : Nat} {entered : List Name} {outcome : Except ExpansionError α}
  {warnings : List Event}

theorem Closes.length_le_one (h : Closes limit entered outcome warnings) :
    warnings.length ≤ 1 := by
  cases h <;> simp

theorem Closes.level_eq (h : Closes limit entered outcome warnings) :
    ∀ warning ∈ warnings, warning.level = .warn := by
  cases h <;> simp [Event.level]

/-- A value calls for no warning, and an error for one. -/
theorem Closes.exists_ok_iff (h : Closes limit entered outcome warnings) :
    (∃ a, outcome = .ok a) ↔ warnings = [] := by
  cases h <;> simp

theorem Closes.exists_cycle_iff (h : Closes limit entered outcome warnings) :
    (∃ chain, outcome = .error (.cycle chain)) ↔ ∃ name, warnings = [.selfReference name] := by
  cases h <;> simp

/-- The warning about a cycle names the last alias of the chain. -/
theorem Closes.of_cycle {chain : List Name}
    (h : Closes (α := α) limit entered (.error (.cycle chain)) warnings) :
    ∃ name, chain.getLast? = some name ∧ warnings = [.selfReference name] ∧ chain ⊆ entered := by
  cases h with
  | cycle hchain => exact ⟨_, List.getLast?_concat, rfl, hchain⟩

theorem Closes.tooDeep_iff (h : Closes limit entered outcome warnings) (exceeded : Nat) :
    outcome = .error (.tooDeep exceeded) ↔ warnings = [.tooDeep exceeded] := by
  cases h <;> simp

theorem Closes.limit_eq {exceeded : Nat}
    (h : Closes limit entered outcome [.tooDeep exceeded]) : exceeded = limit := by
  cases h
  rfl

end Closes

section Announced

variable {entered : List (Name × Nat)} {warnings : List Event}

/-- Announcements with warnings after them announce the same. -/
theorem filterMap_entered? (hlevel : ∀ warning ∈ warnings, warning.level = .warn) :
    ((entered.map fun entry => Event.expanding entry.1 entry.2) ++ warnings).filterMap
      Event.entered? = entered.map Prod.fst := by
  have hwarnings : warnings.filterMap Event.entered? = [] :=
    List.filterMap_eq_nil_iff.mpr fun _ hmem => Event.entered?_of_level (hlevel _ hmem)
  rw [List.filterMap_append, hwarnings, List.append_nil, List.filterMap_map]
  exact congrFun List.filterMap_eq_map' entered

/-- Announcements are no warnings. -/
theorem forall_level_ne_iff (hlevel : ∀ warning ∈ warnings, warning.level = .warn) :
    (∀ event ∈ (entered.map fun entry => Event.expanding entry.1 entry.2) ++ warnings,
      event.level ≠ .warn) ↔ warnings = [] := by
  rw [List.forall_mem_append, List.eq_nil_iff_forall_not_mem]
  constructor
  · intro h warning hmem
    exact h.2 warning hmem (hlevel warning hmem)
  · intro h
    refine ⟨List.forall_mem_map.mpr fun entry _ => ?_, fun warning hmem => absurd hmem (h warning)⟩
    exact Level.noConfusion

/-- The last event is a warning only if there is one warning, which comes after all else. -/
theorem getLast?_eq_some_iff {event : Event} (hlength : warnings.length ≤ 1)
    (hevent : event.level = .warn) :
    ((entered.map fun entry => Event.expanding entry.1 entry.2) ++ warnings).getLast? =
      some event ↔ warnings = [event] := by
  cases warnings with
  | nil =>
      rw [List.append_nil]
      refine iff_of_false (fun hlast => ?_) (List.cons_ne_nil _ _).symm
      obtain ⟨entry, -, rfl⟩ := List.mem_map.mp (List.mem_of_getLast? hlast)
      cases hevent
  | cons warning rest =>
      obtain rfl : rest = [] := List.length_eq_zero_iff.mp (by simpa using hlength)
      simp

end Announced

namespace Context

/-- The events of an expansion announce aliases, and after them there is at most one warning. The
aliases are those that the expansion in place puts on its stack, in the same order, and each time one
is put there it is announced once. All of them are to be expanded, at depths no more than one beyond
the limit. The expansion comes to an expression exactly if no event is a warning. It fails because of
a cycle exactly if the last event is the warning about one, which names the last alias of the chain,
and every alias of the chain is announced before. It fails because of the limit exactly if the last
event is the warning about it, with the limit that is exceeded. -/
theorem events_tell_ending (context : Context) (expr : Expr) :
    ∃ (entered : List (Name × Nat)) (warnings : List Event),
      (context.expand expr).events =
        (entered.map fun entry => .expanding entry.1 entry.2) ++ warnings ∧
      (∃ track, (InPlace.expand context expr).runOn {} = ((context.expand expr).outcome, track) ∧
        track.events = (context.expand expr).events ∧ track.entered = entered.map Prod.fst) ∧
      (∀ entry ∈ entered, ¬ entry.1.isReserved ∧ context.aliases.isReference entry.1 ∧
        entry.2 ≤ context.limit + 1) ∧
      warnings.length ≤ 1 ∧ (∀ warning ∈ warnings, warning.level = .warn) ∧
      ((∃ expanded, (context.expand expr).outcome = .ok expanded) ↔
        ∀ event ∈ (context.expand expr).events, event.level ≠ .warn) ∧
      ((∃ chain, (context.expand expr).outcome = .error (.cycle chain)) ↔
        ∃ name, (context.expand expr).events.getLast? = some (.selfReference name)) ∧
      (∀ chain, (context.expand expr).outcome = .error (.cycle chain) →
        ∃ name, chain.getLast? = some name ∧
          (context.expand expr).events.getLast? = some (.selfReference name) ∧
          ∀ member ∈ chain, ∃ depth,
            .expanding member depth ∈ (context.expand expr).events.dropLast) ∧
      (∀ limit, (context.expand expr).outcome = .error (.tooDeep limit) ↔
        (context.expand expr).events.getLast? = some (.tooDeep limit)) ∧
      ∀ limit, (context.expand expr).events.getLast? = some (.tooDeep limit) →
        limit = context.limit := by
  obtain ⟨entered, warnings, hevents, hentered, hcloses⟩ := context.narrates_expand expr
  obtain ⟨track, hrun, htrackEvents, htrack⟩ := InPlace.exists_track_of_expand context expr
  rw [List.nil_append] at hcloses
  have hlength := hcloses.length_le_one
  refine ⟨entered, warnings, hevents, ⟨track, hrun, htrackEvents, ?_⟩, ?_, hlength,
    hcloses.level_eq, ?_, ?_, ?_, ?_, ?_⟩
  · rw [htrack, hevents, filterMap_entered? hcloses.level_eq]
  · intro entry hmem
    obtain ⟨⟨definition, htarget⟩, hdepth⟩ := hentered entry hmem
    obtain ⟨hreserved, hreference⟩ := AliasTable.target?_eq_some_iff.mp htarget
    exact ⟨hreserved, Option.isSome_of_eq_some hreference, hdepth⟩
  · rw [hcloses.exists_ok_iff, hevents, forall_level_ne_iff hcloses.level_eq]
  · rw [hcloses.exists_cycle_iff, hevents]
    exact exists_congr fun name => (getLast?_eq_some_iff hlength rfl).symm
  · intro chain hchain
    rw [hchain] at hcloses
    obtain ⟨name, hlast, rfl, hsubset⟩ := hcloses.of_cycle
    refine ⟨name, hlast, ?_, fun member hmem => ?_⟩
    · rw [hevents, List.getLast?_concat]
    · obtain ⟨entry, hentry, rfl⟩ := List.mem_map.mp (hsubset hmem)
      rw [hevents, List.dropLast_concat]
      exact ⟨entry.2, List.mem_map_of_mem hentry⟩
  · intro limit
    rw [hcloses.tooDeep_iff, hevents]
    exact (getLast?_eq_some_iff hlength rfl).symm
  · intro limit hlast
    rw [hevents] at hlast
    obtain rfl := (getLast?_eq_some_iff hlength rfl).mp hlast
    exact hcloses.limit_eq

-- The definition of a key lies two levels deeper than the key's selection, so that an alias may be
-- entered one level beyond the limit.
example : (expand ⟨tangled, none, 0⟩ (.selection [(⟨"me"⟩, .empty)])).events =
    [.expanding ⟨"me"⟩ 1, .tooDeep 0] := rfl

/-- A request that names an alias and then comes upon a cycle by way of a key. -/
def tangledRequest : Expr :=
  .list [.name ⟨"contact"⟩, .selection [(⟨"me"⟩, .name ⟨"note"⟩)]]

theorem events_tell_ending_tangled :
    (expand ⟨tangled, none, 5⟩ tangledRequest).events =
        [.expanding ⟨"contact"⟩ 1, .expanding ⟨"owner"⟩ 3, .expanding ⟨"me"⟩ 2,
          .expanding ⟨"myself"⟩ 4, .selfReference ⟨"me"⟩] ∧
      (∃ chain, (expand ⟨tangled, none, 5⟩ tangledRequest).outcome = .error (.cycle chain) ∧
        chain.getLast? = some ⟨"me"⟩) ∧
      (expand ⟨tangled, none, 4⟩ tangledRequest).outcome = .error (.tooDeep 4) := by
  have hevents : (expand ⟨tangled, none, 5⟩ tangledRequest).events =
      [.expanding ⟨"contact"⟩ 1, .expanding ⟨"owner"⟩ 3, .expanding ⟨"me"⟩ 2,
        .expanding ⟨"myself"⟩ 4, .selfReference ⟨"me"⟩] := rfl
  obtain ⟨_, _, -, -, -, -, -, -, hcycle, hchain, -, -⟩ :=
    events_tell_ending ⟨tangled, none, 5⟩ tangledRequest
  obtain ⟨_, _, -, -, -, -, -, -, -, -, hdeep, -⟩ :=
    events_tell_ending ⟨tangled, none, 4⟩ tangledRequest
  obtain ⟨chain, houtcome⟩ := hcycle.mpr ⟨⟨"me"⟩, congrArg List.getLast? hevents⟩
  obtain ⟨name, hname, hlast, -⟩ := hchain chain houtcome
  refine ⟨hevents, ⟨chain, houtcome, ?_⟩, (hdeep 4).mpr rfl⟩
  obtain rfl : name = ⟨"me"⟩ :=
    Event.selfReference.inj (Option.some.inj (hlast.symm.trans (congrArg List.getLast? hevents)))
  exact hname

end Context

end Expansion

end FieldSelection
