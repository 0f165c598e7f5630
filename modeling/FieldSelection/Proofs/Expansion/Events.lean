import FieldSelection.Proofs.Expansion.Related

/-!
# What an expansion reports

The events of an expansion tell how it ends. First come the aliases whose definitions are expanded;
a failure adds one warning, and nothing is reported after it. `Narrates` says so of a computation
within the aliases on a stack. It is kept by the ways in which computations are put together, so
that it holds of every expansion (`Context.narrates_expand`).

`Reports` says of any computation that a condition holds of each event, and `Narrates.reports` which
events an expansion can report at all.
-/

namespace FieldSelection.Expansion

variable {α β : Type} {limit : Nat} {stack entered : List Name}

/-- The warning that an outcome calls for. A cycle leads only through aliases that were entered. -/
inductive Closes (limit : Nat) (entered : List Name) :
    Except ExpansionError α → List Event → Prop where
  | value (a : α) : Closes limit entered (.ok a) []
  | cycle {chain : List Name} {name : Name} : chain ++ [name] ⊆ entered →
      Closes limit entered (.error (.cycle (chain ++ [name]))) [.selfReference name]
  | tooDeep : Closes limit entered (.error (.tooDeep limit)) [.tooDeep limit]

theorem Closes.mono {outcome : Except ExpansionError α} {warnings : List Event} {more : List Name}
    (h : Closes limit entered outcome warnings) (hsubset : entered ⊆ more) :
    Closes limit more outcome warnings := by
  cases h with
  | value a => exact .value a
  | cycle hchain => exact .cycle (List.Subset.trans hchain hsubset)
  | tooDeep => exact .tooDeep

/-- The same failure of another computation calls for the same warning. -/
theorem Closes.of_error {error : ExpansionError} {warnings : List Event}
    (h : Closes (α := α) limit entered (.error error) warnings) :
    Closes (α := β) limit entered (.error error) warnings := by
  cases h with
  | cycle hchain => exact .cycle hchain
  | tooDeep => exact .tooDeep

/-- Whether a computation within the aliases on a stack reports which aliases it enters, each at a
depth such that `p` holds of both, and then the warning that its outcome calls for. -/
def Narrates (p : Name → Nat → Prop) (limit : Nat) (stack : List Name) (x : Expansion α) : Prop :=
  ∃ (entered : List (Name × Nat)) (warnings : List Event),
    x.events = (entered.map fun entry => .expanding entry.1 entry.2) ++ warnings ∧
      (∀ entry ∈ entered, p entry.1 entry.2) ∧
      Closes limit (stack ++ entered.map Prod.fst) x.outcome warnings

variable {p : Name → Nat → Prop} {x : Expansion α}

/-- A computation that comes to a value in silence. -/
theorem narrates_of_ok {a : α} (houtcome : x.outcome = .ok a) (hevents : x.events = []) :
    x.Narrates p limit stack :=
  ⟨[], [], hevents, nofun, houtcome ▸ .value a⟩

/-- One computation after another. The second is reported only if the first gives no warning. -/
theorem Narrates.bind {f : α → Expansion β} (h : x.Narrates p limit stack)
    (hnext : ∀ a, (f a).Narrates p limit stack) : (x >>= f).Narrates p limit stack := by
  obtain ⟨entered, warnings, hevents, hentered, hcloses⟩ := h
  cases houtcome : x.outcome with
  | error error =>
      rw [bind_of_error houtcome]
      rw [houtcome] at hcloses
      exact ⟨entered, warnings, hevents, hentered, hcloses.of_error⟩
  | ok a =>
      obtain ⟨more, last, hmoreEvents, hmore, hlast⟩ := hnext a
      rw [houtcome] at hcloses
      cases hcloses
      rw [bind_of_ok houtcome]
      refine ⟨entered ++ more, last, ?_, List.forall_mem_append.mpr ⟨hentered, hmore⟩, ?_⟩
      · rw [hevents, hmoreEvents, List.append_nil, List.map_append, List.append_assoc]
      · refine hlast.mono (List.append_subset.mpr ⟨List.subset_append_left _ _, ?_⟩)
        rw [List.map_append]
        exact List.Subset.trans (List.subset_append_right _ _) (List.subset_append_right _ _)

theorem Narrates.map (h : x.Narrates p limit stack) (f : α → β) :
    (x >>= fun a => pure (f a)).Narrates p limit stack :=
  h.bind fun _ => narrates_of_ok rfl rfl

theorem Narrates.each {f : α → Expansion β} {as : List α}
    (h : ∀ a ∈ as, (f a).Narrates p limit stack) : (each f as).Narrates p limit stack := by
  induction as with
  | nil => exact narrates_of_ok rfl rfl
  | cons a rest ih =>
      obtain ⟨hfirst, hrest⟩ := List.forall_mem_cons.mp h
      exact hfirst.bind fun b => (ih hrest).map (b :: ·)

/-- An alias that is entered is reported, and then what happens within it. -/
theorem Narrates.enter {name : Name} {depth : Nat} (h : x.Narrates p limit (stack ++ [name]))
    (hname : p name depth) :
    (do report (.expanding name depth); x : Expansion α).Narrates p limit stack := by
  obtain ⟨entered, warnings, hevents, hentered, hcloses⟩ := h
  refine ⟨(name, depth) :: entered, warnings, ?_, List.forall_mem_cons.mpr ⟨hname, hentered⟩, ?_⟩
  · exact congrArg (Event.expanding name depth :: ·) hevents
  · rw [List.map_cons, List.append_cons]
    exact hcloses

/-- Whether `p` holds of every event that a computation reports. -/
def Reports (p : Event → Prop) (x : Expansion α) : Prop :=
  ∀ event ∈ x.events, p event

section Reports

variable {p : Event → Prop}

theorem reports_report {event : Event} (h : p event) : (report event).Reports p :=
  List.forall_mem_singleton.mpr h

theorem Reports.bind {f : α → Expansion β} (h : x.Reports p) (hnext : ∀ a, (f a).Reports p) :
    (x >>= f).Reports p := by
  cases houtcome : x.outcome with
  | error error =>
      rw [bind_of_error houtcome]
      exact h
  | ok a =>
      rw [bind_of_ok houtcome]
      exact List.forall_mem_append.mpr ⟨h, hnext a⟩

theorem Reports.map (h : x.Reports p) (f : α → β) : (x >>= fun a => pure (f a)).Reports p :=
  h.bind fun _ => nofun

theorem Reports.observe (h : x.Reports p) : (observe x).Reports p := h

theorem Reports.each {f : α → Expansion β} {as : List α} (h : ∀ a, (f a).Reports p) :
    (each f as).Reports p := by
  induction as with
  | nil => exact nofun
  | cons a rest ih => exact (h a).bind fun b => ih.map (b :: ·)

end Reports

/-- Expansions report nothing but the aliases they enter and warnings. -/
theorem Narrates.reports {q : Event → Prop} (h : x.Narrates p limit stack)
    (hexpanding : ∀ name depth, p name depth → q (.expanding name depth))
    (hcycle : ∀ name, q (.selfReference name)) (htooDeep : q (.tooDeep limit)) : x.Reports q := by
  obtain ⟨entered, warnings, hevents, hentered, hcloses⟩ := h
  rw [Reports, hevents, List.forall_mem_append, List.forall_mem_map]
  refine ⟨fun entry hmem => hexpanding _ _ (hentered entry hmem), ?_⟩
  generalize x.outcome = outcome at hcloses
  cases hcloses with
  | value a => exact nofun
  | cycle _ => exact List.forall_mem_singleton.mpr (hcycle _)
  | tooDeep => exact List.forall_mem_singleton.mpr htooDeep

namespace Context

variable {context : Context} {enter : List Name → Expr → Expansion Expr} {depth room : Nat}
  {name : Name} {expr : Expr}

/-- Whether a name stands for a definition, at a depth no more than one beyond the limit. -/
def Enters (context : Context) (name : Name) (depth : Nat) : Prop :=
  (∃ definition, context.aliases.target? name = some definition) ∧ depth ≤ context.limit + 1

theorem narrates_refuse (context : Context) (stack : List Name) :
    context.refuse.Narrates context.Enters context.limit stack :=
  ⟨[], [.tooDeep context.limit], rfl, nofun, .tooDeep⟩

theorem narrates_expandView (context : Context) (name : Name) (stack : List Name) :
    (context.expandView name).Narrates context.Enters context.limit stack := by
  rw [expandView]
  cases context.aggregate with
  | none => exact narrates_of_ok rfl rfl
  | some all => exact narrates_of_ok rfl rfl

/-- A name met again closes a cycle, and any other alias is entered. -/
theorem narrates_expandName (hdepth : depth ≤ context.limit + 1)
    (henter : ∀ stack definition,
      (enter stack definition).Narrates context.Enters context.limit stack) :
    (context.expandName enter depth stack name).Narrates context.Enters context.limit stack := by
  refine @expandName_related context context enter enter depth stack name
    (fun x _ => x.Narrates context.Enters context.limit stack) rfl
    (fun _ => narrates_expandView context name stack) (narrates_of_ok rfl rfl) ?_ ?_
  · intro definition _ hstack
    refine ⟨[], [.selfReference name], rfl, nofun, .cycle ?_⟩
    rw [List.map_nil, List.append_nil]
    refine List.append_subset.mpr ⟨(List.dropWhile_sublist _).subset, ?_⟩
    exact List.cons_subset.mpr ⟨hstack, List.nil_subset _⟩
  · intro definition htarget _
    exact (henter _ definition).enter ⟨⟨definition, htarget⟩, hdepth⟩

theorem narrates_expandWithin (context : Context) (room : Nat) (stack : List Name) (expr : Expr) :
    (context.expandWithin room stack expr).Narrates context.Enters context.limit stack := by
  -- Definitions of keys are expanded with two units of room less, hence strong induction.
  induction room using Nat.strongRecOn generalizing stack expr with
  | ind room ih =>
      cases room with
      | zero => cases expr <;> exact narrates_refuse context stack
      | succ room =>
          cases expr with
          | empty => exact narrates_of_ok rfl rfl
          | name name =>
              rw [expandWithin]
              exact narrates_expandName (by omega) (ih room (Nat.lt_succ_self room))
          | list items =>
              exact (Narrates.each fun item _ => ih room (Nat.lt_succ_self room) stack item).map _
          | selection entries =>
              rw [expandWithin_selection]
              refine (Narrates.each fun entry _ => Narrates.map ?_ _).map _
              exact narrates_expandName (by omega) (ih (room - 1) (by omega))

/-- The events of an expansion are the aliases it enters, and the warning that its outcome calls
for. -/
theorem narrates_expand (context : Context) (expr : Expr) :
    (context.expand expr).Narrates context.Enters context.limit [] :=
  context.narrates_expandWithin (context.limit + 1) [] expr

end Context

end FieldSelection.Expansion
