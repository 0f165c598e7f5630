import FieldSelection.Expansion
import FieldSelection.Proofs.Entries

/-!
# Reasoning about expansions

The outcome of a composed computation in terms of the outcomes of its parts: `outcome_bind_eq_ok`
for one computation after another and `outcome_each_eq_ok` for a list of them. The rest of the file
gives one equation for every way in which a name or a selection is expanded, so that no later proof
has to open `expandName` or `expandWithin`.
-/

namespace FieldSelection.Expansion

variable {α β : Type}

@[simp]
theorem outcome_pure (a : α) : (pure a : Expansion α).outcome = .ok a := rfl

@[simp]
theorem outcome_bind (x : Expansion α) (f : α → Expansion β) :
    (x >>= f).outcome = x.outcome.bind fun a => (f a).outcome := by
  show (Expansion.bind x f).outcome = _
  unfold Expansion.bind
  cases x.outcome <;> rfl

/-- A composed computation succeeds when its first part does and what follows from that value
does. -/
theorem outcome_bind_eq_ok {x : Expansion α} {f : α → Expansion β} {b : β} :
    (x >>= f).outcome = .ok b ↔ ∃ a, x.outcome = .ok a ∧ (f a).outcome = .ok b := by
  rw [outcome_bind]
  cases x.outcome with
  | error e => simp [Except.bind]
  | ok a => simp [Except.bind]

/-- A composed computation succeeds if its first part does, and then whatever may follow. -/
theorem exists_outcome_bind {x : Expansion α} {f : α → Expansion β}
    (hfirst : ∃ a, x.outcome = .ok a)
    (hnext : ∀ a, x.outcome = .ok a → ∃ b, (f a).outcome = .ok b) :
    ∃ b, (x >>= f).outcome = .ok b := by
  obtain ⟨a, ha⟩ := hfirst
  obtain ⟨b, hb⟩ := hnext a ha
  exact ⟨b, outcome_bind_eq_ok.mpr ⟨a, ha, hb⟩⟩

theorem outcome_bind_pure_eq_ok {x : Expansion α} {f : α → β} {b : β} :
    (x >>= fun a => pure (f a)).outcome = .ok b ↔ ∃ a, x.outcome = .ok a ∧ f a = b := by
  simp only [outcome_bind_eq_ok, outcome_pure, Except.ok.injEq]

/-- A run over a list succeeds when it does for each member. -/
theorem outcome_each_eq_ok {f : α → Expansion β} {as : List α} {bs : List β} :
    (each f as).outcome = .ok bs ↔ List.Forall₂ (fun a b => (f a).outcome = .ok b) as bs := by
  induction as generalizing bs with
  | nil => cases bs <;> simp [each]
  | cons a rest ih =>
      simp only [each, outcome_bind_eq_ok, outcome_pure, Except.ok.injEq, ih]
      constructor
      · intro hexists
        obtain ⟨b, hb, more, hmore, rfl⟩ := hexists
        exact .cons hb hmore
      · intro heither
        rcases heither with _ | ⟨hb, hmore⟩
        exact ⟨_, hb, _, hmore, rfl⟩

/-- Each member of a list has a result in a successful run over it. -/
theorem exists_result_of_each {f : α → Expansion β} {as : List α} {bs : List β} {a : α}
    (h : (each f as).outcome = .ok bs) (hmem : a ∈ as) : ∃ b ∈ bs, (f a).outcome = .ok b :=
  exists_right_of_forall₂ (outcome_each_eq_ok.mp h) hmem

/-- Each result of a successful run over a list is that of a member. -/
theorem exists_member_of_each {f : α → Expansion β} {as : List α} {bs : List β} {b : β}
    (h : (each f as).outcome = .ok bs) (hmem : b ∈ bs) : ∃ a ∈ as, (f a).outcome = .ok b := by
  obtain ⟨a, ha, hresult⟩ := exists_left_of_forall₂ (outcome_each_eq_ok.mp h) hmem
  exact ⟨a, ha, hresult⟩

/-- A run over a list succeeds if it does for each member. -/
theorem exists_outcome_each {f : α → Expansion β} {as : List α}
    (h : ∀ a ∈ as, ∃ b, (f a).outcome = .ok b) : ∃ bs, (each f as).outcome = .ok bs := by
  obtain ⟨bs, hbs⟩ := exists_forall₂ h
  exact ⟨bs, outcome_each_eq_ok.mpr hbs⟩

/-- If results tell from which member they come, a successful run over a list tells the list. -/
theorem map_eq_of_each {f : α → Expansion β} {origin : β → α}
    (horigin : ∀ a b, (f a).outcome = .ok b → origin b = a) {as : List α} {bs : List β}
    (h : (each f as).outcome = .ok bs) : bs.map origin = as := by
  induction outcome_each_eq_ok.mp h with
  | nil => rfl
  | cons hb _ ih => rw [List.map_cons, horigin _ _ hb, ih (outcome_each_eq_ok.mpr ‹_›)]

theorem outcome_observe_eq_ok {x : Expansion α} {a : α} {missed : Bool} :
    (observe x).outcome = .ok (a, missed) ↔ x.outcome = .ok a ∧ x.missed = missed := by
  unfold observe
  cases x.outcome with
  | error error => simp [Except.map]
  | ok b => simp [Except.map]

/-- What follows a computation that comes to a value is added to it. -/
theorem bind_of_ok {x : Expansion α} {f : α → Expansion β} {a : α} (h : x.outcome = .ok a) :
    x >>= f = ⟨(f a).outcome, x.events ++ (f a).events, x.missed || (f a).missed⟩ := by
  show Expansion.bind x f = _
  unfold Expansion.bind
  rw [h]

/-- Nothing follows a computation that fails. -/
theorem bind_of_error {x : Expansion α} {f : α → Expansion β} {error : ExpansionError}
    (h : x.outcome = .error error) : x >>= f = ⟨.error error, x.events, x.missed⟩ := by
  show Expansion.bind x f = _
  unfold Expansion.bind
  rw [h]

theorem missed_bind_of_ok {x : Expansion α} {f : α → Expansion β} {a : α}
    (h : x.outcome = .ok a) : (x >>= f).missed = (x.missed || (f a).missed) := by
  rw [bind_of_ok h]

theorem missed_bind_of_error {x : Expansion α} {f : α → Expansion β} {error : ExpansionError}
    (h : x.outcome = .error error) : (x >>= f).missed = x.missed := by
  rw [bind_of_error h]

namespace Context

variable {context : Context} {enter : List Name → Expr → Expansion Expr} {depth : Nat}
  {stack : List Name} {name : Name} {definition : Expr}

theorem expandName_reserved (h : name.isReserved) :
    context.expandName enter depth stack name = context.expandView name := by
  rw [expandName, if_pos h]

theorem expandName_field (hreserved : ¬ name.isReserved)
    (h : context.aliases.reference? name = none) :
    context.expandName enter depth stack name = pure (.name name) := by
  rw [expandName, if_neg hreserved, h]

theorem expandName_cycle (hreserved : ¬ name.isReserved)
    (h : context.aliases.reference? name = some definition) (hstack : name ∈ stack) :
    context.expandName enter depth stack name = (do
      report (.selfReference name)
      fail (.cycle (stack.dropWhile (· ≠ name) ++ [name]))) := by
  simp only [expandName, if_neg hreserved, h, if_pos hstack]

theorem expandName_alias (hreserved : ¬ name.isReserved)
    (h : context.aliases.reference? name = some definition) (hstack : name ∉ stack) :
    context.expandName enter depth stack name = (do
      report (.expanding name depth)
      enter (stack ++ [name]) definition) := by
  simp only [expandName, if_neg hreserved, h, if_neg hstack]

/-- The definitions of keys lie two levels deeper than the selection. The expansion that starts at
the level in between is not asked, so that a selection is treated alike on every level. -/
theorem expandWithin_selection (context : Context) (room : Nat) (stack : List Name)
    (entries : List (Name × Expr)) :
    context.expandWithin (room + 1) stack (.selection entries) =
      context.expandEntries (context.expandWithin (room - 1)) (context.limit + 1 - room) stack
        entries := by
  cases room with
  | zero =>
      rw [expandWithin]
      congr 1
  | succ room => rw [expandWithin, Nat.add_sub_cancel, Nat.add_sub_add_right]

end Context

end FieldSelection.Expansion
