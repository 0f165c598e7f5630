import FieldSelection.Proofs.AliasTable
import Mathlib.Order.WellFoundedSet

/-!
# How deep expansions go

`AliasTable.Leads` is the step from an alias to another one that its definition mentions, and
`AliasTable.Depth` measures how deep the expansion of an expression goes. An expression has one
depth at most (`Depth.unique`), and it has one exactly when no alias that leads back to itself can
be reached from the names it mentions (`exists_depth_iff`). In particular every expression has one
if no alias leads back to itself (`Acyclic.exists_depth`). Tables and expressions that are alike
agree on all this.
-/

namespace FieldSelection

/-- The greatest of some numbers, or zero if there are none. -/
def greatest (numbers : List Nat) : Nat :=
  numbers.foldr max 0

theorem greatest_le_iff {numbers : List Nat} {bound : Nat} :
    greatest numbers ≤ bound ↔ ∀ number ∈ numbers, number ≤ bound := by
  induction numbers with
  | nil => simp [greatest]
  | cons number rest ih =>
      change max number (greatest rest) ≤ bound ↔ _
      rw [Nat.max_le, ih, List.forall_mem_cons]

theorem le_greatest {numbers : List Nat} {number : Nat} (h : number ∈ numbers) :
    number ≤ greatest numbers :=
  greatest_le_iff.mp (Nat.le_refl _) number h

theorem greatest_lt_iff {numbers : List Nat} (h : numbers ≠ []) {bound : Nat} :
    greatest numbers < bound ↔ ∀ number ∈ numbers, number < bound := by
  cases bound with
  | zero => simpa using List.exists_mem_of_ne_nil numbers h
  | succ bound => simp only [Nat.lt_succ_iff, greatest_le_iff]

namespace AliasTable

/-- Whether the definition of an alias mentions another alias at top level. Neither may be reserved
nor an alias that is defined as its own name. -/
def Leads (aliases : AliasTable) (name other : Name) : Prop :=
  (∃ definition, aliases.target? name = some definition ∧ definition.mentions other) ∧
    ∃ definition, aliases.target? other = some definition

/-- Whether no alias leads back to itself. -/
def Acyclic (aliases : AliasTable) : Prop :=
  ∀ name, ¬ Relation.TransGen aliases.Leads name name

/-- Whether an alias that leads back to itself can be reached from the names that an expression
mentions. -/
def ReachesCycle (aliases : AliasTable) (expr : Expr) : Prop :=
  ∃ name looping, expr.mentions name ∧ Relation.ReflTransGen aliases.Leads name looping ∧
    Relation.TransGen aliases.Leads looping looping

/-- How far the definitions of the keys of a selection reach down from the selection, given how far
each definition does. Keys that are not expanded do not count. -/
def keyDepths (aliases : AliasTable) (depth : Expr → Nat) (entries : List (Name × Expr)) :
    List Nat :=
  entries.filterMap fun entry => (aliases.target? entry.1).map fun definition =>
    2 + depth definition

/-- `Depth aliases expr depth` says how many levels the expansion of an expression goes down. Each
list is a level, and so is the step from a name to its definition; from a key of a selection it is
two levels to its definition. -/
inductive Depth (aliases : AliasTable) : Expr → Nat → Prop where
  | empty : Depth aliases .empty 0
  | field {name : Name} : aliases.target? name = none → Depth aliases (.name name) 0
  | reference {name : Name} {definition : Expr} {depth : Nat} :
      aliases.target? name = some definition → Depth aliases definition depth →
      Depth aliases (.name name) (1 + depth)
  | nil : Depth aliases (.list []) 0
  | list {items : List Expr} (depth : Expr → Nat) :
      items ≠ [] → (∀ item ∈ items, Depth aliases item (depth item)) →
      Depth aliases (.list items) (1 + greatest (items.map depth))
  | selection {entries : List (Name × Expr)} (depth : Expr → Nat) :
      (∀ entry ∈ entries, ∀ definition, aliases.target? entry.1 = some definition →
        Depth aliases definition (depth definition)) →
      Depth aliases (.selection entries) (greatest (aliases.keyDepths depth entries))

variable {aliases others : AliasTable} {expr other : Expr} {name : Name}
  {entries : List (Name × Expr)}

theorem forall_mem_keyDepths {depth : Expr → Nat} {p : Nat → Prop} :
    (∀ number ∈ aliases.keyDepths depth entries, p number) ↔
      ∀ entry ∈ entries, ∀ definition, aliases.target? entry.1 = some definition →
        p (2 + depth definition) := by
  simp only [keyDepths, List.forall_mem_filterMap, Option.map_eq_some_iff, forall_exists_index,
    and_imp, forall_apply_eq_imp_iff₂]

/-- The definition of a key reaches no further down than the deepest one. -/
theorem le_greatest_keyDepths (depth : Expr → Nat) {entry : Name × Expr} {definition : Expr}
    (hmem : entry ∈ entries) (h : aliases.target? entry.1 = some definition) :
    2 + depth definition ≤ greatest (aliases.keyDepths depth entries) :=
  forall_mem_keyDepths.mp (fun _ => le_greatest) entry hmem definition h

/-! ## Comparing depths -/

theorem Depth.le_of_alike (halike : aliases.Alike others) {depth otherDepth : Nat}
    (h : aliases.Depth expr depth) (hother : others.Depth other otherDepth)
    (hexpr : expr.Alike other) : depth ≤ otherDepth := by
  induction h generalizing other otherDepth with
  | empty | field | nil => exact Nat.zero_le _
  | reference hdefinition _ ih =>
      cases hexpr
      obtain ⟨_, hsome, hdefinition⟩ := halike.exists_target? hdefinition
      cases hother with
      | field hnone => exact absurd (hnone.symm.trans hsome) nofun
      | reference hsame hother =>
          obtain rfl := Option.some.inj (hsome.symm.trans hsame)
          have hle := ih hother hdefinition
          omega
  | list depth hne _ ih =>
      cases hexpr with
      | list there _ hthere hitem _ _ =>
          cases hother with
          | nil =>
              obtain ⟨item, hmem⟩ := List.exists_mem_of_ne_nil _ hne
              exact absurd (hthere item hmem) List.not_mem_nil
          | list otherDepth _ hothers =>
              refine Nat.add_le_add_left (greatest_le_iff.mpr (List.forall_mem_map.mpr ?_)) 1
              intro item hmem
              have hle := ih item hmem (hothers _ (hthere item hmem)) (hitem item hmem)
              exact hle.trans (le_greatest (List.mem_map.mpr ⟨_, hthere item hmem, rfl⟩))
  | selection depth _ ih =>
      cases hexpr with
      | selection there _ hthere _ _ _ =>
          cases hother with
          | selection otherDepth hothers =>
              refine greatest_le_iff.mpr (forall_mem_keyDepths.mpr ?_)
              intro entry hmem definition hdefinition
              obtain ⟨found, hfound, hsame⟩ := halike.exists_target? hdefinition
              have hle := ih entry hmem definition hdefinition
                (hothers _ (hthere entry hmem) found hfound) hsame
              exact (Nat.add_le_add_left hle 2).trans
                (le_greatest_keyDepths otherDepth (hthere entry hmem) hfound)

/-- Expressions that are alike go equally deep under tables that are alike. -/
theorem Depth.eq_of_alike (halike : aliases.Alike others) {depth otherDepth : Nat}
    (h : aliases.Depth expr depth) (hother : others.Depth other otherDepth)
    (hexpr : expr.Alike other) : depth = otherDepth :=
  Nat.le_antisymm (h.le_of_alike halike hother hexpr)
    (hother.le_of_alike halike.symm h hexpr.symm)

/-- An expression has one depth at most. -/
theorem Depth.unique {depth otherDepth : Nat} (h : aliases.Depth expr depth)
    (hother : aliases.Depth expr otherDepth) : depth = otherDepth :=
  h.eq_of_alike (.refl aliases) hother (.refl expr)

/-! ## Parts of an expression -/

/-- An item of a list does not go deeper than the list. -/
theorem Depth.exists_le_of_mem {items : List Expr} {depth : Nat}
    (h : aliases.Depth (.list items) depth) (hmem : expr ∈ items) :
    ∃ less ≤ depth, aliases.Depth expr less := by
  cases h with
  | nil => cases hmem
  | list depth _ hitems =>
      have hle := le_greatest (List.mem_map_of_mem (f := depth) hmem)
      exact ⟨_, by omega, hitems expr hmem⟩

/-- A list does not go deeper than one with more items. -/
theorem Depth.exists_le_of_items_subset {items more : List Expr} {depth : Nat}
    (h : aliases.Depth (.list more) depth) (hsubset : items ⊆ more) :
    ∃ less ≤ depth, aliases.Depth (.list items) less := by
  cases items with
  | nil => exact ⟨0, Nat.zero_le _, .nil⟩
  | cons first rest =>
      cases h with
      | nil => cases hsubset List.mem_cons_self
      | list depth _ hitems =>
          refine ⟨_, Nat.add_le_add_left (greatest_le_iff.mpr ?_) 1,
            .list depth (List.cons_ne_nil _ _) fun item hmem => hitems item (hsubset hmem)⟩
          exact List.forall_mem_map.mpr fun item hmem =>
            le_greatest (List.mem_map_of_mem (hsubset hmem))

/-- A selection does not go deeper than one with more entries. -/
theorem Depth.exists_le_of_entries_subset {more : List (Name × Expr)} {depth : Nat}
    (h : aliases.Depth (.selection more) depth) (hsubset : entries ⊆ more) :
    ∃ less ≤ depth, aliases.Depth (.selection entries) less := by
  cases h with
  | selection depth hentries =>
      refine ⟨_, greatest_le_iff.mpr (forall_mem_keyDepths.mpr ?_),
        .selection depth fun entry hmem => hentries entry (hsubset hmem)⟩
      exact fun entry hmem _ hdefinition => le_greatest_keyDepths depth (hsubset hmem) hdefinition

/-! ## Depth and cycles -/

/-- An alias that an expression mentions does not go deeper than the expression. -/
theorem Depth.exists_le_of_mentions {depth : Nat} (h : aliases.Depth expr depth)
    (hname : expr.mentions name) : ∃ less ≤ depth, aliases.Depth (.name name) less := by
  induction h with
  | empty => cases hname
  | field hnone =>
      obtain rfl := beq_iff_eq.mp hname
      exact ⟨0, Nat.le_refl _, .field hnone⟩
  | reference hdefinition h =>
      obtain rfl := beq_iff_eq.mp hname
      exact ⟨_, Nat.le_refl _, .reference hdefinition h⟩
  | nil => cases hname
  | list depth _ _ ih =>
      obtain ⟨item, hmem, hitem⟩ := Expr.mentions_list.mp hname
      obtain ⟨less, hle, hless⟩ := ih item hmem hitem
      have hbound := le_greatest (List.mem_map.mpr ⟨item, hmem, rfl⟩ : depth item ∈ _)
      exact ⟨less, by omega, hless⟩
  | selection depth hentries =>
      obtain ⟨entry, hmem, rfl⟩ := List.mem_map.mp (Expr.mentions_selection.mp hname)
      cases hdefinition : aliases.target? entry.1 with
      | none => exact ⟨0, Nat.zero_le _, .field hdefinition⟩
      | some definition =>
          have hbound := le_greatest_keyDepths depth hmem hdefinition
          exact ⟨_, by omega, .reference hdefinition (hentries entry hmem definition hdefinition)⟩

/-- Each step from an alias to the next one loses depth. -/
theorem Leads.exists_lt {next : Name} (h : aliases.Leads name next) {depth : Nat}
    (hdepth : aliases.Depth (.name name) depth) :
    ∃ less < depth, aliases.Depth (.name next) less := by
  obtain ⟨⟨definition, hdefinition, hmentions⟩, _⟩ := h
  cases hdepth with
  | field hnone => exact absurd (hnone.symm.trans hdefinition) nofun
  | reference hsame hdepth =>
      obtain rfl := Option.some.inj (hdefinition.symm.trans hsame)
      obtain ⟨less, hle, hless⟩ := hdepth.exists_le_of_mentions hmentions
      exact ⟨less, by omega, hless⟩

theorem exists_lt_of_transGen {next : Name} (h : Relation.TransGen aliases.Leads name next)
    {depth : Nat} (hdepth : aliases.Depth (.name name) depth) :
    ∃ less < depth, aliases.Depth (.name next) less := by
  induction h with
  | single hleads => exact hleads.exists_lt hdepth
  | tail _ hleads ih =>
      obtain ⟨between, hbetween, hdepth⟩ := ih
      obtain ⟨less, hless, hdepth⟩ := hleads.exists_lt hdepth
      exact ⟨less, hless.trans hbetween, hdepth⟩

/-- From an expression that is only so deep, no alias that leads back to itself is reached. -/
theorem Depth.not_reachesCycle {depth : Nat} (h : aliases.Depth expr depth) :
    ¬ aliases.ReachesCycle expr := by
  intro hreaches
  obtain ⟨name, looping, hname, hreach, hcycle⟩ := hreaches
  obtain ⟨_, _, hdepth⟩ := h.exists_le_of_mentions hname
  -- Once around, an alias would be less deep than it is.
  have hlooping : ∃ depth, aliases.Depth (.name looping) depth := by
    rcases Relation.reflTransGen_iff_eq_or_transGen.mp hreach with rfl | hreach
    · exact ⟨_, hdepth⟩
    · obtain ⟨_, _, hdepth⟩ := exists_lt_of_transGen hreach hdepth
      exact ⟨_, hdepth⟩
  obtain ⟨depth, hdepth⟩ := hlooping
  obtain ⟨less, hless, hdepth'⟩ := exists_lt_of_transGen hcycle hdepth
  exact absurd (hdepth'.unique hdepth) (Nat.ne_of_lt hless)

/-- Aliases that are only so deep do not lead back to themselves. -/
theorem acyclic_of_exists_depth
    (h : ∀ name ∈ aliases.names, ∃ depth, aliases.Depth (.name name) depth) :
    aliases.Acyclic := by
  intro name hcycle
  obtain ⟨_, ⟨⟨_, htarget, _⟩, _⟩, _⟩ := Relation.TransGen.head'_iff.mp hcycle
  obtain ⟨depth, hdepth⟩ := h name (mem_names_of_target? htarget)
  exact hdepth.not_reachesCycle ⟨name, name, beq_self_eq_true name, .refl, hcycle⟩

theorem Leads.of_alike (halike : aliases.Alike others) {next : Name}
    (h : aliases.Leads name next) : others.Leads name next := by
  obtain ⟨⟨definition, htarget, hmentions⟩, ⟨_, hnext⟩⟩ := h
  obtain ⟨_, hother, hdefinition⟩ := halike.exists_target? htarget
  obtain ⟨_, hotherNext, _⟩ := halike.exists_target? hnext
  exact ⟨⟨_, hother, hdefinition.mentions_iff.mp hmentions⟩, _, hotherNext⟩

theorem Acyclic.of_alike (halike : aliases.Alike others) (h : aliases.Acyclic) :
    others.Acyclic := by
  intro name hcycle
  have hleads : others.Leads ≤ aliases.Leads := fun _ _ hleads => hleads.of_alike halike.symm
  exact h name (Relation.TransGen.mono hleads name name hcycle)

/-- An expression has a depth when the definitions of the aliases it mentions have one. -/
theorem exists_depth_of_mentions
    (h : ∀ name definition, expr.mentions name → aliases.target? name = some definition →
      ∃ depth, aliases.Depth definition depth) : ∃ depth, aliases.Depth expr depth := by
  induction expr using Expr.induct with
  | empty => exact ⟨0, .empty⟩
  | name name =>
      cases hdefinition : aliases.target? name with
      | none => exact ⟨0, .field hdefinition⟩
      | some definition =>
          obtain ⟨depth, hdepth⟩ := h name definition (beq_self_eq_true name) hdefinition
          exact ⟨_, .reference hdefinition hdepth⟩
  | list items ih =>
      have hitems : ∀ item ∈ items, ∃ depth, aliases.Depth item depth := fun item hmem =>
        ih item hmem fun name definition hname =>
          h name definition (Expr.mentions_list.mpr ⟨item, hmem, hname⟩)
      cases items with
      | nil => exact ⟨0, .nil⟩
      | cons first rest =>
          choose! depth hdepth using hitems
          exact ⟨_, .list depth (List.cons_ne_nil _ _) hdepth⟩
  | selection entries =>
      have hkeys : ∀ definition,
          (∃ entry ∈ entries, aliases.target? entry.1 = some definition) →
            ∃ depth, aliases.Depth definition depth := by
        intro definition hkey
        obtain ⟨entry, hmem, hdefinition⟩ := hkey
        exact h _ definition (Expr.mentions_selection.mpr (List.mem_map.mpr ⟨_, hmem, rfl⟩))
          hdefinition
      choose! depth hdepth using hkeys
      exact ⟨_, .selection depth fun entry hmem definition hdefinition =>
        hdepth definition ⟨entry, hmem, hdefinition⟩⟩

/-- What is reached from an alias that is mentioned is reached from the expression. -/
theorem ReachesCycle.of_mentions (h : aliases.ReachesCycle (.name name))
    (hname : expr.mentions name) : aliases.ReachesCycle expr := by
  obtain ⟨other, looping, hother, hreach, hcycle⟩ := h
  obtain rfl := beq_iff_eq.mp hother
  exact ⟨name, looping, hname, hreach, hcycle⟩

theorem ReachesCycle.of_leads {next : Name} (h : aliases.ReachesCycle (.name next))
    (hleads : aliases.Leads name next) : aliases.ReachesCycle (.name name) := by
  obtain ⟨other, looping, hother, hreach, hcycle⟩ := h
  obtain rfl := beq_iff_eq.mp hother
  exact ⟨name, looping, beq_self_eq_true name, .head hleads hreach, hcycle⟩

/-- The definition of an alias has a depth if from the alias none is reached that leads back to
itself. -/
theorem exists_depth_of_target? {definition : Expr}
    (htarget : aliases.target? name = some definition) (h : ¬ aliases.ReachesCycle (.name name)) :
    ∃ depth, aliases.Depth definition depth := by
  -- There are only finitely many aliases, so that a step to another alias cannot go on forever. It
  -- counts as a step down only where no cycle is reached, since elsewhere it may lead around one.
  have : IsStrictOrder Name fun below name =>
      Relation.TransGen aliases.Leads name below ∧ ¬ aliases.ReachesCycle (.name name) :=
    { irrefl := fun name hboth => hboth.2 ⟨name, name, beq_self_eq_true name, .refl, hboth.1⟩
      trans := fun _ _ _ hbelow habove => ⟨habove.1.trans hbelow.1, habove.2⟩ }
  have hfounded := (List.finite_toSet aliases.names).wellFoundedOn (r := fun below name =>
    Relation.TransGen aliases.Leads name below ∧ ¬ aliases.ReachesCycle (.name name))
  refine hfounded.induction (P := fun name => ∀ definition, aliases.target? name = some definition →
    ¬ aliases.ReachesCycle (.name name) → ∃ depth, aliases.Depth definition depth)
    (mem_names_of_target? htarget) (fun name _ ih definition hdefinition hnot => ?_) definition
    htarget h
  refine exists_depth_of_mentions fun next nextDefinition hmentions hnext => ?_
  have hleads : aliases.Leads name next := ⟨⟨definition, hdefinition, hmentions⟩, _, hnext⟩
  exact ih next (mem_names_of_target? hnext) ⟨.single hleads, hnot⟩ nextDefinition hnext
    fun hreaches => hnot (hreaches.of_leads hleads)

/-- An expression has a depth exactly when from the names it mentions no alias is reached that leads
back to itself. -/
theorem exists_depth_iff :
    (∃ depth, aliases.Depth expr depth) ↔ ¬ aliases.ReachesCycle expr := by
  constructor
  · intro hexists
    obtain ⟨depth, hdepth⟩ := hexists
    exact hdepth.not_reachesCycle
  · intro hnot
    exact exists_depth_of_mentions fun name definition hmentions htarget =>
      exists_depth_of_target? htarget fun hreaches => hnot (hreaches.of_mentions hmentions)

/-- If no alias leads back to itself, then every expression has a depth. -/
theorem Acyclic.exists_depth (h : aliases.Acyclic) (expr : Expr) :
    ∃ depth, aliases.Depth expr depth :=
  exists_depth_iff.mpr fun hreaches => by
    obtain ⟨_, looping, _, _, hcycle⟩ := hreaches
    exact h looping hcycle

end AliasTable

end FieldSelection
