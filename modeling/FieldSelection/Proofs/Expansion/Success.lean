import FieldSelection.Proofs.Expansion.Depth
import FieldSelection.Proofs.Expansion.Meaning

/-!
# When expansions succeed

The expansion of an expression that has a depth succeeds if the limit is no less than that depth,
and otherwise fails because of the limit (`succeedsIff_expand`). An expression whose expansion
succeeds has a depth (`exists_depth_of_expand`). Whether there is a union of all aliases plays no
part in this.
-/

namespace FieldSelection

namespace AliasTable

variable {aliases : AliasTable} {stack : List Name} {name : Name} {bound depth : Nat}

/-- Whether all aliases on a stack go deeper than `bound`. -/
def Above (aliases : AliasTable) (stack : List Name) (bound : Nat) : Prop :=
  ∀ name ∈ stack, ∃ depth > bound, aliases.Depth (.name name) depth

theorem above_nil : aliases.Above [] bound :=
  fun _ hmem => absurd hmem List.not_mem_nil

theorem Above.mono {less : Nat} (h : aliases.Above stack bound) (hle : less ≤ bound) :
    aliases.Above stack less := by
  intro name hname
  obtain ⟨depth, hbound, hdepth⟩ := h name hname
  exact ⟨depth, by omega, hdepth⟩

/-- An alias that goes no deeper than `bound` is not on the stack, and the definition with which its
expansion goes on lies below the stack and the alias. -/
theorem Above.enter {definition : Expr} (h : aliases.Above stack bound)
    (htarget : aliases.target? name = some definition) (hdepth : aliases.Depth definition depth)
    (hle : 1 + depth ≤ bound) : name ∉ stack ∧ aliases.Above (stack ++ [name]) depth := by
  have hname : aliases.Depth (.name name) (1 + depth) := .reference htarget hdepth
  constructor
  · intro hmem
    obtain ⟨other, hbound, hother⟩ := h name hmem
    have heq := hname.unique hother
    omega
  · refine List.forall_mem_append.mpr ⟨h.mono (by omega), List.forall_mem_singleton.mpr ?_⟩
    exact ⟨1 + depth, by omega, hname⟩

end AliasTable

namespace Expansion

variable {α β : Type} {x : Expansion α} {limit : Nat} {p q : Prop}

/-- Whether a computation succeeds under the condition `p`, and otherwise fails because the limit is
exceeded. -/
structure SucceedsIff (x : Expansion α) (limit : Nat) (p : Prop) : Prop where
  succeeds : p → ∃ a, x.outcome = .ok a
  fails : ¬ p → x.outcome = .error (.tooDeep limit)

theorem SucceedsIff.congr (h : x.SucceedsIff limit p) (hiff : p ↔ q) : x.SucceedsIff limit q :=
  ⟨fun hq => h.succeeds (hiff.mpr hq), fun hq => h.fails fun hp => hq (hiff.mp hp)⟩

theorem succeedsIff_of_ok {a : α} (h : x.outcome = .ok a) (hp : p) : x.SucceedsIff limit p :=
  ⟨fun _ => ⟨a, h⟩, fun hnot => absurd hp hnot⟩

/-- What is reported first makes no difference to the outcome. -/
theorem SucceedsIff.after_report (h : x.SucceedsIff limit p) (event : Event) :
    (do report event; x : Expansion α).SucceedsIff limit p :=
  ⟨h.succeeds, h.fails⟩

/-- One computation after another succeeds under both conditions. -/
theorem SucceedsIff.bind {f : α → Expansion β} (h : x.SucceedsIff limit p)
    (hnext : ∀ a, x.outcome = .ok a → (f a).SucceedsIff limit q) :
    (x >>= f).SucceedsIff limit (p ∧ q) := by
  constructor
  · intro hboth
    obtain ⟨a, ha⟩ := h.succeeds hboth.1
    obtain ⟨b, hb⟩ := (hnext a ha).succeeds hboth.2
    exact ⟨b, outcome_bind_eq_ok.mpr ⟨a, ha, hb⟩⟩
  · intro hnot
    rw [outcome_bind]
    by_cases hp : p
    · obtain ⟨a, ha⟩ := h.succeeds hp
      rw [ha]
      exact (hnext a ha).fails fun hq => hnot ⟨hp, hq⟩
    · rw [h.fails hp]
      rfl

theorem SucceedsIff.map (h : x.SucceedsIff limit p) (f : α → β) :
    (x >>= fun a => pure (f a)).SucceedsIff limit p :=
  (h.bind fun _ _ => succeedsIff_of_ok rfl trivial).congr (iff_of_eq (and_true p))

/-- A run over a list succeeds under the conditions of all members. -/
theorem SucceedsIff.each {f : α → Expansion β} {as : List α} {p : α → Prop}
    (h : ∀ a ∈ as, (f a).SucceedsIff limit (p a)) :
    (each f as).SucceedsIff limit (∀ a ∈ as, p a) := by
  induction as with
  | nil => exact succeedsIff_of_ok rfl nofun
  | cons a rest ih =>
      obtain ⟨hfirst, hrest⟩ := List.forall_mem_cons.mp h
      exact (hfirst.bind fun b _ => (ih hrest).map (b :: ·)).congr List.forall_mem_cons.symm

namespace Context

open AliasTable

variable {context : Context} {enter : List Name → Expr → Expansion Expr} {depth room : Nat}
  {stack : List Name} {name : Name} {expr expanded : Expr}

theorem succeedsIff_refuse (h : ¬ p) : context.refuse.SucceedsIff context.limit p :=
  ⟨fun hp => absurd hp h, fun _ => rfl⟩

/-- A name outside its own expansion is expanded whenever its definition is. -/
theorem succeedsIff_expandName {p : Expr → Prop}
    (h : ∀ definition, context.aliases.target? name = some definition → name ∉ stack ∧
      (enter (stack ++ [name]) definition).SucceedsIff context.limit (p definition)) :
    (context.expandName enter depth stack name).SucceedsIff context.limit
      (∀ definition, context.aliases.target? name = some definition → p definition) := by
  cases htarget : context.aliases.target? name with
  | none =>
      by_cases hreserved : name.isReserved
      · rw [expandName_reserved hreserved]
        exact succeedsIff_of_ok (context.outcome_expandView name) nofun
      · have hnone := (target?_eq_none_iff.mp htarget).resolve_left hreserved
        rw [expandName_field hreserved hnone]
        exact succeedsIff_of_ok rfl nofun
  | some definition =>
      obtain ⟨hreserved, hreference⟩ := target?_eq_some_iff.mp htarget
      obtain ⟨hstack, hdefinition⟩ := h definition htarget
      rw [expandName_alias hreserved hreference hstack]
      refine (hdefinition.after_report _).congr ?_
      simp

/-- An expansion that starts below all aliases on the stack succeeds if there is room for the depth
of the expression, and otherwise runs into the limit. -/
theorem succeedsIff_expandWithin (h : context.aliases.Depth expr depth)
    (hstack : context.aliases.Above stack depth) :
    (context.expandWithin room stack expr).SucceedsIff context.limit (depth < room) := by
  -- Going down loses depth, so that no alias is met again below the stack it was put on.
  induction h generalizing room stack with
  | empty | nil =>
      cases room with
      | zero => exact succeedsIff_refuse (Nat.not_lt_zero _)
      | succ room => exact succeedsIff_of_ok rfl (Nat.succ_pos room)
  | field hnone =>
      cases room with
      | zero => exact succeedsIff_refuse (Nat.not_lt_zero _)
      | succ room =>
          rw [expandWithin]
          refine (succeedsIff_expandName (p := fun _ => True) fun definition hsome => ?_).congr ?_
          · rw [hnone] at hsome
            cases hsome
          · simp
  | @reference name definition depth htarget hdepth ih =>
      cases room with
      | zero => exact succeedsIff_refuse (Nat.not_lt_zero _)
      | succ room =>
          obtain ⟨hnot, habove⟩ := hstack.enter htarget hdepth (Nat.le_refl _)
          rw [expandWithin]
          refine (succeedsIff_expandName (p := fun _ => depth < room) fun other hother => ?_).congr
            ?_
          · obtain rfl := Option.some.inj (htarget.symm.trans hother)
            exact ⟨hnot, ih habove⟩
          · constructor
            · intro hroom
              have hless := hroom definition htarget
              omega
            · intro hless _ _
              omega
  | list depth hne _ ih =>
      cases room with
      | zero => exact succeedsIff_refuse (Nat.not_lt_zero _)
      | succ room =>
          rw [expandWithin]
          refine ((SucceedsIff.each fun item hmem => ih item hmem (hstack.mono ?_)).map _).congr ?_
          · have hle := le_greatest (List.mem_map_of_mem (f := depth) hmem)
            omega
          · rw [Nat.add_comm 1, Nat.add_lt_add_iff_right, greatest_lt_iff (by simpa using hne),
              List.forall_mem_map]
  | @selection entries depth hdepths ih =>
      cases room with
      | zero => exact succeedsIff_refuse (Nat.not_lt_zero _)
      | succ room =>
          rw [expandWithin_selection, expandEntries]
          have hkey (entry : Name × Expr) (hmem : entry ∈ entries) :
              (context.expandName (context.expandWithin (room - 1)) (context.limit + 1 - room) stack
                entry.1).SucceedsIff context.limit
                (∀ definition, context.aliases.target? entry.1 = some definition →
                  depth definition < room - 1) := by
            refine succeedsIff_expandName fun definition htarget => ?_
            have hle := le_greatest_keyDepths depth hmem htarget
            obtain ⟨hnot, habove⟩ := hstack.enter htarget (hdepths entry hmem definition htarget)
              (by omega)
            exact ⟨hnot, ih entry hmem definition htarget habove⟩
          refine ((SucceedsIff.each fun entry hmem => (hkey entry hmem).map _).map _).congr ?_
          -- A definition two levels down needs two units of room.
          rw [Nat.lt_succ_iff, greatest_le_iff, forall_mem_keyDepths]
          exact forall₄_congr fun _ _ _ _ => by omega

/-- An expression is expanded if it is no deeper than the limit, and is refused otherwise. -/
theorem succeedsIff_expand (h : context.aliases.Depth expr depth) :
    (context.expand expr).SucceedsIff context.limit (depth ≤ context.limit) :=
  (succeedsIff_expandWithin h above_nil).congr Nat.lt_succ_iff

/-- What holds of definitions that are expanded holds of that of a name which is. -/
theorem forall_target?_of_expandName {p : Expr → Prop}
    (henter : ∀ stack definition expanded,
      (enter stack definition).outcome = .ok expanded → p definition)
    (h : (context.expandName enter depth stack name).outcome = .ok expanded) :
    ∀ definition, context.aliases.target? name = some definition → p definition := by
  intro definition htarget
  obtain ⟨hreserved, hreference⟩ := target?_eq_some_iff.mp htarget
  by_cases hstack : name ∈ stack
  · rw [expandName_cycle hreserved hreference hstack] at h
    cases h
  · rw [expandName_alias hreserved hreference hstack] at h
    obtain ⟨_, _, h⟩ := outcome_bind_eq_ok.mp h
    exact henter _ _ _ h

/-- An expression whose expansion succeeds is less deep than there was room. -/
theorem exists_depth_of_expandWithin
    (h : (context.expandWithin room stack expr).outcome = .ok expanded) :
    ∃ depth < room, context.aliases.Depth expr depth := by
  -- Definitions of keys are expanded with two units of room less, hence strong induction.
  induction room using Nat.strongRecOn generalizing stack expr expanded with
  | ind room ih =>
      cases room with
      | zero => cases expr <;> cases h
      | succ room =>
          cases expr with
          | empty => exact ⟨0, Nat.succ_pos room, .empty⟩
          | name name =>
              cases htarget : context.aliases.target? name with
              | none => exact ⟨0, Nat.succ_pos room, .field htarget⟩
              | some definition =>
                  rw [expandWithin] at h
                  obtain ⟨depth, hlt, hdepth⟩ := forall_target?_of_expandName
                    (p := fun definition => ∃ depth < room, context.aliases.Depth definition depth)
                    (fun _ _ _ => ih room (Nat.lt_succ_self _)) h definition htarget
                  exact ⟨1 + depth, by omega, .reference htarget hdepth⟩
          | list items =>
              obtain ⟨results, heach, -⟩ := outcome_bind_pure_eq_ok.mp h
              have hitems : ∀ item ∈ items, ∃ depth < room, context.aliases.Depth item depth := by
                intro item hmem
                obtain ⟨_, _, hitem⟩ := exists_result_of_each heach hmem
                exact ih room (Nat.lt_succ_self _) hitem
              cases items with
              | nil => exact ⟨0, Nat.succ_pos room, .nil⟩
              | cons first rest =>
                  choose! depth hlt hdepth using hitems
                  refine ⟨_, ?_, .list depth (List.cons_ne_nil _ _) hdepth⟩
                  rw [Nat.add_comm 1, Nat.add_lt_add_iff_right, greatest_lt_iff (by simp)]
                  exact List.forall_mem_map.mpr hlt
          | selection entries =>
              rw [expandWithin_selection] at h
              obtain ⟨pairs, heach, -⟩ := outcome_bind_pure_eq_ok.mp h
              have hkeys : ∀ definition,
                  (∃ entry ∈ entries, context.aliases.target? entry.1 = some definition) →
                    ∃ depth < room - 1, context.aliases.Depth definition depth := by
                intro definition hkey
                obtain ⟨entry, hmem, htarget⟩ := hkey
                obtain ⟨_, _, houtcome⟩ := exists_result_of_each heach hmem
                obtain ⟨result, hresult, -⟩ := outcome_bind_pure_eq_ok.mp houtcome
                exact forall_target?_of_expandName
                  (p := fun definition =>
                    ∃ depth < room - 1, context.aliases.Depth definition depth)
                  (fun _ _ _ => ih (room - 1) (by omega)) hresult definition htarget
              choose! depth hlt hdepth using hkeys
              refine ⟨_, ?_, .selection depth fun entry hmem definition htarget =>
                hdepth definition ⟨entry, hmem, htarget⟩⟩
              refine Nat.lt_succ_iff.mpr (greatest_le_iff.mpr (forall_mem_keyDepths.mpr ?_))
              intro entry hmem definition htarget
              have hless := hlt definition ⟨entry, hmem, htarget⟩
              omega

/-- An expression whose expansion succeeds is no deeper than the limit. -/
theorem exists_depth_of_expand (h : (context.expand expr).outcome = .ok expanded) :
    ∃ depth ≤ context.limit, context.aliases.Depth expr depth := by
  obtain ⟨depth, hlt, hdepth⟩ := exists_depth_of_expandWithin h
  exact ⟨depth, Nat.lt_succ_iff.mp hlt, hdepth⟩

end Context

end Expansion

end FieldSelection
