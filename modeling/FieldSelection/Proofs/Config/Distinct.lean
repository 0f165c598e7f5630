import FieldSelection.Proofs.AliasTable.Reading
import FieldSelection.Proofs.Config.History
import FieldSelection.Proofs.Expr.Distinct

/-!
# Definitions without repeated keys

A selection is meant to hold each key once. If that is so of the definitions handed in along a
history, then it is so of the definition of every alias (`History.Distinct.definitions`). Of
definitions given as text nothing is asked, because reading makes sure of it, and likewise for whole
tables (`AliasTable.distinctDefinitions_of_parse`).
-/

namespace FieldSelection

namespace AliasTable

variable {aliases others : AliasTable} {name : Name} {definition : Expr}

theorem DistinctDefinitions.insert (h : aliases.DistinctDefinitions)
    (hdefinition : definition.Distinct) :
    (aliases.insert name definition).DistinctDefinitions :=
  Entries.forall_mem_put h hdefinition

theorem DistinctDefinitions.extend (h : aliases.DistinctDefinitions)
    (hothers : others.DistinctDefinitions) : (aliases.extend others).DistinctDefinitions := by
  intro entry hmem
  rcases Entries.mem_of_mem_extend aliases.distinct hmem with hnew | ⟨hold, _⟩
  · exact hothers entry hnew
  · exact h entry hold

/-- No definition in a table read from a text repeats a key. -/
theorem distinctDefinitions_of_parse {text : String} (h : parse text = .ok aliases) :
    aliases.DistinctDefinitions := by
  unfold parse at h
  split at h
  · cases h
  · split at h
    · next values hvalues =>
        rw [define_empty] at h
        obtain ⟨entries, hentries, rfl⟩ := except_map_eq_ok.mp h
        refine Entries.forall_mem_ofList fun entry hmem => ?_
        obtain ⟨value, hvalue, _, hentry⟩ :=
          exists_left_of_forall₂ (Expr.forall₂_of_ofJsonEntries hentries) hmem
        obtain ⟨origin, horigin⟩ := (Json.nodup_of_dedup_eq_object hvalues).2 value hvalue
        exact Expr.distinct_of_ofJson_dedup (horigin ▸ hentry)
    · cases h

end AliasTable

/-- Whether a definition that an operation is given repeats no key. -/
def Operation.Distinct : Operation → Prop
  | .register _ definition => definition.Distinct
  | _ => True

/-- Whether no definition handed in along a history repeats a key. -/
def History.Distinct : History → Prop
  | build aliases _ _ _ _ => aliases.DistinctDefinitions
  | perform before operation => before.Distinct ∧ operation.Distinct
  | inherit before parent => before.Distinct ∧ parent.Distinct

namespace Config

variable {config : Config}

theorem distinctDefinitions_register (h : config.aliases.DistinctDefinitions) (name : Name)
    {definition : Expr} (hdefinition : definition.Distinct) :
    (config.registered (config.register name definition)).aliases.DistinctDefinitions := by
  unfold register
  split
  · exact h
  · exact h.insert hdefinition

theorem distinctDefinitions_perform (h : config.aliases.DistinctDefinitions)
    {operation : Operation} (hoperation : operation.Distinct) :
    (config.perform operation).aliases.DistinctDefinitions := by
  by_cases hserves : operation.Serves
  · obtain ⟨_, hconfig⟩ := config.perform_of_serves hserves
    rw [hconfig]
    exact h
  · cases operation with
    | register name definition => exact distinctDefinitions_register h name hoperation
    | registerText name text =>
        rw [perform, registerText]
        cases hparse : Expr.parse text with
        | error error => exact h
        | ok definition =>
            exact distinctDefinitions_register h name (Expr.distinct_of_parse hparse)
    | expose name => exact distinctDefinitions_register h name trivial
    | compile isAssociation =>
        rw [perform, aliases_compile]
        exact h
    | resolve | iterate | tryIterate | clearCache => exact absurd trivial hserves

end Config

/-- Along such a history, no definition of an alias repeats a key. -/
theorem History.Distinct.definitions {history : History} (h : history.Distinct) :
    history.config.aliases.DistinctDefinitions := by
  induction history with
  | build aliases limit defaults config built =>
      obtain ⟨-, rfl⟩ := Config.eq_of_build built
      exact h
  | perform before operation ih => exact Config.distinctDefinitions_perform (ih h.1) h.2
  | inherit before parent ihBefore ihParent => exact (ihBefore h.1).extend (ihParent h.2)

end FieldSelection
