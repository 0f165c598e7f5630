import FieldSelection.AliasTable
import FieldSelection.Proofs.Expr.Alike
import Mathlib.Data.List.Nodup

/-!
# What names stand for

`AliasTable.target?` is the definition with which the expansion of a name goes on. A stack holds
aliases with such a definition, each once, so that it is no longer than the table
(`IsStack.length_le`). Tables are alike when names go on with expressions that ask for the same, and
`alike_of_same` says that tables which are equal up to order are alike.
-/

namespace FieldSelection.AliasTable

variable {aliases others : AliasTable} {name : Name} {definition : Expr}

/-- A table is known by its entries. -/
theorem entries_injective (h : aliases.entries = others.entries) : aliases = others := by
  cases aliases
  cases others
  cases h
  rfl

/-- The definition with which the expansion of a name goes on. A reserved name is a view and has
none, whatever the table holds under it. -/
def target? (aliases : AliasTable) (name : Name) : Option Expr :=
  if name.isReserved then none else aliases.reference? name

theorem target?_eq_some_iff : aliases.target? name = some definition ↔
    ¬ name.isReserved ∧ aliases.reference? name = some definition := by
  unfold target?
  split <;> simp_all

theorem target?_eq_none_iff :
    aliases.target? name = none ↔ name.isReserved ∨ aliases.reference? name = none := by
  unfold target?
  split <;> simp_all

theorem reference?_eq_some_iff : aliases.reference? name = some definition ↔
    aliases.get? name = some definition ∧ definition.asName? ≠ some name := by
  rw [reference?, Option.filter_eq_some_iff, bne_iff_ne]

theorem reference?_congr (h : aliases.get? name = others.get? name) :
    aliases.reference? name = others.reference? name := by
  rw [reference?, reference?, h]

theorem target?_congr (h : aliases.reference? name = others.reference? name) :
    aliases.target? name = others.target? name := by
  rw [target?, target?, h]

/-- Defining an alias leaves the others as they are. -/
theorem get?_insert_of_ne (aliases : AliasTable) (definition : Expr) {other : Name}
    (h : other ≠ name) : (aliases.insert name definition).get? other = aliases.get? other := by
  show (Entries.put name definition aliases.entries).lookup other = _
  rw [Entries.put, Entries.lookup_insertWith, if_neg h, get?]

/-- The definition of a name that is expanded stands in the table. -/
theorem mem_entries_of_target? (h : aliases.target? name = some definition) :
    (name, definition) ∈ aliases.entries := by
  obtain ⟨_, hreference⟩ := target?_eq_some_iff.mp h
  exact Entries.mem_of_lookup (reference?_eq_some_iff.mp hreference).1

/-- A name that is expanded is the name of an alias. -/
theorem mem_names_of_target? (h : aliases.target? name = some definition) :
    name ∈ aliases.names :=
  List.mem_map_of_mem (mem_entries_of_target? h)

/-- Whether a list may be the stack of an expansion: it holds only names that are expanded, each of
them once. -/
structure IsStack (aliases : AliasTable) (stack : List Name) : Prop where
  nodup : stack.Nodup
  expanded : ∀ name ∈ stack, ∃ definition, aliases.target? name = some definition

theorem isStack_nil : aliases.IsStack [] :=
  ⟨List.nodup_nil, fun _ hmem => absurd hmem List.not_mem_nil⟩

theorem IsStack.push {stack : List Name} (h : aliases.IsStack stack)
    (htarget : aliases.target? name = some definition) (hstack : name ∉ stack) :
    aliases.IsStack (stack ++ [name]) := by
  constructor
  · rw [← List.concat_eq_append]
    exact List.Nodup.concat hstack h.nodup
  · refine List.forall_mem_append.mpr ⟨h.expanded, List.forall_mem_singleton.mpr ?_⟩
    exact ⟨definition, htarget⟩

/-- A stack is no longer than the table. -/
theorem IsStack.length_le {stack : List Name} (h : aliases.IsStack stack) :
    stack.length ≤ aliases.size := by
  have hsubset : stack ⊆ aliases.names := by
    intro name hmem
    obtain ⟨_, htarget⟩ := h.expanded name hmem
    exact mem_names_of_target? htarget
  have hle := (List.subperm_of_subset h.nodup hsubset).length_le
  rwa [names, Entries.keys, List.length_map] at hle

/-- Whether names are expanded to expressions that ask for the same. -/
def Alike (aliases others : AliasTable) : Prop :=
  ∀ name, Option.Rel Expr.Alike (aliases.target? name) (others.target? name)

theorem Alike.refl (aliases : AliasTable) : aliases.Alike aliases := by
  intro name
  cases aliases.target? name with
  | none => exact .none
  | some definition => exact .some (.refl definition)

theorem Alike.symm (h : aliases.Alike others) : others.Alike aliases := by
  intro name
  have hname := h name
  generalize aliases.target? name = here, others.target? name = there at hname ⊢
  cases hname with
  | none => exact .none
  | some hdefinition => exact .some hdefinition.symm

theorem Alike.exists_target? (h : aliases.Alike others)
    (hdefinition : aliases.target? name = some definition) :
    ∃ other, others.target? name = some other ∧ definition.Alike other := by
  have hname := h name
  rw [hdefinition] at hname
  generalize others.target? name = there at hname ⊢
  cases hname with
  | some halike => exact ⟨_, rfl, halike⟩

theorem Alike.target?_eq_none (h : aliases.Alike others) (hnone : aliases.target? name = none) :
    others.target? name = none := by
  have hname := h name
  rw [hnone] at hname
  generalize others.target? name = there at hname ⊢
  cases hname
  rfl

/-- Whether no definition of a table repeats a key. -/
def DistinctDefinitions (aliases : AliasTable) : Prop :=
  ∀ entry ∈ aliases.entries, entry.2.Distinct

theorem perm_names_of_same (h : aliases.same others) : aliases.names.Perm others.names := by
  obtain ⟨hsize, hentries⟩ := Bool.and_eq_true_iff.mp h
  exact Expr.perm_keys_of_sameEntries aliases.distinct (beq_iff_eq.mp hsize) hentries

/-- Tables that are equal up to order are alike, if no definition repeats a key. -/
theorem alike_of_same (hdistinct : aliases.DistinctDefinitions)
    (h : aliases.same others) : aliases.Alike others := by
  have hentries := (Bool.and_eq_true_iff.mp h).2
  have hget : ∀ name, Option.Rel Expr.Alike (aliases.get? name) (others.get? name) := by
    intro name
    cases hname : aliases.get? name with
    | none =>
        have hnot : name ∉ others.names :=
          (perm_names_of_same h).mem_iff.not.mp (Entries.lookup_eq_none_iff.mp hname)
        rw [get?, Entries.lookup_eq_none_iff.mpr hnot]
        exact .none
    | some definition =>
        have hmem := Entries.mem_of_lookup hname
        obtain ⟨other, hother, hsame⟩ := Expr.sameEntries_iff.mp hentries _ hmem
        rw [get?, hother]
        exact .some (Expr.alike_of_same (hdistinct _ hmem) hsame)
  intro name
  unfold target? reference?
  split
  · exact .none
  · have hname := hget name
    generalize aliases.get? name = here, others.get? name = there at hname ⊢
    cases hname with
    | none => exact .none
    | some halike =>
        simp only [Option.filter, halike.asName?_eq]
        split
        · exact .some halike
        · exact .none

end FieldSelection.AliasTable
