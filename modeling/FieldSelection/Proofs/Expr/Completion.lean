import FieldSelection.Defaults
import FieldSelection.Proofs.Expr.Alike

/-!
# What completed requests list

An expression that includes a name lists what it listed before and that name besides, whatever its
shape: `exists_including_name`, `exists_including_list` and `exists_including_selection` give its
members. Only a selection that has the name as a key already keeps it as it is.
-/

namespace FieldSelection.Expr

theorem exists_including_name (n name : Name) :
    ∃ items, (Expr.name n).including name = .list items ∧
      ∀ item, item ∈ items ↔ item = .name n ∨ item = .name name := by
  by_cases h : n = name
  · subst h
    exact ⟨[.name n], if_pos rfl, by simp⟩
  · exact ⟨[.name n, .name name], if_neg h, by simp⟩

theorem exists_including_list (items : List Expr) (name : Name) :
    ∃ others, (list items).including name = .list others ∧
      ∀ item, item ∈ others ↔ item ∈ items ∨ item = .name name := by
  by_cases h : items.any fun item => item.asName? == some name
  · refine ⟨items, if_pos h, fun item => (or_iff_left_of_imp ?_).symm⟩
    rintro rfl
    obtain ⟨found, hmem, hname⟩ := List.any_eq_true.mp h
    cases found with
    | name n =>
        obtain rfl : n = name := by simpa [asName?] using hname
        exact hmem
    | _ => cases hname
  · refine ⟨items ++ [.name name], ?_, by simp⟩
    rw [including, if_neg h]

theorem exists_including_selection (entries : List (Name × Expr)) (name : Name) :
    ∃ others, (selection entries).including name = .selection others ∧
      ∀ entry, entry ∈ others ↔
        entry ∈ entries ∨ name ∉ Entries.keys entries ∧ entry = (name, .empty) := by
  by_cases h : name ∈ Entries.keys entries
  · exact ⟨entries, if_pos (Entries.contains_iff.mpr h), by simp [h]⟩
  · refine ⟨entries ++ [(name, .empty)], ?_, by simp [h]⟩
    rw [including, if_neg (Entries.contains_iff.not.mpr h)]

/-- An expression that includes a name mentions it. -/
theorem mentions_including (expr : Expr) (name : Name) : (expr.including name).mentions name := by
  cases expr with
  | empty => exact beq_self_eq_true name
  | name n =>
      obtain ⟨items, hitems, hmem⟩ := exists_including_name n name
      rw [hitems, mentions_list]
      exact ⟨.name name, (hmem _).mpr (Or.inr rfl), beq_self_eq_true name⟩
  | list items =>
      obtain ⟨others, hothers, hmem⟩ := exists_including_list items name
      rw [hothers, mentions_list]
      exact ⟨.name name, (hmem _).mpr (Or.inr rfl), beq_self_eq_true name⟩
  | selection entries =>
      obtain ⟨others, hothers, hmem⟩ := exists_including_selection entries name
      rw [hothers, mentions_selection]
      by_cases hname : name ∈ Entries.keys entries
      · obtain ⟨entry, hentry, rfl⟩ := List.mem_map.mp hname
        exact List.mem_map.mpr ⟨entry, (hmem _).mpr (Or.inl hentry), rfl⟩
      · exact List.mem_map.mpr ⟨_, (hmem _).mpr (Or.inr ⟨hname, rfl⟩), rfl⟩

end FieldSelection.Expr
