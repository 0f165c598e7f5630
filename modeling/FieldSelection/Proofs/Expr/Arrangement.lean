import FieldSelection.Proofs.Expr.Completion

/-!
# Arranging what an expression lists

`Expr.Rearranged` is the least congruence under which the order of the items of a list, the
repetition of an item and the order of the entries of a selection do not matter, at any depth.
Rearranged expressions are alike (`Rearranged.alike`), and expressions that are alike remain so when
they are completed (`Alike.withDefault`).
-/

namespace FieldSelection.Expr

/-- `Rearranged a b` says that `b` is obtained from `a` by permuting items, by dropping or adding
items that are listed once more, and by reordering entries, anywhere in the expression. -/
inductive Rearranged : Expr → Expr → Prop where
  | refl (expr : Expr) : Rearranged expr expr
  | symm {a b : Expr} : Rearranged a b → Rearranged b a
  | trans {a b c : Expr} : Rearranged a b → Rearranged b c → Rearranged a c
  | permuted {items others : List Expr} :
      items.Perm others → Rearranged (.list items) (.list others)
  | repeated {item : Expr} {items : List Expr} :
      item ∈ items → Rearranged (.list (item :: items)) (.list items)
  | reordered {entries others : List (Name × Expr)} :
      entries.Perm others → Rearranged (.selection entries) (.selection others)
  | item (before after : List Expr) {a b : Expr} :
      Rearranged a b → Rearranged (.list (before ++ a :: after)) (.list (before ++ b :: after))
  | value (before after : List (Name × Expr)) (key : Name) {a b : Expr} :
      Rearranged a b →
      Rearranged (.selection (before ++ (key, a) :: after))
        (.selection (before ++ (key, b) :: after))

variable {a b : Expr}

/-- Lists with the same items are alike. -/
theorem alike_of_mem_iff {items others : List Expr} (h : ∀ item, item ∈ items ↔ item ∈ others) :
    Alike (.list items) (.list others) :=
  .of_items (fun item hmem => ⟨item, (h item).mp hmem, .refl item⟩)
    fun other hmem => ⟨other, (h other).mpr hmem, .refl other⟩

/-- Rearranged expressions are alike. -/
theorem Rearranged.alike (h : a.Rearranged b) : a.Alike b := by
  induction h with
  | refl expr => exact .refl expr
  | symm _ ih => exact ih.symm
  | trans _ _ ih ihNext => exact ih.trans ihNext
  | permuted hperm => exact alike_of_mem_iff fun _ => hperm.mem_iff
  | repeated hmem =>
      refine alike_of_mem_iff fun other => ?_
      rw [List.mem_cons, or_iff_right_of_imp fun heq => heq ▸ hmem]
  | reordered hperm =>
      exact .of_entries (fun entry hmem => ⟨entry.2, hperm.mem_iff.mp hmem, .refl _⟩)
        fun other hmem => ⟨other.2, hperm.mem_iff.mpr hmem, .refl _⟩
  | item before after _ ih =>
      have hitems := forall₂_replaced .refl ih before after
      exact .of_items (fun _ hmem => exists_right_of_forall₂ hitems hmem)
        fun _ hmem => exists_left_of_forall₂ hitems hmem
  | @value before after key a b _ ih =>
      have hentries : List.Forall₂ (fun entry other => entry.1 = other.1 ∧ Alike entry.2 other.2)
          (before ++ (key, a) :: after) (before ++ (key, b) :: after) :=
        forall₂_replaced (fun _ => ⟨rfl, .refl _⟩) ⟨rfl, ih⟩ before after
      refine .of_entries (fun entry hmem => ?_) fun other hmem => ?_
      · obtain ⟨⟨_, value⟩, hvalue, rfl, halike⟩ := exists_right_of_forall₂ hentries hmem
        exact ⟨value, hvalue, halike⟩
      · obtain ⟨⟨_, value⟩, hvalue, rfl, halike⟩ := exists_left_of_forall₂ hentries hmem
        exact ⟨value, hvalue, halike⟩

/-! ## Completion -/

/-- Including a name in expressions that are alike keeps them alike. -/
theorem Alike.including (h : a.Alike b) (name : Name) :
    (a.including name).Alike (b.including name) := by
  cases h with
  | empty | name => exact .refl _
  | @list items others there back hthere hitem hback hother =>
      obtain ⟨more, hmore, hmem⟩ := exists_including_list items name
      obtain ⟨otherMore, hotherMore, hotherMem⟩ := exists_including_list others name
      rw [hmore, hotherMore]
      refine .of_items (fun item hin => ?_) fun other hin => ?_
      · rcases (hmem item).mp hin with hold | rfl
        · exact ⟨_, (hotherMem _).mpr (Or.inl (hthere item hold)), hitem item hold⟩
        · exact ⟨_, (hotherMem _).mpr (Or.inr rfl), .refl _⟩
      · rcases (hotherMem other).mp hin with hold | rfl
        · exact ⟨_, (hmem _).mpr (Or.inl (hback other hold)), hother other hold⟩
        · exact ⟨_, (hmem _).mpr (Or.inr rfl), .refl _⟩
  | @selection entries others there back hthere hentry hback hother =>
      obtain ⟨more, hmore, hmem⟩ := exists_including_selection entries name
      obtain ⟨otherMore, hotherMore, hotherMem⟩ := exists_including_selection others name
      have hkeys : name ∈ Entries.keys entries ↔ name ∈ Entries.keys others := by
        rw [← mentions_selection, ← mentions_selection]
        exact (Alike.selection there back hthere hentry hback hother).mentions_iff
      rw [hmore, hotherMore]
      refine .of_entries (fun entry hin => ?_) fun other hin => ?_
      · rcases (hmem entry).mp hin with hold | ⟨hnew, rfl⟩
        · exact ⟨_, (hotherMem _).mpr (Or.inl (hthere entry hold)), hentry entry hold⟩
        · exact ⟨_, (hotherMem _).mpr (Or.inr ⟨hkeys.not.mp hnew, rfl⟩), .refl _⟩
      · rcases (hotherMem other).mp hin with hold | ⟨hnew, rfl⟩
        · exact ⟨_, (hmem _).mpr (Or.inl (hback other hold)), hother other hold⟩
        · exact ⟨_, (hmem _).mpr (Or.inr ⟨hkeys.not.mpr hnew, rfl⟩), .refl _⟩

/-- Requests that are alike are completed alike. -/
theorem Alike.withDefault (h : a.Alike b) (defaults : Defaults) :
    (a.withDefault defaults).Alike (b.withDefault defaults) := by
  unfold Expr.withDefault
  by_cases hmentions : a.mentions defaults.minimal
  · rwa [if_pos hmentions, if_pos (h.mentions_iff.mp hmentions)]
  · rw [if_neg hmentions, if_neg (h.mentions_iff.not.mp hmentions)]
    exact h.including defaults.default

end FieldSelection.Expr
