import FieldSelection.Entries
import Mathlib.Data.List.Forall2

/-!
# Entries under distinct keys

Where no key is repeated, a lookup finds exactly the entries there are (`lookup_eq_some_iff`).
`mem_of_mem_extend` says where the entries of an extension come from, and `keys_extend` that
extending by keys which are all there already leaves the keys as they were. The file starts with the
members of two lists that are related member by member.
-/

namespace FieldSelection

section Forall₂

variable {α β : Type}

theorem exists_right_of_forall₂ {r : α → β → Prop} {as : List α} {bs : List β} {a : α}
    (h : List.Forall₂ r as bs) (hmem : a ∈ as) : ∃ b ∈ bs, r a b := by
  induction h with
  | nil => cases hmem
  | cons hab _ ih =>
      rcases List.mem_cons.mp hmem with rfl | hmem
      · exact ⟨_, List.mem_cons_self, hab⟩
      · obtain ⟨b, hb, hab⟩ := ih hmem
        exact ⟨b, List.mem_cons_of_mem _ hb, hab⟩

theorem exists_left_of_forall₂ {r : α → β → Prop} {as : List α} {bs : List β} {b : β}
    (h : List.Forall₂ r as bs) (hmem : b ∈ bs) : ∃ a ∈ as, r a b :=
  exists_right_of_forall₂ (r := flip r) h.flip hmem

theorem exists_forall₂ {r : α → β → Prop} {as : List α} (h : ∀ a ∈ as, ∃ b, r a b) :
    ∃ bs, List.Forall₂ r as bs := by
  induction as with
  | nil => exact ⟨[], .nil⟩
  | cons a rest ih =>
      obtain ⟨hfirst, hrest⟩ := List.forall_mem_cons.mp h
      obtain ⟨b, hb⟩ := hfirst
      obtain ⟨bs, hbs⟩ := ih hrest
      exact ⟨b :: bs, .cons hb hbs⟩

/-- Lists that differ in one place are related member by member, if the members there are. -/
theorem forall₂_replaced {r : α → α → Prop} (hrefl : ∀ a, r a a) {a other : α} (h : r a other)
    (before after : List α) : List.Forall₂ r (before ++ a :: after) (before ++ other :: after) := by
  induction before with
  | nil => exact .cons h (List.forall₂_same.mpr fun b _ => hrefl b)
  | cons b rest ih => exact .cons (hrefl b) ih

end Forall₂

namespace Entries

variable {κ α : Type} [DecidableEq κ] {entries more : List (κ × α)} {key : κ} {value : α}

theorem lookup_eq_none_iff : entries.lookup key = none ↔ key ∉ keys entries := by
  rw [List.lookup_eq_none_iff]
  constructor
  · intro h hmem
    obtain ⟨entry, hentry, rfl⟩ := List.mem_map.mp hmem
    simpa using h entry hentry
  · intro h entry hentry
    rw [bne_iff_ne]
    rintro rfl
    exact h (List.mem_map.mpr ⟨entry, hentry, rfl⟩)

theorem exists_lookup_eq_some_iff :
    (∃ value, entries.lookup key = some value) ↔ key ∈ keys entries := by
  rw [← Option.ne_none_iff_exists', Ne, lookup_eq_none_iff, Classical.not_not]

theorem contains_iff : contains key entries ↔ key ∈ keys entries := by
  rw [contains, Option.isSome_iff_exists, exists_lookup_eq_some_iff]

theorem mem_of_lookup (h : entries.lookup key = some value) : (key, value) ∈ entries := by
  obtain ⟨before, after, rfl, _⟩ := List.lookup_eq_some_iff.mp h
  exact List.mem_append_right _ List.mem_cons_self

theorem lookup_eq_some_iff (h : (keys entries).Nodup) :
    entries.lookup key = some value ↔ (key, value) ∈ entries := by
  induction entries with
  | nil => simp
  | cons entry rest ih =>
      obtain ⟨k, old⟩ := entry
      obtain ⟨hkey, hrest⟩ := List.nodup_cons.mp h
      by_cases hk : key = k
      · subst hk
        have hnot : (key, value) ∉ rest := fun hmem => hkey (List.mem_map.mpr ⟨_, hmem, rfl⟩)
        simp [hnot, eq_comm]
      · have hb : (key == k) = false := by simpa using hk
        simp [List.lookup_cons, hb, hk, ih hrest]

theorem mem_keys_put {other : κ} : other ∈ keys (put key value entries) ↔
    other = key ∨ other ∈ keys entries := by
  rw [put, keys_insertWith]
  split
  · next hmem => exact ⟨Or.inr, fun h => h.elim (fun heq => heq ▸ hmem) id⟩
  · rw [List.mem_append, List.mem_singleton, or_comm]

/-- The keys of an extension are those of its two parts. -/
theorem mem_keys_extend : key ∈ keys (extend entries more) ↔
    key ∈ keys entries ∨ key ∈ keys more := by
  induction more generalizing entries with
  | nil => exact (or_iff_left List.not_mem_nil).symm
  | cons pair rest ih =>
      calc key ∈ keys (extend (put pair.1 pair.2 entries) rest)
          ↔ (key = pair.1 ∨ key ∈ keys entries) ∨ key ∈ keys rest := by rw [ih, mem_keys_put]
        _ ↔ key ∈ keys entries ∨ key = pair.1 ∨ key ∈ keys rest := by
            rw [or_comm (a := key = _), or_assoc]
        _ ↔ key ∈ keys entries ∨ key ∈ keys (pair :: rest) := by rw [← List.mem_cons]; rfl

/-- Extending by keys that are all there already leaves the keys as they are. -/
theorem keys_extend (h : keys more ⊆ keys entries) :
    keys (extend entries more) = keys entries := by
  induction more generalizing entries with
  | nil => rfl
  | cons pair rest ih =>
      obtain ⟨hpair, hrest⟩ := List.cons_subset.mp h
      have hkeys : keys (put pair.1 pair.2 entries) = keys entries := by
        rw [put, keys_insertWith, if_pos hpair]
      rw [extend, List.foldl_cons, ← extend, ih (hkeys ▸ hrest), hkeys]

/-- An entry after a write is the one written, or it was there before under another key. -/
theorem mem_of_mem_put {entry : κ × α} (h : (keys entries).Nodup)
    (hmem : entry ∈ put key value entries) :
    entry = (key, value) ∨ entry ∈ entries ∧ entry.1 ≠ key := by
  induction entries with
  | nil => exact Or.inl (List.mem_singleton.mp hmem)
  | cons pair rest ih =>
      obtain ⟨hpair, hrest⟩ := List.nodup_cons.mp h
      by_cases hk : pair.1 = key
      · rw [put, insertWith, if_pos hk] at hmem
        rcases List.mem_cons.mp hmem with rfl | hmem
        · exact Or.inl (by rw [hk])
        · refine Or.inr ⟨List.mem_cons_of_mem _ hmem, fun heq => hpair ?_⟩
          exact hk.trans heq.symm ▸ List.mem_map.mpr ⟨_, hmem, rfl⟩
      · rw [put, insertWith, if_neg hk] at hmem
        rcases List.mem_cons.mp hmem with rfl | hmem
        · exact Or.inr ⟨List.mem_cons_self, hk⟩
        · rcases ih hrest hmem with heq | ⟨hold, hne⟩
          · exact Or.inl heq
          · exact Or.inr ⟨List.mem_cons_of_mem _ hold, hne⟩

/-- An entry of an extension is one of the pairs put, or it was there before and none of the pairs
has its key. -/
theorem mem_of_mem_extend {entry : κ × α} (h : (keys entries).Nodup)
    (hmem : entry ∈ extend entries more) :
    entry ∈ more ∨ entry ∈ entries ∧ entry.1 ∉ keys more := by
  induction more generalizing entries with
  | nil => exact Or.inr ⟨hmem, List.not_mem_nil⟩
  | cons pair rest ih =>
      rcases ih (nodup_insertWith h) hmem with hnew | ⟨hput, hrest⟩
      · exact Or.inl (List.mem_cons_of_mem _ hnew)
      · rcases mem_of_mem_put h hput with rfl | ⟨hold, hne⟩
        · exact Or.inl List.mem_cons_self
        · exact Or.inr ⟨hold, fun h => (List.mem_cons.mp h).elim hne hrest⟩

end Entries

end FieldSelection
