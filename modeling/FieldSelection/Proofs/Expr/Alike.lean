import FieldSelection.Proofs.Entries
import FieldSelection.Proofs.Normalization

/-!
# Expressions that ask for the same

`Expr.Alike` relates expressions that differ in nothing but the arrangement and repetition of what
they list. Such expressions mention the same names (`Alike.mentions_iff`) and normalize to the same
selection (`Alike.selects_normalize_iff`). Expressions that are equal up to the order of entries are
alike (`alike_of_same`), and `AliasTable.alike_of_same` says the same of tables. Both need that no
selection repeats a key, as is the case for every expression read from a text (`distinct_of_parse`).
-/

namespace FieldSelection

namespace Expr

variable {a b : Expr} {name : Name} {items others : List Expr}
  {entries otherEntries : List (Name × Expr)}

theorem mentions_list : (list items).mentions name ↔ ∃ item ∈ items, item.mentions name := by
  rw [mentions]
  induction items with
  | nil => simp [mentionsAny]
  | cons item rest ih =>
      rw [mentionsAny, Bool.or_eq_true, ih]
      simp

theorem mentions_selection : (selection entries).mentions name ↔ name ∈ Entries.keys entries := by
  rw [mentions, Entries.contains_iff]

/-- `Alike a b` says that two expressions differ at most in how the items of their lists and the
entries of their selections are arranged and repeated: every member of either one has its
counterpart in the other. -/
inductive Alike : Expr → Expr → Prop where
  | empty : Alike .empty .empty
  | name (name : Name) : Alike (.name name) (.name name)
  | list {items others : List Expr} (there back : Expr → Expr) :
      (∀ item ∈ items, there item ∈ others) → (∀ item ∈ items, Alike item (there item)) →
      (∀ other ∈ others, back other ∈ items) → (∀ other ∈ others, Alike (back other) other) →
      Alike (.list items) (.list others)
  | selection {entries others : List (Name × Expr)} (there back : Name × Expr → Expr) :
      (∀ entry ∈ entries, (entry.1, there entry) ∈ others) →
      (∀ entry ∈ entries, Alike entry.2 (there entry)) →
      (∀ other ∈ others, (other.1, back other) ∈ entries) →
      (∀ other ∈ others, Alike (back other) other.2) →
      Alike (.selection entries) (.selection others)

theorem Alike.of_items (hthere : ∀ item ∈ items, ∃ other ∈ others, Alike item other)
    (hback : ∀ other ∈ others, ∃ item ∈ items, Alike item other) :
    Alike (.list items) (.list others) := by
  choose! there hthere hitem using hthere
  choose! back hback hother using hback
  exact .list there back hthere hitem hback hother

theorem Alike.of_entries
    (hthere : ∀ entry ∈ entries, ∃ value, (entry.1, value) ∈ otherEntries ∧ Alike entry.2 value)
    (hback : ∀ other ∈ otherEntries, ∃ value, (other.1, value) ∈ entries ∧ Alike value other.2) :
    Alike (.selection entries) (.selection otherEntries) := by
  choose! there hthere hentry using hthere
  choose! back hback hother using hback
  exact .selection there back hthere hentry hback hother

@[refl]
theorem Alike.refl (expr : Expr) : Alike expr expr := by
  induction expr using induct with
  | empty => exact .empty
  | name n => exact .name n
  | list items ih =>
      exact .of_items (fun item hmem => ⟨item, hmem, ih item hmem⟩)
        fun item hmem => ⟨item, hmem, ih item hmem⟩
  | selection entries ih =>
      exact .of_entries (fun entry hmem => ⟨entry.2, hmem, ih entry hmem⟩)
        fun entry hmem => ⟨entry.2, hmem, ih entry hmem⟩

theorem Alike.symm (h : Alike a b) : Alike b a := by
  induction h with
  | empty => exact .empty
  | name n => exact .name n
  | list there back hthere _ hback _ ihThere ihBack =>
      exact .list back there hback ihBack hthere ihThere
  | selection there back hthere _ hback _ ihThere ihBack =>
      exact .selection back there hback ihBack hthere ihThere

@[trans]
theorem Alike.trans {c : Expr} (h : Alike a b) (hnext : Alike b c) : Alike a c := by
  induction h generalizing c with
  | empty | name => exact hnext
  | list there back hthere _ hback _ ihThere ihBack =>
      cases hnext with
      | list further before hfurther hitem hbefore hother =>
          refine .of_items (fun item hmem => ?_) fun other hmem => ?_
          · have hlast := hfurther _ (hthere item hmem)
            exact ⟨_, hlast, ihThere item hmem (hitem _ (hthere item hmem))⟩
          · have hfirst := hback _ (hbefore other hmem)
            exact ⟨_, hfirst, ihBack _ (hbefore other hmem) (hother other hmem)⟩
  | selection there back hthere _ hback _ ihThere ihBack =>
      cases hnext with
      | selection further before hfurther hentry hbefore hother =>
          refine .of_entries (fun entry hmem => ?_) fun other hmem => ?_
          · have hlast := hfurther _ (hthere entry hmem)
            exact ⟨_, hlast, ihThere entry hmem (hentry _ (hthere entry hmem))⟩
          · have hfirst := hback _ (hbefore other hmem)
            exact ⟨_, hfirst, ihBack _ (hbefore other hmem) (hother other hmem)⟩

/-- Expressions that are alike are the same name, or neither is a name. -/
theorem Alike.asName?_eq (h : Alike a b) : a.asName? = b.asName? := by
  cases h <;> rfl

theorem Alike.mentions_of_mentions (h : Alike a b) (hname : a.mentions name) :
    b.mentions name := by
  induction h with
  | empty | name => exact hname
  | list there _ hthere _ _ _ ih _ =>
      obtain ⟨item, hmem, hitem⟩ := mentions_list.mp hname
      exact mentions_list.mpr ⟨there item, hthere item hmem, ih item hmem hitem⟩
  | selection there _ hthere _ _ _ _ _ =>
      obtain ⟨entry, hmem, rfl⟩ := List.mem_map.mp (mentions_selection.mp hname)
      exact mentions_selection.mpr (List.mem_map.mpr ⟨_, hthere entry hmem, rfl⟩)

/-- Expressions that are alike mention the same names. -/
theorem Alike.mentions_iff (h : Alike a b) : a.mentions name ↔ b.mentions name :=
  ⟨h.mentions_of_mentions, h.symm.mentions_of_mentions⟩

theorem Alike.selects_normalize (h : Alike a b) {path : List Name}
    (hpath : a.normalize.Selects path) : b.normalize.Selects path := by
  induction h generalizing path with
  | empty | name => exact hpath
  | list there _ hthere _ _ _ ih _ =>
      cases path with
      | nil => simp
      | cons first path =>
          obtain ⟨item, hmem, hitem⟩ := selects_normalize_list.mp hpath
          exact selects_normalize_list.mpr ⟨there item, hthere item hmem, ih item hmem hitem⟩
  | selection there _ hthere _ _ _ ih _ =>
      cases path with
      | nil => simp
      | cons first path =>
          obtain ⟨value, hmem, hvalue⟩ := selects_normalize_selection.mp hpath
          exact selects_normalize_selection.mpr ⟨_, hthere _ hmem, ih _ hmem hvalue⟩

/-- Expressions that are alike normalize to the same selection. -/
theorem Alike.selects_normalize_iff (h : Alike a b) {path : List Name} :
    a.normalize.Selects path ↔ b.normalize.Selects path :=
  ⟨h.selects_normalize, h.symm.selects_normalize⟩

/-! ## Equality up to the order of entries -/

/-- Each member of two lists that agree item by item has its like in the other. -/
theorem exists_same_of_sameItems (h : sameItems items others) :
    (∀ item ∈ items, ∃ other ∈ others, item.same other) ∧
      ∀ other ∈ others, ∃ item ∈ items, item.same other := by
  induction items generalizing others with
  | nil =>
      cases others with
      | nil => exact ⟨nofun, nofun⟩
      | cons => cases h
  | cons item rest ih =>
      cases others with
      | nil => cases h
      | cons other more =>
          obtain ⟨hsame, hrest⟩ := Bool.and_eq_true_iff.mp h
          obtain ⟨hthere, hback⟩ := ih hrest
          simp only [List.forall_mem_cons, List.exists_mem_cons_iff]
          exact ⟨⟨Or.inl hsame, fun item hmem => Or.inr (hthere item hmem)⟩,
            Or.inl hsame, fun other hmem => Or.inr (hback other hmem)⟩

theorem sameEntries_iff : sameEntries entries otherEntries ↔
    ∀ entry ∈ entries, ∃ value, otherEntries.lookup entry.1 = some value ∧ entry.2.same value := by
  induction entries with
  | nil => simp [sameEntries]
  | cons entry rest ih =>
      rw [sameEntries, Bool.and_eq_true, ih, List.forall_mem_cons]
      refine and_congr_left' ?_
      cases otherEntries.lookup entry.1 <;> simp

/-- If all entries under distinct keys have their like among as many others, then those have no
other keys. -/
theorem perm_keys_of_sameEntries (hdistinct : (Entries.keys entries).Nodup)
    (hlength : entries.length = otherEntries.length)
    (h : sameEntries entries otherEntries) :
    (Entries.keys entries).Perm (Entries.keys otherEntries) := by
  have hsubset : Entries.keys entries ⊆ Entries.keys otherEntries := by
    intro key hkey
    obtain ⟨entry, hmem, rfl⟩ := List.mem_map.mp hkey
    obtain ⟨value, hvalue, _⟩ := sameEntries_iff.mp h entry hmem
    exact Entries.exists_lookup_eq_some_iff.mp ⟨value, hvalue⟩
  refine (List.subperm_of_subset hdistinct hsubset).perm_of_length_le ?_
  simp [Entries.keys, hlength]

/-- Then each of the others has its like as well. -/
theorem exists_same_of_sameEntries (hdistinct : (Entries.keys entries).Nodup)
    (hlength : entries.length = otherEntries.length) (h : sameEntries entries otherEntries)
    {other : Name × Expr} (hmem : other ∈ otherEntries) :
    ∃ value, (other.1, value) ∈ entries ∧ value.same other.2 := by
  have hkeys := perm_keys_of_sameEntries hdistinct hlength h
  have hkey : other.1 ∈ Entries.keys entries := hkeys.mem_iff.mpr (List.mem_map.mpr ⟨_, hmem, rfl⟩)
  obtain ⟨⟨key, value⟩, hentry, rfl⟩ := List.mem_map.mp hkey
  obtain ⟨found, hfound, hsame⟩ := sameEntries_iff.mp h _ hentry
  obtain rfl : other.2 = found := by
    have hlookup := (Entries.lookup_eq_some_iff (hkeys.nodup_iff.mp hdistinct)).mpr hmem
    exact Option.some.inj (hlookup.symm.trans hfound)
  exact ⟨value, hentry, hsame⟩

/-- Expressions that are equal up to the order of entries are alike, if no selection repeats a
key. -/
theorem alike_of_same (hdistinct : a.Distinct) (h : a.same b) : a.Alike b := by
  induction a using induct generalizing b with
  | empty =>
      cases b with
      | empty => exact .empty
      | _ => cases h
  | name n =>
      cases b with
      | name m =>
          obtain rfl := beq_iff_eq.mp h
          exact .name n
      | _ => cases h
  | list items ih =>
      cases b with
      | list others =>
          have hdistinct := distinctItems_iff.mp hdistinct
          obtain ⟨hthere, hback⟩ := exists_same_of_sameItems h
          refine .of_items (fun item hmem => ?_) fun other hmem => ?_
          · obtain ⟨other, hother, hsame⟩ := hthere item hmem
            exact ⟨other, hother, ih item hmem (hdistinct item hmem) hsame⟩
          · obtain ⟨item, hitem, hsame⟩ := hback other hmem
            exact ⟨item, hitem, ih item hitem (hdistinct item hitem) hsame⟩
      | _ => cases h
  | selection entries ih =>
      cases b with
      | selection others =>
          obtain ⟨hkeys, hvalues⟩ := hdistinct
          have hvalues := distinctEntries_iff.mp hvalues
          obtain ⟨hlength, hentries⟩ := Bool.and_eq_true_iff.mp h
          refine .of_entries (fun entry hmem => ?_) fun other hmem => ?_
          · obtain ⟨value, hvalue, hsame⟩ := sameEntries_iff.mp hentries entry hmem
            exact ⟨value, Entries.mem_of_lookup hvalue, ih entry hmem (hvalues entry hmem) hsame⟩
          · obtain ⟨value, hvalue, hsame⟩ :=
              exists_same_of_sameEntries hkeys (beq_iff_eq.mp hlength) hentries hmem
            exact ⟨value, hvalue, ih _ hvalue (hvalues _ hvalue) hsame⟩
      | _ => cases h

end Expr

end FieldSelection
