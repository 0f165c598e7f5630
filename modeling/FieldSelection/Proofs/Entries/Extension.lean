import FieldSelection.Proofs.Entries
import Mathlib.Data.List.Nodup

/-!
# What an extension holds

Entries that repeat no key are known by their keys, in order, and by what is found under each
(`ext_lookup`). An extension has the keys that were there, in their places, and behind them the new
ones in the order in which they occur first (`keys_extend_eq`). Under a key stands the last value
that was put there (`lookup_extend`). Entries made of pairs hold, in the place of the first pair
with a key, the value of the last one (`map_snd_ofList`).
-/

namespace FieldSelection

/-- A list without repetitions is kept as it is. -/
theorem eraseDups_of_nodup {α : Type} [DecidableEq α] {as : List α} (h : as.Nodup) :
    as.eraseDups = as := by
  induction as with
  | nil => rfl
  | cons a rest ih =>
      obtain ⟨ha, hrest⟩ := List.nodup_cons.mp h
      have hfilter : rest.filter (fun b => !b == a) = rest := by
        refine List.filter_eq_self.mpr fun b hb => ?_
        have hne : b ≠ a := fun heq => ha (heq ▸ hb)
        simpa using hne
      rw [List.eraseDups_cons, hfilter, ih hrest]

namespace Entries

variable {κ α β : Type} [DecidableEq κ] {entries others more : List (κ × α)} {key : κ}

/-! ## Lookups -/

theorem lookup_put (key other : κ) (value : α) (entries : List (κ × α)) :
    (put key value entries).lookup other =
      if other = key then some value else entries.lookup other := by
  rw [put, lookup_insertWith]
  cases entries.lookup key <;> rfl

theorem lookup_map (f : α → β) (entries : List (κ × α)) (key : κ) :
    (entries.map fun entry => (entry.1, f entry.2)).lookup key = (entries.lookup key).map f := by
  induction entries with
  | nil => rfl
  | cons entry rest ih =>
      rw [List.map_cons, List.lookup_cons, List.lookup_cons, ih]
      cases key == entry.1 <;> rfl

/-- Without repeated keys it does not matter from which end a key is looked up. -/
theorem lookup_reverse (h : (keys entries).Nodup) :
    entries.reverse.lookup key = entries.lookup key := by
  have hreverse : (keys entries.reverse).Nodup := by
    rw [keys, List.map_reverse, List.nodup_reverse]
    exact h
  refine Option.ext fun value => ?_
  rw [lookup_eq_some_iff hreverse, lookup_eq_some_iff h, List.mem_reverse]

/-- Under a key stands the last value put there, or else what was there before. -/
theorem lookup_extend (entries more : List (κ × α)) (key : κ) :
    (extend entries more).lookup key = (more.reverse.lookup key).or (entries.lookup key) := by
  induction more generalizing entries with
  | nil => rfl
  | cons pair rest ih =>
      have hput : (put pair.1 pair.2 entries).lookup key =
          (List.lookup key [pair]).or (entries.lookup key) := by
        rw [lookup_put, List.lookup_cons]
        by_cases h : key = pair.1
        · simp [h]
        · have hb : (key == pair.1) = false := by simpa using h
          simp [h, hb]
      rw [extend, List.foldl_cons, ← extend, ih, hput, List.reverse_cons, List.lookup_append,
        Option.or_assoc]

/-- Entries that repeat no key are the same if their keys are, in order, and what is found under
each. -/
theorem ext_lookup (h : (keys entries).Nodup) (hkeys : keys entries = keys others)
    (hlookup : ∀ key, entries.lookup key = others.lookup key) : entries = others := by
  induction entries generalizing others with
  | nil => exact (List.map_eq_nil_iff.mp hkeys.symm).symm
  | cons entry rest ih =>
      obtain ⟨k, value⟩ := entry
      obtain ⟨hkey, hrest⟩ := List.nodup_cons.mp h
      cases others with
      | nil => cases hkeys
      | cons other more =>
          obtain ⟨k', value'⟩ := other
          obtain ⟨rfl, hmore⟩ := List.cons.inj hkeys
          have hvalue : value = value' := by simpa using hlookup k
          -- The first key is not met again, so that a lookup of another key goes past it.
          have hpast : ∀ key, rest.lookup key = more.lookup key := by
            intro key
            by_cases hk : key = k
            · subst hk
              have hnot : key ∉ keys more := fun hmem => hkey (by rwa [hmore])
              rw [lookup_eq_none_iff.mpr hkey, lookup_eq_none_iff.mpr hnot]
            · have hb : (key == k) = false := by simpa using hk
              simpa [List.lookup_cons, hb] using hlookup key
          rw [hvalue, ih hrest hmore hpast]

/-! ## Keys -/

/-- The keys that were there stay in their places, and the new ones follow in the order in which
they occur first. -/
theorem keys_extend_eq (entries more : List (κ × α)) :
    keys (extend entries more) =
      keys entries ++ ((keys more).filter (· ∉ keys entries)).eraseDups := by
  induction more generalizing entries with
  | nil => exact (List.append_nil _).symm
  | cons pair rest ih =>
      have hcons : keys (pair :: rest) = pair.1 :: keys rest := rfl
      rw [extend, List.foldl_cons, ← extend, ih, put, keys_insertWith, hcons]
      by_cases h : pair.1 ∈ keys entries
      · rw [if_pos h, List.filter_cons_of_neg (by simpa using h)]
      · -- From now on the appended key is among those that are there.
        have hfilter : (keys rest).filter (· ∉ keys entries ++ [pair.1]) =
            ((keys rest).filter (· ∉ keys entries)).filter fun key => !key == pair.1 := by
          rw [List.filter_filter]
          refine List.filter_congr fun key _ => ?_
          simp [not_or, Bool.and_comm, beq_eq_decide]
        rw [if_neg h, List.filter_cons_of_pos (by simpa using h), List.eraseDups_cons, hfilter,
          List.append_assoc, List.singleton_append]

theorem keys_extend_of_nodup (entries : List (κ × α)) (h : (keys more).Nodup) :
    keys (extend entries more) = keys entries ++ (keys more).filter (· ∉ keys entries) := by
  rw [keys_extend_eq, eraseDups_of_nodup (h.filter _)]

theorem keys_ofList (pairs : List (κ × α)) : keys (ofList pairs) = (keys pairs).eraseDups := by
  rw [ofList, keys_extend_eq]
  simp [keys]

/-! ## Values -/

/-- The values that are left when a repeated key keeps its first place and its last value. -/
def lastValues (entries : List (κ × α)) : List α :=
  (keys entries).eraseDups.filterMap fun key => entries.reverse.lookup key

theorem lastValues_map (f : α → β) (entries : List (κ × α)) :
    lastValues (entries.map fun entry => (entry.1, f entry.2)) = (lastValues entries).map f := by
  have hkeys : keys (entries.map fun entry => (entry.1, f entry.2)) = keys entries := by
    rw [keys, keys, List.map_map]
    rfl
  rw [lastValues, lastValues, hkeys, List.map_filterMap]
  refine List.filterMap_congr fun key _ => ?_
  rw [← List.map_reverse, lookup_map]

theorem map_snd_of_nodup (h : (keys entries).Nodup) :
    entries.map Prod.snd = (keys entries).filterMap fun key => entries.lookup key := by
  rw [keys, List.filterMap_map, ← List.filterMap_eq_map]
  refine List.filterMap_congr fun entry hmem => ?_
  exact ((lookup_eq_some_iff h).mpr hmem).symm

/-- The entries made of some pairs hold, for every key, its last value in its first place. -/
theorem map_snd_ofList (pairs : List (κ × α)) : (ofList pairs).map Prod.snd = lastValues pairs := by
  rw [map_snd_of_nodup (nodup_ofList pairs), keys_ofList, lastValues]
  refine List.filterMap_congr fun key _ => ?_
  rw [ofList, lookup_extend]
  exact Option.or_none

/-! ## Entries that correspond -/

variable {ℓ γ : Type} [DecidableEq ℓ] {f : κ → ℓ} {r : α → γ → Prop}

/-- Entries that correspond one by one, with keys that are translated and values that are related,
still do after corresponding writes. -/
theorem forall₂_put (hf : f.Injective) {counterparts : List (ℓ × γ)}
    (h : List.Forall₂ (fun a b => f a.1 = b.1 ∧ r a.2 b.2) entries counterparts) (key : κ)
    {value : α} {counterpart : γ} (hvalue : r value counterpart) :
    List.Forall₂ (fun a b => f a.1 = b.1 ∧ r a.2 b.2) (put key value entries)
      (put (f key) counterpart counterparts) := by
  induction h with
  | nil => exact .cons ⟨rfl, hvalue⟩ .nil
  | @cons entry other rest others hentry hrest ih =>
      obtain ⟨hkey, hold⟩ := hentry
      by_cases hk : entry.1 = key
      · have hother : other.1 = f key := by rw [← hkey, hk]
        rw [put, insertWith, if_pos hk, put, insertWith, if_pos hother]
        exact .cons ⟨hkey, hvalue⟩ hrest
      · have hother : other.1 ≠ f key := fun heq => hk (hf (hkey.trans heq))
        rw [put, insertWith, if_neg hk, put, insertWith, if_neg hother]
        exact .cons ⟨hkey, hold⟩ ih

theorem forall₂_extend (hf : f.Injective) {counterparts added : List (ℓ × γ)}
    (hentries : List.Forall₂ (fun a b => f a.1 = b.1 ∧ r a.2 b.2) entries counterparts)
    (hmore : List.Forall₂ (fun a b => f a.1 = b.1 ∧ r a.2 b.2) more added) :
    List.Forall₂ (fun a b => f a.1 = b.1 ∧ r a.2 b.2) (extend entries more)
      (extend counterparts added) := by
  induction hmore generalizing entries counterparts with
  | nil => exact hentries
  | @cons pair other rest others hpair _ ih =>
      obtain ⟨hkey, hvalue⟩ := hpair
      have hput := forall₂_put hf hentries pair.1 hvalue
      rw [hkey] at hput
      exact ih hput

theorem forall₂_ofList (hf : f.Injective) {pairs : List (κ × α)} {counterparts : List (ℓ × γ)}
    (h : List.Forall₂ (fun a b => f a.1 = b.1 ∧ r a.2 b.2) pairs counterparts) :
    List.Forall₂ (fun a b => f a.1 = b.1 ∧ r a.2 b.2) (ofList pairs) (ofList counterparts) :=
  forall₂_extend hf .nil h

end Entries

end FieldSelection
