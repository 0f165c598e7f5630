/-!
# Entries in insertion order

A keyed collection that remembers the order in which its keys arrived is kept as a list of pairs.
Every operation here gives a key at most one entry. Writing to a key that is already there keeps
its position, and a new key goes to the end. `keys_insertWith` and `lookup_insertWith` describe the
one writing operation, from which the others are made.
-/

namespace FieldSelection.Entries

variable {κ α : Type} [DecidableEq κ]

/-- The keys of the entries, in order. -/
def keys (entries : List (κ × α)) : List κ :=
  entries.map Prod.fst

/-- Changes the value `old` under `key` to `combine old value`, or appends the pair of `key` and
`value` when the key is new. -/
def insertWith (combine : α → α → α) (key : κ) (value : α) : List (κ × α) → List (κ × α)
  | [] => [(key, value)]
  | (k, old) :: rest =>
      if k = key then (k, combine old value) :: rest
      else (k, old) :: insertWith combine key value rest

/-- Makes `value` the value under `key`, whatever was there. -/
def put (key : κ) (value : α) (entries : List (κ × α)) : List (κ × α) :=
  insertWith (fun _ new => new) key value entries

/-- Puts the pairs of `more` into `entries`, one after the other. -/
def extend (entries more : List (κ × α)) : List (κ × α) :=
  more.foldl (fun written pair => put pair.1 pair.2 written) entries

/-- The entries written by putting the given pairs in turn, so that a repeated key keeps its first
position and its last value. -/
def ofList (pairs : List (κ × α)) : List (κ × α) :=
  extend [] pairs

/-- Whether some entry has the given key. -/
def contains (key : κ) (entries : List (κ × α)) : Bool :=
  (entries.lookup key).isSome

theorem keys_insertWith (combine : α → α → α) (key : κ) (value : α) (entries : List (κ × α)) :
    keys (insertWith combine key value entries) =
      if key ∈ keys entries then keys entries else keys entries ++ [key] := by
  induction entries with
  | nil => simp [insertWith, keys]
  | cons pair rest ih =>
    obtain ⟨k, old⟩ := pair
    by_cases h : k = key
    · simp [insertWith, keys, h]
    · have h' : ¬ key = k := fun e => h e.symm
      simp only [keys] at ih
      by_cases hm : key ∈ rest.map Prod.fst
      · simp only [hm, if_true] at ih
        simp [insertWith, keys, h, h', ih, hm]
      · simp only [hm, if_false] at ih
        simp [insertWith, keys, h, h', ih, hm]

theorem lookup_insertWith (combine : α → α → α) (key other : κ) (value : α)
    (entries : List (κ × α)) :
    (insertWith combine key value entries).lookup other =
      if other = key then some ((entries.lookup key).elim value (combine · value))
      else entries.lookup other := by
  induction entries with
  | nil =>
    by_cases h : other = key
    · simp [insertWith, h]
    · have hb : (other == key) = false := by simpa using h
      simp [insertWith, h, List.lookup_cons, hb]
  | cons pair rest ih =>
    obtain ⟨k, old⟩ := pair
    by_cases h : k = key
    · subst h
      by_cases ho : other = k
      · simp [insertWith, ho]
      · have hb : (other == k) = false := by simpa using ho
        simp [insertWith, ho, List.lookup_cons, hb]
    · have hk : (key == k) = false := by simpa using fun e => h e.symm
      by_cases ho : other = k
      · subst ho
        simp [insertWith, h]
      · have hb : (other == k) = false := by simpa using ho
        simp [insertWith, h, List.lookup_cons, hb, hk, ih]

/-- Writing keeps the keys distinct. -/
theorem nodup_insertWith {combine : α → α → α} {key : κ} {value : α} {entries : List (κ × α)}
    (h : (keys entries).Nodup) : (keys (insertWith combine key value entries)).Nodup := by
  rw [keys_insertWith]
  split
  · exact h
  · next hm =>
    rw [List.nodup_append]
    refine ⟨h, by simp, ?_⟩
    intro a ha b hb e
    simp only [List.mem_singleton] at hb
    exact hm (hb ▸ e ▸ ha)

/-- Extending distinct entries by any pairs keeps the keys distinct. -/
theorem nodup_extend {entries : List (κ × α)} (more : List (κ × α)) (h : (keys entries).Nodup) :
    (keys (extend entries more)).Nodup := by
  induction more generalizing entries with
  | nil => exact h
  | cons pair rest ih => exact ih (nodup_insertWith h)

theorem nodup_ofList (pairs : List (κ × α)) : (keys (ofList pairs)).Nodup :=
  nodup_extend pairs List.nodup_nil

/-- A new key goes to the end. -/
theorem insertWith_eq_append (combine : α → α → α) {key : κ} {value : α} {entries : List (κ × α)}
    (h : key ∉ keys entries) :
    insertWith combine key value entries = entries ++ [(key, value)] := by
  induction entries with
  | nil => rfl
  | cons entry rest ih =>
    obtain ⟨hne, hrest⟩ : key ≠ entry.1 ∧ key ∉ keys rest := by simpa [keys] using h
    rw [insertWith, if_neg (Ne.symm hne), ih hrest, List.cons_append]

/-- Writing pairs with new and distinct keys appends them. -/
theorem foldl_insertWith_eq_append (combine : α → α → α) {entries more : List (κ × α)}
    (h : (keys (entries ++ more)).Nodup) :
    more.foldl (fun written pair => insertWith combine pair.1 pair.2 written) entries =
      entries ++ more := by
  induction more generalizing entries with
  | nil => rw [List.append_nil]; rfl
  | cons pair rest ih =>
    have hkey : pair.1 ∉ keys entries := by
      intro hmem
      rw [keys, List.map_append, List.nodup_append] at h
      exact h.2.2 _ hmem _ List.mem_cons_self rfl
    rw [List.append_cons] at h ⊢
    rw [← ih h, List.foldl_cons, insertWith_eq_append combine hkey]

/-- Extending by pairs with new and distinct keys appends them. -/
theorem extend_eq_append {entries more : List (κ × α)}
    (h : (keys (entries ++ more)).Nodup) : extend entries more = entries ++ more :=
  foldl_insertWith_eq_append (fun _ new => new) h

/-- Distinct entries are kept as they are. -/
theorem ofList_eq_self {pairs : List (κ × α)} (h : (keys pairs).Nodup) : ofList pairs = pairs :=
  extend_eq_append h

/-- What holds of the entries and of a pair put among them holds of the result. -/
theorem forall_mem_put {p : κ × α → Prop} {key : κ} {value : α} {entries : List (κ × α)}
    (h : ∀ entry ∈ entries, p entry) (hnew : p (key, value)) :
    ∀ entry ∈ put key value entries, p entry := by
  induction entries with
  | nil => simpa [put, insertWith] using hnew
  | cons entry rest ih =>
    obtain ⟨hentry, hrest⟩ := List.forall_mem_cons.mp h
    by_cases hk : entry.1 = key
    · simpa [put, insertWith, hk] using ⟨hnew, fun k v hkv => hrest (k, v) hkv⟩
    · simpa [put, insertWith, hk] using ⟨hentry, fun k v hkv => ih hrest (k, v) hkv⟩

theorem forall_mem_ofList {p : κ × α → Prop} {pairs : List (κ × α)} (h : ∀ pair ∈ pairs, p pair) :
    ∀ entry ∈ ofList pairs, p entry :=
  List.foldlRecOn pairs _ (motive := fun entries => ∀ entry ∈ entries, p entry) (by simp)
    fun _ hentries pair hpair => forall_mem_put hentries (h pair hpair)

end FieldSelection.Entries
