import FieldSelection.Proofs.Entries.Extension
import FieldSelection.Proofs.Expr.Distinct
import FieldSelection.Proofs.Json.RoundTrip

/-!
# The values within a document

`Json.kinds` lists the kinds of all values within a value, in document order, those under repeated
keys included. `Json.survivingKinds` leaves out what a later entry with the same key replaces. The
two are the same once repeated keys are resolved (`kinds_dedup`).
-/

namespace FieldSelection.Json

variable {τ : Type}

mutual
/-- The kinds of a value and of every value within it, in document order. -/
def kinds : Json τ → List Kind
  | .null => [.null]
  | .bool _ => [.boolean]
  | .number _ => [.number]
  | .string _ => [.string]
  | .array items => .array :: itemKinds items
  | .object entries => .object :: entryKinds entries

/-- The kinds within the items of an array. -/
def itemKinds : List (Json τ) → List Kind
  | [] => []
  | item :: rest => kinds item ++ itemKinds rest

/-- The kinds within the values of an object. -/
def entryKinds : List (τ × Json τ) → List Kind
  | [] => []
  | (_, value) :: rest => kinds value ++ entryKinds rest
end

theorem itemKinds_eq_flatMap (items : List (Json τ)) : itemKinds items = items.flatMap kinds := by
  induction items with
  | nil => rfl
  | cons item rest ih => rw [itemKinds, ih, List.flatMap_cons]

theorem entryKinds_eq_flatMap (entries : List (τ × Json τ)) :
    entryKinds entries = (entries.map Prod.snd).flatMap kinds := by
  induction entries with
  | nil => rfl
  | cons entry rest ih => rw [entryKinds, ih, List.map_cons, List.flatMap_cons]

variable [DecidableEq τ]

mutual
/-- The kinds of a value and of what survives within it when every repeated key keeps its first
place and its last value, in document order. -/
def survivingKinds : Json τ → List Kind
  | .null => [.null]
  | .bool _ => [.boolean]
  | .number _ => [.number]
  | .string _ => [.string]
  | .array items => .array :: survivingItemKinds items
  | .object entries => .object :: (Entries.lastValues (survivingEntryKinds entries)).flatten

/-- The kinds of what survives within the items of an array. -/
def survivingItemKinds : List (Json τ) → List Kind
  | [] => []
  | item :: rest => survivingKinds item ++ survivingItemKinds rest

/-- The keys of an object, each with the kinds of what survives within its value. -/
def survivingEntryKinds : List (τ × Json τ) → List (τ × List Kind)
  | [] => []
  | (key, value) :: rest => (key, survivingKinds value) :: survivingEntryKinds rest
end

theorem survivingItemKinds_eq_flatMap (items : List (Json τ)) :
    survivingItemKinds items = items.flatMap survivingKinds := by
  induction items with
  | nil => rfl
  | cons item rest ih => rw [survivingItemKinds, ih, List.flatMap_cons]

theorem survivingEntryKinds_eq_map (entries : List (τ × Json τ)) :
    survivingEntryKinds entries = entries.map fun entry => (entry.1, entry.2.survivingKinds) := by
  induction entries with
  | nil => rfl
  | cons entry rest ih => rw [survivingEntryKinds, ih, List.map_cons]

/-- What survives of a document is what is left once repeated keys are resolved. -/
theorem kinds_dedup (json : Json τ) : json.dedup.kinds = json.survivingKinds := by
  induction json using induct with
  | null | bool | number | string => rfl
  | array items ih =>
      have hitems : itemKinds (dedupItems items) = survivingItemKinds items := by
        rw [itemKinds_eq_flatMap, dedupItems_eq_map, List.flatMap_map,
          survivingItemKinds_eq_flatMap]
        exact List.flatMap_congr ih
      rw [dedup, kinds, hitems, survivingKinds]
  | object entries ih =>
      have hentries : entryKinds (Entries.ofList (dedupEntries entries)) =
          (Entries.lastValues (survivingEntryKinds entries)).flatten :=
        calc entryKinds (Entries.ofList (dedupEntries entries))
            = (Entries.lastValues (dedupEntries entries)).flatMap kinds := by
              rw [entryKinds_eq_flatMap, Entries.map_snd_ofList]
          _ = (Entries.lastValues
                ((dedupEntries entries).map fun entry => (entry.1, entry.2.kinds))).flatten := by
              rw [Entries.lastValues_map, List.flatMap_def]
          _ = (Entries.lastValues (survivingEntryKinds entries)).flatten := by
              rw [dedupEntries_eq_map, List.map_map, survivingEntryKinds_eq_map]
              refine congrArg (fun values => (Entries.lastValues values).flatten) ?_
              exact List.map_congr_left fun entry hmem => congrArg (Prod.mk entry.1) (ih entry hmem)
      rw [dedup, kinds, hentries, survivingKinds]

end FieldSelection.Json
