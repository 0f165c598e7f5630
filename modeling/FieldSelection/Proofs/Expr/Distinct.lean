import FieldSelection.Expr.Json
import FieldSelection.Proofs.Entries

/-!
# Expressions read from a text

A text may repeat keys, but in the expression read from it no selection does (`distinct_of_parse`).
An array is read item by item and an object entry by entry, once repeated keys are resolved.
-/

namespace FieldSelection

section Except

variable {ε α β : Type}

theorem except_bind_eq_ok {x : Except ε α} {f : α → Except ε β} {b : β} :
    x >>= f = .ok b ↔ ∃ a, x = .ok a ∧ f a = .ok b := by
  cases x <;> simp [bind, Except.bind]

theorem except_map_eq_ok {x : Except ε α} {f : α → β} {b : β} :
    x.map f = .ok b ↔ ∃ a, x = .ok a ∧ f a = b := by
  cases x <;> simp [Except.map]

end Except

namespace Json

variable {τ : Type} [DecidableEq τ] {json : Json τ}

theorem dedupItems_eq_map (items : List (Json τ)) : dedupItems items = items.map dedup := by
  induction items with
  | nil => rfl
  | cons item rest ih => rw [dedupItems, ih, List.map_cons]

theorem dedupEntries_eq_map (entries : List (τ × Json τ)) :
    dedupEntries entries = entries.map fun entry => (entry.1, entry.2.dedup) := by
  induction entries with
  | nil => rfl
  | cons entry rest ih => rw [dedupEntries, ih, List.map_cons]

/-- Resolving repeated keys goes into every item of an array. -/
theorem exists_origin_of_dedup_eq_array {values : List (Json τ)} (h : json.dedup = .array values) :
    ∀ value ∈ values, ∃ origin : Json τ, origin.dedup = value := by
  cases json with
  | array items =>
      cases h
      rw [dedupItems_eq_map]
      exact List.forall_mem_map.mpr fun item _ => ⟨item, rfl⟩
  | _ => cases h

/-- Resolving repeated keys leaves an object with distinct keys, and goes into every value. -/
theorem nodup_of_dedup_eq_object {values : List (τ × Json τ)} (h : json.dedup = .object values) :
    (Entries.keys values).Nodup ∧ ∀ value ∈ values, ∃ origin : Json τ, origin.dedup = value.2 := by
  cases json with
  | object entries =>
      cases h
      rw [dedupEntries_eq_map]
      exact ⟨Entries.nodup_ofList _,
        Entries.forall_mem_ofList (List.forall_mem_map.mpr fun entry _ => ⟨entry.2, rfl⟩)⟩
  | _ => cases h

end Json

namespace Expr

variable {json : Json String} {items : List Expr} {entries : List (Name × Expr)}

theorem forall₂_of_ofJsonItems {values : List (Json String)}
    (h : ofJsonItems values = .ok items) :
    List.Forall₂ (fun value item => ofJson value = .ok item) values items := by
  induction values generalizing items with
  | nil =>
      cases h
      exact .nil
  | cons value rest ih =>
      obtain ⟨item, hitem, h⟩ := except_bind_eq_ok.mp h
      obtain ⟨others, hothers, h⟩ := except_bind_eq_ok.mp h
      cases h
      exact .cons hitem (ih hothers)

theorem forall₂_of_ofJsonEntries {values : List (String × Json String)}
    (h : ofJsonEntries values = .ok entries) :
    List.Forall₂ (fun value entry => ⟨value.1⟩ = entry.1 ∧ ofJson value.2 = .ok entry.2) values
      entries := by
  induction values generalizing entries with
  | nil =>
      cases h
      exact .nil
  | cons value rest ih =>
      obtain ⟨expr, hexpr, h⟩ := except_bind_eq_ok.mp h
      obtain ⟨others, hothers, h⟩ := except_bind_eq_ok.mp h
      cases h
      exact .cons ⟨rfl, hexpr⟩ (ih hothers)

/-- A list is read from an array, item by item. -/
theorem exists_array_of_ofJson (h : ofJson json = .ok (.list items)) :
    ∃ values, json = .array values ∧
      List.Forall₂ (fun value item => ofJson value = .ok item) values items := by
  cases json with
  | array values =>
      obtain ⟨_, hitems, heq⟩ := except_map_eq_ok.mp h
      cases heq
      exact ⟨values, rfl, forall₂_of_ofJsonItems hitems⟩
  | object values =>
      obtain ⟨_, _, heq⟩ := except_map_eq_ok.mp h
      cases heq
  | _ => cases h

/-- A selection is read from an object, entry by entry. -/
theorem exists_object_of_ofJson (h : ofJson json = .ok (.selection entries)) :
    ∃ values, json = .object values ∧
      List.Forall₂ (fun value entry => ⟨value.1⟩ = entry.1 ∧ ofJson value.2 = .ok entry.2) values
        entries := by
  cases json with
  | array values =>
      obtain ⟨_, _, heq⟩ := except_map_eq_ok.mp h
      cases heq
  | object values =>
      obtain ⟨_, hentries, heq⟩ := except_map_eq_ok.mp h
      cases heq
      exact ⟨values, rfl, forall₂_of_ofJsonEntries hentries⟩
  | _ => cases h

/-- Once repeated keys are resolved, no selection in what a value stands for repeats a key. -/
theorem distinct_of_ofJson_dedup {expr : Expr} {json : Json String}
    (h : ofJson json.dedup = .ok expr) : expr.Distinct := by
  induction expr using induct generalizing json with
  | empty | name => trivial
  | list items ih =>
      obtain ⟨values, hvalues, hitems⟩ := exists_array_of_ofJson h
      refine distinctItems_iff.mpr fun item hmem => ?_
      obtain ⟨value, hvalue, hitem⟩ := exists_left_of_forall₂ hitems hmem
      obtain ⟨origin, rfl⟩ := Json.exists_origin_of_dedup_eq_array hvalues value hvalue
      exact ih item hmem hitem
  | selection entries ih =>
      obtain ⟨values, hvalues, hentries⟩ := exists_object_of_ofJson h
      obtain ⟨hnodup, horigin⟩ := Json.nodup_of_dedup_eq_object hvalues
      refine ⟨?_, distinctEntries_iff.mpr fun entry hmem => ?_⟩
      · have hkeys : (Entries.keys values).map Name.mk = Entries.keys entries := by
          rw [Entries.keys, Entries.keys, List.map_map, ← List.forall₂_eq_eq_eq,
            List.forall₂_map_left_iff, List.forall₂_map_right_iff]
          exact hentries.imp fun _ _ hentry => hentry.1
        rw [← hkeys]
        exact List.Pairwise.map _ (fun _ _ hne heq => hne (congrArg Name.text heq)) hnodup
      · obtain ⟨value, hvalue, _, hentry⟩ := exists_left_of_forall₂ hentries hmem
        obtain ⟨origin, horigin⟩ := horigin value hvalue
        exact ih entry hmem (horigin ▸ hentry)

/-- No selection in an expression read from a text repeats a key. -/
theorem distinct_of_parse {text : String} {expr : Expr} (h : parse text = .ok expr) :
    expr.Distinct := by
  unfold parse at h
  split at h
  · cases h
  · exact distinct_of_ofJson_dedup h

end Expr

end FieldSelection
